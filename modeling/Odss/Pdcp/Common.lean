import Odss.Rlc.Common

/-!
# `Odss.Pdcp.Common`: COUNT values and data headers of PDCP

The parts that the LTE and NR entities share (`lib/include/srsran/upper/pdcp_entity_base.h`,
`lib/src/pdcp/pdcp_entity_base.cc`). Numbers are natural numbers, and those of 32 bits wrap
where the source computes with them. The security functions are parameters. There is room for
each header and MAC.

* `count_hfn_sn` and `hfn_count`, `sn_count` relate a COUNT to its HFN and SN.
* `readDataHeader_writeDataHeader` is the round trip of the header.
-/

set_option linter.all false

namespace Odss.Pdcp

open Odss.Rlc

/-- `sn_len` -/
inductive SnLen where
  | len5
  | len7
  | len12
  | len18
deriving DecidableEq, Repr

/-- The number of bits of an SN. -/
def SnLen.bits : SnLen → Nat
  | .len5 => 5
  | .len7 => 7
  | .len12 => 12
  | .len18 => 18

/-- `hdr_len_bytes` -/
def SnLen.hdrLenBytes (snLen : SnLen) : Nat := (snLen.bits + 7) / 8

/-- The number of SNs. -/
def SnLen.nofSns (snLen : SnLen) : Nat := 2 ^ snLen.bits

/-- `HFN` -/
def SnLen.hfn (snLen : SnLen) (count : Nat) : Nat := count >>> snLen.bits

/-- `SN` -/
def SnLen.sn (snLen : SnLen) (count : Nat) : Nat := count % snLen.nofSns

/-- `COUNT` -/
def SnLen.count (snLen : SnLen) (hfn sn : Nat) : Nat := (hfn <<< snLen.bits) % 2 ^ 32 ||| sn

/-- `rb_type` -/
inductive RbType where
  | srb
  | drb
deriving DecidableEq, Repr

/-- The ciphering and integrity functions, under the keys of an entity. Each takes a COUNT. The
MAC of a PDU that is too short for one is not set. -/
structure Security where
  cipherEncrypt : Nat → Bytes → Bytes
  cipherDecrypt : Nat → Bytes → Bytes
  integrityGenerate : Nat → Bytes → Bytes
  integrityVerify : Nat → Bytes → Option Bytes → Bool

/-- The functions of EEA0 and EIA0. -/
def Security.none : Security := ⟨fun _ msg => msg, fun _ ct => ct, fun _ _ => [0, 0, 0, 0],
  fun _ _ _ => true⟩

/-! ### Headers -/

/-- `read_data_header` -/
def readDataHeader (snLen : SnLen) (pdu : Bytes) : Nat :=
  if pdu.length ≤ snLen.hdrLenBytes then 0
  else
    match snLen with
    | .len5 | .len7 => snLen.sn (pdu.getD 0 0).toNat
    | .len12 => snLen.sn ((pdu.getD 0 0).toNat * 256 + (pdu.getD 1 0).toNat)
    | .len18 => snLen.sn ((pdu.getD 0 0).toNat * 65536 + (pdu.getD 1 0).toNat * 256
        + (pdu.getD 2 0).toNat)

/-- The header of `write_data_header`. A DRB has the D flag in the first byte. -/
def dataHeader (snLen : SnLen) (rbType : RbType) (count : Nat) : Bytes :=
  let sn := snLen.sn count
  let flag := if rbType = .drb then 128 else 0
  match snLen with
  | .len5 => [UInt8.ofNat sn]
  | .len7 => [UInt8.ofNat (flag + sn)]
  | .len12 => [UInt8.ofNat (flag + sn / 256), UInt8.ofNat (sn % 256)]
  | .len18 => [UInt8.ofNat (128 + sn / 65536), UInt8.ofNat (sn / 256 % 256), UInt8.ofNat (sn % 256)]

/-- `write_data_header` -/
def writeDataHeader (snLen : SnLen) (rbType : RbType) (count : Nat) (sdu : Bytes) : Bytes :=
  dataHeader snLen rbType count ++ sdu

/-- `discard_data_header` -/
def discardDataHeader (snLen : SnLen) (pdu : Bytes) : Bytes := pdu.drop snLen.hdrLenBytes

/-- `extract_mac`: the MAC and the rest of the PDU. -/
def extractMac (pdu : Bytes) : Option Bytes × Bytes :=
  if pdu.length < 4 then (none, pdu)
  else (some (pdu.drop (pdu.length - 4)), pdu.take (pdu.length - 4))

/-- `append_mac` -/
def appendMac (sdu mac : Bytes) : Bytes := sdu ++ mac

/-! ### COUNT values -/

theorem SnLen.nofSns_pos (snLen : SnLen) : 0 < snLen.nofSns := Nat.two_pow_pos _

theorem SnLen.bits_le (snLen : SnLen) : snLen.bits ≤ 18 := by cases snLen <;> decide

theorem SnLen.nofSns_dvd (snLen : SnLen) : snLen.nofSns ∣ 2 ^ 32 :=
  Nat.pow_dvd_pow 2 (Nat.le_trans snLen.bits_le (by decide))

theorem SnLen.sn_lt (snLen : SnLen) (count : Nat) : snLen.sn count < snLen.nofSns :=
  Nat.mod_lt _ snLen.nofSns_pos

theorem SnLen.hfn_eq (snLen : SnLen) (count : Nat) : snLen.hfn count = count / snLen.nofSns :=
  Nat.shiftRight_eq_div_pow _ _

/-- A COUNT is the sum of its parts. -/
theorem SnLen.count_eq (snLen : SnLen) (hfn : Nat) {sn : Nat} (h : sn < snLen.nofSns) :
    snLen.count hfn sn = hfn * snLen.nofSns % 2 ^ 32 + sn := by
  obtain ⟨m, hm⟩ := snLen.nofSns_dvd
  have hmul : hfn * snLen.nofSns % 2 ^ 32 = (hfn % m) <<< snLen.bits := by
    rw [hm, Nat.mul_comm hfn, Nat.mul_mod_mul_left, Nat.shiftLeft_eq, Nat.mul_comm]
    rfl
  rw [SnLen.count, Nat.shiftLeft_eq]
  show hfn * snLen.nofSns % 2 ^ 32 ||| sn = _
  rw [hmul]
  exact (Nat.shiftLeft_add_eq_or_of_lt h _).symm

theorem SnLen.count_lt (snLen : SnLen) (hfn : Nat) {sn : Nat} (h : sn < snLen.nofSns) :
    snLen.count hfn sn < 2 ^ 32 := by
  rw [SnLen.count]
  have hle : snLen.nofSns ≤ 2 ^ 32 := Nat.le_of_dvd (by decide) snLen.nofSns_dvd
  exact Nat.or_lt_two_pow (Nat.mod_lt _ (by decide)) (Nat.lt_of_lt_of_le h hle)

theorem SnLen.sn_count (snLen : SnLen) (hfn : Nat) {sn : Nat} (h : sn < snLen.nofSns) :
    snLen.sn (snLen.count hfn sn) = sn := by
  obtain ⟨m, hm⟩ := snLen.nofSns_dvd
  rw [snLen.count_eq hfn h, SnLen.sn, hm, Nat.mul_comm hfn, Nat.mul_mod_mul_left,
    Nat.mul_add_mod, Nat.mod_eq_of_lt h]

/-- A COUNT of 32 bits from its parts. -/
theorem SnLen.count_hfn_sn (snLen : SnLen) {count : Nat} (h : count < 2 ^ 32) :
    snLen.count (snLen.hfn count) (snLen.sn count) = count := by
  have hle : count / snLen.nofSns * snLen.nofSns ≤ count := Nat.div_mul_le_self _ _
  rw [snLen.count_eq _ (snLen.sn_lt count), snLen.hfn_eq, Nat.mod_eq_of_lt (by omega),
    SnLen.sn, Nat.mul_comm]
  exact Nat.div_add_mod count snLen.nofSns

/-! ### The round trip of the header -/

theorem length_dataHeader (snLen : SnLen) (rbType : RbType) (count : Nat) :
    (dataHeader snLen rbType count).length = snLen.hdrLenBytes := by
  cases snLen <;> simp [dataHeader, SnLen.hdrLenBytes, SnLen.bits]

theorem discardDataHeader_writeDataHeader (snLen : SnLen) (rbType : RbType) (count : Nat)
    (sdu : Bytes) : discardDataHeader snLen (writeDataHeader snLen rbType count sdu) = sdu := by
  rw [discardDataHeader, writeDataHeader, ← length_dataHeader snLen rbType count,
    List.drop_left]

private theorem toNat_ofNat_mod (n : Nat) : (UInt8.ofNat n).toNat = n % 256 := UInt8.toNat_ofNat'

theorem readDataHeader_writeDataHeader (snLen : SnLen) (rbType : RbType) (count : Nat)
    {sdu : Bytes} (h : sdu ≠ []) :
    readDataHeader snLen (writeDataHeader snLen rbType count sdu) = snLen.sn count := by
  have hlen : snLen.hdrLenBytes < (writeDataHeader snLen rbType count sdu).length := by
    have hpos := List.length_pos_of_ne_nil h
    rw [writeDataHeader, List.length_append, length_dataHeader]
    omega
  have hsn := snLen.sn_lt count
  have hflag : (if rbType = .drb then 128 else 0) % 128 = 0 := by split <;> rfl
  have hle : (if rbType = .drb then 128 else 0) ≤ 128 := by split <;> decide
  generalize hf : (if rbType = .drb then 128 else 0) = flag at hflag hle
  unfold readDataHeader
  rw [if_neg (Nat.not_le_of_lt hlen)]
  cases snLen with
  | len5 =>
    simp only [SnLen.nofSns, SnLen.bits, writeDataHeader, dataHeader, List.cons_append,
      List.getD_cons_zero, toNat_ofNat_mod] at hsn ⊢
    rw [SnLen.sn, SnLen.nofSns, SnLen.bits]
    omega
  | len7 =>
    simp only [SnLen.nofSns, SnLen.bits, writeDataHeader, dataHeader, List.cons_append,
      List.getD_cons_zero, toNat_ofNat_mod, hf] at hsn ⊢
    rw [SnLen.sn, SnLen.nofSns, SnLen.bits]
    omega
  | len12 =>
    simp only [SnLen.nofSns, SnLen.bits, writeDataHeader, dataHeader, List.cons_append,
      List.getD_cons_zero, List.getD_cons_succ, toNat_ofNat_mod, hf] at hsn ⊢
    rw [SnLen.sn, SnLen.nofSns, SnLen.bits]
    omega
  | len18 =>
    simp only [SnLen.nofSns, SnLen.bits, writeDataHeader, dataHeader, List.cons_append,
      List.getD_cons_zero, List.getD_cons_succ, toNat_ofNat_mod] at hsn ⊢
    rw [SnLen.sn, SnLen.nofSns, SnLen.bits]
    omega

end Odss.Pdcp
