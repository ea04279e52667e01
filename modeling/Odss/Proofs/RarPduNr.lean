import Odss.Lib.BitStream
import Odss.MacNr.RarPdu

/-!
# `Odss.Proofs.RarPduNr`: random access responses, written and read

`RarRoundTrips` is what the writer and the reader owe each other, `ReadsSafely` what the reader owes
on its own: it ends, stays in the PDU, and fails when a subPDU is cut off.

The length that is left still counts the header when it is compared with the length of a RAR, and a
subPDU is read also when nothing is left. `Exact` says that no subPDU meets one of the two, and
`rarPdu_iff_exact` that this is all.
-/

set_option linter.all false

namespace Odss.MacNr

open Odss.Rlc (Bytes)

/-! ### What is meant -/

/-- The bytes of a PDU, with those behind it. -/
structure RarPayload where
  mem : Nat → UInt8
  len : Nat
  len_pos : 0 < len
  len_lt : len < 2 ^ 32

/-- The subPDUs of a PDU that has room for them. -/
structure RarContent where
  subpdus : List RarSubpdu
  pduLen : Nat
  nonempty : subpdus ≠ []
  fits : (subpdus.map RarSubpdu.totalLength).sum ≤ pduLen
  pduLen_lt : pduLen < 2 ^ 32

/-- The subPDUs are written, and the bytes are read as the same subPDUs. -/
def RarRoundTrips (c : RarContent) : Prop :=
  ∃ bytes, packRar c.pduLen c.subpdus = some bytes ∧ bytes.length = c.pduLen ∧
    ∀ mem : Nat → UInt8, (∀ i < bytes.length, mem i = bytes.getD i 0) →
      ∃ fuel r, unpackRar mem c.pduLen fuel = some r ∧ r.ret = true ∧ r.subpdus = c.subpdus

namespace RarPayload

variable (p : RarPayload)

/-- The header of a RAPID. -/
def IsRapid (pos : Nat) : Prop := (p.mem pos).toNat.testBit 6 = true

instance (pos : Nat) : Decidable (p.IsRapid pos) := inferInstanceAs (Decidable (_ = true))

/-- The number of bytes of the subPDU with a header. -/
def size (pos : Nat) : Nat := if p.IsRapid pos then 8 else 1

/-- The reserved bits of the subPDU are clear. -/
def ReservedClear (pos : Nat) : Prop :=
  if p.IsRapid pos then (p.mem (pos + 1)).toNat.testBit 7 = false
  else (p.mem pos).toNat.testBit 4 = false ∧ (p.mem pos).toNat.testBit 5 = false

/-- The E bit. -/
def More (pos : Nat) : Prop := (p.mem pos).toNat.testBit 7 = true

/-- The positions of the subPDUs from one of them on. -/
inductive Reached (start : Nat) : Nat → Prop where
  | start : Reached start start
  | next {pos : Nat} (h : Reached start pos) (whole : pos + p.size pos ≤ p.len)
      (clear : p.ReservedClear pos) (more : p.More pos) : Reached start (pos + p.size pos)

/-- A subPDU is cut off by the end of the PDU. -/
def CutOff (start : Nat) : Prop := ∃ pos, p.Reached start pos ∧ p.len < pos + p.size pos

/-- No subPDU starts at the end of the PDU, and no RAPID without reserved bit lacks just its last
byte. -/
def ExactFrom (start : Nat) : Prop :=
  ∀ pos, p.Reached start pos →
    pos < p.len ∧ ¬ (p.IsRapid pos ∧ pos + macRarNbytes = p.len ∧ p.ReservedClear pos)

/-- The same for the whole PDU. -/
def Exact : Prop := p.ExactFrom 0

/-- The reader ends, stays in the PDU, and fails when a subPDU is cut off. -/
def ReadsSafely : Prop :=
  ∃ fuel r, unpackRar p.mem p.len fuel = some r ∧ (∀ i ∈ r.reads, i < p.len) ∧
    (p.CutOff 0 → r.ret = false)

end RarPayload

/-! ### One subPDU -/

namespace RarPayload

variable {p : RarPayload} {pos : Nat}

theorem size_pos (p : RarPayload) (pos : Nat) : 0 < p.size pos := by
  unfold size
  split <;> decide

/-- The subPDUs behind the first one. -/
theorem Reached.cases_head {q : Nat} (h : p.Reached pos q) :
    q = pos ∨ (pos + p.size pos ≤ p.len ∧ p.ReservedClear pos ∧ p.More pos ∧
      p.Reached (pos + p.size pos) q) := by
  induction h with
  | start => exact .inl rfl
  | next h whole clear more ih =>
    rcases ih with rfl | ⟨whole', clear', more', h'⟩
    · exact .inr ⟨whole, clear, more, .start⟩
    · exact .inr ⟨whole', clear', more', h'.next whole clear more⟩

theorem Reached.tail {q : Nat} (whole : pos + p.size pos ≤ p.len) (clear : p.ReservedClear pos)
    (more : p.More pos) (h : p.Reached (pos + p.size pos) q) : p.Reached pos q := by
  induction h with
  | start => exact Reached.start.next whole clear more
  | next _ whole' clear' more' ih => exact ih.next whole' clear' more'

/-- What is read of a subPDU, by what is left of the PDU. -/
theorem readRarSubpdu_spec (p : RarPayload) {left : Nat} :
    let r := readRarSubpdu p.mem pos left
    (r.eBit = true ↔ p.More pos) ∧ pos ∈ r.reads ∧
    ((p.ReservedClear pos ∧ (p.IsRapid pos → macRarNbytes ≤ left)) →
      r.subpdu.isSome ∧ r.totalLength = p.size pos ∧
        ∀ i, i ∈ r.reads ↔ pos ≤ i ∧ i < pos + p.size pos) ∧
    (¬ (p.ReservedClear pos ∧ (p.IsRapid pos → macRarNbytes ≤ left)) →
      r.subpdu = none ∧ ∀ i ∈ r.reads, i = pos ∨ (i = pos + 1 ∧ macRarNbytes ≤ left)) := by
  unfold readRarSubpdu
  by_cases hrapid : (p.mem pos).toNat.testBit 6 = true
  · have hsize : p.size pos = 8 := if_pos hrapid
    have hclear : p.ReservedClear pos ↔ (p.mem (pos + 1)).toNat.testBit 7 = false :=
      iff_of_eq (if_pos hrapid)
    rw [if_pos hrapid]
    by_cases hleft : left ≥ macRarNbytes
    · rw [if_pos hleft]
      by_cases hres : (p.mem (pos + 1)).toNat.testBit 7 = true
      · dsimp only
        rw [if_pos hres]
        refine ⟨Iff.rfl, List.mem_cons_self, fun h => ?_, fun _ => ⟨rfl, ?_⟩⟩
        · rw [hclear, hres] at h
          exact absurd h.1 (by decide)
        · intro i hi
          rcases List.mem_cons.mp hi with rfl | hi
          · exact .inl rfl
          · exact .inr ⟨List.mem_singleton.mp hi, hleft⟩
      · dsimp only
        rw [if_neg hres]
        refine ⟨Iff.rfl, List.mem_cons_self, fun _ => ⟨rfl, hsize.symm, fun i => ?_⟩, fun h => ?_⟩
        · have hmac : macRarNbytes = 7 := rfl
          rw [List.mem_cons, List.mem_range'_1, hsize]
          omega
        · refine absurd ⟨hclear.mpr ?_, fun _ => hleft⟩ h
          exact Bool.not_eq_true _ ▸ hres
    · rw [if_neg hleft]
      refine ⟨Iff.rfl, List.mem_cons_self, fun h => absurd (h.2 hrapid) hleft, fun _ => ⟨rfl, ?_⟩⟩
      exact fun i hi => .inl (List.mem_singleton.mp hi)
  · have hsize : p.size pos = 1 := if_neg hrapid
    have hclear : p.ReservedClear pos ↔
        ¬ ((p.mem pos).toNat.testBit 4 = true ∨ (p.mem pos).toNat.testBit 5 = true) := by
      rw [not_or, Bool.not_eq_true, Bool.not_eq_true]
      exact iff_of_eq (if_neg hrapid)
    rw [if_neg hrapid]
    by_cases hres : (p.mem pos).toNat.testBit 4 = true ∨ (p.mem pos).toNat.testBit 5 = true
    · rw [if_pos hres]
      refine ⟨Iff.rfl, List.mem_cons_self, fun h => absurd hres (hclear.mp h.1),
        fun _ => ⟨rfl, ?_⟩⟩
      exact fun i hi => .inl (List.mem_singleton.mp hi)
    · rw [if_neg hres]
      refine ⟨Iff.rfl, List.mem_cons_self, fun _ => ⟨rfl, hsize.symm, fun i => ?_⟩, fun h => ?_⟩
      · rw [List.mem_singleton, hsize]
        omega
      · exact absurd ⟨hclear.mpr hres, fun h => absurd h hrapid⟩ h

/-! ### The loop of the reader -/

/-- The counters do not wrap behind a subPDU in the PDU. -/
theorem unpackRarFrom_whole {left : Nat} (hleft : pos + left = p.len)
    (hend : pos + p.size pos ≤ p.len)
    (hread : p.ReservedClear pos ∧ (p.IsRapid pos → macRarNbytes ≤ left)) :
    ∃ subpdu, ∀ fuel, unpackRarFrom p.mem p.len (fuel + 1) pos left =
      if (p.mem pos).toNat.testBit 7 then
        (unpackRarFrom p.mem p.len fuel (pos + p.size pos) (left - p.size pos)).map fun rest =>
          ⟨rest.ret, subpdu :: rest.subpdus, (readRarSubpdu p.mem pos left).reads ++ rest.reads⟩
      else some ⟨true, [subpdu], (readRarSubpdu p.mem pos left).reads⟩ := by
  have hlt := p.len_lt
  obtain ⟨hmore, -, hwhole, -⟩ := @readRarSubpdu_spec pos p left
  obtain ⟨hsome, htotal, -⟩ := hwhole hread
  obtain ⟨subpdu, hsubpdu⟩ := Option.isSome_iff_exists.mp hsome
  have hnext : (pos + (readRarSubpdu p.mem pos left).totalLength) % 2 ^ 32 = pos + p.size pos := by
    rw [htotal, Nat.mod_eq_of_lt (by omega)]
  have hrest : (left + 2 ^ 32 - (readRarSubpdu p.mem pos left).totalLength) % 2 ^ 32
      = left - p.size pos := by
    rw [htotal]
    omega
  refine ⟨subpdu, fun fuel => ?_⟩
  rw [unpackRarFrom, hsubpdu]
  dsimp only
  rw [hnext, hrest]
  exact if_congr ((and_iff_left hend).trans hmore) rfl rfl

/-- From a subPDU on the reader is safe when the rest is exact. -/
theorem safe_of_exact {left : Nat} (hleft : pos + left = p.len) (hexact : p.ExactFrom pos) :
    ∃ fuel r, unpackRarFrom p.mem p.len fuel pos left = some r ∧ (∀ i ∈ r.reads, i < p.len) ∧
      (p.CutOff pos → r.ret = false) := by
  induction left using Nat.strongRecOn generalizing pos with
  | ind left ih =>
    obtain ⟨hpos, hno⟩ := hexact pos .start
    obtain ⟨-, -, hwhole, hfail⟩ := @readRarSubpdu_spec pos p left
    by_cases hread : p.ReservedClear pos ∧ (p.IsRapid pos → macRarNbytes ≤ left)
    · obtain ⟨-, -, hreads⟩ := hwhole hread
      -- A RAPID with seven bytes left is not exact, so that the subPDU is whole.
      have hend : pos + p.size pos ≤ p.len := by
        unfold size
        split
        · next hrapid =>
          have hseven := hread.2 hrapid
          rcases Nat.eq_or_lt_of_le hseven with heq | hgt
          · exact absurd ⟨hrapid, by omega, hread.1⟩ hno
          · have hmac : macRarNbytes = 7 := rfl
            omega
        · omega
      have hinside : ∀ i ∈ (readRarSubpdu p.mem pos left).reads, i < p.len := by
        intro i hi
        have hi' := (hreads i).mp hi
        omega
      obtain ⟨subpdu, hstep⟩ := unpackRarFrom_whole hleft hend hread
      by_cases hagain : p.More pos
      · have hsize := p.size_pos pos
        obtain ⟨fuel, r, hrun, hin, hcut⟩ := @ih (left - p.size pos) (by omega) (pos + p.size pos)
          (by omega) (fun q hq => hexact q (hq.tail hend hread.1 hagain))
        refine ⟨fuel + 1, ⟨r.ret, subpdu :: r.subpdus,
          (readRarSubpdu p.mem pos left).reads ++ r.reads⟩, ?_, ?_, ?_⟩
        · refine (hstep fuel).trans ((if_pos hagain).trans ?_)
          rw [hrun]
          rfl
        · intro i hi
          rcases List.mem_append.mp hi with hi | hi
          · exact hinside i hi
          · exact hin i hi
        · rintro ⟨q, hq, hbehind⟩
          rcases hq.cases_head with rfl | ⟨-, -, -, hq'⟩
          · omega
          · exact hcut ⟨q, hq', hbehind⟩
      · refine ⟨1, ⟨true, [subpdu], (readRarSubpdu p.mem pos left).reads⟩, ?_, hinside, ?_⟩
        · exact (hstep 0).trans (if_neg hagain)
        · rintro ⟨q, hq, hbehind⟩
          rcases hq.cases_head with rfl | ⟨-, -, hmore', -⟩
          · omega
          · exact absurd hmore' hagain
    · obtain ⟨hnone, hreads⟩ := hfail hread
      refine ⟨1, ⟨false, [], (readRarSubpdu p.mem pos left).reads⟩, ?_, fun i hi => ?_,
        fun _ => rfl⟩
      · rw [unpackRarFrom, hnone]
      · have hmac : macRarNbytes = 7 := rfl
        rcases hreads i hi with rfl | ⟨rfl, hseven⟩
        · exact hpos
        · omega

/-- A reader that ends and stays in the PDU has an exact rest. -/
theorem exact_of_safe {fuel left : Nat} {r : RarUnpacked} (hleft : pos + left = p.len)
    (hrun : unpackRarFrom p.mem p.len fuel pos left = some r) (hin : ∀ i ∈ r.reads, i < p.len) :
    p.ExactFrom pos := by
  induction fuel generalizing pos left r with
  | zero =>
    rw [unpackRarFrom_zero] at hrun
    cases hrun
  | succ fuel ih =>
    obtain ⟨-, hhead, hwhole, -⟩ := @readRarSubpdu_spec pos p left
    rw [unpackRarFrom] at hrun
    -- The reads of the subPDU are in the PDU.
    have hfirst : ∀ i ∈ (readRarSubpdu p.mem pos left).reads, i < p.len := by
      intro i hi
      refine hin i ?_
      split at hrun
      · cases hrun
        exact hi
      · split at hrun
        · obtain ⟨rest, -, rfl⟩ := Option.map_eq_some_iff.mp hrun
          exact List.mem_append_left _ hi
        · cases hrun
          exact hi
    have hpos := hfirst pos hhead
    have hmac : macRarNbytes = 7 := rfl
    have hno : ¬ (p.IsRapid pos ∧ pos + macRarNbytes = p.len ∧ p.ReservedClear pos) := by
      rintro ⟨hrapid, heq, hclear⟩
      obtain ⟨-, -, hreads⟩ := hwhole ⟨hclear, fun _ => by omega⟩
      have hsize : p.size pos = 8 := if_pos hrapid
      have hlast := hfirst (pos + 7) ((hreads _).mpr (by omega))
      omega
    intro q hq
    rcases hq.cases_head with rfl | ⟨hend, hclear, hagain, hq'⟩
    · exact ⟨hpos, hno⟩
    · have hread : p.ReservedClear pos ∧ (p.IsRapid pos → macRarNbytes ≤ left) := by
        refine ⟨hclear, fun hrapid => ?_⟩
        have hsize : p.size pos = 8 := if_pos hrapid
        omega
      obtain ⟨subpdu, hstep⟩ := unpackRarFrom_whole hleft hend hread
      have hmap := (if_pos hagain).symm.trans ((hstep fuel).symm.trans hrun)
      obtain ⟨rest, hrec, rfl⟩ := Option.map_eq_some_iff.mp hmap
      exact ih (by omega) hrec (fun i hi => hin i (List.mem_append_right _ hi)) q hq'

theorem readsSafely_iff (p : RarPayload) : p.ReadsSafely ↔ p.Exact := by
  constructor
  · rintro ⟨fuel, r, hrun, hin, -⟩
    exact exact_of_safe (Nat.zero_add _) hrun hin
  · exact safe_of_exact (Nat.zero_add _)

end RarPayload

/-! ### What is written -/

theorem toNat_ofNat {n : Nat} (h : n < 256) : (UInt8.ofNat n).toNat = n := Nat.mod_eq_of_lt h

/-- Eight bits in an octet. -/
theorem bitUnpack_bitPack {bits : List Bool} (h : bits.length = 8) :
    bitUnpack (UInt8.ofNat (bitPack bits)).toNat 8 = bits := by
  have hpack : bitPack bits = Lib.ofBits bits := by
    match bits, h with
    | [b₀, b₁, b₂, b₃, b₄, b₅, b₆, b₇], _ =>
      simp only [bitPack, Lib.ofBits, List.foldl, List.length]
      omega
  have hlt := Lib.ofBits_lt bits
  rw [h] at hlt
  rw [hpack, toNat_ofNat hlt]
  show Lib.bitsOf 8 (Lib.ofBits bits) = bits
  rw [← h]
  exact Lib.bitsOf_ofBits bits

/-- The first three bits of a grant share an octet with the TA. -/
theorem readUlGrant_write (ulGrant : UlGrant) (t : Nat) :
    let rest := ulGrant.val.drop 3
    readUlGrant (UInt8.ofNat (t % 2 ^ 5 * 2 ^ 3 + grantBit ulGrant 0 * 4 + grantBit ulGrant 1 * 2
        + grantBit ulGrant 2))
      (UInt8.ofNat (bitPack (rest.take 8))) (UInt8.ofNat (bitPack ((rest.drop 8).take 8)))
      (UInt8.ofNat (bitPack ((rest.drop 16).take 8))) = ulGrant := by
  obtain ⟨bits, hlen⟩ := ulGrant
  have hfirst : ∀ b₀ b₁ b₂ : Bool, ∀ v, v = t % 2 ^ 5 * 2 ^ 3 + b₀.toNat * 4 + b₁.toNat * 2
      + b₂.toNat → [(UInt8.ofNat v).toNat.testBit 2, (UInt8.ofNat v).toNat.testBit 1,
        (UInt8.ofNat v).toNat.testBit 0] = [b₀, b₁, b₂] := by
    intro b₀ b₁ b₂ v hv
    have hsmall : v < 256 := by
      have h₀ := Bool.toNat_le b₀
      have h₁ := Bool.toNat_le b₁
      have h₂ := Bool.toNat_le b₂
      omega
    rw [toNat_ofNat hsmall, hv]
    simp only [Nat.testBit_eq_decide_div_mod_eq]
    cases b₀ <;> cases b₁ <;> cases b₂ <;>
      simp only [Bool.toNat_false, Bool.toNat_true, List.cons.injEq, decide_eq_true_eq,
        decide_eq_false_iff_not, and_true] <;> omega
  have hthree : bits.take 3 = [bits.getD 0 false, bits.getD 1 false, bits.getD 2 false] := by
    match bits, hlen with
    | b₀ :: b₁ :: b₂ :: rest, _ => rfl
  refine Subtype.ext ?_
  show [_, _, _] ++ bitUnpack _ 8 ++ bitUnpack _ 8 ++ bitUnpack _ 8 = bits
  simp only [grantBit]
  rw [hfirst _ _ _ _ rfl, ← hthree,
    bitUnpack_bitPack (by simp only [List.length_take, List.length_drop]; omega),
    bitUnpack_bitPack (by simp only [List.length_take, List.length_drop]; omega),
    bitUnpack_bitPack (by simp only [List.length_take, List.length_drop]; omega)]
  have hlast : ((bits.drop 3).drop 16).take 8 = ((bits.drop 3).drop 8).drop 8 := by
    rw [List.drop_drop, List.drop_drop, List.drop_drop]
    exact List.take_of_length_le (by simp only [List.length_drop]; omega)
  rw [hlast, List.append_assoc, List.take_append_drop, List.append_assoc, List.take_append_drop,
    List.take_append_drop]

theorem totalLength_pos (subpdu : RarSubpdu) : 0 < subpdu.totalLength := by
  cases subpdu
  · exact Nat.one_pos
  · exact Nat.succ_pos _

theorem length_write (subpdu : RarSubpdu) (eBit : Bool) :
    (subpdu.write eBit).length = subpdu.totalLength := by
  cases subpdu <;> rfl

/-- A subPDU is read as it was written. -/
theorem readRarSubpdu_write (subpdu : RarSubpdu) (eBit : Bool) {mem : Nat → UInt8}
    {pos left : Nat} (hleft : subpdu.totalLength ≤ left)
    (hmem : ∀ i < subpdu.totalLength, mem (pos + i) = (subpdu.write eBit).getD i 0) :
    (readRarSubpdu mem pos left).subpdu = some subpdu ∧
      (readRarSubpdu mem pos left).eBit = eBit ∧
      (readRarSubpdu mem pos left).totalLength = subpdu.totalLength := by
  have hbit : ∀ v k, v < 256 → (UInt8.ofNat v).toNat.testBit k = decide (v / 2 ^ k % 2 = 1) := by
    intro v k hv
    rw [toNat_ofNat hv, Nat.testBit_eq_decide_div_mod_eq]
  have he := Bool.toNat_le eBit
  have heq : ∀ v, v = eBit.toNat → decide (v = 1) = eBit := by
    intro v hv
    cases eBit <;> rw [hv] <;> rfl
  have hhead := hmem 0 (totalLength_pos subpdu)
  rw [Nat.add_zero] at hhead
  cases subpdu with
  | backoff backoffIndicator =>
    have hbi := backoffIndicator.isLt
    have hhead' : mem pos = UInt8.ofNat (eBit.toNat * 2 ^ 7 + backoffIndicator) := hhead
    have hsmall : eBit.toNat * 2 ^ 7 + backoffIndicator < 256 := by omega
    unfold readRarSubpdu
    rw [hhead']
    simp only [hbit _ _ hsmall]
    rw [if_neg (by rw [decide_eq_true_eq]; omega),
      if_neg (by rw [decide_eq_true_eq, decide_eq_true_eq]; omega)]
    refine ⟨congrArg some (congrArg RarSubpdu.backoff (Fin.ext ?_)), heq _ (by omega), rfl⟩
    show (UInt8.ofNat _).toNat % 16 = _
    rw [toNat_ofNat hsmall]
    omega
  | rapid preamble ta ulGrant tempCrnti =>
    have hpreamble := preamble.isLt
    have hta := ta.isLt
    have hcrnti := tempCrnti.isLt
    have hhead' : mem pos = UInt8.ofNat (eBit.toNat * 2 ^ 7 + 2 ^ 6 + preamble) := hhead
    have hsmall : eBit.toNat * 2 ^ 7 + 2 ^ 6 + preamble < 256 := by omega
    have h₁ : mem (pos + 1) = UInt8.ofNat (ta / 2 ^ 5 % 2 ^ 7) := hmem 1 (show 1 < 8 by decide)
    have hbyte : ∀ i < 7, mem (pos + 1 + i) = ((RarSubpdu.rapid preamble ta ulGrant tempCrnti).write
        eBit).getD (1 + i) 0 := fun i hi => by
      rw [Nat.add_assoc]
      exact hmem (1 + i) (Nat.add_lt_add_left hi 1)
    have hgrant : readUlGrant (mem (pos + 1 + 1)) (mem (pos + 1 + 2)) (mem (pos + 1 + 3))
        (mem (pos + 1 + 4)) = ulGrant := by
      rw [hbyte 1 (by decide), hbyte 2 (by decide), hbyte 3 (by decide), hbyte 4 (by decide)]
      exact readUlGrant_write ulGrant ta
    have h₂ : (mem (pos + 1 + 1)).toNat / 2 ^ 3 = ta % 2 ^ 5 := by
      have h₂ : mem (pos + 1 + 1) = UInt8.ofNat (ta % 2 ^ 5 * 2 ^ 3 + grantBit ulGrant 0 * 4
          + grantBit ulGrant 1 * 2 + grantBit ulGrant 2) := hbyte 1 (by decide)
      have hb₀ : grantBit ulGrant 0 ≤ 1 := Bool.toNat_le _
      have hb₁ : grantBit ulGrant 1 ≤ 1 := Bool.toNat_le _
      have hb₂ : grantBit ulGrant 2 ≤ 1 := Bool.toNat_le _
      rw [h₂, toNat_ofNat (by omega)]
      omega
    have h₆ : mem (pos + 1 + 5) = UInt8.ofNat (tempCrnti / 2 ^ 8) := hbyte 5 (by decide)
    have h₇ : mem (pos + 1 + 6) = UInt8.ofNat (tempCrnti % 2 ^ 8) := hbyte 6 (by decide)
    unfold readRarSubpdu
    dsimp only
    rw [hhead', h₁, h₆, h₇, hgrant, h₂]
    simp only [hbit _ _ hsmall, hbit _ _ (show ta.val / 2 ^ 5 % 2 ^ 7 < 256 by omega)]
    rw [if_pos (by rw [decide_eq_true_eq]; omega),
      if_pos (Nat.le_trans (by decide : macRarNbytes ≤ 1 + macRarNbytes) hleft),
      if_neg (by rw [decide_eq_true_eq]; omega)]
    refine ⟨congrArg some ?_, heq _ (by omega), rfl⟩
    rw [toNat_ofNat hsmall, toNat_ofNat (by omega), toNat_ofNat (by omega), toNat_ofNat (by omega)]
    congr 1
    · exact Fin.ext (show _ % 64 = _ by omega)
    · exact Fin.ext (show _ % 2 ^ 12 = _ by omega)
    · exact Fin.ext (show _ % 2 ^ 16 = _ by omega)

/-- SubPDUs with room are written, and read back from where they are. -/
theorem unpack_packed {subpdus : List RarSubpdu} (hne : subpdus ≠ []) {len pos left : Nat}
    (hlen : len < 2 ^ 32) (hleft : pos + left = len)
    (hfits : (subpdus.map RarSubpdu.totalLength).sum ≤ left) :
    ∃ bytes, packRarFrom left subpdus = some bytes ∧ bytes.length = left ∧
      ∀ mem : Nat → UInt8, (∀ i < left, mem (pos + i) = bytes.getD i 0) →
        ∃ fuel r, unpackRarFrom mem len fuel pos left = some r ∧ r.ret = true ∧
          r.subpdus = subpdus := by
  induction subpdus generalizing pos left with
  | nil => exact absurd rfl hne
  | cons subpdu subpdus ih =>
    rw [List.map_cons, List.sum_cons] at hfits
    have htotal : subpdu.totalLength ≤ left := by omega
    have hpos := totalLength_pos subpdu
    have hwrite := length_write subpdu (!subpdus.isEmpty)
    -- The bytes of the subPDU, from those of the whole.
    have hfirst : ∀ (rest : Bytes) (mem : Nat → UInt8),
        (∀ i < left, mem (pos + i) = (subpdu.write (!subpdus.isEmpty) ++ rest).getD i 0) →
        ∀ i < subpdu.totalLength, mem (pos + i) = (subpdu.write (!subpdus.isEmpty)).getD i 0 := by
      intro rest mem hmem i hi
      rw [hmem i (by omega), List.getD_eq_getElem?_getD, List.getD_eq_getElem?_getD,
        List.getElem?_append_left (by omega)]
    have hrest : (left + 2 ^ 32 - subpdu.totalLength) % 2 ^ 32 = left - subpdu.totalLength := by
      omega
    unfold packRarFrom
    rw [if_pos htotal]
    cases subpdus with
    | nil =>
      refine ⟨_, rfl, ?_, fun mem hmem => ?_⟩
      · rw [List.length_append, hwrite, List.length_replicate]
        omega
      · obtain ⟨hread, he, -⟩ := readRarSubpdu_write subpdu false htotal (hfirst _ mem hmem)
        refine ⟨1, ⟨true, [subpdu], (readRarSubpdu mem pos left).reads⟩, ?_, rfl, rfl⟩
        rw [unpackRarFrom, hread, he]
        exact if_neg (by simp)
    | cons next subpdus =>
      obtain ⟨bytes, hpack, hbytes, hunpack⟩ := @ih (List.cons_ne_nil _ _) (pos + subpdu.totalLength)
        (left - subpdu.totalLength) (by omega) (by omega)
      refine ⟨_, by rw [hpack]; rfl, ?_, fun mem hmem => ?_⟩
      · rw [List.length_append, hwrite, hbytes]
        omega
      · obtain ⟨hread, he, hsize⟩ := readRarSubpdu_write subpdu true htotal (hfirst _ mem hmem)
        obtain ⟨fuel, r, hrun, hret, hsubpdus⟩ := hunpack mem fun i hi => by
          rw [Nat.add_assoc, hmem _ (by omega), List.getD_eq_getElem?_getD,
            List.getD_eq_getElem?_getD, List.getElem?_append_right (by omega), hwrite,
            Nat.add_sub_cancel_left]
        have hnext : (pos + subpdu.totalLength) % 2 ^ 32 = pos + subpdu.totalLength :=
          Nat.mod_eq_of_lt (by omega)
        refine ⟨fuel + 1, ⟨r.ret, subpdu :: r.subpdus, (readRarSubpdu mem pos left).reads
          ++ r.reads⟩, ?_, hret, by rw [hsubpdus]⟩
        rw [unpackRarFrom, hread, he, hsize]
        dsimp only
        rw [hnext, hrest, if_pos ⟨rfl, by omega⟩, hrun]
        rfl

theorem rarRoundTrips (c : RarContent) : RarRoundTrips c := by
  obtain ⟨bytes, hpack, hlen, hread⟩ :=
    unpack_packed c.nonempty c.pduLen_lt (Nat.zero_add _) c.fits
  refine ⟨bytes, hpack, hlen, fun mem hmem => hread mem fun i hi => ?_⟩
  rw [Nat.zero_add]
  exact hmem i (by rw [hlen]; exact hi)

/-- SubPDUs always come back, and the reader is safe exactly when the PDU is exact. -/
theorem rarPdu_iff_exact (c : RarContent) (p : RarPayload) :
    RarRoundTrips c ∧ (p.ReadsSafely ↔ p.Exact) :=
  ⟨rarRoundTrips c, p.readsSafely_iff⟩

/-- A RAPID without its last byte is read to the byte behind the PDU. -/
theorem not_readsSafely_cutRapid :
    ¬ (RarPayload.mk (fun i => if i = 0 then 0x41 else 0) 7
      (by decide) (by decide)).ReadsSafely := by
  rw [RarPayload.readsSafely_iff]
  intro h
  exact (h 0 .start).2 ⟨rfl, rfl, rfl⟩

end Odss.MacNr
