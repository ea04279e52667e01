import Odss.Proofs.AmStatusCodec

/-!
# `Odss.Proofs.AmParserBounds`: how far the RLC AM parsers read

Both parsers go on while an extension bit is set. They read no further than the received bytes, and write no
further than their arrays, exactly where the chain of these bits ends in time.

* `ChainEndsAt`: the first entry without an extension bit, which has its place in what was received.
* `readNacks_iff` and `readLis_iff`: the loops of the parsers.
* `withinBounds_iff`: the parsers.
-/

set_option linter.all false

namespace Odss.Rlc

open Odss.Lib (ofBits readBits)

/-- The entry `k` is the first that no other follows, and it fits. -/
def ChainEndsAt (ext : Nat → Bool) (fits : Nat → Prop) (k : Nat) : Prop :=
  (∀ j < k, ext j = true) ∧ ext k = false ∧ fits k

theorem chainEndsAt_succ_iff (ext : Nat → Bool) (fits : Nat → Prop) (k : Nat) :
    ChainEndsAt ext fits (k + 1) ↔
      ext 0 = true ∧ ChainEndsAt (fun j => ext (j + 1)) (fun j => fits (j + 1)) k := by
  constructor
  · rintro ⟨hall, hend, hfits⟩
    exact ⟨hall 0 (Nat.succ_pos k), fun j hj => hall (j + 1) (Nat.succ_lt_succ hj), hend, hfits⟩
  · rintro ⟨hfirst, hall, hend, hfits⟩
    refine ⟨fun j hj => ?_, hend, hfits⟩
    cases j with
    | zero => exact hfirst
    | succ j => exact hall j (Nat.lt_of_succ_lt_succ hj)

/-! ### NACKs -/

/-- The bits of the NACK at the front: those of a part of a PDU have offsets. -/
def frontNackSize (bits : List Bool) : Nat := if bits.getD 11 false then 42 else 12

/-- The bits from a NACK on -/
def nackBits : List Bool → Nat → List Bool
  | bits, 0 => bits
  | bits, k + 1 => nackBits (bits.drop (frontNackSize bits)) k

/-- The extension bit of a NACK -/
def nackExt (bits : List Bool) (k : Nat) : Bool := (nackBits bits k).getD 10 false

/-- A NACK ends in the bits. -/
def nackFits (bits : List Bool) (k : Nat) : Prop :=
  frontNackSize (nackBits bits k) ≤ (nackBits bits k).length

theorem nackBits_nil (k : Nat) : nackBits [] k = [] := by
  induction k with
  | zero => rfl
  | succ k ih => rw [nackBits, List.drop_nil, ih]

theorem not_nackFits_nil (k : Nat) : ¬nackFits [] k := by
  rw [nackFits, nackBits_nil]
  decide

/-- Where the first NACK does not end in the bits, no other does. -/
theorem not_nackFits_of_lt {bits : List Bool} (h : bits.length < frontNackSize bits) (k : Nat) :
    ¬nackFits bits k := by
  cases k with
  | zero => exact Nat.not_le_of_lt h
  | succ k =>
    rw [nackFits, nackBits, List.drop_eq_nil_of_le (Nat.le_of_lt h)]
    exact not_nackFits_nil k

theorem bitPack_one_drop {i : Nat} {bits : List Bool} (h : i < bits.length) :
    bitPack 1 (bits.drop i) = some (bit (bits.getD i false), bits.drop (i + 1)) := by
  rw [List.drop_eq_getElem_cons h, bitPack_one, List.getD_eq_getElem bits false h]

/-- A round of the loop for a NACK that ends in the bits -/
theorem readNacks_of_le {bits : List Bool} (h : frontNackSize bits ≤ bits.length) (fuel : Nat) :
    ∃ nack, readNacks (fuel + 1) true bits =
      (readNacks fuel (bits.getD 10 false) (bits.drop (frontNackSize bits))).map (nack :: ·) := by
  have hle : 12 ≤ bits.length := by
    refine Nat.le_trans ?_ h
    rw [frontNackSize]
    split <;> decide
  have hsn : bitPack 10 bits = some ((readBits 10 bits).1, bits.drop 10) := bitPack_of_le (by omega)
  rw [readNacks]
  simp only [hsn, bitPack_one_drop (by omega : 10 < bits.length),
    bitPack_one_drop (by omega : 11 < bits.length), Option.bind_eq_bind, Option.bind_some, bit_beq_one]
  cases hso : bits.getD 11 false with
  | false =>
    rw [frontNackSize, hso, if_neg Bool.false_ne_true, if_neg (by decide : ¬bit false = 1)]
    exact ⟨⟨_, false, 0, 0⟩, Option.map_eq_bind.symm⟩
  | true =>
    have hlong : 42 ≤ bits.length := by
      rw [frontNackSize, hso, if_pos rfl] at h
      exact h
    have hstart : bitPack 15 (bits.drop 12) =
        some ((readBits 15 (bits.drop 12)).1, (bits.drop 12).drop 15) :=
      bitPack_of_le (by rw [List.length_drop]; omega)
    have hend : bitPack 15 ((bits.drop 12).drop 15) =
        some ((readBits 15 ((bits.drop 12).drop 15)).1, ((bits.drop 12).drop 15).drop 15) :=
      bitPack_of_le (by rw [List.length_drop, List.length_drop]; omega)
    rw [frontNackSize, hso, if_pos rfl, if_pos (by decide : bit true = 1)]
    simp only [hstart, hend, Option.bind_some]
    rw [List.drop_drop, List.drop_drop]
    exact ⟨⟨_, true, _, _⟩, Option.map_eq_bind.symm⟩

/-- A round of the loop for a NACK that does not -/
theorem readNacks_of_lt {bits : List Bool} (h : bits.length < frontNackSize bits) (fuel : Nat) :
    readNacks (fuel + 1) true bits = none := by
  rw [readNacks]
  by_cases hsn : bits.length < 10
  · rw [bitPack_of_lt hsn]
    rfl
  rw [bitPack_of_le (Nat.le_of_not_lt hsn)]
  by_cases hext : bits.length < 11
  · simp only [readBits, Option.bind_eq_bind, Option.bind_some]
    rw [bitPack_of_lt (by rw [List.length_drop]; omega)]
    rfl
  simp only [readBits, Option.bind_eq_bind, Option.bind_some,
    bitPack_one_drop (Nat.lt_of_succ_le (Nat.le_of_not_lt hext))]
  by_cases hflag : bits.length < 12
  · rw [bitPack_of_lt (by rw [List.length_drop]; omega)]
    rfl
  simp only [bitPack_one_drop (Nat.lt_of_succ_le (Nat.le_of_not_lt hflag)), Option.bind_some]
  -- there is no room for the offsets
  have hso : bits.getD 11 false = true := by
    by_contra hno
    rw [frontNackSize, if_neg hno] at h
    exact hflag h
  rw [frontNackSize, if_pos hso] at h
  rw [hso, if_pos (by decide : bit true = 1)]
  by_cases hstart : bits.length < 27
  · rw [bitPack_of_lt (by rw [List.length_drop]; omega)]
    rfl
  rw [bitPack_of_le (by rw [List.length_drop]; omega)]
  simp only [readBits, Option.bind_some]
  rw [bitPack_of_lt (by rw [List.length_drop, List.length_drop]; omega)]
  rfl

theorem readNacks_iff {fuel : Nat} {bits : List Bool} (hfuel : bits.length ≤ fuel) (n : Nat) :
    (∃ nacks, readNacks fuel true bits = some nacks ∧ nacks.length = n) ↔
      ∃ k, n = k + 1 ∧ ChainEndsAt (nackExt bits) (nackFits bits) k := by
  induction fuel generalizing bits n with
  | zero =>
    rw [List.eq_nil_of_length_eq_zero (Nat.le_zero.mp hfuel)]
    constructor
    · rintro ⟨nacks, hread, -⟩
      cases hread
    · rintro ⟨k, -, -, -, hfits⟩
      exact absurd hfits (not_nackFits_nil k)
  | succ fuel ih =>
    rcases Nat.lt_or_ge bits.length (frontNackSize bits) with hlt | hle
    · rw [readNacks_of_lt hlt]
      constructor
      · rintro ⟨nacks, hread, -⟩
        cases hread
      · rintro ⟨k, -, -, -, hfits⟩
        exact absurd hfits (not_nackFits_of_lt hlt k)
    · obtain ⟨nack, hround⟩ := readNacks_of_le hle fuel
      have hpos : 0 < frontNackSize bits := by
        rw [frontNackSize]
        split <;> decide
      have hrest : (bits.drop (frontNackSize bits)).length ≤ fuel := by
        rw [List.length_drop]
        omega
      rw [hround]
      cases hext : bits.getD 10 false with
      | false =>
        have hlast : readNacks fuel false (bits.drop (frontNackSize bits)) = some [] := by
          cases fuel <;> rfl
        rw [hlast]
        constructor
        · rintro ⟨nacks, hread, rfl⟩
          cases hread
          exact ⟨0, rfl, nofun, hext, hle⟩
        · rintro ⟨k, rfl, hchain⟩
          cases k with
          | zero => exact ⟨[nack], rfl, rfl⟩
          | succ k => exact absurd ((chainEndsAt_succ_iff _ _ k).mp hchain).1 (by rw [nackExt, nackBits, hext]; decide)
      | true =>
        have hchain : ∀ k, ChainEndsAt (nackExt bits) (nackFits bits) (k + 1) ↔
            ChainEndsAt (nackExt (bits.drop (frontNackSize bits)))
              (nackFits (bits.drop (frontNackSize bits))) k := by
          intro k
          rw [chainEndsAt_succ_iff]
          exact and_iff_right hext
        constructor
        · rintro ⟨nacks, hread, rfl⟩
          obtain ⟨nacks', hread', rfl⟩ := Option.map_eq_some_iff.mp hread
          obtain ⟨k, hk, hend⟩ := (ih hrest _).mp ⟨nacks', hread', rfl⟩
          exact ⟨k + 1, by rw [List.length_cons, hk], (hchain k).mpr hend⟩
        · rintro ⟨k, rfl, hend⟩
          cases k with
          | zero => exact absurd (hext.symm.trans hend.2.1) (by decide)
          | succ k =>
            obtain ⟨nacks', hread', hlength⟩ := (ih hrest _).mpr ⟨k, rfl, (hchain k).mp hend⟩
            exact ⟨nack :: nacks', by rw [hread']; rfl, by rw [List.length_cons, hlength]⟩

/-! ### Length indicators -/

/-- The extension bit of a length indicator. Two of them take three bytes. -/
def liExt (bytes : Bytes) (k : Nat) : Bool :=
  if k % 2 = 0 then (bytes.getD (3 * (k / 2)) 0).toNat / 128 == 1
  else (bytes.getD (3 * (k / 2) + 1) 0).toNat / 8 % 2 == 1

/-- A length indicator ends in the bytes. -/
def liFits (bytes : Bytes) (k : Nat) : Prop := (3 * (k + 1) + 1) / 2 ≤ bytes.length

theorem liExt_add_two (b₀ b₁ b₂ : UInt8) (bytes : Bytes) (k : Nat) :
    liExt (b₀ :: b₁ :: b₂ :: bytes) (k + 2) = liExt bytes k := by
  have hthree : 3 * ((k + 2) / 2) = 3 * (k / 2) + 1 + 1 + 1 := by omega
  rw [liExt, liExt, Nat.add_mod_right, hthree, Nat.add_right_comm]
  rfl

theorem liFits_add_two (b₀ b₁ b₂ : UInt8) (bytes : Bytes) (k : Nat) :
    liFits (b₀ :: b₁ :: b₂ :: bytes) (k + 2) ↔ liFits bytes k := by
  rw [liFits, liFits, List.length_cons, List.length_cons, List.length_cons]
  omega

/-- Behind two length indicators that others follow, the chain is that of the other bytes. -/
theorem chainEndsAt_add_two (b₀ b₁ b₂ : UInt8) (bytes : Bytes) (k : Nat) :
    ChainEndsAt (liExt (b₀ :: b₁ :: b₂ :: bytes)) (liFits (b₀ :: b₁ :: b₂ :: bytes)) (k + 2) ↔
      (b₀.toNat / 128 == 1) = true ∧ (b₁.toNat / 8 % 2 == 1) = true ∧
        ChainEndsAt (liExt bytes) (liFits bytes) k := by
  rw [chainEndsAt_succ_iff, chainEndsAt_succ_iff]
  refine and_congr_right fun _ => and_congr_right fun _ => ?_
  simp only [ChainEndsAt, liExt_add_two, liFits_add_two]

theorem high_bit_eq_false_iff (b : UInt8) : (b.toNat / 128 == 1) = false ↔ b.toNat / 128 = 0 := by
  have hlt := b.toNat_lt
  rw [beq_eq_false_iff_ne]
  omega

theorem readLis_false (bytes : Bytes) : readLis false bytes = some ([], bytes) := by
  rw [readLis.eq_def]
  rfl

theorem readLis_iff (bytes : Bytes) (n : Nat) :
    (∃ r, readLis true bytes = some r ∧ r.1.length = n) ↔
      ∃ k, n = k + 1 ∧ ChainEndsAt (liExt bytes) (liFits bytes) k := by
  match bytes with
  | [] =>
    constructor
    · rintro ⟨r, hread, -⟩
      cases hread
    · rintro ⟨k, -, -, -, hfits⟩
      rw [liFits, List.length_nil] at hfits
      omega
  | [b₀] =>
    constructor
    · rintro ⟨r, hread, -⟩
      cases hread
    · rintro ⟨k, -, -, -, hfits⟩
      rw [liFits, List.length_singleton] at hfits
      omega
  | b₀ :: b₁ :: rest =>
    rw [readLis, Bool.not_true, if_neg Bool.false_ne_true]
    dsimp only
    by_cases hlast : b₀.toNat / 128 = 0
    · have hext : liExt (b₀ :: b₁ :: rest) 0 = false := (high_bit_eq_false_iff b₀).mpr hlast
      rw [if_pos hlast]
      constructor
      · rintro ⟨r, hread, rfl⟩
        cases hread
        exact ⟨0, rfl, nofun, hext, Nat.le_add_left 2 rest.length⟩
      · rintro ⟨k, rfl, hchain⟩
        cases k with
        | zero => exact ⟨_, rfl, rfl⟩
        | succ k =>
          have hfirst := ((chainEndsAt_succ_iff _ _ k).mp hchain).1
          rw [hext] at hfirst
          cases hfirst
    · have hext : (b₀.toNat / 128 == 1) = true := by
        rw [← Bool.not_eq_false, high_bit_eq_false_iff]
        exact hlast
      rw [if_neg hlast]
      match rest with
      | [] =>
        constructor
        · rintro ⟨r, hread, -⟩
          cases hread
        · rintro ⟨k, -, -, hend, hfits⟩
          rw [liFits, List.length_cons, List.length_singleton] at hfits
          obtain rfl : k = 0 := by omega
          exact absurd (hext.symm.trans hend) (by decide)
      | b₂ :: rest =>
        have ih := readLis_iff rest
        dsimp only
        cases hext' : b₁.toNat / 8 % 2 == 1 with
        | false =>
          rw [readLis_false]
          constructor
          · rintro ⟨r, hread, rfl⟩
            cases hread
            refine ⟨1, rfl, fun j hj => ?_, hext', Nat.le_add_left 3 rest.length⟩
            rw [Nat.lt_one_iff.mp hj]
            exact hext
          · rintro ⟨k, rfl, hchain⟩
            match k with
            | 0 => exact absurd (hext.symm.trans hchain.2.1) (by decide)
            | 1 => exact ⟨_, rfl, rfl⟩
            | k + 2 =>
              have hsecond := ((chainEndsAt_add_two b₀ b₁ b₂ rest k).mp hchain).2.1
              rw [hext'] at hsecond
              cases hsecond
        | true =>
          constructor
          · rintro ⟨r, hread, rfl⟩
            cases hrest : readLis true rest with
            | none =>
              rw [hrest] at hread
              cases hread
            | some r' =>
              rw [hrest] at hread
              cases hread
              obtain ⟨k, hk, hend⟩ := (ih _).mp ⟨r', hrest, rfl⟩
              refine ⟨k + 2, ?_, (chainEndsAt_add_two b₀ b₁ b₂ rest k).mpr ⟨hext, hext', hend⟩⟩
              rw [List.length_cons, List.length_cons, hk]
          · rintro ⟨k, rfl, hchain⟩
            match k with
            | 0 => exact absurd (hext.symm.trans hchain.2.1) (by decide)
            | 1 => exact absurd (hext'.symm.trans hchain.2.1) (by decide)
            | k + 2 =>
              obtain ⟨-, -, hend⟩ := (chainEndsAt_add_two b₀ b₁ b₂ rest k).mp hchain
              obtain ⟨r', hread', hlength⟩ := (ih _).mpr ⟨k, rfl, hend⟩
              refine ⟨_, by rw [hread'], ?_⟩
              rw [List.length_cons, List.length_cons, hlength]

/-! ### The parsers -/

/-- A parser stays in what was received, and in its array: it reads no bits that are not there, and has no more
entries than the array. -/
def WithinBounds (bytes : Bytes) : Prop :=
  if isControlPdu bytes then
    ∃ status, readStatusPdu bytes = some status ∧ status.nacks.length ≤ amWindowSize
  else ∃ r, readDataPduHeader bytes = some r ∧ r.1.li.length ≤ amWindowSize

/-- The NACKs of a control PDU end in time, if it is a status PDU. -/
def StatusPduEnds (bytes : Bytes) : Prop :=
  ((unpackVector bytes).drop 1).take 3 = [false, false, false] → 2 ≤ bytes.length ∧
    ((unpackVector bytes).getD 14 false = true → ∃ k < amWindowSize,
      ChainEndsAt (nackExt ((unpackVector bytes).drop 15)) (nackFits ((unpackVector bytes).drop 15)) k)

/-- The bytes of a data PDU before the length indicators, with those of the segment part -/
def fixedLen (bytes : Bytes) : Nat := if (bytes.getD 0 0).toNat / 64 % 2 = 1 then 4 else 2

/-- The length indicators of a data PDU end in time. -/
def DataPduEnds (bytes : Bytes) : Prop :=
  fixedLen bytes ≤ bytes.length ∧ ((bytes.getD 0 0).toNat / 4 % 2 = 1 → ∃ k < amWindowSize,
    ChainEndsAt (liExt (bytes.drop (fixedLen bytes))) (liFits (bytes.drop (fixedLen bytes))) k)

/-- The entries of a PDU end in time. -/
def EntriesEnd (bytes : Bytes) : Prop :=
  if isControlPdu bytes then StatusPduEnds bytes else DataPduEnds bytes

/-- A loop that starts with an extension bit has at most so many entries exactly where its chain is that short. -/
theorem exists_le_iff {α : Type} {entries : α → Nat} {read : Option α} {chain : Nat → Prop}
    (h : ∀ n, (∃ r, read = some r ∧ entries r = n) ↔ ∃ k, n = k + 1 ∧ chain k) (m : Nat) :
    (∃ r, read = some r ∧ entries r ≤ m) ↔ ∃ k < m, chain k := by
  constructor
  · rintro ⟨r, hread, hle⟩
    obtain ⟨k, hk, hchain⟩ := (h _).mp ⟨r, hread, rfl⟩
    exact ⟨k, by omega, hchain⟩
  · rintro ⟨k, hk, hchain⟩
    obtain ⟨r, hread, hlength⟩ := (h (k + 1)).mpr ⟨k, rfl, hchain⟩
    exact ⟨r, hread, by omega⟩

/-- The loop over the length indicators, which starts with the extension bit of the fixed part -/
theorem readLis_ends_iff (ext : Bool) (bytes : Bytes) :
    (∃ r, readLis ext bytes = some r ∧ r.1.length ≤ amWindowSize) ↔
      (ext = true → ∃ k < amWindowSize, ChainEndsAt (liExt bytes) (liFits bytes) k) := by
  cases ext with
  | false =>
    rw [readLis_false]
    exact iff_of_true ⟨([], bytes), rfl, Nat.zero_le _⟩ nofun
  | true =>
    rw [exists_le_iff (readLis_iff bytes) amWindowSize]
    exact ⟨fun h _ => h, fun h => h rfl⟩

theorem readDataPduHeader_iff (bytes : Bytes) :
    (∃ r, readDataPduHeader bytes = some r ∧ r.1.li.length ≤ amWindowSize) ↔ DataPduEnds bytes := by
  have hfixed : 2 ≤ fixedLen bytes := by
    rw [fixedLen]
    split <;> decide
  match bytes with
  | [] => exact iff_of_false nofun fun h => absurd (Nat.le_trans hfixed h.1) (by decide)
  | [b₀] => exact iff_of_false nofun fun h => absurd (Nat.le_trans hfixed h.1) (Nat.not_succ_le_self 1)
  | b₀ :: b₁ :: rest =>
    have hext : ((b₀.toNat / 4 % 2 == 1) = true) ↔ b₀.toNat / 4 % 2 = 1 := beq_iff_eq
    unfold readDataPduHeader
    rw [DataPduEnds, fixedLen, List.getD_cons_zero]
    dsimp only
    by_cases hrf : b₀.toNat / 64 % 2 = 1
    · rw [if_pos hrf, beq_iff_eq.mpr hrf]
      match rest with
      | [] => exact iff_of_false nofun fun h => absurd h.1 (Nat.not_le_of_lt (Nat.lt_succ_of_lt (Nat.lt_succ_self 2)))
      | [b₂] => exact iff_of_false nofun fun h => absurd h.1 (Nat.not_succ_le_self 3)
      | b₂ :: b₃ :: rest =>
        refine Iff.trans ?_ ((readLis_ends_iff (b₀.toNat / 4 % 2 == 1) rest).trans ?_)
        · simp only [if_true]
          cases readLis (b₀.toNat / 4 % 2 == 1) rest with
          | none => exact iff_of_false nofun nofun
          | some r => simp only [Option.some.injEq, exists_eq_left']
        · rw [hext]
          exact (and_iff_right (Nat.le_add_left 4 rest.length)).symm
    · rw [if_neg hrf, beq_eq_false_iff_ne.mpr hrf]
      refine Iff.trans ?_ ((readLis_ends_iff (b₀.toNat / 4 % 2 == 1) rest).trans ?_)
      · simp only [Bool.false_eq_true, if_false]
        cases readLis (b₀.toNat / 4 % 2 == 1) rest with
        | none => exact iff_of_false nofun nofun
        | some r => simp only [Option.some.injEq, exists_eq_left']
      · rw [hext]
        exact (and_iff_right (Nat.le_add_left 2 rest.length)).symm

theorem readStatusPdu_iff {bytes : Bytes} (h : isControlPdu bytes = true) :
    (∃ status, readStatusPdu bytes = some status ∧ status.nacks.length ≤ amWindowSize) ↔
      StatusPduEnds bytes := by
  have hlength := length_unpackVector bytes
  obtain ⟨x₁, x₂, x₃, rest, hbits⟩ : ∃ x₁ x₂ x₃ rest,
      unpackVector bytes = false :: x₁ :: x₂ :: x₃ :: rest := by
    cases bytes with
    | nil => cases h
    | cons b bytes =>
      have hdc : (b.toNat / 2 ^ 7 % 2 == 1) = false := by
        rw [isControlPdu, beq_iff_eq] at h
        have hseven : b.toNat / 2 ^ 7 = 0 := h
        rw [hseven]
        rfl
      rw [unpackVector, List.flatMap_cons, bitUnpack, hdc]
      exact ⟨_, _, _, _, rfl⟩
  have hrest : rest.length + 4 = 8 * bytes.length := by
    rw [← hlength, hbits]
    rfl
  have hcpt : bitPack 3 (x₁ :: x₂ :: x₃ :: rest) = some (ofBits [x₁, x₂, x₃], rest) :=
    bitPack_of_le (Nat.le_add_left 3 rest.length)
  have hzero : ofBits [x₁, x₂, x₃] = 0 ↔ [x₁, x₂, x₃] = [false, false, false] := by
    cases x₁ <;> cases x₂ <;> cases x₃ <;> decide
  rw [readStatusPdu, StatusPduEnds, hbits]
  simp only [bitPack_one, hcpt, Option.bind_eq_bind, Option.bind_some]
  rw [if_neg (by decide : ¬bit false ≠ 0)]
  simp only [List.drop_succ_cons, List.drop_zero, List.take_succ_cons, List.take_zero,
    List.getD_cons_succ]
  by_cases hstatus : ofBits [x₁, x₂, x₃] = 0
  · rw [if_neg (not_not.mpr hstatus), imp_iff_right (hzero.mp hstatus)]
    rcases Nat.lt_or_ge bytes.length 2 with hshort | hlong
    · -- there is only one byte
      rw [bitPack_of_lt (by omega)]
      refine iff_of_false (fun hread => ?_) fun h => absurd h.1 (Nat.not_le_of_lt hshort)
      obtain ⟨_, hnone, -⟩ := hread
      cases hnone
    · have hext : 10 < rest.length := by omega
      have hack : bitPack 10 rest = some ((readBits 10 rest).1, rest.drop 10) :=
        bitPack_of_le (Nat.le_of_lt hext)
      rw [and_iff_right hlong, hack]
      simp only [Option.bind_some, bitPack_one_drop hext, bit_beq_one]
      cases hfirst : rest.getD 10 false with
      | false =>
        have hno : readNacks (rest.drop 11).length false (rest.drop 11) = some [] := by
          cases (rest.drop 11).length <;> rfl
        rw [hno]
        exact iff_of_true ⟨_, rfl, Nat.zero_le _⟩ fun hfalse => by cases hfalse
      | true =>
        rw [imp_iff_right rfl, ← exists_le_iff (readNacks_iff (Nat.le_refl _)) amWindowSize]
        cases readNacks (rest.drop 11).length true (rest.drop 11) with
        | none =>
          refine iff_of_false (fun hread => ?_) fun hread => ?_
          · obtain ⟨_, hnone, -⟩ := hread
            cases hnone
          · obtain ⟨_, hnone, -⟩ := hread
            cases hnone
        | some nacks => simp [pure]
  · rw [if_pos hstatus]
    exact iff_of_true ⟨_, rfl, Nat.zero_le _⟩ fun h => absurd (hzero.mpr h) hstatus

/-- The parsers stay within their bounds exactly for the PDUs whose entries end in time. -/
theorem withinBounds_iff (bytes : Bytes) : WithinBounds bytes ↔ EntriesEnd bytes := by
  rw [WithinBounds, EntriesEnd]
  cases hcontrol : isControlPdu bytes with
  | false => exact readDataPduHeader_iff bytes
  | true => exact readStatusPdu_iff hcontrol

/-- The second byte of a data PDU of one byte is read. -/
theorem not_withinBounds_short : ¬∀ bytes : Bytes, 1 ≤ bytes.length → WithinBounds bytes := by
  intro h
  obtain ⟨r, hread, -⟩ := h [0x80] (by decide)
  cases hread

end Odss.Rlc
