import Odss.Mac.SchedTimePf

/-!
# `Odss.Proofs.UlBlanking`: the PRBs that are blanked

`sched_ul_users` reads a range of PRBs from a file, marks them as occupied, and gives the PUSCH
grants of the subframe. `Blanks` is what this is for. `blanks_iff` says for which inputs it
succeeds, whatever the order of the queue and the room on the PDCCH.

* `blankPrbs_iff` is the marking.
* `AddsGrants` is one step of the queue: a grant is new and free, unless it is the
  retransmission of a Msg3 in a cell of 6 PRBs.
-/

set_option linter.all false

namespace Odss.Mac

open Odss.Lib

variable {p g : Nat} {κ : Type}

/-! ### Marking -/

namespace TimePf

theorem int32_bounds (b₀ b₁ b₂ b₃ : UInt8) :
    -2 ^ 31 ≤ int32 b₀ b₁ b₂ b₃ ∧ int32 b₀ b₁ b₂ b₃ < 2 ^ 31 := by
  have hle := BitVec.le_toInt
    (BitVec.ofNat 32 (b₀.toNat + b₁.toNat * 2 ^ 8 + b₂.toNat * 2 ^ 16 + b₃.toNat * 2 ^ 24))
  have hlt := BitVec.toInt_lt
    (x := BitVec.ofNat 32 (b₀.toNat + b₁.toNat * 2 ^ 8 + b₂.toNat * 2 ^ 16 + b₃.toNat * 2 ^ 24))
  exact ⟨hle, hlt⟩

theorem prbRange_bounds (file : Option (List UInt8)) :
    -2 ^ 31 ≤ (prbRange file).1 ∧ (prbRange file).2 < 2 ^ 31 := by
  unfold prbRange readCommand
  split
  · exact ⟨(int32_bounds _ _ _ _).1, (int32_bounds _ _ _ _).2⟩
  · decide

theorem sizeT_of_nonneg (bit : Int) (h : 0 ≤ bit) (hlt : bit < 2 ^ 31) : sizeT bit = bit.toNat := by
  unfold sizeT
  omega

theorem sizeT_of_neg (bit : Int) (h : bit < 0) (hle : -2 ^ 31 ≤ bit) : bitsPerWord < sizeT bit := by
  unfold sizeT bitsPerWord
  omega

/-- The loop stays inside of the mask if and only if the bits do. Then it resets these bits. -/
theorem resetBits_spec (count : Nat) (bit : Int) (mask : BoundedBitset p) (hp : p ≤ bitsPerWord)
    (hlow : -2 ^ 31 ≤ bit) (hhigh : bit + count ≤ 2 ^ 31) :
    ((∃ mask', resetBits count bit mask = some mask') ↔
      count = 0 ∨ (0 ≤ bit ∧ bit + count ≤ p)) ∧
    ∀ mask', resetBits count bit mask = some mask' → ∀ prb : Nat,
      mask'.Has prb ↔ mask.Has prb ∧ ¬ (bit ≤ prb ∧ prb < bit + count) := by
  induction count generalizing bit mask with
  | zero =>
    refine ⟨⟨fun _ => .inl rfl, fun _ => ⟨mask, rfl⟩⟩, fun mask' h prb => ?_⟩
    cases h
    exact ⟨fun hmask => ⟨hmask, by omega⟩, fun hmask => hmask.1⟩
  | succ count ih =>
    have hneg := fun h => sizeT_of_neg bit h hlow
    have hnonneg := fun h => sizeT_of_nonneg bit h (by omega)
    rw [resetBits]
    cases hreset : mask.reset (sizeT bit) with
    | none =>
      -- The first bit is already outside.
      have hout : ¬ sizeT bit < p := by
        intro hin
        rw [BoundedBitset.reset, if_pos hin] at hreset
        cases hreset
      refine ⟨⟨fun ⟨_, h⟩ => (by cases h), ?_⟩, fun _ h => by cases h⟩
      rintro (h | ⟨h0, hle⟩)
      · cases h
      · rw [hnonneg h0] at hout
        omega
    | some mask₁ =>
      have hin : sizeT bit < p := by
        by_contra hout
        rw [BoundedBitset.reset, if_neg hout] at hreset
        cases hreset
      have h0 : 0 ≤ bit := by
        by_contra hlt
        have := hneg (by omega)
        omega
      obtain ⟨hsome, hbits⟩ := ih (bit + 1) mask₁ (by omega) (by omega)
      refine ⟨?_, fun mask' h prb => ?_⟩
      · rw [hnonneg h0] at hin
        refine hsome.trans ⟨fun hrest => .inr ⟨h0, ?_⟩, fun hrest => ?_⟩
        · rcases hrest with rfl | ⟨-, hle⟩
          · omega
          · omega
        · rcases hrest with h | ⟨-, hle⟩
          · cases h
          · exact .inr ⟨by omega, by omega⟩
      · rw [hbits mask' h prb, BoundedBitset.has_of_reset hreset, hnonneg h0]
        have hsplit : prb ≠ bit.toNat ∧ ¬ (bit + 1 ≤ prb ∧ (prb : Int) < bit + 1 + count) ↔
            ¬ (bit ≤ prb ∧ (prb : Int) < bit + (count + 1 : Nat)) := by omega
        rw [← hsplit]
        constructor
        · rintro ⟨⟨hne, hmask⟩, hnot⟩
          exact ⟨hmask, hne, hnot⟩
        · rintro ⟨hmask, hne, hnot⟩
          exact ⟨⟨hne, hmask⟩, hnot⟩

/-- The PRBs that the command blanks. -/
def Commanded (p : Nat) (file : Option (List UInt8)) (prb : Nat) : Prop :=
  ∃ low high, readCommand file = some (low, high) ∧ low ≤ prb ∧ (prb : Int) ≤ high ∧ prb < p

/-- The condition on the command: an empty range, or a range inside of the cell. The range of
a missing command is the first PRB, which has to be occupied. -/
def CommandFits (file : Option (List UInt8)) (sched : SfSched p g κ) : Prop :=
  match readCommand file with
  | some (low, high) => high < low ∨ (0 ≤ low ∧ high < p)
  | none => sched.ulMask.Has 0

/-- The commanded PRBs are marked, and no others. -/
def Marks (file : Option (List UInt8)) (sched blanked : SfSched p g κ) : Prop :=
  ∀ prb, blanked.ulMask.Has prb ↔ sched.ulMask.Has prb ∨ Commanded p file prb

theorem blankPrbs_eq_some {file : Option (List UInt8)} {sched blanked : SfSched p g κ}
    (h : blankPrbs file sched = some blanked) :
    ∃ mask, resetBits ((prbRange file).2 + 1 - (prbRange file).1).toNat (prbRange file).1
        sched.ulMask.compl = some mask ∧ blanked = { sched with ulMask := mask.compl } := by
  simp only [blankPrbs] at h
  split at h
  · cases h
  · rename_i mask hmask
    exact ⟨mask, hmask, (Option.some.inj h).symm⟩

/-- The marking does not fail if and only if the range of PRBs is empty or inside of the cell. -/
theorem blankPrbs_spec (hp : p ≤ bitsPerWord) (file : Option (List UInt8))
    (sched : SfSched p g κ) :
    ((∃ blanked, blankPrbs file sched = some blanked) ↔
      (prbRange file).2 < (prbRange file).1 ∨ (0 ≤ (prbRange file).1 ∧ (prbRange file).2 < p)) ∧
    ∀ blanked, blankPrbs file sched = some blanked → ∀ prb, blanked.ulMask.Has prb ↔
      sched.ulMask.Has prb ∨
        (prb < p ∧ (prbRange file).1 ≤ prb ∧ (prb : Int) ≤ (prbRange file).2) := by
  have hbounds := prbRange_bounds file
  rcases lt_or_ge (prbRange file).2 (prbRange file).1 with hempty | hrange
  · -- The loop has no round.
    have hcount : ((prbRange file).2 + 1 - (prbRange file).1).toNat = 0 := by omega
    have hsame : blankPrbs file sched = some { sched with ulMask := sched.ulMask.compl.compl } := by
      rw [blankPrbs]
      simp only [hcount, resetBits]
    refine ⟨⟨fun _ => .inl hempty, fun _ => ⟨_, hsame⟩⟩, fun blanked h prb => ?_⟩
    rw [hsame] at h
    cases h
    simp only [BoundedBitset.has_compl]
    constructor
    · rintro ⟨hprb, hnot⟩
      by_contra hno
      exact hnot ⟨hprb, fun hhas => hno (.inl hhas)⟩
    · rintro (hhas | hin)
      · exact ⟨hhas.lt, fun hno => hno.2 hhas⟩
      · omega
  · have hcount : (((prbRange file).2 + 1 - (prbRange file).1).toNat : Int)
        = (prbRange file).2 + 1 - (prbRange file).1 := by omega
    obtain ⟨hsome, hbits⟩ := resetBits_spec
      ((prbRange file).2 + 1 - (prbRange file).1).toNat (prbRange file).1 sched.ulMask.compl hp hbounds.1 (by omega)
    refine ⟨⟨?_, ?_⟩, fun blanked h prb => ?_⟩
    · rintro ⟨blanked, h⟩
      obtain ⟨mask, hmask, -⟩ := blankPrbs_eq_some h
      have hin := hsome.mp ⟨mask, hmask⟩
      omega
    · intro hin
      obtain ⟨mask, hmask⟩ := hsome.mpr (by omega)
      refine ⟨{ sched with ulMask := mask.compl }, ?_⟩
      rw [blankPrbs]
      simp only [hmask]
    · obtain ⟨mask, hmask, rfl⟩ := blankPrbs_eq_some h
      show mask.compl.Has prb ↔ _
      rw [BoundedBitset.has_compl, hbits mask hmask, BoundedBitset.has_compl]
      have hrange' : ((prbRange file).1 ≤ prb ∧ (prb : Int) < (prbRange file).1
          + ((prbRange file).2 + 1 - (prbRange file).1).toNat) ↔
          ((prbRange file).1 ≤ prb ∧ (prb : Int) ≤ (prbRange file).2) := by omega
      rw [hrange']
      constructor
      · rintro ⟨hprb, hnot⟩
        by_contra hno
        exact hnot ⟨⟨hprb, fun hhas => hno (.inl hhas)⟩, fun hin => hno (.inr ⟨hprb, hin⟩)⟩
      · rintro (hhas | hin)
        · exact ⟨hhas.lt, fun hno => hno.1.2 hhas⟩
        · exact ⟨hin.1, fun hno => hno.2 hin.2⟩

theorem blankPrbs_iff (h0 : 0 < p) (hp : p ≤ bitsPerWord) (file : Option (List UInt8))
    (sched : SfSched p g κ) :
    (∃ blanked, blankPrbs file sched = some blanked ∧ Marks file sched blanked) ↔
      CommandFits file sched := by
  obtain ⟨hsome, hmarks⟩ := blankPrbs_spec hp file sched
  unfold CommandFits
  cases hcommand : readCommand file with
  | some range =>
    have hprbs : prbRange file = range := by rw [prbRange, hcommand]; rfl
    rw [hprbs] at hsome hmarks
    refine Iff.trans ⟨fun ⟨blanked, h, _⟩ => ⟨blanked, h⟩, fun ⟨blanked, h⟩ => ⟨blanked, h, ?_⟩⟩ hsome
    intro prb
    rw [hmarks blanked h prb]
    refine or_congr_right ⟨fun hin => ⟨range.1, range.2, hcommand, hin.2.1, hin.2.2, hin.1⟩, ?_⟩
    rintro ⟨low, high, heq, hlow, hhigh, hprb⟩
    cases hcommand.symm.trans heq
    exact ⟨hprb, hlow, hhigh⟩
  | none =>
    -- Without a command the first PRB is marked.
    have hprbs : prbRange file = (0, 0) := by rw [prbRange, hcommand]; rfl
    rw [hprbs] at hsome hmarks
    have hno : ∀ prb, ¬ Commanded p file prb := by
      rintro prb ⟨low, high, heq, -⟩
      cases hcommand.symm.trans heq
    constructor
    · rintro ⟨blanked, h, hexact⟩
      rcases (hexact 0).mp ((hmarks blanked h 0).mpr (.inr ⟨h0, by simp⟩)) with hhas | hin
      · exact hhas
      · exact absurd hin (hno 0)
    · intro hhas
      obtain ⟨blanked, h⟩ := hsome.mpr (.inr ⟨Int.le_refl 0, by simpa using h0⟩)
      refine ⟨blanked, h, fun prb => ?_⟩
      rw [hmarks blanked h prb]
      constructor
      · rintro (hprb | ⟨-, -, hle⟩)
        · exact .inl hprb
        · have hzero : prb = 0 := by
            simp only at hle
            omega
          exact .inl (hzero ▸ hhas)
      · rintro (hprb | hin)
        · exact .inl hprb
        · exact absurd hin (hno prb)

end TimePf

/-! ### Grants -/

/-- The retransmission of a Msg3 in a cell of 6 PRBs, for which collisions are allowed. -/
def Msg3Retx (ue : SchedUe p g) : Prop :=
  p = 6 ∧ ue.ulHarq.isMsg3 = true ∧ ue.ulHarq.hasPendingRetx = true

/-- The user can get a grant on its old PRBs, as far as the PDCCH allows it. -/
def Admitted (sched : SfSched p g κ) (ue : SchedUe p g) : Prop :=
  sched.ulDataAllocs.length < maxDataList ∧ sched.isUlAlloc ue.rnti = false ∧
    ue.puschEnabled ue.ulHarq.pdcchRequested = true

/-- What an allocation for a user does: it adds grants and marks their PRBs, which are free unless
it is the retransmission of a Msg3 on the old PRBs. -/
structure AddsGrants (ue : SchedUe p g) (sched sched' : SfSched p g κ) (grants : List UlAlloc) :
    Prop where
  allocs : sched'.ulDataAllocs = sched.ulDataAllocs ++ grants
  mask : ∀ prb, sched'.ulMask.Has prb ↔
    sched.ulMask.Has prb ∨ ∃ a ∈ grants, a.alloc.Contains prb
  free : ∀ a ∈ grants, ∀ prb, a.alloc.Contains prb → sched.ulMask.Has prb →
    Msg3Retx ue ∧ a.alloc = ue.ulHarq.allocation ∧ Admitted sched ue

theorem AddsGrants.nothing (ue : SchedUe p g) (sched : SfSched p g κ) :
    AddsGrants ue sched sched [] where
  allocs := (List.append_nil _).symm
  mask := fun prb => by simp
  free := fun a ha => absurd ha List.not_mem_nil

namespace SfSched

variable (cch : Pdcch p g κ)

theorem allocUlData_spec (sched : SfSched p g κ) (ue : SchedUe p g) (alloc : PrbInterval)
    (needsPdcch strict : Bool) :
    ∃ code sched', sched.allocUlData cch ue alloc needsPdcch strict = some (code, sched') ∧
      (code ≠ .success → sched' = sched) ∧
      (code = .schCollision → ∃ prb, alloc.Contains prb ∧ sched.ulMask.Has prb) ∧
      (code = .success →
        (∃ pdcch mask, sched' = { sched with
          pdcch := pdcch
          ulMask := mask }) ∧
        (∀ prb, sched'.ulMask.Has prb ↔ sched.ulMask.Has prb ∨ alloc.Contains prb) ∧
        (strict = true → ∀ prb, alloc.Contains prb → ¬ sched.ulMask.Has prb)) := by
  unfold allocUlData
  split
  · exact ⟨_, _, rfl, fun _ => rfl, nofun, nofun⟩
  · next hstop =>
    have hfill : ∃ newmask, (BoundedBitset.empty p).fill alloc.start alloc.stop = some newmask :=
      ⟨_, if_pos ⟨alloc.le, by omega⟩⟩
    obtain ⟨newmask, hnewmask⟩ := hfill
    have hnew : ∀ prb, newmask.Has prb ↔ alloc.Contains prb := by
      intro prb
      rw [BoundedBitset.has_of_fill hnewmask, PrbInterval.Contains]
      simp
    rw [hnewmask]
    simp only
    split
    · rename_i hcollision
      refine ⟨_, _, rfl, fun _ => rfl, fun _ => ?_, nofun⟩
      obtain ⟨prb, hprb⟩ := (BoundedBitset.any_iff _).mp (Bool.and_eq_true_iff.mp hcollision).2
      rw [BoundedBitset.has_inter, hnew] at hprb
      exact ⟨prb, hprb.2, hprb.1⟩
    · rename_i hcollision
      have hfree : strict = true → ∀ prb, alloc.Contains prb → ¬ sched.ulMask.Has prb := by
        intro hstrict prb hin hhas
        refine hcollision ?_
        rw [hstrict, Bool.true_and, BoundedBitset.any_iff]
        exact ⟨prb, (BoundedBitset.has_inter _ _ _).mpr ⟨hhas, (hnew prb).mpr hin⟩⟩
      have hunion : ∀ prb, (sched.ulMask.union newmask).Has prb ↔
          sched.ulMask.Has prb ∨ alloc.Contains prb := by
        intro prb
        rw [BoundedBitset.has_union, hnew]
      split
      · split
        · exact ⟨_, _, rfl, fun _ => rfl, nofun, nofun⟩
        · exact ⟨_, _, rfl, fun h => absurd rfl h, nofun,
            fun _ => ⟨⟨_, _, rfl⟩, hunion, hfree⟩⟩
      · exact ⟨_, _, rfl, fun h => absurd rfl h, nofun,
          fun _ => ⟨⟨sched.pdcch, _, rfl⟩, hunion, hfree⟩⟩

/-- What `alloc_ul` does for the PRBs `alloc`. -/
structure UlAllocated (ue : SchedUe p g) (alloc : PrbInterval) (needsPdcch isMsg3 : Bool)
    (sched sched' : SfSched p g κ) (grants : List UlAlloc) : Prop where
  allocs : sched'.ulDataAllocs = sched.ulDataAllocs ++ grants
  mask : ∀ prb, sched'.ulMask.Has prb ↔
    sched.ulMask.Has prb ∨ ∃ a ∈ grants, a.alloc.Contains prb
  granted : ∀ a ∈ grants, a.alloc = alloc ∧ sched.ulDataAllocs.length < maxDataList ∧
    sched.isUlAlloc ue.rnti = false ∧ ue.puschEnabled needsPdcch = true ∧
    ∀ prb, alloc.Contains prb → sched.ulMask.Has prb → p = 6 ∧ isMsg3 = true

theorem UlAllocated.nothing (ue : SchedUe p g) (alloc : PrbInterval) (needsPdcch isMsg3 : Bool)
    (sched : SfSched p g κ) : UlAllocated ue alloc needsPdcch isMsg3 sched sched [] where
  allocs := (List.append_nil _).symm
  mask := fun prb => by simp
  granted := fun a ha => absurd ha List.not_mem_nil

theorem allocUl_spec (sched : SfSched p g κ) (ue : SchedUe p g) (alloc : PrbInterval)
    (type : UlAllocType) (isMsg3 : Bool) :
    ∃ code sched' grants, sched.allocUl cch ue alloc type isMsg3 = some (code, sched') ∧
      UlAllocated ue alloc (type == .adaptRetx || (type == .newtx && !isMsg3)) isMsg3
        sched sched' grants ∧
      (code = .schCollision → ∃ prb, alloc.Contains prb ∧ sched.ulMask.Has prb) := by
  unfold allocUl
  split
  · exact ⟨_, sched, [], rfl, .nothing _ _ _ _ _, nofun⟩
  · rename_i hroom
    split
    · exact ⟨_, sched, [], rfl, .nothing _ _ _ _ _, nofun⟩
    · rename_i hnew
      simp only
      split
      · exact ⟨_, sched, [], rfl, .nothing _ _ _ _ _, nofun⟩
      · rename_i henabled
        obtain ⟨code, sched₁, hdata, hfail, hcollision, hsuccess⟩ := allocUlData_spec cch sched ue alloc
          (type == .adaptRetx || (type == .newtx && !isMsg3)) (!(p == 6 && isMsg3))
        rw [hdata]
        by_cases hcode : code = .success
        · subst hcode
          obtain ⟨⟨pdcch, mask, hsched⟩, hmask, hstrict⟩ := hsuccess rfl
          have hallocs : sched₁.ulDataAllocs = sched.ulDataAllocs := by rw [hsched]
          refine ⟨.success, { sched₁ with
            ulDataAllocs := sched₁.ulDataAllocs ++ [⟨type, ue.rnti, alloc, isMsg3⟩] },
            [⟨type, ue.rnti, alloc, isMsg3⟩], rfl, ⟨by rw [hallocs], fun prb => ?_, fun a ha => ?_⟩,
            nofun⟩
          · show sched₁.ulMask.Has prb ↔ _
            rw [hmask]
            simp
          · rw [List.mem_singleton.mp ha]
            refine ⟨rfl, by omega, by simpa using hnew, by simpa using henabled, ?_⟩
            intro prb hin hhas
            -- An occupied PRB means that the strict check was off.
            by_contra hnot
            refine hstrict ?_ prb hin hhas
            cases isMsg3 with
            | false => simp
            | true =>
              have hsix : p ≠ 6 := fun h => hnot ⟨h, rfl⟩
              simp [hsix]
        · have hsame := hfail hcode
          subst hsame
          cases code with
          | success => exact absurd rfl hcode
          | _ => exact ⟨_, sched₁, [], rfl, .nothing _ _ _ _ _, hcollision⟩

/-- The result of `alloc_ul_user` for free PRBs, or the retransmission of a Msg3. -/
theorem allocUlUser_spec (sched : SfSched p g κ) (ue : SchedUe p g) (alloc : PrbInterval)
    (hold : (alloc = ue.ulHarq.allocation ∧ ue.ulHarq.hasPendingRetx = true) ∨
        ∀ prb, alloc.Contains prb → ¬ sched.ulMask.Has prb) :
    ∃ code sched' grants, sched.allocUlUser cch ue alloc = some (code, sched') ∧
      AddsGrants ue sched sched' grants ∧
      (code = .schCollision → ∃ prb, alloc.Contains prb ∧ sched.ulMask.Has prb) := by
  obtain ⟨code, sched', grants, halloc, ⟨hallocs, hmask, hgrants⟩, hcollision⟩ := allocUl_spec cch sched ue alloc
    (if !ue.ulHarq.hasPendingRetx then .newtx
      else if ue.ulHarq.retxRequiresPdcch alloc then .adaptRetx else .noadaptRetx) ue.ulHarq.isMsg3
  refine ⟨code, sched', grants, halloc, ⟨hallocs, hmask, fun a ha prb hin hhas => ?_⟩, hcollision⟩
  obtain ⟨heq, hroom, hnew, henabled, hcollides⟩ := hgrants a ha
  rw [heq] at hin ⊢
  obtain ⟨hsix, hmsg3⟩ := hcollides prb hin hhas
  rcases hold with ⟨rfl, hretx⟩ | hfree
  · refine ⟨⟨hsix, hmsg3, hretx⟩, rfl, hroom, hnew, ?_⟩
    -- The old PRBs need a PDCCH only if it was requested.
    have hrequires : ue.ulHarq.retxRequiresPdcch ue.ulHarq.allocation
        = ue.ulHarq.pdcchRequested := by
      simp [UlHarq.retxRequiresPdcch]
    rw [hretx, hrequires] at henabled
    cases hrequested : ue.ulHarq.pdcchRequested with
    | true =>
      rw [hrequested] at henabled
      exact henabled
    | false =>
      rw [hrequested] at henabled
      exact henabled
  · exact absurd hhas (hfree prb hin)

/-- The PRBs that the search finds are free. -/
theorem free_of_anyIn {mask : BoundedBitset p} {alloc : PrbInterval}
    (h : mask.anyIn alloc.start alloc.stop = some false) (prb : Nat) (hin : alloc.Contains prb) :
    ¬ mask.Has prb := by
  unfold BoundedBitset.anyIn at h
  split at h
  · intro hhas
    have hany := Option.some.inj h
    rw [List.any_eq_false] at hany
    refine hany prb ?_ hhas
    rw [List.mem_range'_1]
    have := hin.1
    have := hin.2
    omega
  · cases h

theorem tryUlAdaptRetx_spec (sched : SfSched p g κ) (ue : SchedUe p g)
    (hlen : 0 < ue.ulHarq.allocation.length) :
    ∃ code sched' grants, sched.tryUlAdaptRetx cch ue = some (code, sched') ∧
      AddsGrants ue sched sched' grants := by
  unfold tryUlAdaptRetx
  split
  · exact ⟨_, sched, [], rfl, .nothing ue sched⟩
  · obtain ⟨alloc, hfind⟩ := findContiguousUlPrbs_isSome sched.ulMask hlen
    rw [hfind]
    simp only
    split
    · exact ⟨_, sched, [], rfl, .nothing ue sched⟩
    · obtain ⟨code, sched', grants, halloc, hadds, -⟩ := allocUlUser_spec cch sched ue alloc
        (.inr (free_findContiguousUlPrbs hfind))
      exact ⟨code, sched', grants, halloc, hadds⟩

theorem tryUlRetxAlloc_spec (sched : SfSched p g κ) (ue : SchedUe p g)
    (hretx : ue.ulHarq.hasPendingRetx = true) :
    ∃ code sched' grants, sched.tryUlRetxAlloc cch ue = some (code, sched') ∧
      AddsGrants ue sched sched' grants := by
  have hle := ue.ulHarq.allocation_le
  have horder := ue.ulHarq.allocation.le
  unfold tryUlRetxAlloc
  simp only
  split
  · obtain ⟨code, sched', grants, halloc, hadds, -⟩ := allocUlUser_spec cch sched ue
      ue.ulHarq.allocation (.inl ⟨rfl, hretx⟩)
    exact ⟨code, sched', grants, halloc, hadds⟩
  · cases hany : sched.ulMask.anyIn ue.ulHarq.allocation.start ue.ulHarq.allocation.stop with
    | none =>
      rw [BoundedBitset.anyIn, if_pos (by omega)] at hany
      cases hany
    | some occupied =>
      cases occupied with
      | true =>
        refine tryUlAdaptRetx_spec cch sched ue ?_
        -- An interval with an occupied PRB is not empty.
        rw [BoundedBitset.anyIn, if_pos (by omega)] at hany
        obtain ⟨prb, hprb, -⟩ := List.any_eq_true.mp (Option.some.inj hany)
        rw [List.mem_range'_1] at hprb
        show 0 < ue.ulHarq.allocation.stop - ue.ulHarq.allocation.start
        omega
      | false =>
        obtain ⟨code, sched', grants, halloc, hadds, hcollision⟩ := allocUlUser_spec cch sched ue
          ue.ulHarq.allocation (.inr (free_of_anyIn hany))
        rw [halloc]
        cases code with
        | schCollision =>
          -- The old PRBs are free.
          obtain ⟨prb, hin, hhas⟩ := hcollision rfl
          exact absurd hhas (free_of_anyIn hany prb hin)
        | _ => exact ⟨_, sched', grants, rfl, hadds⟩

/-- The retransmission of a Msg3 gets its old PRBs, when it is admitted and the PDCCH has room. -/
theorem tryUlRetxAlloc_msg3 {sched : SfSched p g κ} {ue : SchedUe p g} (hmsg3 : Msg3Retx ue)
    (hadmitted : Admitted sched ue) (hcch : ∀ k, (cch.allocDci k ue).isSome) :
    ∃ sched' a, sched.tryUlRetxAlloc cch ue = some (.success, sched') ∧
      sched'.ulDataAllocs = sched.ulDataAllocs ++ [a] ∧ a.alloc = ue.ulHarq.allocation := by
  obtain ⟨rfl, hflag, hretx⟩ := hmsg3
  obtain ⟨hroom, hnew, henabled⟩ := hadmitted
  have hle := ue.ulHarq.allocation_le
  have hrequires : ue.ulHarq.retxRequiresPdcch ue.ulHarq.allocation = ue.ulHarq.pdcchRequested := by
    simp [UlHarq.retxRequiresPdcch]
  obtain ⟨newmask, hfill⟩ : ∃ newmask, (BoundedBitset.empty 6).fill ue.ulHarq.allocation.start
      ue.ulHarq.allocation.stop = some newmask := ⟨_, if_pos ⟨ue.ulHarq.allocation.le, hle⟩⟩
  obtain ⟨k, hk⟩ := Option.isSome_iff_exists.mp (hcch sched.pdcch)
  have hstop : ¬ ue.ulHarq.allocation.stop > 6 := Nat.not_lt_of_le hle
  have hfull : ¬ sched.ulDataAllocs.length ≥ maxDataList := Nat.not_le_of_lt hroom
  cases hrequested : ue.ulHarq.pdcchRequested with
  | true =>
    rw [hrequested] at henabled
    refine ⟨{ sched with
      ulMask := sched.ulMask.union newmask
      ulDataAllocs :=
        sched.ulDataAllocs ++ [⟨.adaptRetx, ue.rnti, ue.ulHarq.allocation, true⟩]
      pdcch := k }, _, ?_, rfl, rfl⟩
    simp only [tryUlRetxAlloc, allocUlUser, allocUl, allocUlData, hflag, hretx, hrequires,
      hrequested, hfull, hnew, hstop, hfill, hk]
    simp [henabled]
  | false =>
    rw [hrequested] at henabled
    refine ⟨{ sched with
      ulMask := sched.ulMask.union newmask
      ulDataAllocs :=
        sched.ulDataAllocs ++ [⟨.noadaptRetx, ue.rnti, ue.ulHarq.allocation, true⟩] }, _, ?_,
      rfl, rfl⟩
    simp only [tryUlRetxAlloc, allocUlUser, allocUl, allocUlData, hflag, hretx, hrequires,
      hrequested, hfull, hnew, hstop, hfill]
    simp
    exact henabled

end SfSched

/-! ### The queue -/

namespace TimePf

variable (cch : Pdcch p g κ)

theorem toUint64_isSome (h0 : 0 < p) (hp : p ≤ bitsPerWord) (mask : BoundedBitset p) :
    ∃ w, mask.toUint64 = some w := ⟨_, if_pos ⟨h0, hp⟩⟩

/-- One user of the queue. -/
theorem tryUlAlloc_spec (h0 : 0 < p) (hp : p ≤ bitsPerWord) (c : UeCtxt p g)
    (sched : SfSched p g κ) :
    ∃ sched' grants, tryUlAlloc cch c sched = some sched' ∧ AddsGrants c.ue sched sched' grants ∧
      (c.ulH = false → grants = []) := by
  unfold tryUlAlloc
  split
  · exact ⟨sched, [], rfl, .nothing _ _, fun _ => rfl⟩
  · rename_i hul
    have hul : c.ulH = true := by simpa using hul
    split
    · exact ⟨sched, [], rfl, .nothing _ _, fun _ => rfl⟩
    · split
      · rename_i hretx
        obtain ⟨code, sched', grants, halloc, hadds⟩ := SfSched.tryUlRetxAlloc_spec cch sched c.ue hretx
        exact ⟨sched', grants, by rw [halloc]; rfl, hadds, fun h => by rw [hul] at h; cases h⟩
      · unfold tryUlNewtx
        split
        · exact ⟨sched, [], rfl, .nothing _ _, fun _ => rfl⟩
        · rename_i hdata
          obtain ⟨alloc, hfind⟩ := findContiguousUlPrbs_isSome sched.ulMask
            (c.ue.requiredPrbUl_pos (Nat.pos_of_ne_zero hdata))
          rw [hfind]
          simp only
          split
          · exact ⟨sched, [], rfl, .nothing _ _, fun _ => rfl⟩
          · obtain ⟨code, sched', grants, halloc, hadds, -⟩ := SfSched.allocUlUser_spec cch sched c.ue
              alloc (.inr (free_findContiguousUlPrbs hfind))
            obtain ⟨w, hw⟩ := toUint64_isSome h0 hp sched'.ulMask
            refine ⟨sched', grants, ?_, hadds, fun h => by rw [hul] at h; cases h⟩
            rw [halloc]
            simp only [hw]

/-- What the users of a queue get. -/
structure QueueGrants (q : List (UeCtxt p g)) (sched sched' : SfSched p g κ)
    (grants : List UlAlloc) : Prop where
  allocs : sched'.ulDataAllocs = sched.ulDataAllocs ++ grants
  mask : ∀ prb, sched'.ulMask.Has prb ↔
    sched.ulMask.Has prb ∨ ∃ a ∈ grants, a.alloc.Contains prb
  free : ∀ a ∈ grants, ∀ prb, a.alloc.Contains prb → sched.ulMask.Has prb →
    ∃ c ∈ q, c.ulH = true ∧ Msg3Retx c.ue ∧ a.alloc = c.ue.ulHarq.allocation ∧ Admitted sched c.ue

theorem Admitted.mono {sched sched' : SfSched p g κ} {ue ue' : SchedUe p g} {grants : List UlAlloc}
    (hadds : AddsGrants ue sched sched' grants) (h : Admitted sched' ue') : Admitted sched ue' := by
  obtain ⟨hroom, hnew, henabled⟩ := h
  rw [hadds.allocs, List.length_append] at hroom
  rw [SfSched.isUlAlloc, hadds.allocs, List.any_append, Bool.or_eq_false_iff] at hnew
  exact ⟨Nat.lt_of_le_of_lt (Nat.le_add_right _ _) hroom, hnew.1, henabled⟩

/-- The loop over the queue does not fail. -/
theorem allocQueue_spec (h0 : 0 < p) (hp : p ≤ bitsPerWord) (q : List (UeCtxt p g))
    (sched : SfSched p g κ) :
    ∃ sched' grants, allocQueue cch q sched = some sched' ∧ QueueGrants q sched sched' grants := by
  induction q generalizing sched with
  | nil =>
    exact ⟨sched, [], rfl, (List.append_nil _).symm, fun prb => by simp,
      fun a ha => absurd ha List.not_mem_nil⟩
  | cons c q ih =>
    obtain ⟨sched₁, grants₁, hstep, hadds, hul⟩ := tryUlAlloc_spec cch h0 hp c sched
    obtain ⟨sched', grants', hrest, hqueue⟩ := ih sched₁
    refine ⟨sched', grants₁ ++ grants', ?_, ?_, fun prb => ?_, fun a ha prb hin hhas => ?_⟩
    · rw [allocQueue, List.foldlM_cons, hstep]
      exact hrest
    · rw [hqueue.allocs, hadds.allocs, List.append_assoc]
    · rw [hqueue.mask, hadds.mask, or_assoc]
      refine or_congr_right ?_
      simp only [List.mem_append]
      constructor
      · rintro (⟨a, ha, hin⟩ | ⟨a, ha, hin⟩)
        · exact ⟨a, .inl ha, hin⟩
        · exact ⟨a, .inr ha, hin⟩
      · rintro ⟨a, ha | ha, hin⟩
        · exact .inl ⟨a, ha, hin⟩
        · exact .inr ⟨a, ha, hin⟩
    · rcases List.mem_append.mp ha with ha | ha
      · obtain ⟨hmsg3, heq, hadmitted⟩ := hadds.free a ha prb hin hhas
        refine ⟨c, List.mem_cons_self, ?_, hmsg3, heq, hadmitted⟩
        by_contra hno
        rw [hul (by simpa using hno)] at ha
        exact absurd ha List.not_mem_nil
      · obtain ⟨c', hc', hul', hmsg3, heq, hadmitted⟩ :=
          hqueue.free a ha prb hin ((hadds.mask prb).mpr (.inl hhas))
        exact ⟨c', List.mem_cons_of_mem c hc', hul', hmsg3, heq, Admitted.mono hadds hadmitted⟩

/-! ### The subframe -/

/-- The users that the loop over the queue meets. -/
def ulUsers (s : TimePf p g) (ueDb : List (SchedUe p g)) (sched : SfSched p g κ) :
    List (UeCtxt p g) :=
  if s.currentTtiRx = some sched.ttiRx then s.ulQueue
  else (ueDb.map (UeCtxt.newTti sched)).filter UeCtxt.ulH

/-- The users with a DL HARQ process fit `ue_rntis`, when this call starts the subframe. -/
def RntisFit (s : TimePf p g) (ueDb : List (SchedUe p g)) (sched : SfSched p g κ) : Prop :=
  s.currentTtiRx = some sched.ttiRx ∨
    ((ueDb.map (UeCtxt.newTti sched)).filter UeCtxt.wantsDl).length ≤ maxRntis

/-- What `sched_ul_users` is for: it marks the commanded PRBs and no others, and gives grants of
other PRBs. -/
def Blanks (order : UlOrder p g) (s : TimePf p g) (file : Option (List UInt8))
    (ueDb : List (SchedUe p g)) (sched : SfSched p g κ) : Prop :=
  ∃ blanked s' sched' grants, blankPrbs file sched = some blanked ∧ Marks file sched blanked ∧
    schedUlUsers cch order s file ueDb sched = some (s', sched') ∧
    sched'.ulDataAllocs = sched.ulDataAllocs ++ grants ∧
    (∀ prb, sched'.ulMask.Has prb ↔
      blanked.ulMask.Has prb ∨ ∃ a ∈ grants, a.alloc.Contains prb) ∧
    ∀ a ∈ grants, ∀ prb, a.alloc.Contains prb → ¬ Commanded p file prb

theorem startTti_iff (s : TimePf p g) (ueDb : List (SchedUe p g)) (sched : SfSched p g κ) :
    (∃ s', s.startTti ueDb sched = some s') ↔ (0 < p ∧ p ≤ bitsPerWord) ∧ RntisFit s ueDb sched := by
  unfold startTti RntisFit
  split
  · rename_i hsame
    have hword := s.oneWord (by rw [hsame]; exact Option.some_ne_none _)
    exact ⟨fun _ => ⟨hword, .inl hsame⟩, fun _ => ⟨s, rfl⟩⟩
  · rename_i hnew
    simp only [newTti, writeRntis, hnew, false_or, List.length_map]
    split
    · rename_i hrntis
      split at hrntis
      · cases hrntis
      · rename_i hmany
        refine ⟨fun ⟨_, h⟩ => (by cases h), fun h => absurd h.2 hmany⟩
    · rename_i hrntis
      split at hrntis
      · rename_i hfew
        split
        · rename_i hword
          exact ⟨fun _ => ⟨hword, hfew⟩, fun _ => ⟨_, rfl⟩⟩
        · rename_i hword
          exact ⟨fun ⟨_, h⟩ => (by cases h), fun h => absurd h.1 hword⟩
      · cases hrntis

theorem startTti_ulQueue {s s' : TimePf p g} {ueDb : List (SchedUe p g)} {sched : SfSched p g κ}
    (h : s.startTti ueDb sched = some s') : s'.ulQueue = ulUsers s ueDb sched := by
  unfold startTti at h
  unfold ulUsers
  split at h
  · rename_i hsame
    cases h
    rw [if_pos hsame]
  · rename_i hnew
    rw [if_neg hnew]
    simp only [newTti] at h
    split at h
    · cases h
    · split at h
      · cases h
        rfl
      · cases h

/-- The users with a retransmission, and then the others. -/
def retxFirst (q : List (UeCtxt p g)) : List (UeCtxt p g) :=
  q.filter (fun c => c.ue.ulHarq.hasPendingRetx) ++
    q.filter fun c => !c.ue.ulHarq.hasPendingRetx

theorem retxFirst_perm (q : List (UeCtxt p g)) : (retxFirst q).Perm q :=
  List.filter_append_perm _ q

theorem retxFirst_pairwise (q : List (UeCtxt p g)) : (retxFirst q).Pairwise fun c c' =>
    c'.ue.ulHarq.hasPendingRetx = true → c.ue.ulHarq.hasPendingRetx = true := by
  refine List.pairwise_append.mpr ⟨?_, ?_, fun c hc c' _ _ => (List.mem_filter.mp hc).2⟩
  · exact List.pairwise_of_forall_mem_list fun c hc c' _ _ => (List.mem_filter.mp hc).2
  · refine List.pairwise_of_forall_mem_list fun c _ c' hc' hretx => ?_
    have hnot := (List.mem_filter.mp hc').2
    simp only [hretx, Bool.not_true, Bool.false_eq_true] at hnot

open Classical in
/-- Any user with a retransmission can be the first of its queue. -/
theorem exists_order {q : List (UeCtxt p g)} {c : UeCtxt p g} (hc : c ∈ q)
    (hretx : c.ue.ulHarq.hasPendingRetx = true) :
    ∃ (order : UlOrder p g) (rest : List (UeCtxt p g)), order.pop q = c :: rest := by
  obtain ⟨before, after, hq⟩ := List.append_of_mem hc
  refine ⟨⟨fun q' => if q' = q then c :: retxFirst (before ++ after) else retxFirst q',
    fun q' => ?_, fun q' => ?_⟩, retxFirst (before ++ after), if_pos rfl⟩
  · by_cases heq : q' = q
    · rw [if_pos heq, heq, hq]
      exact (List.Perm.cons c (retxFirst_perm _)).trans List.perm_middle.symm
    · rw [if_neg heq]
      exact retxFirst_perm q'
  · by_cases heq : q' = q
    · simp only [heq, if_true]
      exact List.pairwise_cons.mpr ⟨fun _ _ _ => hretx, retxFirst_pairwise _⟩
    · simp only [heq, if_false]
      exact retxFirst_pairwise q'

/-- Some order of the queues. -/
def someOrder (p g : Nat) : UlOrder p g := ⟨retxFirst, retxFirst_perm, retxFirst_pairwise⟩

/-- A PDCCH with room for every DCI. -/
def roomyPdcch (p g : Nat) (κ : Type) : Pdcch p g κ := ⟨fun k _ => some k, fun k _ _ => some k⟩

/-- The run of `sched_ul_users` through its parts. -/
theorem schedUlUsers_iff {order : UlOrder p g} {s : TimePf p g} {file : Option (List UInt8)}
    {ueDb : List (SchedUe p g)} {sched blanked : SfSched p g κ}
    (hblank : blankPrbs file sched = some blanked) (r : TimePf p g × SfSched p g κ) :
    schedUlUsers cch order s file ueDb sched = some r ↔
      ∃ s₁, s.startTti ueDb blanked = some s₁ ∧ r.1 = { s₁ with ulQueue := [] } ∧
        allocQueue cch (order.pop s₁.ulQueue) blanked = some r.2 := by
  rw [schedUlUsers, hblank]
  simp only [allocUlUsers]
  constructor
  · intro h
    split at h
    · cases h
    · rename_i s₁ hstart
      split at h
      · cases h
      · rename_i sched' hqueue
        cases h
        exact ⟨s₁, hstart, rfl, hqueue⟩
  · rintro ⟨s₁, hstart, hs', hqueue⟩
    rw [hstart]
    simp only [hqueue]
    rw [← hs']

/-- The retransmission of a Msg3 that needs a commanded PRB, in a cell of 6 PRBs. -/
def Msg3Collides (file : Option (List UInt8)) (sched : SfSched p g κ) (c : UeCtxt p g) : Prop :=
  c.ulH = true ∧ Msg3Retx c.ue ∧ Admitted sched c.ue ∧
    ∃ prb, c.ue.ulHarq.allocation.Contains prb ∧ Commanded p file prb

/-- A user that is first in the queue and collides gets a commanded PRB. -/
theorem not_blanks_of_collides {order : UlOrder p g} {s : TimePf p g}
    {file : Option (List UInt8)} {ueDb : List (SchedUe p g)} {sched : SfSched p g κ}
    {c : UeCtxt p g} {rest : List (UeCtxt p g)} (hc : Msg3Collides file sched c)
    (horder : order.pop (ulUsers s ueDb sched) = c :: rest) :
    ¬ Blanks (roomyPdcch p g κ) order s file ueDb sched := by
  rintro ⟨blanked, s', sched', grants, hblank, -, hrun, hallocs, -, hfree⟩
  obtain ⟨hul, hmsg3, hadmitted, prb, hin, hcommanded⟩ := hc
  obtain ⟨s₁, hstart, -, hqueue⟩ := (schedUlUsers_iff _ hblank _).mp hrun
  obtain ⟨h0, hp⟩ := ((startTti_iff s ueDb blanked).mp ⟨s₁, hstart⟩).1
  obtain ⟨mask, -, rfl⟩ := blankPrbs_eq_some hblank
  have husers : s₁.ulQueue = ulUsers s ueDb sched := startTti_ulQueue hstart
  rw [husers, horder, allocQueue, List.foldlM_cons] at hqueue
  -- The first user gets its old PRBs.
  have hadmitted' : Admitted { sched with ulMask := mask.compl } c.ue := hadmitted
  obtain ⟨sched₁, a, hretx, hfirst, halloc⟩ :=
    SfSched.tryUlRetxAlloc_msg3 (roomyPdcch p g κ) hmsg3 hadmitted' fun _ => rfl
  have hstep : tryUlAlloc (roomyPdcch p g κ) c { sched with ulMask := mask.compl } = some sched₁ := by
    have hnew : ({ sched with ulMask := mask.compl } : SfSched p g κ).isUlAlloc c.ue.rnti = false :=
      hadmitted.2.1
    rw [tryUlAlloc, hul, hnew, hmsg3.2.2, hretx]
    rfl
  rw [hstep] at hqueue
  obtain ⟨sched₂, more, hrest, hmore⟩ := allocQueue_spec (roomyPdcch p g κ) h0 hp rest sched₁
  cases hrest.symm.trans hqueue
  -- Its grant is one of the grants of the subframe.
  rw [hmore.allocs, hfirst, List.append_assoc] at hallocs
  have hmem : a ∈ grants := by
    rw [← List.append_cancel_left hallocs]
    exact List.mem_append_left _ List.mem_cons_self
  exact hfree a hmem prb (halloc ▸ hin) hcommanded

/-- For which inputs `sched_ul_users` blanks the commanded PRBs, for every order of the queue and
every PDCCH. -/
theorem blanks_iff (s : TimePf p g) (file : Option (List UInt8)) (ueDb : List (SchedUe p g))
    (sched : SfSched p g κ) :
    (∀ (cch : Pdcch p g κ) (order : UlOrder p g), Blanks cch order s file ueDb sched) ↔
      (0 < p ∧ p ≤ bitsPerWord) ∧ CommandFits file sched ∧ RntisFit s ueDb sched ∧
        ∀ c ∈ ulUsers s ueDb sched, ¬ Msg3Collides file sched c := by
  constructor
  · intro hall
    obtain ⟨blanked, s', sched', grants, hblank, hmarks, hrun, -⟩ :=
      hall (roomyPdcch p g κ) (someOrder p g)
    obtain ⟨s₁, hstart, -⟩ := (schedUlUsers_iff _ hblank _).mp hrun
    obtain ⟨⟨h0, hp⟩, hrntis⟩ := (startTti_iff s ueDb blanked).mp ⟨s₁, hstart⟩
    have hfits := (blankPrbs_iff h0 hp file sched).mp ⟨blanked, hblank, hmarks⟩
    obtain ⟨mask, -, rfl⟩ := blankPrbs_eq_some hblank
    refine ⟨⟨h0, hp⟩, hfits, hrntis, fun c hc hcollides => ?_⟩
    obtain ⟨order, rest, horder⟩ := exists_order hc hcollides.2.1.2.2
    exact not_blanks_of_collides hcollides horder (hall (roomyPdcch p g κ) order)
  · rintro ⟨⟨h0, hp⟩, hfits, hrntis, hmsg3⟩ cch order
    obtain ⟨blanked, hblank, hmarks⟩ := (blankPrbs_iff h0 hp file sched).mpr hfits
    have hstart : ∃ s₁, s.startTti ueDb blanked = some s₁ := by
      obtain ⟨mask, -, rfl⟩ := blankPrbs_eq_some hblank
      exact (startTti_iff s ueDb _).mpr ⟨⟨h0, hp⟩, hrntis⟩
    obtain ⟨s₁, hstart⟩ := hstart
    obtain ⟨sched', grants, hqueue, hgrants⟩ :=
      allocQueue_spec cch h0 hp (order.pop s₁.ulQueue) blanked
    refine ⟨blanked, { s₁ with ulQueue := [] }, sched', grants, hblank, hmarks,
      (schedUlUsers_iff cch hblank _).mpr ⟨s₁, hstart, rfl, hqueue⟩, ?_, hgrants.mask,
      fun a ha prb hin hcommanded => ?_⟩
    · obtain ⟨mask, -, rfl⟩ := blankPrbs_eq_some hblank
      exact hgrants.allocs
    · -- A commanded PRB is occupied, so the grant is the retransmission of a Msg3.
      obtain ⟨c, hc, hul, hretx, halloc, hadmitted⟩ :=
        hgrants.free a ha prb hin ((hmarks prb).mpr (.inr hcommanded))
      obtain ⟨mask, -, rfl⟩ := blankPrbs_eq_some hblank
      have husers : s₁.ulQueue = ulUsers s ueDb sched := startTti_ulQueue hstart
      rw [husers] at hc
      exact hmsg3 c ((order.perm _).mem_iff.mp hc)
        ⟨hul, hretx, hadmitted, prb, halloc ▸ hin, hcommanded⟩

/-- Without a command file the first PRB of a cell of 25 PRBs is blanked. -/
theorem not_blanks_missingFile :
    ¬ Blanks (roomyPdcch 25 13 Unit) (someOrder 25 13) (init 25 13) none []
      ⟨0, .empty 13, .empty 25, [], [], ()⟩ := by
  rintro ⟨blanked, -, -, -, hblank, hmarks, -⟩
  have hfits := (blankPrbs_iff (by decide) (by decide) none _).mp ⟨blanked, hblank, hmarks⟩
  exact BoundedBitset.not_has_empty 0 hfits

end TimePf

end Odss.Mac
