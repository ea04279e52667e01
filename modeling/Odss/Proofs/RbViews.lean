import Odss.MacNr.RbBitmap

/-!
# `Odss.Proofs.RbViews`: the two views of the PRBs that are taken

The RBGs of a BWP are cut at multiples of P from the start of the carrier, so that the first and the
last one can be smaller. `Agrees` says that a bitmap has the PRBs that were added, and the RBGs with
such a PRB, and that collisions are found.

The first PRB of an RBG is counted from the end of the first RBG, for the first RBG itself
backwards. Without a whole first RBG this wraps, and the assertion of `fill` fails. `viewsAgree_iff`
says that this is all.
-/

set_option linter.all false

namespace Odss.MacNr

open Odss.Mac (BoundedBitset PrbInterval)
open Odss.Mac.BoundedBitset

variable {bwp : Bwp}

/-- The RBG of a PRB, from the grid of the carrier. -/
def Bwp.rbgOf (bwp : Bwp) (prb : Nat) : Nat :=
  (bwp.prbStart + prb) / bwp.p - bwp.prbStart / bwp.p

/-- A call that adds PRBs. Intervals are not empty and lie in the BWP. -/
inductive RbCall (bwp : Bwp) where
  | addInterval (interv : PrbInterval) (lt : interv.start < interv.stop)
      (le : interv.stop ≤ bwp.nofPrbs)
  | addPrbs (grant : BoundedBitset bwp.nofPrbs)
  | addRbgs (grant : BoundedBitset bwp.nofRbgs)
  | set (prb : Fin bwp.nofPrbs)

namespace RbCall

/-- The call of the code. -/
def apply (b : BwpRbBitmap bwp) : RbCall bwp → Option (BwpRbBitmap bwp)
  | addInterval interv _ _ => b.addInterval interv
  | addPrbs grant => b.addPrbs grant
  | addRbgs grant => b.addRbgs grant
  | set prb => b.set prb

/-- The PRBs that a call adds. -/
def Adds (prb : Nat) : RbCall bwp → Prop
  | addInterval interv _ _ => interv.Contains prb
  | addPrbs grant => grant.Has prb
  | addRbgs grant => prb < bwp.nofPrbs ∧ grant.Has (bwp.rbgOf prb)
  | set prb' => prb = prb'

/-- The call adds the first RBG. -/
def HasFirstRbg : RbCall bwp → Prop
  | addRbgs grant => grant.Has 0
  | _ => False

end RbCall

/-- The calls in their order. -/
def runCalls (b : BwpRbBitmap bwp) : List (RbCall bwp) → Option (BwpRbBitmap bwp)
  | [] => some b
  | call :: calls => (call.apply b).bind fun b => runCalls b calls

/-- A grant with a PRB that was added, or with the RBG of one. -/
def PrbGrant.Touches (added : Nat → Prop) : PrbGrant bwp → Prop
  | rbgs grant => ∃ prb, added prb ∧ grant.Has (bwp.rbgOf prb)
  | prbs interv _ => ∃ prb, added prb ∧ interv.Contains prb

/-- The bitmap has the PRBs that were added. -/
structure Agrees (added : Nat → Prop) (b : BwpRbBitmap bwp) : Prop where
  prbs_iff : ∀ prb, b.prbs.Has prb ↔ added prb
  rbgs_iff : ∀ rbg, b.rbgs.Has rbg ↔ ∃ prb, b.prbs.Has prb ∧ bwp.rbgOf prb = rbg
  collides_iff : ∀ grant, ∃ hit, b.collides grant = some hit ∧ (hit = true ↔ grant.Touches added)

/-- After the calls the bitmap has the PRBs that they added. -/
def ViewsAgree (calls : List (RbCall bwp)) : Prop :=
  ∃ b, runCalls (.create bwp) calls = some b ∧ Agrees (fun prb => ∃ call ∈ calls, call.Adds prb) b

/-! ### RBGs -/

namespace Bwp

theorem p_cases (bwp : Bwp) : bwp.p = 2 ∨ bwp.p = 4 ∨ bwp.p = 8 ∨ bwp.p = 16 := by
  unfold p
  split
  · split <;> decide
  · split
    · split <;> decide
    · split
      · split <;> decide
      · decide

theorem p_pos (bwp : Bwp) : 0 < bwp.p := by
  rcases bwp.p_cases with h | h | h | h <;> rw [h] <;> decide

theorem firstRbgSize_eq (bwp : Bwp) : bwp.firstRbgSize = bwp.p - bwp.prbStart % bwp.p := rfl

theorem rbgOf_eq (bwp : Bwp) (prb : Nat) :
    bwp.rbgOf prb = (prb + bwp.prbStart % bwp.p) / bwp.p := by
  unfold rbgOf
  rcases bwp.p_cases with h | h | h | h <;> rw [h] <;> omega

theorem prbToRbgIdx_eq (bwp : Bwp) (prb : Nat) : bwp.prbToRbgIdx prb = bwp.rbgOf prb := by
  have hlog : ∀ k, Nat.log2 (2 ^ k) = k := fun k => Nat.log2_two_pow
  unfold prbToRbgIdx pNofbits
  rw [rbgOf_eq, firstRbgSize_eq, Nat.shiftRight_eq_div_pow]
  rcases bwp.p_cases with h | h | h | h <;> rw [h]
  · rw [show Nat.log2 2 = 1 from hlog 1]
    omega
  · rw [show Nat.log2 4 = 2 from hlog 2]
    omega
  · rw [show Nat.log2 8 = 3 from hlog 3]
    omega
  · rw [show Nat.log2 16 = 4 from hlog 4]
    omega

theorem rbgOf_lt (bwp : Bwp) {prb : Nat} (h : prb < bwp.nofPrbs) : bwp.rbgOf prb < bwp.nofRbgs := by
  rw [rbgOf_eq, nofRbgs]
  rcases bwp.p_cases with hp | hp | hp | hp <;> rw [hp] <;> omega

theorem rbgOf_mono (bwp : Bwp) {prb prb' : Nat} (h : prb ≤ prb') :
    bwp.rbgOf prb ≤ bwp.rbgOf prb' := by
  rw [rbgOf_eq, rbgOf_eq]
  exact Nat.div_le_div_right (by omega)

/-- There are no more RBGs in front of a PRB than PRBs. -/
theorem rbgOf_le (bwp : Bwp) (prb : Nat) : bwp.rbgOf prb ≤ prb := by
  have hrest := Nat.mod_lt bwp.prbStart bwp.p_pos
  rw [rbgOf_eq]
  rcases bwp.p_cases with hp | hp | hp | hp <;> rw [hp] at hrest ⊢ <;> omega

/-- Every RBG between those of two PRBs has a PRB between them. -/
theorem exists_prb_between (bwp : Bwp) {first last rbg : Nat} (hle : first ≤ last)
    (hfirst : bwp.rbgOf first ≤ rbg) (hlast : rbg ≤ bwp.rbgOf last) :
    ∃ prb, first ≤ prb ∧ prb ≤ last ∧ bwp.rbgOf prb = rbg := by
  refine ⟨max first (rbg * bwp.p - bwp.prbStart % bwp.p), ?_⟩
  rw [rbgOf_eq] at hfirst hlast ⊢
  rcases bwp.p_cases with hp | hp | hp | hp <;> rw [hp] at hfirst hlast ⊢ <;> omega

theorem exists_prb (bwp : Bwp) {rbg : Nat} (h : rbg < bwp.nofRbgs) :
    ∃ prb < bwp.nofPrbs, bwp.rbgOf prb = rbg := by
  have hpos := bwp.nofPrbs_pos
  have hlast : rbg ≤ bwp.rbgOf (bwp.nofPrbs - 1) := by
    rw [rbgOf_eq]
    unfold nofRbgs at h
    rcases bwp.p_cases with hp | hp | hp | hp <;> rw [hp] at h ⊢ <;> omega
  have hfirst : bwp.rbgOf 0 = 0 := by
    rw [rbgOf_eq]
    rcases bwp.p_cases with hp | hp | hp | hp <;> rw [hp] <;> omega
  obtain ⟨prb, -, hle, heq⟩ := bwp.exists_prb_between (Nat.zero_le _) (by omega) hlast
  exact ⟨prb, by omega, heq⟩

theorem rbgOf_eq_iff (bwp : Bwp) (prb rbg : Nat) : bwp.rbgOf prb = rbg ↔
    rbg * bwp.p ≤ prb + bwp.prbStart % bwp.p ∧
      prb + bwp.prbStart % bwp.p < rbg * bwp.p + bwp.p := by
  rw [rbgOf_eq, Nat.div_eq_iff bwp.p_pos]
  have hpos := bwp.p_pos
  omega

/-- The first PRB of an RBG, when the first RBG is whole or another is meant. -/
theorem rbgPrbIdx_eq (bwp : Bwp) {rbg : Nat} (hlt : rbg * bwp.p < 2 ^ 31)
    (hrest : bwp.prbStart % bwp.p ≤ rbg * bwp.p) :
    BwpRbBitmap.rbgPrbIdx bwp rbg = rbg * bwp.p - bwp.prbStart % bwp.p := by
  have hmod := Nat.mod_lt bwp.prbStart bwp.p_pos
  have hint : ((rbg : Int) - 1) * bwp.p + bwp.firstRbgSize =
      (rbg * bwp.p - bwp.prbStart % bwp.p : Nat) := by
    rw [Int.sub_mul, one_mul, firstRbgSize_eq, ← Int.natCast_mul]
    omega
  unfold BwpRbBitmap.rbgPrbIdx toU32
  rw [hint]
  omega

/-- The range of PRBs that is filled for an RBG, when the first one is whole or another is meant. -/
theorem rbgPrbIdx_spec (bwp : Bwp) {rbg : Nat} (hrbg : rbg < bwp.nofRbgs)
    (hwhole : bwp.prbStart % bwp.p = 0 ∨ rbg ≠ 0) :
    let first := BwpRbBitmap.rbgPrbIdx bwp rbg
    let size := if rbg = 0 then bwp.firstRbgSize else bwp.p
    let stop := min (toU32 (first + size)) bwp.nofPrbs
    first ≤ stop ∧ ∀ prb, (first ≤ prb ∧ prb < stop) ↔ prb < bwp.nofPrbs ∧ bwp.rbgOf prb = rbg := by
  have hle := bwp.nofPrbs_le
  have hmod := Nat.mod_lt bwp.prbStart bwp.p_pos
  have hp : bwp.p ≤ 16 := by rcases bwp.p_cases with h | h | h | h <;> rw [h] <;> decide
  have hlt : (rbg + 1) * bwp.p ≤ bwp.nofPrbs + bwp.prbStart % bwp.p + bwp.p - 1 :=
    (Nat.le_div_iff_mul_le bwp.p_pos).mp hrbg
  rw [Nat.succ_mul] at hlt
  have hrest : bwp.prbStart % bwp.p ≤ rbg * bwp.p := by
    rcases hwhole with h | h
    · rw [h]
      exact Nat.zero_le _
    · exact Nat.le_trans (Nat.le_of_lt hmod) (Nat.le_mul_of_pos_left _ (Nat.pos_of_ne_zero h))
  have hsize : (if rbg = 0 then bwp.firstRbgSize else bwp.p) = bwp.p := by
    split
    · next hzero =>
      have hwhole := hwhole.resolve_right (fun h => h hzero)
      rw [firstRbgSize_eq, hwhole, Nat.sub_zero]
    · rfl
  dsimp only
  simp only [hsize, bwp.rbgPrbIdx_eq (by omega) hrest, rbgOf_eq_iff]
  generalize rbg * bwp.p = q at *
  have hstop : toU32 (((q - bwp.prbStart % bwp.p : Nat) : Int) + bwp.p) =
      q - bwp.prbStart % bwp.p + bwp.p := by
    unfold toU32
    omega
  rw [hstop]
  exact ⟨by omega, fun prb => by omega⟩

end Bwp

/-! ### Loops -/

open BwpRbBitmap

theorem addPrbsToRbgs_spec (grant : BoundedBitset bwp.nofPrbs) {fuel idx : Nat}
    (rbgs : BoundedBitset bwp.nofRbgs) (hidx : idx ≤ bwp.nofPrbs)
    (hfuel : bwp.nofPrbs ≤ idx + fuel) : ∃ rbgs', addPrbsToRbgs grant fuel idx rbgs = some rbgs' ∧
      ∀ rbg, rbgs'.Has rbg ↔
        rbgs.Has rbg ∨ ∃ prb, idx ≤ prb ∧ grant.Has prb ∧ bwp.rbgOf prb = rbg := by
  induction fuel generalizing idx rbgs with
  | zero =>
    refine ⟨rbgs, rfl, fun rbg => (or_iff_left ?_).symm⟩
    rintro ⟨prb, hge, hhas, -⟩
    have hlt := hhas.lt
    omega
  | succ fuel ih =>
    obtain ⟨found, hfound⟩ := Odss.Mac.findLowest_isSome grant true hidx (Nat.le_refl _)
    unfold addPrbsToRbgs
    rw [hfound]
    cases found with
    | none =>
      refine ⟨rbgs, rfl, fun rbg => (or_iff_left ?_).symm⟩
      rintro ⟨prb, hge, hhas, -⟩
      exact Odss.Mac.findLowest_none hfound prb hge hhas.lt hhas
    | some first =>
      obtain ⟨hge, hlt⟩ := Odss.Mac.findLowest_bound hfound
      obtain ⟨next, hnext⟩ : ∃ next, rbgs.set (bwp.prbToRbgIdx first) = some next :=
        ⟨_, if_pos (by rw [bwp.prbToRbgIdx_eq]; exact bwp.rbgOf_lt hlt)⟩
      have hset := has_of_set hnext
      rw [bwp.prbToRbgIdx_eq] at hset
      -- The PRBs from `idx` on are the first one and those behind it.
      have hsplit : ∀ rbg, (∃ prb, idx ≤ prb ∧ grant.Has prb ∧ bwp.rbgOf prb = rbg) ↔
          rbg = bwp.rbgOf first ∨
            ∃ prb, first + 1 ≤ prb ∧ grant.Has prb ∧ bwp.rbgOf prb = rbg := by
        intro rbg
        simp only [← and_assoc, Odss.Mac.has_from_iff hfound, or_and_right, exists_or,
          exists_eq_left]
        exact or_congr_left eq_comm
      dsimp only
      rw [hnext]
      dsimp only
      split
      · next hlast =>
        refine ⟨next, rfl, fun rbg => ?_⟩
        rw [hset, hsplit, or_comm]
        refine or_congr_right (or_iff_left ?_).symm
        rintro ⟨prb, hle, hhas, -⟩
        have hlt' := hhas.lt
        omega
      · obtain ⟨rbgs', hrest, hhas⟩ := @ih (first + 1) next hlt (by omega)
        refine ⟨rbgs', hrest, fun rbg => ?_⟩
        rw [hhas, hset, hsplit, or_assoc, or_left_comm]

/-- Without a whole first RBG it must not be in the grant. -/
theorem addRbgsToPrbs_spec (grant : BoundedBitset bwp.nofRbgs) {fuel idx : Nat}
    (prbs : BoundedBitset bwp.nofPrbs) (hidx : idx ≤ bwp.nofRbgs)
    (hfuel : bwp.nofRbgs ≤ idx + fuel)
    (hwhole : bwp.prbStart % bwp.p = 0 ∨ ¬ grant.Has 0) :
    ∃ prbs', addRbgsToPrbs grant fuel idx prbs = some prbs' ∧
      ∀ prb, prbs'.Has prb ↔ prbs.Has prb ∨
        (prb < bwp.nofPrbs ∧ idx ≤ bwp.rbgOf prb ∧ grant.Has (bwp.rbgOf prb)) := by
  induction fuel generalizing idx prbs with
  | zero =>
    refine ⟨prbs, rfl, fun prb => (or_iff_left ?_).symm⟩
    rintro ⟨-, hge, hhas⟩
    have hlt := hhas.lt
    omega
  | succ fuel ih =>
    obtain ⟨found, hfound⟩ := Odss.Mac.findLowest_isSome grant true hidx (Nat.le_refl _)
    unfold addRbgsToPrbs
    rw [hfound]
    cases found with
    | none =>
      refine ⟨prbs, rfl, fun prb => (or_iff_left ?_).symm⟩
      rintro ⟨-, hge, hhas⟩
      exact Odss.Mac.findLowest_none hfound _ hge hhas.lt hhas
    | some first =>
      obtain ⟨hge, hlt⟩ := Odss.Mac.findLowest_bound hfound
      have hfirst := (Odss.Mac.findLowest_some hfound).1
      have hmeant : bwp.prbStart % bwp.p = 0 ∨ first ≠ 0 :=
        hwhole.imp id fun hno hzero => hno (hzero ▸ hfirst)
      obtain ⟨horder, hrange⟩ := bwp.rbgPrbIdx_spec hlt hmeant
      dsimp only at horder hrange ⊢
      obtain ⟨next, hnext⟩ : ∃ next, prbs.fill (rbgPrbIdx bwp first)
          (min (toU32 (rbgPrbIdx bwp first + (if first = 0 then bwp.firstRbgSize else bwp.p)))
            bwp.nofPrbs) = some next := ⟨_, if_pos ⟨horder, Nat.min_le_right _ _⟩⟩
      have hfill := has_of_fill hnext
      simp only [hrange] at hfill
      have hsplit : ∀ prb, (prb < bwp.nofPrbs ∧ idx ≤ bwp.rbgOf prb ∧ grant.Has (bwp.rbgOf prb)) ↔
          (prb < bwp.nofPrbs ∧ bwp.rbgOf prb = first) ∨
          (prb < bwp.nofPrbs ∧ first + 1 ≤ bwp.rbgOf prb ∧ grant.Has (bwp.rbgOf prb)) := by
        intro prb
        rw [Odss.Mac.has_from_iff hfound, and_or_left]
      rw [hnext]
      dsimp only
      split
      · next hlast =>
        -- There are no more RBGs than PRBs.
        refine ⟨next, rfl, fun prb => ?_⟩
        rw [hfill, hsplit, or_comm]
        refine or_congr_right (or_iff_left ?_).symm
        rintro ⟨hprb, hle, hhas⟩
        have hmono := bwp.rbgOf_le prb
        omega
      · obtain ⟨prbs', hrest, hhas⟩ := @ih (first + 1) next hlt (by omega)
        refine ⟨prbs', hrest, fun prb => ?_⟩
        rw [hhas, hfill, hsplit, or_assoc, or_left_comm]

/-- The first RBG, when it is not whole, fails the assertion of `fill`. -/
theorem addRbgsToPrbs_firstRbg (grant : BoundedBitset bwp.nofRbgs) {fuel : Nat}
    (prbs : BoundedBitset bwp.nofPrbs) (hcut : bwp.prbStart % bwp.p ≠ 0) (hfirst : grant.Has 0)
    (hfuel : 0 < fuel) : addRbgsToPrbs grant fuel 0 prbs = none := by
  obtain ⟨fuel, rfl⟩ : ∃ k, fuel = k + 1 := ⟨fuel - 1, by omega⟩
  have hle := bwp.nofPrbs_le
  have hrest := Nat.mod_lt bwp.prbStart bwp.p_pos
  have hfound : grant.findLowest 0 bwp.nofRbgs true = some (some 0) := by
    obtain ⟨found, hfound⟩ := Odss.Mac.findLowest_isSome grant true (Nat.zero_le bwp.nofRbgs)
      (Nat.le_refl _)
    cases found with
    | none => exact absurd hfirst (Odss.Mac.findLowest_none hfound 0 (Nat.le_refl 0) hfirst.lt)
    | some first =>
      rcases Nat.eq_zero_or_pos first with rfl | hpos
      · exact hfound
      · exact absurd hfirst ((Odss.Mac.findLowest_some hfound).2 0 (Nat.le_refl 0) hpos)
  have hwrap : ¬ rbgPrbIdx bwp 0 ≤ bwp.nofPrbs := by
    unfold rbgPrbIdx toU32
    rw [bwp.firstRbgSize_eq]
    rcases bwp.p_cases with hp | hp | hp | hp <;> rw [hp] at hcut hrest ⊢ <;> omega
  have hfill : ∀ stop, prbs.fill (rbgPrbIdx bwp 0) (min stop bwp.nofPrbs) = none := fun stop =>
    if_neg fun h => hwrap (Nat.le_trans h.1 (Nat.min_le_right _ _))
  unfold addRbgsToPrbs
  rw [hfound]
  dsimp only
  rw [hfill]

/-! ### Calls -/

theorem addInterval_spec {b : BwpRbBitmap bwp} {interv : PrbInterval}
    (hlt : interv.start < interv.stop) (hle : interv.stop ≤ bwp.nofPrbs) :
    ∃ b', b.addInterval interv = some b' ∧
      (∀ prb, b'.prbs.Has prb ↔ b.prbs.Has prb ∨ interv.Contains prb) ∧
      ∀ rbg, b'.rbgs.Has rbg ↔
        b.rbgs.Has rbg ∨ ∃ prb, interv.Contains prb ∧ bwp.rbgOf prb = rbg := by
  have hlast : bwp.rbgOf (interv.stop - 1) < bwp.nofRbgs := bwp.rbgOf_lt (by omega)
  have hstop : min (bwp.rbgOf (interv.stop - 1) + 1) bwp.nofRbgs
      = bwp.rbgOf (interv.stop - 1) + 1 := Nat.min_eq_left hlast
  have horder := bwp.rbgOf_mono (show interv.start ≤ interv.stop - 1 by omega)
  obtain ⟨prbs, hprbs⟩ : ∃ prbs, b.prbs.fill interv.start interv.stop = some prbs :=
    ⟨_, if_pos ⟨interv.le, hle⟩⟩
  obtain ⟨rbgs, hrbgs⟩ : ∃ rbgs, b.rbgs.fill (bwp.rbgOf interv.start)
      (bwp.rbgOf (interv.stop - 1) + 1) = some rbgs := ⟨_, if_pos ⟨by omega, hlast⟩⟩
  refine ⟨⟨prbs, rbgs⟩, ?_, fun prb => ?_, fun rbg => ?_⟩
  · unfold addInterval
    rw [hprbs, bwp.prbToRbgIdx_eq, bwp.prbToRbgIdx_eq, hstop]
    simp only [Option.bind_eq_bind, Option.bind_some, hrbgs]
  · rw [has_of_fill hprbs, or_comm]
    rfl
  · rw [has_of_fill hrbgs, or_comm]
    refine or_congr_right ⟨fun h => ?_, ?_⟩
    · obtain ⟨prb, hge, hprb, heq⟩ := bwp.exists_prb_between
        (show interv.start ≤ interv.stop - 1 by omega) h.1 (Nat.lt_succ_iff.mp h.2)
      exact ⟨prb, ⟨hge, by omega⟩, heq⟩
    · rintro ⟨prb, ⟨hge, hprb⟩, rfl⟩
      have hlow := bwp.rbgOf_mono hge
      have hhigh := bwp.rbgOf_mono (show prb ≤ interv.stop - 1 by omega)
      exact ⟨hlow, by omega⟩

/-- A call without the first RBG, when that is not whole, adds its PRBs and their RBGs. -/
theorem apply_spec (b : BwpRbBitmap bwp) (call : RbCall bwp)
    (hwhole : bwp.prbStart % bwp.p = 0 ∨ ¬ call.HasFirstRbg) :
    ∃ b', call.apply b = some b' ∧
      (∀ prb, b'.prbs.Has prb ↔ b.prbs.Has prb ∨ call.Adds prb) ∧
      ∀ rbg, b'.rbgs.Has rbg ↔ b.rbgs.Has rbg ∨ ∃ prb, call.Adds prb ∧ bwp.rbgOf prb = rbg := by
  cases call with
  | addInterval interv lt le => exact addInterval_spec lt le
  | addPrbs grant =>
    obtain ⟨rbgs, hrun, hrbgs⟩ := addPrbsToRbgs_spec grant b.rbgs (Nat.zero_le _)
      (Nat.le_of_eq (Nat.zero_add _).symm)
    refine ⟨⟨b.prbs.union grant, rbgs⟩, ?_, fun prb => has_union _ _ _, fun rbg => ?_⟩
    · show b.addPrbs grant = _
      unfold BwpRbBitmap.addPrbs
      rw [hrun]
      rfl
    · rw [hrbgs]
      simp only [Nat.zero_le, true_and]
      exact Iff.rfl
  | addRbgs grant =>
    obtain ⟨prbs, hrun, hprbs⟩ := addRbgsToPrbs_spec grant b.prbs (Nat.zero_le _)
      (Nat.le_of_eq (Nat.zero_add _).symm) hwhole
    refine ⟨⟨prbs, b.rbgs.union grant⟩, ?_, fun prb => ?_, fun rbg => ?_⟩
    · show b.addRbgs grant = _
      unfold BwpRbBitmap.addRbgs
      rw [hrun]
      rfl
    · rw [hprbs]
      simp only [Nat.zero_le, true_and]
      exact Iff.rfl
    · rw [has_union]
      refine or_congr_right ⟨fun h => ?_, ?_⟩
      · obtain ⟨prb, hprb, rfl⟩ := bwp.exists_prb h.lt
        exact ⟨prb, ⟨hprb, h⟩, rfl⟩
      · rintro ⟨prb, ⟨-, h⟩, rfl⟩
        exact h
  | set prb =>
    obtain ⟨prbs, hprbs⟩ : ∃ prbs, b.prbs.set prb = some prbs := ⟨_, if_pos prb.isLt⟩
    obtain ⟨rbgs, hrbgs⟩ : ∃ rbgs, b.rbgs.set (bwp.rbgOf prb) = some rbgs :=
      ⟨_, if_pos (bwp.rbgOf_lt prb.isLt)⟩
    refine ⟨⟨prbs, rbgs⟩, ?_, fun prb' => ?_, fun rbg => ?_⟩
    · show b.set prb = _
      unfold BwpRbBitmap.set
      rw [hprbs, bwp.prbToRbgIdx_eq]
      simp only [Option.bind_eq_bind, Option.bind_some, hrbgs]
    · rw [has_of_set hprbs, or_comm]
      rfl
    · rw [has_of_set hrbgs, or_comm]
      refine or_congr_right ⟨fun h => ⟨prb, rfl, h.symm⟩, ?_⟩
      rintro ⟨_, rfl, rfl⟩
      rfl

theorem apply_firstRbg (b : BwpRbBitmap bwp) {call : RbCall bwp}
    (hcut : bwp.prbStart % bwp.p ≠ 0) (hfirst : call.HasFirstRbg) : call.apply b = none := by
  cases call with
  | addRbgs grant =>
    have hgrant : grant.Has 0 := hfirst
    show b.addRbgs grant = none
    unfold BwpRbBitmap.addRbgs
    rw [addRbgsToPrbs_firstRbg grant b.prbs hcut hgrant hgrant.lt]
    rfl
  | addInterval interv lt le => exact hfirst.elim
  | addPrbs grant => exact hfirst.elim
  | set prb => exact hfirst.elim

/-! ### Runs -/

/-- The PRBs and the RBGs of a bitmap are those that were added. -/
structure Holds (added : Nat → Prop) (b : BwpRbBitmap bwp) : Prop where
  prbs_iff : ∀ prb, b.prbs.Has prb ↔ added prb
  rbgs_iff : ∀ rbg, b.rbgs.Has rbg ↔ ∃ prb, added prb ∧ bwp.rbgOf prb = rbg

theorem Holds.congr {added added' : Nat → Prop} {b : BwpRbBitmap bwp} (h : Holds added b)
    (hiff : ∀ prb, added prb ↔ added' prb) : Holds added' b := by
  obtain rfl : added = added' := funext fun prb => propext (hiff prb)
  exact h

theorem Holds.step {added : Nat → Prop} {b : BwpRbBitmap bwp} (h : Holds added b)
    {call : RbCall bwp} (hwhole : bwp.prbStart % bwp.p = 0 ∨ ¬ call.HasFirstRbg) :
    ∃ b', call.apply b = some b' ∧ Holds (fun prb => added prb ∨ call.Adds prb) b' := by
  obtain ⟨b', hrun, hprbs, hrbgs⟩ := apply_spec b call hwhole
  refine ⟨b', hrun, fun prb => ?_, fun rbg => ?_⟩
  · rw [hprbs, h.prbs_iff]
  · rw [hrbgs, h.rbgs_iff]
    simp only [or_and_right, exists_or]

theorem Holds.run {added : Nat → Prop} {b : BwpRbBitmap bwp} (h : Holds added b)
    {calls : List (RbCall bwp)}
    (hwhole : bwp.prbStart % bwp.p = 0 ∨ ∀ call ∈ calls, ¬ call.HasFirstRbg) :
    ∃ b', runCalls b calls = some b' ∧
      Holds (fun prb => added prb ∨ ∃ call ∈ calls, call.Adds prb) b' := by
  induction calls generalizing added b with
  | nil =>
    refine ⟨b, rfl, h.congr fun prb => (or_iff_left ?_).symm⟩
    rintro ⟨call, hcall, -⟩
    exact List.not_mem_nil hcall
  | cons call calls ih =>
    rw [List.forall_mem_cons] at hwhole
    obtain ⟨b₁, hfirst, h₁⟩ := h.step (hwhole.imp id And.left)
    obtain ⟨b', hrest, h'⟩ := ih h₁ (hwhole.imp id And.right)
    refine ⟨b', by rw [runCalls, hfirst]; exact hrest, h'.congr fun prb => ?_⟩
    rw [or_assoc]
    refine or_congr_right ?_
    simp only [List.mem_cons, or_and_right, exists_or, exists_eq_left]

theorem runCalls_firstRbg {calls : List (RbCall bwp)} (hcut : bwp.prbStart % bwp.p ≠ 0)
    (hfirst : ∃ call ∈ calls, call.HasFirstRbg) (b : BwpRbBitmap bwp) :
    runCalls b calls = none := by
  induction calls generalizing b with
  | nil =>
    obtain ⟨call, hcall, -⟩ := hfirst
    exact absurd hcall List.not_mem_nil
  | cons call calls ih =>
    unfold runCalls
    cases happly : call.apply b with
    | none => rfl
    | some b' =>
      refine ih ?_ b'
      obtain ⟨call', hmem, hhas⟩ := hfirst
      rcases List.mem_cons.mp hmem with rfl | hmem
      · rw [apply_firstRbg b hcut hhas] at happly
        exact nomatch happly
      · exact ⟨call', hmem, hhas⟩

/-- Collisions are found in both views. -/
theorem Holds.agrees {added : Nat → Prop} {b : BwpRbBitmap bwp} (h : Holds added b) :
    Agrees added b := by
  refine ⟨h.prbs_iff, fun rbg => ?_, fun grant => ?_⟩
  · rw [h.rbgs_iff]
    simp only [h.prbs_iff]
  · cases grant with
    | rbgs grant =>
      refine ⟨_, rfl, ?_⟩
      rw [any_iff]
      constructor
      · rintro ⟨rbg, hrbg⟩
        obtain ⟨htaken, hgrant⟩ := (has_inter _ _ _).mp hrbg
        obtain ⟨prb, hprb, rfl⟩ := (h.rbgs_iff rbg).mp htaken
        exact ⟨prb, hprb, hgrant⟩
      · rintro ⟨prb, hprb, hgrant⟩
        exact ⟨bwp.rbgOf prb, (has_inter _ _ _).mpr ⟨(h.rbgs_iff _).mpr ⟨prb, hprb, rfl⟩, hgrant⟩⟩
    | prbs interv le =>
      have hle := interv.le
      refine ⟨_, if_pos ⟨by omega, le⟩, ?_⟩
      rw [List.any_eq_true]
      constructor
      · rintro ⟨prb, hmem, hprb⟩
        rw [List.mem_range'_1] at hmem
        exact ⟨prb, (h.prbs_iff prb).mp hprb, hmem.1, by omega⟩
      · rintro ⟨prb, hprb, hge, hlt⟩
        exact ⟨prb, List.mem_range'_1.mpr ⟨hge, by omega⟩, (h.prbs_iff prb).mpr hprb⟩

/-- The views agree after any calls exactly when the first RBG is whole or never added as an RBG. -/
theorem viewsAgree_iff (bwp : Bwp) (calls : List (RbCall bwp)) : ViewsAgree calls ↔
    bwp.prbStart % bwp.p = 0 ∨ ∀ call ∈ calls, ¬ call.HasFirstRbg := by
  constructor
  · rintro ⟨b, hrun, -⟩
    by_contra hno
    rw [not_or] at hno
    obtain ⟨hcut, hfirst⟩ := hno
    have hbad : ∃ call ∈ calls, call.HasFirstRbg := by
      by_contra hnone
      exact hfirst fun call hcall hhas => hnone ⟨call, hcall, hhas⟩
    rw [runCalls_firstRbg hcut hbad] at hrun
    exact nomatch hrun
  · intro hwhole
    have hempty : Holds (fun _ => False) (BwpRbBitmap.create bwp) := by
      refine ⟨fun prb => iff_of_false (not_has_empty prb) id, fun rbg => ?_⟩
      refine iff_of_false (not_has_empty rbg) ?_
      rintro ⟨prb, hprb, -⟩
      exact hprb
    obtain ⟨b, hrun, h⟩ := hempty.run hwhole
    exact ⟨b, hrun, (h.congr fun prb => iff_of_eq (false_or _)).agrees⟩

/-- The first RBG of a BWP that starts at the second PRB of the carrier. -/
theorem not_viewsAgree_firstRbg : ¬ @ViewsAgree ⟨20, 1, true, by decide, by decide⟩
    [.addRbgs ⟨fun rbg => decide (rbg.val = 0)⟩] := by
  rintro ⟨b, hrun, -⟩
  exact nomatch hrun

end Odss.MacNr
