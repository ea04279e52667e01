import Mathlib.Tactic

/-!
# `Odss.Lib.Sweep`: a sweep over sorted intervals

The entries of a list are intervals `[start a, stop a)`, in the order of their starts. `sweep` goes over them
with the position up to which everything is covered. It stops at a gap, and drops the intervals that
do not reach beyond the position.

* `sweep_snd_iff`: there is no gap exactly when every position in front of a start is covered.
* `sweep_eq_nil_iff`: nothing is left of intervals that do not reach beyond the first position.
* `getLast?_sweep`: what is left ends with the interval that reaches furthest, and the first of these.
-/

set_option linter.all false

namespace Odss.Lib

variable {α : Type} {start stop : α → Nat} {p : Nat} {a : α} {as : List α}

/-- The intervals that are left behind the position `p`, and whether there is no gap. -/
def sweep (start stop : α → Nat) : Nat → List α → List α × Bool
  | _, [] => ([], true)
  | p, a :: as =>
    if p < start a then (a :: as, false)
    else if stop a ≤ p then sweep start stop p as
    else
      let r := sweep start stop (stop a) as
      (a :: r.1, r.2)

/-- An interval covers the position. -/
def Covered (start stop : α → Nat) (as : List α) (p : Nat) : Prop :=
  ∃ a ∈ as, start a ≤ p ∧ p < stop a

/-- The interval reaches furthest, and no other one that does starts in front of it. -/
structure Furthest (start stop : α → Nat) (as : List α) (a : α) : Prop where
  mem : a ∈ as
  most : ∀ b ∈ as, stop b < stop a ∨ stop b = stop a ∧ start a ≤ start b

/-- There is no gap exactly when every position in front of a start is covered. -/
theorem sweep_snd_iff (hsorted : as.Pairwise fun a b => start a < start b) :
    (sweep start stop p as).2 = true ↔
      ∀ a ∈ as, ∀ q, p ≤ q → q < start a → Covered start stop as q := by
  induction as generalizing p with
  | nil => simp [sweep]
  | cons a as ih =>
    obtain ⟨hfirst, hrest⟩ := List.pairwise_cons.mp hsorted
    unfold sweep
    split
    · rename_i hgap
      simp only [Bool.false_eq_true, false_iff]
      intro hall
      obtain ⟨b, hb, hstart, -⟩ := hall a List.mem_cons_self p (Nat.le_refl _) hgap
      rcases List.mem_cons.mp hb with rfl | hb
      · omega
      · have := hfirst b hb
        omega
    · rename_i hnear
      split
      · rename_i hinside
        rw [ih hrest]
        constructor
        · intro h b hb q hq hlt
          rcases List.mem_cons.mp hb with rfl | hb
          · omega
          · obtain ⟨c, hc, hcover⟩ := h b hb q hq hlt
            exact ⟨c, List.mem_cons_of_mem _ hc, hcover⟩
        · intro h b hb q hq hlt
          obtain ⟨c, hc, hcover⟩ := h b (List.mem_cons_of_mem _ hb) q hq hlt
          rcases List.mem_cons.mp hc with rfl | hc
          · omega
          · exact ⟨c, hc, hcover⟩
      · rename_i hbeyond
        simp only
        rw [ih hrest]
        constructor
        · intro h b hb q hq hlt
          rcases List.mem_cons.mp hb with rfl | hb
          · omega
          · rcases Nat.lt_or_ge q (stop a) with hin | hout
            · exact ⟨a, List.mem_cons_self, by omega, hin⟩
            · obtain ⟨c, hc, hcover⟩ := h b hb q hout hlt
              exact ⟨c, List.mem_cons_of_mem _ hc, hcover⟩
        · intro h b hb q hq hlt
          obtain ⟨c, hc, hcover⟩ := h b (List.mem_cons_of_mem _ hb) q (by omega) hlt
          rcases List.mem_cons.mp hc with rfl | hc
          · omega
          · exact ⟨c, hc, hcover⟩

/-- Nothing is left of intervals that end in front of the first position. -/
theorem sweep_eq_nil_iff :
    sweep start stop p as = ([], true) ↔ ∀ a ∈ as, start a ≤ p ∧ stop a ≤ p := by
  induction as with
  | nil => simp [sweep]
  | cons a as ih =>
    unfold sweep
    split
    · rename_i hgap
      constructor
      · intro h
        cases h
      · intro h
        have := (h a List.mem_cons_self).1
        omega
    · rename_i hnear
      split
      · rename_i hinside
        rw [ih, List.forall_mem_cons]
        exact ⟨fun h => ⟨⟨by omega, hinside⟩, h⟩, fun h => h.2⟩
      · rename_i hbeyond
        constructor
        · intro h
          cases (Prod.mk.injEq ..).mp h |>.1
        · intro h
          exact absurd (h a List.mem_cons_self).2 hbeyond

/-- What a sweep without a gap leaves ends with the interval that reaches furthest. -/
theorem getLast?_sweep (hsorted : as.Pairwise fun a b => start a < start b)
    (hgap : (sweep start stop p as).2 = true) :
    (sweep start stop p as).1.getLast? = some a ↔ Furthest start stop as a ∧ p < stop a := by
  induction as generalizing p a with
  | nil =>
    constructor
    · intro h
      cases h
    · intro h
      cases h.1.mem
  | cons b as ih =>
    obtain ⟨hfirst, hrest⟩ := List.pairwise_cons.mp hsorted
    unfold sweep at hgap ⊢
    split at hgap
    · cases hgap
    · rename_i hnear
      rw [if_neg hnear]
      split at hgap
      · rename_i hinside
        rw [if_pos hinside, ih hrest hgap]
        constructor
        · rintro ⟨⟨hmem, hmost⟩, hlt⟩
          refine ⟨⟨List.mem_cons_of_mem _ hmem, fun c hc => ?_⟩, hlt⟩
          rcases List.mem_cons.mp hc with rfl | hc
          · exact .inl (by omega)
          · exact hmost c hc
        · rintro ⟨⟨hmem, hmost⟩, hlt⟩
          rcases List.mem_cons.mp hmem with rfl | hmem
          · omega
          · exact ⟨⟨hmem, fun c hc => hmost c (List.mem_cons_of_mem _ hc)⟩, hlt⟩
      · rename_i hbeyond
        simp only at hgap
        rw [if_neg hbeyond]
        simp only
        have hrec := ih (a := a) hrest hgap
        rw [List.getLast?_cons, Option.some.injEq]
        cases hlast : (sweep start stop (stop b) as).1.getLast? with
        | none =>
          -- Nothing behind `b` reaches further.
          have hnil := List.getLast?_eq_none_iff.mp hlast
          have hempty := sweep_eq_nil_iff.mp (Prod.ext hnil hgap)
          rw [Option.getD_none]
          constructor
          · rintro rfl
            refine ⟨⟨List.mem_cons_self, fun c hc => ?_⟩, by omega⟩
            rcases List.mem_cons.mp hc with rfl | hc
            · exact .inr ⟨rfl, Nat.le_refl _⟩
            · have := (hempty c hc).2
              have := hfirst c hc
              omega
          · rintro ⟨⟨hmem, hmost⟩, -⟩
            rcases List.mem_cons.mp hmem with rfl | hmem
            · rfl
            · have := (hempty a hmem).2
              have := hmost b List.mem_cons_self
              have := hfirst a hmem
              omega
        | some c =>
          rw [Option.getD_some, ← Option.some.injEq, ← hlast, hrec]
          have hsome := (ih (a := c) hrest hgap).mp hlast
          constructor
          · rintro ⟨⟨hmem, hmost⟩, hlt⟩
            refine ⟨⟨List.mem_cons_of_mem _ hmem, fun d hd => ?_⟩, by omega⟩
            rcases List.mem_cons.mp hd with rfl | hd
            · exact .inl hlt
            · exact hmost d hd
          · rintro ⟨⟨hmem, hmost⟩, hlt⟩
            rcases List.mem_cons.mp hmem with rfl | hmem
            · have := hmost c (List.mem_cons_of_mem _ hsome.1.mem)
              have := hsome.2
              omega
            · refine ⟨⟨hmem, fun d hd => hmost d (List.mem_cons_of_mem _ hd)⟩, ?_⟩
              have := hmost b List.mem_cons_self
              have := hfirst a hmem
              omega

end Odss.Lib
