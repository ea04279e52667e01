import Mathlib.Tactic

/-!
# `Odss.Lib.Rounds`: loops of rounds

A loop `while (cond) round` whose round can fault and has outputs. `loop` runs it for at most
`fuel` rounds, and the result is `none` when a round faults or the loop has not ended by then.

* `RoundsWithin` says that every round starts in a state that meets a guard.
* `seen` collects what a function shows of the states in which the rounds start.
* `loop_invariant` is the invariant rule. The invariant speaks of the state, of what was seen and
  of the outputs so far.
* `loop_total_iff` is the rule for total correctness under a measure: a loop ends exactly when
  every round starts in a state that meets the guard.
-/

set_option linter.all false

namespace Odss.Lib

variable {σ β γ : Type} {cond : σ → Bool} {round : σ → Option (σ × List β)}

/-- The loop `while (cond) round`, for at most `fuel` rounds, with the outputs of its rounds. -/
def loop (cond : σ → Bool) (round : σ → Option (σ × List β)) : Nat → σ → Option (σ × List β)
  | 0, s => if cond s then none else some (s, [])
  | fuel + 1, s =>
    if cond s then
      match round s with
      | none => none
      | some (s', out) =>
        match loop cond round fuel s' with
        | none => none
        | some (s'', outs) => some (s'', out ++ outs)
    else some (s, [])

/-- Every round of the loop starts in a state that meets the guard. -/
def RoundsWithin (cond : σ → Bool) (round : σ → Option (σ × List β)) (Guard : σ → Prop) :
    Nat → σ → Prop
  | 0, s => cond s = true → Guard s
  | fuel + 1, s =>
    cond s = true → Guard s ∧ ∀ s' out, round s = some (s', out) →
      RoundsWithin cond round Guard fuel s'

/-- What `look` shows of the states in which the rounds start, in order. -/
def seen (cond : σ → Bool) (round : σ → Option (σ × List β)) (look : σ → List γ) :
    Nat → σ → List γ
  | 0, _ => []
  | fuel + 1, s =>
    if cond s then
      look s ++
        match round s with
        | none => []
        | some (s', _) => seen cond round look fuel s'
    else []

/-- A loop that ends starts with a round and goes on, or has no round. -/
theorem loop_eq_some {fuel : Nat} {s s' : σ} {outs : List β}
    (h : loop cond round fuel s = some (s', outs)) :
    (cond s = false ∧ s' = s ∧ outs = []) ∨
      ∃ n s₁ out rest, fuel = n + 1 ∧ cond s = true ∧ round s = some (s₁, out) ∧
        loop cond round n s₁ = some (s', rest) ∧ outs = out ++ rest := by
  cases hcond : cond s with
  | false =>
    left
    cases fuel <;> simp_all [loop]
  | true =>
    right
    cases fuel with
    | zero => simp [loop, hcond] at h
    | succ n =>
      rw [loop, if_pos hcond] at h
      cases hround : round s with
      | none => simp [hround] at h
      | some r =>
        obtain ⟨s₁, out⟩ := r
        rw [hround] at h
        cases hrest : loop cond round n s₁ with
        | none => simp [hrest] at h
        | some r =>
          obtain ⟨s₂, rest⟩ := r
          simp only [hrest, Option.some.injEq, Prod.mk.injEq] at h
          obtain ⟨rfl, rfl⟩ := h
          exact ⟨n, s₁, out, rest, rfl, rfl, rfl, hrest, rfl⟩

theorem loop_exit : ∀ {fuel : Nat} {s s' : σ} {outs : List β},
    loop cond round fuel s = some (s', outs) → cond s' = false := by
  intro fuel
  induction fuel with
  | zero =>
    intro s s' outs h
    obtain ⟨hcond, rfl, -⟩ | ⟨n, s₁, out, rest, hn, -⟩ := loop_eq_some h
    · exact hcond
    · omega
  | succ fuel ih =>
    intro s s' outs h
    obtain ⟨hcond, rfl, -⟩ | ⟨n, s₁, out, rest, hn, -, -, hrest, -⟩ := loop_eq_some h
    · exact hcond
    · cases hn
      exact ih hrest

theorem roundsWithin_of_exit {Guard : σ → Prop} {fuel : Nat} {s : σ} (h : cond s = false) :
    RoundsWithin cond round Guard fuel s := by
  cases fuel <;> simp [RoundsWithin, h]

/-- The invariant rule. `Inv` speaks of the state, of what `look` has shown and of the outputs. -/
theorem loop_invariant (look : σ → List γ) {Guard : σ → Prop} (Inv : σ → List γ → List β → Prop)
    (hround : ∀ s xs ys s' out, cond s = true → Guard s → Inv s xs ys → round s = some (s', out) →
      Inv s' (xs ++ look s) (ys ++ out)) :
    ∀ {fuel : Nat} {s s' : σ} {xs : List γ} {ys outs : List β}, Inv s xs ys →
      RoundsWithin cond round Guard fuel s → loop cond round fuel s = some (s', outs) →
      Inv s' (xs ++ seen cond round look fuel s) (ys ++ outs) := by
  intro fuel
  induction fuel with
  | zero =>
    intro s s' xs ys outs hs _ h
    obtain ⟨-, rfl, rfl⟩ | ⟨n, s₁, out, rest, hn, -⟩ := loop_eq_some h
    · simpa [seen] using hs
    · omega
  | succ fuel ih =>
    intro s s' xs ys outs hs hguard h
    obtain ⟨hcond, rfl, rfl⟩ | ⟨n, s₁, out, rest, hn, hcond, h₁, hrest, rfl⟩ := loop_eq_some h
    · simpa [seen, hcond] using hs
    · cases hn
      obtain ⟨hs', hnext⟩ := hguard hcond
      have h' := ih (hround s xs ys s₁ out hcond hs' hs h₁) (hnext s₁ out h₁) hrest
      simpa [seen, hcond, h₁, List.append_assoc] using h'

theorem loop_state_invariant (Inv : σ → Prop)
    (hround : ∀ s s' out, cond s = true → Inv s → round s = some (s', out) → Inv s') :
    ∀ {fuel : Nat} {s s' : σ} {outs : List β}, Inv s →
      loop cond round fuel s = some (s', outs) → Inv s' := by
  intro fuel
  induction fuel with
  | zero =>
    intro s s' outs hs h
    obtain ⟨-, rfl, -⟩ | ⟨n, s₁, out, rest, hn, -⟩ := loop_eq_some h
    · exact hs
    · omega
  | succ fuel ih =>
    intro s s' outs hs h
    obtain ⟨-, rfl, -⟩ | ⟨n, s₁, out, rest, hn, hcond, h₁, hrest, -⟩ := loop_eq_some h
    · exact hs
    · cases hn
      exact ih (hround s s₁ out hcond hs h₁) hrest

/-- The rule for total correctness. A round succeeds exactly when it starts within the guard, and
then it keeps the invariant and the measure goes down. With fuel for the measure, the loop
ends exactly when all its rounds start within the guard. -/
theorem loop_total_iff {Guard : σ → Prop} (Inv : σ → Prop) (measure : σ → Nat)
    (hsome : ∀ s, Inv s → cond s = true → ((∃ s' out, round s = some (s', out)) ↔ Guard s))
    (hround : ∀ s s' out, Inv s → cond s = true → round s = some (s', out) →
      Inv s' ∧ measure s' < measure s) :
    ∀ {fuel : Nat} {s : σ}, Inv s → measure s ≤ fuel →
      ((∃ s' outs, loop cond round fuel s = some (s', outs)) ↔
        RoundsWithin cond round Guard fuel s) := by
  intro fuel
  induction fuel with
  | zero =>
    intro s hs hfuel
    cases hcond : cond s with
    | false => simp [loop, RoundsWithin, hcond]
    | true =>
      constructor
      · rintro ⟨s', outs, h⟩
        simp [loop, hcond] at h
      · intro hguard
        obtain ⟨s', out, h⟩ := (hsome s hs hcond).mpr (hguard hcond)
        have := (hround s s' out hs hcond h).2
        omega
  | succ fuel ih =>
    intro s hs hfuel
    cases hcond : cond s with
    | false => simp [loop, RoundsWithin, hcond]
    | true =>
      rw [RoundsWithin]
      constructor
      · rintro ⟨s', outs, h⟩ -
        obtain ⟨hfalse, -⟩ | ⟨n, s₁, out, rest, hn, -, h₁, hrest, -⟩ := loop_eq_some h
        · rw [hcond] at hfalse
          cases hfalse
        · cases hn
          refine ⟨(hsome s hs hcond).mp ⟨s₁, out, h₁⟩, fun s₂ out₂ h₂ => ?_⟩
          rw [h₁] at h₂
          cases h₂
          obtain ⟨hs₁, hless⟩ := hround s s₁ out hs hcond h₁
          exact (ih hs₁ (by omega)).mp ⟨s', rest, hrest⟩
      · intro hguard
        obtain ⟨hs', hnext⟩ := hguard hcond
        obtain ⟨s₁, out, h₁⟩ := (hsome s hs hcond).mpr hs'
        obtain ⟨hs₁, hless⟩ := hround s s₁ out hs hcond h₁
        obtain ⟨s', rest, hrest⟩ := (ih hs₁ (by omega)).mpr (hnext s₁ out h₁)
        exact ⟨s', out ++ rest, by rw [loop, if_pos hcond, h₁]; simp only [hrest]⟩

end Odss.Lib
