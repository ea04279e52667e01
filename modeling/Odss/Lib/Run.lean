import Mathlib.Tactic

/-!
# `Odss.Lib.Run`: runs of a partial step function

A component is a step function `step : σ → α → Option (σ × β)`: it takes a label, and
either faults (`none`) or moves to a new state with an output. `run` folds the step over a
list of labels and collects the outputs.

* `run_append_eq_some` splits a run at any point.
* `run_invariant` is the invariant rule: what every step keeps, every run keeps.
* `run_simulation` relates the runs of two step functions.
* `run_snd_eq_of_eq` is the rule for a part of the state that no output depends on.
* `StepsWithin` says that every step of a run is taken from a state that meets a guard,
  and `run_total_of_within` is the invariant rule under it, `run_outputs_of_within` the one for
  the outputs.
* `AlongRun` says that a property holds in every state that a prefix of the run reaches, and
  `alongRun_of_within`, `alongRun_iff_within_of_inv` and `total_alongRun_iff_within` prove it from
  the guard of each step.
* `withOutputs` lets a guard or an invariant speak of the outputs so far.
* `exec`, `outputs`, `ExecWithin` and `exec_invariant_of_within` are the same for a step
  function that never faults, and `outputs_simulation` relates two of them.
-/

set_option linter.all false

namespace Odss.Lib

variable {σ α β : Type}

/-- The run of `step` over a list of labels, with the list of outputs. A fault of one step
is a fault of the run. -/
def run (step : σ → α → Option (σ × β)) : σ → List α → Option (σ × List β)
  | s, [] => some (s, [])
  | s, a :: as =>
    match step s a with
    | none => none
    | some (s', b) =>
      match run step s' as with
      | none => none
      | some (s'', bs) => some (s'', b :: bs)

@[simp] theorem run_nil (step : σ → α → Option (σ × β)) (s : σ) :
    run step s [] = some (s, []) := rfl

theorem run_cons_eq_some {step : σ → α → Option (σ × β)} {s s'' : σ} {a : α}
    {as : List α} {bs : List β} :
    run step s (a :: as) = some (s'', bs) ↔
      ∃ s' b bs', step s a = some (s', b) ∧ run step s' as = some (s'', bs') ∧
        bs = b :: bs' := by
  constructor
  · intro h
    simp only [run] at h
    split at h
    · cases h
    · rename_i s' b hs
      split at h
      · cases h
      · rename_i s₂ bs' hr
        simp only [Option.some.injEq, Prod.mk.injEq] at h
        obtain ⟨rfl, rfl⟩ := h
        exact ⟨s', b, bs', hs, hr, rfl⟩
  · rintro ⟨s', b, bs', hs, hr, rfl⟩
    simp only [run, hs, hr]

/-- A run over `as ++ as'` is the run over `as` followed by the run over `as'`. -/
theorem run_append_eq_some {step : σ → α → Option (σ × β)} {s s'' : σ}
    {as as' : List α} {bs : List β} :
    run step s (as ++ as') = some (s'', bs) ↔
      ∃ s' bs₁ bs₂, run step s as = some (s', bs₁) ∧ run step s' as' = some (s'', bs₂) ∧
        bs = bs₁ ++ bs₂ := by
  induction as generalizing s bs with
  | nil => simp
  | cons a as ih =>
    rw [List.cons_append, run_cons_eq_some]
    constructor
    · rintro ⟨s', b, bs', hs, hr, rfl⟩
      obtain ⟨s₁, bs₁, bs₂, h₁, h₂, rfl⟩ := ih.mp hr
      exact ⟨s₁, b :: bs₁, bs₂, run_cons_eq_some.mpr ⟨s', b, bs₁, hs, h₁, rfl⟩, h₂, rfl⟩
    · rintro ⟨s₁, bs₁, bs₂, h₁, h₂, rfl⟩
      obtain ⟨s', b, bs', hs, hr, rfl⟩ := run_cons_eq_some.mp h₁
      exact ⟨s', b, bs' ++ bs₂, hs, ih.mpr ⟨s₁, bs', bs₂, hr, h₂, rfl⟩, rfl⟩

/-- The invariant rule: an invariant of every step is an invariant of every run. -/
theorem run_invariant {step : σ → α → Option (σ × β)} (Inv : σ → Prop)
    (hstep : ∀ s a s' b, Inv s → step s a = some (s', b) → Inv s') :
    ∀ (as : List α) (s s' : σ) (bs : List β),
      Inv s → run step s as = some (s', bs) → Inv s' := by
  intro as
  induction as with
  | nil =>
    intro s s' bs hs h
    simp only [run_nil, Option.some.injEq, Prod.mk.injEq] at h
    exact h.1 ▸ hs
  | cons a as ih =>
    intro s s' bs hs h
    obtain ⟨s₁, b, bs', h₁, h₂, -⟩ := run_cons_eq_some.mp h
    exact ih s₁ s' bs' (hstep s a s₁ b hs h₁) h₂

/-- Every step of the run is taken from a state where `Guard` holds of the label. -/
def StepsWithin (step : σ → α → Option (σ × β)) (Guard : σ → α → Prop) :
    σ → List α → Prop
  | _, [] => True
  | s, a :: as => Guard s a ∧ ∀ s' b, step s a = some (s', b) → StepsWithin step Guard s' as

/-- A guard that every label meets in every state. -/
theorem stepsWithin_of_forall {step : σ → α → Option (σ × β)} {Guard : σ → α → Prop} {as : List α}
    (h : ∀ a ∈ as, ∀ s, Guard s a) (s : σ) : StepsWithin step Guard s as := by
  induction as generalizing s with
  | nil => trivial
  | cons a as ih =>
    exact ⟨h a List.mem_cons_self s,
      fun s' _ _ => ih (fun a' ha' => h a' (List.mem_cons_of_mem a ha')) s'⟩

/-- A guarded run splits: the prefix is guarded, and so is the rest from the state that
the prefix reaches. -/
theorem stepsWithin_append {step : σ → α → Option (σ × β)} {Guard : σ → α → Prop} :
    ∀ {as as' : List α} {s : σ}, StepsWithin step Guard s (as ++ as') →
      StepsWithin step Guard s as ∧
      ∀ s' bs, run step s as = some (s', bs) → StepsWithin step Guard s' as' := by
  intro as
  induction as with
  | nil =>
    intro as' s h
    refine ⟨trivial, fun s' bs hr => ?_⟩
    simp only [run_nil, Option.some.injEq, Prod.mk.injEq] at hr
    exact hr.1 ▸ h
  | cons a as ih =>
    intro as' s h
    refine ⟨⟨h.1, fun s' b hs => (ih (h.2 s' b hs)).1⟩, fun s' bs hr => ?_⟩
    obtain ⟨s₁, b, bs', h₁, h₂, -⟩ := run_cons_eq_some.mp hr
    exact (ih (h.2 s₁ b h₁)).2 s' bs' h₂

/-- The steps of a run are within the guard exactly when the guard holds wherever a prefix of the
run leads. -/
theorem stepsWithin_iff_forall {step : σ → α → Option (σ × β)} {Guard : σ → α → Prop} :
    ∀ {as : List α} {s : σ}, StepsWithin step Guard s as ↔
      ∀ pre a post, as = pre ++ a :: post → ∀ t bs, run step s pre = some (t, bs) → Guard t a := by
  intro as s
  constructor
  · intro h pre a post has t bs hrun
    rw [has] at h
    exact ((stepsWithin_append h).2 t bs hrun).1
  · induction as generalizing s with
    | nil => intro _; trivial
    | cons a as ih =>
      intro h
      refine ⟨h [] a as rfl s [] rfl, fun s' b hs => ih ?_⟩
      intro pre a' post has t bs hrun
      exact h (a :: pre) a' post (by rw [has, List.cons_append]) t (b :: bs)
        (run_cons_eq_some.mpr ⟨s', b, bs, hs, hrun, rfl⟩)

/-- Two guards are the same along a run that does not fault when they are the same of its steps from
states that meet an invariant, which the steps within the second guard keep. -/
theorem stepsWithin_iff_of_invariant {step : σ → α → Option (σ × β)} {Guard Guard' : σ → α → Prop}
    (Inv : σ → Prop)
    (hiff : ∀ s a s' b, Inv s → step s a = some (s', b) → (Guard s a ↔ Guard' s a))
    (hstep : ∀ s a s' b, Inv s → Guard' s a → step s a = some (s', b) → Inv s') :
    ∀ (as : List α) (s s' : σ) (bs : List β), Inv s → run step s as = some (s', bs) →
      (StepsWithin step Guard s as ↔ StepsWithin step Guard' s as) := by
  intro as
  induction as with
  | nil => intro s s' bs _ _; exact Iff.rfl
  | cons a as ih =>
    intro s s' bs hs hrun
    obtain ⟨s₁, b, bs', h₁, h₂, -⟩ := run_cons_eq_some.mp hrun
    have hrest : Guard' s a → (StepsWithin step Guard s₁ as ↔ StepsWithin step Guard' s₁ as) :=
      fun ha => ih s₁ s' bs' (hstep s a s₁ b hs ha h₁) h₂
    have hnext : ∀ G : σ → α → Prop, (∀ s₂ b₂, step s a = some (s₂, b₂) → StepsWithin step G s₂ as) ↔
        StepsWithin step G s₁ as := by
      intro G
      rw [h₁]
      exact ⟨fun h => h s₁ b rfl, fun h s₂ b₂ heq => by cases heq; exact h⟩
    show Guard s a ∧ _ ↔ Guard' s a ∧ _
    rw [hnext Guard, hnext Guard', hiff s a s₁ b hs h₁]
    exact and_congr_right hrest

/-- The invariant rule for guarded runs: what every guarded step keeps, a guarded run keeps. -/
theorem run_invariant_of_within {step : σ → α → Option (σ × β)} {Guard : σ → α → Prop}
    (Inv : σ → Prop)
    (hstep : ∀ s a s' b, Inv s → Guard s a → step s a = some (s', b) → Inv s') :
    ∀ (as : List α) (s s' : σ) (bs : List β), Inv s → StepsWithin step Guard s as →
      run step s as = some (s', bs) → Inv s' := by
  intro as
  induction as with
  | nil =>
    intro s s' bs hs _ h
    simp only [run_nil, Option.some.injEq, Prod.mk.injEq] at h
    exact h.1 ▸ hs
  | cons a as ih =>
    intro s s' bs hs hw h
    obtain ⟨s₁, b, bs', h₁, h₂, -⟩ := run_cons_eq_some.mp h
    exact ih s₁ s' bs' (hstep s a s₁ b hs hw.1 h₁) (hw.2 s₁ b h₁) h₂

/-- The rule for total correctness of guarded runs: when every guarded step succeeds and keeps the
invariant, a guarded run never faults and keeps the invariant. -/
theorem run_total_of_within {step : σ → α → Option (σ × β)} {Guard : σ → α → Prop}
    (Inv : σ → Prop)
    (hstep : ∀ s a, Inv s → Guard s a → ∃ s' b, step s a = some (s', b) ∧ Inv s') :
    ∀ (as : List α) (s : σ), Inv s → StepsWithin step Guard s as →
      ∃ s' bs, run step s as = some (s', bs) ∧ Inv s' := by
  intro as
  induction as with
  | nil => intro s hs _; exact ⟨s, [], rfl, hs⟩
  | cons a as ih =>
    intro s hs hw
    obtain ⟨s₁, b, h₁, hs₁⟩ := hstep s a hs hw.1
    obtain ⟨s', bs, h₂, hs'⟩ := ih s₁ hs₁ (hw.2 s₁ b h₁)
    exact ⟨s', b :: bs, run_cons_eq_some.mpr ⟨s₁, b, bs, h₁, h₂, rfl⟩, hs'⟩

/-- The rule for the outputs of guarded runs: when every guarded step succeeds, keeps the invariant
and has an output that fits its label, so does a guarded run. -/
theorem run_outputs_of_within {step : σ → α → Option (σ × β)} {Guard : σ → α → Prop}
    (Inv : σ → Prop) (Fits : α → β → Prop)
    (hstep : ∀ s a, Inv s → Guard s a → ∃ s' b, step s a = some (s', b) ∧ Inv s' ∧ Fits a b) :
    ∀ (as : List α) (s : σ), Inv s → StepsWithin step Guard s as →
      ∃ s' bs, run step s as = some (s', bs) ∧ Inv s' ∧ List.Forall₂ Fits as bs := by
  intro as
  induction as with
  | nil => intro s hs _; exact ⟨s, [], rfl, hs, .nil⟩
  | cons a as ih =>
    intro s hs hw
    obtain ⟨s₁, b, h₁, hs₁, hb⟩ := hstep s a hs hw.1
    obtain ⟨s', bs, h₂, hs', hbs⟩ := ih s₁ hs₁ (hw.2 s₁ b h₁)
    exact ⟨s', b :: bs, run_cons_eq_some.mpr ⟨s₁, b, bs, h₁, h₂, rfl⟩, hs', .cons hb hbs⟩

/-- When the step and its output depend on `f s` alone, so do the outputs of a run. -/
theorem run_snd_eq_of_eq {step : σ → α → Option (σ × β)} {γ : Type} (f : σ → γ)
    (hstep : ∀ s t a, f s = f t →
      (step s a).map (fun r => (f r.1, r.2)) = (step t a).map fun r => (f r.1, r.2)) :
    ∀ (as : List α) (s t : σ), f s = f t →
      (run step s as).map Prod.snd = (run step t as).map Prod.snd := by
  intro as
  induction as with
  | nil => intro s t _; rfl
  | cons a as ih =>
    intro s t h
    have ha := hstep s t a h
    simp only [run]
    cases hs : step s a with
    | none =>
      rw [hs, Option.map_none, eq_comm, Option.map_eq_none_iff] at ha
      rw [ha]
    | some r =>
      obtain ⟨s₁, b⟩ := r
      rw [hs, Option.map_some, eq_comm, Option.map_eq_some_iff] at ha
      obtain ⟨⟨t₁, c⟩, ht, hr⟩ := ha
      simp only [Prod.mk.injEq] at hr
      obtain ⟨hf, rfl⟩ := hr
      have hrest := ih s₁ t₁ hf.symm
      rw [ht]
      simp only
      cases h₁ : run step s₁ as with
      | none =>
        rw [h₁, Option.map_none, eq_comm, Option.map_eq_none_iff] at hrest
        rw [hrest]
      | some r₁ =>
        rw [h₁, Option.map_some, eq_comm, Option.map_eq_some_iff] at hrest
        obtain ⟨r₂, h₂, heq⟩ := hrest
        rw [h₂]
        simp [heq]

/-- The simulation rule for steps that may fault: both runs fault, or they give the same outputs. -/
theorem run_simulation {τ : Type} {step : σ → α → Option (σ × β)}
    {step' : τ → α → Option (τ × β)} (R : σ → τ → Prop)
    (hstep : ∀ s t a, R s t →
      Option.Rel (fun r u => R r.1 u.1 ∧ r.2 = u.2) (step s a) (step' t a)) :
    ∀ (as : List α) (s : σ) (t : τ), R s t →
      Option.Rel (fun r u => R r.1 u.1 ∧ r.2 = u.2) (run step s as) (run step' t as) := by
  intro as
  induction as with
  | nil => exact fun s t hst => .some ⟨hst, rfl⟩
  | cons a as ih =>
    intro s t hst
    have hnext := hstep s t a hst
    simp only [run]
    cases hs : step s a with
    | none =>
      rw [hs] at hnext
      cases ht : step' t a with
      | none => exact .none
      | some u => rw [ht] at hnext; cases hnext
    | some r =>
      rw [hs] at hnext
      cases ht : step' t a with
      | none => rw [ht] at hnext; cases hnext
      | some u =>
        rw [ht] at hnext
        cases hnext with
        | some h =>
          simp only
          have hrest := ih r.1 u.1 h.1
          cases hr : run step r.1 as with
          | none =>
            rw [hr] at hrest
            cases hu : run step' u.1 as with
            | none => exact .none
            | some q => rw [hu] at hrest; cases hrest
          | some p =>
            rw [hr] at hrest
            cases hu : run step' u.1 as with
            | none => rw [hu] at hrest; cases hrest
            | some q =>
              rw [hu] at hrest
              cases hrest with
              | some h' => exact .some ⟨h'.1, congrArg₂ List.cons h.2 h'.2⟩

/-- `P` holds in every state that a prefix of the run over `as` reaches. -/
def AlongRun (step : σ → α → Option (σ × β)) (P : σ → Prop) (s : σ) (as : List α) : Prop :=
  ∀ pre post, as = pre ++ post → ∀ t bs, run step s pre = some (t, bs) → P t

theorem alongRun_of_within {step : σ → α → Option (σ × β)} {Guard : σ → α → Prop}
    (Inv : σ → Prop)
    (hstep : ∀ s a s' b, Inv s → Guard s a → step s a = some (s', b) → Inv s')
    {as : List α} {s : σ} (hs : Inv s) (hw : StepsWithin step Guard s as) :
    AlongRun step Inv s as := by
  intro pre post has t bs hrun
  rw [has] at hw
  exact run_invariant_of_within Inv hstep pre s t bs hs (stepsWithin_append hw).1 hrun

/-- `Inv` is what the steps within the guard keep, and a step that leads to a state with `P` is
within the guard. Then a run that does not fault has `P` everywhere exactly when all its steps are
within the guard. -/
theorem alongRun_iff_within_of_inv {step : σ → α → Option (σ × β)} {Guard : σ → α → Prop}
    (Inv P : σ → Prop) (hP : ∀ s, Inv s → P s)
    (hkeep : ∀ s a s' b, Inv s → Guard s a → step s a = some (s', b) → Inv s')
    (hback : ∀ s a s' b, Inv s → step s a = some (s', b) → P s' → Guard s a) :
    ∀ (as : List α) (s s' : σ) (bs : List β), Inv s → run step s as = some (s', bs) →
      (AlongRun step P s as ↔ StepsWithin step Guard s as) := by
  intro as s s' bs hs hrun
  constructor
  · induction as generalizing s bs with
    | nil => intro _; trivial
    | cons a as ih =>
      intro h
      obtain ⟨s₁, b, bs', h₁, h₂, -⟩ := run_cons_eq_some.mp hrun
      have hs₁ : P s₁ := h [a] as rfl s₁ [b] (run_cons_eq_some.mpr ⟨s₁, b, [], h₁, rfl, rfl⟩)
      have ha : Guard s a := hback s a s₁ b hs h₁ hs₁
      refine ⟨ha, fun s₂ b₂ hs₂ => ?_⟩
      rw [h₁] at hs₂
      cases hs₂
      apply ih s₁ bs' (hkeep s a s₁ b hs ha h₁) h₂
      intro pre post has t ts ht
      exact h (a :: pre) post (by rw [has, List.cons_append]) t (b :: ts)
        (run_cons_eq_some.mpr ⟨s₁, b, ts, h₁, ht, rfl⟩)
  · intro hw pre post has t bs ht
    exact hP t (alongRun_of_within Inv hkeep hs hw pre post has t bs ht)

/-- When a step keeps `P` exactly within the guard, a run that does not fault keeps `P` exactly
when all its steps are within the guard. -/
theorem alongRun_iff_within {step : σ → α → Option (σ × β)} {Guard : σ → α → Prop}
    (P : σ → Prop)
    (hstep : ∀ s a s' b, P s → step s a = some (s', b) → (P s' ↔ Guard s a)) :
    ∀ (as : List α) (s s' : σ) (bs : List β), P s → run step s as = some (s', bs) →
      (AlongRun step P s as ↔ StepsWithin step Guard s as) :=
  alongRun_iff_within_of_inv P P (fun _ hs => hs)
    (fun s a s' b hs ha h => (hstep s a s' b hs h).mpr ha)
    (fun s a s' b hs h hs' => (hstep s a s' b hs h).mp hs')

/-- When a step succeeds and keeps `P` exactly within the guard, a run succeeds and keeps `P` exactly
when all its steps are within the guard. `Inv` is what every step keeps. -/
theorem total_alongRun_iff_within {step : σ → α → Option (σ × β)} {Guard : σ → α → Prop}
    (Inv P : σ → Prop) (hinv : ∀ s a s' b, Inv s → step s a = some (s', b) → Inv s')
    (hstep : ∀ s a, Inv s → P s → ((∃ s' b, step s a = some (s', b) ∧ P s') ↔ Guard s a)) :
    ∀ (as : List α) (s : σ), Inv s → P s →
      ((∃ s' bs, run step s as = some (s', bs)) ∧ AlongRun step P s as ↔
        StepsWithin step Guard s as) := by
  intro as s hs hP
  constructor
  · rintro ⟨⟨s', bs, hrun⟩, halong⟩
    induction as generalizing s bs with
    | nil => trivial
    | cons a as ih =>
      obtain ⟨s₁, b, bs', h₁, h₂, -⟩ := run_cons_eq_some.mp hrun
      have hP₁ : P s₁ :=
        halong [a] as rfl s₁ [b] (run_cons_eq_some.mpr ⟨s₁, b, [], h₁, rfl, rfl⟩)
      refine ⟨(hstep s a hs hP).mp ⟨s₁, b, h₁, hP₁⟩, fun s₂ b₂ hs₂ => ?_⟩
      rw [h₁] at hs₂
      cases hs₂
      refine ih s₁ (hinv s a s₁ b hs h₁) hP₁ ?_ bs' h₂
      intro pre post has t ts ht
      exact halong (a :: pre) post (by rw [has, List.cons_append]) t (b :: ts)
        (run_cons_eq_some.mpr ⟨s₁, b, ts, h₁, ht, rfl⟩)
  · intro hw
    have hsteps : ∀ s a, Inv s ∧ P s → Guard s a →
        ∃ s' b, step s a = some (s', b) ∧ Inv s' ∧ P s' := by
      intro s a h ha
      obtain ⟨s', b, hs', hP'⟩ := (hstep s a h.1 h.2).mpr ha
      exact ⟨s', b, hs', hinv s a s' b h.1 hs', hP'⟩
    obtain ⟨s', bs, hrun, -⟩ := run_total_of_within (fun s => Inv s ∧ P s) hsteps as s ⟨hs, hP⟩ hw
    refine ⟨⟨s', bs, hrun⟩, fun pre post has t ts ht => ?_⟩
    have halong := alongRun_of_within (fun s => Inv s ∧ P s) (fun s a s' b h ha h₁ => by
      obtain ⟨s₂, b₂, h₂, hs₂⟩ := hsteps s a h ha
      rw [h₁] at h₂
      cases h₂
      exact hs₂) ⟨hs, hP⟩ hw
    exact (halong pre post has t ts ht).2

/-- The step function on states that carry the outputs so far. -/
def withOutputs (step : σ → α → Option (σ × β)) (p : σ × List β) (a : α) :
    Option ((σ × List β) × β) :=
  (step p.1 a).map fun r => ((r.1, p.2 ++ [r.2]), r.2)

/-- A run on states with outputs is the run, with its outputs appended. -/
theorem run_withOutputs (step : σ → α → Option (σ × β)) :
    ∀ (as : List α) (s : σ) (bs : List β),
      run (withOutputs step) (s, bs) as =
        (run step s as).map fun r => ((r.1, bs ++ r.2), r.2) := by
  intro as
  induction as with
  | nil => intro s bs; simp
  | cons a as ih =>
    intro s bs
    simp only [run, withOutputs]
    cases hstep : step s a with
    | none => rfl
    | some r =>
      obtain ⟨s', b⟩ := r
      simp only [Option.map_some, ih]
      cases hrun : run step s' as with
      | none => rfl
      | some r => simp

/-! ### Total steps -/

/-- The state after the steps of a list of labels, for a step function that never faults. -/
def exec (step : σ → α → σ) (s : σ) (as : List α) : σ := as.foldl step s

@[simp] theorem exec_nil (step : σ → α → σ) (s : σ) : exec step s [] = s := rfl

@[simp] theorem exec_cons (step : σ → α → σ) (s : σ) (a : α) (as : List α) :
    exec step s (a :: as) = exec step (step s a) as := rfl

theorem exec_append (step : σ → α → σ) (s : σ) (as as' : List α) :
    exec step s (as ++ as') = exec step (exec step s as) as' := List.foldl_append

/-- Every step is taken from a state where `Guard` holds of the label. -/
def ExecWithin (step : σ → α → σ) (Guard : σ → α → Prop) : σ → List α → Prop
  | _, [] => True
  | s, a :: as => Guard s a ∧ ExecWithin step Guard (step s a) as

theorem execWithin_append {step : σ → α → σ} {Guard : σ → α → Prop} :
    ∀ {as as' : List α} {s : σ}, ExecWithin step Guard s (as ++ as') ↔
      ExecWithin step Guard s as ∧ ExecWithin step Guard (exec step s as) as' := by
  intro as
  induction as with
  | nil => intro as' s; simp [ExecWithin]
  | cons a as ih => intro as' s; simp [ExecWithin, ih, and_assoc]

/-- The invariant rule for runs of a total step function. -/
theorem exec_invariant {step : σ → α → σ} (Inv : σ → Prop) (hstep : ∀ s a, Inv s → Inv (step s a)) :
    ∀ (as : List α) (s : σ), Inv s → Inv (exec step s as) := by
  intro as
  induction as with
  | nil => exact fun s hs => hs
  | cons a as ih => exact fun s hs => ih _ (hstep s a hs)

/-- The invariant rule for guarded runs of a total step function. -/
theorem exec_invariant_of_within {step : σ → α → σ} {Guard : σ → α → Prop} (Inv : σ → Prop)
    (hstep : ∀ s a, Inv s → Guard s a → Inv (step s a)) :
    ∀ (as : List α) (s : σ), Inv s → ExecWithin step Guard s as → Inv (exec step s as) := by
  intro as
  induction as with
  | nil => intro s hs _; exact hs
  | cons a as ih => intro s hs hw; exact ih _ (hstep s a hs hw.1) hw.2

/-- Two guards are the same along a run when they are the same in every state that meets an
invariant which the steps within the second guard keep. -/
theorem execWithin_iff_of_invariant {step : σ → α → σ} {Guard Guard' : σ → α → Prop}
    (Inv : σ → Prop) (hiff : ∀ s a, Inv s → (Guard s a ↔ Guard' s a))
    (hstep : ∀ s a, Inv s → Guard' s a → Inv (step s a)) :
    ∀ (as : List α) (s : σ), Inv s → (ExecWithin step Guard s as ↔ ExecWithin step Guard' s as) := by
  intro as
  induction as with
  | nil => intro s _; exact Iff.rfl
  | cons a as ih =>
    intro s hs
    constructor
    · intro h
      have ha := (hiff s a hs).mp h.1
      exact ⟨ha, (ih _ (hstep s a hs ha)).mp h.2⟩
    · intro h
      exact ⟨(hiff s a hs).mpr h.1, (ih _ (hstep s a hs h.1)).mpr h.2⟩

/-- A property of states that each step keeps exactly when a guard holds, in states that meet an
invariant, holds at the end of a run exactly when it does so at the start and every step is
within the guard. -/
theorem exec_iff_of_invariant {step : σ → α → σ} {Guard : σ → α → Prop} (Inv P : σ → Prop)
    (hstep : ∀ s a, Inv s → Inv (step s a))
    (hiff : ∀ s a, Inv s → (P (step s a) ↔ P s ∧ Guard s a)) :
    ∀ (as : List α) (s : σ), Inv s → (P (exec step s as) ↔ P s ∧ ExecWithin step Guard s as) := by
  intro as
  induction as with
  | nil =>
    intro s _
    show P s ↔ P s ∧ True
    rw [and_true]
  | cons a as ih =>
    intro s hs
    show P (exec step (step s a) as) ↔ P s ∧ Guard s a ∧ ExecWithin step Guard (step s a) as
    rw [ih _ (hstep s a hs), hiff s a hs, and_assoc]

/-- The outputs of a run of a step function that never faults. -/
def outputs (step : σ → α → σ × β) : σ → List α → List β
  | _, [] => []
  | s, a :: as => (step s a).2 :: outputs step (step s a).1 as

/-- The simulation rule: steps that keep a relation and give the same outputs make runs that do. -/
theorem outputs_simulation {τ : Type} {step : σ → α → σ × β} {step' : τ → α → τ × β}
    (R : σ → τ → Prop)
    (hstep : ∀ s t a, R s t → R (step s a).1 (step' t a).1 ∧ (step s a).2 = (step' t a).2) :
    ∀ (as : List α) (s : σ) (t : τ), R s t →
      R (exec (fun s a => (step s a).1) s as) (exec (fun t a => (step' t a).1) t as) ∧
        outputs step s as = outputs step' t as := by
  intro as
  induction as with
  | nil => exact fun s t hst => ⟨hst, rfl⟩
  | cons a as ih =>
    intro s t hst
    obtain ⟨hnext, hout⟩ := hstep s t a hst
    obtain ⟨hend, houts⟩ := ih _ _ hnext
    exact ⟨hend, congrArg₂ List.cons hout houts⟩

end Odss.Lib
