import Odss.Proofs.Slicer
import Mathlib.Data.String.Basic

/-!
# `Odss.Proofs.SlicerRuns`: the slicer over runs of calls

`ProportionalShares` is the property of a run: no call is undefined, each window of one
round serves each slice in proportion to its share, and without shares every call returns
the empty list.

A stretch of calls that keep the slice table reads `shareCycle` cyclically
(`run_of_allocated`), so the windows are counted by `count_of_isInfix_cyclicRun`. The
condition `KeepsTableFitting` is on the table that a call leaves behind. The source does
not check it: `sliceDelete_last` is a run that ends in a read of `v[0]` of an empty vector.
-/

set_option linter.all false

namespace Odss.Mac.Slicer

open Odss.Lib

variable {κ : Type} [LinearOrder κ]

/-! ### Steps -/

/-- The call does not change which slices there are, nor their shares. -/
def Op.keepsTable : Op κ → Bool
  | .sliceConfig _ => false
  | .sliceDelete _ => false
  | _ => true

/-- The condition on a call: the slice table that it leaves fits the arithmetic of
`upd_sf_alloc`. Only the two calls that change the table are restricted. -/
def KeepsTableFitting (s : Slicer κ) : Op κ → Prop
  | .sliceConfig sliceConfigs => TableFits (shareTable (configSlices s.slices sliceConfigs))
  | .sliceDelete sliceNames =>
    TableFits (shareTable (sliceNames.foldl (fun slices name => slices.erase name) s.slices))
  | _ => True

/-- The slicer has no slice and no allocation, or the allocation of its table. The ratio of
unsliced subframes stays as configured. -/
structure Inv (slicedUnslicedRatio : UInt32) (s : Slicer κ) : Prop where
  ratio : s.slicedUnslicedRatio = slicedUnslicedRatio
  alloc : (s.hasAlloc = false ∧ shareTable s.slices = []) ∨ Allocated s

/-- A call that is no read of the allocation and keeps the table keeps the allocation. -/
theorem step_sameAlloc {s s' : Slicer κ} {op : Op κ} {out : Out κ}
    (h : step s op = some (s', out)) (hop : op.keepsTable = true)
    (hget : ∀ ttiTxDl, op ≠ .getCurSfCrntis ttiTxDl) :
    SameAlloc s s' ∧ ∀ r, out ≠ .served r := by
  cases op with
  | sliceConfig cfgs => cases hop
  | sliceDelete names => cases hop
  | sliceUeBind name imsis =>
    cases h
    exact ⟨sameAlloc_sliceUeBind s name imsis, nofun⟩
  | sliceUeUnbind name imsis =>
    cases h
    exact ⟨sameAlloc_sliceUeUnbind s name imsis, nofun⟩
  | updMemberCrntiOfImsi imsi crnti =>
    cases h
    refine ⟨?_, nofun⟩
    apply SameAlloc.updMemberSlices
    exact ⟨rfl, rfl, rfl, rfl, rfl, rfl⟩
  | updMemberCrntiOfTmsi tmsi crnti =>
    cases h
    exact ⟨sameAlloc_updMemberCrntiOfTmsi s tmsi crnti, nofun⟩
  | updMemberCrntiOfCrnti old new =>
    cases h
    exact ⟨sameAlloc_updMemberCrntiOfCrnti s old new, nofun⟩
  | getCurSfCrntis tti => exact absurd rfl (hget tti)

/-- A call that is no read of the allocation and keeps the table is defined. -/
theorem step_isSome {s : Slicer κ} {op : Op κ} (hop : op.keepsTable = true)
    (hget : ∀ ttiTxDl, op ≠ .getCurSfCrntis ttiTxDl) : ∃ s' out, step s op = some (s', out) := by
  cases op with
  | sliceConfig cfgs => cases hop
  | sliceDelete names => cases hop
  | getCurSfCrntis tti => exact absurd rfl (hget tti)
  | _ => exact ⟨_, _, rfl⟩

/-- Such a call keeps the invariant. -/
theorem step_inv_of_keepsTable {ratio : UInt32} {s : Slicer κ} {op : Op κ} (hs : Inv ratio s)
    (hop : op.keepsTable = true) (hget : ∀ ttiTxDl, op ≠ .getCurSfCrntis ttiTxDl) :
    ∃ s' out, step s op = some (s', out) ∧ Inv ratio s' := by
  obtain ⟨s', out, hstep⟩ := step_isSome (s := s) hop hget
  have hsame := (step_sameAlloc hstep hop hget).1
  refine ⟨s', out, hstep, hsame.ratio.trans hs.ratio, ?_⟩
  rcases hs.alloc with hidle | halloc
  · exact Or.inl ⟨hsame.hasAlloc.trans hidle.1, hsame.table.trans hidle.2⟩
  · exact Or.inr (halloc.of_same hsame)

/-- The deletion loop leaves the table without the named slices, and the ratio as it is. -/
theorem foldl_delete (names : List κ) (s : Slicer κ) :
    let s' := names.foldl (fun s name =>
      if s.slices.contains name then
        { s with
          slices := s.slices.erase name
          sliceToCrntiVec := s.sliceToCrntiVec.erase name }
      else s) s
    s'.slices = names.foldl (fun slices name => slices.erase name) s.slices ∧
      s'.slicedUnslicedRatio = s.slicedUnslicedRatio := by
  induction names generalizing s with
  | nil => exact ⟨rfl, rfl⟩
  | cons name names ih =>
    simp only [List.foldl_cons]
    obtain ⟨hslices, hratio⟩ := ih (if s.slices.contains name then
        { s with
          slices := s.slices.erase name
          sliceToCrntiVec := s.sliceToCrntiVec.erase name }
      else s)
    rw [hslices, hratio]
    split
    · exact ⟨rfl, rfl⟩
    · rename_i h
      -- An absent name is skipped, and its removal would change nothing.
      have hnone : s.slices.find? name = none := by
        simpa [OrdMap.contains] using h
      rw [OrdMap.erase_of_find?_eq_none _ hnone]
      exact ⟨rfl, rfl⟩

/-- A read of the allocation is defined and keeps the invariant. -/
theorem step_getCurSfCrntis {ratio : UInt32} {s : Slicer κ} (hs : Inv ratio s) (tti : UInt32) :
    ∃ s' out, step s (.getCurSfCrntis tti) = some (s', out) ∧ Inv ratio s' := by
  rcases hs.alloc with hidle | halloc
  · exact ⟨s, .served ⟨none, []⟩, by simp [step, getCurSfCrntis_of_idle hidle.1], hs⟩
  · cases htti : isSliced s.slicedUnslicedRatio tti with
    | false =>
      exact ⟨s, .served ⟨none, []⟩, by simp [step, getCurSfCrntis_of_unsliced htti], hs⟩
    | true =>
      obtain ⟨s', k, hget, -, -, hratio, -, halloc'⟩ := getCurSfCrntis_of_allocated halloc htti
      exact ⟨s', .served ⟨some k, (s.sliceToCrntiVec.find? k).getD []⟩, by simp [step, hget],
        hratio.trans hs.ratio, Or.inr halloc'⟩

/-- A call under the condition is defined and keeps the invariant. -/
theorem step_of_keepsTableFitting {ratio : UInt32} {s : Slicer κ} {op : Op κ}
    (hs : Inv ratio s) (h : KeepsTableFitting s op) :
    ∃ s' out, step s op = some (s', out) ∧ Inv ratio s' := by
  cases op with
  | sliceConfig cfgs =>
    obtain ⟨s', hupd, -, hratio, -, halloc⟩ := updSfAlloc_eq_some
      (s := { s with slices := configSlices s.slices cfgs }) h
    exact ⟨s', .flag true, by simp [step, sliceConfig, hupd], hratio.trans hs.ratio,
      Or.inr halloc⟩
  | sliceDelete names =>
    obtain ⟨hslices, hratio⟩ := foldl_delete names s
    have hfits := h
    simp only [KeepsTableFitting, ← hslices] at hfits
    obtain ⟨s', hupd, -, hratio', -, halloc⟩ := updSfAlloc_eq_some hfits
    exact ⟨s', .flag false, by simp [step, sliceDelete, hupd],
      (hratio'.trans hratio).trans hs.ratio, Or.inr halloc⟩
  | getCurSfCrntis tti => exact step_getCurSfCrntis hs tti
  | sliceUeBind name imsis => exact step_inv_of_keepsTable hs rfl nofun
  | sliceUeUnbind name imsis => exact step_inv_of_keepsTable hs rfl nofun
  | updMemberCrntiOfImsi imsi crnti => exact step_inv_of_keepsTable hs rfl nofun
  | updMemberCrntiOfTmsi tmsi crnti => exact step_inv_of_keepsTable hs rfl nofun
  | updMemberCrntiOfCrnti old new => exact step_inv_of_keepsTable hs rfl nofun

/-! ### Stretches -/

/-- What the calls in sliced subframes of a stretch served, in order. -/
def servedSlices (slicedUnslicedRatio : UInt32) : List (Op κ) → List (Out κ) → List (Option κ)
  | .getCurSfCrntis ttiTxDl :: ops, .served r :: outs =>
    if isSliced slicedUnslicedRatio ttiTxDl then
      r.slice :: servedSlices slicedUnslicedRatio ops outs
    else servedSlices slicedUnslicedRatio ops outs
  | _ :: ops, _ :: outs => servedSlices slicedUnslicedRatio ops outs
  | _, _ => []

omit [LinearOrder κ] in
theorem servedSlices_cons_of_ne {ratio : UInt32} {op : Op κ} {out : Out κ} {ops : List (Op κ)}
    {outs : List (Out κ)} (h : ∀ r, out ≠ .served r) :
    servedSlices ratio (op :: ops) (out :: outs) = servedSlices ratio ops outs := by
  cases op <;> cases out <;> first | rfl | exact absurd rfl (h _)

/-- Over a stretch, a slicer with an allocation serves a cyclic reading of the round. -/
theorem run_of_allocated (ops : List (Op κ)) (hops : ∀ op ∈ ops, op.keepsTable = true) :
    ∀ s : Slicer κ, Allocated s → ∃ s' outs m, run step s ops = some (s', outs) ∧
      servedSlices s.slicedUnslicedRatio ops outs =
        (cyclicRun (shareCycle (shareTable s.slices)) s.allocIndex.toNat m).map some := by
  induction ops with
  | nil => intro s _; exact ⟨s, [], 0, rfl, rfl⟩
  | cons op ops ih =>
    intro s hs
    have hop := hops op List.mem_cons_self
    have hrest := ih fun o ho => hops o (List.mem_cons_of_mem _ ho)
    by_cases hget : ∃ tti, op = .getCurSfCrntis tti
    · obtain ⟨tti, rfl⟩ := hget
      cases htti : isSliced s.slicedUnslicedRatio tti with
      | false =>
        obtain ⟨s', outs, m, hrun, hserved⟩ := hrest s hs
        refine ⟨s', .served ⟨none, []⟩ :: outs, m, run_cons_eq_some.mpr
          ⟨s, _, outs, by simp [step, getCurSfCrntis_of_unsliced htti], hrun, rfl⟩, ?_⟩
        simp [servedSlices, htti, hserved]
      | true =>
        obtain ⟨s₁, k, hcall, hk, hslices, hratio, hidx, hs₁⟩ :=
          getCurSfCrntis_of_allocated hs htti
        obtain ⟨s', outs, m, hrun, hserved⟩ := hrest s₁ hs₁
        refine ⟨s', _ :: outs, m + 1, run_cons_eq_some.mpr
          ⟨s₁, _, outs, by simp only [step, hcall, Option.map_some]; rfl, hrun, rfl⟩, ?_⟩
        rw [hratio, hslices, hidx] at hserved
        rw [cyclicRun_succ hk, List.map_cons, ← hserved]
        simp [servedSlices, htti]
    · have hget' : ∀ tti, op ≠ .getCurSfCrntis tti := fun tti h => hget ⟨tti, h⟩
      obtain ⟨s₁, out, hstep⟩ := step_isSome (s := s) hop hget'
      obtain ⟨hsame, hout⟩ := step_sameAlloc hstep hop hget'
      obtain ⟨s', outs, m, hrun, hserved⟩ := hrest s₁ (hs.of_same hsame)
      refine ⟨s', out :: outs, m, run_cons_eq_some.mpr ⟨s₁, out, outs, hstep, hrun, rfl⟩, ?_⟩
      rw [servedSlices_cons_of_ne hout, ← hsame.ratio, hserved, hsame.table, hsame.index]

/-- Over a stretch, a slicer without an allocation serves nothing. -/
theorem run_of_idle (ops : List (Op κ)) (hops : ∀ op ∈ ops, op.keepsTable = true) :
    ∀ s : Slicer κ, s.hasAlloc = false → ∃ s' outs, run step s ops = some (s', outs) ∧
      ∀ r, .served r ∈ outs → r.crntis = [] := by
  induction ops with
  | nil => intro s _; exact ⟨s, [], rfl, nofun⟩
  | cons op ops ih =>
    intro s hs
    have hop := hops op List.mem_cons_self
    have hrest := ih fun o ho => hops o (List.mem_cons_of_mem _ ho)
    by_cases hget : ∃ tti, op = .getCurSfCrntis tti
    · obtain ⟨tti, rfl⟩ := hget
      obtain ⟨s', outs, hrun, hserved⟩ := hrest s hs
      refine ⟨s', .served ⟨none, []⟩ :: outs, run_cons_eq_some.mpr
        ⟨s, _, outs, by simp [step, getCurSfCrntis_of_idle hs], hrun, rfl⟩, fun r hr => ?_⟩
      rcases List.mem_cons.mp hr with h | h
      · cases h
        rfl
      · exact hserved r h
    · have hget' : ∀ tti, op ≠ .getCurSfCrntis tti := fun tti h => hget ⟨tti, h⟩
      obtain ⟨s₁, out, hstep⟩ := step_isSome (s := s) hop hget'
      obtain ⟨hsame, hout⟩ := step_sameAlloc hstep hop hget'
      obtain ⟨s', outs, hrun, hserved⟩ := hrest s₁ (hsame.hasAlloc ▸ hs)
      refine ⟨s', out :: outs, run_cons_eq_some.mpr ⟨s₁, out, outs, hstep, hrun, rfl⟩,
        fun r hr => ?_⟩
      rcases List.mem_cons.mp hr with h | h
      · exact absurd h.symm (hout r)
      · exact hserved r h

/-! ### Runs -/

/-- The slice shares are proportional over the run of `ops` from the start.

- `defined`: no call divides by zero or indexes outside a vector;
- `proportional`: take a stretch of calls that keep the slice table, and any
  `(s_1 + ... + s_k) / g` consecutive calls of it in sliced subframes. If some share is not
  zero, each slice is served exactly `s_i / g` times;
- `silent`: without slices, or with zero shares only, each call returns the empty list. -/
structure ProportionalShares (slicedUnslicedRatio : UInt32) (ops : List (Op κ)) : Prop where
  defined : (run step (init slicedUnslicedRatio) ops).isSome = true
  proportional : ∀ pre stretch post, ops = pre ++ stretch ++ post →
    (∀ op ∈ stretch, op.keepsTable = true) → ∀ s outs s' outs',
    run step (init slicedUnslicedRatio) pre = some (s, outs) →
    run step s stretch = some (s', outs') →
    (∃ x ∈ shares (shareTable s.slices), x ≠ 0) →
    ∀ window, window <:+: servedSlices slicedUnslicedRatio stretch outs' →
      window.length =
        (shares (shareTable s.slices)).sum / gcdList (shares (shareTable s.slices)) →
      ∀ e ∈ shareTable s.slices,
        window.count (some e.1) = e.2 / gcdList (shares (shareTable s.slices))
  silent : ∀ pre stretch post, ops = pre ++ stretch ++ post →
    (∀ op ∈ stretch, op.keepsTable = true) → ∀ s outs s' outs',
    run step (init slicedUnslicedRatio) pre = some (s, outs) →
    run step s stretch = some (s', outs') →
    (∀ x ∈ shares (shareTable s.slices), x = 0) →
    ∀ r, .served r ∈ outs' → r.crntis = []

theorem inv_init (slicedUnslicedRatio : UInt32) :
    Inv slicedUnslicedRatio (init slicedUnslicedRatio : Slicer κ) := ⟨rfl, Or.inl ⟨rfl, rfl⟩⟩

theorem shareTable_nodup (slices : OrdMap κ (Slice κ)) :
    ((shareTable slices).map Prod.fst).Nodup := by
  have h := OrdMap.nodup_keys slices
  simpa [shareTable, OrdMap.keys, Function.comp_def] using h

/-- A prefix of a run under the condition reaches a state with the invariant. -/
theorem inv_of_run_pre {ratio : UInt32} {pre rest : List (Op κ)}
    (h : StepsWithin step KeepsTableFitting (init ratio) (pre ++ rest)) {s : Slicer κ}
    {outs : List (Out κ)} (hrun : run step (init ratio) pre = some (s, outs)) : Inv ratio s := by
  obtain ⟨s', outs', hrun', hs'⟩ := run_total_of_within (Inv ratio)
    (fun _ _ hs hop => step_of_keepsTableFitting hs hop) pre (init ratio) (inv_init ratio)
    (stepsWithin_append h).1
  rw [hrun] at hrun'
  cases hrun'
  exact hs'

/-- In every run whose calls leave tables that fit, the shares are proportional. -/
theorem proportionalShares_of_within (slicedUnslicedRatio : UInt32) (ops : List (Op κ))
    (h : StepsWithin step KeepsTableFitting (init slicedUnslicedRatio) ops) :
    ProportionalShares slicedUnslicedRatio ops where
  defined := by
    obtain ⟨s, outs, hrun, -⟩ := run_total_of_within (Inv slicedUnslicedRatio)
      (fun _ _ hs hop => step_of_keepsTableFitting hs hop) ops _ (inv_init _) h
    rw [hrun]
    rfl
  proportional := by
    intro pre stretch post hops hkeep s outs s' outs' hpre hstretch hne window hwin hlen e he
    rw [hops, List.append_assoc] at h
    have hs := inv_of_run_pre h hpre
    rcases hs.alloc with hidle | halloc
    · -- Without slices there is no share that differs from zero.
      rw [hidle.2] at he
      cases he
    · obtain ⟨s₂, outs₂, m, hrun, hserved⟩ := run_of_allocated stretch hkeep s halloc
      rw [hstretch] at hrun
      cases hrun
      rw [← hs.ratio, hserved] at hwin
      obtain ⟨names, hnames, rfl⟩ := List.infix_map_iff.mp hwin
      rw [List.length_map, ← length_shareCycle] at hlen
      have hpos := List.ne_nil_of_length_pos (length_shareCycle_pos halloc.fits)
      calc (names.map some).count (some e.1)
          = names.count e.1 := List.count_map_of_injective names some (Option.some_injective _) e.1
        _ = (shareCycle (shareTable s.slices)).count e.1 :=
            count_of_isInfix_cyclicRun hpos hnames hlen e.1
        _ = e.2 / gcdList (shares (shareTable s.slices)) :=
            count_shareCycle (shareTable_nodup s.slices) he
  silent := by
    intro pre stretch post hops hkeep s outs s' outs' hpre hstretch hzero
    rw [hops, List.append_assoc] at h
    rcases (inv_of_run_pre h hpre).alloc with hidle | halloc
    · obtain ⟨s₂, outs₂, hrun, hserved⟩ := run_of_idle stretch hkeep s hidle.1
      rw [hstretch] at hrun
      cases hrun
      exact hserved
    · obtain ⟨⟨x, hx, hne⟩, -⟩ := halloc.fits
      exact absurd (hzero x hx) hne

/-- Two calls of the guarded kind: one slice is configured and served. -/
theorem proportionalShares_single :
    ProportionalShares 20 [.sliceConfig [⟨"a", 3⟩], .getCurSfCrntis 1] :=
  proportionalShares_of_within 20 _
    ⟨by simp only [KeepsTableFitting]; unfold TableFits; decide,
      fun _ _ _ => ⟨trivial, fun _ _ _ => trivial⟩⟩

/-- The deletion of the last slice reads `v[0]` of an empty vector. -/
theorem not_proportionalShares_sliceDelete_last :
    ¬ ProportionalShares 20 [.sliceConfig [⟨"a", 1⟩], .sliceDelete ["a"]] := by
  intro h
  have hdefined := h.defined
  have hfault : run step (init 20) [.sliceConfig [⟨"a", 1⟩], .sliceDelete ["a"]] = none := by
    rfl
  rw [hfault] at hdefined
  cases hdefined

end Odss.Mac.Slicer
