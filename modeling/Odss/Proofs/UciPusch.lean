import Odss.Mac.UciPusch
import Mathlib.Data.List.Enum

/-!
# `Odss.Proofs.UciPusch`: when the UCI is on exactly one PUSCH

`UciOnLowest` is the rule: UCI that is due goes on one PUSCH of the UE, the one with the lowest UE
carrier index. `is_uci_included` sees only what has been scheduled so far. `reported_iff` says for
which carriers it reports UCI, in terms of the allocations: those that see UCI and no PUSCH with a
lower index on a carrier before. `uciOnLowest_iff` says when these are the right ones.
-/

set_option linter.all false

namespace Odss.Mac

/-! ### The rule and its condition -/

section Rule

variable (users : Nat → Option CaUser) (carriers : List CarrierAllocs) (user : CaUser) (rnti : Nat)

/-- The UE has an UL grant on the active carrier `k`. -/
def Granted (k : Nat) : Prop :=
  (user.activeCell k).isSome ∧ ∃ c, carriers[k]? = some c ∧ c.isUlAlloc rnti = true

/-- Periodic CQI is due on some active carrier. -/
def CqiDue : Prop :=
  ∃ k c ueCcIdx, carriers[k]? = some c ∧ user.activeCell k = some ueCcIdx ∧
    user.cqiPeriodicSend ueCcIdx = true

/-- UCI is due: CQI, or the HARQ-ACK of some active carrier. -/
def UciDue : Prop :=
  CqiDue carriers user ∨ ∃ k c, carriers[k]? = some c ∧ (user.activeCell k).isSome ∧
    c.isDlAlloc rnti = true

/-- The carrier with a grant that has the lowest UE carrier index. -/
def Lowest (k : Nat) : Prop :=
  Granted carriers user rnti k ∧ ∀ k', Granted carriers user rnti k' →
    ∀ ueCcIdx ueCcIdx', user.activeCell k = some ueCcIdx → user.activeCell k' = some ueCcIdx' →
      ueCcIdx ≤ ueCcIdx'

/-- `is_uci_included` reports UCI for a PUSCH of the UE on the carrier `k`. -/
def Reported (k : Nat) : Prop :=
  ∃ uci, uci ≠ .noUci ∧ ⟨k, rnti, uci⟩ ∈ newTtiReports users carriers

/-- UCI that is due for a UE with a grant is reported for exactly one carrier, the one with a grant
that has the lowest UE carrier index. -/
def UciOnLowest : Prop :=
  ∀ user, users rnti = some user → UciDue carriers user rnti →
    (∃ k, Granted carriers user rnti k) →
    ∃ k, Lowest carriers user rnti k ∧ ∀ k', Reported users carriers rnti k' ↔ k' = k

/-- There is UCI that the carrier `k` can see: CQI, an ACK for its own allocation, or an ACK for a DCI
on a carrier before. -/
def SeesUci (k : Nat) : Prop :=
  CqiDue carriers user ∨ (∃ c, carriers[k]? = some c ∧ c.isDlAlloc rnti = true) ∨
    ∃ j < k, ∃ c, carriers[j]? = some c ∧ (user.activeCell j).isSome ∧
      ∃ g ∈ c.dl, g.rnti = rnti ∧ g.built = true

/-- A carrier before `k` has a PUSCH of the UE and a lower UE carrier index. -/
def LowerBefore (k : Nat) : Prop :=
  ∃ j < k, ∃ c ueCcIdx ueCcIdx', carriers[j]? = some c ∧ user.activeCell j = some ueCcIdx ∧
    user.activeCell k = some ueCcIdx' ∧ ueCcIdx < ueCcIdx' ∧
    ∃ g ∈ c.ul, g.rnti = rnti ∧ g.built = true

/-- The condition: when UCI is due, the carrier with the lowest UE carrier index can see it, and any
other carrier with a grant that can see it has a PUSCH with a lower index before it. -/
def SeenInOrder : Prop :=
  ∀ user, users rnti = some user → UciDue carriers user rnti →
    ∀ k, Granted carriers user rnti k →
      (Lowest carriers user rnti k → SeesUci carriers user rnti k) ∧
      (¬ Lowest carriers user rnti k → SeesUci carriers user rnti k →
        LowerBefore carriers user rnti k)

end Rule

/-! ### The two loops -/

variable {users : Nat → Option CaUser} {carriers : List CarrierAllocs} {user : CaUser} {rnti : Nat}

/-- Some carrier has UCI in its result, or in the allocations of the carrier `current`. -/
def HasUci (user : CaUser) (rnti : Nat) (isDlAlloc : Bool) (current : Nat)
    (entry : CcSchedResult × Nat) : Prop :=
  ∃ ueCcIdx, user.activeCell entry.2 = some ueCcIdx ∧
    (user.cqiPeriodicSend ueCcIdx = true ∨
      (if entry.2 = current then isDlAlloc = true else rnti ∈ entry.1.dlData))

theorem pendingUci_ne_noUci {isDlAlloc : Bool} {current : Nat}
    (results : List (CcSchedResult × Nat)) :
    ∀ uci, pendingUci user rnti isDlAlloc current results uci ≠ .noUci ↔
      uci ≠ .noUci ∨ ∃ entry ∈ results, HasUci user rnti isDlAlloc current entry := by
  induction results with
  | nil =>
    intro uci
    simp [pendingUci]
  | cons entry results ih =>
    intro uci
    obtain ⟨result, cc⟩ := entry
    rw [pendingUci]
    split
    · next hboth => simp [hboth]
    · cases hcell : user.activeCell cc with
      | none =>
        have hnone : ¬ HasUci user rnti isDlAlloc current (result, cc) := by
          intro h
          obtain ⟨ueCcIdx, hsome, -⟩ := h
          rw [hcell] at hsome
          cases hsome
        dsimp only
        rw [ih uci]
        simp [hnone]
      | some ueCcIdx =>
        have hhas : HasUci user rnti isDlAlloc current (result, cc) ↔
            user.cqiPeriodicSend ueCcIdx = true ∨
              (if cc = current then isDlAlloc else result.dlData.contains rnti) = true := by
          unfold HasUci
          simp only [hcell, Option.some.injEq, exists_eq_left']
          by_cases hcc : cc = current
          · simp [hcc]
          · simp [hcc]
        dsimp only
        rw [ih]
        simp only [List.mem_cons, exists_eq_or_imp, hhas]
        cases user.cqiPeriodicSend ueCcIdx <;>
          cases (if cc = current then isDlAlloc else result.dlData.contains rnti) <;>
          cases uci <;> simp

/-- A PUSCH of the UE on an active carrier, with an index below `ueCcIdx`. -/
def HasLower (user : CaUser) (rnti ueCcIdx : Nat) (entry : CcSchedResult × Nat) : Prop :=
  rnti ∈ entry.1.pusch ∧ ∃ ueCcIdx', user.activeCell entry.2 = some ueCcIdx' ∧ ueCcIdx' < ueCcIdx

/-- The PUSCHs of one carrier leave the choice `k`, unless one of them has a lower index than the best
so far. -/
theorem foldl_selectPusch {k ueCcIdx cc : Nat} (hk : user.activeCell k = some ueCcIdx)
    (rntis : List Nat) :
    ∀ best : Nat × Option Nat, best.1 ≤ ueCcIdx →
      (rntis.foldl (selectPusch user rnti cc) best).1 ≤ ueCcIdx ∧
      ((rntis.foldl (selectPusch user rnti cc) best).2 = some k ↔
        best.2 = some k ∧ ¬ HasLower user rnti best.1 (⟨[], rntis⟩, cc)) ∧
      (¬ HasLower user rnti best.1 (⟨[], rntis⟩, cc) →
        rntis.foldl (selectPusch user rnti cc) best = best) := by
  induction rntis with
  | nil =>
    intro best hbest
    have hnone : ¬ HasLower user rnti best.1 (⟨[], []⟩, cc) := fun h => List.not_mem_nil h.1
    exact ⟨hbest, by simp [hnone], fun _ => rfl⟩
  | cons r rntis ih =>
    intro best hbest
    rw [List.foldl_cons]
    by_cases hlower : r = rnti ∧ ∃ ueCcIdx', user.activeCell cc = some ueCcIdx' ∧ ueCcIdx' < best.1
    · -- The best so far is replaced by another carrier, and never comes back.
      obtain ⟨rfl, ueCcIdx', hcell, hlt⟩ := hlower
      have hstep : selectPusch user r cc best r = (ueCcIdx', some cc) := by
        simp [selectPusch, hcell, hlt]
      have hhas : HasLower user r best.1 (⟨[], r :: rntis⟩, cc) :=
        ⟨List.mem_cons_self, ueCcIdx', hcell, hlt⟩
      have hother : cc ≠ k := by
        intro heq
        rw [heq, hk, Option.some.injEq] at hcell
        omega
      obtain ⟨hle, hiff, -⟩ := ih (ueCcIdx', some cc) (by show ueCcIdx' ≤ ueCcIdx; omega)
      rw [hstep]
      refine ⟨hle, ?_, fun h => absurd hhas h⟩
      rw [hiff]
      simp [hother, hhas]
    · have hstep : selectPusch user rnti cc best r = best := by
        unfold selectPusch
        split
        · next hr =>
          cases hcell : user.activeCell cc with
          | none => rfl
          | some ueCcIdx' =>
            exact if_neg fun hlt => hlower ⟨hr, ueCcIdx', hcell, hlt⟩
        · rfl
      have hhas : HasLower user rnti best.1 (⟨[], r :: rntis⟩, cc) ↔
          HasLower user rnti best.1 (⟨[], rntis⟩, cc) := by
        constructor
        · intro h
          obtain ⟨hmem, hrest⟩ := h
          rcases List.mem_cons.mp hmem with heq | hmem
          · exact absurd ⟨heq.symm, hrest⟩ hlower
          · exact ⟨hmem, hrest⟩
        · intro h
          exact ⟨List.mem_cons_of_mem r h.1, h.2⟩
      rw [hstep, hhas]
      exact ih best hbest

/-- The carrier `k` with the index `ueCcIdx` stays the choice exactly when no PUSCH of the UE has a
lower index. -/
theorem selectCc_eq_iff {k ueCcIdx : Nat} (hk : user.activeCell k = some ueCcIdx)
    (results : List (CcSchedResult × Nat)) :
    ∀ best : Nat × Option Nat, best.1 ≤ ueCcIdx →
      ((selectCc user rnti results best).2 = some k ↔
        best.2 = some k ∧ ∀ entry ∈ results, ¬ HasLower user rnti best.1 entry) := by
  induction results with
  | nil =>
    intro best _
    simp [selectCc]
  | cons entry results ih =>
    intro best hbest
    have hsame : HasLower user rnti best.1 entry ↔
        HasLower user rnti best.1 (⟨[], entry.1.pusch⟩, entry.2) := Iff.rfl
    obtain ⟨hle, hiff, hstay⟩ :=
      @foldl_selectPusch user rnti k ueCcIdx entry.2 hk entry.1.pusch best hbest
    show (selectCc user rnti results _).2 = some k ↔ _
    rw [ih _ hle, hiff, ← hsame]
    simp only [List.forall_mem_cons]
    by_cases hlower : HasLower user rnti best.1 entry
    · simp [hlower]
    · rw [hstay (by rw [← hsame]; exact hlower)]
      simp [hlower]

theorem isUciIncluded_ne_noUci {results : List CcSchedResult} {c : CarrierAllocs} {k : Nat}
    (hul : c.isUlAlloc rnti = true) :
    isUciIncluded results c user rnti k ≠ .noUci ↔
      ∃ ueCcIdx, user.activeCell k = some ueCcIdx ∧
        (∃ entry ∈ results.zipIdx, HasUci user rnti (c.isDlAlloc rnti) k entry) ∧
        ∀ entry ∈ results.zipIdx, ¬ HasLower user rnti ueCcIdx entry := by
  unfold isUciIncluded
  cases hk : user.activeCell k with
  | none => simp
  | some ueCcIdx =>
    have hpending := @pendingUci_ne_noUci user rnti (c.isDlAlloc rnti) k results.zipIdx .noUci
    have hselect := @selectCc_eq_iff user rnti k ueCcIdx hk results.zipIdx (ueCcIdx, some k)
      (Nat.le_refl _)
    simp only [ne_eq, not_true_eq_false, false_or] at hpending
    simp only [Option.some.injEq, exists_eq_left']
    rw [if_pos hul]
    simp only [true_and] at hselect
    split
    · next hno =>
      have hnone := mt hpending.mpr (not_not_intro hno)
      simp [hnone]
    · next huci =>
      have hsome := hpending.mp huci
      split
      · next hsel => exact iff_of_true huci ⟨hsome, hselect.mp hsel⟩
      · next hsel => exact iff_of_false (fun h => h rfl) fun h => hsel (hselect.mpr h.2)

/-! ### The results of the carriers -/

/-- The RNTIs of the PUSCHs of a list of UL allocations. -/
def puschOf (users : Nat → Option CaUser) (gs : List DataGrant) : List Nat :=
  (gs.filter fun g => g.built && (users g.rnti).isSome).map DataGrant.rnti

/-- The result of a carrier, whatever UCI its PUSCHs have. -/
def resultOf (users : Nat → Option CaUser) (c : CarrierAllocs) : CcSchedResult :=
  ⟨(c.dl.filter DataGrant.built).map DataGrant.rnti, puschOf users c.ul⟩

theorem mem_puschOf (huser : users rnti = some user) (gs : List DataGrant) :
    rnti ∈ puschOf users gs ↔ ∃ g ∈ gs, g.rnti = rnti ∧ g.built = true := by
  unfold puschOf
  simp only [List.mem_map, List.mem_filter, Bool.and_eq_true]
  constructor
  · intro h
    obtain ⟨g, ⟨hg, hbuilt, -⟩, hrnti⟩ := h
    exact ⟨g, hg, hrnti, hbuilt⟩
  · intro h
    obtain ⟨g, hg, hrnti, hbuilt⟩ := h
    exact ⟨g, ⟨hg, hbuilt, by rw [hrnti, huser]; rfl⟩, hrnti⟩

theorem mem_dlData_resultOf (c : CarrierAllocs) :
    rnti ∈ (resultOf users c).dlData ↔ ∃ g ∈ c.dl, g.rnti = rnti ∧ g.built = true := by
  unfold resultOf
  simp only [List.mem_map, List.mem_filter]
  constructor
  · intro h
    obtain ⟨g, ⟨hg, hbuilt⟩, hrnti⟩ := h
    exact ⟨g, hg, hrnti, hbuilt⟩
  · intro h
    obtain ⟨g, hg, hrnti, hbuilt⟩ := h
    exact ⟨g, ⟨hg, hbuilt⟩, hrnti⟩

variable {others : CcSchedResult → List CcSchedResult} {c : CarrierAllocs} {current : Nat}

/-- The loop over the UL allocations: the PUSCHs are appended, and each report is for one allocation
and the PUSCHs before it. -/
theorem setUlSchedResult_spec (gs : List DataGrant) :
    ∀ result : CcSchedResult,
      (setUlSchedResult users others c current gs result).1 =
        ⟨result.dlData, result.pusch ++ puschOf users gs⟩ ∧
      ∀ report, report ∈ (setUlSchedResult users others c current gs result).2 ↔
        ∃ pre g post user, gs = pre ++ g :: post ∧ users g.rnti = some user ∧
          report = ⟨current, g.rnti, isUciIncluded
            (others ⟨result.dlData, result.pusch ++ puschOf users pre⟩) c user g.rnti current⟩ := by
  induction gs with
  | nil =>
    intro result
    refine ⟨by simp [setUlSchedResult, puschOf], fun report => ?_⟩
    simp [setUlSchedResult]
  | cons g gs ih =>
    intro result
    have hpre : ∀ pre, puschOf users (g :: pre) = puschOf users [g] ++ puschOf users pre := by
      intro pre
      unfold puschOf
      rw [← List.map_append, ← List.filter_append]
      rfl
    cases huser : users g.rnti with
    | none =>
      have hnone : puschOf users [g] = [] := by simp [puschOf, huser]
      simp only [setUlSchedResult, huser]
      obtain ⟨hresult, hreports⟩ := ih result
      refine ⟨by rw [hresult, hpre gs, hnone, List.nil_append], fun report => ?_⟩
      rw [hreports]
      constructor
      · intro h
        obtain ⟨pre, g', post, user, hgs, huser', hreport⟩ := h
        refine ⟨g :: pre, g', post, user, by rw [hgs, List.cons_append], huser', ?_⟩
        rw [hpre pre, hnone, List.nil_append]
        exact hreport
      · intro h
        obtain ⟨pre, g', post, user, hgs, huser', hreport⟩ := h
        cases pre with
        | nil =>
          cases hgs
          rw [huser] at huser'
          cases huser'
        | cons g₁ pre =>
          cases hgs
          rw [hpre pre, hnone, List.nil_append] at hreport
          exact ⟨pre, g', post, user, rfl, huser', hreport⟩
    | some user =>
      have hone : (if g.built then result.pusch ++ [g.rnti] else result.pusch) =
          result.pusch ++ puschOf users [g] := by
        cases hbuilt : g.built <;> simp [puschOf, huser, hbuilt]
      simp only [setUlSchedResult, huser, hone]
      obtain ⟨hresult, hreports⟩ := ih ⟨result.dlData, result.pusch ++ puschOf users [g]⟩
      refine ⟨by rw [hresult, hpre gs, ← List.append_assoc], fun report => ?_⟩
      rw [List.mem_cons, hreports]
      constructor
      · intro h
        rcases h with rfl | ⟨pre, g', post, user', hgs, huser', hreport⟩
        · exact ⟨[], g, gs, user, rfl, huser, by simp [puschOf]⟩
        · refine ⟨g :: pre, g', post, user', by rw [hgs, List.cons_append], huser', ?_⟩
          rw [hpre pre, ← List.append_assoc]
          exact hreport
      · intro h
        obtain ⟨pre, g', post, user', hgs, huser', hreport⟩ := h
        cases pre with
        | nil =>
          cases hgs
          rw [huser] at huser'
          cases huser'
          left
          rw [hreport]
          simp [puschOf]
        | cons g₁ pre =>
          cases hgs
          right
          rw [hpre pre, ← List.append_assoc] at hreport
          exact ⟨pre, g', post, user', rfl, huser', hreport⟩

/-- The results that the carrier behind `pre` sees, with `partial` as its own. -/
def seenResults (users : Nat → Option CaUser) (pre : List CarrierAllocs) (own : CcSchedResult)
    (post : List CarrierAllocs) : List CcSchedResult :=
  pre.map (resultOf users) ++ own :: post.map fun _ => ⟨[], []⟩

/-- The reports of a TTI: one for each UL allocation, with the results of the carriers before. -/
theorem mem_newTtiFrom (carriers : List CarrierAllocs) :
    ∀ (before : List CarrierAllocs) (report : UciReport),
      report ∈ newTtiFrom users (before.map (resultOf users)) carriers ↔
        ∃ pre c post ul g ul' user, carriers = pre ++ c :: post ∧ c.ul = ul ++ g :: ul' ∧
          users g.rnti = some user ∧
          report = ⟨(before ++ pre).length, g.rnti, isUciIncluded (seenResults users (before ++ pre)
            ⟨(resultOf users c).dlData, puschOf users ul⟩ post) c user g.rnti
              (before ++ pre).length⟩ := by
  induction carriers with
  | nil =>
    intro before report
    simp [newTtiFrom]
  | cons c cs ih =>
    intro before report
    obtain ⟨hresult, hreports⟩ := @setUlSchedResult_spec users
      (fun result => before.map (resultOf users) ++ result :: cs.map fun _ => ⟨[], []⟩) c
      (before.map (resultOf users)).length c.ul
      ⟨(c.dl.filter DataGrant.built).map DataGrant.rnti, []⟩
    have hdone : before.map (resultOf users) ++ [resultOf users c] =
        (before ++ [c]).map (resultOf users) := by
      rw [List.map_append, List.map_singleton]
    simp only [newTtiFrom, generateSchedResults, List.mem_append, hreports, hresult,
      List.nil_append]
    rw [show (⟨(c.dl.filter DataGrant.built).map DataGrant.rnti, puschOf users c.ul⟩ :
      CcSchedResult) = resultOf users c from rfl, hdone, ih]
    constructor
    · intro h
      rcases h with ⟨ul, g, ul', user, hul, huser, hreport⟩ |
        ⟨pre, c', post, ul, g, ul', user, hcs, hul, huser, hreport⟩
      · refine ⟨[], c, cs, ul, g, ul', user, rfl, hul, huser, ?_⟩
        rw [List.append_nil, ← @List.length_map _ _ before (resultOf users)]
        exact hreport
      · refine ⟨c :: pre, c', post, ul, g, ul', user, by rw [hcs, List.cons_append], hul, huser, ?_⟩
        rw [← List.append_cons before c pre] at hreport
        exact hreport
    · intro h
      obtain ⟨pre, c', post, ul, g, ul', user, hcs, hul, huser, hreport⟩ := h
      cases pre with
      | nil =>
        cases hcs
        left
        rw [List.append_nil, ← @List.length_map _ _ before (resultOf users)] at hreport
        exact ⟨ul, g, ul', user, hul, huser, hreport⟩
      | cons c₁ pre =>
        cases hcs
        right
        rw [List.append_cons before c pre] at hreport
        exact ⟨pre, c', post, ul, g, ul', user, rfl, hul, huser, hreport⟩

/-- The carriers before have their results, and the ones behind have nothing yet. -/
theorem getElem?_seenResults {pre post : List CarrierAllocs} {own : CcSchedResult} (j : Nat) :
    (seenResults users pre own post)[j]? =
      if j < pre.length then ((pre ++ c :: post)[j]?).map (resultOf users)
      else if j = pre.length then some own
      else ((pre ++ c :: post)[j]?).map fun _ => ⟨[], []⟩ := by
  unfold seenResults
  rcases Nat.lt_trichotomy j pre.length with hlt | heq | hgt
  · rw [if_pos hlt, List.getElem?_append_left (by simpa using hlt), List.getElem?_append_left hlt,
      List.getElem?_map]
  · rw [if_neg (by omega), if_pos heq, List.getElem?_append_right (by simp [heq])]
    simp [heq]
  · rw [if_neg (by omega), if_neg (by omega), List.getElem?_append_right (by simp; omega),
      List.getElem?_append_right (by omega), List.length_map]
    obtain ⟨m, hm⟩ : ∃ m, j - pre.length = m + 1 := ⟨j - pre.length - 1, by omega⟩
    rw [hm, List.getElem?_cons_succ, List.getElem?_cons_succ, List.getElem?_map]

section Seen

variable {pre post : List CarrierAllocs} {own : CcSchedResult}

theorem exists_hasUci_iff (hactive : (user.activeCell pre.length).isSome) :
    (∃ entry ∈ (seenResults users pre own post).zipIdx,
      HasUci user rnti (c.isDlAlloc rnti) pre.length entry) ↔
      SeesUci (pre ++ c :: post) user rnti pre.length := by
  have hk : (pre ++ c :: post)[pre.length]? = some c := by simp
  constructor
  · intro h
    obtain ⟨⟨r, j⟩, hentry, ueCcIdx, hcell, huci⟩ := h
    rw [List.mem_zipIdx_iff_getElem?, getElem?_seenResults (c := c)] at hentry
    dsimp only at hentry hcell huci
    rcases Nat.lt_trichotomy j pre.length with hlt | heq | hgt
    · rw [if_pos hlt] at hentry
      obtain ⟨c', hc', hr⟩ := Option.map_eq_some_iff.mp hentry
      rw [if_neg (by omega)] at huci
      rcases huci with hcqi | hdl
      · exact Or.inl ⟨j, c', ueCcIdx, hc', hcell, hcqi⟩
      · rw [← hr] at hdl
        exact Or.inr (Or.inr ⟨j, hlt, c', hc', by rw [hcell]; rfl, (mem_dlData_resultOf c').mp hdl⟩)
    · rw [if_pos heq] at huci
      rcases huci with hcqi | hdl
      · exact Or.inl ⟨j, c, ueCcIdx, by rw [heq]; exact hk, hcell, hcqi⟩
      · exact Or.inr (Or.inl ⟨c, hk, hdl⟩)
    · rw [if_neg (by omega), if_neg (by omega)] at hentry
      obtain ⟨c', hc', hr⟩ := Option.map_eq_some_iff.mp hentry
      rw [if_neg (by omega)] at huci
      rcases huci with hcqi | hdl
      · exact Or.inl ⟨j, c', ueCcIdx, hc', hcell, hcqi⟩
      · rw [← hr] at hdl
        exact absurd hdl List.not_mem_nil
  · intro h
    have hentry : ∀ j c', (pre ++ c :: post)[j]? = some c' →
        ∃ r, (r, j) ∈ (seenResults users pre own post).zipIdx ∧
          (j < pre.length → r = resultOf users c') := by
      intro j c' hc'
      simp only [List.mem_zipIdx_iff_getElem?, getElem?_seenResults (c := c), hc', Option.map_some]
      split
      · exact ⟨_, rfl, fun _ => rfl⟩
      · next hge =>
        split
        · exact ⟨own, rfl, fun hlt => absurd hlt hge⟩
        · exact ⟨_, rfl, fun hlt => absurd hlt hge⟩
    rcases h with ⟨j, c', ueCcIdx, hc', hcell, hcqi⟩ | ⟨c', hc', hdl⟩ | ⟨j, hlt, c', hc', hcell, hdl⟩
    · obtain ⟨r, hr, -⟩ := hentry j c' hc'
      exact ⟨(r, j), hr, ueCcIdx, hcell, Or.inl hcqi⟩
    · obtain ⟨r, hr, -⟩ := hentry pre.length c' hc'
      obtain ⟨ueCcIdx, hcell⟩ := Option.isSome_iff_exists.mp hactive
      rw [hk] at hc'
      cases hc'
      refine ⟨(r, pre.length), hr, ueCcIdx, hcell, Or.inr ?_⟩
      rw [if_pos rfl]
      exact hdl
    · obtain ⟨r, hr, hres⟩ := hentry j c' hc'
      obtain ⟨ueCcIdx, hcell⟩ := Option.isSome_iff_exists.mp hcell
      refine ⟨(r, j), hr, ueCcIdx, hcell, Or.inr ?_⟩
      rw [if_neg (by show j ≠ pre.length; omega), hres hlt]
      exact (mem_dlData_resultOf c').mpr hdl

theorem exists_hasLower_iff (huser : users rnti = some user) {ueCcIdx : Nat}
    (hcell : user.activeCell pre.length = some ueCcIdx) :
    (∃ entry ∈ (seenResults users pre own post).zipIdx, HasLower user rnti ueCcIdx entry) ↔
      LowerBefore (pre ++ c :: post) user rnti pre.length := by
  constructor
  · intro h
    obtain ⟨⟨r, j⟩, hentry, hpusch, ueCcIdx', hcell', hlower⟩ := h
    rw [List.mem_zipIdx_iff_getElem?, getElem?_seenResults (c := c)] at hentry
    dsimp only at hentry hpusch hcell'
    rcases Nat.lt_trichotomy j pre.length with hlt | heq | hgt
    · rw [if_pos hlt] at hentry
      obtain ⟨c', hc', hr⟩ := Option.map_eq_some_iff.mp hentry
      rw [← hr] at hpusch
      exact ⟨j, hlt, c', ueCcIdx', ueCcIdx, hc', hcell', hcell, hlower,
        (mem_puschOf huser c'.ul).mp hpusch⟩
    · -- The carrier itself has the same index.
      rw [heq, hcell] at hcell'
      cases hcell'
      exact absurd hlower (Nat.lt_irrefl _)
    · rw [if_neg (by omega), if_neg (by omega)] at hentry
      obtain ⟨c', hc', hr⟩ := Option.map_eq_some_iff.mp hentry
      rw [← hr] at hpusch
      exact absurd hpusch List.not_mem_nil
  · intro h
    obtain ⟨j, hlt, c', ueCcIdx', ueCcIdx'', hc', hcell', hcell'', hlower, hpusch⟩ := h
    rw [hcell] at hcell''
    cases hcell''
    refine ⟨(resultOf users c', j), ?_, (mem_puschOf huser c'.ul).mpr hpusch, ueCcIdx', hcell',
      hlower⟩
    rw [List.mem_zipIdx_iff_getElem?, getElem?_seenResults (c := c)]
    dsimp only
    rw [if_pos hlt, hc']
    rfl

end Seen

/-! ### The carriers that report UCI -/

/-- A carrier reports UCI for the UE exactly when it has a grant for it, sees UCI and sees no lower
PUSCH. -/
theorem reported_iff (huser : users rnti = some user) (k : Nat) :
    Reported users carriers rnti k ↔ Granted carriers user rnti k ∧ SeesUci carriers user rnti k ∧
      ¬ LowerBefore carriers user rnti k := by
  have hmem := @mem_newTtiFrom users carriers []
  simp only [List.map_nil, List.nil_append] at hmem
  constructor
  · intro h
    obtain ⟨uci, huci, hreport⟩ := h
    obtain ⟨pre, c, post, ul, g, ul', user', hcs, hul, huser', heq⟩ := (hmem _).mp hreport
    simp only [UciReport.mk.injEq] at heq
    obtain ⟨rfl, rfl, rfl⟩ := heq
    rw [huser] at huser'
    cases huser'
    have halloc : c.isUlAlloc g.rnti = true := by simp [CarrierAllocs.isUlAlloc, hul]
    obtain ⟨ueCcIdx, hcell, hhas, hlower⟩ := (isUciIncluded_ne_noUci halloc).mp huci
    have hactive : (user.activeCell pre.length).isSome := by rw [hcell]; rfl
    rw [hcs]
    refine ⟨⟨hactive, c, by simp, halloc⟩, (exists_hasUci_iff hactive).mp hhas, fun hbefore => ?_⟩
    obtain ⟨entry, hentry, hhas⟩ := (exists_hasLower_iff huser hcell).mpr hbefore
    exact hlower entry hentry hhas
  · intro h
    obtain ⟨⟨hactive, c, hc, halloc⟩, hsees, hnone⟩ := h
    obtain ⟨hk, hget⟩ := List.getElem?_eq_some_iff.mp hc
    obtain ⟨ueCcIdx, hcell⟩ := Option.isSome_iff_exists.mp hactive
    obtain ⟨g, hg, hrnti⟩ : ∃ g ∈ c.ul, g.rnti = rnti := by
      simpa [CarrierAllocs.isUlAlloc] using halloc
    obtain ⟨ul, ul', hul⟩ := List.append_of_mem hg
    obtain ⟨pre, post, rfl, rfl⟩ : ∃ pre post, carriers = pre ++ c :: post ∧ pre.length = k := by
      refine ⟨carriers.take k, carriers.drop (k + 1), ?_, by rw [List.length_take]; omega⟩
      rw [← hget, List.getElem_cons_drop, List.take_append_drop]
    refine ⟨_, ?_, (hmem _).mpr ⟨pre, c, post, ul, g, ul', user, rfl, hul, by rw [hrnti]; exact huser,
      by rw [hrnti]⟩⟩
    rw [isUciIncluded_ne_noUci halloc]
    refine ⟨ueCcIdx, hcell, (exists_hasUci_iff hactive).mpr hsees, fun entry hentry hhas => ?_⟩
    exact hnone ((exists_hasLower_iff huser hcell).mp ⟨entry, hentry, hhas⟩)

/-! ### The rule -/

/-- A UE with a grant has one carrier with the lowest UE carrier index. -/
theorem exists_lowest (h : ∃ k, Granted carriers user rnti k) : ∃ k, Lowest carriers user rnti k := by
  -- The lowest UE carrier index of a carrier with a grant.
  have hidx : ∃ ueCcIdx k, Granted carriers user rnti k ∧ user.activeCell k = some ueCcIdx := by
    obtain ⟨k, hk⟩ := h
    obtain ⟨ueCcIdx, hcell⟩ := Option.isSome_iff_exists.mp hk.1
    exact ⟨ueCcIdx, k, hk, hcell⟩
  classical
  obtain ⟨k, hk, hcell⟩ := Nat.find_spec hidx
  refine ⟨k, hk, fun k' hk' ueCcIdx ueCcIdx' hcell₁ hcell' => ?_⟩
  rw [hcell] at hcell₁
  cases hcell₁
  exact Nat.find_min' hidx ⟨k', hk', hcell'⟩

theorem lowest_unique {k k' : Nat} (hk : Lowest carriers user rnti k)
    (hk' : Lowest carriers user rnti k') : k = k' := by
  obtain ⟨ueCcIdx, hcell⟩ := Option.isSome_iff_exists.mp hk.1.1
  obtain ⟨ueCcIdx', hcell'⟩ := Option.isSome_iff_exists.mp hk'.1.1
  have hle := hk.2 k' hk'.1 ueCcIdx ueCcIdx' hcell hcell'
  have hge := hk'.2 k hk.1 ueCcIdx' ueCcIdx hcell' hcell
  rw [Nat.le_antisymm hge hle] at hcell'
  exact user.injective k k' ueCcIdx hcell hcell'

theorem not_lowerBefore_of_lowest {k : Nat} (hk : Lowest carriers user rnti k) :
    ¬ LowerBefore carriers user rnti k := by
  intro h
  obtain ⟨j, -, c, ueCcIdx, ueCcIdx', hc, hcell, hcell', hlower, g, hg, hrnti, -⟩ := h
  have hgranted : Granted carriers user rnti j := by
    refine ⟨by rw [hcell]; rfl, c, hc, ?_⟩
    rw [CarrierAllocs.isUlAlloc, List.any_eq_true]
    exact ⟨g, hg, by simpa using hrnti⟩
  have hle := hk.2 j hgranted ueCcIdx' ueCcIdx hcell' hcell
  omega

/-- A UE with its PCell on the second carrier of the eNB and an SCell on the first one. CQI is due on
the PCell. -/
def exampleCaUser : CaUser where
  activeCell := fun cc => if cc < 2 then some (1 - cc) else none
  cqiPeriodicSend := fun ueCcIdx => ueCcIdx == 0
  injective := by
    intro cc cc' ueCcIdx h h'
    split at h
    · split at h'
      · simp only [Option.some.injEq] at h h'
        omega
      · cases h'
    · cases h

/-- Two carriers with a grant for the UE. -/
def exampleCarriers : List CarrierAllocs := [⟨[], [⟨70, true⟩]⟩, ⟨[], [⟨70, true⟩]⟩]

end Odss.Mac
