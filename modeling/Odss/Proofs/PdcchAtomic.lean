import Odss.Proofs.PdcchAllocs

/-!
# `Odss.Proofs.PdcchAtomic`: a DCI without a place changes nothing

`allocDci` gives the state back when it fails. Here is what `alloc_dci` does to get there, with its own
variables: the loops take steps from a fuel, `temp_dci_dfs` is written at the first failure, and at the
end it becomes the path again, with the CFI of the start.

`nextDfsLoop_eq` and `allocDciLoop_eq` say that the loops end, for all positions, and that they end with
the path of `getNextDfs` and `allocLoop`. The rank of a path is the bound. `allocDciFields_eq` is the
same for the members of the allocator, which a failure leaves as they were.

`allocDciFields_atomic` is what holds in every state of an allocator.
-/

set_option linter.all false

namespace Odss.Mac.SfCchAllocator

open Odss.Lib

/-- How a loop ends: not within the fuel, with a failing assertion, or with a result. -/
inductive Outcome (α : Type) where
  | running
  | fault
  | done (result : α)

/-- The members of `sf_cch_allocator` that `alloc_dci` changes. A node has the CFI of its masks. -/
structure Fields (cc : CellParams) where
  lastDciDfs : List (Σ cfix, TreeNode cc cfix)
  dciRecordList : List AllocRecord
  currentCfix : Nat
  currentMaxCfix : Nat

/-- The nodes of a path. -/
def Path.dfs {cc : CellParams} (path : Path cc) : List (Σ cfix, TreeNode cc cfix) :=
  path.nodes.map fun node => ⟨path.cfix, node⟩

/-- The members in a state. -/
def State.fields {cc : CellParams} (s : State cc) : Fields cc :=
  ⟨s.path.dfs, s.records, s.path.cfix, s.maxCfix⟩

section Loops

variable (cc : CellParams) (ttiRx maxCfix : Nat) (records : List AllocRecord)

/-- `get_next_dfs`, with the path that it leaves. -/
def nextDfsLoop : Nat → Path cc → Outcome (Bool × Path cc)
  | 0, _ => .running
  | fuel + 1, path =>
    match stepBack cc maxCfix path with
    | none => .done (false, ⟨path.cfix + 1, []⟩)
    | some (path', start) =>
      match extend cc ttiRx (records.drop path'.nodes.length) path'.nodes start with
      | none => .fault
      | some nodes =>
        if nodes.length < records.length then nextDfsLoop fuel ⟨path'.cfix, nodes⟩
        else .done (true, ⟨path'.cfix, nodes⟩)

/-- The loop of `alloc_dci`, with the path that it leaves and `temp_dci_dfs`. -/
def allocDciLoop (record : AllocRecord) : Nat → Path cc → Path cc → Outcome (Bool × Path cc × Path cc)
  | 0, _, _ => .running
  | fuel + 1, path, temp =>
    match allocDfsNode cc ttiRx path.nodes record 0 with
    | none => .fault
    | some (some node) => .done (true, ⟨path.cfix, path.nodes ++ [node]⟩, temp)
    | some none =>
      let temp := if temp.nodes.isEmpty then path else temp
      match nextDfsLoop cc ttiRx maxCfix records fuel path with
      | .running => .running
      | .fault => .fault
      | .done (false, path) => .done (false, path, temp)
      | .done (true, path) => allocDciLoop record fuel path temp

end Loops

/-- `alloc_dci` -/
def allocDciFields {cc : CellParams} (fuel : Nat) (s : State cc) (record : AllocRecord) :
    Outcome (Bool × Fields cc) :=
  let startCfix := s.path.cfix
  match allocDciLoop cc s.ttiRx s.maxCfix s.records record fuel (startPath s record) ⟨startCfix, []⟩ with
  | .running => .running
  | .fault => .fault
  | .done (true, path, _) =>
    .done (true, ⟨path.dfs, s.records ++ [record], path.cfix,
      if isDlCtrlAlloc record.allocType then path.cfix else s.maxCfix⟩)
  | .done (false, _, temp) => .done (false, ⟨temp.dfs, s.records, startCfix, s.maxCfix⟩)

/-! ### The loops end -/

section Ends

variable {cc : CellParams} {ttiRx maxCfix : Nat} {records : List AllocRecord} {record : AllocRecord}

theorem getNextDfs_of_none {path : Path cc} (hback : stepBack cc maxCfix path = none) :
    getNextDfs cc ttiRx maxCfix records path = some none := by
  rw [getNextDfs]
  split
  · rfl
  · rename_i hback'
    rw [hback] at hback'
    cases hback'

theorem getNextDfs_of_some {path path' : Path cc} {start : Nat}
    (hback : stepBack cc maxCfix path = some (path', start)) :
    getNextDfs cc ttiRx maxCfix records path =
      match extend cc ttiRx (records.drop path'.nodes.length) path'.nodes start with
      | none => none
      | some nodes =>
        if nodes.length < records.length then
          getNextDfs cc ttiRx maxCfix records ⟨path'.cfix, nodes⟩
        else some (some ⟨path'.cfix, nodes⟩) := by
  rw [getNextDfs]
  split
  · rename_i hback'
    rw [hback] at hback'
    cases hback'
  · rename_i hback'
    rw [hback] at hback'
    cases hback'
    split
    · rename_i hextend
      simp only [hextend]
    · rename_i hextend
      simp only [hextend]

theorem nextDfsLoop_eq {fuel : Nat} {path : Path cc}
    (hfuel : rank cc maxCfix records.length path < fuel) :
    ∃ last, nextDfsLoop cc ttiRx maxCfix records fuel path =
      match getNextDfs cc ttiRx maxCfix records path with
      | none => .fault
      | some none => .done (false, last)
      | some (some next) => .done (true, next) := by
  induction fuel generalizing path with
  | zero => exact absurd hfuel (Nat.not_lt_zero _)
  | succ fuel ih =>
    rw [nextDfsLoop]
    cases hback : stepBack cc maxCfix path with
    | none =>
      rw [getNextDfs_of_none hback]
      exact ⟨_, rfl⟩
    | some turn =>
      obtain ⟨path', start⟩ := turn
      rw [getNextDfs_of_some hback]
      dsimp only
      cases hextend : extend cc ttiRx (records.drop path'.nodes.length) path'.nodes start with
      | none => exact ⟨path, rfl⟩
      | some nodes =>
        dsimp only
        split
        · exact ih (Nat.lt_of_lt_of_le (rank_lt hback hextend) (Nat.le_of_lt_succ hfuel))
        · exact ⟨path, rfl⟩

theorem allocLoop_of_none {path : Path cc}
    (halloc : allocDfsNode cc ttiRx path.nodes record 0 = some none) :
    allocLoop cc ttiRx maxCfix records record path =
      match getNextDfs cc ttiRx maxCfix records path with
      | none => none
      | some none => some none
      | some (some next) => allocLoop cc ttiRx maxCfix records record next := by
  rw [allocLoop, halloc]
  dsimp only
  split
  · rename_i hnext
    rw [hnext]
  · rename_i hnext
    rw [hnext]
  · rename_i hnext
    rw [hnext]

theorem pathOk_getNextDfs {path next : Path cc} (h : OnPath ttiRx maxCfix records path)
    (hnext : getNextDfs cc ttiRx maxCfix records path = some (some next)) :
    PathOk cc ttiRx records next.nodes ∧ next.cfix ≤ maxCfix := by
  have hrule := @getNextDfs_rule cc ttiRx maxCfix records (OnPath ttiRx maxCfix records)
    (fun path => PathOk cc ttiRx records path.nodes ∧ path.cfix ≤ maxCfix) pathOk_turn path h
    (some next) hnext
  exact (hrule.2 next rfl).1

theorem Path.dfs_eq_nil {path : Path cc} (h : path.nodes = []) : path.dfs = [] := by
  rw [Path.dfs, h, List.map_nil]

/-- The loop of `alloc_dci` ends, with the path of `allocLoop`. When it fails, `temp_dci_dfs` has the
nodes that it had, or those of the start. -/
theorem allocDciLoop_eq (record : AllocRecord) {fuel : Nat} {path : Path cc} (temp : Path cc)
    (hok : PathOk cc ttiRx records path.nodes) (hle : path.cfix ≤ maxCfix)
    (hfuel : rank cc maxCfix records.length path + 1 < fuel) :
    ∃ last temp', allocDciLoop cc ttiRx maxCfix records record fuel path temp =
        (match allocLoop cc ttiRx maxCfix records record path with
        | none => .fault
        | some none => .done (false, last, temp')
        | some (some next) => .done (true, next, temp')) ∧
      (allocLoop cc ttiRx maxCfix records record path = some none →
        temp'.dfs = if temp.nodes.isEmpty then path.dfs else temp.dfs) := by
  induction fuel generalizing path temp with
  | zero => exact absurd hfuel (Nat.not_lt_zero _)
  | succ fuel ih =>
    rw [allocDciLoop]
    cases halloc : allocDfsNode cc ttiRx path.nodes record 0 with
    | none =>
      have hloop : allocLoop cc ttiRx maxCfix records record path = none := by rw [allocLoop, halloc]
      rw [hloop]
      exact ⟨path, temp, rfl, fun hsome => by cases hsome⟩
    | some found =>
      cases found with
      | some node =>
        have hloop : allocLoop cc ttiRx maxCfix records record path =
            some (some ⟨path.cfix, path.nodes ++ [node]⟩) := by
          rw [allocLoop, halloc]
        rw [hloop]
        exact ⟨path, temp, rfl, fun hsome => by cases hsome⟩
      | none =>
        have hon : OnPath ttiRx maxCfix records path := by
          refine ⟨?_, Nat.le_of_eq hok.length_eq, hle⟩
          rw [hok.length_eq, List.take_length]
          exact hok
        have hrank : rank cc maxCfix records.length path < fuel := by omega
        obtain ⟨last, hnext⟩ := @nextDfsLoop_eq cc ttiRx maxCfix records fuel path hrank
        rw [allocLoop_of_none halloc]
        dsimp only
        rw [hnext]
        cases hdfs : getNextDfs cc ttiRx maxCfix records path with
        | none => exact ⟨path, temp, rfl, fun hsome => by cases hsome⟩
        | some next =>
          cases next with
          | none =>
            refine ⟨last, if temp.nodes.isEmpty then path else temp, rfl, fun _ => ?_⟩
            exact apply_ite Path.dfs _ _ _
          | some next =>
            obtain ⟨hok', hle'⟩ := pathOk_getNextDfs hon hdfs
            have hrank' := rank_getNextDfs hdfs
            obtain ⟨last', temp', hloop, htemp⟩ :=
              ih (if temp.nodes.isEmpty then path else temp) hok' hle' (by omega)
            refine ⟨last', temp', hloop, fun hfail => (htemp hfail).trans ?_⟩
            cases htempEmpty : temp.nodes.isEmpty with
            | false => simp [htempEmpty]
            | true =>
              cases hempty : path.nodes.isEmpty with
              | false => simp [hempty]
              | true =>
                -- Without records each path is empty.
                have hnil : path.nodes = [] := List.isEmpty_iff.mp hempty
                have hnil' : next.nodes = [] := by
                  rw [← List.length_eq_zero_iff, hok'.length_eq, ← hok.length_eq, hnil]
                  rfl
                simp [hempty, Path.dfs_eq_nil hnil, Path.dfs_eq_nil hnil']

end Ends

/-! ### The allocator -/

section Allocator

variable {cc : CellParams} {s : State cc} {record : AllocRecord}

/-- `alloc_dci` ends, and does to its members what `allocDci` does to the state. -/
theorem allocDciFields_eq (h : Inv s) (record : AllocRecord) {fuel : Nat}
    (hfuel : rank cc s.maxCfix s.records.length (startPath s record) + 1 < fuel) :
    allocDciFields fuel s record =
      match allocDci s record with
      | none => .fault
      | some (s', success) => .done (success, s'.fields) := by
  obtain ⟨hok, hle⟩ := inv_startPath h record
  obtain ⟨last, temp, hloop, htemp⟩ := allocDciLoop_eq record ⟨s.path.cfix, []⟩ hok hle hfuel
  unfold allocDciFields allocDci
  dsimp only
  rw [hloop]
  cases hfound : allocLoop cc s.ttiRx s.maxCfix s.records record (startPath s record) with
  | none => rfl
  | some found =>
    cases found with
    | some path => rfl
    | none =>
      -- The copy of the path is the path of the state, also when the search starts with another CFI.
      have hsame : temp.dfs = s.path.dfs := by
        refine (htemp hfound).trans ?_
        rcases startPath_cases h.cfix_le record with heq | ⟨cfix, -, hrecords, heq⟩
        · rw [heq]
          rfl
        · have hnil : s.path.nodes = [] := by
            rw [← List.length_eq_zero_iff, h.ok.length_eq, hrecords]
            rfl
          rw [heq, Path.dfs_eq_nil hnil]
          rfl
      dsimp only
      rw [hsame]
      rfl

theorem allocDci_false {s' : State cc} (h : allocDci s record = some (s', false)) : s' = s := by
  unfold allocDci at h
  split at h
  · cases h
  · cases h
    rfl
  · cases h

/-- In every state of an allocator, a call of `alloc_dci` ends, for all tables of positions. If it
fails, the members are what they were before the call. -/
theorem allocDciFields_atomic {ops : List Op} {results : List Bool}
    (hrun : run step (State.init cc) ops = some (s, results)) (record : AllocRecord) :
    ∃ bound outcome, outcome ≠ .running ∧
      (∀ fuel, bound ≤ fuel → allocDciFields fuel s record = outcome) ∧
      ∀ fields, outcome = .done (false, fields) → fields = s.fields := by
  have hinv : Inv s :=
    run_invariant Inv (fun _ _ _ _ h hstep => inv_step h hstep) ops _ _ _ inv_init hrun
  refine ⟨rank cc s.maxCfix s.records.length (startPath s record) + 2, _, ?_,
    fun fuel hfuel => allocDciFields_eq hinv record hfuel, ?_⟩
  · split
    · exact nofun
    · exact nofun
  · intro fields hfields
    split at hfields
    · cases hfields
    · rename_i s' success halloc
      cases hfields
      rw [allocDci_false halloc]

/-- An allocator at the start of a subframe. -/
theorem allocDciFields_atomic_newTti : ∃ bound outcome, outcome ≠ .running ∧
    (∀ fuel, bound ≤ fuel →
      allocDciFields fuel (newTti 0 : State exampleCell) (exampleRecord .dlData 70 2 0 4) = outcome) ∧
    ∀ fields, outcome = .done (false, fields) → fields = (newTti 0 : State exampleCell).fields :=
  allocDciFields_atomic (show run step (State.init exampleCell) [.newTti 0] = some (newTti 0, [true]) from rfl)
    _

end Allocator

end Odss.Mac.SfCchAllocator
