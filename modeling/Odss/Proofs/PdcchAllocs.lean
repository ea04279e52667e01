import Odss.Lib.Run
import Odss.Mac.SfCchAllocator

/-!
# `Odss.Proofs.PdcchAllocs`: the DCIs of a subframe fit together

`PathOk` relates a path to the records that it has nodes for: each node is one that `alloc_dfs_node`
has put behind the ones before it. The search only ever goes through such paths, and what a path
is follows from it: its masks (`PathOk.hasMask`), the ranges of CCEs and the PRBs of the PUCCH.

* `pathOk_extend` and `pathOk_allocDci` are what the loops do to a path.
* `consistent_run` is what holds in every state of an allocator.
-/

set_option linter.all false

namespace Odss.Mac.SfCchAllocator

open Odss.Lib

/-! ### What a path is -/

/-- The CCEs of a node. -/
def TreeNode.Covers {cc : CellParams} {cfix : Nat} (node : TreeNode cc cfix) (pos : Nat) : Prop :=
  node.ncce ≤ pos ∧ pos < node.ncce + 2 ^ node.l.val

/-- The node of a record: a position of its table. -/
structure NodeOf (cc : CellParams) (ttiRx : Nat) {cfix : Nat} (record : AllocRecord)
    (node : TreeNode cc cfix) : Prop where
  position : (record.positions cc ttiRx cfix)[node.dciPosIdx]? = some node.ncce
  l : node.l = record.aggrIdx
  rnti : node.rnti = record.user.map SchedUe.rnti

/-- Each node has been put behind the others for its record. -/
inductive PathOk (cc : CellParams) (ttiRx : Nat) {cfix : Nat} :
    List AllocRecord → List (TreeNode cc cfix) → Prop where
  | nil : PathOk cc ttiRx [] []
  | concat {records : List AllocRecord} {nodes : List (TreeNode cc cfix)} {record : AllocRecord}
      {node : TreeNode cc cfix} (h : PathOk cc ttiRx records nodes)
      (hpos : (record.positions cc ttiRx cfix)[node.dciPosIdx]? = some node.ncce)
      (htakes : Takes cc ttiRx nodes record node) :
      PathOk cc ttiRx (records ++ [record]) (nodes ++ [node])

section PathOk

variable {cc : CellParams} {ttiRx cfix : Nat} {records : List AllocRecord} {record : AllocRecord}
  {nodes : List (TreeNode cc cfix)} {node : TreeNode cc cfix}

theorem PathOk.length_eq (h : PathOk cc ttiRx records nodes) : nodes.length = records.length := by
  induction h with
  | nil => rfl
  | concat _ _ _ ih => simp [ih]

theorem PathOk.dropLast (h : PathOk cc ttiRx records nodes) :
    PathOk cc ttiRx records.dropLast nodes.dropLast := by
  cases h with
  | nil => exact .nil
  | concat h _ _ =>
    rw [List.dropLast_concat, List.dropLast_concat]
    exact h

theorem totalMask_concat : totalMask cc (nodes ++ [node]) = node.totalMask := by
  rw [totalMask, List.getLast?_concat]

theorem totalPucchMask_concat : totalPucchMask cc (nodes ++ [node]) = node.totalPucchMask := by
  rw [totalPucchMask, List.getLast?_concat]

theorem Takes.has_currentMask (h : Takes cc ttiRx nodes record node) (pos : Nat) :
    node.currentMask.Has pos ↔ node.Covers pos := by
  have hfill := BoundedBitset.has_of_fill h.current pos
  rw [hfill, TreeNode.Covers, h.l]
  simp

theorem Takes.has_totalPucchMask (h : Takes cc ttiRx nodes record node) (prb : Nat) :
    node.totalPucchMask.Has prb ↔ node.pucchNPrb = prb ∨ (totalPucchMask cc nodes).Has prb := by
  have hset := h.totalPucch
  unfold setPucch at hset
  split at hset
  · have hprb : prb = node.pucchNPrb.toNat ↔ node.pucchNPrb = prb := by omega
    rw [BoundedBitset.has_of_set hset, hprb]
  · next hneg =>
    rw [← Option.some.inj hset]
    constructor
    · exact .inr
    · intro hor
      exact hor.resolve_left (by omega)

theorem PathOk.hasMask (h : PathOk cc ttiRx records nodes) (pos : Nat) :
    (totalMask cc nodes).Has pos ↔ ∃ node ∈ nodes, node.Covers pos := by
  induction h with
  | nil => simp [totalMask]
  | concat _ _ htakes ih =>
    rw [totalMask_concat, htakes.total, BoundedBitset.has_union, ih, htakes.has_currentMask]
    simp only [List.mem_append, List.mem_singleton]
    constructor
    · rintro (⟨node', hmem, hcov⟩ | hcov)
      · exact ⟨node', .inl hmem, hcov⟩
      · exact ⟨_, .inr rfl, hcov⟩
    · rintro ⟨node', hmem | rfl, hcov⟩
      · exact .inl ⟨node', hmem, hcov⟩
      · exact .inr hcov

theorem PathOk.hasPucchMask (h : PathOk cc ttiRx records nodes) (prb : Nat) :
    (totalPucchMask cc nodes).Has prb ↔ ∃ node ∈ nodes, node.pucchNPrb = prb := by
  induction h with
  | nil => simp [totalPucchMask]
  | concat _ _ htakes ih =>
    rw [totalPucchMask_concat, htakes.has_totalPucchMask, ih]
    simp only [List.mem_append, List.mem_singleton]
    constructor
    · rintro (hprb | ⟨node', hmem, hprb⟩)
      · exact ⟨_, .inr rfl, hprb⟩
      · exact ⟨node', .inl hmem, hprb⟩
    · rintro ⟨node', hmem | rfl, hprb⟩
      · exact .inr ⟨node', hmem, hprb⟩
      · exact .inl hprb

theorem PathOk.forall₂ (h : PathOk cc ttiRx records nodes) :
    List.Forall₂ (NodeOf cc ttiRx) records nodes := by
  induction h with
  | nil => exact .nil
  | concat _ hpos htakes ih =>
    exact List.rel_append ih (.cons ⟨hpos, htakes.l, htakes.rnti⟩ .nil)

theorem Takes.free_of_mem (htakes : Takes cc ttiRx nodes record node)
    (h : PathOk cc ttiRx records nodes) {node' : TreeNode cc cfix} (hmem : node' ∈ nodes)
    (pos : Nat) : ¬ (node'.Covers pos ∧ node.Covers pos) := by
  intro hboth
  have hany : ((totalMask cc nodes).inter node.currentMask).any = true := by
    rw [BoundedBitset.any_iff]
    refine ⟨pos, ?_⟩
    rw [BoundedBitset.has_inter, h.hasMask, htakes.has_currentMask]
    exact ⟨⟨node', hmem, hboth.1⟩, hboth.2⟩
  rw [htakes.free] at hany
  cases hany

theorem PathOk.pairwise_disjoint (h : PathOk cc ttiRx records nodes) :
    nodes.Pairwise fun a b => ∀ pos, ¬ (a.Covers pos ∧ b.Covers pos) := by
  induction h with
  | nil => exact .nil
  | concat h _ htakes ih =>
    rw [List.pairwise_append]
    refine ⟨ih, List.pairwise_singleton _ _, fun node' hmem node hnode => ?_⟩
    rw [List.mem_singleton.mp hnode]
    exact htakes.free_of_mem h hmem

theorem has_of_test {n : Nat} {mask : BoundedBitset n} {pos : Nat} {b : Bool}
    (h : mask.test pos = some b) : mask.Has pos ↔ b = true := by
  unfold BoundedBitset.test at h
  split at h
  · rw [← Option.some.inj h]
    exact Iff.rfl
  · cases h

/-- Without multiplexing the PRB of a PUCCH resource is free. -/
theorem Takes.pucch_free (htakes : Takes cc ttiRx nodes record node)
    (hmux : cc.pucchMuxEnabled = false) (hneeds : record.needsPucch = true) :
    0 ≤ node.pucchNPrb ∧ ¬ (totalPucchMask cc nodes).Has node.pucchNPrb.toNat := by
  rcases tryPucch_eq_some htakes.pucch with ⟨hnot, -⟩ | ⟨-, -, -, -, htaken⟩
  · rw [hneeds] at hnot
    cases hnot
  · unfold pucchTaken at htaken
    rw [hmux] at htaken
    simp only [Bool.false_eq_true, if_false] at htaken
    split at htaken
    · cases htaken
    · next hneg =>
      refine ⟨Int.not_lt.mp hneg, fun hhas => ?_⟩
      exact Bool.false_ne_true ((has_of_test htaken).mp hhas)

theorem PathOk.pairwise_pucch (h : PathOk cc ttiRx records nodes)
    (hmux : cc.pucchMuxEnabled = false) :
    (records.zip nodes).Pairwise fun a b =>
      a.1.needsPucch = true → b.1.needsPucch = true → a.2.pucchNPrb ≠ b.2.pucchNPrb := by
  induction h with
  | nil => exact .nil
  | concat h _ htakes ih =>
    rw [List.zip_append h.length_eq.symm, List.pairwise_append]
    refine ⟨ih, List.pairwise_singleton _ _, fun x hx y hy _ hneeds heq => ?_⟩
    rw [List.zip_cons_cons, List.zip_nil_left, List.mem_singleton] at hy
    subst hy
    obtain ⟨hpos, hfree⟩ := htakes.pucch_free hmux hneeds
    refine hfree ((h.hasPucchMask _).mpr ⟨x.2, (List.of_mem_zip hx).2, ?_⟩)
    rw [heq]
    exact (Int.toNat_of_nonneg hpos).symm

end PathOk

/-! ### What the search does to a path -/

section Search

variable {cc : CellParams} {ttiRx : Nat}

theorem pathOk_allocDfsNode {cfix start : Nat} {records : List AllocRecord} {record : AllocRecord}
    {nodes : List (TreeNode cc cfix)} {node : TreeNode cc cfix} (h : PathOk cc ttiRx records nodes)
    (halloc : allocDfsNode cc ttiRx nodes record start = some (some node)) :
    PathOk cc ttiRx (records ++ [record]) (nodes ++ [node]) := by
  obtain ⟨-, hpos, htry, -⟩ := allocDfsNode_eq_some halloc
  exact .concat h hpos (tryPosition_eq_some htry).2.2

/-- The inner loop of `get_next_dfs` goes on for the records in their order. -/
theorem pathOk_extend {cfix start : Nat} {records front back : List AllocRecord}
    {nodes nodes' : List (TreeNode cc cfix)} (hrecords : records = front ++ back)
    (h : PathOk cc ttiRx front nodes) (hextend : extend cc ttiRx back nodes start = some nodes') :
    PathOk cc ttiRx (records.take nodes'.length) nodes' ∧ nodes'.length ≤ records.length := by
  induction back generalizing front nodes start with
  | nil =>
    cases hextend
    rw [hrecords, List.append_nil, h.length_eq, List.take_length]
    exact ⟨h, Nat.le_refl _⟩
  | cons record back ih =>
    rw [extend] at hextend
    split at hextend
    · cases hextend
    · cases hextend
      rw [hrecords, h.length_eq, List.take_left]
      exact ⟨h, by simp⟩
    · next node halloc =>
      rw [List.append_cons] at hrecords
      exact ih hrecords (pathOk_allocDfsNode h halloc) hextend

/-- The paths that the search goes through: they have nodes for the first of the records. -/
structure OnPath (ttiRx maxCfix : Nat) (records : List AllocRecord) (path : Path cc) : Prop where
  ok : PathOk cc ttiRx (records.take path.nodes.length) path.nodes
  length_le : path.nodes.length ≤ records.length
  cfix_le : path.cfix ≤ maxCfix

theorem onPath_nil {maxCfix cfix : Nat} (records : List AllocRecord) (h : cfix ≤ maxCfix) :
    OnPath ttiRx maxCfix records (⟨cfix, []⟩ : Path cc) :=
  ⟨.nil, Nat.zero_le _, h⟩

theorem onPath_stepBack {maxCfix start : Nat} {records : List AllocRecord} {path path' : Path cc}
    (h : OnPath ttiRx maxCfix records path)
    (hback : stepBack cc maxCfix path = some (path', start)) :
    OnPath ttiRx maxCfix records path' := by
  unfold stepBack at hback
  split at hback
  · split at hback
    · cases hback
    · next hle =>
      cases hback
      exact onPath_nil records (Nat.le_of_not_lt hle)
  · cases hback
    have hlength := path.nodes.length_dropLast
    have hok := h.ok.dropLast
    rw [List.dropLast_eq_take, List.length_take, List.take_take, Nat.min_eq_left h.length_le,
      Nat.min_eq_left (Nat.sub_le _ _), ← hlength] at hok
    exact ⟨hok, hlength ▸ Nat.le_trans (Nat.sub_le _ _) h.length_le, h.cfix_le⟩

/-- One turn of the outer loop of `get_next_dfs`. -/
theorem onPath_turn {maxCfix start : Nat} {records : List AllocRecord} {path path' : Path cc}
    {nodes : List (TreeNode cc path'.cfix)} (h : OnPath ttiRx maxCfix records path)
    (hback : stepBack cc maxCfix path = some (path', start))
    (hextend : extend cc ttiRx (records.drop path'.nodes.length) path'.nodes start = some nodes) :
    OnPath ttiRx maxCfix records ⟨path'.cfix, nodes⟩ := by
  have h' := onPath_stepBack h hback
  obtain ⟨hok, hle⟩ := pathOk_extend (List.take_append_drop _ records).symm h'.ok hextend
  exact ⟨hok, hle, h'.cfix_le⟩

/-- A turn goes on with the search, or ends it with a node for each record. -/
theorem pathOk_turn {maxCfix : Nat} {records : List AllocRecord} (path path' : Path cc) (start : Nat)
    (nodes : List (TreeNode cc path'.cfix)) (h : OnPath ttiRx maxCfix records path)
    (hback : stepBack cc maxCfix path = some (path', start))
    (hextend : extend cc ttiRx (records.drop path'.nodes.length) path'.nodes start = some nodes) :
    if nodes.length < records.length then OnPath ttiRx maxCfix records ⟨path'.cfix, nodes⟩
    else PathOk cc ttiRx records nodes ∧ path'.cfix ≤ maxCfix := by
  have hon := onPath_turn h hback hextend
  split
  · exact hon
  · next hless =>
    have hok := hon.ok
    rw [List.take_of_length_le (Nat.le_of_not_lt hless)] at hok
    exact ⟨hok, hon.cfix_le⟩

/-- The path that `alloc_dci` ends with has a node of the new record behind those of the others. -/
theorem pathOk_allocLoop {maxCfix : Nat} {records : List AllocRecord} {record : AllocRecord}
    {path path' : Path cc} (h : PathOk cc ttiRx records path.nodes) (hle : path.cfix ≤ maxCfix)
    (hloop : allocLoop cc ttiRx maxCfix records record path = some (some path')) :
    PathOk cc ttiRx (records ++ [record]) path'.nodes ∧ path'.cfix ≤ maxCfix := by
  have hfail : ∀ path : Path cc, PathOk cc ttiRx records path.nodes ∧ path.cfix ≤ maxCfix →
      allocDfsNode cc ttiRx path.nodes record 0 = some none → OnPath ttiRx maxCfix records path := by
    intro path ⟨hok, hle'⟩ _
    refine ⟨?_, Nat.le_of_eq hok.length_eq, hle'⟩
    rw [hok.length_eq, List.take_length]
    exact hok
  obtain ⟨-, hsome⟩ := allocLoop_rule hfail pathOk_turn ⟨h, hle⟩ hloop
  obtain ⟨path'', node, ⟨hok, hle'⟩, halloc, rfl⟩ := hsome path' rfl
  exact ⟨pathOk_allocDfsNode hok halloc, hle'⟩

theorem mostPositions_le {nofLocs : Nat → Nat} {lowest cfixTmp most cfix bound : Nat}
    (hle : cfix ≤ bound) (htmp : cfixTmp ≤ bound) :
    mostPositions nofLocs lowest cfixTmp most cfix ≤ bound := by
  induction cfixTmp generalizing most cfix with
  | zero => exact hle
  | succ cfixTmp ih =>
    rw [mostPositions]
    split
    · exact ih htmp (Nat.le_of_succ_le htmp)
    · exact hle

end Search

/-! ### All states -/

/-- The path of a state is one of its records. -/
structure Inv {cc : CellParams} (s : State cc) : Prop where
  ok : PathOk cc s.ttiRx s.records s.path.nodes
  cfix_le : s.path.cfix ≤ s.maxCfix

section Inv

variable {cc : CellParams} {s s' : State cc}

theorem inv_init : Inv (State.init cc) := ⟨.nil, Nat.le_refl _⟩

theorem inv_newTti (ttiRx : Nat) : Inv (newTti ttiRx : State cc) :=
  ⟨.nil, Nat.sub_le_sub_right cc.minNofCtrlSymbols_le 1⟩

/-- The search starts with the path of the state, or without a record with another CFI. -/
theorem startPath_cases (h : s.path.cfix ≤ s.maxCfix) (record : AllocRecord) :
    startPath s record = s.path ∨
      ∃ cfix ≤ s.maxCfix, s.records = [] ∧ startPath s record = ⟨cfix, []⟩ := by
  rw [startPath]
  split
  · next hstart =>
    exact .inr ⟨_, mostPositions_le h (Nat.le_refl _), List.length_eq_zero_iff.mp hstart.2.1, rfl⟩
  · exact .inl rfl

theorem inv_startPath (h : Inv s) (record : AllocRecord) :
    PathOk cc s.ttiRx s.records (startPath s record).nodes ∧
      (startPath s record).cfix ≤ s.maxCfix := by
  rcases startPath_cases h.cfix_le record with heq | ⟨cfix, hle, hnil, heq⟩
  · rw [heq]
    exact ⟨h.ok, h.cfix_le⟩
  · rw [heq, hnil]
    exact ⟨.nil, hle⟩

theorem inv_allocDci {record : AllocRecord} {success : Bool} (h : Inv s)
    (halloc : allocDci s record = some (s', success)) : Inv s' := by
  obtain ⟨hok, hle⟩ := inv_startPath h record
  unfold allocDci at halloc
  split at halloc
  · cases halloc
  · cases halloc
    exact h
  · next path hloop =>
    cases halloc
    obtain ⟨hok', hle'⟩ := pathOk_allocLoop hok hle hloop
    refine ⟨hok', ?_⟩
    show path.cfix ≤ if isDlCtrlAlloc record.allocType then path.cfix else s.maxCfix
    split
    · exact Nat.le_refl _
    · exact hle'

theorem inv_remLastDci (h : Inv s) (hrem : remLastDci s = some s') : Inv s' := by
  unfold remLastDci at hrem
  split at hrem
  · cases hrem
  · cases hrem
    exact ⟨h.ok.dropLast, h.cfix_le⟩

theorem inv_step {op : Op} {success : Bool} (h : Inv s) (hstep : step s op = some (s', success)) :
    Inv s' := by
  cases op with
  | newTti ttiRx =>
    cases hstep
    exact inv_newTti ttiRx
  | allocDci record => exact inv_allocDci h hstep
  | remLastDci =>
    obtain ⟨s'', hrem, heq⟩ := Option.map_eq_some_iff.mp hstep
    cases heq
    exact inv_remLastDci h hrem

end Inv

/-! ### The allocations -/

/-- The positions of the record are within the PDCCH. -/
def AllocRecord.Fits (cc : CellParams) (record : AllocRecord) : Prop :=
  ∀ ttiRx cfix, ∀ ncce ∈ record.positions cc ttiRx cfix,
    ncce + 2 ^ record.aggrIdx.val ≤ nofCces cc cfix

/-- The DCIs of a state fit together. -/
structure Consistent {cc : CellParams} (s : State cc) : Prop where
  /-- One node for each record, in the same order, at a position of its table for the CFI -/
  nodes : List.Forall₂ (NodeOf cc s.ttiRx) s.records s.path.nodes
  below : ∀ node ∈ s.path.nodes, node.ncce + 2 ^ node.l.val ≤ nofCces cc s.path.cfix
  disjoint : s.path.nodes.Pairwise fun a b => ∀ pos, ¬ (a.Covers pos ∧ b.Covers pos)
  totalMask : ∀ front node back, s.path.nodes = front ++ node :: back →
    ∀ pos, node.totalMask.Has pos ↔ ∃ node' ∈ front ++ [node], node'.Covers pos
  pucch : cc.pucchMuxEnabled = false → (s.records.zip s.path.nodes).Pairwise fun a b =>
    a.1.needsPucch = true → b.1.needsPucch = true → a.2.pucchNPrb ≠ b.2.pucchNPrb
  cfix_le : s.path.cfix ≤ s.maxCfix

theorem PathOk.take {cc : CellParams} {ttiRx cfix : Nat} {records : List AllocRecord}
    {nodes : List (TreeNode cc cfix)} (h : PathOk cc ttiRx records nodes) (k : Nat) :
    PathOk cc ttiRx (records.take k) (nodes.take k) := by
  induction h with
  | nil =>
    rw [List.take_nil, List.take_nil]
    exact .nil
  | @concat records nodes record node h hpos htakes ih =>
    have hlen := h.length_eq
    by_cases hk : k ≤ nodes.length
    · rw [List.take_append_of_le_length hk, List.take_append_of_le_length (hlen ▸ hk)]
      exact ih
    · rw [List.take_of_length_le, List.take_of_length_le]
      · exact .concat h hpos htakes
      · rw [List.length_append, List.length_singleton]
        omega
      · rw [List.length_append, List.length_singleton]
        omega

theorem Inv.consistent {cc : CellParams} {s : State cc} (h : Inv s)
    (hfits : ∀ record ∈ s.records, record.Fits cc) : Consistent s where
  nodes := h.ok.forall₂
  below := by
    intro node hnode
    obtain ⟨i, hi, rfl⟩ := List.mem_iff_getElem.mp hnode
    have hi' : i < s.records.length := h.ok.length_eq ▸ hi
    have hof : NodeOf cc s.ttiRx s.records[i] s.path.nodes[i] :=
      (List.forall₂_iff_get.mp h.ok.forall₂).2 i hi' hi
    rw [hof.l]
    exact hfits _ (List.getElem_mem hi') _ _ _ (List.mem_of_getElem? hof.position)
  disjoint := h.ok.pairwise_disjoint
  totalMask := by
    intro front node back heq pos
    have hsplit : s.path.nodes = front ++ [node] ++ back := by rw [heq, List.append_cons]
    have htake := h.ok.take (front ++ [node]).length
    rw [hsplit, List.take_left] at htake
    rw [← htake.hasMask, totalMask_concat]
  pucch := h.ok.pairwise_pucch
  cfix_le := h.cfix_le

theorem fits_step {cc : CellParams} {s s' : State cc} {op : Op} {success : Bool}
    (hop : ∀ record, op = .allocDci record → record.Fits cc)
    (h : ∀ record ∈ s.records, record.Fits cc) (hstep : step s op = some (s', success)) :
    ∀ record ∈ s'.records, record.Fits cc := by
  cases op with
  | newTti ttiRx =>
    cases hstep
    exact nofun
  | allocDci record =>
    have halloc : allocDci s record = some (s', success) := hstep
    unfold allocDci at halloc
    split at halloc
    · cases halloc
    · cases halloc
      exact h
    · cases halloc
      intro record' hmem
      rcases List.mem_append.mp hmem with hmem | hmem
      · exact h record' hmem
      · rw [List.mem_singleton.mp hmem]
        exact hop record rfl
  | remLastDci =>
    obtain ⟨s'', hrem, heq⟩ := Option.map_eq_some_iff.mp hstep
    cases heq
    unfold remLastDci at hrem
    split at hrem
    · cases hrem
    · cases hrem
      exact fun record hmem => h record (List.mem_of_mem_dropLast hmem)

/-- In every state that an allocator gets to, with any calls in any order, the DCIs fit together. -/
theorem consistent_run {cc : CellParams} {ops : List Op} {s : State cc} {results : List Bool}
    (hfits : ∀ record, .allocDci record ∈ ops → record.Fits cc)
    (hrun : run step (State.init cc) ops = some (s, results)) : Consistent s := by
  have hguard : ∀ op ∈ ops, State cc → ∀ record, op = .allocDci record → record.Fits cc := by
    intro op hop _ record heq
    subst heq
    exact hfits record hop
  have hinv := run_invariant_of_within (fun s => Inv s ∧ ∀ record ∈ s.records, record.Fits cc)
    (fun s op s' success h hop hstep => ⟨inv_step h.1 hstep, fits_step hop h.2 hstep⟩)
    ops _ s results ⟨inv_init, nofun⟩ (stepsWithin_of_forall hguard _) hrun
  exact hinv.1.consistent hinv.2

/-! ### An example -/

attribute [local instance] Odss.Mac.SfCchAllocator.neZero_aggr

/-- The positions of one aggregation level. -/
def exampleTable (l : Fin 4) (first second : Nat) : CceCfiPositionTable := fun l' =>
  if l' = l then ⟨[first, second], (by decide : 2 ≤ maxPositions)⟩ else ⟨[], Nat.zero_le _⟩

/-- A cell of 100 PRBs with one control symbol and 20 CCEs. -/
def exampleCell : CellParams where
  nofPrb := 100
  cpNorm := true
  deltaPucchShift := 3
  nRb2 := 2
  nCs := 0
  nPucch1 := 12
  minNofCtrlSymbols := 1
  maxNofCtrlSymbols := 1
  minNofCtrlSymbols_pos := by decide
  minNofCtrlSymbols_le := by decide
  pucchMuxEnabled := false
  pucchHarqMaxRb := 0
  commonLocations := fun _ => exampleTable 3 0 8
  rarLocations := fun _ _ => exampleTable 3 0 8
  nofCceTable := fun _ => 20

/-- A DCI of a user with two positions. -/
def exampleRecord (allocType : AllocType) (rnti : Nat) (l : Fin 4) (first second : Nat) :
    AllocRecord where
  puschUci := false
  aggrIdx := l
  allocType := allocType
  user := some ⟨rnti, ⟨false, 0, 0⟩, fun _ _ => exampleTable l first second⟩
  hasUser := fun _ => rfl

theorem fits_exampleRecord {allocType : AllocType} {rnti first second : Nat} {l : Fin 4}
    (hdata : isDlCtrlAlloc allocType = false) (hfirst : first + 2 ^ l.val ≤ 20)
    (hsecond : second + 2 ^ l.val ≤ 20) :
    (exampleRecord allocType rnti l first second).Fits exampleCell := by
  intro ttiRx cfix ncce hmem
  have hpositions : (exampleRecord allocType rnti l first second).positions exampleCell ttiRx cfix
      = [first, second] := by
    cases allocType with
    | dlData =>
      simp [AllocRecord.positions, AllocRecord.getCceLocTable, exampleRecord,
        SchedUe.getLocations, exampleTable]
    | ulData =>
      simp [AllocRecord.positions, AllocRecord.getCceLocTable, exampleRecord,
        SchedUe.getLocations, exampleTable]
    | _ => cases hdata
  rw [hpositions] at hmem
  show ncce + 2 ^ l.val ≤ 20
  rcases List.mem_cons.mp hmem with rfl | hmem
  · exact hfirst
  · rw [List.mem_singleton.mp hmem]
    exact hsecond

/-- The second user makes the first one move, is removed, and the third one moves it again. -/
def exampleOps : List Op :=
  [.newTti 0, .allocDci (exampleRecord .dlData 70 3 0 8), .allocDci (exampleRecord .ulData 71 2 0 4),
    .remLastDci, .allocDci (exampleRecord .dlData 72 2 12 16),
    .allocDci (exampleRecord .dlData 73 2 12 8)]

theorem consistent_example :
    ∃ s, run step (State.init exampleCell) exampleOps
      = some (s, [true, true, true, true, true, false]) ∧ Consistent s := by
  have hresults : (run step (State.init exampleCell) exampleOps).map (·.2)
      = some [true, true, true, true, true, false] := by decide +kernel
  obtain ⟨⟨s, results⟩, hrun, rfl⟩ := Option.map_eq_some_iff.mp hresults
  refine ⟨s, hrun, consistent_run (fun record hmem => ?_) hrun⟩
  simp only [exampleOps, List.mem_cons, List.not_mem_nil, Op.allocDci.injEq, reduceCtorEq,
    false_or, or_false] at hmem
  rcases hmem with rfl | rfl | rfl | rfl <;>
    exact fits_exampleRecord rfl (by decide) (by decide)

end Odss.Mac.SfCchAllocator
