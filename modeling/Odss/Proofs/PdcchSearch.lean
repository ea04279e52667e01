import Odss.Proofs.PdcchAllocs

/-!
# `Odss.Proofs.PdcchSearch`: what the search for DCI positions leaves out

An `Assignment` is a choice of one position for each record such that no CCE is used twice and the
conditions on the PUCCH hold. The search goes through the choices in their order and only leaves
out those that are no assignment (`Behind`), as long as it starts at the first assignment of the
records that are there.

* `not_assigned_of_reject`: a position that `alloc_dfs_node` leaves out goes on to no assignment.
* `behind_extend` and `behind_stepBack` are the moves of the search.
* `Settled` is that the path is the first assignment of the records. `alloc_dci` keeps it;
  `rem_last_dci` keeps it when it restores what was there before the DCI.
* `searchComplete_of_restores` is the result about runs.
-/

set_option linter.all false

namespace Odss.Mac.SfCchAllocator

open Odss.Lib

/-! ### Assignments -/

/-- A record with a position: its index in the table and the first CCE. -/
structure Placed where
  record : AllocRecord
  idx : Nat
  ncce : Nat

/-- The CCEs of a position. -/
def Placed.Covers (x : Placed) (pos : Nat) : Prop :=
  x.ncce ≤ pos ∧ pos < x.ncce + 2 ^ x.record.aggrIdx.val

section Assignment

variable (cc : CellParams) (ttiRx cfix : Nat)

/-- The position is one of the table, and its PUCCH resource may be used. -/
structure Placed.Allowed (x : Placed) : Prop where
  position : (x.record.positions cc ttiRx cfix)[x.idx]? = some x.ncce
  sr : x.record.needsPucch = true → srCollides cc ttiRx x.record x.ncce = false
  region : x.record.needsPucch = true → outsideHarqRegion cc (ackPrb cc x.ncce) = false

/-- Two positions have no CCE in common and, without multiplexing, no PRB of the PUCCH. -/
structure Compatible (x y : Placed) : Prop where
  disjoint : ∀ pos, ¬ (x.Covers pos ∧ y.Covers pos)
  pucch : cc.pucchMuxEnabled = false → x.record.needsPucch = true → y.record.needsPucch = true →
    ackPrb cc x.ncce ≠ ackPrb cc y.ncce

/-- A choice of positions that can be used together. -/
structure Assignment (xs : List Placed) : Prop where
  allowed : ∀ x ∈ xs, x.Allowed cc ttiRx cfix
  pairwise : xs.Pairwise (Compatible cc)

/-- The indices are those of an assignment of the records. -/
def Assigns (records : List AllocRecord) (q : List Nat) : Prop :=
  ∃ xs, Assignment cc ttiRx cfix xs ∧ xs.map Placed.record = records ∧ xs.map Placed.idx = q

variable {cc ttiRx cfix} {records : List AllocRecord} {q : List Nat}

theorem Assigns.length_eq (h : Assigns cc ttiRx cfix records q) : q.length = records.length := by
  obtain ⟨xs, -, rfl, rfl⟩ := h
  rw [List.length_map, List.length_map]

theorem Assigns.front {record : AllocRecord} (h : Assigns cc ttiRx cfix (records ++ [record]) q) :
    ∃ q' i, q = q' ++ [i] ∧ Assigns cc ttiRx cfix records q' := by
  obtain ⟨xs, hxs, hrecords, rfl⟩ := h
  obtain ⟨ys, zs, rfl, hys, hzs⟩ := List.map_eq_append_iff.mp hrecords
  obtain ⟨z, rfl, -⟩ := List.map_eq_singleton_iff.mp hzs
  refine ⟨ys.map Placed.idx, z.idx, by simp, ys, ⟨?_, ?_⟩, hys, rfl⟩
  · exact fun x hx => hxs.allowed x (List.mem_append_left _ hx)
  · exact (List.pairwise_append.mp hxs.pairwise).1

end Assignment

/-! ### Paths are assignments -/

section Placed

variable {cc : CellParams} {ttiRx cfix : Nat} {records : List AllocRecord}
  {nodes : List (TreeNode cc cfix)}

/-- The positions of a path. -/
def placed (records : List AllocRecord) (nodes : List (TreeNode cc cfix)) : List Placed :=
  List.zipWith (fun record node => ⟨record, node.dciPosIdx, node.ncce⟩) records nodes

theorem placed_concat {record : AllocRecord} {node : TreeNode cc cfix}
    (h : PathOk cc ttiRx records nodes) :
    placed (records ++ [record]) (nodes ++ [node])
      = placed records nodes ++ [⟨record, node.dciPosIdx, node.ncce⟩] := by
  rw [placed, List.zipWith_append h.length_eq.symm]
  rfl

/-- A node is at one of the positions, with its PUCCH resource. -/
theorem PathOk.exists_placed (h : PathOk cc ttiRx records nodes) {node : TreeNode cc cfix}
    (hmem : node ∈ nodes) : ∃ y ∈ placed records nodes, y.ncce = node.ncce ∧
      y.record.aggrIdx = node.l ∧
      (0 ≤ node.pucchNPrb → y.record.needsPucch = true ∧ ackPrb cc y.ncce = node.pucchNPrb) := by
  induction h with
  | nil => cases hmem
  | concat h hpos htakes ih =>
    rw [placed_concat h]
    rcases List.mem_append.mp hmem with hmem | hmem
    · obtain ⟨y, hy, hrest⟩ := ih hmem
      exact ⟨y, List.mem_append_left _ hy, hrest⟩
    · rw [List.mem_singleton.mp hmem]
      refine ⟨_, List.mem_append_right _ List.mem_cons_self, rfl, htakes.l.symm, fun hnonneg => ?_⟩
      rcases tryPucch_eq_some htakes.pucch with ⟨-, hneg⟩ | ⟨hneeds, hprb, -⟩
      · rw [hneg] at hnonneg
        exact absurd hnonneg (by decide)
      · exact ⟨hneeds, hprb.symm⟩

/-- The indices of a path say what its positions are. -/
theorem PathOk.eq_placed (h : PathOk cc ttiRx records nodes) {ys : List Placed}
    (hallowed : ∀ y ∈ ys, y.Allowed cc ttiRx cfix) (hrecords : ys.map Placed.record = records)
    (hidx : ys.map Placed.idx = nodes.map TreeNode.dciPosIdx) : ys = placed records nodes := by
  induction h generalizing ys with
  | nil =>
    rw [List.map_eq_nil_iff] at hrecords
    rw [hrecords]
    rfl
  | concat h hpos htakes ih =>
    obtain ⟨ys', zs, rfl, hys, hzs⟩ := List.map_eq_append_iff.mp hrecords
    obtain ⟨z, rfl, hz⟩ := List.map_eq_singleton_iff.mp hzs
    rw [List.map_append, List.map_append] at hidx
    obtain ⟨hfront, hlast⟩ := List.append_inj' hidx rfl
    have hys' := ih (fun y hy => hallowed y (List.mem_append_left _ hy)) hys hfront
    have hzidx := List.singleton_inj.mp hlast
    have hncce := (hallowed z (by simp)).position
    rw [hz, hzidx, hpos] at hncce
    rw [placed_concat h, hys', ← hz, ← hzidx, Option.some.inj hncce]

/-- A position that is left out cannot be used together with those of the path. -/
theorem PathOk.not_compatible (h : PathOk cc ttiRx records nodes) {x : Placed}
    (hx : x.Allowed cc ttiRx cfix)
    (hskip : tryPosition cc ttiRx nodes x.record x.idx x.ncce = some none) :
    ∃ y ∈ placed records nodes, ¬ Compatible cc y x := by
  rcases tryPosition_eq_none hskip with hpucch | ⟨mask, hfill, hany⟩
  · obtain ⟨hneeds, hsr | hregion | htaken⟩ := tryPucch_eq_none hpucch
    · rw [hx.sr hneeds] at hsr
      cases hsr
    · rw [hx.region hneeds] at hregion
      cases hregion
    · -- The PRB is that of another node.
      unfold pucchTaken at htaken
      split at htaken
      · cases htaken
      · next hmux =>
        split at htaken
        · cases htaken
        · next hneg =>
          have hhas := (has_of_test htaken).mpr rfl
          obtain ⟨node, hmem, hprb⟩ := (h.hasPucchMask _).mp hhas
          have hnonneg := Int.toNat_of_nonneg (Int.not_lt.mp hneg)
          rw [hnonneg] at hprb
          obtain ⟨y, hy, -, -, hack⟩ := h.exists_placed hmem
          obtain ⟨hyneeds, hyprb⟩ := hack (hprb ▸ Int.not_lt.mp hneg)
          refine ⟨y, hy, fun hcomp => ?_⟩
          exact hcomp.pucch (Bool.eq_false_iff.mpr hmux) hyneeds hneeds (hyprb.trans hprb)
  · obtain ⟨pos, hboth⟩ := (BoundedBitset.any_iff _).mp hany
    rw [BoundedBitset.has_inter, h.hasMask, BoundedBitset.has_of_fill hfill] at hboth
    obtain ⟨⟨node, hmem, hcov⟩, hrange | hempty⟩ := hboth
    · obtain ⟨y, hy, hncce, hl, -⟩ := h.exists_placed hmem
      refine ⟨y, hy, fun hcomp => hcomp.disjoint pos ⟨?_, hrange⟩⟩
      rw [Placed.Covers, hncce, hl]
      exact hcov
    · exact absurd hempty (BoundedBitset.not_has_empty pos)

theorem PathOk.not_assigns (h : PathOk cc ttiRx records nodes) {record : AllocRecord}
    {more : List AllocRecord} {k : Nat}
    (hskip : ∀ ncce, (record.positions cc ttiRx cfix)[k]? = some ncce →
      tryPosition cc ttiRx nodes record k ncce = some none) (rest : List Nat) :
    ¬ Assigns cc ttiRx cfix (records ++ record :: more)
      (nodes.map TreeNode.dciPosIdx ++ k :: rest) := by
  rintro ⟨xs, hxs, hrecords, hidx⟩
  obtain ⟨ys, zs, rfl, hys, hzs⟩ := List.map_eq_append_iff.mp hrecords
  obtain ⟨x, zs, rfl, rfl, -⟩ := List.map_eq_cons_iff.mp hzs
  have hlen : (ys.map Placed.idx).length = (nodes.map TreeNode.dciPosIdx).length := by
    rw [List.length_map, List.length_map, h.length_eq, ← hys, List.length_map]
  rw [List.map_append, List.map_cons] at hidx
  obtain ⟨hfront, hrest⟩ := List.append_inj hidx hlen
  have hk : x.idx = k := (List.cons.inj hrest).1
  subst hk
  have hallowed := hxs.allowed x (by simp)
  have hplaced := h.eq_placed (fun y hy => hxs.allowed y (List.mem_append_left _ hy)) hys hfront
  obtain ⟨y, hy, hnot⟩ := h.not_compatible hallowed (hskip x.ncce hallowed.position)
  rw [← hplaced] at hy
  exact hnot ((List.pairwise_append.mp hxs.pairwise).2.2 y hy x List.mem_cons_self)

end Placed

/-! ### The moves of the search -/

/-- The indices of a path. -/
def Path.idxs {cc : CellParams} (path : Path cc) : List Nat := path.nodes.map TreeNode.dciPosIdx

section Moves

variable {cc : CellParams} {ttiRx maxCfix : Nat} {records : List AllocRecord} {record : AllocRecord}

/-- No assignment of the records with the new one is before the indices. -/
abbrev Ahead (cc : CellParams) (ttiRx cfix : Nat) (records : List AllocRecord) (p : List Nat)
    (i : Nat) : Prop :=
  Behind (Assigns cc ttiRx cfix records) records.length p i

/-- Nothing goes on from the indices, and no assignment is before them. -/
def Spent (cc : CellParams) (ttiRx cfix : Nat) (records : List AllocRecord) (p : List Nat) : Prop :=
  ∃ i, Ahead cc ttiRx cfix records p i ∧
    ∀ k, i ≤ k → ∀ rest, ¬ Assigns cc ttiRx cfix records (p ++ k :: rest)

variable {cfix : Nat} {front back : List AllocRecord} {nodes : List (TreeNode cc cfix)}

/-- A node that cannot be put at the end of the path. -/
theorem spent_of_allocDfsNode {start : Nat} (h : PathOk cc ttiRx front nodes)
    (hahead : Ahead cc ttiRx cfix (front ++ record :: back) (nodes.map TreeNode.dciPosIdx) start)
    (halloc : allocDfsNode cc ttiRx nodes record start = some none) :
    Spent cc ttiRx cfix (front ++ record :: back) (nodes.map TreeNode.dciPosIdx) := by
  refine ⟨start, hahead, fun k hk rest => ?_⟩
  exact h.not_assigns (fun ncce hpos => allocDfsNode_eq_none halloc hk hpos) rest

theorem ahead_of_allocDfsNode {start : Nat} {node : TreeNode cc cfix}
    (h : PathOk cc ttiRx front nodes)
    (hahead : Ahead cc ttiRx cfix (front ++ record :: back) (nodes.map TreeNode.dciPosIdx) start)
    (halloc : allocDfsNode cc ttiRx nodes record start = some (some node)) :
    Ahead cc ttiRx cfix (front ++ record :: back) (nodes.map TreeNode.dciPosIdx)
      node.dciPosIdx := by
  obtain ⟨-, -, -, hbefore⟩ := allocDfsNode_eq_some halloc
  refine hahead.skip fun k hk hlt rest => ?_
  obtain ⟨ncce, hpos, hskip⟩ := hbefore k hk hlt
  refine h.not_assigns (fun ncce' hpos' => ?_) rest
  rw [hpos] at hpos'
  rw [← Option.some.inj hpos']
  exact hskip

/-- The inner loop of `get_next_dfs`: it stops where nothing goes on, or has a node for each
record. -/
theorem behind_extend {start : Nat} {nodes' : List (TreeNode cc cfix)}
    (hrecords : records = front ++ back) (h : PathOk cc ttiRx front nodes)
    (hahead : Ahead cc ttiRx cfix (records ++ [record]) (nodes.map TreeNode.dciPosIdx) start)
    (hstart : back = [] → start = 0) (hextend : extend cc ttiRx back nodes start = some nodes') :
    if nodes'.length < records.length then
      Spent cc ttiRx cfix (records ++ [record]) (nodes'.map TreeNode.dciPosIdx)
    else Ahead cc ttiRx cfix (records ++ [record]) (nodes'.map TreeNode.dciPosIdx) 0 := by
  induction back generalizing front nodes start with
  | nil =>
    cases hextend
    rw [hrecords, List.append_nil, h.length_eq, if_neg (Nat.lt_irrefl _), ← List.append_nil front,
      ← hrecords]
    exact hstart rfl ▸ hahead
  | cons next back ih =>
    have hsplit : records ++ [record] = front ++ next :: (back ++ [record]) := by
      rw [hrecords, List.append_assoc, List.cons_append]
    rw [extend] at hextend
    split at hextend
    · cases hextend
    · next halloc =>
      rw [← Option.some.inj hextend]
      have hless : nodes.length < records.length := by
        rw [h.length_eq, hrecords, List.length_append, List.length_cons]
        omega
      rw [if_pos hless]
      rw [hsplit] at hahead ⊢
      exact spent_of_allocDfsNode h hahead halloc
    · next node halloc =>
      rw [hsplit] at hahead
      have hahead' := (ahead_of_allocDfsNode h hahead halloc).descend
      rw [← hsplit] at hahead'
      rw [List.append_cons] at hrecords
      refine ih hrecords (pathOk_allocDfsNode h halloc) ?_ (fun _ => rfl) hextend
      rw [List.map_append]
      exact hahead'

/-- The search has started with some CFI, and no CFI between that and the one of the path has an
assignment. -/
structure Searched (ttiRx maxCfix startCfix : Nat) (records : List AllocRecord)
    (record : AllocRecord) (path : Path cc) : Prop where
  on : OnPath ttiRx maxCfix records path
  start_le : startCfix ≤ path.cfix
  below : ∀ cfix, startCfix ≤ cfix → cfix < path.cfix →
    ∀ q, ¬ Assigns cc ttiRx cfix (records ++ [record]) q

variable {startCfix start : Nat} {path path' : Path cc}

/-- A path where nothing goes on, at the root, has no assignment for its CFI. -/
theorem Spent.not_assigns {cfix : Nat} (h : Spent cc ttiRx cfix (records ++ [record]) [])
    (q : List Nat) : ¬ Assigns cc ttiRx cfix (records ++ [record]) q := by
  obtain ⟨i, hahead, hbad⟩ := h
  intro hq
  have hpos : 0 < (records ++ [record]).length := by simp
  exact hahead.exhausted hpos hbad q hq.length_eq hq

/-- One step back: the search is ahead of the path that is left, or at the root of another CFI. -/
theorem behind_stepBack (h : Searched ttiRx maxCfix startCfix records record path)
    (hspent : Spent cc ttiRx path.cfix (records ++ [record]) path.idxs)
    (hback : stepBack cc maxCfix path = some (path', start)) :
    Searched ttiRx maxCfix startCfix records record path' ∧
      Ahead cc ttiRx path'.cfix (records ++ [record]) path'.idxs start ∧
      (records.length ≤ path'.nodes.length → start = 0) := by
  have hon := onPath_stepBack h.on hback
  unfold stepBack at hback
  split at hback
  · next hnil =>
    rw [List.getLast?_eq_none_iff] at hnil
    rw [Path.idxs, hnil] at hspent
    split at hback
    · cases hback
    · cases hback
      refine ⟨⟨hon, Nat.le_succ_of_le h.start_le, fun cfix hle hlt => ?_⟩, behind_start,
        fun _ => rfl⟩
      rcases Nat.lt_succ_iff_lt_or_eq.mp hlt with hlt | rfl
      · exact h.below cfix hle hlt
      · exact hspent.not_assigns
  · next last hlast =>
    cases hback
    have hnodes : path.nodes = path.nodes.dropLast ++ [last] := by
      rw [List.getLast?_eq_some_iff] at hlast
      obtain ⟨front, hfront⟩ := hlast
      rw [hfront, List.dropLast_concat]
    have hlength := congrArg List.length hnodes
    rw [List.length_append, List.length_singleton] at hlength
    have hle := h.on.length_le
    obtain ⟨i, hahead, hbad⟩ := hspent
    rw [Path.idxs, hnodes, List.map_append] at hahead hbad
    refine ⟨⟨hon, h.start_le, h.below⟩, hahead.goBack ?_ ?_, fun hmany => ?_⟩
    · rw [List.length_map, List.length_append, List.length_singleton]
      omega
    · intro k hk rest
      have hbad' := hbad k hk rest
      rw [List.append_assoc] at hbad'
      exact hbad'
    · have hmany : records.length ≤ path.nodes.dropLast.length := hmany
      omega

/-- One turn of the outer loop of `get_next_dfs`. -/
theorem behind_turn {nodes : List (TreeNode cc path'.cfix)}
    (h : Searched ttiRx maxCfix startCfix records record path)
    (hspent : Spent cc ttiRx path.cfix (records ++ [record]) path.idxs)
    (hback : stepBack cc maxCfix path = some (path', start))
    (hextend : extend cc ttiRx (records.drop path'.nodes.length) path'.nodes start = some nodes) :
    Searched ttiRx maxCfix startCfix records record ⟨path'.cfix, nodes⟩ ∧
      if nodes.length < records.length then
        Spent cc ttiRx path'.cfix (records ++ [record]) (nodes.map TreeNode.dciPosIdx)
      else Ahead cc ttiRx path'.cfix (records ++ [record]) (nodes.map TreeNode.dciPosIdx) 0 := by
  obtain ⟨hsearched, hahead, hstart⟩ := behind_stepBack h hspent hback
  refine ⟨⟨onPath_turn h.on hback hextend, hsearched.start_le, hsearched.below⟩, ?_⟩
  refine behind_extend (List.take_append_drop _ records).symm hsearched.on.ok hahead ?_ hextend
  exact fun hnil => hstart (List.drop_eq_nil_iff.mp hnil)

/-- What the loop of `alloc_dci` ends with: the first assignment with the new record, or no CFI has
one. -/
theorem behind_allocLoop {next : Option (Path cc)} (hok : PathOk cc ttiRx records path.nodes)
    (hle : path.cfix ≤ maxCfix)
    (hahead : Ahead cc ttiRx path.cfix (records ++ [record]) path.idxs 0)
    (hloop : allocLoop cc ttiRx maxCfix records record path = some next) :
    (next = none → ∀ cfix, path.cfix ≤ cfix → cfix ≤ maxCfix →
      ∀ q, ¬ Assigns cc ttiRx cfix (records ++ [record]) q) ∧
    ∀ path', next = some path' → path.cfix ≤ path'.cfix ∧
      ∀ q, Assigns cc ttiRx path'.cfix (records ++ [record]) q → ¬ Before q path'.idxs := by
  have hfail : ∀ path' : Path cc, (Searched ttiRx maxCfix path.cfix records record path' ∧
      PathOk cc ttiRx records path'.nodes ∧
      Ahead cc ttiRx path'.cfix (records ++ [record]) path'.idxs 0) →
      allocDfsNode cc ttiRx path'.nodes record 0 = some none →
      Searched ttiRx maxCfix path.cfix records record path' ∧
        Spent cc ttiRx path'.cfix (records ++ [record]) path'.idxs :=
    fun path' ⟨hsearched, hok', hahead'⟩ halloc =>
      ⟨hsearched, spent_of_allocDfsNode hok' hahead' halloc⟩
  have hstep : ∀ (path' path'' : Path cc) (start : Nat) (nodes : List (TreeNode cc path''.cfix)),
      (Searched ttiRx maxCfix path.cfix records record path' ∧
        Spent cc ttiRx path'.cfix (records ++ [record]) path'.idxs) →
      stepBack cc maxCfix path' = some (path'', start) →
      extend cc ttiRx (records.drop path''.nodes.length) path''.nodes start = some nodes →
      if nodes.length < records.length then
        Searched ttiRx maxCfix path.cfix records record ⟨path''.cfix, nodes⟩ ∧
          Spent cc ttiRx path''.cfix (records ++ [record]) (nodes.map TreeNode.dciPosIdx)
      else Searched ttiRx maxCfix path.cfix records record ⟨path''.cfix, nodes⟩ ∧
        PathOk cc ttiRx records nodes ∧
        Ahead cc ttiRx path''.cfix (records ++ [record]) (nodes.map TreeNode.dciPosIdx) 0 := by
    intro path' path'' start nodes ⟨hsearched, hspent⟩ hback hextend
    obtain ⟨hsearched', hcase⟩ := behind_turn hsearched hspent hback hextend
    split
    · next hless =>
      rw [if_pos hless] at hcase
      exact ⟨hsearched', hcase⟩
    · next hmany =>
      rw [if_neg hmany] at hcase
      have hok' := hsearched'.on.ok
      rw [List.take_of_length_le (Nat.le_of_not_lt hmany)] at hok'
      exact ⟨hsearched', hok', hcase⟩
  have hon : OnPath ttiRx maxCfix records path := by
    refine ⟨?_, Nat.le_of_eq hok.length_eq, hle⟩
    rw [hok.length_eq, List.take_length]
    exact hok
  have hsearched : Searched ttiRx maxCfix path.cfix records record path :=
    ⟨hon, Nat.le_refl _, fun cfix hle hlt => absurd hlt (Nat.not_lt.mpr hle)⟩
  obtain ⟨hnone, hsome⟩ := allocLoop_rule hfail hstep ⟨hsearched, hok, hahead⟩ hloop
  constructor
  · intro heq cfix hstart hmax
    obtain ⟨path', ⟨hsearched', hspent⟩, hback⟩ := hnone heq
    unfold stepBack at hback
    split at hback
    · next hnil =>
      rw [List.getLast?_eq_none_iff] at hnil
      rw [Path.idxs, hnil] at hspent
      split at hback
      · next hlast =>
        -- The search has come to the root of the last CFI.
        rcases Nat.lt_or_ge cfix path'.cfix with hlt | hge
        · exact hsearched'.below cfix hstart hlt
        · obtain rfl : cfix = path'.cfix := by omega
          exact hspent.not_assigns
      · cases hback
    · cases hback
  · intro path' heq
    obtain ⟨path'', node, ⟨hsearched', hok', hahead'⟩, halloc, rfl⟩ := hsome path' heq
    refine ⟨hsearched'.start_le, fun q hq => ?_⟩
    have hahead'' := ahead_of_allocDfsNode hok' hahead' halloc
    show ¬ Before q ((path''.nodes ++ [node]).map TreeNode.dciPosIdx)
    rw [List.map_append]
    exact hahead'' q hq.length_eq hq

end Moves

/-! ### States that the search may start from -/

/-- The highest CFI index that a DCI may use: DL control allocations fix the CFI as long as they
are there. -/
def ctrlBound {cc : CellParams} (s : State cc) : Nat :=
  if s.records.any fun record => isDlCtrlAlloc record.allocType then s.path.cfix
  else cc.maxNofCtrlSymbols - 1

/-- The path is the first assignment of the records for its CFI, and no CFI is left out that a DCI
may use. -/
structure Settled {cc : CellParams} (s : State cc) : Prop where
  inv : Inv s
  first : ∀ q, Assigns cc s.ttiRx s.path.cfix s.records q → ¬ Before q s.path.idxs
  bound : s.maxCfix = ctrlBound s

section Settled

variable {cc : CellParams} {s s' : State cc} {record : AllocRecord}

theorem settled_newTti (ttiRx : Nat) : Settled (newTti ttiRx : State cc) where
  inv := inv_newTti ttiRx
  first := fun q _ => not_before_nil q
  bound := rfl

theorem Settled.ahead (h : Settled s) (record : AllocRecord) :
    Ahead cc s.ttiRx s.path.cfix (s.records ++ [record]) s.path.idxs 0 := by
  intro q _ hq hbefore
  obtain ⟨q', i, rfl, hq'⟩ := hq.front
  have hlen : s.path.idxs.length ≤ q'.length := by
    rw [hq'.length_eq, Path.idxs, List.length_map, h.inv.ok.length_eq]
  rcases before_concat_iff.mp hbefore with hbefore | ⟨j, rest, hj, -⟩
  · exact h.first q' hq' ((before_append_left [i] hlen).mp hbefore)
  · cases hj

theorem startPath_of_lt (hprb : 25 < cc.nofPrb) : startPath s record = s.path := by
  rw [startPath, if_neg fun hstart => absurd hstart.2.2.1 (Nat.not_le_of_lt hprb)]

/-- `alloc_dci` fails only if no CFI that it may use has an assignment. -/
theorem Settled.complete (h : Settled s) (hprb : 25 < cc.nofPrb)
    (halloc : allocDci s record = some (s', false)) {cfix : Nat} (hle : s.path.cfix ≤ cfix)
    (hbound : cfix ≤ ctrlBound s) (q : List Nat) :
    ¬ Assigns cc s.ttiRx cfix (s.records ++ [record]) q := by
  unfold allocDci at halloc
  rw [startPath_of_lt hprb] at halloc
  split at halloc
  · cases halloc
  · next hloop =>
    have hnone := (behind_allocLoop h.inv.ok h.inv.cfix_le (h.ahead record) hloop).1 rfl
    exact hnone cfix hle (h.bound ▸ hbound) q
  · cases halloc

/-- `alloc_dci` keeps the property, whether it fails or not. -/
theorem settled_allocDci {success : Bool} (h : Settled s) (hprb : 25 < cc.nofPrb)
    (halloc : allocDci s record = some (s', success)) : Settled s' := by
  have hinv := inv_allocDci h.inv halloc
  unfold allocDci at halloc
  rw [startPath_of_lt hprb] at halloc
  split at halloc
  · cases halloc
  · cases halloc
    exact h
  · next path hloop =>
    obtain ⟨hle, hfirst⟩ :=
      (behind_allocLoop h.inv.ok h.inv.cfix_le (h.ahead record) hloop).2 path rfl
    have hmax := (pathOk_allocLoop h.inv.ok h.inv.cfix_le hloop).2
    have hbound := h.bound
    cases halloc
    refine ⟨hinv, hfirst, ?_⟩
    show (if isDlCtrlAlloc record.allocType then path.cfix else s.maxCfix)
      = if (s.records ++ [record]).any _ then path.cfix else cc.maxNofCtrlSymbols - 1
    rw [List.any_append, List.any_cons, List.any_nil, Bool.or_false]
    unfold ctrlBound at hbound
    cases hctrl : isDlCtrlAlloc record.allocType with
    | true => simp
    | false =>
      cases hany : s.records.any fun record => isDlCtrlAlloc record.allocType with
      | true =>
        -- The CFI was fixed before, and the search has not lowered it.
        rw [hany] at hbound
        simp only [if_true] at hbound
        simp only [Bool.false_eq_true, Bool.or_false, if_true, if_false]
        omega
      | false =>
        rw [hany] at hbound
        exact hbound

end Settled

/-! ### Runs -/

section Runs

variable {cc : CellParams}

/-- A state with the states before the DCIs that are allocated in it, the last one first. -/
abbrev History (cc : CellParams) := State cc × List (State cc)

/-- The states before the DCIs, after a call and its result. -/
def nextHistory (x : History cc) (op : Op) (success : Bool) : List (State cc) :=
  match op with
  | .newTti _ => []
  | .allocDci _ => if success then x.1 :: x.2 else x.2
  | .remLastDci => x.2.tail

/-- A call, with the states before the DCIs. -/
def stepHistory (x : History cc) (op : Op) : Option (History cc × Bool) :=
  (step x.1 op).map fun y => ((y.1, nextHistory x op y.2), y.2)

/-- `rem_last_dci` leaves the state that was there before the DCI that it removes. -/
def Restores (x : History cc) (op : Op) : Prop :=
  op = .remLastDci → ∀ s rest, x.2 = s :: rest → remLastDci x.1 = some s

/-- The states in the history are settled, and there is one for each record. -/
def HistoryOk (x : History cc) : Prop :=
  Settled x.1 ∧ x.2.length = x.1.records.length ∧
    ∀ front s back, x.2 = front ++ s :: back → Settled s ∧ back.length = s.records.length

theorem historyOk_newTti (ttiRx : Nat) : HistoryOk ((newTti ttiRx, []) : History cc) := by
  refine ⟨settled_newTti ttiRx, rfl, fun front s back heq => ?_⟩
  cases front <;> cases heq

theorem length_records_allocDci {s s' : State cc} {record : AllocRecord} {success : Bool}
    (h : allocDci s record = some (s', success)) :
    (success = true → s'.records.length = s.records.length + 1) ∧ (success = false → s' = s) := by
  unfold allocDci at h
  split at h
  · cases h
  · cases h
    exact ⟨nofun, fun _ => rfl⟩
  · cases h
    exact ⟨fun _ => by rw [List.length_append, List.length_singleton], nofun⟩

theorem historyOk_step (hprb : 25 < cc.nofPrb) {x x' : History cc} {op : Op} {success : Bool}
    (h : HistoryOk x) (hrestores : Restores x op) (hstep : stepHistory x op = some (x', success)) :
    HistoryOk x' := by
  obtain ⟨hsettled, hlength, hhistory⟩ := h
  obtain ⟨⟨s', success⟩, hstep', heq⟩ := Option.map_eq_some_iff.mp hstep
  cases heq
  cases op with
  | newTti ttiRx =>
    cases hstep'
    exact historyOk_newTti ttiRx
  | allocDci record =>
    have halloc : allocDci x.1 record = some (s', success) := hstep'
    have hsettled' := settled_allocDci hsettled hprb halloc
    obtain ⟨hsuccess, hfailure⟩ := length_records_allocDci halloc
    cases success with
    | true =>
      refine ⟨hsettled', ?_, fun front s back heq => ?_⟩
      · show x.2.length + 1 = s'.records.length
        rw [hsuccess rfl, hlength]
      · have heq : x.1 :: x.2 = front ++ s :: back := heq
        cases front with
        | nil =>
          cases heq
          exact ⟨hsettled, hlength⟩
        | cons s₀ front => exact hhistory front s back (List.cons.inj heq).2
    | false =>
      rw [hfailure rfl]
      exact ⟨hsettled, hlength, hhistory⟩
  | remLastDci =>
    obtain ⟨s'', hrem, heq⟩ := Option.map_eq_some_iff.mp hstep'
    cases heq
    cases hcase : x.2 with
    | nil =>
      -- There is a record to remove, so there is a state before it.
      rw [hcase, List.length_nil] at hlength
      unfold remLastDci at hrem
      rw [List.length_eq_zero_iff.mp hlength.symm] at hrem
      cases hrem
    | cons s rest =>
      have hs := hrestores rfl s rest hcase
      rw [hrem] at hs
      cases hs
      obtain ⟨hsettled', hlength'⟩ := hhistory [] s' rest hcase
      have htail : nextHistory x .remLastDci true = rest := by
        rw [nextHistory, hcase]
        rfl
      show HistoryOk (s', nextHistory x .remLastDci true)
      rw [htail]
      refine ⟨hsettled', hlength', fun front s back heq => ?_⟩
      have heq : rest = front ++ s :: back := heq
      exact hhistory (s' :: front) s back (by rw [hcase, heq, List.cons_append])

/-- In a run where each `rem_last_dci` restores what was there before the DCI that it removes,
`alloc_dci` fails only if no CFI from the one in use up to the highest one has positions for the
DCIs and the new one. -/
theorem searchComplete_of_restores {ttiRx : Nat} {ops : List Op} {s s' : State cc}
    {history : List (State cc)} {results : List Bool} {record : AllocRecord}
    (hprb : 25 < cc.nofPrb)
    (hrun : run stepHistory (newTti ttiRx, []) ops = some ((s, history), results))
    (hrestores : StepsWithin stepHistory Restores ((newTti ttiRx, []) : History cc) ops)
    (halloc : allocDci s record = some (s', false)) :
    ∀ cfix, s.path.cfix ≤ cfix → cfix ≤ ctrlBound s → ∀ xs, xs.map Placed.record = s.records ++ [record] →
      ¬ Assignment cc s.ttiRx cfix xs := by
  have hok := run_invariant_of_within HistoryOk
    (fun x op x' success h hguard hstep => historyOk_step hprb h hguard hstep)
    ops _ _ results (historyOk_newTti ttiRx) hrestores hrun
  intro cfix hle hbound xs hrecords hxs
  exact hok.1.complete hprb halloc hle hbound (xs.map Placed.idx) ⟨xs, hxs, hrecords, rfl⟩

/-- A DCI that is put behind the others without moving them is removed without a trace, unless it
fixes the CFI. -/
theorem remLastDci_allocDci {s : State cc} {record : AllocRecord}
    {node : TreeNode cc s.path.cfix} (hprb : 25 < cc.nofPrb)
    (hctrl : isDlCtrlAlloc record.allocType = true → s.maxCfix = s.path.cfix)
    (hnode : allocDfsNode cc s.ttiRx s.path.nodes record 0 = some (some node)) :
    ∃ s', allocDci s record = some (s', true) ∧ remLastDci s' = some s := by
  have hloop : allocLoop cc s.ttiRx s.maxCfix s.records record s.path
      = some (some ⟨s.path.cfix, s.path.nodes ++ [node]⟩) := by
    rw [allocLoop, hnode]
  refine ⟨_, by rw [allocDci, startPath_of_lt hprb, hloop], ?_⟩
  have hmax : (if isDlCtrlAlloc record.allocType then s.path.cfix else s.maxCfix) = s.maxCfix := by
    split
    · next h => exact (hctrl h).symm
    · rfl
  unfold remLastDci
  rw [if_neg (by simp)]
  simp only [List.dropLast_concat, hmax]

end Runs

/-! ### Examples -/

theorem allocDci_eq_some {cc : CellParams} {s s' : State cc} {record : AllocRecord}
    (h : allocDci s record = some (s', true)) :
    s'.records = s.records ++ [record] ∧ s'.ttiRx = s.ttiRx := by
  unfold allocDci at h
  split at h
  · cases h
  · cases h
  · cases h
    exact ⟨rfl, rfl⟩

theorem stepHistory_allocDci {cc : CellParams} {x : History cc} {s' : State cc}
    {record : AllocRecord} (h : allocDci x.1 record = some (s', true)) :
    stepHistory x (.allocDci record) = some ((s', x.1 :: x.2), true) := by
  rw [stepHistory, step, h]
  rfl

attribute [local instance] Odss.Mac.SfCchAllocator.neZero_aggr

/-- Two DCIs of eight CCEs are there, and a third one, which has not moved them, is removed. No
other DCI of eight CCEs fits. -/
theorem searchComplete_example :
    ∃ (s : State exampleCell) (s' : State exampleCell),
      allocDci s (exampleRecord .ulData 73 3 0 8) = some (s', false) ∧ s.records.length = 2 ∧
      ∀ cfix, s.path.cfix ≤ cfix → cfix ≤ ctrlBound s → ∀ xs,
        xs.map Placed.record = s.records ++ [exampleRecord .ulData 73 3 0 8] →
          ¬ Assignment exampleCell s.ttiRx cfix xs := by
  have hchain : ((allocDci (newTti 0 : State exampleCell) (exampleRecord .ulData 70 3 0 8)).bind
      fun x => (allocDci x.1 (exampleRecord .ulData 71 3 0 8)).bind fun y =>
        (allocDfsNode exampleCell y.1.ttiRx y.1.path.nodes (exampleRecord .ulData 72 2 0 16) 0).bind
          fun node => (allocDci y.1 (exampleRecord .ulData 73 3 0 8)).map fun z =>
            (x.2, y.2, node.isSome, z.2)) = some (true, true, true, false) := by
    decide +kernel
  obtain ⟨⟨s₁, b₁⟩, h₁, hchain⟩ := Option.bind_eq_some_iff.mp hchain
  obtain ⟨⟨s₂, b₂⟩, h₂, hchain⟩ := Option.bind_eq_some_iff.mp hchain
  obtain ⟨node, hnode, hchain⟩ := Option.bind_eq_some_iff.mp hchain
  obtain ⟨⟨s', b⟩, hfail, hresults⟩ := Option.map_eq_some_iff.mp hchain
  simp only [Prod.mk.injEq] at hresults
  obtain ⟨rfl, rfl, hsome, rfl⟩ := hresults
  obtain ⟨node, rfl⟩ := Option.isSome_iff_exists.mp hsome
  obtain ⟨s₃, h₃, hrem⟩ := remLastDci_allocDci (by decide) (fun h => absurd h (by decide)) hnode
  have hstep₁ := stepHistory_allocDci (x := (newTti 0, [])) h₁
  have hstep₂ := stepHistory_allocDci (x := (s₁, [newTti 0])) h₂
  have hstep₃ := stepHistory_allocDci (x := (s₂, [s₁, newTti 0])) h₃
  have hstep₄ : stepHistory (s₃, [s₂, s₁, newTti 0]) .remLastDci
      = some ((s₂, [s₁, newTti 0]), true) := by
    rw [stepHistory, step, hrem]
    rfl
  have hrun : run stepHistory (newTti 0, []) [.allocDci (exampleRecord .ulData 70 3 0 8),
      .allocDci (exampleRecord .ulData 71 3 0 8), .allocDci (exampleRecord .ulData 72 2 0 16),
      .remLastDci] = some ((s₂, [s₁, newTti 0]), [true, true, true, true]) := by
    simp only [run, hstep₁, hstep₂, hstep₃, hstep₄]
  have hrestores : StepsWithin stepHistory Restores ((newTti 0, []) : History exampleCell)
      [.allocDci (exampleRecord .ulData 70 3 0 8), .allocDci (exampleRecord .ulData 71 3 0 8),
        .allocDci (exampleRecord .ulData 72 2 0 16), .remLastDci] := by
    refine ⟨(fun hop => by cases hop), fun x b hx => ?_⟩
    rw [hstep₁] at hx
    cases hx
    refine ⟨(fun hop => by cases hop), fun x b hx => ?_⟩
    rw [hstep₂] at hx
    cases hx
    refine ⟨(fun hop => by cases hop), fun x b hx => ?_⟩
    rw [hstep₃] at hx
    cases hx
    refine ⟨fun _ s rest heq => ?_, fun _ _ _ => trivial⟩
    cases heq
    exact hrem
  refine ⟨s₂, s', hfail, ?_, searchComplete_of_restores (by decide) hrun hrestores hfail⟩
  rw [(allocDci_eq_some h₂).1, (allocDci_eq_some h₁).1]
  rfl

/-- The second DCI moves the first one to its other position, and is removed. -/
def movedOps : List Op :=
  [.allocDci (exampleRecord .ulData 70 3 0 8), .allocDci (exampleRecord .ulData 71 2 0 4),
    .remLastDci]

/-- The third DCI does not fit, although it would if the first one were where it was before. -/
theorem not_searchComplete_moved :
    ∃ (s s' : State exampleCell) (results : List Bool),
      25 < exampleCell.nofPrb ∧ run step (newTti 0) movedOps = some (s, results) ∧
      allocDci s (exampleRecord .ulData 72 2 8 12) = some (s', false) ∧
      s.path.cfix ≤ ctrlBound s ∧
      ∃ xs, xs.map Placed.record = s.records ++ [exampleRecord .ulData 72 2 8 12] ∧
        Assignment exampleCell s.ttiRx s.path.cfix xs := by
  have hchain : ((allocDci (newTti 0 : State exampleCell) (exampleRecord .ulData 70 3 0 8)).bind
      fun x => (allocDci x.1 (exampleRecord .ulData 71 2 0 4)).bind fun y =>
        (remLastDci y.1).bind fun s =>
          (allocDci s (exampleRecord .ulData 72 2 8 12)).map fun z =>
            (x.2, y.2, s.path.cfix, s.ttiRx, z.2)) = some (true, true, 0, 0, false) := by
    decide +kernel
  obtain ⟨⟨s₁, b₁⟩, h₁, hchain⟩ := Option.bind_eq_some_iff.mp hchain
  obtain ⟨⟨s₂, b₂⟩, h₂, hchain⟩ := Option.bind_eq_some_iff.mp hchain
  obtain ⟨s, hrem, hchain⟩ := Option.bind_eq_some_iff.mp hchain
  obtain ⟨⟨s', b⟩, hfail, hresults⟩ := Option.map_eq_some_iff.mp hchain
  simp only [Prod.mk.injEq] at hresults
  obtain ⟨rfl, rfl, hcfix, htti, rfl⟩ := hresults
  have hrecords : s.records = [exampleRecord .ulData 70 3 0 8] := by
    have hrem' := hrem
    unfold remLastDci at hrem'
    rw [(allocDci_eq_some h₂).1, (allocDci_eq_some h₁).1] at hrem'
    cases hrem'
    rfl
  have hrun : run step (newTti 0) movedOps = some (s, [true, true, true]) := by
    simp only [movedOps, run, step, h₁, h₂, hrem, Option.map_some]
  refine ⟨s, s', _, by decide, hrun, hfail, ?_, ?_⟩
  · rw [hcfix]
    exact Nat.zero_le _
  -- The first DCI at its first position, and the new one behind it.
  rw [hcfix, htti, hrecords]
  refine ⟨[⟨exampleRecord .ulData 70 3 0 8, 0, 0⟩, ⟨exampleRecord .ulData 72 2 8 12, 0, 8⟩], rfl,
    ?_, ?_⟩
  · intro x hx
    rcases List.mem_pair.mp hx with rfl | rfl
    · exact ⟨rfl, (fun hne => by cases hne), fun hne => by cases hne⟩
    · exact ⟨rfl, (fun hne => by cases hne), fun hne => by cases hne⟩
  · refine List.pairwise_pair.mpr ⟨fun pos hpos => ?_, fun _ hne => by cases hne⟩
    have hfirst : pos < 0 + 2 ^ 3 := hpos.1.2
    have hsecond : 8 ≤ pos := hpos.2.1
    omega

end Odss.Mac.SfCchAllocator
