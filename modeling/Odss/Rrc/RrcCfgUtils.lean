import Odss.Lib.KeySorted
import Odss.Lib.Run

/-!
# `Odss.Rrc.RrcCfgUtils`: differences of configuration lists

The model of `lib/include/srsran/rrc/rrc_cfg_utils.h`, for any kind of object: `get_rrc_obj_id`
and `set_rrc_obj_id` are the fields of `RrcObj`, and equality of objects is `operator==`. A result
is `none` where an assertion fails. The list a result is written to may be the source list itself;
`old` is what it held, and `same` says that it is the source. A list has room for what is pushed.

* `walk_eq`: the walk of `compute_cfg_diff` finds the ids that are missing in the target and the
  elements of the target that are new or differ.
* `setUnion_setDifference`: applied to the source, the two lists give the target.
* `step_spec`, `run_spec`: the list operations act on a finite map.
-/

set_option linter.all false

namespace Odss.Rrc.CfgUtils

open Odss.Lib

/-- A kind of object with an id. -/
structure RrcObj (α ι : Type) where
  getId : α → ι
  setId : α → ι → α
  getId_setId : ∀ a id, getId (setId a id) = id

variable {α ι : Type} [LinearOrder ι]

/-- An assertion. -/
def assertThat (p : Prop) [Decidable p] : Option Unit := if p then some () else none

theorem assertThat_bind {β : Type} {p : Prop} [Decidable p] (h : p) (f : Unit → Option β) :
    (assertThat p).bind f = f () := by
  rw [assertThat, if_pos h, Option.bind_some]

/-! ### One object -/

section Objects

variable (k : RrcObj α ι)

/-- `std::is_sorted` with `rrc_obj_id_cmp` -/
def IsSorted (c : List α) : Prop := c.Pairwise fun a b => k.getId a ≤ k.getId b

instance (c : List α) : Decidable (IsSorted k c) :=
  inferInstanceAs (Decidable (c.Pairwise fun a b => k.getId a ≤ k.getId b))

/-- `sorted_find_rrc_obj_id`: the objects before, the one with the id and those after it. -/
def sortedFindRrcObjId (c : List α) (id : ι) : Option (List α × α × List α) :=
  match c.span fun e => k.getId e < id with
  | (front, e :: back) => if k.getId e ≠ id then none else some (front, e, back)
  | (_, []) => none

/-- `std::sort` with `rrc_obj_id_cmp` -/
def sortRrcObjs (c : List α) : List α := c.insertionSort fun a b => k.getId a ≤ k.getId b

/-- `add_rrc_obj_id`, with the object that the iterator points to -/
def addRrcObjId [Inhabited α] (c : List α) (id : ι) : List α × Option α :=
  match sortedFindRrcObjId k c id with
  | some (_, e, _) => (c, some e)
  | none =>
    let c := sortRrcObjs k (c ++ [k.setId default id])
    (c, (sortedFindRrcObjId k c id).map fun it => it.2.1)

/-- `add_rrc_obj`, with the object that the iterator points to -/
def addRrcObj (c : List α) (v : α) : List α × Option α :=
  match sortedFindRrcObjId k c (k.getId v) with
  | some (front, _, back) => (front ++ v :: back, some v)
  | none =>
    let c := sortRrcObjs k (c ++ [v])
    (c, (sortedFindRrcObjId k c (k.getId v)).map fun it => it.2.1)

/-- `rem_rrc_obj_id`, with whether there was the object -/
def remRrcObjId (c : List α) (id : ι) : List α × Bool :=
  match sortedFindRrcObjId k c id with
  | some (front, _, back) => (front ++ back, true)
  | none => (c, false)

end Objects

/-! ### Differences -/

section Diffs

variable (k : RrcObj α ι)

/-- `apply_addmodlist_diff` -/
def applyAddmodlistDiff (src add old : List α) (same : Bool) : Option (List α) :=
  if add.length = 0 then some (if same then old else src)
  else do
    assertThat (IsSorted k src)
    assertThat (IsSorted k add)
    return setUnion k.getId add src

/-- `apply_remlist_diff` -/
def applyRemlistDiff (src : List α) (rem : List ι) (old : List α) (same : Bool) :
    Option (List α) :=
  if rem.length = 0 then some (if same then old else src)
  else do
    assertThat (IsSorted k src)
    assertThat (rem.Pairwise (· ≤ ·))
    return setDifference k.getId src rem

/-- `apply_addmodremlist_diff` -/
def applyAddmodremlistDiff (src add : List α) (rem : List ι) (old : List α) (same : Bool) :
    Option (List α) :=
  if add.length = 0 ∧ rem.length = 0 then some (if same then old else src)
  else do
    assertThat (IsSorted k src)
    assertThat (IsSorted k add)
    assertThat (rem.Pairwise (· ≤ ·))
    return setUnion k.getId add (setDifference k.getId src rem)

variable [DecidableEq α]

/-- The loop of `compute_cfg_diff`, with the lists that are added to. -/
def walk : List α → List α → List α × List ι → List α × List ι
  | [], [], diff => diff
  | a :: src, [], (add, rem) => walk src [] (add, rem ++ [k.getId a])
  | [], b :: target, (add, rem) => walk [] target (add ++ [b], rem)
  | a :: src, b :: target, (add, rem) =>
    if k.getId a < k.getId b then walk src (b :: target) (add, rem ++ [k.getId a])
    else if k.getId b < k.getId a then walk (a :: src) target (add ++ [b], rem)
    else walk src target (if a = b then add else add ++ [b], rem)
termination_by src target => src.length + target.length

/-- `compute_cfg_diff`, which adds to the lists of `diff`. They are neither the source nor the
target, but `same` says that these two are one list. -/
def computeCfgDiff (src target : List α) (same : Bool) (diff : List α × List ι) :
    Option (List α × List ι) :=
  if same then some diff
  else do
    assertThat (IsSorted k src)
    assertThat (IsSorted k target)
    return walk k src target diff

end Diffs

/-! ### The difference of two sorted lists -/

section Inverse

variable {k : RrcObj α ι} {src target : List α}

theorem isSorted (h : KeySorted k.getId src) : IsSorted k src :=
  List.Pairwise.imp (fun hlt => le_of_lt hlt) h

variable [DecidableEq α]

/-- The elements of the target that are new or differ. -/
def newOrDiffer (src target : List α) : List α := target.filter fun b => b ∉ src

theorem lawfulBEq_id [LinearOrder ι] : LawfulBEq ι := inferInstance

attribute [local instance] lawfulBEq_id

/-- The ids of the source that are missing in the target. -/
def missing (k : RrcObj α ι) (src target : List α) : List ι :=
  (src.map k.getId).filter fun id => id ∉ target.map k.getId

theorem newOrDiffer_cons_left {a : α} (h : a ∉ target) :
    newOrDiffer (a :: src) target = newOrDiffer src target := by
  refine List.filter_congr fun b hb => ?_
  have hne : b ≠ a := fun heq => h (heq ▸ hb)
  simp [hne]

omit [DecidableEq α] in
theorem missing_cons_of_notMem {a : α} (h : k.getId a ∉ target.map k.getId) :
    missing k (a :: src) target = k.getId a :: missing k src target :=
  List.filter_cons_of_pos (by simpa using h)

omit [DecidableEq α] in
theorem missing_cons_of_mem {a : α} (h : k.getId a ∈ target.map k.getId) :
    missing k (a :: src) target = missing k src target :=
  List.filter_cons_of_neg (by simpa using h)

omit [DecidableEq α] in
theorem missing_cons_right {b : α} (h : k.getId b ∉ src.map k.getId) :
    missing k src (b :: target) = missing k src target := by
  refine List.filter_congr fun id hid => ?_
  have hne : id ≠ k.getId b := fun heq => h (heq ▸ hid)
  simp only [List.map_cons, List.mem_cons, hne, false_or]

/-- The walk finds the difference of two sorted lists. -/
theorem walk_eq (hs : KeySorted k.getId src) (ht : KeySorted k.getId target)
    (diff : List α × List ι) :
    walk k src target diff =
      (diff.1 ++ newOrDiffer src target, diff.2 ++ missing k src target) := by
  fun_induction walk k src target diff with
  | case1 diff => simp [newOrDiffer, missing]
  | case2 a src add rem ih =>
    rw [ih hs.tail ht]
    simp [newOrDiffer, missing]
  | case3 b target add rem ih =>
    rw [ih hs ht.tail]
    simp [newOrDiffer, missing]
  | case4 a src b target add rem hlt ih =>
    -- the id of `a` is below every id of the target
    have hbelow : ∀ c ∈ b :: target, k.getId a < k.getId c := by
      intro c hc
      rcases List.mem_cons.mp hc with rfl | hc
      · exact hlt
      · exact lt_trans hlt (ht.head_lt hc)
    have hid : k.getId a ∉ (b :: target).map k.getId := by
      intro hin
      obtain ⟨c, hc, heq⟩ := List.mem_map.mp hin
      exact absurd heq (hbelow c hc).ne'
    have hnew : a ∉ b :: target := fun hin => hid (List.mem_map_of_mem hin)
    rw [ih hs.tail ht, newOrDiffer_cons_left hnew, missing_cons_of_notMem hid]
    simp only [List.append_assoc, List.singleton_append]
  | case5 a src b target add rem hge hlt ih =>
    have hbelow : ∀ c ∈ a :: src, k.getId b < k.getId c := by
      intro c hc
      rcases List.mem_cons.mp hc with rfl | hc
      · exact hlt
      · exact lt_trans hlt (hs.head_lt hc)
    have hid : k.getId b ∉ (a :: src).map k.getId := by
      intro hin
      obtain ⟨c, hc, heq⟩ := List.mem_map.mp hin
      exact absurd heq (hbelow c hc).ne'
    have hin : b ∉ a :: src := fun hin => hid (List.mem_map_of_mem hin)
    have hadd : newOrDiffer (a :: src) (b :: target) = b :: newOrDiffer (a :: src) target := by
      rw [newOrDiffer, List.filter_cons_of_pos (by simpa using hin), newOrDiffer]
    rw [ih hs ht.tail, missing_cons_right hid, hadd]
    simp only [List.append_assoc, List.singleton_append]
  | case6 a src b target add rem hge hle ih =>
    have hsame : k.getId a = k.getId b := le_antisymm (not_lt.mp hle) (not_lt.mp hge)
    have hsrc : k.getId b ∉ src.map k.getId := by
      intro hin
      obtain ⟨c, hc, heq⟩ := List.mem_map.mp hin
      exact absurd (heq.trans hsame.symm) (hs.head_lt hc).ne'
    have htarget : k.getId a ∉ target.map k.getId := by
      intro hin
      obtain ⟨c, hc, heq⟩ := List.mem_map.mp hin
      exact absurd (heq.trans hsame) (ht.head_lt hc).ne'
    have hrem : missing k (a :: src) (b :: target) = missing k src target := by
      rw [missing_cons_of_mem (List.mem_map.mpr ⟨b, List.mem_cons_self, hsame.symm⟩),
        missing_cons_right hsrc]
    have hadd : newOrDiffer (a :: src) (b :: target) =
        (if a = b then [] else [b]) ++ newOrDiffer src target := by
      have hb : b ∉ src := fun hin => hsrc (List.mem_map_of_mem hin)
      rw [← newOrDiffer_cons_left (fun hin => htarget (List.mem_map_of_mem hin)), newOrDiffer,
        List.filter_cons]
      by_cases heq : a = b
      · rw [if_pos heq, if_neg (by simp [heq]), List.nil_append, newOrDiffer]
      · rw [if_neg heq, if_pos (by simp [Ne.symm heq, hb]), List.singleton_append, newOrDiffer]
    simp only [dite_eq_ite] at ih
    rw [ih hs.tail ht.tail, hrem, hadd]
    by_cases heq : a = b
    · simp only [if_pos heq, List.nil_append]
    · simp only [if_neg heq, List.append_assoc]

theorem sorted_newOrDiffer (ht : KeySorted k.getId target) :
    KeySorted k.getId (newOrDiffer src target) := ht.filter _

omit [DecidableEq α] in
theorem sorted_missing (hs : KeySorted k.getId src) : (missing k src target).Pairwise (· < ·) :=
  hs.map_key.filter _

/-- The union of what is added with what is not removed is the target. -/
theorem setUnion_setDifference (hs : KeySorted k.getId src) (ht : KeySorted k.getId target) :
    setUnion k.getId (newOrDiffer src target) (setDifference k.getId src (missing k src target)) =
      target := by
  have hadd : KeySorted k.getId (newOrDiffer src target) := sorted_newOrDiffer ht
  have hkept : KeySorted k.getId (setDifference k.getId src (missing k src target)) := by
    rw [setDifference_eq_filter hs (sorted_missing hs)]
    exact hs.filter _
  refine (sorted_setUnion hadd hkept).eq_of_mem_iff ht fun e => ?_
  rw [mem_setUnion hadd hkept, setDifference_eq_filter hs (sorted_missing hs)]
  simp only [newOrDiffer, missing, List.mem_filter, List.mem_map, decide_eq_true_eq, not_and,
    not_not]
  constructor
  · rintro (⟨hin, -⟩ | ⟨⟨hin, hkept⟩, hfresh⟩)
    · exact hin
    · obtain ⟨b, hb, hid⟩ := hkept ⟨e, hin, rfl⟩
      -- the element of the target with this id is not a new one, so it is `e`
      by_cases hbs : b ∈ src
      · rwa [← hs.eq_of_key_eq hbs hin hid]
      · exact absurd hid (hfresh b ⟨hb, hbs⟩)
  · intro hin
    by_cases hes : e ∈ src
    · refine .inr ⟨⟨hes, fun _ => ⟨e, hin, rfl⟩⟩, fun b hb hid => hb.2 ?_⟩
      rwa [ht.eq_of_key_eq hb.1 hin hid]
    · exact .inl ⟨hin, hes⟩

/-! #### The functions, with their short cuts and assertions -/

variable {old : List α} {same : Bool}

theorem computeCfgDiff_eq (hs : KeySorted k.getId src) (ht : KeySorted k.getId target)
    (hsame : same = true → src = target) :
    computeCfgDiff k src target same ([], []) =
      some (newOrDiffer src target, missing k src target) := by
  cases same with
  | true =>
    obtain rfl := hsame rfl
    have hadd : newOrDiffer src src = [] := List.filter_eq_nil_iff.mpr fun b hb => by simp [hb]
    have hrem : missing k src src = [] := List.filter_eq_nil_iff.mpr fun id hid => by simp [hid]
    rw [computeCfgDiff, if_pos rfl, hadd, hrem]
  | false =>
    simp only [computeCfgDiff, if_neg Bool.false_ne_true, Option.bind_eq_bind,
      assertThat_bind (isSorted hs), assertThat_bind (isSorted ht), walk_eq hs ht, List.nil_append,
      Option.pure_def]

omit [DecidableEq α] in
theorem setUnion_nil_left (ys : List α) : setUnion k.getId [] ys = ys := by
  rw [setUnion]

omit [DecidableEq α] in
theorem setDifference_nil_right (xs : List α) : setDifference k.getId xs [] = xs := by
  cases xs <;> rw [setDifference]

omit [DecidableEq α] in
theorem applyAddmodlistDiff_eq {add : List α} (hs : KeySorted k.getId src)
    (ha : KeySorted k.getId add) (hold : same = true → old = src) :
    applyAddmodlistDiff k src add old same = some (setUnion k.getId add src) := by
  by_cases hempty : add.length = 0
  · obtain rfl := List.length_eq_zero_iff.mp hempty
    rw [applyAddmodlistDiff, if_pos hempty, setUnion_nil_left]
    cases same with
    | true => rw [if_pos rfl, hold rfl]
    | false => rw [if_neg Bool.false_ne_true]
  · simp only [applyAddmodlistDiff, if_neg hempty, Option.bind_eq_bind,
      assertThat_bind (isSorted hs), assertThat_bind (isSorted ha), Option.pure_def]

omit [DecidableEq α] in
theorem applyRemlistDiff_eq {rem : List ι} (hs : KeySorted k.getId src)
    (hr : rem.Pairwise (· < ·)) (hold : same = true → old = src) :
    applyRemlistDiff k src rem old same = some (setDifference k.getId src rem) := by
  by_cases hempty : rem.length = 0
  · obtain rfl := List.length_eq_zero_iff.mp hempty
    rw [applyRemlistDiff, if_pos hempty, setDifference_nil_right]
    cases same with
    | true => rw [if_pos rfl, hold rfl]
    | false => rw [if_neg Bool.false_ne_true]
  · simp only [applyRemlistDiff, if_neg hempty, Option.bind_eq_bind,
      assertThat_bind (isSorted hs), assertThat_bind (hr.imp fun h => le_of_lt h), Option.pure_def]

omit [DecidableEq α] in
theorem applyAddmodremlistDiff_eq {add : List α} {rem : List ι} (hs : KeySorted k.getId src)
    (ha : KeySorted k.getId add) (hr : rem.Pairwise (· < ·)) (hold : same = true → old = src) :
    applyAddmodremlistDiff k src add rem old same =
      some (setUnion k.getId add (setDifference k.getId src rem)) := by
  by_cases hempty : add.length = 0 ∧ rem.length = 0
  · obtain rfl := List.length_eq_zero_iff.mp hempty.1
    obtain rfl := List.length_eq_zero_iff.mp hempty.2
    rw [applyAddmodremlistDiff, if_pos hempty, setDifference_nil_right, setUnion_nil_left]
    cases same with
    | true => rw [if_pos rfl, hold rfl]
    | false => rw [if_neg Bool.false_ne_true]
  · simp only [applyAddmodremlistDiff, if_neg hempty, Option.bind_eq_bind,
      assertThat_bind (isSorted hs), assertThat_bind (isSorted ha),
      assertThat_bind (hr.imp fun h => le_of_lt h), Option.pure_def]

end Inverse

/-! ### The list operations -/

section Map

/-- An operation on a list. -/
inductive Op (α ι : Type) where
  | addObj (v : α)
  | addObjId (id : ι)
  | remObjId (id : ι)

/-- What an operation gives: an iterator, or whether an object was removed. -/
inductive Out (α : Type) where
  | obj (it : Option α)
  | removed (found : Bool)

/-- One operation of the code. -/
def step [Inhabited α] (k : RrcObj α ι) (c : List α) : Op α ι → List α × Out α
  | .addObj v => ((addRrcObj k c v).1, .obj (addRrcObj k c v).2)
  | .addObjId id => ((addRrcObjId k c id).1, .obj (addRrcObjId k c id).2)
  | .remObjId id => ((remRrcObjId k c id).1, .removed (remRrcObjId k c id).2)

/-- The operation on a map from ids to objects. -/
def mapStep [Inhabited α] (k : RrcObj α ι) (m : ι → Option α) : Op α ι → (ι → Option α) × Out α
  | .addObj v => (Function.update m (k.getId v) (some v), .obj (some v))
  | .addObjId id =>
    let v := (m id).getD (k.setId default id)
    (Function.update m id (some v), .obj (some v))
  | .remObjId id => (Function.update m id none, .removed (m id).isSome)

variable {k : RrcObj α ι} {c : List α}

theorem sortedFindRrcObjId_of_mem (h : KeySorted k.getId c) {e : α} (he : e ∈ c) :
    ∃ front back, sortedFindRrcObjId k c (k.getId e) = some (front, e, back) ∧
      c = front ++ e :: back := by
  obtain ⟨front, back, rfl⟩ := List.append_of_mem he
  have hfront : ∀ a ∈ front, decide (k.getId a < k.getId e) = true := by
    intro a ha
    exact decide_eq_true ((List.pairwise_append.mp h).2.2 a ha e List.mem_cons_self)
  refine ⟨front, back, ?_, rfl⟩
  rw [sortedFindRrcObjId, List.span_eq_takeWhile_dropWhile, List.takeWhile_append_of_pos hfront,
    List.dropWhile_append_of_pos hfront]
  simp

theorem sortedFindRrcObjId_eq_none {id : ι} (hid : ∀ e ∈ c, k.getId e ≠ id) :
    sortedFindRrcObjId k c id = none := by
  rw [sortedFindRrcObjId, List.span_eq_takeWhile_dropWhile]
  cases hdrop : c.dropWhile fun e => decide (k.getId e < id) with
  | nil => rfl
  | cons e back =>
    have hmem : e ∈ c := (List.dropWhile_sublist _).subset (hdrop ▸ List.mem_cons_self)
    simp only
    rw [if_pos (hid e hmem)]

theorem lookupKey_eq_none {id : ι} (hid : ∀ e ∈ c, k.getId e ≠ id) :
    lookupKey k.getId c id = none :=
  List.find?_eq_none.mpr fun e he => by simpa using hid e he

/-- An object with a new id is pushed, and the list is sorted again. -/
theorem push_spec (h : KeySorted k.getId c) {v : α} (hv : ∀ e ∈ c, k.getId e ≠ k.getId v) :
    KeySorted k.getId (sortRrcObjs k (c ++ [v])) ∧
      lookupKey k.getId (sortRrcObjs k (c ++ [v])) =
        Function.update (lookupKey k.getId c) (k.getId v) (some v) ∧
      (sortedFindRrcObjId k (sortRrcObjs k (c ++ [v])) (k.getId v)).map (fun it => it.2.1) =
        some v := by
  have hnodup : ((c ++ [v]).map k.getId).Nodup := by
    rw [List.map_append, List.nodup_append]
    refine ⟨h.map_key.imp fun hlt => hlt.ne, List.nodup_singleton _, ?_⟩
    intro id hid id' hid'
    obtain ⟨e, he, rfl⟩ := List.mem_map.mp hid
    rw [List.mem_singleton.mp hid']
    exact hv e he
  have hsorted : KeySorted k.getId (sortRrcObjs k (c ++ [v])) := KeySorted.insertionSort hnodup
  have hmem (a : α) : a ∈ sortRrcObjs k (c ++ [v]) ↔ a ∈ c ∨ a = v := by
    rw [sortRrcObjs, List.mem_insertionSort, List.mem_append, List.mem_singleton]
  refine ⟨hsorted, lookupKey_eq_update h hsorted (by rintro a ⟨⟩; rfl) fun a => ?_, ?_⟩
  · rw [hmem, Option.some_inj, eq_comm (a := v), or_comm]
    exact or_congr_right ⟨fun ha => ⟨ha, hv a ha⟩, fun ha => ha.1⟩
  · obtain ⟨front, back, hfind, -⟩ := sortedFindRrcObjId_of_mem hsorted ((hmem v).mpr (.inr rfl))
    rw [hfind, Option.map_some]

/-- What one operation does to the list, it does to the map. -/
theorem step_spec [Inhabited α] (h : KeySorted k.getId c) (op : Op α ι) :
    KeySorted k.getId (step k c op).1 ∧
      lookupKey k.getId (step k c op).1 = (mapStep k (lookupKey k.getId c) op).1 ∧
      (step k c op).2 = (mapStep k (lookupKey k.getId c) op).2 := by
  cases op with
  | addObj v =>
    by_cases hid : ∃ e ∈ c, k.getId e = k.getId v
    · obtain ⟨e, he, heq⟩ := hid
      obtain ⟨front, back, hfind, hsplit⟩ := sortedFindRrcObjId_of_mem h he
      rw [heq] at hfind
      subst hsplit
      have hnew : KeySorted k.getId (front ++ v :: back) := h.replace heq.symm
      simp only [step, addRrcObj, hfind, mapStep, and_true]
      refine ⟨hnew, lookupKey_eq_update h hnew (by rintro a ⟨⟩; rfl) fun a => ?_⟩
      rw [← heq, ← h.mem_around_iff, Option.some_inj, List.mem_append, List.mem_cons,
        List.mem_append, eq_comm (a := v)]
      exact or_left_comm
    · have hv : ∀ e ∈ c, k.getId e ≠ k.getId v := fun e he heq => hid ⟨e, he, heq⟩
      obtain ⟨hsorted, hlookup, hfound⟩ := push_spec h hv
      simp only [step, addRrcObj, sortedFindRrcObjId_eq_none hv, mapStep, hfound]
      exact ⟨hsorted, hlookup, trivial⟩
  | addObjId id =>
    by_cases hid : ∃ e ∈ c, k.getId e = id
    · obtain ⟨e, he, rfl⟩ := hid
      obtain ⟨front, back, hfind, -⟩ := sortedFindRrcObjId_of_mem h he
      have hlookup : lookupKey k.getId c (k.getId e) = some e :=
        (lookupKey_eq_some_iff h).mpr ⟨he, rfl⟩
      simp only [step, addRrcObjId, hfind, mapStep, hlookup, Option.getD_some, and_true]
      exact ⟨h, by rw [← hlookup, Function.update_eq_self]⟩
    · have hnone : ∀ e ∈ c, k.getId e ≠ id := fun e he heq => hid ⟨e, he, heq⟩
      have hdefault := k.getId_setId default id
      obtain ⟨hsorted, hlookup, hfound⟩ := push_spec (v := k.setId default id) h
        (by rwa [hdefault])
      rw [hdefault] at hlookup hfound
      simp only [step, addRrcObjId, sortedFindRrcObjId_eq_none hnone, mapStep,
        lookupKey_eq_none hnone, Option.getD_none, hfound]
      exact ⟨hsorted, hlookup, trivial⟩
  | remObjId id =>
    by_cases hid : ∃ e ∈ c, k.getId e = id
    · obtain ⟨e, he, rfl⟩ := hid
      obtain ⟨front, back, hfind, hsplit⟩ := sortedFindRrcObjId_of_mem h he
      have hlookup : lookupKey k.getId c (k.getId e) = some e :=
        (lookupKey_eq_some_iff h).mpr ⟨he, rfl⟩
      subst hsplit
      have hsub : (front ++ back).Sublist (front ++ e :: back) :=
        (List.Sublist.refl front).append (List.sublist_cons_self e back)
      have hnew : KeySorted k.getId (front ++ back) := List.Pairwise.sublist hsub h
      simp only [step, remRrcObjId, hfind, mapStep, hlookup, Option.isSome_some, and_true]
      refine ⟨hnew, lookupKey_eq_update h hnew (by rintro a ⟨⟩) fun a => ?_⟩
      rw [h.mem_around_iff]
      exact ⟨.inr, fun hor => hor.resolve_left (by rintro ⟨⟩)⟩
    · have hnone : ∀ e ∈ c, k.getId e ≠ id := fun e he heq => hid ⟨e, he, heq⟩
      have hlookup := lookupKey_eq_none hnone
      simp only [step, remRrcObjId, sortedFindRrcObjId_eq_none hnone, mapStep, hlookup,
        Option.isSome_none, and_true]
      exact ⟨h, by rw [← hlookup, Function.update_eq_self]⟩

/-- The list after a sequence of operations. -/
abbrev after [Inhabited α] (k : RrcObj α ι) (c : List α) (ops : List (Op α ι)) : List α :=
  exec (fun c op => (step k c op).1) c ops

/-- The map after a sequence of operations. -/
abbrev mapAfter [Inhabited α] (k : RrcObj α ι) (m : ι → Option α) (ops : List (Op α ι)) :
    ι → Option α :=
  exec (fun m op => (mapStep k m op).1) m ops

/-- The list stays sorted, and acts like the map. -/
theorem run_spec [Inhabited α] (h : KeySorted k.getId c) (ops : List (Op α ι)) :
    (KeySorted k.getId (after k c ops) ∧
        lookupKey k.getId (after k c ops) = mapAfter k (lookupKey k.getId c) ops) ∧
      outputs (step k) c ops = outputs (mapStep k) (lookupKey k.getId c) ops :=
  outputs_simulation (fun c m => KeySorted k.getId c ∧ lookupKey k.getId c = m)
    (fun c m op hcm => by
      obtain ⟨hc, rfl⟩ := hcm
      obtain ⟨hsorted, hmap, hout⟩ := step_spec hc op
      exact ⟨⟨hsorted, hmap⟩, hout⟩) ops c _ ⟨h, rfl⟩

end Map

/-! ### Difference and application are inverse -/

/-- What `compute_cfg_diff` and the functions that apply a difference do for a pair of lists. -/
structure Inverse [DecidableEq α] (k : RrcObj α ι) (src target : List α) (same : Bool)
    (add : List α) (rem : List ι) : Prop where
  diff : computeCfgDiff k src target same ([], []) = some (add, rem)
  sorted_add : KeySorted k.getId add
  sorted_rem : rem.Pairwise (· < ·)
  mem_add : ∀ e, e ∈ add ↔ e ∈ target ∧ e ∉ src
  mem_rem : ∀ id, id ∈ rem ↔ (∃ e ∈ src, k.getId e = id) ∧ ∀ e ∈ target, k.getId e ≠ id
  apply_both : ∀ old inPlace, (inPlace = true → old = src) →
    applyAddmodremlistDiff k src add rem old inPlace = some target
  apply_one_by_one : ∀ old old' inPlace inPlace', (inPlace = true → old = src) →
    ∃ kept, applyRemlistDiff k src rem old inPlace = some kept ∧
      ((inPlace' = true → old' = kept) → applyAddmodlistDiff k kept add old' inPlace' = some target)

/-- **Differences and their application are inverse, and the lists are maps.** -/
theorem cfgDiff_inverse [DecidableEq α] [Inhabited α] (k : RrcObj α ι) :
    (∀ src target same, KeySorted k.getId src → KeySorted k.getId target →
      (same = true → src = target) → ∃ add rem, Inverse k src target same add rem) ∧
    ∀ c ops, KeySorted k.getId c →
      KeySorted k.getId (after k c ops) ∧
        lookupKey k.getId (after k c ops) = mapAfter k (lookupKey k.getId c) ops ∧
        outputs (step k) c ops = outputs (mapStep k) (lookupKey k.getId c) ops := by
  refine ⟨fun src target same hs ht hsame => ?_, fun c ops h => ?_⟩
  · have hadd : KeySorted k.getId (newOrDiffer src target) := sorted_newOrDiffer ht
    have hrem : (missing k src target).Pairwise (· < ·) := sorted_missing hs
    have hkept : KeySorted k.getId (setDifference k.getId src (missing k src target)) := by
      rw [setDifference_eq_filter hs hrem]
      exact hs.filter _
    have hinv := setUnion_setDifference hs ht
    refine ⟨newOrDiffer src target, missing k src target, ?_⟩
    exact { diff := computeCfgDiff_eq hs ht hsame
            sorted_add := hadd
            sorted_rem := hrem
            mem_add := fun e => by simp [newOrDiffer]
            mem_rem := fun id => by simp [missing]
            apply_both := fun old inPlace hold => by
              rw [applyAddmodremlistDiff_eq hs hadd hrem hold, hinv]
            apply_one_by_one := fun old old' inPlace inPlace' hold =>
              ⟨_, applyRemlistDiff_eq hs hrem hold, fun hold' => by
                rw [applyAddmodlistDiff_eq hkept hadd hold', hinv]⟩ }
  · obtain ⟨⟨hsorted, hmap⟩, hout⟩ := run_spec h ops
    exact ⟨hsorted, hmap, hout⟩

/-- Objects that are pairs of an id and a value: one is removed, one is new and one differs. -/
theorem cfgDiff_inverse_pairs :
    ∃ add rem, Inverse (⟨Prod.fst, fun a id => (id, a.2), fun _ _ => rfl⟩ : RrcObj (Nat × Nat) Nat)
      [(1, 5), (3, 6), (4, 7)] [(1, 5), (2, 0), (3, 9)] false add rem :=
  (cfgDiff_inverse ⟨Prod.fst, fun a id => (id, a.2), fun _ _ => rfl⟩).1 _ _ false
    (by decide) (by decide) (fun h => absurd h Bool.false_ne_true)

end Odss.Rrc.CfgUtils
