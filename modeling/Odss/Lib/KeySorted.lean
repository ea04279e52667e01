import Mathlib.Tactic

/-!
# `Odss.Lib.KeySorted`: lists sorted by a key

A list is sorted by a key when the keys increase strictly, so no key is there twice. `setUnion`
and `setDifference` are the merge walks of `std::set_union` and `std::set_difference` under the
order of the keys.

* `mem_setUnion`, `sorted_setUnion`: the union has the elements of the first list, and those of
  the second one whose keys the first one does not have.
* `setDifference_eq_filter`: the difference keeps the elements whose keys are not removed.
* `KeySorted.eq_of_mem_iff`: a sorted list is determined by its elements.
* `lookupKey_eq_update`: the lookups after an update, from the elements after it.
-/

set_option linter.all false

namespace Odss.Lib

variable {α ι : Type} [LinearOrder ι] (key : α → ι)

/-- The keys increase strictly. -/
def KeySorted (xs : List α) : Prop := xs.Pairwise fun a b => key a < key b

instance (xs : List α) : Decidable (KeySorted key xs) :=
  inferInstanceAs (Decidable (xs.Pairwise fun a b => key a < key b))

/-- `std::set_union`: of two elements with one key it takes the one of the first list. -/
def setUnion : List α → List α → List α
  | [], ys => ys
  | x :: xs, [] => x :: xs
  | x :: xs, y :: ys =>
    if key y < key x then y :: setUnion (x :: xs) ys
    else if key x < key y then x :: setUnion xs (y :: ys)
    else x :: setUnion xs ys
termination_by xs ys => xs.length + ys.length

/-- `std::set_difference` of a list and of keys -/
def setDifference : List α → List ι → List α
  | [], _ => []
  | x :: xs, [] => x :: xs
  | x :: xs, r :: rs =>
    if key x < r then x :: setDifference xs (r :: rs)
    else if r < key x then setDifference (x :: xs) rs
    else setDifference xs rs
termination_by xs rs => xs.length + rs.length

variable {key} {x : α} {xs ys : List α} {rs : List ι}

namespace KeySorted

theorem tail (h : KeySorted key (x :: xs)) : KeySorted key xs := (List.pairwise_cons.mp h).2

theorem head_lt (h : KeySorted key (x :: xs)) {a : α} (ha : a ∈ xs) : key x < key a :=
  (List.pairwise_cons.mp h).1 a ha

theorem cons (hx : ∀ a ∈ xs, key x < key a) (h : KeySorted key xs) : KeySorted key (x :: xs) :=
  List.pairwise_cons.mpr ⟨hx, h⟩

theorem filter (p : α → Bool) (h : KeySorted key xs) : KeySorted key (xs.filter p) :=
  List.Pairwise.filter p h

/-- Elements with one key are equal. -/
theorem eq_of_key_eq (h : KeySorted key xs) {a b : α} (ha : a ∈ xs) (hb : b ∈ xs)
    (hkey : key a = key b) : a = b := by
  induction xs with
  | nil => cases ha
  | cons x xs ih =>
    rcases List.mem_cons.mp ha with rfl | ha' <;> rcases List.mem_cons.mp hb with rfl | hb'
    · rfl
    · exact absurd hkey (h.head_lt hb').ne
    · exact absurd hkey (h.head_lt ha').ne'
    · exact ih h.tail ha' hb'

/-- A sorted list is determined by its elements. -/
theorem eq_of_mem_iff (hx : KeySorted key xs) (hy : KeySorted key ys)
    (h : ∀ a, a ∈ xs ↔ a ∈ ys) : xs = ys := by
  have : Std.Irrefl fun a b : α => key a < key b := ⟨fun a => lt_irrefl (key a)⟩
  have : Std.Antisymm fun a b : α => key a < key b :=
    ⟨fun a b hab hba => absurd (lt_trans hab hba) (lt_irrefl _)⟩
  exact List.Pairwise.eq_of_mem_iff hx hy h

theorem map_key (h : KeySorted key xs) : (xs.map key).Pairwise (· < ·) :=
  List.pairwise_map.mpr h

/-- Around an element there are the others. -/
theorem mem_around_iff {front back : List α} {e a : α} (h : KeySorted key (front ++ e :: back)) :
    a ∈ front ++ back ↔ a ∈ front ++ e :: back ∧ key a ≠ key e := by
  obtain ⟨-, hback, hfront⟩ := List.pairwise_append.mp h
  simp only [List.mem_append, List.mem_cons]
  constructor
  · rintro (ha | ha)
    · exact ⟨.inl ha, (hfront a ha e List.mem_cons_self).ne⟩
    · exact ⟨.inr (.inr ha), ((List.pairwise_cons.mp hback).1 a ha).ne'⟩
  · rintro ⟨ha | rfl | ha, hne⟩
    · exact .inl ha
    · exact absurd rfl hne
    · exact .inr ha

/-- An element may be replaced by one with its key. -/
theorem replace {front back : List α} {e v : α} (h : KeySorted key (front ++ e :: back))
    (hv : key v = key e) : KeySorted key (front ++ v :: back) := by
  have hkeys : (front ++ v :: back).map key = (front ++ e :: back).map key := by
    simp only [List.map_append, List.map_cons, hv]
  exact List.pairwise_map.mp (hkeys ▸ h.map_key)

/-- Sorting by the keys, when no key is there twice. -/
theorem insertionSort (h : (xs.map key).Nodup) :
    KeySorted key (xs.insertionSort fun a b => key a ≤ key b) := by
  have : Std.Total fun a b : α => key a ≤ key b := ⟨fun a b => le_total _ _⟩
  have : IsTrans α fun a b => key a ≤ key b := ⟨fun _ _ _ => le_trans⟩
  have hnodup : ((xs.insertionSort fun a b => key a ≤ key b).map key).Nodup :=
    ((List.perm_insertionSort (fun a b => key a ≤ key b) xs).map key).nodup_iff.mpr h
  refine ((List.pairwise_insertionSort (fun a b => key a ≤ key b) xs).and
    (List.pairwise_map.mp hnodup)).imp fun hab => ?_
  exact lt_of_le_of_ne hab.1 hab.2

end KeySorted

/-! ### Lookups -/

/-- The element with the key `k`. -/
def lookupKey (key : α → ι) (xs : List α) (k : ι) : Option α := xs.find? fun a => key a = k

theorem lookupKey_eq_some_iff (h : KeySorted key xs) {k : ι} {a : α} :
    lookupKey key xs k = some a ↔ a ∈ xs ∧ key a = k := by
  constructor
  · intro hfind
    exact ⟨List.mem_of_find?_eq_some hfind, by simpa using List.find?_some hfind⟩
  · rintro ⟨ha, rfl⟩
    cases hfind : lookupKey key xs (key a) with
    | none => simpa using List.find?_eq_none.mp hfind a ha
    | some b =>
      have hb : key b = key a := by simpa using List.find?_some hfind
      rw [h.eq_of_key_eq (List.mem_of_find?_eq_some hfind) ha hb]

/-- What the members of a sorted list are says what its lookups are. -/
theorem lookupKey_eq_update (hx : KeySorted key xs) (hy : KeySorted key ys) {k : ι} {r : Option α}
    (hr : ∀ a, r = some a → key a = k)
    (h : ∀ a, a ∈ ys ↔ r = some a ∨ (a ∈ xs ∧ key a ≠ k)) :
    lookupKey key ys = Function.update (lookupKey key xs) k r := by
  funext j
  refine Option.ext fun a => ?_
  rw [lookupKey_eq_some_iff hy, h]
  by_cases hj : j = k
  · subst hj
    rw [Function.update_self]
    exact ⟨fun ⟨hor, hkey⟩ => hor.resolve_right fun hin => hin.2 hkey,
      fun hra => ⟨.inl hra, hr a hra⟩⟩
  · rw [Function.update_of_ne hj, lookupKey_eq_some_iff hx]
    constructor
    · rintro ⟨hra | ⟨hin, -⟩, hkey⟩
      · exact absurd (hkey.symm.trans (hr a hra)) hj
      · exact ⟨hin, hkey⟩
    · rintro ⟨hin, hkey⟩
      exact ⟨.inr ⟨hin, fun hk => hj (hkey.symm.trans hk)⟩, hkey⟩

/-! ### The walks -/

/-- The union of two sorted lists. -/
theorem mem_setUnion (hx : KeySorted key xs) (hy : KeySorted key ys) {a : α} :
    a ∈ setUnion key xs ys ↔ a ∈ xs ∨ (a ∈ ys ∧ ∀ b ∈ xs, key b ≠ key a) := by
  fun_induction setUnion key xs ys with
  | case1 ys => simp
  | case2 x xs => simp
  | case3 x xs y ys hlt ih =>
    have hfresh : ∀ b ∈ x :: xs, key b ≠ key y := by
      intro b hb
      rcases List.mem_cons.mp hb with rfl | hb
      · exact hlt.ne'
      · exact (lt_trans hlt (hx.head_lt hb)).ne'
    rw [List.mem_cons, ih hx hy.tail, List.mem_cons (a := a) (b := y)]
    constructor
    · rintro (rfl | hin | ⟨hin, hkey⟩)
      · exact .inr ⟨.inl rfl, hfresh⟩
      · exact .inl hin
      · exact .inr ⟨.inr hin, hkey⟩
    · rintro (hin | ⟨rfl | hin, hkey⟩)
      · exact .inr (.inl hin)
      · exact .inl rfl
      · exact .inr (.inr ⟨hin, hkey⟩)
  | case4 x xs y ys hge hlt ih =>
    have hbelow : ∀ b ∈ y :: ys, key x ≠ key b := by
      intro b hb
      rcases List.mem_cons.mp hb with rfl | hb
      · exact hlt.ne
      · exact (lt_trans hlt (hy.head_lt hb)).ne
    rw [List.mem_cons, ih hx.tail hy, List.mem_cons (a := a) (b := x)]
    constructor
    · rintro (rfl | hin | ⟨hin, hkey⟩)
      · exact .inl (.inl rfl)
      · exact .inl (.inr hin)
      · exact .inr ⟨hin, List.forall_mem_cons.mpr ⟨hbelow a hin, hkey⟩⟩
    · rintro ((rfl | hin) | ⟨hin, hkey⟩)
      · exact .inl rfl
      · exact .inr (.inl hin)
      · exact .inr (.inr ⟨hin, (List.forall_mem_cons.mp hkey).2⟩)
  | case5 x xs y ys hge hle ih =>
    have hsame : key x = key y := le_antisymm (not_lt.mp hge) (not_lt.mp hle)
    rw [List.mem_cons, ih hx.tail hy.tail, List.mem_cons (a := a) (b := x)]
    constructor
    · rintro (rfl | hin | ⟨hin, hkey⟩)
      · exact .inl (.inl rfl)
      · exact .inl (.inr hin)
      · exact .inr ⟨List.mem_cons_of_mem y hin,
          List.forall_mem_cons.mpr ⟨hsame ▸ (hy.head_lt hin).ne, hkey⟩⟩
    · rintro ((rfl | hin) | ⟨hin, hkey⟩)
      · exact .inl rfl
      · exact .inr (.inl hin)
      · obtain ⟨hne, hkey⟩ := List.forall_mem_cons.mp hkey
        rcases List.mem_cons.mp hin with rfl | hin
        · exact absurd hsame hne
        · exact .inr (.inr ⟨hin, hkey⟩)

theorem sorted_setUnion (hx : KeySorted key xs) (hy : KeySorted key ys) :
    KeySorted key (setUnion key xs ys) := by
  fun_induction setUnion key xs ys with
  | case1 ys => exact hy
  | case2 x xs => exact hx
  | case3 x xs y ys hlt ih =>
    refine (ih hx hy.tail).cons fun a ha => ?_
    rcases (mem_setUnion hx hy.tail).mp ha with hin | ⟨hin, -⟩
    · rcases List.mem_cons.mp hin with rfl | hin
      · exact hlt
      · exact lt_trans hlt (hx.head_lt hin)
    · exact hy.head_lt hin
  | case4 x xs y ys hge hlt ih =>
    refine (ih hx.tail hy).cons fun a ha => ?_
    rcases (mem_setUnion hx.tail hy).mp ha with hin | ⟨hin, -⟩
    · exact hx.head_lt hin
    · rcases List.mem_cons.mp hin with rfl | hin
      · exact hlt
      · exact lt_trans hlt (hy.head_lt hin)
  | case5 x xs y ys hge hle ih =>
    have hsame : key x = key y := le_antisymm (not_lt.mp hge) (not_lt.mp hle)
    refine (ih hx.tail hy.tail).cons fun a ha => ?_
    rcases (mem_setUnion hx.tail hy.tail).mp ha with hin | ⟨hin, -⟩
    · exact hx.head_lt hin
    · exact hsame ▸ hy.head_lt hin

/-- The difference keeps the elements whose keys are not removed. -/
theorem setDifference_eq_filter (hx : KeySorted key xs) (hr : rs.Pairwise (· < ·)) :
    setDifference key xs rs = xs.filter fun a => key a ∉ rs := by
  fun_induction setDifference key xs rs with
  | case1 rs => rfl
  | case2 x xs => simp
  | case3 x xs r rs hlt ih =>
    have hkeep : key x ∉ r :: rs := by
      intro hin
      rcases List.mem_cons.mp hin with rfl | hin
      · exact lt_irrefl _ hlt
      · exact absurd (lt_trans hlt ((List.pairwise_cons.mp hr).1 _ hin)) (lt_irrefl _)
    rw [List.filter_cons_of_pos (by simpa using hkeep), ih hx.tail hr]
  | case4 x xs r rs hge hlt ih =>
    rw [ih hx (List.pairwise_cons.mp hr).2]
    refine List.filter_congr fun a ha => ?_
    have hne : key a ≠ r := by
      rcases List.mem_cons.mp ha with rfl | ha
      · exact hlt.ne'
      · exact (lt_trans hlt (hx.head_lt ha)).ne'
    simp [hne]
  | case5 x xs r rs hge hle ih =>
    have hsame : key x = r := le_antisymm (not_lt.mp hle) (not_lt.mp hge)
    rw [List.filter_cons_of_neg (by simp [hsame]), ih hx.tail (List.pairwise_cons.mp hr).2]
    refine List.filter_congr fun a ha => ?_
    have hne : key a ≠ r := hsame ▸ (hx.head_lt ha).ne'
    simp [hne]

end Odss.Lib
