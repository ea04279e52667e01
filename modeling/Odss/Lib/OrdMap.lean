import Mathlib.Tactic

/-!
# `Odss.Lib.OrdMap`: ordered maps

`OrdMap κ ν` is a finite map over a linearly ordered key type, kept as a list of entries in
strictly increasing key order. The order is a field, so every map iterates its keys in
order and holds each key once. `insert` is assignment through a subscript, and `erase`
removes one key.

* `find?_insert` and `find?_erase` say what one key holds after an update.
* `mem_entries_iff` ties the entry list to `find?`.
* `nodup_keys` says that the iteration meets each key once.
* `flatten_values_insert_getD` and `flatten_values_foldl_erase` are about the concatenation of the
  values of a map of lists.
-/

set_option linter.all false

namespace Odss.Lib

/-- A finite map with its entries in strictly increasing key order. -/
structure OrdMap (κ ν : Type) [LinearOrder κ] where
  entries : List (κ × ν)
  sorted : entries.Pairwise (fun a b => a.1 < b.1)

namespace OrdMap

variable {κ ν : Type} [LinearOrder κ]

/-- The map with no entry. -/
def empty : OrdMap κ ν := ⟨[], .nil⟩

instance : EmptyCollection (OrdMap κ ν) := ⟨empty⟩

@[ext] theorem ext {m m' : OrdMap κ ν} (h : m.entries = m'.entries) : m = m' := by
  cases m; cases m'; cases h; rfl

instance [DecidableEq ν] : DecidableEq (OrdMap κ ν) := fun m m' =>
  decidable_of_iff (m.entries = m'.entries) ⟨ext, fun h => h ▸ rfl⟩

/-- The value at `k` in an entry list. -/
def lookup (k : κ) : List (κ × ν) → Option ν
  | [] => none
  | (k', v) :: es => if k = k' then some v else lookup k es

/-- Ordered insertion. An entry with the same key is replaced. -/
def insertEntry (k : κ) (v : ν) : List (κ × ν) → List (κ × ν)
  | [] => [(k, v)]
  | (k', v') :: es =>
    if k < k' then (k, v) :: (k', v') :: es
    else if k = k' then (k, v) :: es
    else (k', v') :: insertEntry k v es

theorem mem_insertEntry {k : κ} {v : ν} {e : κ × ν} :
    ∀ {es : List (κ × ν)}, e ∈ insertEntry k v es → e = (k, v) ∨ e ∈ es := by
  intro es
  induction es with
  | nil => intro h; simpa [insertEntry] using h
  | cons e' es ih =>
    obtain ⟨k', v'⟩ := e'
    intro h
    simp only [insertEntry] at h
    split_ifs at h with hlt heq
    · simpa using h
    · rcases List.mem_cons.mp h with rfl | h
      · exact Or.inl rfl
      · exact Or.inr (List.mem_cons_of_mem _ h)
    · rcases List.mem_cons.mp h with rfl | h
      · exact Or.inr List.mem_cons_self
      · exact (ih h).imp id (List.mem_cons_of_mem _)

theorem sorted_insertEntry (k : κ) (v : ν) :
    ∀ {es : List (κ × ν)}, es.Pairwise (fun a b => a.1 < b.1) →
      (insertEntry k v es).Pairwise (fun a b => a.1 < b.1) := by
  intro es
  induction es with
  | nil => intro _; simp [insertEntry]
  | cons e es ih =>
    obtain ⟨k', v'⟩ := e
    intro h
    obtain ⟨hhead, htail⟩ := List.pairwise_cons.mp h
    simp only [insertEntry]
    split_ifs with hlt heq
    · refine List.pairwise_cons.mpr ⟨fun e he => ?_, h⟩
      rcases List.mem_cons.mp he with rfl | he
      · exact hlt
      · exact lt_trans hlt (hhead e he)
    · exact List.pairwise_cons.mpr ⟨fun e he => heq ▸ hhead e he, htail⟩
    · refine List.pairwise_cons.mpr ⟨fun e he => ?_, ih htail⟩
      rcases mem_insertEntry he with rfl | he
      · exact lt_of_le_of_ne (not_lt.mp hlt) (Ne.symm heq)
      · exact hhead e he

/-- The value at `k`, if the map has the key. -/
def find? (m : OrdMap κ ν) (k : κ) : Option ν := lookup k m.entries

/-- Whether the map has the key `k`. -/
def contains (m : OrdMap κ ν) (k : κ) : Bool := (m.find? k).isSome

/-- The map with `v` at `k`. -/
def insert (m : OrdMap κ ν) (k : κ) (v : ν) : OrdMap κ ν :=
  ⟨insertEntry k v m.entries, sorted_insertEntry k v m.sorted⟩

/-- The map without the key `k`. -/
def erase (m : OrdMap κ ν) (k : κ) : OrdMap κ ν :=
  ⟨m.entries.filter (fun e => e.1 ≠ k), m.sorted.filter _⟩

/-- The map with `f` applied to every value and its key. -/
def mapValues (m : OrdMap κ ν) (f : κ → ν → ν) : OrdMap κ ν :=
  ⟨m.entries.map fun e => (e.1, f e.1 e.2), List.pairwise_map.mpr m.sorted⟩

/-- The keys, in increasing order. -/
def keys (m : OrdMap κ ν) : List κ := m.entries.map Prod.fst

/-- The values, in the order of their keys. -/
def values (m : OrdMap κ ν) : List ν := m.entries.map Prod.snd

/-- The number of entries. -/
def size (m : OrdMap κ ν) : Nat := m.entries.length

/-! ### Lookups -/

theorem lookup_insertEntry (k k' : κ) (v : ν) (es : List (κ × ν)) :
    lookup k' (insertEntry k v es) = if k' = k then some v else lookup k' es := by
  induction es with
  | nil => simp [insertEntry, lookup]
  | cons e es ih =>
    obtain ⟨k₀, v₀⟩ := e
    simp only [insertEntry]
    split_ifs with hlt heq h h h <;> simp_all [lookup]

@[simp] theorem find?_empty (k : κ) : (∅ : OrdMap κ ν).find? k = none := rfl

theorem find?_insert (m : OrdMap κ ν) (k k' : κ) (v : ν) :
    (m.insert k v).find? k' = if k' = k then some v else m.find? k' :=
  lookup_insertEntry k k' v m.entries

@[simp] theorem find?_insert_self (m : OrdMap κ ν) (k : κ) (v : ν) :
    (m.insert k v).find? k = some v := by
  simp [find?_insert]

theorem find?_insert_ne (m : OrdMap κ ν) {k k' : κ} (v : ν) (h : k' ≠ k) :
    (m.insert k v).find? k' = m.find? k' := by
  simp [find?_insert, h]

theorem lookup_filter_ne (k k' : κ) (es : List (κ × ν)) :
    lookup k' (es.filter (fun e => e.1 ≠ k)) = if k' = k then none else lookup k' es := by
  induction es with
  | nil => simp [lookup]
  | cons e es ih =>
    obtain ⟨k₀, v₀⟩ := e
    rw [List.filter_cons]
    by_cases h : k' = k
    · subst h
      by_cases hk : k₀ = k'
      · simpa [hk] using ih
      · simpa [hk, Ne.symm hk, lookup] using ih
    · by_cases hk : k₀ = k
      · simpa [hk, h, lookup] using ih
      · simp only [hk, h, lookup, ne_eq, not_false_eq_true, decide_true, if_true, if_false] at ih ⊢
        rw [ih]

theorem find?_erase (m : OrdMap κ ν) (k k' : κ) :
    (m.erase k).find? k' = if k' = k then none else m.find? k' :=
  lookup_filter_ne k k' m.entries

@[simp] theorem find?_erase_self (m : OrdMap κ ν) (k : κ) : (m.erase k).find? k = none := by
  simp [find?_erase]

theorem find?_erase_ne (m : OrdMap κ ν) {k k' : κ} (h : k' ≠ k) :
    (m.erase k).find? k' = m.find? k' := by
  simp [find?_erase, h]

/-- Removal of an absent key changes nothing. -/
theorem erase_of_find?_eq_none (m : OrdMap κ ν) {k : κ} (h : m.find? k = none) :
    m.erase k = m := by
  have key : ∀ es : List (κ × ν), lookup k es = none → es.filter (fun e => e.1 ≠ k) = es := by
    intro es
    induction es with
    | nil => intro _; rfl
    | cons e es ih =>
      intro h
      simp only [lookup] at h
      split_ifs at h with hk
      rw [List.filter_cons, if_pos (by simpa using Ne.symm hk), ih h]
  exact ext (key m.entries h)

/-! ### Entries -/

theorem mem_of_lookup_eq_some {k : κ} {v : ν} :
    ∀ {es : List (κ × ν)}, lookup k es = some v → (k, v) ∈ es := by
  intro es
  induction es with
  | nil => intro h; simp [lookup] at h
  | cons e es ih =>
    obtain ⟨k₀, v₀⟩ := e
    intro h
    simp only [lookup] at h
    split_ifs at h with hk
    · cases h
      exact hk ▸ List.mem_cons_self
    · exact List.mem_cons_of_mem _ (ih h)

theorem lookup_eq_some_of_mem {k : κ} {v : ν} :
    ∀ {es : List (κ × ν)}, es.Pairwise (fun a b => a.1 < b.1) → (k, v) ∈ es →
      lookup k es = some v := by
  intro es
  induction es with
  | nil => intro _ h; cases h
  | cons e es ih =>
    obtain ⟨k₀, v₀⟩ := e
    intro hs h
    obtain ⟨hhead, htail⟩ := List.pairwise_cons.mp hs
    simp only [lookup]
    rcases List.mem_cons.mp h with h | h
    · cases h
      simp
    · rw [if_neg (ne_of_gt (hhead _ h))]
      exact ih htail h

/-- An entry is in the list exactly when the lookup of its key gives its value. -/
theorem mem_entries_iff (m : OrdMap κ ν) (k : κ) (v : ν) :
    (k, v) ∈ m.entries ↔ m.find? k = some v :=
  ⟨lookup_eq_some_of_mem m.sorted, mem_of_lookup_eq_some⟩

/-- Assignment to a present key keeps what the iteration computes from each entry, when the
new value gives the same. -/
theorem map_entries_insert {β : Type} (m : OrdMap κ ν) {k : κ} {v v' : ν} (f : κ × ν → β)
    (h : m.find? k = some v') (hf : f (k, v) = f (k, v')) :
    (m.insert k v).entries.map f = m.entries.map f := by
  have key : ∀ es : List (κ × ν), es.Pairwise (fun a b => a.1 < b.1) → (k, v') ∈ es →
      (insertEntry k v es).map f = es.map f := by
    intro es
    induction es with
    | nil => intro _ hm; cases hm
    | cons e es ih =>
      obtain ⟨k₀, v₀⟩ := e
      intro hs hm
      obtain ⟨hhead, htail⟩ := List.pairwise_cons.mp hs
      rcases List.mem_cons.mp hm with he | hm
      · cases he
        rw [insertEntry, if_neg (lt_irrefl k), if_pos rfl, List.map_cons, List.map_cons, hf]
      · have hlt : k₀ < k := hhead _ hm
        simp [insertEntry, not_lt_of_gt hlt, ne_of_gt hlt, ih htail hm]
  exact key m.entries m.sorted (mem_of_lookup_eq_some h)

/-- Assignment of the value that is there changes nothing. -/
theorem insert_of_find?_eq_some (m : OrdMap κ ν) {k : κ} {v : ν} (h : m.find? k = some v) :
    m.insert k v = m := by
  have hmap := map_entries_insert m id h rfl
  rw [List.map_id, List.map_id] at hmap
  exact ext hmap

/-- The iteration meets each key once. -/
theorem nodup_keys (m : OrdMap κ ν) : m.keys.Nodup :=
  List.pairwise_map.mpr (m.sorted.imp fun h => ne_of_lt h)

theorem mem_keys_iff (m : OrdMap κ ν) (k : κ) : k ∈ m.keys ↔ ∃ v, m.find? k = some v := by
  simp only [keys, List.mem_map, Prod.exists, exists_and_right, exists_eq_right,
    mem_entries_iff]

/-- Removal of the first key leaves the other entries. -/
theorem entries_erase_head {m : OrdMap κ ν} {k : κ} {v : ν} {es : List (κ × ν)}
    (h : m.entries = (k, v) :: es) : (m.erase k).entries = es := by
  have hsorted := m.sorted
  rw [h] at hsorted
  have hrest := (List.pairwise_cons.mp hsorted).1
  show m.entries.filter (fun e => e.1 ≠ k) = es
  rw [h, List.filter_cons_of_neg (by simp)]
  exact List.filter_eq_self.mpr fun e he => decide_eq_true (ne_of_gt (hrest e he))

theorem contains_iff (m : OrdMap κ ν) (k : κ) :
    m.contains k = true ↔ ∃ v, m.find? k = some v := by
  simp [contains, Option.isSome_iff_exists]

/-- The iteration starts at the smallest key. -/
theorem head?_keys_eq_some_iff (m : OrdMap κ ν) (k : κ) :
    m.keys.head? = some k ↔ m.contains k = true ∧ ∀ j, m.contains j = true → k ≤ j := by
  have hsorted : m.keys.Pairwise (· < ·) := List.pairwise_map.mpr m.sorted
  simp only [contains_iff, ← mem_keys_iff]
  cases hkeys : m.keys with
  | nil => simp
  | cons k₀ ks =>
    rw [hkeys] at hsorted
    have hle : ∀ j ∈ k₀ :: ks, k₀ ≤ j := by
      intro j hj
      rcases List.mem_cons.mp hj with rfl | hj
      · exact le_refl j
      · exact le_of_lt ((List.pairwise_cons.mp hsorted).1 j hj)
    rw [List.head?_cons, Option.some.injEq]
    constructor
    · rintro rfl
      exact ⟨List.mem_cons_self, hle⟩
    · rintro ⟨hmem, hmin⟩
      exact le_antisymm (hle k hmem) (hmin k₀ List.mem_cons_self)

/-! ### Maps of lists -/

section Lists
variable {α : Type}

/-- Assignment of the value that is read through the subscript keeps the concatenation of the
values. -/
theorem flatten_values_insert_getD (m : OrdMap κ (List α)) (k : κ) :
    (m.insert k ((m.find? k).getD [])).values.flatten = m.values.flatten := by
  cases h : m.find? k with
  | some v => rw [Option.getD_some, values, map_entries_insert m Prod.snd h rfl, values]
  | none =>
    have key : ∀ es : List (κ × List α), lookup k es = none →
        ((insertEntry k [] es).map Prod.snd).flatten = (es.map Prod.snd).flatten := by
      intro es
      induction es with
      | nil => intro _; rfl
      | cons e es ih =>
        obtain ⟨k₀, v₀⟩ := e
        intro h
        simp only [lookup] at h
        split_ifs at h with hk
        simp only [insertEntry, hk, if_false]
        split_ifs
        · rfl
        · simp [ih h]
    exact key m.entries h

/-- Removal of several keys is a filter of the entries. -/
theorem entries_foldl_erase (ks : List κ) (m : OrdMap κ ν) :
    (ks.foldl erase m).entries = m.entries.filter fun e => e.1 ∉ ks := by
  induction ks generalizing m with
  | nil => simp
  | cons k ks ih =>
    rw [List.foldl_cons, ih, erase, List.filter_filter]
    simp [Bool.and_comm]

theorem find?_foldl_erase (ks : List κ) (m : OrdMap κ ν) (k : κ) :
    (ks.foldl erase m).find? k = if k ∈ ks then none else m.find? k := by
  induction ks generalizing m with
  | nil => simp
  | cons k' ks ih =>
    rw [List.foldl_cons, ih, find?_erase]
    by_cases h : k = k' <;> simp [h]

/-- A filter keeps the concatenation of the lists exactly when what it drops is empty. -/
theorem flatMap_filter_eq_iff {β : Type} (p : β → Bool) (f : β → List α) (l : List β) :
    (l.filter p).flatMap f = l.flatMap f ↔ ∀ b ∈ l, p b = false → f b = [] := by
  have hle : ∀ l : List β, ((l.filter p).flatMap f).length ≤ (l.flatMap f).length := by
    intro l
    induction l with
    | nil => simp
    | cons b l ih =>
      rw [List.flatMap_cons, List.length_append]
      cases hb : p b with
      | true =>
        rw [List.filter_cons_of_pos hb, List.flatMap_cons, List.length_append]
        omega
      | false =>
        rw [List.filter_cons_of_neg (by simp [hb])]
        omega
  induction l with
  | nil => simp
  | cons b l ih =>
    cases hb : p b with
    | true => simp [hb, ih]
    | false =>
      rw [List.filter_cons_of_neg (by simp [hb]), List.flatMap_cons, List.forall_mem_cons]
      constructor
      · intro h
        -- The shorter list cannot make up for what `f b` adds.
        have hnil : f b = [] := by
          have hlen := congrArg List.length h
          rw [List.length_append] at hlen
          have := hle l
          exact List.eq_nil_of_length_eq_zero (by omega)
        exact ⟨fun _ => hnil, ih.mp (by rw [h, hnil, List.nil_append])⟩
      · intro h
        rw [h.1 hb, List.nil_append]
        exact ih.mpr h.2

/-- Removal of keys keeps the concatenation of the values exactly when the removed values are
empty. -/
theorem flatten_values_foldl_erase (ks : List κ) (m : OrdMap κ (List α)) :
    (ks.foldl erase m).values.flatten = m.values.flatten ↔
      ∀ k ∈ ks, (m.find? k).getD [] = [] := by
  rw [values, values, entries_foldl_erase, ← List.flatMap_def, ← List.flatMap_def,
    flatMap_filter_eq_iff]
  constructor
  · intro h k hk
    cases hv : m.find? k with
    | none => rfl
    | some v => exact h (k, v) ((mem_entries_iff m k v).mpr hv) (by simpa using hk)
  · rintro h ⟨k, v⟩ he hk
    have hv := h k (by simpa using hk)
    rw [(mem_entries_iff m k v).mp he] at hv
    exact hv

end Lists

end OrdMap

end Odss.Lib
