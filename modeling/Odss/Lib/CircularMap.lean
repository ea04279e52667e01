import Mathlib.Tactic

/-!
# `Odss.Lib.CircularMap`: maps with one slot for each residue

`CircularMap N ν` maps numbers to values and has one slot for each residue modulo `N`. Two
keys of the same residue share a slot, so at most one of them is present. `overwrite` puts
a key into its slot whatever the slot holds.

* `find?_overwrite`, `find?_erase`, `find?_modify` and `find?_mapValues` say what a key holds after an update.
* `slot?_eq_none_iff` says when a slot is free.
-/

set_option linter.all false

namespace Odss.Lib

/-- A map whose keys have distinct residues modulo `N`. -/
structure CircularMap (N : Nat) (ν : Type) where
  entries : List (Nat × ν)
  distinct : entries.Pairwise (fun a b => a.1 % N ≠ b.1 % N)

namespace CircularMap

variable {N : Nat} {ν : Type}

theorem ext {m m' : CircularMap N ν} (h : m.entries = m'.entries) : m = m' := by
  cases m
  cases m'
  cases h
  rfl

/-- The map with no entry. -/
def empty : CircularMap N ν := ⟨[], .nil⟩

instance : EmptyCollection (CircularMap N ν) := ⟨empty⟩

/-- The value at the key `k`, if it is present. -/
def find? (m : CircularMap N ν) (k : Nat) : Option ν :=
  (m.entries.find? fun e => e.1 == k).map Prod.snd

/-- Whether the key `k` is present. -/
def contains (m : CircularMap N ν) (k : Nat) : Bool := (m.find? k).isSome

/-- What the slot of the key `k` holds. -/
def slot? (m : CircularMap N ν) (k : Nat) : Option (Nat × ν) :=
  m.entries.find? fun e => e.1 % N == k % N

/-- The number of entries. -/
def size (m : CircularMap N ν) : Nat := m.entries.length

/-- The map without the key `k`. -/
def erase (m : CircularMap N ν) (k : Nat) : CircularMap N ν :=
  ⟨m.entries.filter fun e => e.1 != k, m.distinct.filter _⟩

/-- The map with `v` at `k`, in place of what the slot held. -/
def overwrite (m : CircularMap N ν) (k : Nat) (v : ν) : CircularMap N ν where
  entries := (k, v) :: m.entries.filter fun e => e.1 % N != k % N
  distinct := List.pairwise_cons.mpr
    ⟨fun e he => by simpa using Ne.symm (by simpa using (List.mem_filter.mp he).2),
      m.distinct.filter _⟩

/-- The map with `f` applied to the value at `k`. -/
def modify (m : CircularMap N ν) (k : Nat) (f : ν → ν) : CircularMap N ν where
  entries := m.entries.map fun e => if e.1 = k then (e.1, f e.2) else e
  distinct := by
    refine List.pairwise_map.mpr (m.distinct.imp fun {a b} h => ?_)
    split <;> split <;> exact h

/-- The map with `f` applied to every value and its key. -/
def mapValues (m : CircularMap N ν) (f : Nat → ν → ν) : CircularMap N ν where
  entries := m.entries.map fun e => (e.1, f e.1 e.2)
  distinct := List.pairwise_map.mpr m.distinct

/-! ### Lookups -/

@[simp] theorem contains_empty (k : Nat) : (∅ : CircularMap N ν).contains k = false := rfl

theorem contains_iff {m : CircularMap N ν} {k : Nat} :
    m.contains k = true ↔ ∃ v, m.find? k = some v := by
  rw [contains, Option.isSome_iff_exists]

theorem contains_iff_mem {m : CircularMap N ν} {k : Nat} :
    m.contains k = true ↔ ∃ v, (k, v) ∈ m.entries := by
  simp only [contains, find?, Option.isSome_map, List.find?_isSome, beq_iff_eq, Prod.exists]
  constructor
  · rintro ⟨k', v, hm, rfl⟩
    exact ⟨v, hm⟩
  · rintro ⟨v, hm⟩
    exact ⟨k, v, hm, rfl⟩

theorem find?_erase (m : CircularMap N ν) (k k' : Nat) :
    (m.erase k).find? k' = if k' = k then none else m.find? k' := by
  simp only [find?, erase, List.find?_filter]
  by_cases h : k' = k
  · rw [if_pos h, Option.map_eq_none_iff, List.find?_eq_none]
    intro e _
    simp [h]
  · rw [if_neg h]
    congr 2
    funext e
    by_cases he : e.1 = k'
    · simp [he, h]
    · simp [he]

theorem find?_overwrite (m : CircularMap N ν) (k k' : Nat) (v : ν) :
    (m.overwrite k v).find? k' =
      if k' = k then some v else if k' % N = k % N then none else m.find? k' := by
  simp only [find?, overwrite, List.find?_cons]
  by_cases h : k' = k
  · simp [h]
  · have hkk : (k == k') = false := by simpa using Ne.symm h
    rw [if_neg h]
    simp only [hkk, List.find?_filter]
    by_cases hN : k' % N = k % N
    · rw [if_pos hN, Option.map_eq_none_iff, List.find?_eq_none]
      intro e _
      simp only [bne_iff_ne, beq_iff_eq, decide_eq_true_eq, not_and]
      rintro hne rfl
      exact hne hN
    · rw [if_neg hN]
      congr 2
      funext e
      by_cases he : e.1 = k'
      · simp [he, hN]
      · simp [he]

@[simp] theorem find?_overwrite_self (m : CircularMap N ν) (k : Nat) (v : ν) :
    (m.overwrite k v).find? k = some v := by
  simp [find?_overwrite]

theorem find?_modify (m : CircularMap N ν) (k k' : Nat) (f : ν → ν) :
    (m.modify k f).find? k' = if k' = k then (m.find? k').map f else m.find? k' := by
  have hpred : ((fun e : Nat × ν => e.1 == k') ∘
      fun e : Nat × ν => if e.1 = k then (e.1, f e.2) else e) = fun e => e.1 == k' := by
    funext e
    simp only [Function.comp_apply]
    split <;> rfl
  simp only [find?, modify, List.find?_map, hpred, Option.map_map]
  cases he : m.entries.find? (fun e => e.1 == k') with
  | none => simp
  | some e =>
    have hk : e.1 = k' := by simpa using List.find?_some he
    by_cases h : k' = k <;> simp [hk, h]

theorem find?_mapValues (m : CircularMap N ν) (k : Nat) (f : Nat → ν → ν) :
    (m.mapValues f).find? k = (m.find? k).map (f k) := by
  have hpred : ((fun e : Nat × ν => e.1 == k) ∘ fun e : Nat × ν => (e.1, f e.1 e.2)) =
      fun e => e.1 == k := rfl
  simp only [find?, mapValues, List.find?_map, hpred, Option.map_map]
  cases he : m.entries.find? (fun e => e.1 == k) with
  | none => rfl
  | some e =>
    have hk : e.1 = k := by simpa using List.find?_some he
    simp [hk]

theorem contains_erase (m : CircularMap N ν) (k k' : Nat) :
    (m.erase k).contains k' = true ↔ k' ≠ k ∧ m.contains k' = true := by
  by_cases h : k' = k <;> simp [contains, find?_erase, h]

theorem contains_overwrite (m : CircularMap N ν) (k k' : Nat) (v : ν) :
    (m.overwrite k v).contains k' = true ↔
      k' = k ∨ k' % N ≠ k % N ∧ m.contains k' = true := by
  by_cases h : k' = k
  · simp [contains, h]
  · by_cases hN : k' % N = k % N <;> simp [contains, find?_overwrite, h, hN]

@[simp] theorem contains_modify (m : CircularMap N ν) (k k' : Nat) (f : ν → ν) :
    (m.modify k f).contains k' = m.contains k' := by
  by_cases h : k' = k <;> simp [contains, find?_modify, h]

/-- A slot is free when no present key has its residue. -/
theorem slot?_eq_none_iff {m : CircularMap N ν} {k : Nat} :
    m.slot? k = none ↔ ∀ k', m.contains k' = true → k' % N ≠ k % N := by
  simp only [slot?, List.find?_eq_none, beq_iff_eq, Prod.forall, contains_iff_mem]
  exact ⟨fun h k' ⟨v, hv⟩ => h k' v hv, fun h k' v hv => h k' ⟨v, hv⟩⟩

/-- A key that was put into a free slot leaves nothing behind. -/
theorem erase_overwrite {m : CircularMap N ν} {k : Nat} (h : m.slot? k = none) (v : ν) :
    (m.overwrite k v).erase k = m := by
  rw [slot?_eq_none_iff] at h
  have hentries : ((m.overwrite k v).erase k).entries = m.entries := by
    simp only [erase, overwrite, List.filter_cons, bne_self_eq_false, Bool.false_eq_true, if_false,
      List.filter_filter]
    rw [List.filter_eq_self]
    intro e he
    have hne : e.1 % N ≠ k % N := h e.1 (contains_iff_mem.mpr ⟨e.2, he⟩)
    have hkey : e.1 ≠ k := fun heq => hne (by rw [heq])
    simp [hne, hkey]
  exact ext hentries

/-- An overwrite of a free slot adds one entry. -/
theorem size_overwrite {m : CircularMap N ν} {k : Nat} (h : m.slot? k = none) (v : ν) :
    (m.overwrite k v).size = m.size + 1 := by
  rw [slot?_eq_none_iff] at h
  have hall : m.entries.filter (fun e => e.1 % N != k % N) = m.entries := by
    rw [List.filter_eq_self]
    intro e he
    simpa using h e.1 (contains_iff_mem.mpr ⟨e.2, he⟩)
  simp [size, overwrite, hall]

@[simp] theorem size_modify (m : CircularMap N ν) (k : Nat) (f : ν → ν) :
    (m.modify k f).size = m.size := by
  simp [size, modify]

end CircularMap

end Odss.Lib
