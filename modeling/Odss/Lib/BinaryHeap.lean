import Mathlib.Tactic

/-!
# `Odss.Lib.BinaryHeap`: a binary heap whose keys can change

`Heap α` is the array of `std::priority_queue`: `push` sifts a new last entry up, and `pop` moves
the last entry to the root, sinks it to a leaf along the smaller children, and sifts it up again.
The key of an entry is looked up when it is compared, so it can change while the entry is in the
heap. `Ordered` is the order of the heap off a set of parents; an entry whose key has grown at the
root leaves the heap ordered off the root.

* `ordered_push`, `entry_zero_push` and `toList_push` are about `push`.
* `ordered_pop` and `toList_pop` are about `pop`, which needs the order off the root only.
* `le_of_mem_toList` says that no entry has a smaller key than the top of an ordered heap.
-/

set_option linter.all false

namespace Odss.Lib

/-- An array that holds the entries of a heap. Entries from `size` on are not in use. -/
structure Heap (α : Type) where
  size : Nat
  entry : Nat → α

namespace Heap

variable {α κ : Type} [LinearOrder κ]

/-- The entries in the order of the array. -/
def toList (h : Heap α) : List α := (List.range h.size).map h.entry

/-- The array with two entries exchanged. -/
def swap (h : Heap α) (i j : Nat) : Heap α :=
  { h with entry := fun k => h.entry (if k = i then j else if k = j then i else k) }

/-- The parent of a position. -/
def parent (i : Nat) : Nat := (i - 1) / 2

/-! ### The operations -/

/-- `std::__push_heap`: the entry moves up while its key is below that of its parent. The position
halves in each step. -/
def siftUpLoop (key : α → κ) : Nat → Heap α → Nat → Heap α
  | 0, h, _ => h
  | fuel + 1, h, i =>
    if i ≠ 0 ∧ key (h.entry i) < key (h.entry (parent i)) then
      siftUpLoop key fuel (h.swap i (parent i)) (parent i)
    else h

/-- The loop of `std::__adjust_heap`: the entry moves down to a leaf. Of two children with the same
key the right one moves up. -/
def sinkLoop (key : α → κ) : Nat → Heap α → Nat → Heap α × Nat
  | 0, h, i => (h, i)
  | fuel + 1, h, i =>
    if 2 * i + 2 < h.size then
      let child :=
        if key (h.entry (2 * i + 1)) < key (h.entry (2 * i + 2)) then 2 * i + 1 else 2 * i + 2
      sinkLoop key fuel (h.swap i child) child
    else if 2 * i + 1 < h.size then (h.swap i (2 * i + 1), 2 * i + 1)
    else (h, i)

/-- `push` -/
def push (key : α → κ) (h : Heap α) (x : α) : Heap α :=
  siftUpLoop key h.size ⟨h.size + 1, Function.update h.entry h.size x⟩ h.size

/-- `pop`. The heap is not empty. -/
def pop (key : α → κ) (h : Heap α) : Heap α :=
  let h' : Heap α := { h.swap 0 (h.size - 1) with size := h.size - 1 }
  let (h'', i) := sinkLoop key h'.size h' 0
  siftUpLoop key i h'' i

/-! ### Entries -/

@[simp] theorem size_swap (h : Heap α) (i j : Nat) : (h.swap i j).size = h.size := rfl

theorem entry_swap (h : Heap α) (i j k : Nat) :
    (h.swap i j).entry k = h.entry (if k = i then j else if k = j then i else k) := rfl

@[simp] theorem entry_swap_left (h : Heap α) (i j : Nat) :
    (h.swap i j).entry i = h.entry j := by
  simp [entry_swap]

@[simp] theorem entry_swap_right (h : Heap α) (i j : Nat) :
    (h.swap i j).entry j = h.entry i := by
  rw [entry_swap]
  split
  · rename_i heq
    rw [heq]
  · rw [if_pos rfl]

theorem entry_swap_of_ne (h : Heap α) {i j k : Nat} (hi : k ≠ i) (hj : k ≠ j) :
    (h.swap i j).entry k = h.entry k := by
  rw [entry_swap, if_neg hi, if_neg hj]

theorem parent_lt {i : Nat} (hi : i ≠ 0) : parent i < i := by
  unfold parent
  omega

theorem parent_eq_iff {c i : Nat} (hc : 0 < c) :
    parent c = i ↔ c = 2 * i + 1 ∨ c = 2 * i + 2 := by
  unfold parent
  omega

theorem toList_swap (h : Heap α) {i j : Nat} (hi : i < h.size) (hj : j < h.size) :
    (h.swap i j).toList.Perm h.toList := by
  set σ : Nat → Nat := fun k => if k = i then j else if k = j then i else k with hσ
  have hinv : ∀ k, σ (σ k) = k := by
    intro k
    simp only [hσ]
    split_ifs <;> omega
  have hrange : ((List.range h.size).map σ).Perm (List.range h.size) := by
    apply (List.perm_ext_iff_of_nodup ?_ List.nodup_range).mpr
    · intro k
      rw [List.mem_map, List.mem_range]
      constructor
      · rintro ⟨m, hm, rfl⟩
        rw [List.mem_range] at hm
        simp only [hσ]
        split_ifs <;> omega
      · intro hk
        refine ⟨σ k, ?_, hinv k⟩
        rw [List.mem_range]
        simp only [hσ]
        split_ifs <;> omega
    · apply List.Nodup.map ?_ List.nodup_range
      exact Function.LeftInverse.injective hinv
  have hmap := hrange.map h.entry
  rw [List.map_map] at hmap
  exact hmap

@[simp] theorem size_siftUpLoop (key : α → κ) (fuel : Nat) (h : Heap α) (i : Nat) :
    (siftUpLoop key fuel h i).size = h.size := by
  induction fuel generalizing h i with
  | zero => rfl
  | succ fuel ih =>
    simp only [siftUpLoop]
    split
    · rw [ih, size_swap]
    · rfl

theorem toList_siftUpLoop (key : α → κ) (fuel : Nat) {h : Heap α} {i : Nat} (hi : i < h.size) :
    (siftUpLoop key fuel h i).toList.Perm h.toList := by
  induction fuel generalizing h i with
  | zero => exact List.Perm.refl _
  | succ fuel ih =>
    simp only [siftUpLoop]
    split
    · rename_i hmove
      have hp := parent_lt hmove.1
      exact (ih (by rw [size_swap]; omega)).trans (toList_swap h hi (by omega))
    · exact List.Perm.refl _

/-- The sink ends inside the heap, with the same entries. -/
theorem sinkLoop_spec (key : α → κ) (fuel : Nat) {h : Heap α} {i : Nat} (hi : i < h.size) :
    (sinkLoop key fuel h i).1.size = h.size ∧ (sinkLoop key fuel h i).2 < h.size ∧
      (sinkLoop key fuel h i).1.toList.Perm h.toList := by
  induction fuel generalizing h i with
  | zero => exact ⟨rfl, hi, List.Perm.refl _⟩
  | succ fuel ih =>
    simp only [sinkLoop]
    split
    · rename_i hright
      set c := if key (h.entry (2 * i + 1)) < key (h.entry (2 * i + 2)) then 2 * i + 1
        else 2 * i + 2 with hc
      have hc : c < h.size := by
        rw [hc]
        split <;> omega
      obtain ⟨hsize, hlt, hperm⟩ := ih (h := h.swap i c) (i := c) hc
      exact ⟨hsize, hlt, hperm.trans (toList_swap h hi hc)⟩
    · split
      · rename_i hleft
        exact ⟨rfl, hleft, toList_swap h hi hleft⟩
      · exact ⟨rfl, hi, List.Perm.refl _⟩

theorem toList_push (key : α → κ) (h : Heap α) (x : α) :
    (push key h x).toList.Perm (h.toList ++ [x]) := by
  have hlast : (⟨h.size + 1, Function.update h.entry h.size x⟩ : Heap α).toList =
      h.toList ++ [x] := by
    simp only [toList, List.range_succ, List.map_append, List.map_singleton,
      Function.update_self]
    congr 1
    apply List.map_congr_left
    intro k hk
    rw [List.mem_range] at hk
    exact Function.update_of_ne (by omega) _ _
  have hsift := toList_siftUpLoop key h.size
    (h := ⟨h.size + 1, Function.update h.entry h.size x⟩) (i := h.size) (Nat.lt_succ_self _)
  rw [hlast] at hsift
  exact hsift

/-- `pop` removes the root. -/
theorem toList_pop (key : α → κ) {h : Heap α} (hpos : 0 < h.size) :
    h.toList.Perm (h.entry 0 :: (pop key h).toList) := by
  set h' : Heap α := { h.swap 0 (h.size - 1) with size := h.size - 1 } with hh'
  have hsplit : (h.swap 0 (h.size - 1)).toList = h'.toList ++ [h.entry 0] := by
    have hrange : List.range h.size = List.range (h.size - 1) ++ [h.size - 1] := by
      rw [← List.range_succ]
      congr 1
      omega
    simp only [toList, size_swap, hh', hrange, List.map_append, List.map_singleton,
      entry_swap_right]
  have hpop : (pop key h).toList.Perm h'.toList := by
    by_cases hzero : h'.size = 0
    · -- The only entry is gone, and both loops have nothing to do.
      have hsize : h.size - 1 = 0 := hzero
      show (siftUpLoop key (sinkLoop key h'.size h' 0).2 (sinkLoop key h'.size h' 0).1
        (sinkLoop key h'.size h' 0).2).toList.Perm h'.toList
      rw [hzero]
      exact List.Perm.refl _
    · obtain ⟨hsize, hlt, hperm⟩ := sinkLoop_spec key h'.size (h := h') (i := 0) (by omega)
      exact (toList_siftUpLoop key _ (by rw [hsize]; exact hlt)).trans hperm
  have hswap := toList_swap h (i := 0) (j := h.size - 1) hpos (by omega)
  rw [hsplit] at hswap
  exact (hswap.symm.trans (List.perm_append_singleton _ _)).trans (hpop.symm.cons _)

theorem mem_toList {h : Heap α} {x : α} : x ∈ h.toList ↔ ∃ i < h.size, h.entry i = x := by
  simp [toList]

/-! ### The order -/

/-- No entry has a key below that of its parent, for the parents that are not in `off`. -/
def Ordered (key : α → κ) (off : Nat → Prop) (h : Heap α) : Prop :=
  ∀ j, 0 < j → j < h.size → ¬ off (parent j) →
    key (h.entry (parent j)) ≤ key (h.entry j)

/-- The order is right but for the pairs of position `i` with its parent and its children, and
those around `i` are in order. -/
structure Hole (key : α → κ) (off : Nat → Prop) (h : Heap α) (i : Nat) : Prop where
  apart : ∀ j, 0 < j → j < h.size → j ≠ i → parent j ≠ i → ¬ off (parent j) →
    key (h.entry (parent j)) ≤ key (h.entry j)
  around : 0 < i → ¬ off (parent i) → ∀ c, 0 < c → c < h.size → parent c = i →
    key (h.entry (parent i)) ≤ key (h.entry c)

/-- The entry at `i` is not above its children. -/
def Below (key : α → κ) (h : Heap α) (i : Nat) : Prop :=
  ∀ c, 0 < c → c < h.size → parent c = i → key (h.entry i) ≤ key (h.entry c)

/-- A step up keeps the hole at the new position. -/
theorem Hole.up {key : α → κ} {off : Nat → Prop} {h : Heap α} {i : Nat} (hole : Hole key off h i)
    (hi : i ≠ 0) (hlt : i < h.size) (hoff : ¬ off (parent i))
    (hmove : key (h.entry i) < key (h.entry (parent i))) :
    Hole key off (h.swap i (parent i)) (parent i) ∧
      Below key (h.swap i (parent i)) (parent i) := by
  have hp := parent_lt hi
  have hpi : parent i ≠ i := by omega
  refine ⟨⟨?_, ?_⟩, ?_⟩
  · intro j hj hjlt hjp hjpp hjoff
    by_cases hji : j = i
    · exact absurd (congrArg parent hji) hjpp
    · rw [entry_swap_of_ne h hji hjp]
      by_cases hpj : parent j = i
      · -- The old parent comes down above the children of the hole.
        rw [hpj, entry_swap_left]
        exact hole.around (Nat.pos_of_ne_zero hi) hoff j hj hjlt hpj
      · rw [entry_swap_of_ne h hpj hjpp]
        exact hole.apart j hj hjlt hji hpj hjoff
  · intro hp0 hgoff c hc hclt hcp
    have hgp := parent_lt (Nat.pos_iff_ne_zero.mp hp0)
    rw [entry_swap_of_ne h (show parent (parent i) ≠ i by omega) (by omega)]
    have hup := hole.apart (parent i) hp0 (by omega) hpi (by omega) hgoff
    by_cases hci : c = i
    · rw [hci, entry_swap_left]
      exact hup
    · have hcp' : c ≠ parent i := by
        intro heq
        have := parent_lt (Nat.pos_iff_ne_zero.mp hc)
        omega
      rw [entry_swap_of_ne h hci hcp']
      have hsib := hole.apart c hc hclt hci (by rw [hcp]; exact hpi) (by rw [hcp]; exact hoff)
      rw [hcp] at hsib
      exact hup.trans hsib
  · intro c hc hclt hcp
    rw [entry_swap_right]
    by_cases hci : c = i
    · rw [hci, entry_swap_left]
      exact hmove.le
    · have hcp' : c ≠ parent i := by
        intro heq
        have := parent_lt (Nat.pos_iff_ne_zero.mp hc)
        omega
      rw [entry_swap_of_ne h hci hcp']
      have hsib := hole.apart c hc hclt hci (by rw [hcp]; exact hpi) (by rw [hcp]; exact hoff)
      rw [hcp] at hsib
      exact (hmove.trans_le hsib).le

/-- Sifting up ends in order, when no parent that is off is in its way. The root stays when it is
off. -/
theorem siftUpLoop_spec (key : α → κ) (off : Nat → Prop) :
    ∀ (fuel : Nat) (h : Heap α) (i : Nat), i ≤ fuel → i < h.size → Hole key off h i →
      Below key h i → (∀ k, off k → k = 0 ∧ i ≠ 0 ∧ key (h.entry k) ≤ key (h.entry i)) →
      Ordered key off (siftUpLoop key fuel h i) ∧
        (off 0 → (siftUpLoop key fuel h i).entry 0 = h.entry 0) := by
  intro fuel
  induction fuel with
  | zero =>
    intro h i hfuel hlt hole hbelow _
    refine ⟨fun j hj hjlt hjoff => ?_, fun _ => rfl⟩
    have hi : i = 0 := by omega
    by_cases hpj : parent j = i
    · rw [hpj]
      exact hbelow j hj hjlt hpj
    · exact hole.apart j hj hjlt (by omega) hpj hjoff
  | succ fuel ih =>
    intro h i hfuel hlt hole hbelow hstay
    simp only [siftUpLoop]
    split
    · rename_i hmove
      have hp := parent_lt hmove.1
      have hoff : ¬ off (parent i) := by
        intro hoff
        exact absurd hmove.2 (not_lt.mpr (hstay _ hoff).2.2)
      obtain ⟨hole', hbelow'⟩ := hole.up hmove.1 hlt hoff hmove.2
      have hstay' : ∀ k, off k → k = 0 ∧ parent i ≠ 0 ∧
          key ((h.swap i (parent i)).entry k) ≤ key ((h.swap i (parent i)).entry (parent i)) := by
        intro k hk
        obtain ⟨rfl, hne, hle⟩ := hstay k hk
        have hpne : parent i ≠ 0 := fun heq => hoff (heq ▸ hk)
        refine ⟨rfl, hpne, ?_⟩
        rw [entry_swap_right, entry_swap_of_ne h (Ne.symm hne) (Ne.symm hpne)]
        exact hle
      obtain ⟨hord, hroot⟩ := ih _ _ (by omega) (by rw [size_swap]; omega) hole' hbelow' hstay'
      refine ⟨hord, fun h0 => (hroot h0).trans ?_⟩
      exact entry_swap_of_ne h (Ne.symm hmove.1) (Ne.symm (hstay' 0 h0).2.1)
    · rename_i hstop
      refine ⟨fun j hj hjlt hjoff => ?_, fun _ => rfl⟩
      by_cases hji : j = i
      · rw [hji]
        exact not_lt.mp fun hlt' => hstop ⟨by omega, hlt'⟩
      · by_cases hpj : parent j = i
        · rw [hpj]
          exact hbelow j hj hjlt hpj
        · exact hole.apart j hj hjlt hji hpj hjoff

/-- A step down to the smaller child keeps the hole at the new position. -/
theorem Hole.down {key : α → κ} {h : Heap α} {i c : Nat}
    (hole : Hole key (fun _ => False) h i) (hc : 0 < c) (hclt : c < h.size) (hpc : parent c = i)
    (hmin : ∀ d, 0 < d → d < h.size → parent d = i → key (h.entry c) ≤ key (h.entry d)) :
    Hole key (fun _ => False) (h.swap i c) c := by
  have hlt : i < c := hpc ▸ parent_lt (Nat.pos_iff_ne_zero.mp hc)
  constructor
  · intro j hj hjlt hjc hjpc _
    by_cases hji : j = i
    · -- The child comes up below the parent of the hole.
      subst hji
      have hpj := parent_lt (Nat.pos_iff_ne_zero.mp hj)
      rw [entry_swap_left, entry_swap_of_ne h (by omega) (by omega)]
      exact hole.around hj not_false c hc hclt hpc
    · rw [entry_swap_of_ne h hji hjc]
      by_cases hpj : parent j = i
      · rw [hpj, entry_swap_left]
        exact hmin j hj hjlt hpj
      · rw [entry_swap_of_ne h hpj hjpc]
        exact hole.apart j hj hjlt hji hpj not_false
  · intro _ _ d hd hdlt hpd
    have hdc : c < d := hpd ▸ parent_lt (Nat.pos_iff_ne_zero.mp hd)
    rw [hpc, entry_swap_left, entry_swap_of_ne h (by omega) (by omega)]
    have hle := hole.apart d hd hdlt (by omega) (by rw [hpd]; omega) not_false
    rw [hpd] at hle
    exact hle

theorem sinkLoop_hole (key : α → κ) :
    ∀ (fuel : Nat) (h : Heap α) (i : Nat), h.size ≤ fuel + i → Hole key (fun _ => False) h i →
      Hole key (fun _ => False) (sinkLoop key fuel h i).1 (sinkLoop key fuel h i).2 ∧
        Below key (sinkLoop key fuel h i).1 (sinkLoop key fuel h i).2 := by
  intro fuel
  induction fuel with
  | zero =>
    intro h i hfuel hole
    refine ⟨hole, fun c hc hclt hpc => ?_⟩
    have hgt := parent_lt (Nat.pos_iff_ne_zero.mp hc)
    have hclt : c < h.size := hclt
    have hpc : parent c = i := hpc
    omega
  | succ fuel ih =>
    intro h i hfuel hole
    simp only [sinkLoop]
    split
    · rename_i hright
      set c := if key (h.entry (2 * i + 1)) < key (h.entry (2 * i + 2)) then 2 * i + 1
        else 2 * i + 2 with hc
      have hchild : c = 2 * i + 1 ∨ c = 2 * i + 2 := by
        rw [hc]
        split
        · exact Or.inl rfl
        · exact Or.inr rfl
      have hpc : parent c = i := (parent_eq_iff (by omega)).mpr hchild
      have hmin : ∀ d, 0 < d → d < h.size → parent d = i →
          key (h.entry c) ≤ key (h.entry d) := by
        intro d hd _ hpd
        rcases (parent_eq_iff hd).mp hpd with rfl | rfl
        · rw [hc]
          split
          · exact le_refl _
          · rename_i hnot
            exact not_lt.mp hnot
        · rw [hc]
          split
          · rename_i hle
            exact hle.le
          · exact le_refl _
      exact ih (h.swap i c) c (by rw [size_swap]; omega)
        (hole.down (by omega) (by omega) hpc hmin)
    · rename_i hright
      split
      · rename_i hleft
        have hpc : parent (2 * i + 1) = i := (parent_eq_iff (by omega)).mpr (Or.inl rfl)
        have hmin : ∀ d, 0 < d → d < h.size → parent d = i →
            key (h.entry (2 * i + 1)) ≤ key (h.entry d) := by
          intro d hd hdlt hpd
          rcases (parent_eq_iff hd).mp hpd with rfl | rfl
          · exact le_refl _
          · exact absurd hdlt hright
        refine ⟨hole.down (by omega) hleft hpc hmin, fun c hc hclt hpc' => ?_⟩
        have hclt : c < h.size := hclt
        rcases (parent_eq_iff hc).mp hpc' with rfl | rfl <;> omega
      · rename_i hleft
        refine ⟨hole, fun c hc hclt hpc => ?_⟩
        have hclt : c < h.size := hclt
        rcases (parent_eq_iff hc).mp hpc with rfl | rfl <;> omega

/-! ### The operations keep the order -/

/-- A heap that is ordered off `off` before the push is so after it, when the new key is not below
those that are off. -/
theorem ordered_push {key : α → κ} {off : Nat → Prop} {h : Heap α} (hord : Ordered key off h)
    (x : α) (hoff : ∀ k, off k → k = 0 ∧ h.size ≠ 0 ∧ key (h.entry k) ≤ key x) :
    Ordered key off (push key h x) ∧ (off 0 → (push key h x).entry 0 = h.entry 0) := by
  set h' : Heap α := ⟨h.size + 1, Function.update h.entry h.size x⟩ with hh'
  have hold : ∀ k, k ≠ h.size → h'.entry k = h.entry k := by
    intro k hk
    exact Function.update_of_ne hk _ _
  have hnew : h'.entry h.size = x := Function.update_self _ _ _
  have hnochild : ∀ c, 0 < c → c < h'.size → parent c ≠ h.size := by
    intro c hc hclt heq
    have := parent_lt (Nat.pos_iff_ne_zero.mp hc)
    have hclt : c < h.size + 1 := hclt
    omega
  have hole : Hole key off h' h.size := by
    constructor
    · intro j hj hjlt hji hpj hjoff
      have hjlt : j < h.size + 1 := hjlt
      rw [hold _ hpj, hold _ hji]
      exact hord j hj (by omega) hjoff
    · intro _ _ c hc hclt hpc
      exact absurd hpc (hnochild c hc hclt)
  have hbelow : Below key h' h.size := by
    intro c hc hclt hpc
    exact absurd hpc (hnochild c hc hclt)
  have hstay : ∀ k, off k → k = 0 ∧ h.size ≠ 0 ∧ key (h'.entry k) ≤ key (h'.entry h.size) := by
    intro k hk
    obtain ⟨rfl, hne, hle⟩ := hoff k hk
    refine ⟨rfl, hne, ?_⟩
    rw [hnew, hold 0 (Ne.symm hne)]
    exact hle
  obtain ⟨hresult, hroot⟩ := siftUpLoop_spec key off h.size h' h.size (le_refl _)
    (Nat.lt_succ_self _) hole hbelow hstay
  refine ⟨hresult, fun h0 => (hroot h0).trans ?_⟩
  exact hold 0 (Ne.symm (hoff 0 h0).2.1)

theorem ordered_pop {key : α → κ} {h : Heap α} (hpos : 0 < h.size)
    (hord : Ordered key (· = 0) h) : Ordered key (fun _ => False) (pop key h) := by
  set h' : Heap α := { h.swap 0 (h.size - 1) with size := h.size - 1 } with hh'
  have hold : ∀ k, k ≠ 0 → k < h'.size → h'.entry k = h.entry k := by
    intro k hk hlt
    have hlt : k < h.size - 1 := hlt
    exact entry_swap_of_ne h hk (by omega)
  have hole : Hole key (fun _ => False) h' 0 := by
    constructor
    · intro j hj hjlt _ hpj _
      have hjlt' : j < h.size - 1 := hjlt
      have hp := parent_lt (Nat.pos_iff_ne_zero.mp hj)
      rw [hold _ hpj (show parent j < h.size - 1 by omega), hold _ (by omega) hjlt]
      exact hord j hj (by omega) hpj
    · intro h0
      exact absurd h0 (lt_irrefl 0)
  obtain ⟨hole', hbelow'⟩ := sinkLoop_hole key h'.size h' 0 (by omega) hole
  show Ordered key (fun _ => False) (siftUpLoop key (sinkLoop key h'.size h' 0).2
    (sinkLoop key h'.size h' 0).1 (sinkLoop key h'.size h' 0).2)
  by_cases hzero : h'.size = 0
  · rw [hzero]
    intro j hj hjlt
    have hjlt : j < h'.size := hjlt
    omega
  · obtain ⟨hsize, hlt, -⟩ := sinkLoop_spec key h'.size (h := h') (i := 0) (by omega)
    exact (siftUpLoop_spec key (fun _ => False) _ _ _ (le_refl _) (by rw [hsize]; exact hlt) hole'
      hbelow' (fun _ hoff => hoff.elim)).1

theorem le_of_mem_toList {key : α → κ} {h : Heap α} (hord : Ordered key (fun _ => False) h) {x : α}
    (hx : x ∈ h.toList) : key (h.entry 0) ≤ key x := by
  obtain ⟨i, hi, rfl⟩ := mem_toList.mp hx
  induction i using Nat.strong_induction_on with
  | _ i ih =>
    by_cases hi0 : i = 0
    · rw [hi0]
    · have hp := parent_lt hi0
      have hplt : parent i < h.size := by omega
      have hup := ih (parent i) hp hplt (mem_toList.mpr ⟨_, hplt, rfl⟩)
      exact hup.trans (hord i (Nat.pos_of_ne_zero hi0) hi not_false)

end Heap

end Odss.Lib
