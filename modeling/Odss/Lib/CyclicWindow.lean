import Mathlib.Tactic

/-!
# `Odss.Lib.CyclicWindow`: windows of a cyclic list

`cyclicRun l i m` reads `m` entries of the list `l`, starting at the index `i` and starting
over after the last entry.

* `isInfix_cyclicRun` says that a window of a run as long as the list is a rotation of it.
* `count_of_isInfix_cyclicRun` is the consequence for counts: in each such window, each
  value occurs as often as it does in the list.
-/

set_option linter.all false

namespace Odss.Lib

variable {α : Type}

/-- `m` entries of the cyclic list `l`, from the index `i` on. -/
def cyclicRun (l : List α) : Nat → Nat → List α
  | _, 0 => []
  | i, m + 1 => (l[i % l.length]?).toList ++ cyclicRun l ((i + 1) % l.length) m

theorem cyclicRun_succ {l : List α} {i m : Nat} {a : α} (h : l[i]? = some a) :
    cyclicRun l i (m + 1) = a :: cyclicRun l ((i + 1) % l.length) m := by
  have hi : i < l.length := (List.getElem?_eq_some_iff.mp h).1
  simp [cyclicRun, Nat.mod_eq_of_lt hi, h]

theorem length_cyclicRun {l : List α} (hl : l ≠ []) :
    ∀ m i : Nat, (cyclicRun l i m).length = m := by
  intro m
  induction m with
  | zero => intro i; rfl
  | succ m ih =>
    intro i
    have hi : i % l.length < l.length := Nat.mod_lt _ (List.length_pos_iff.mpr hl)
    simp [cyclicRun, List.getElem?_eq_getElem hi, ih]

/-- The entry at the position `j` of a run is the entry `i + j` of the cycle. -/
theorem getElem?_cyclicRun {l : List α} (hl : l ≠ []) :
    ∀ m i j : Nat, j < m → (cyclicRun l i m)[j]? = l[(i + j) % l.length]? := by
  intro m
  induction m with
  | zero => intro i j hj; omega
  | succ m ih =>
    intro i j hj
    have hi : i % l.length < l.length := Nat.mod_lt _ (List.length_pos_iff.mpr hl)
    rw [cyclicRun, List.getElem?_eq_getElem hi, Option.toList_some, List.singleton_append]
    cases j with
    | zero => simp [List.getElem?_eq_getElem hi]
    | succ j =>
      rw [List.getElem?_cons_succ, ih _ j (by omega), Nat.mod_add_mod, Nat.add_right_comm,
        Nat.add_assoc]

/-- A window of a run, as long as the list, is a rotation of the list. -/
theorem isInfix_cyclicRun {l w : List α} (hl : l ≠ []) {i m : Nat}
    (hw : w <:+: cyclicRun l i m) (hlen : w.length = l.length) : ∃ k, w = l.rotate k := by
  obtain ⟨p, q, hpq⟩ := hw
  have hm : p.length + w.length + q.length = m := by
    rw [← length_cyclicRun hl m i, ← hpq, List.length_append, List.length_append]
  refine ⟨i + p.length, List.ext_getElem? fun j => ?_⟩
  rcases Nat.lt_or_ge j w.length with hj | hj
  · -- Position `j` of the window is the position `p.length + j` of the run.
    have hrun : (cyclicRun l i m)[p.length + j]? = w[j]? := by
      rw [← hpq, List.append_assoc, List.getElem?_append_right (by omega),
        Nat.add_sub_cancel_left, List.getElem?_append_left hj]
    rw [← hrun, getElem?_cyclicRun hl _ _ _ (by omega), List.getElem?_rotate (hlen ▸ hj)]
    congr 2
    omega
  · rw [List.getElem?_eq_none hj,
      List.getElem?_eq_none (by rw [List.length_rotate, ← hlen]; exact hj)]

/-- In each window of a run as long as the list, a value occurs as often as in the list. -/
theorem count_of_isInfix_cyclicRun [BEq α] {l w : List α} (hl : l ≠ []) {i m : Nat}
    (hw : w <:+: cyclicRun l i m) (hlen : w.length = l.length) (a : α) :
    w.count a = l.count a := by
  obtain ⟨k, rfl⟩ := isInfix_cyclicRun hl hw hlen
  exact (List.rotate_perm l k).count_eq a

end Odss.Lib
