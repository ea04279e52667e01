import Mathlib.Tactic

/-!
# `Odss.Lib.Backtrack`: search by backtracking

A search picks one choice after the other, each a number, and keeps the list of its choices. When
no choice is left it takes the last one back and goes on behind it. It never looks again at what
is `Before` its choices, in the order of the first difference.

* `Behind ok n p i` is the invariant of such a search: no list of `n` choices that is `ok` is before
  the choices `p` with the next one `i`. `Behind.skip`, `Behind.descend`, `Behind.goBack` and
  `Behind.exhausted` are the rules for the moves of the search.
* `rank` is a number that each move makes smaller.
-/

set_option linter.all false

namespace Odss.Lib

/-! ### The order of the search -/

/-- The first list is before the second one at the first place where they differ. -/
def Before : List Nat → List Nat → Prop
  | a :: q, b :: p => a < b ∨ (a = b ∧ Before q p)
  | _, _ => False

theorem not_before_nil (q : List Nat) : ¬ Before q [] := by
  cases q <;> exact not_false

theorem before_concat_iff {q p : List Nat} {i : Nat} :
    Before q (p ++ [i]) ↔ Before q p ∨ ∃ j rest, j < i ∧ q = p ++ j :: rest := by
  induction p generalizing q with
  | nil =>
    cases q with
    | nil => simp [Before]
    | cons a q => simp [Before, not_before_nil]
  | cons b p ih =>
    cases q with
    | nil => simp [Before]
    | cons a q =>
      simp only [List.cons_append, Before, ih, List.cons.injEq]
      constructor
      · rintro (hlt | ⟨rfl, hbefore | ⟨j, rest, hj, rfl⟩⟩)
        · exact .inl (.inl hlt)
        · exact .inl (.inr ⟨rfl, hbefore⟩)
        · exact .inr ⟨j, rest, hj, rfl, rfl⟩
      · rintro ((hlt | ⟨rfl, hbefore⟩) | ⟨j, rest, hj, rfl, rfl⟩)
        · exact .inl hlt
        · exact .inr ⟨rfl, .inl hbefore⟩
        · exact .inr ⟨rfl, .inr ⟨j, rest, hj, rfl⟩⟩

/-- More choices at the end of the first list do not matter. -/
theorem before_append_left {q p : List Nat} (rest : List Nat) (h : p.length ≤ q.length) :
    Before (q ++ rest) p ↔ Before q p := by
  induction p generalizing q with
  | nil => exact ⟨fun h => absurd h (not_before_nil _), fun h => absurd h (not_before_nil _)⟩
  | cons b p ih =>
    cases q with
    | nil => cases h
    | cons a q =>
      simp only [List.cons_append, Before, ih (Nat.le_of_succ_le_succ h)]

/-! ### The invariant of the search -/

section Behind

variable (ok : List Nat → Prop) (n : Nat)

/-- No list of `n` choices that is `ok` is before `p` with the next choice `i`. -/
def Behind (p : List Nat) (i : Nat) : Prop := ∀ q, q.length = n → ok q → ¬ Before q (p ++ [i])

variable {ok n} {p : List Nat} {i j : Nat}

theorem behind_iff : Behind ok n p i ↔
    ∀ q, q.length = n → ok q → ¬ Before q p ∧ ∀ k rest, k < i → q ≠ p ++ k :: rest := by
  simp only [Behind, before_concat_iff, not_or, not_exists, not_and, ne_eq]

/-- Choices that do not go on to anything are left out. -/
theorem Behind.skip (h : Behind ok n p i)
    (hbad : ∀ k, i ≤ k → k < j → ∀ rest, ¬ ok (p ++ k :: rest)) : Behind ok n p j := by
  rw [behind_iff] at h ⊢
  intro q hq hok
  refine ⟨(h q hq hok).1, ?_⟩
  rintro k rest hk rfl
  by_cases hik : i ≤ k
  · exact hbad k hik hk rest hok
  · exact (h _ hq hok).2 k rest (Nat.lt_of_not_le hik) rfl

/-- A choice is made. -/
theorem Behind.descend (h : Behind ok n p i) : Behind ok n (p ++ [i]) 0 := by
  rw [behind_iff]
  intro q hq hok
  exact ⟨h q hq hok, fun k _ hk => absurd hk (Nat.not_lt_zero k)⟩

/-- The last choice is taken back when nothing goes on from it. -/
theorem Behind.goBack {d : Nat} (h : Behind ok n (p ++ [d]) i) (hn : p.length + 1 < n)
    (hbad : ∀ k, i ≤ k → ∀ rest, ¬ ok (p ++ d :: k :: rest)) : Behind ok n p (d + 1) := by
  rw [behind_iff] at h ⊢
  intro q hq hok
  have hbefore : ¬ Before q (p ++ [d]) := (h q hq hok).1
  rw [before_concat_iff, not_or] at hbefore
  refine ⟨hbefore.1, ?_⟩
  rintro k rest hk rfl
  rcases Nat.lt_succ_iff_lt_or_eq.mp hk with hlt | rfl
  · exact hbefore.2 ⟨k, rest, hlt, rfl⟩
  · -- There is a further choice, since the list has `n` of them.
    cases rest with
    | nil =>
      rw [List.length_append, List.length_singleton] at hq
      omega
    | cons a rest =>
      by_cases ha : i ≤ a
      · exact hbad a ha rest hok
      · exact (h _ hq hok).2 a rest (Nat.lt_of_not_le ha) (by simp)

/-- Nothing is left when the first choice cannot be made. -/
theorem Behind.exhausted (h : Behind ok n [] i) (hn : 0 < n)
    (hbad : ∀ k, i ≤ k → ∀ rest, ¬ ok (k :: rest)) : ∀ q, q.length = n → ¬ ok q := by
  rw [behind_iff] at h
  intro q hq hok
  cases q with
  | nil => exact absurd hq (Nat.ne_of_lt hn)
  | cons a rest =>
    by_cases ha : i ≤ a
    · exact hbad a ha rest hok
    · exact (h _ hq hok).2 a rest (Nat.lt_of_not_le ha) rfl

/-- At the start nothing is before the search. -/
theorem behind_start : Behind ok n [] 0 := by
  rw [behind_iff]
  intro q _ _
  exact ⟨not_before_nil q, fun k _ hk => absurd hk (Nat.not_lt_zero k)⟩

end Behind

/-! ### A number that gets smaller -/

/-- How far choices are from the end of the search, with less than `w` choices each time and `n`
times. A choice counts more the earlier it is, and less the higher it is. -/
def rank (w : Nat) : Nat → List Nat → Nat
  | _, [] => 0
  | n, d :: ds => (w - d + 1) * (w + 2) ^ (n - 1) + rank w (n - 1) ds

theorem rank_lt_pow {w n : Nat} {ds : List Nat} (h : ds.length ≤ n) : rank w n ds < (w + 2) ^ n := by
  induction ds generalizing n with
  | nil => exact Nat.pow_pos (Nat.succ_pos _)
  | cons d ds ih =>
    cases n with
    | zero => cases h
    | succ n =>
      have hds := ih (Nat.le_of_succ_le_succ h)
      have hle : (w - d + 1) * (w + 2) ^ n ≤ (w + 1) * (w + 2) ^ n :=
        Nat.mul_le_mul_right _ (by omega)
      have hpow : (w + 2) ^ (n + 1) = (w + 1) * (w + 2) ^ n + (w + 2) ^ n := by ring
      show (w - d + 1) * (w + 2) ^ n + rank w n ds < _
      omega

/-- A choice is taken back. -/
theorem rank_lt_concat (w n : Nat) (p : List Nat) (d : Nat) : rank w n p < rank w n (p ++ [d]) := by
  induction p generalizing n with
  | nil =>
    show 0 < (w - d + 1) * (w + 2) ^ (n - 1) + 0
    exact Nat.add_pos_left (Nat.mul_pos (Nat.succ_pos _) (Nat.pow_pos (Nat.succ_pos _))) _
  | cons a p ih => exact Nat.add_lt_add_left (ih (n - 1)) _

/-- A choice is taken back for a higher one, with any choices behind it. -/
theorem rank_lt_of_lt {w n d d' : Nat} {p rest : List Nat} (hd : d < d') (hw : d' < w)
    (hlen : (p ++ d' :: rest).length ≤ n) :
    rank w n (p ++ d' :: rest) < rank w n (p ++ [d]) := by
  induction p generalizing n with
  | nil =>
    cases n with
    | zero => cases hlen
    | succ n =>
      have hrest := rank_lt_pow (w := w) (Nat.le_of_succ_le_succ hlen)
      have hle : (w - d' + 1 + 1) * (w + 2) ^ n ≤ (w - d + 1) * (w + 2) ^ n :=
        Nat.mul_le_mul_right _ (by omega)
      have hsucc : (w - d' + 1 + 1) * (w + 2) ^ n = (w - d' + 1) * (w + 2) ^ n + (w + 2) ^ n := by
        ring
      show (w - d' + 1) * (w + 2) ^ n + rank w n rest < (w - d + 1) * (w + 2) ^ n + 0
      omega
  | cons a p ih =>
    refine Nat.add_lt_add_left (ih ?_) _
    rw [List.cons_append, List.length_cons] at hlen
    omega

end Odss.Lib
