import Odss.Mac.FalsePosition

/-!
# `Odss.Proofs.FalsePosition`: the search ends where the function crosses the target

`Encloses` is the invariant of the loop: the target lies above the value at the lower end, and not
above the one at the upper end. A round keeps it and makes the interval shorter
(`encloses_tryPoint`), whatever point is tried. So the length of the interval bounds the number of
rounds. The function does not have to be monotone for this.

`falsePositionMethod_crosses` is the result, and `interpolate_mem` says that the point of the
source is one of the interval.
-/

set_option linter.all false

namespace Odss.Mac.FalsePosition

variable {f : Int → Int} {isError : Int → Bool} {y0 lo hi : Int} {b : Bracket}

/-- What the search has to find: the values are those of the function, at points of the interval. The
lower end is one with a value that is not below the target, the upper end is one with a value that is
not above it, and otherwise the function crosses the target in one step, or meets it. -/
structure Crosses (f : Int → Int) (lo hi y0 : Int) (r : Crossing) : Prop where
  lowerValue : r.lowerValue = f r.lower
  upperValue : r.upperValue = f r.upper
  inside : lo ≤ r.lower ∧ r.lower ≤ r.upper ∧ r.upper ≤ hi
  first : f lo ≥ y0 → r.lower = lo ∧ r.upper = lo
  last : f lo < y0 → f hi ≤ y0 → r.lower = hi ∧ r.upper = hi
  between : f lo < y0 → y0 < f hi → r.upper - r.lower ≤ 1 ∧
    (r.lower < r.upper ∧ f r.lower < y0 ∧ y0 ≤ f r.upper ∨ r.lower = r.upper ∧ f r.lower = y0)

/-- The interval lies between `lo` and `hi`, and the target between the values at its ends. -/
structure Encloses (f : Int → Int) (lo hi y0 : Int) (b : Bracket) : Prop where
  y1 : b.y1 = f b.x1
  y2 : b.y2 = f b.x2
  lower : lo ≤ b.x1
  upper : b.x2 ≤ hi
  order : b.x1 < b.x2
  below : f b.x1 < y0
  above : y0 ≤ f b.x2

/-- Between the ends a point takes the place of one of them. -/
theorem Encloses.replace (h : Encloses f lo hi y0 b) {x3 : Int} (hlow : b.x1 < x3) (hupp : x3 < b.x2) :
    Encloses f lo hi y0 (b.replace y0 x3 (f x3)) ∧
      (b.replace y0 x3 (f x3)).x2 - (b.replace y0 x3 (f x3)).x1 < b.x2 - b.x1 := by
  have hlower := h.lower
  have hupper := h.upper
  unfold Bracket.replace
  split
  · rename_i hbelow
    exact ⟨⟨rfl, h.y2, by dsimp only; omega, hupper, hupp, hbelow, h.above⟩, by dsimp only; omega⟩
  · rename_i habove
    exact ⟨⟨h.y1, rfl, hlower, by dsimp only; omega, hlow, h.below, Int.not_lt.mp habove⟩,
      by dsimp only; omega⟩

/-- What the search has found in the interval. -/
structure Found (f : Int → Int) (lo hi y0 : Int) (r : Crossing) : Prop where
  lowerValue : r.lowerValue = f r.lower
  upperValue : r.upperValue = f r.upper
  inside : lo ≤ r.lower ∧ r.lower ≤ r.upper ∧ r.upper ≤ hi
  between : r.upper - r.lower ≤ 1 ∧
    (r.lower < r.upper ∧ f r.lower < y0 ∧ y0 ≤ f r.upper ∨ r.lower = r.upper ∧ f r.lower = y0)

/-- A round finds the crossing, or the interval gets shorter around it. -/
theorem encloses_tryPoint (h : Encloses f lo hi y0 b) (hlong : b.x2 > b.x1 + 1)
    (herror : ∀ x, lo ≤ x → x ≤ hi → isError (f x) = false) {x3 : Int} (hlow : b.x1 ≤ x3)
    (hupp : x3 ≤ b.x2) :
    (∃ r, tryPoint f isError y0 b x3 = .done r ∧ Found f lo hi y0 r) ∨
      ∃ b', tryPoint f isError y0 b x3 = .next b' ∧ Encloses f lo hi y0 b' ∧
        b'.x2 - b'.x1 < b.x2 - b.x1 := by
  have hlower := h.lower
  have hupper := h.upper
  have hnone (x : Int) (hx : b.x1 ≤ x) (hx' : x ≤ b.x2) : isError (f x) = false :=
    herror x (by omega) (by omega)
  unfold tryPoint
  split
  · -- The point is the upper end, so the one in front of it is looked at.
    rename_i hx
    subst hx
    rw [hnone _ (by omega) (by omega)]
    split
    · rename_i hbelow
      refine .inl ⟨_, rfl, rfl, h.y2, by dsimp only; omega, by dsimp only; omega, .inl ⟨?_, ?_, h.above⟩⟩
      · dsimp only
        omega
      · simpa using hbelow
    · exact .inr ⟨_, rfl, h.replace (by omega) (by omega)⟩
  · split
    · -- The point is the lower end, so the one behind it is looked at.
      rename_i hx
      subst hx
      rw [hnone _ (by omega) (by omega)]
      split
      · rename_i habove
        refine .inl ⟨_, rfl, h.y1, rfl, by dsimp only; omega, by dsimp only; omega, .inl ⟨?_, h.below, ?_⟩⟩
        · dsimp only
          omega
        · simpa using habove
      · exact .inr ⟨_, rfl, h.replace (by omega) (by omega)⟩
    · rename_i hnotUpper hnotLower
      rw [hnone x3 hlow hupp]
      split
      · rename_i hmeets
        refine .inl ⟨_, rfl, rfl, rfl, by dsimp only; omega, by dsimp only; omega, .inr ⟨rfl, ?_⟩⟩
        simpa using hmeets
      · exact .inr ⟨_, rfl, h.replace (by omega) (by omega)⟩

/-- The loop ends within as many rounds as the interval is long. -/
theorem found_searchLoop {interpolated : Bracket → Int}
    (herror : ∀ x, lo ≤ x → x ≤ hi → isError (f x) = false)
    (hpoint : ∀ b, Encloses f lo hi y0 b → b.x1 ≤ interpolated b ∧ interpolated b ≤ b.x2) (fuel : Nat)
    (h : Encloses f lo hi y0 b) (hfuel : b.x2 - b.x1 ≤ fuel) :
    ∃ r, searchLoop f isError y0 interpolated fuel b = some r ∧ Found f lo hi y0 r := by
  induction fuel generalizing b with
  | zero =>
    have := h.order
    omega
  | succ fuel ih =>
    unfold searchLoop
    split
    · rename_i hlong
      obtain ⟨hlow, hupp⟩ := hpoint b h
      obtain ⟨r, hdone, hfound⟩ | ⟨b', hnext, hb', hshorter⟩ :=
        encloses_tryPoint h hlong herror hlow hupp
      · rw [hdone]
        exact ⟨r, rfl, hfound⟩
      · rw [hnext]
        exact ih hb' (by omega)
    · rename_i hshort
      have horder := h.order
      have hlower := h.lower
      have hupper := h.upper
      exact ⟨_, rfl, h.y1, h.y2, by dsimp only; omega, by dsimp only; omega,
        .inl ⟨horder, h.below, h.above⟩⟩

/-- The search ends, and finds where the function crosses the target. -/
theorem falsePositionMethod_crosses {interpolated : Bracket → Int} (hle : lo ≤ hi)
    (herror : ∀ x, lo ≤ x → x ≤ hi → isError (f x) = false)
    (hpoint : ∀ b, Encloses f lo hi y0 b → b.x1 ≤ interpolated b ∧ interpolated b ≤ b.x2)
    {fuel : Nat} (hfuel : hi - lo ≤ fuel) :
    ∃ r, falsePositionMethod f isError y0 interpolated fuel lo hi = some r ∧ Crosses f lo hi y0 r := by
  unfold falsePositionMethod
  rw [herror lo (Int.le_refl lo) hle, herror hi hle (Int.le_refl hi)]
  simp only [Bool.false_or, decide_eq_true_eq, ge_iff_le]
  split
  · rename_i hfirst
    refine ⟨_, rfl, rfl, rfl, ⟨Int.le_refl lo, Int.le_refl lo, hle⟩, fun _ => ⟨rfl, rfl⟩, ?_, ?_⟩
    · intro hbelow
      omega
    · intro hbelow
      omega
  · rename_i hfirst
    split
    · rename_i hlast
      refine ⟨_, rfl, rfl, rfl, ⟨hle, Int.le_refl hi, Int.le_refl hi⟩, ?_, fun _ _ => ⟨rfl, rfl⟩, ?_⟩
      · intro habove
        omega
      · intro _ habove
        omega
    · rename_i hlast
      have hne : lo ≠ hi := fun heq => by
        subst heq
        omega
      obtain ⟨r, hr, hfound⟩ := found_searchLoop herror hpoint fuel
        (b := ⟨lo, f lo, hi, f hi⟩)
        ⟨rfl, rfl, Int.le_refl lo, Int.le_refl hi, by dsimp only; omega, by dsimp only; omega,
          by dsimp only; omega⟩ hfuel
      refine ⟨r, hr, hfound.lowerValue, hfound.upperValue, hfound.inside, ?_, ?_, fun _ _ => hfound.between⟩
      · intro habove
        omega
      · intro _ hnot
        omega

/-! ### The point of the source -/

theorem roundQuotient_mem {n d lo hi : Int} (hd : 0 < d) (hlo : lo * d ≤ n) (hhi : n ≤ hi * d) :
    lo ≤ roundQuotient n d ∧ roundQuotient n d ≤ hi := by
  have hpos : (0 : Int) < 2 * d := by omega
  unfold roundQuotient
  split
  · constructor
    · rw [Int.le_ediv_iff_mul_le hpos]
      nlinarith
    · rw [← Int.lt_add_one_iff, Int.ediv_lt_iff_lt_mul hpos]
      nlinarith
  · constructor
    · rw [le_neg, ← Int.lt_add_one_iff, Int.ediv_lt_iff_lt_mul hpos]
      nlinarith
    · rw [neg_le, Int.le_ediv_iff_mul_le hpos]
      nlinarith

/-- The line through the ends meets the target between them. -/
theorem interpolate_mem (h : Encloses f lo hi y0 b) :
    b.x1 ≤ interpolate y0 b ∧ interpolate y0 b ≤ b.x2 := by
  have hbelow := h.below
  have habove := h.above
  rw [← h.y1] at hbelow
  rw [← h.y2] at habove
  have horder := h.order
  refine roundQuotient_mem (by omega) ?_ ?_
  · nlinarith
  · nlinarith

/-- A line with the slope 10. -/
theorem falsePositionMethod_line : ∃ r,
    falsePositionMethod (fun x => 10 * x) (fun _ => false) 95 (interpolate 95) 24 1 25 = some r ∧
      Crosses (fun x => 10 * x) 1 25 95 r :=
  falsePositionMethod_crosses (by decide) (fun _ _ _ => rfl) (fun _ h => interpolate_mem h) (by decide)

end Odss.Mac.FalsePosition
