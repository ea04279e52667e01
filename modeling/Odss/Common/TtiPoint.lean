import Odss.Lib.CyclicDist

/-!
# `Odss.Common.TtiPoint`: points in the circular TTI space

`tti_point` and `tti_interval` (`lib/include/srsran/common/tti_point.h`, `adt/interval.h`). A TTI is
a number below 10240. The order compares two points over the shorter way around.

`contains_add_iff` and `dist_le_of_ge` say what the two tests of a window mean: how far a point is
behind the start or behind the end, around the circle.
-/

set_option linter.all false

namespace Odss.Common

open Odss.Lib

/-- `tti_point` -/
@[ext] structure TtiPoint where
  val : Nat
  lt_size : val < 10240
deriving DecidableEq

namespace TtiPoint

/-- The constructor of `tti_point` from a number. -/
def ofNat (n : Nat) : TtiPoint := ⟨n % 10240, Nat.mod_lt n (by omega)⟩

/-- `operator+` -/
def add (t : TtiPoint) (jump : Nat) : TtiPoint := ofNat (t.val + jump)

/-- `operator<` -/
def lt (a b : TtiPoint) : Bool :=
  let lowerVal := decide (a.val < b.val)
  let wrapFlag := decide ((if lowerVal then b.val - a.val else a.val - b.val) > 10240 / 2)
  lowerVal != wrapFlag

/-- `operator<=` -/
def le (a b : TtiPoint) : Bool := a == b || a.lt b

/-- `operator>=` -/
def ge (a b : TtiPoint) : Bool := !a.lt b

/-- `operator-` of two points: the way from the second to the first, over the shorter side. -/
def sub (a b : TtiPoint) : Int :=
  let diff := (a.val : Int) - b.val
  if diff > 10240 / 2 then diff - 10240
  else if diff < -10240 / 2 then diff + 10240
  else diff

/-- `TX_ENB_DELAY` -/
abbrev txEnbDelay : Nat := 4

/-- `FDD_HARQ_DELAY_DL_MS` -/
abbrev fddHarqDelayDlMs : Nat := 4

/-- `to_tx_dl` -/
def toTxDl (t : TtiPoint) : TtiPoint := t.add txEnbDelay

/-- `to_tx_ul` -/
def toTxUl (t : TtiPoint) : TtiPoint := t.add (txEnbDelay + fddHarqDelayDlMs)

/-- `to_tx_dl_ack` -/
def toTxDlAck (t : TtiPoint) : TtiPoint := t.toTxUl

/-- `contains` of a `tti_interval` -/
def contains (start stop t : TtiPoint) : Bool := start.le t && t.lt stop

/-- How far `b` is behind `a`, around the circle. -/
def dist (a b : TtiPoint) : Nat := cycDist 10240 a.val b.val

/-- A point before the other one in the order is at most half of the space before it. -/
theorem lt_cases (a b : TtiPoint) :
    (a.lt b = true → 0 < dist a b ∧ dist a b ≤ 5120) ∧
      (a.lt b = false → dist a b = 0 ∨ 5120 ≤ dist a b) := by
  have ha := a.lt_size
  have hb := b.lt_size
  unfold lt dist
  by_cases h : a.val < b.val
  · rw [cycDist_of_le hb (Nat.le_of_lt h)]
    simp [h]
    omega
  · simp [h]
    rcases Nat.eq_or_lt_of_le (Nat.le_of_not_lt h) with heq | hlt
    · rw [heq, cycDist_self]
      omega
    · rw [cycDist_of_lt ha hlt]
      omega

theorem dist_add (a t : TtiPoint) {w : Nat} (hw : w < 10240) :
    dist (a.add w) t = if w ≤ dist a t then dist a t - w else dist a t + 10240 - w := by
  have ha := a.lt_size
  have ht := t.lt_size
  have hadd : (a.add w).val = (a.val + w) % 10240 := rfl
  unfold dist cycDist
  rw [hadd]
  split <;> omega

theorem dist_lt (a b : TtiPoint) : dist a b < 10240 := Nat.mod_lt _ (by omega)

/-- The distance the other way around. -/
theorem dist_back (a b : TtiPoint) :
    dist b a = if dist a b = 0 then 0 else 10240 - dist a b := by
  have ha := a.lt_size
  have hb := b.lt_size
  unfold dist cycDist
  split <;> omega

theorem eq_iff_dist (a b : TtiPoint) : a = b ↔ dist a b = 0 := by
  have ha := a.lt_size
  have hb := b.lt_size
  cases a
  cases b
  rw [dist, cycDist_eq_zero_iff ha hb, TtiPoint.mk.injEq]
  exact eq_comm

/-- A short window contains the points that are less than its length behind its start. -/
theorem contains_add_iff (start t : TtiPoint) {w : Nat} (hpos : 0 < w) (hw : w < 5120) :
    contains start (start.add w) t = true ↔ dist start t < w := by
  obtain ⟨hstart, hstart'⟩ := lt_cases start t
  obtain ⟨hstop, hstop'⟩ := lt_cases t (start.add w)
  have hadd := dist_add start t (w := w) (by omega)
  have hback := dist_back (start.add w) t
  have hlt := dist_lt start t
  simp only [contains, le, Bool.and_eq_true, Bool.or_eq_true, beq_iff_eq, eq_iff_dist]
  constructor
  · intro h
    obtain ⟨hfirst, hsecond⟩ := h
    have hsecond := hstop hsecond
    -- At most half of the space behind the start, and not behind the end.
    have hhalf : dist start t ≤ 5120 := by
      rcases hfirst with hzero | hfirst
      · omega
      · exact (hstart hfirst).2
    by_contra hfar
    rw [if_pos (by omega)] at hadd
    split at hback <;> omega
  · intro h
    rw [if_neg (by omega)] at hadd
    rw [if_neg (by omega), hadd] at hback
    constructor
    · cases hcmp : start.lt t with
      | true => exact Or.inr rfl
      | false =>
        have := hstart' hcmp
        exact Or.inl (by omega)
    · cases hcmp : t.lt (start.add w) with
      | true => rfl
      | false =>
        have := hstop' hcmp
        omega

/-- A point that is not before the end is at most half of the space behind it. -/
theorem dist_le_of_ge {t stop : TtiPoint} (h : ge t stop = true) : dist stop t ≤ 5120 := by
  have hlt : t.lt stop = false := by simpa [ge] using h
  have hback := dist_back t stop
  rcases (lt_cases t stop).2 hlt with hzero | hfar
  · rw [hback, if_pos hzero]
    omega
  · rw [hback, if_neg (by omega)]
    omega

end TtiPoint

end Odss.Common
