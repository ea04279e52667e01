import Mathlib.Tactic

/-!
# `Odss.Mac.FalsePosition`: the search for the PRBs of a grant

`false_position_method` (`srsenb/src/stack/mac/sched_ue_ctrl/sched_ue_cell.cc`), for values of type
`int`. It looks for the place where a function crosses a target. The point between the ends of the
interval is computed with `float`, so it is a parameter of the model; `interpolate` is what it is
without the roundings of `float`. `none` is a loop that has not ended within the fuel.
-/

set_option linter.all false

namespace Odss.Mac.FalsePosition

/-- The result: two points with the values there. -/
structure Crossing where
  lower : Int
  lowerValue : Int
  upper : Int
  upperValue : Int
deriving DecidableEq, Repr

/-- The variables of the loop: the ends of the interval with the values there. -/
structure Bracket where
  x1 : Int
  y1 : Int
  x2 : Int
  y2 : Int
deriving DecidableEq, Repr

/-- A round of the loop returns a result, or goes on with another interval. -/
inductive Round where
  | done (result : Crossing)
  | next (b : Bracket)

/-- The end of a round: `x3` becomes one of the ends. -/
def Bracket.replace (b : Bracket) (y0 x3 y3 : Int) : Bracket :=
  if y3 < y0 then { b with x1 := x3, y1 := y3 } else { b with x2 := x3, y2 := y3 }

section Search

variable (f : Int → Int) (isError : Int → Bool) (y0 : Int)

/-- The part of a round for a point `x3` between the ends, or at one of them. -/
def tryPoint (b : Bracket) (x3 : Int) : Round :=
  if x3 = b.x2 then
    if !isError (f (x3 - 1)) && decide (f (x3 - 1) < y0) then .done ⟨x3 - 1, f (x3 - 1), x3, b.y2⟩
    else .next (b.replace y0 (x3 - 1) (f (x3 - 1)))
  else if x3 = b.x1 then
    if !isError (f (x3 + 1)) && decide (f (x3 + 1) ≥ y0) then .done ⟨x3, b.y1, x3 + 1, f (x3 + 1)⟩
    else .next (b.replace y0 (x3 + 1) (f (x3 + 1)))
  else if isError (f x3) || f x3 == y0 then .done ⟨x3, f x3, x3, f x3⟩
  else .next (b.replace y0 x3 (f x3))

/-- The loop. `interpolated` gives the point `x3` of an interval. -/
def searchLoop (interpolated : Bracket → Int) : Nat → Bracket → Option Crossing
  | 0, _ => none
  | fuel + 1, b =>
    if b.x2 > b.x1 + 1 then
      match tryPoint f isError y0 b (interpolated b) with
      | .done result => some result
      | .next b => searchLoop interpolated fuel b
    else some ⟨b.x1, b.y1, b.x2, b.y2⟩

/-- `false_position_method` -/
def falsePositionMethod (interpolated : Bracket → Int) (fuel : Nat) (x1 x2 : Int) : Option Crossing :=
  if isError (f x1) || decide (f x1 ≥ y0) then some ⟨x1, f x1, x1, f x1⟩
  else if isError (f x2) || decide (f x2 ≤ y0) then some ⟨x2, f x2, x2, f x2⟩
  else searchLoop f isError y0 interpolated fuel ⟨x1, f x1, x2, f x2⟩

end Search

/-- `round` of a quotient with a positive divisor: halves go away from zero. -/
def roundQuotient (n d : Int) : Int :=
  if 0 ≤ n then (2 * n + d) / (2 * d) else -((2 * -n + d) / (2 * d))

/-- The point where the line through the ends meets the target. -/
def interpolate (y0 : Int) (b : Bracket) : Int :=
  roundQuotient (b.x1 * (b.y2 - b.y1) - (b.x2 - b.x1) * (b.y1 - y0)) (b.y2 - b.y1)

end Odss.Mac.FalsePosition
