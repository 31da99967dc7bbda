import PipelineX.PyFloat
import Mathlib.Algebra.Order.Floor.Ring
import Mathlib.Algebra.Order.Field.Basic
import Mathlib.Tactic.Linarith

/-!
# Exact arithmetic

The operations of `float` without rounding, over any ordered field with whole
parts. What a root is, is a parameter.
-/

set_option autoImplicit false

namespace PipelineX
open PipelineX.Records
variable {K : Type} [Field K] [LinearOrder K]

def exact [FloorRing K] (root : K → K) : PyFloat K where
  literal q := q
  ofInt n := .ok n
  toInt x := .ok (if x < 0 then ⌈x⌉ else ⌊x⌋)
  add x y := x+y
  sub x y := x-y
  mul x y := x*y
  div x y := if y = 0 then .error (.other "ZeroDivisionError" "float division by zero")
    else .ok (x/y)
  abs x := |x|
  square x := .ok (x*x)
  sqrt x := if x < 0 then .error (.other "ValueError" "math domain error") else .ok (root x)
  root x := if x < 0 then .error (.other "TypeError"
    "'>' not supported between instances of 'float' and 'complex'") else .ok (root x)
  sum xs := xs.sum
  lt x y := x < y
  le x y := x ≤ y
  eq x y := x = y

/-- Square roots that are exact. -/
structure SquareRoot (K : Type) [Field K] [LinearOrder K] where
  root : K → K
  nonneg : ∀ x, 0 ≤ x → 0 ≤ root x
  mul_self : ∀ x, 0 ≤ x → root x*root x = x

end PipelineX
