import PipelineX.Double
import PipelineX.Records

/-!
# The numbers that the detectors compute with

The operations of Python's `float` that the detectors use, over any type of
numbers, and the floats themselves. An operation that can raise says so. The
floats come with either `sum`: from left to right, as before Python 3.12, or
with the losses added back.
-/

set_option autoImplicit false

namespace PipelineX
open PipelineX.Records PipelineX.Rounding

structure PyFloat (F : Type) where
  literal : ℚ → F
  /-- `float(n)`. -/
  ofInt : ℤ → Except PyError F
  /-- `int(x)`. -/
  toInt : F → Except PyError ℤ
  add : F → F → F
  sub : F → F → F
  mul : F → F → F
  div : F → F → Except PyError F
  abs : F → F
  /-- `x ** 2`. -/
  square : F → Except PyError F
  /-- `math.sqrt(x)`. -/
  sqrt : F → Except PyError F
  /-- `x ** 0.5`, where a number is expected. -/
  root : F → Except PyError F
  sum : List F → F
  lt : F → F → Bool
  le : F → F → Bool
  eq : F → F → Bool

/-- `max(a, b)`. -/
def PyFloat.max {F : Type} (py : PyFloat F) (a b : F) : F := if py.lt a b then b else a

/-- The format of a C double. -/
def binary64 : Format := ⟨53,-1074,1024,by norm_num⟩

/-- Python's `float`. -/
abbrev Float64 := Double binary64

namespace Float64

/-- A result that must not be infinite. -/
def inRange (message : String) : Float64 → Except PyError Float64
  | .inf _ => .error (.other "OverflowError" message)
  | x => .ok x

def ofInt (n : ℤ) : Except PyError Float64 :=
  inRange "int too large to convert to float" (Double.ofRat binary64 n)

def toInt : Float64 → Except PyError ℤ
  | .finite x _ => .ok (if x < 0 then ⌈x⌉ else ⌊x⌋)
  | .inf _ => .error (.other "OverflowError" "cannot convert float infinity to integer")
  | .nan => .error (.other "ValueError" "cannot convert float NaN to integer")

def div (x y : Float64) : Except PyError Float64 :=
  match Double.div x y with
  | some z => .ok z
  | none => .error (.other "ZeroDivisionError" "float division by zero")

def square : Float64 → Except PyError Float64
  | .finite x _ => inRange "(34, 'Numerical result out of range')" (Double.ofRat binary64 (x*x))
  | .inf _ => .ok (.inf false)
  | .nan => .ok .nan

def sqrt (x : Float64) : Except PyError Float64 :=
  match Double.sqrt x with
  | some z => .ok z
  | none => .error (.other "ValueError" "math domain error")

/-- The root of a negative number is complex, which has no order. -/
def root (x : Float64) : Except PyError Float64 :=
  match x with
  | .inf _ => .ok (.inf false)
  | x =>
    match Double.sqrt x with
    | some z => .ok z
    | none => .error (.other "TypeError"
        "'>' not supported between instances of 'float' and 'complex'")

end Float64

def float64 (compensated : Bool) : PyFloat Float64 where
  literal := Double.ofRat binary64
  ofInt := Float64.ofInt
  toInt := Float64.toInt
  add := Double.add
  sub := Double.sub
  mul := Double.mul
  div := Float64.div
  abs := Double.abs
  square := Float64.square
  sqrt := Float64.sqrt
  root := Float64.root
  sum := if compensated then Double.sumCompensated else Double.sumPlain
  lt := Double.lt
  le := Double.le
  eq := Double.eq

namespace Float64
open PipelineX.Double

/-- The square of a finite number is out of range when the number is `2^512` or
more in size. -/
def Far : Float64 → Prop
  | .finite x _ => 2^(512 : ℤ) ≤ |x|
  | _ => False

instance : DecidablePred Far
  | .finite x _ => inferInstanceAs (Decidable (2^(512 : ℤ) ≤ |x|))
  | .inf _ => inferInstanceAs (Decidable False)
  | .nan => inferInstanceAs (Decidable False)

theorem square_inf {x : ℚ} {h : Representable binary64 x ∧ |x| < 2^binary64.bound}
    (hbig : 2^binary64.bound ≤ |round binary64 (x*x)|) : square (.finite x h) =
      .error (.other "OverflowError" "(34, 'Numerical result out of range')") := by
  rw [square, ofRat_inf hbig]
  rfl

theorem square_ok {x : ℚ} {h : Representable binary64 x ∧ |x| < 2^binary64.bound}
    (hsmall : |round binary64 (x*x)| < 2^binary64.bound) : square (.finite x h) =
      .ok (.finite (round binary64 (x*x)) ⟨round_representable _,hsmall⟩) := by
  rw [square, ofRat_finite hsmall]
  rfl

theorem square_far {x : ℚ} (hfar : 2^(512 : ℤ) ≤ |x|) :
    2^binary64.bound ≤ |round binary64 (x*x)| := by
  rw [← abs_mul_abs_self, abs_of_nonneg (round_nonneg (mul_self_nonneg _))]
  exact pow_le_round_square hfar (by decide)

theorem square_near {x : ℚ} (h : Representable binary64 x ∧ |x| < 2^binary64.bound)
    (hnear : |x| < 2^(512 : ℤ)) : |round binary64 (x*x)| < 2^binary64.bound := by
  rw [← abs_mul_abs_self, abs_of_nonneg (round_nonneg (mul_self_nonneg _))]
  exact round_square_lt h.1.abs (abs_nonneg x) hnear (by decide)

/-- Squaring raises for the numbers that are far out, and else gives a number
that is not negative. -/
theorem square_cases (d : Float64) :
    Far d ∧ square d = .error (.other "OverflowError" "(34, 'Numerical result out of range')") ∨
    ¬ Far d ∧ ∃ z, square d = .ok z ∧ NotNegative z := by
  cases d with
  | inf negative => exact Or.inr ⟨id,_,rfl,rfl⟩
  | nan => exact Or.inr ⟨id,_,rfl,trivial⟩
  | finite x h =>
    rcases le_or_gt (2^(512 : ℤ)) |x| with hfar | hnear
    · exact Or.inl ⟨hfar,square_inf (square_far hfar)⟩
    · exact Or.inr ⟨not_le.mpr hnear,_,square_ok (square_near h hnear),
        round_nonneg (mul_self_nonneg x)⟩

/-- A positive number of things, no more than can be counted, is a float. -/
theorem ofInt_pos {n : ℤ} (h : 0 < n) (hn : n ≤ 2^63) : ∃ x hx,
    ofInt n = .ok (.finite x hx) ∧ x = round binary64 n ∧ 1 ≤ x := by
  have hlow : (2 : ℚ)^(0 : ℤ) ≤ round binary64 n := by
    apply le_round_of_le (representable_pow (by decide))
    rw [zpow_zero]
    exact_mod_cast h
  have hhigh : round binary64 n ≤ 2^(63 : ℤ) := by
    apply round_le_of_le (representable_pow (by decide))
    rw [zpow_ofNat]
    exact_mod_cast hn
  rw [zpow_zero] at hlow
  have hsize : |round binary64 n| < 2^binary64.bound := by
    rw [abs_of_nonneg (by linarith)]
    exact hhigh.trans_lt (zpow_lt_zpow_right₀ (by norm_num) (by decide))
  refine ⟨_,⟨round_representable _,hsize⟩,?_,rfl,hlow⟩
  rw [ofInt, ofRat_finite hsize]
  rfl

theorem div_pos {x : Float64} {y : ℚ} (hy : Representable binary64 y ∧ |y| < 2^binary64.bound)
    (h : 0 < y) (hx : NotNegative x) : ∃ z, div x (.finite y hy) = .ok z ∧ NotNegative z := by
  have hlt : ¬ y < 0 := not_lt.mpr h.le
  cases x with
  | finite x hxf =>
    refine ⟨ofRat binary64 (x/y),?_,ofRat_notNegative (div_nonneg hx h.le)⟩
    simp [div, Double.div, h.ne']
  | inf negative =>
    refine ⟨.inf negative,?_,hx⟩
    simp [div, Double.div, h.ne', hlt]
  | nan => exact ⟨.nan,by simp [div, Double.div, h.ne'],trivial⟩

theorem div_some {x y z : Float64} (h : div x y = .ok z) : Double.div x y = some z := by
  unfold div at h
  split at h
  · next hz => rw [hz, Except.ok.inj h]
  · cases h

/-- Only a zero cannot be divided by. -/
theorem div_ok (x : Float64) {y : Float64} (h : Double.eq y zero = false) :
    ∃ z, div x y = .ok z := by
  cases y with
  | finite y hy =>
    have hne : y ≠ 0 := of_decide_eq_false h
    cases x <;> simp [div, Double.div, hne]
  | inf negative => cases x <;> simp [div, Double.div]
  | nan => cases x <;> simp [div, Double.div]

theorem sqrt_ok {x : Float64} (h : NotNegative x) : ∃ z, sqrt x = .ok z := by
  cases x with
  | finite x hx =>
    have hlt : ¬ x < 0 := not_lt.mpr h
    by_cases hzero : x = 0
    · exact ⟨zero,by simp [sqrt, Double.sqrt, hzero]⟩
    · exact ⟨ofRat binary64 (sqrtRat binary64 x),by simp [sqrt, Double.sqrt, hlt, hzero]⟩
  | inf negative =>
    have hn : negative = false := h
    exact ⟨.inf false,by simp [sqrt, Double.sqrt, hn]⟩
  | nan => exact ⟨.nan,rfl⟩

theorem root_ok {x : Float64} (h : NotNegative x) : ∃ z, root x = .ok z := by
  cases x with
  | finite x hx =>
    have hlt : ¬ x < 0 := not_lt.mpr h
    by_cases hzero : x = 0
    · exact ⟨zero,by simp [root, Double.sqrt, hzero]⟩
    · exact ⟨ofRat binary64 (sqrtRat binary64 x),by simp [root, Double.sqrt, hlt, hzero]⟩
  | inf negative => exact ⟨.inf false,rfl⟩
  | nan => exact ⟨.nan,rfl⟩

theorem sum_notNegative (compensated : Bool) {xs : List Float64} (h : ∀ x ∈ xs, NotNegative x) :
    NotNegative ((float64 compensated).sum xs) := by
  cases compensated
  · exact sumPlain_notNegative h
  · exact sumCompensated_notNegative h

end Float64
end PipelineX
