import PipelineX.Rounding

/-!
# Floats of a binary format

Finite numbers of the format, the infinities and the undefined result, with
operations that round to nearest and overflow to infinity. The zeros of both
signs are one number here. A division by zero and the square root of a
negative number have no value.
-/

set_option autoImplicit false

namespace PipelineX
open PipelineX.Rounding

inductive Double (f : Format) where
  | finite (x : ℚ) (h : Representable f x ∧ |x| < 2^f.bound)
  | inf (negative : Bool)
  | nan

namespace Double
variable {f : Format}

def ofRat (f : Format) (x : ℚ) : Double f :=
  if h : |round f x| < 2^f.bound then .finite (round f x) ⟨round_representable x,h⟩
  else .inf (x < 0)

def zero : Double f := .finite 0 ⟨representable_zero,by rw [abs_zero]; exact zpow_pos (by norm_num) _⟩

def isFinite : Double f → Bool
  | .finite _ _ => true
  | _ => false

def neg : Double f → Double f
  | .finite x h => .finite (-x) ⟨h.1.neg,by rw [abs_neg]; exact h.2⟩
  | .inf negative => .inf (!negative)
  | .nan => .nan

def add : Double f → Double f → Double f
  | .finite x _, .finite y _ => ofRat f (x+y)
  | .finite _ _, .inf negative => .inf negative
  | .inf negative, .finite _ _ => .inf negative
  | .inf a, .inf b => if a = b then .inf a else .nan
  | .nan, _ => .nan
  | _, .nan => .nan

def sub (x y : Double f) : Double f := add x (neg y)

def mul : Double f → Double f → Double f
  | .finite x _, .finite y _ => ofRat f (x*y)
  | .finite x _, .inf negative => if x = 0 then .nan else .inf (xor negative (x < 0))
  | .inf negative, .finite y _ => if y = 0 then .nan else .inf (xor negative (y < 0))
  | .inf a, .inf b => .inf (xor a b)
  | .nan, _ => .nan
  | _, .nan => .nan

/-- No value when dividing by zero. -/
def div : Double f → Double f → Option (Double f)
  | x, .finite y _ =>
    if y = 0 then none
    else match x with
      | .finite x _ => some (ofRat f (x/y))
      | .inf negative => some (.inf (xor negative (y < 0)))
      | .nan => some .nan
  | .finite _ _, .inf _ => some zero
  | .inf _, .inf _ => some .nan
  | .nan, _ => some .nan
  | _, .nan => some .nan

def abs : Double f → Double f
  | .finite x h => .finite |x| ⟨by rcases abs_choice x with hx | hx <;> rw [hx]; exacts [h.1,h.1.neg],
      by rw [abs_abs]; exact h.2⟩
  | .inf _ => .inf false
  | .nan => .nan

/-- The root of a positive number to the digits of the format: the whole part
in steps, and whether the rest is over a half. -/
def sqrtRat (f : Format) (x : ℚ) : ℚ :=
  let s := max (Int.log 2 x/2+1-f.precision) f.lowest
  let y := x/4^s
  let n := Nat.sqrt ⌊y⌋₊
  let half : ℚ := (n+1/2)^2
  (if half < y ∨ half = y ∧ n%2 = 1 then n+1 else n : ℕ)*2^s

/-- No value for a negative number. -/
def sqrt : Double f → Option (Double f)
  | .finite x _ => if x < 0 then none else if x = 0 then some zero else some (ofRat f (sqrtRat f x))
  | .inf negative => if negative then none else some (.inf false)
  | .nan => some .nan

def lt : Double f → Double f → Bool
  | .finite x _, .finite y _ => x < y
  | .finite _ _, .inf negative => !negative
  | .inf negative, .finite _ _ => negative
  | .inf a, .inf b => a && !b
  | _, _ => false

def eq : Double f → Double f → Bool
  | .finite x _, .finite y _ => x = y
  | .inf a, .inf b => a = b
  | _, _ => false

def le (x y : Double f) : Bool := lt x y || eq x y

/-- From left to right. -/
def sumPlain : List (Double f) → Double f
  | [] => zero
  | x::xs => xs.foldl add x

/-- One term of a sum that keeps what rounding loses. -/
def compensate (acc : Double f × Double f) (x : Double f) : Double f × Double f :=
  let t := add acc.1 x
  let lost := if le (abs x) (abs acc.1) then add (sub acc.1 t) x else add (sub x t) acc.1
  (t,add acc.2 lost)

def sumCompensated : List (Double f) → Double f
  | [] => zero
  | x::xs =>
    let acc := xs.foldl compensate (x,zero)
    if isFinite acc.2 then add acc.1 acc.2 else acc.1

theorem sumCompensated_pair (x y : Double f) : sumCompensated [x,y] =
    if isFinite (compensate (x,zero) y).2
      then add (compensate (x,zero) y).1 (compensate (x,zero) y).2
      else (compensate (x,zero) y).1 := rfl

/-- Not below zero; what is undefined is not. -/
def NotNegative : Double f → Prop
  | .finite x _ => 0 ≤ x
  | .inf negative => negative = false
  | .nan => True

theorem ofRat_finite {x : ℚ} (h : |round f x| < 2^f.bound) :
    ofRat f x = .finite (round f x) ⟨round_representable x,h⟩ :=
  dif_pos h

theorem ofRat_inf {x : ℚ} (h : 2^f.bound ≤ |round f x|) : ofRat f x = .inf (x < 0) :=
  dif_neg (not_lt.mpr h)

theorem ofRat_eq {x : ℚ} (h : Representable f x ∧ |x| < 2^f.bound) : ofRat f x = .finite x h := by
  have hround := round_of_representable h.1
  rw [ofRat_finite (hround.symm ▸ h.2)]
  simp only [hround]

theorem ofRat_zero : ofRat f 0 = zero := ofRat_eq _

theorem sub_zero (x : ℚ) (h : Representable f x ∧ |x| < 2^f.bound) :
    sub (.finite x h) zero = .finite x h := by
  show ofRat f (x+-0) = _
  rw [neg_zero, add_zero, ofRat_eq h]

theorem ofRat_notNegative {x : ℚ} (hx : 0 ≤ x) : NotNegative (ofRat f x) := by
  unfold ofRat
  split
  · exact round_nonneg hx
  · exact decide_eq_false (not_lt.mpr hx)

theorem add_notNegative {a b : Double f} (ha : NotNegative a) (hb : NotNegative b) :
    NotNegative (add a b) := by
  cases a with
  | finite x hx =>
    cases b with
    | finite y hy => exact ofRat_notNegative (add_nonneg ha hb)
    | inf negative => exact hb
    | nan => trivial
  | inf a =>
    cases b with
    | finite y hy => exact ha
    | inf b =>
      rw [add, if_pos (ha.trans hb.symm)]
      exact ha
    | nan => trivial
  | nan => trivial

theorem foldl_notNegative {xs : List (Double f)} {s : Double f} (hs : NotNegative s)
    (h : ∀ x ∈ xs, NotNegative x) : NotNegative (xs.foldl add s) := by
  induction xs generalizing s with
  | nil => exact hs
  | cons x xs ih =>
    exact ih (add_notNegative hs (h x List.mem_cons_self))
      fun y hy => h y (List.mem_cons_of_mem _ hy)

theorem sumPlain_notNegative {xs : List (Double f)} (h : ∀ x ∈ xs, NotNegative x) :
    NotNegative (sumPlain xs) := by
  cases xs with
  | nil => exact le_refl (0 : ℚ)
  | cons x xs =>
    exact foldl_notNegative (h x List.mem_cons_self) fun y hy => h y (List.mem_cons_of_mem _ hy)

/-- While the sum is finite, what has been kept of the losses is finite and no
larger than the sum. -/
def Kept (acc : Double f × Double f) : Prop :=
  match acc.1 with
  | .finite s _ => ∃ c h, acc.2 = .finite c h ∧ |c| ≤ s
  | .inf negative => negative = false
  | .nan => True

theorem compensate_fst (acc : Double f × Double f) (x : Double f) :
    (compensate acc x).1 = add acc.1 x := rfl

/-- The loss of two finite numbers, the larger one first. -/
theorem lost_finite {a b t : ℚ} (ha : Representable f a ∧ |a| < 2^f.bound)
    (hb : Representable f b ∧ |b| < 2^f.bound) (ht : Representable f t ∧ |t| < 2^f.bound)
    (h0 : 0 ≤ b) (hba : b ≤ a) (hround : t = round f (a+b)) :
    ∃ d hd, add (sub (.finite a ha) (.finite t ht)) (.finite b hb) = .finite d hd ∧ |d| ≤ b := by
  subst hround
  obtain ⟨hlow,hfirst,hsecond⟩ := lost_le ha.1 hb.1 h0 hba
  have htneg : |round f (a-round f (a+b))| < 2^f.bound := by
    apply lt_of_le_of_lt _ ht.2
    rw [abs_of_nonneg (by linarith : 0 ≤ round f (a+b))]
    exact abs_round_le ht.1 (abs_le.mpr ⟨by linarith,by linarith⟩)
  have hd : |round f (round f (a-round f (a+b))+b)| < 2^f.bound :=
    hsecond.trans_lt ((le_abs_self b).trans_lt hb.2)
  refine ⟨_,⟨round_representable _,hd⟩,?_,hsecond⟩
  rw [sub, neg, add, ← sub_eq_add_neg, ofRat_finite htneg, add, ofRat_finite hd]

theorem le_finite {x y : ℚ} {hx : Representable f x ∧ |x| < 2^f.bound}
    {hy : Representable f y ∧ |y| < 2^f.bound} : le (.finite x hx) (.finite y hy) = true ↔ x ≤ y := by
  rw [le, lt, eq, Bool.or_eq_true, decide_eq_true_eq, decide_eq_true_eq, ← le_iff_lt_or_eq]

/-- The loss of a sum that stays finite is no more than the second term adds. -/
theorem loss_finite {s x : ℚ} (hs : Representable f s ∧ |s| < 2^f.bound)
    (hx : Representable f x ∧ |x| < 2^f.bound) (h0s : 0 ≤ s) (h0x : 0 ≤ x)
    (ht : Representable f (round f (s+x)) ∧ |round f (s+x)| < 2^f.bound) :
    ∃ d hd, (if le (abs (.finite x hx)) (abs (.finite s hs))
      then add (sub (.finite s hs) (.finite _ ht)) (.finite x hx)
      else add (sub (.finite x hx) (.finite _ ht)) (.finite s hs)) = .finite d hd ∧ |d| ≤ x := by
  have hle : le (abs (.finite x hx)) (abs (.finite s hs)) = true ↔ x ≤ s := by
    rw [abs, abs, le_finite, abs_of_nonneg h0x, abs_of_nonneg h0s]
  by_cases hxs : x ≤ s
  · rw [if_pos (hle.mpr hxs)]
    exact lost_finite hs hx ht h0x hxs rfl
  · rw [if_neg (fun h => hxs (hle.mp h))]
    obtain ⟨d,hd,hlost,hds⟩ := lost_finite hx hs ht h0s (not_le.mp hxs).le (by rw [add_comm])
    exact ⟨d,hd,hlost,hds.trans (not_le.mp hxs).le⟩

/-- So what has been kept of the losses stays below the sum. -/
theorem abs_round_kept_le {s x c d : ℚ} (hc : |c| ≤ s) (hd : |d| ≤ x) :
    |round f (c+d)| ≤ round f (s+x) := by
  have habs : |c+d| ≤ s+x := (abs_add_le c d).trans (by linarith)
  obtain ⟨hlow,hhigh⟩ := abs_le.mp habs
  rw [abs_le, ← round_neg]
  exact ⟨round_mono hlow,round_mono hhigh⟩

theorem compensate_kept {acc : Double f × Double f} {x : Double f} (h : Kept acc)
    (hx : NotNegative x) : Kept (compensate acc x) := by
  obtain ⟨s,c⟩ := acc
  cases s with
  | inf negative =>
    cases x with
    | finite x hx' => exact h
    | inf b =>
      unfold Kept
      rw [compensate_fst, add, if_pos ((show negative = false from h).trans hx.symm)]
      exact h
    | nan => trivial
  | nan => trivial
  | finite s hs =>
    cases x with
    | inf b => exact hx
    | nan => trivial
    | finite x hxf =>
      obtain ⟨c,hc,rfl,hcs⟩ := h
      have h0s : 0 ≤ s := (abs_nonneg c).trans hcs
      have h0x : 0 ≤ x := hx
      by_cases ht : |round f (s+x)| < 2^f.bound
      · -- the sum stays finite, so the loss does and what is kept stays below it
        have hsum : add (.finite s hs) (.finite x hxf) =
            .finite (round f (s+x)) ⟨round_representable _,ht⟩ := ofRat_finite ht
        obtain ⟨d,hd,hlost,hdx⟩ := loss_finite hs hxf h0s h0x ⟨round_representable _,ht⟩
        have hkeep := abs_round_kept_le (f := f) hcs hdx
        have hfinite : |round f (c+d)| < 2^f.bound :=
          hkeep.trans_lt ((le_abs_self _).trans_lt ht)
        unfold Kept
        rw [compensate_fst, hsum]
        refine ⟨round f (c+d),⟨round_representable _,hfinite⟩,?_,hkeep⟩
        unfold compensate
        dsimp only
        rw [hsum, hlost, add, ofRat_finite hfinite]
      · unfold Kept
        rw [compensate_fst, add, ofRat_inf (not_lt.mp ht)]
        exact decide_eq_false (not_lt.mpr (by linarith))

theorem foldl_kept {xs : List (Double f)} {acc : Double f × Double f} (hacc : Kept acc)
    (h : ∀ x ∈ xs, NotNegative x) : Kept (xs.foldl compensate acc) := by
  induction xs generalizing acc with
  | nil => exact hacc
  | cons x xs ih =>
    exact ih (compensate_kept hacc (h x List.mem_cons_self))
      fun y hy => h y (List.mem_cons_of_mem _ hy)

/-- Nothing has been lost before the first term is added. -/
theorem kept_start {x : Double f} (hx : NotNegative x) : Kept (x,(zero : Double f)) := by
  cases x with
  | finite x hxf => exact ⟨0,_,rfl,by rw [abs_zero]; exact hx⟩
  | inf negative => exact hx
  | nan => trivial

/-- With the losses added back the sum of numbers that are not negative is not
negative either. -/
theorem sumCompensated_notNegative {xs : List (Double f)} (h : ∀ x ∈ xs, NotNegative x) :
    NotNegative (sumCompensated xs) := by
  cases xs with
  | nil => exact le_refl (0 : ℚ)
  | cons x xs =>
    have hkept := foldl_kept (kept_start (h x List.mem_cons_self))
      fun y hy => h y (List.mem_cons_of_mem _ hy)
    rw [sumCompensated]
    generalize xs.foldl compensate (x,zero) = acc at hkept
    obtain ⟨s,c⟩ := acc
    cases s with
    | finite s hs =>
      obtain ⟨c,hc,rfl,hcs⟩ := hkept
      have hnonneg : 0 ≤ s+c := by linarith [neg_abs_le c]
      exact ofRat_notNegative hnonneg
    | inf negative =>
      have hn : negative = false := hkept
      cases c with
      | finite c hc => exact hn
      | inf b => exact hn
      | nan => exact hn
    | nan =>
      dsimp only
      split <;> trivial

end Double
end PipelineX
