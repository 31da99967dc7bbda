import PipelineX.Bisect
import PipelineX.Double

/-!
# The values that are not finite

How the infinities and the undefined result go through the operations. A sum
that has one of them stays so, an infinity over an infinity is undefined, and
what is defined is in linear order.
-/

set_option autoImplicit false

namespace PipelineX.Double
open PipelineX.Rounding
variable {f : Format}

theorem ofRat_defined (x : ℚ) : ofRat f x ≠ .nan := by
  unfold ofRat
  split <;> exact fun h => by cases h

theorem ofRat_isFinite {x r : ℚ} (hr : Representable f r) (hbound : r < 2^f.bound) (h : |x| ≤ r) :
    (ofRat f x).isFinite = true := by
  have hround := abs_round_le hr h
  rw [ofRat_finite (hround.trans_lt hbound)]
  rfl

theorem finite_defined {x : Double f} (h : x.isFinite = true) : x ≠ .nan := by
  rintro rfl
  cases h

section
variable {x y z : Double f}

theorem lt_defined (h : lt x y = true) : x ≠ .nan ∧ y ≠ .nan := by
  cases x <;> cases y <;> simp_all [lt]

theorem lt_of_not_le (hx : x ≠ .nan) (hy : y ≠ .nan) (h : le x y = false) : lt y x = true := by
  cases x <;> cases y <;> simp_all [le, lt, eq]
  · exact lt_of_le_of_ne h.1 (Ne.symm h.2)
  · next a b => cases a <;> cases b <;> simp_all

theorem lt_of_lt_of_not_lt (hz : z ≠ .nan) (h : lt x y = true) (h' : lt z y = false) :
    lt x z = true := by
  cases x <;> cases y <;> cases z <;> simp_all [lt]
  linarith

theorem lt_trans (h : lt x y = true) (h' : lt y z = true) : lt x z = true := by
  cases x <;> cases y <;> cases z <;> simp_all [lt]
  linarith

theorem lt_asymm (h : lt x y = true) : lt y x = false := by
  cases x <;> cases y <;> simp_all [lt]
  linarith

theorem lt_antisymm (hx : x ≠ .nan) (hy : y ≠ .nan) (h : lt x y = false) (h' : lt y x = false) :
    x = y := by
  cases x <;> cases y <;> simp_all [lt]
  · linarith
  · exact Bool.eq_iff_iff.mpr ⟨h,h'⟩

/-- What is defined is in linear order. -/
theorem linear_lt : Bisect.Linear (@lt f) (· ≠ .nan) where
  asymm _ _ _ _ h := lt_asymm h
  trans a b c _ hb _ h h' := by
    by_contra hlt
    rw [Bool.not_eq_false] at hlt
    rw [lt_of_lt_of_not_lt hb hlt h'] at h
    cases h
  antisymm _ _ hx hy h h' := lt_antisymm hx hy h h'

theorem eq_self (hx : x ≠ .nan) : eq x x = true := by
  cases x <;> simp_all [eq]

theorem eq_of_eq (h : eq x y = true) : x = y ∧ y ≠ .nan := by
  cases x <;> cases y <;> simp_all [eq]

/-- What lies above zero does so by the smallest step at least, so that no
difference is rounded to zero. -/
theorem round_sub_pos {a b : ℚ} (ha : Representable f a) (hb : Representable f b) (h : a < b) :
    0 < round f (b-a) := by
  obtain ⟨m,e,rfl,-,he⟩ := ha
  obtain ⟨n,d,rfl,-,hd⟩ := hb
  have hstep : (0 : ℚ) < 2^f.lowest := zpow_pos (by norm_num) _
  rw [pow_eq_steps he, pow_eq_steps hd, ← mul_assoc, ← mul_assoc] at h ⊢
  rw [← sub_mul]
  have hwhole : m*2^(e-f.lowest).toNat+1 ≤ n*2^(d-f.lowest).toNat := by
    have hlt := lt_of_mul_lt_mul_right h hstep.le
    exact_mod_cast hlt
  apply hstep.trans_le
  apply le_round_of_le (representable_pow (le_refl _))
  have hone : (1 : ℚ) ≤ n*(2^(d-f.lowest).toNat : ℤ)-m*(2^(e-f.lowest).toNat : ℤ) := by
    have hcast : ((m*2^(e-f.lowest).toNat+1 : ℤ) : ℚ) ≤ (n*2^(d-f.lowest).toNat : ℤ) := by
      exact_mod_cast hwhole
    push_cast at hcast ⊢
    linarith
  calc (2 : ℚ)^f.lowest = 1*2^f.lowest := (one_mul _).symm
    _ ≤ _ := mul_le_mul_of_nonneg_right hone hstep.le

theorem zero_lt_ofRat {a : ℚ} (h : 0 < round f a) : lt zero (ofRat f a) = true := by
  have ha : ¬a < 0 := fun hneg => absurd (round_nonpos hneg.le) (not_le.mpr h)
  unfold ofRat
  split
  · exact decide_eq_true h
  · simp [zero, lt, ha]

theorem zero_lt_sub (h : lt x y = true) : lt zero (sub y x) = true := by
  cases x with
  | finite a ha =>
    cases y with
    | finite b hb =>
      have hpos := round_sub_pos ha.1 hb.1 (of_decide_eq_true h)
      rw [sub_eq_add_neg] at hpos
      exact zero_lt_ofRat hpos
    | inf negative => exact h
    | nan => cases h
  | inf a =>
    cases y with
    | finite b hb => simp_all [lt, sub, neg, add, zero]
    | inf b =>
      obtain ⟨rfl,rfl⟩ : a = true ∧ b = false := by simpa [lt] using h
      rfl
    | nan => cases h
  | nan => cases h

end

/-- A property that a sum has when one of its terms does. -/
def Absorbing (P : Double f → Prop) : Prop := ∀ x y, P x ∨ P y → P (add x y)

theorem absorbing_nan : Absorbing (f := f) (· = .nan) := by
  rintro x y (rfl | rfl)
  · rfl
  · cases x <;> rfl

theorem absorbing_infinite : Absorbing (f := f) (fun x => x.isFinite = false) := by
  intro x y h
  cases x with
  | finite a ha => cases y <;> simp_all [add, isFinite]
  | inf a =>
    cases y with
    | finite b hb => rfl
    | inf b =>
      rw [add]
      split <;> rfl
    | nan => rfl
  | nan => rfl

theorem Absorbing.foldl {P : Double f → Prop} (hP : Absorbing P) {xs : List (Double f)}
    {s : Double f} (h : P s ∨ ∃ x ∈ xs, P x) : P (xs.foldl add s) := by
  induction xs generalizing s with
  | nil => exact h.resolve_right (by simp)
  | cons x xs ih =>
    apply ih
    rcases h with hs | ⟨y,hy,hPy⟩
    · exact Or.inl (hP s x (Or.inl hs))
    · rcases List.mem_cons.mp hy with rfl | hy
      · exact Or.inl (hP s y (Or.inr hPy))
      · exact Or.inr ⟨y,hy,hPy⟩

theorem Absorbing.sumPlain {P : Double f → Prop} (hP : Absorbing P) {xs : List (Double f)}
    (h : ∃ x ∈ xs, P x) : P (sumPlain xs) := by
  cases xs with
  | nil => simp at h
  | cons x xs =>
    obtain ⟨y,hy,hPy⟩ := h
    rcases List.mem_cons.mp hy with rfl | hy
    · exact hP.foldl (Or.inl hPy)
    · exact hP.foldl (Or.inr ⟨y,hy,hPy⟩)

theorem foldl_compensate_fst (xs : List (Double f)) (acc : Double f × Double f) :
    (xs.foldl compensate acc).1 = xs.foldl add acc.1 := by
  induction xs generalizing acc with
  | nil => rfl
  | cons x xs ih => exact ih _

/-- The sum with the losses added back is the other one with a finite
correction, or without one. -/
theorem sumCompensated_cases (xs : List (Double f)) :
    sumCompensated xs = sumPlain xs ∨
      ∃ c, c.isFinite = true ∧ sumCompensated xs = add (sumPlain xs) c := by
  cases xs with
  | nil => exact Or.inl rfl
  | cons x xs =>
    have hfst := foldl_compensate_fst xs (x,zero)
    rw [sumCompensated, sumPlain]
    dsimp only at hfst ⊢
    rw [← hfst]
    split
    · next hc => exact Or.inr ⟨_,hc,rfl⟩
    · exact Or.inl rfl

theorem Absorbing.sumCompensated {P : Double f → Prop} (hP : Absorbing P) {xs : List (Double f)}
    (h : ∃ x ∈ xs, P x) : P (sumCompensated xs) := by
  rcases sumCompensated_cases xs with hsame | ⟨c,_,hsum⟩
  · rw [hsame]
    exact hP.sumPlain h
  · rw [hsum]
    exact hP _ c (Or.inl (hP.sumPlain h))

theorem add_defined {x y : Double f} (hx : NotNegative x) (hy : NotNegative y) (hx' : x ≠ .nan)
    (hy' : y ≠ .nan) : add x y ≠ .nan := by
  cases x with
  | finite a ha =>
    cases y with
    | finite b hb => exact ofRat_defined _
    | inf b => exact fun h => by cases h
    | nan => exact absurd rfl hy'
  | inf a =>
    cases y with
    | finite b hb => exact fun h => by cases h
    | inf b =>
      rw [add, if_pos ((show a = false from hx).trans hy.symm)]
      exact fun h => by cases h
    | nan => exact absurd rfl hy'
  | nan => exact absurd rfl hx'

theorem add_finite_defined {x y : Double f} (hx : x ≠ .nan) (hy : y.isFinite = true) :
    add x y ≠ .nan := by
  cases y with
  | finite b hb =>
    cases x with
    | finite a ha => exact ofRat_defined _
    | inf a => exact fun h => by cases h
    | nan => exact absurd rfl hx
  | inf b => cases hy
  | nan => cases hy

theorem foldl_defined {xs : List (Double f)} {s : Double f} (hs : NotNegative s)
    (hs' : s ≠ .nan) (h : ∀ x ∈ xs, NotNegative x ∧ x ≠ .nan) : xs.foldl add s ≠ .nan := by
  induction xs generalizing s with
  | nil => exact hs'
  | cons x xs ih =>
    obtain ⟨hx,hx'⟩ := h x List.mem_cons_self
    exact ih (add_notNegative hs hx) (add_defined hs hx hs' hx')
      fun y hy => h y (List.mem_cons_of_mem _ hy)

/-- Numbers that are not negative have a sum, an infinite one perhaps. -/
theorem sumPlain_defined {xs : List (Double f)} (h : ∀ x ∈ xs, NotNegative x ∧ x ≠ .nan) :
    sumPlain xs ≠ .nan := by
  cases xs with
  | nil => exact fun h => by cases h
  | cons x xs =>
    obtain ⟨hx,hx'⟩ := h x List.mem_cons_self
    exact foldl_defined hx hx' fun y hy => h y (List.mem_cons_of_mem _ hy)

theorem sumCompensated_defined {xs : List (Double f)} (h : ∀ x ∈ xs, NotNegative x ∧ x ≠ .nan) :
    sumCompensated xs ≠ .nan := by
  rcases sumCompensated_cases xs with hsame | ⟨c,hc,hsum⟩
  · rw [hsame]
    exact sumPlain_defined h
  · rw [hsum]
    exact add_finite_defined (sumPlain_defined h) hc

section
variable {x y z : Double f}

theorem neg_isFinite (x : Double f) : (neg x).isFinite = x.isFinite := by cases x <;> rfl

theorem sub_infinite (x : Double f) (h : y.isFinite = false) : (sub x y).isFinite = false :=
  absorbing_infinite _ _ (Or.inr ((neg_isFinite y).trans h))

theorem sub_defined (hx : x ≠ .nan) (hy : y.isFinite = true) : sub x y ≠ .nan :=
  add_finite_defined hx ((neg_isFinite y).trans hy)

theorem sub_nan (x : Double f) : sub x .nan = .nan := absorbing_nan _ _ (Or.inr rfl)

theorem mul_undefined (h : x = .nan ∨ y = .nan) : mul x y = .nan := by
  rcases h with rfl | rfl
  · rfl
  · cases x <;> rfl

theorem mul_self_notNegative (x : Double f) : NotNegative (mul x x) := by
  cases x with
  | finite a ha => exact ofRat_notNegative (mul_self_nonneg a)
  | inf a => exact Bool.xor_self a
  | nan => trivial

theorem mul_self_defined (h : x ≠ .nan) : mul x x ≠ .nan := by
  cases x with
  | finite a ha => exact ofRat_defined _
  | inf a => exact fun h => by cases h
  | nan => exact absurd rfl h

theorem mul_self_infinite (h : x.isFinite = false) : (mul x x).isFinite = false := by
  cases x with
  | finite a ha => cases h
  | inf a => rfl
  | nan => rfl

theorem finite_add_defined (hx : x.isFinite = true) (hy : y ≠ .nan) : add x y ≠ .nan := by
  cases x with
  | finite a ha =>
    cases y with
    | finite b hb => exact ofRat_defined _
    | inf b => exact fun h => by cases h
    | nan => exact absurd rfl hy
  | inf a => cases hx
  | nan => cases hx

theorem neg_defined (h : x ≠ .nan) : neg x ≠ .nan := by cases x <;> simp_all [neg]

/-- A positive number times one that is not zero. -/
theorem mul_pos_defined (hx : lt zero x = true) (hy : y ≠ .nan) (hzero : eq y zero = false) :
    mul x y ≠ .nan := by
  cases x with
  | finite a ha =>
    have hpos : 0 < a := of_decide_eq_true hx
    cases y with
    | finite b hb => exact ofRat_defined _
    | inf b =>
      rw [mul, if_neg hpos.ne']
      exact fun h => by cases h
    | nan => exact absurd rfl hy
  | inf a =>
    cases y with
    | finite b hb =>
      have hb0 : b ≠ 0 := of_decide_eq_false hzero
      rw [mul, if_neg hb0]
      exact fun h => by cases h
    | inf b => exact fun h => by cases h
    | nan => exact absurd rfl hy
  | nan => cases hx

/-- A positive number of times an infinity. -/
theorem mul_pos_inf (hx : lt zero x = true) (negative : Bool) :
    mul x (.inf negative) = .inf negative := by
  cases x with
  | finite a ha =>
    have hpos : 0 < a := of_decide_eq_true hx
    rw [mul, if_neg hpos.ne', decide_eq_false (not_lt.mpr hpos.le), Bool.xor_false]
  | inf a =>
    cases a with
    | true => cases hx
    | false => rw [mul, Bool.false_xor]
  | nan => cases hx

/-- Two values that differ by a number or by an infinity can be moved apart by a
positive multiple of their difference. -/
theorem apart_defined (hz : lt zero z = true) (hdiff : sub y x ≠ .nan)
    (hzero : eq (sub y x) zero = false) :
    sub x (mul z (sub y x)) ≠ .nan ∧ add y (mul z (sub y x)) ≠ .nan := by
  have hmul := mul_pos_defined hz hdiff hzero
  cases x with
  | finite a ha =>
    cases y with
    | finite b hb => exact ⟨finite_add_defined rfl (neg_defined hmul),finite_add_defined rfl hmul⟩
    | inf b =>
      have hsub : sub (.inf b) (.finite a ha) = .inf b := rfl
      rw [hsub, mul_pos_inf hz]
      simp [sub, neg, add]
    | nan => exact absurd rfl hdiff
  | inf a =>
    cases y with
    | finite b hb =>
      have hsub : sub (.finite b hb) (.inf a) = .inf (!a) := rfl
      rw [hsub, mul_pos_inf hz]
      simp [sub, neg, add]
    | inf b =>
      have hsub : sub (.inf b : Double f) (.inf a) = if b = !a then .inf b else .nan := rfl
      have hne : b = !a := by
        by_contra hne
        exact hdiff (hsub.trans (if_neg hne))
      rw [hsub, if_pos hne, mul_pos_inf hz]
      simp [sub, neg, add, hne]
    | nan => exact absurd rfl hdiff
  | nan => exact absurd (sub_nan y) hdiff

/-- What is not finite, over what is not finite. -/
theorem div_infinite (hx : x.isFinite = false) (hy : y.isFinite = false) :
    div x y = some .nan := by
  cases x <;> cases y <;> simp_all [div, isFinite]

theorem nan_div (h : div .nan y = some z) : z = .nan := by
  cases y <;> simp_all [div]

theorem infinite_div (hx : x.isFinite = false) (hy : y.isFinite = true) (h : div x y = some z) :
    z.isFinite = false := by
  cases y with
  | finite b hb =>
    by_cases hb0 : b = 0
    · simp [div, hb0] at h
    · cases x <;> simp_all [div, isFinite]
      all_goals subst h; rfl
  | inf b => cases hy
  | nan => cases hy

theorem div_finite_defined (hx : x ≠ .nan) (hy : y.isFinite = true) (h : div x y = some z) :
    z ≠ .nan := by
  cases y with
  | finite b hb =>
    by_cases hb0 : b = 0
    · simp [div, hb0] at h
    · cases x with
      | finite a ha =>
        rw [div, if_neg hb0] at h
        exact Option.some.inj h ▸ ofRat_defined _
      | inf a =>
        rw [div, if_neg hb0] at h
        exact Option.some.inj h ▸ fun h => by cases h
      | nan => exact absurd rfl hx
  | inf b => cases hy
  | nan => cases hy

theorem finite_div_defined (hx : x.isFinite = true) (hy : y ≠ .nan) (h : div x y = some z) :
    z ≠ .nan := by
  cases y with
  | finite b hb => exact div_finite_defined (finite_defined hx) rfl h
  | inf b =>
    cases x with
    | finite a ha => exact Option.some.inj h ▸ fun h => by cases h
    | inf a => cases hx
    | nan => cases hx
  | nan => exact absurd rfl hy

/-- Dividing by one or more keeps a finite number finite. -/
theorem div_isFinite {b : ℚ} {hb : Representable f b ∧ |b| < 2^f.bound} (hx : x.isFinite = true)
    (hone : 1 ≤ b) (h : div x (.finite b hb) = some z) : z.isFinite = true := by
  cases x with
  | finite a ha =>
    rw [div, if_neg (by linarith)] at h
    rw [← Option.some.inj h]
    apply ofRat_isFinite ha.1.abs ha.2
    rw [abs_div, abs_of_pos (by linarith : 0 < b)]
    exact div_le_self (abs_nonneg a) hone
  | inf a => cases hx
  | nan => cases hx

theorem sqrt_infinite (hx : x.isFinite = false) (h : sqrt x = some z) : z.isFinite = false := by
  cases x with
  | finite a ha => cases hx
  | inf a =>
    cases a with
    | true => cases h
    | false => exact Option.some.inj h ▸ rfl
  | nan => exact Option.some.inj h ▸ rfl

theorem sqrt_defined (hx : x ≠ .nan) (h : sqrt x = some z) : z ≠ .nan := by
  cases x with
  | finite a ha =>
    rw [sqrt] at h
    split_ifs at h
    · exact Option.some.inj h ▸ fun h => by cases h
    · exact Option.some.inj h ▸ ofRat_defined _
  | inf a =>
    cases a with
    | true => cases h
    | false => exact Option.some.inj h ▸ fun h => by cases h
  | nan => exact absurd rfl hx

end

/-- The root of a number below a power of four is not above the power of two. -/
theorem sqrtRat_le {x : ℚ} {k : ℤ} (h0 : 0 < x) (hx : x < 4^k) (hk : f.lowest ≤ k) :
    sqrtRat f x ≤ 2^k := by
  have hlog : Int.log 2 x < 2*k := by
    apply log_lt_of_lt h0
    rwa [zpow_mul, show (2 : ℚ)^(2 : ℤ) = 4 by norm_num]
  have hs : max (Int.log 2 x/2+1-f.precision) f.lowest ≤ k := max_le (by omega) hk
  unfold sqrtRat
  dsimp only
  generalize max (Int.log 2 x/2+1-f.precision) f.lowest = s at hs
  have hfour : (4 : ℚ)^(k-s) = ((4^(k-s).toNat : ℕ) : ℚ) := by
    rw [Nat.cast_pow, ← zpow_natCast, Int.toNat_of_nonneg (by omega)]
    norm_num
  have hy : x/4^s < ((4^(k-s).toNat : ℕ) : ℚ) := by
    rw [← hfour, zpow_sub₀ (by norm_num : (4 : ℚ) ≠ 0)]
    exact div_lt_div_of_pos_right hx (zpow_pos (by norm_num) s)
  have hn : Nat.sqrt ⌊x/4^s⌋₊+1 ≤ 2^(k-s).toNat := by
    apply Nat.sqrt_lt.mpr
    rw [← Nat.mul_pow]
    exact (Nat.floor_lt (div_nonneg h0.le (zpow_pos (by norm_num) s).le)).mpr hy
  have htwo : (2 : ℚ)^k = ((2^(k-s).toNat : ℕ) : ℚ)*2^s := by
    rw [pow_eq_steps hs]
    push_cast
    rfl
  rw [htwo]
  apply mul_le_mul_of_nonneg_right _ (zpow_pos (by norm_num) s).le
  split
  · exact_mod_cast hn
  · exact_mod_cast (Nat.le_succ _).trans hn

theorem sqrtRat_nonneg (x : ℚ) : 0 ≤ sqrtRat f x :=
  mul_nonneg (Nat.cast_nonneg _) (zpow_pos (by norm_num) _).le

end PipelineX.Double
