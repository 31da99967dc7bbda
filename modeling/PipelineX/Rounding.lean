import Mathlib.Data.Int.Log
import Mathlib.Data.Rat.Floor
import Mathlib.Tactic.Linarith
import Mathlib.Tactic.Positivity
import Mathlib.Tactic.Ring
import Mathlib.Tactic.FieldSimp
import Mathlib.Tactic.NormNum

/-!
# Rounding to a binary format

The numbers of a binary format with a smallest step, and rounding to the
nearest of them, to the even one of two. The exponents are not bounded above
here: overflow is a matter of what is done with the result.
-/

set_option autoImplicit false

namespace PipelineX.Rounding

/-- The nearest integer, and the even one when two are as near. -/
def nearest (y : ℚ) : ℤ :=
  if y-⌊y⌋ < 1/2 then ⌊y⌋
  else if 1/2 < y-⌊y⌋ then ⌊y⌋+1
  else if ⌊y⌋%2 = 0 then ⌊y⌋ else ⌊y⌋+1

theorem nearest_cases (y : ℚ) :
    nearest y = ⌊y⌋ ∧ y-⌊y⌋ ≤ 1/2 ∨ nearest y = ⌊y⌋+1 ∧ 1/2 ≤ y-⌊y⌋ := by
  unfold nearest
  split
  · next h => exact Or.inl ⟨rfl,h.le⟩
  · next h =>
    split
    · next h' => exact Or.inr ⟨rfl,h'.le⟩
    · next h' =>
      split
      · exact Or.inl ⟨rfl,not_lt.mp h'⟩
      · exact Or.inr ⟨rfl,not_lt.mp h⟩

@[simp] theorem nearest_intCast (k : ℤ) : nearest (k : ℚ) = k := by
  simp [nearest]

/-- When the nearest integer is below. -/
theorem nearest_eq_floor {y : ℚ} : nearest y = ⌊y⌋ ↔
    y-⌊y⌋ < 1/2 ∨ y-⌊y⌋ = 1/2 ∧ ⌊y⌋%2 = 0 := by
  unfold nearest
  by_cases hlow : y-⌊y⌋ < 1/2
  · rw [if_pos hlow]
    exact ⟨fun _ => Or.inl hlow,fun _ => rfl⟩
  · by_cases hhigh : 1/2 < y-⌊y⌋
    · rw [if_neg hlow, if_pos hhigh]
      constructor
      · intro h
        omega
      · rintro (h | ⟨h,_⟩)
        · exact absurd h hlow
        · exact absurd h hhigh.ne'
    · have heq : y-⌊y⌋ = 1/2 := le_antisymm (not_lt.mp hhigh) (not_lt.mp hlow)
      rw [if_neg hlow, if_neg hhigh]
      by_cases heven : ⌊y⌋%2 = 0
      · simp [heven, heq]
      · simp [heven, heq]

theorem nearest_mono {x y : ℚ} (h : x ≤ y) : nearest x ≤ nearest y := by
  have hfloor : ⌊x⌋ ≤ ⌊y⌋ := Int.floor_le_floor h
  rcases hfloor.lt_or_eq with hlt | heq
  · rcases nearest_cases x with ⟨hx,_⟩ | ⟨hx,_⟩ <;> rcases nearest_cases y with ⟨hy,_⟩ | ⟨hy,_⟩ <;>
      omega
  · rcases nearest_cases y with ⟨hy,_⟩ | ⟨hy,_⟩
    · have hxy : x-⌊x⌋ ≤ y-⌊y⌋ := by
        rw [heq]
        linarith
      have hx : nearest x = ⌊x⌋ := by
        rw [nearest_eq_floor] at hy ⊢
        rcases hy with hy | ⟨hy,heven⟩
        · exact Or.inl (hxy.trans_lt hy)
        · rw [hy] at hxy
          exact hxy.lt_or_eq.imp id fun hx => ⟨hx,by rw [heq, heven]⟩
      rw [hx, hy]
      exact hfloor
    · rcases nearest_cases x with ⟨hx,_⟩ | ⟨hx,_⟩ <;> omega

/-- No integer is nearer. -/
theorem nearest_dist (y : ℚ) (k : ℤ) : |(nearest y : ℚ)-y| ≤ |(k : ℚ)-y| := by
  have hlow := Int.floor_le y
  have hhigh := Int.lt_floor_add_one y
  have hn : |(nearest y : ℚ)-y| ≤ y-⌊y⌋ ∧ |(nearest y : ℚ)-y| ≤ ⌊y⌋+1-y := by
    rcases nearest_cases y with ⟨hn,hfrac⟩ | ⟨hn,hfrac⟩
    · rw [hn, abs_of_nonpos (by linarith)]
      constructor <;> linarith
    · rw [hn, Int.cast_add, Int.cast_one, abs_of_nonneg (by linarith)]
      constructor <;> linarith
  rcases le_or_gt k ⌊y⌋ with hk | hk
  · have hcast : (k : ℚ) ≤ ⌊y⌋ := by exact_mod_cast hk
    rw [abs_of_nonpos (by linarith : (k : ℚ)-y ≤ 0)]
    linarith [hn.1]
  · have hcast : (⌊y⌋ : ℚ)+1 ≤ k := by exact_mod_cast hk
    rw [abs_of_nonneg (by linarith : 0 ≤ (k : ℚ)-y)]
    linarith [hn.2]

/-- How many binary digits a number has and where its smallest step is. A
finite number of the format is below `2^bound`. -/
structure Format where
  precision : ℕ
  lowest : ℤ
  bound : ℤ
  precision_pos : 0 < precision

variable {f : Format}

/-- The exponent of the step around a positive number. -/
def scale (f : Format) (x : ℚ) : ℤ := max (Int.log 2 x+1-f.precision) f.lowest

def step (f : Format) (x : ℚ) : ℚ := 2^scale f x

def roundPos (f : Format) (x : ℚ) : ℚ := nearest (x/step f x)*step f x

def round (f : Format) (x : ℚ) : ℚ := if x < 0 then -roundPos f (-x) else roundPos f x

def Representable (f : Format) (x : ℚ) : Prop :=
  ∃ m e : ℤ, x = m*2^e ∧ |m| < 2^f.precision ∧ f.lowest ≤ e

theorem step_pos (x : ℚ) : 0 < step f x := zpow_pos (by norm_num) _

theorem log_le_scale (x : ℚ) : Int.log 2 x+1-f.precision ≤ scale f x := le_max_left _ _

theorem lowest_le_scale (x : ℚ) : f.lowest ≤ scale f x := le_max_right _ _

theorem scale_mono {x y : ℚ} (hx : 0 < x) (h : x ≤ y) : scale f x ≤ scale f y := by
  have hlog : Int.log 2 x ≤ Int.log 2 y := Int.log_mono_right hx h
  exact max_le_max (by omega) (le_refl _)

theorem pow_log_le {x : ℚ} (hx : 0 < x) : (2 : ℚ)^Int.log 2 x ≤ x := by
  exact_mod_cast Int.zpow_log_le_self (b := 2) (by norm_num) hx

theorem lt_pow_log (x : ℚ) : x < (2 : ℚ)^(Int.log 2 x+1) := by
  exact_mod_cast Int.lt_zpow_succ_log_self (b := 2) (by norm_num) x

theorem log_lt_of_lt {x : ℚ} (hx : 0 < x) {k : ℤ} (h : x < (2 : ℚ)^k) : Int.log 2 x < k := by
  rw [← Int.lt_zpow_iff_log_lt (by norm_num) hx]
  exact_mod_cast h

theorem le_log_of_le {x : ℚ} (hx : 0 < x) {k : ℤ} (h : (2 : ℚ)^k ≤ x) : k ≤ Int.log 2 x := by
  rw [← Int.zpow_le_iff_le_log (by norm_num) hx]
  exact_mod_cast h

/-- A power of two that is not below the step is a whole number of steps. -/
theorem pow_eq_steps {k s : ℤ} (h : s ≤ k) : (2 : ℚ)^k = ((2^(k-s).toNat : ℤ) : ℚ)*2^s := by
  rw [Int.cast_pow, Int.cast_ofNat, ← zpow_natCast, ← zpow_add₀ (by norm_num : (2 : ℚ) ≠ 0)]
  congr 1
  omega

theorem pow_log_scale {x : ℚ} : (2 : ℚ)^(Int.log 2 x+1) ≤ (2 : ℚ)^f.precision*step f x := by
  rw [step, ← zpow_natCast, ← zpow_add₀ (by norm_num : (2 : ℚ) ≠ 0)]
  apply zpow_le_zpow_right₀ (by norm_num)
  have h := log_le_scale (f := f) x
  omega

/-- A positive number of the format is a whole number of its own steps. -/
theorem Representable.eq_steps {x : ℚ} (h : Representable f x) (hx : 0 < x) :
    ∃ n : ℤ, x = n*step f x := by
  obtain ⟨m,e,rfl,hm,he⟩ := h
  have hlog : Int.log 2 ((m : ℚ)*2^e) < f.precision+e := by
    apply log_lt_of_lt hx
    rw [zpow_add₀ (by norm_num : (2 : ℚ) ≠ 0), zpow_natCast]
    apply mul_lt_mul_of_pos_right _ (zpow_pos (by norm_num) e)
    exact_mod_cast (le_abs_self m).trans_lt hm
  have hscale : scale f ((m : ℚ)*2^e) ≤ e := max_le (by omega) he
  refine ⟨m*2^(e-scale f ((m : ℚ)*2^e)).toNat,?_⟩
  rw [Int.cast_mul, mul_assoc, step, ← pow_eq_steps hscale]

/-- So it is of the steps around any smaller one. -/
theorem Representable.eq_steps_of_le {x y : ℚ} (h : Representable f y) (hy : 0 < y)
    (hs : scale f x ≤ scale f y) : ∃ n : ℤ, y = n*step f x := by
  obtain ⟨n,hn⟩ := h.eq_steps hy
  refine ⟨n*2^(scale f y-scale f x).toNat,?_⟩
  rw [Int.cast_mul, mul_assoc, step, ← pow_eq_steps hs]
  exact hn

theorem roundPos_steps {x : ℚ} {n : ℤ} (h : x = n*step f x) : roundPos f x = x := by
  have hdiv : x/step f x = n := by
    rw [div_eq_iff (step_pos x).ne']
    exact h
  rw [roundPos, hdiv, nearest_intCast]
  exact h.symm

theorem roundPos_nonneg {x : ℚ} (hx : 0 ≤ x) : 0 ≤ roundPos f x := by
  have hnearest : 0 ≤ nearest (x/step f x) := by
    have h := nearest_mono (div_nonneg hx (step_pos (f := f) x).le)
    rwa [← Int.cast_zero, nearest_intCast] at h
  exact mul_nonneg (by exact_mod_cast hnearest) (step_pos x).le

/-- What lies below a power of two is not rounded past it, if the power is a
whole number of steps. -/
theorem roundPos_le_pow {x : ℚ} {k : ℤ} (hx : x ≤ 2^k) (hk : scale f x ≤ k) :
    roundPos f x ≤ 2^k := by
  have hdiv : x/step f x ≤ ((2^(k-scale f x).toNat : ℤ) : ℚ) := by
    rw [div_le_iff₀ (step_pos x), step, ← pow_eq_steps hk]
    exact hx
  have hnearest := nearest_mono hdiv
  rw [nearest_intCast] at hnearest
  rw [roundPos, pow_eq_steps hk, ← step]
  exact mul_le_mul_of_nonneg_right (by exact_mod_cast hnearest) (step_pos x).le

theorem pow_le_roundPos {y : ℚ} {k : ℤ} (hy : 2^k ≤ y) (hk : scale f y ≤ k) :
    2^k ≤ roundPos f y := by
  have hdiv : ((2^(k-scale f y).toNat : ℤ) : ℚ) ≤ y/step f y := by
    rw [le_div_iff₀ (step_pos y), step, ← pow_eq_steps hk]
    exact hy
  have hnearest := nearest_mono hdiv
  rw [nearest_intCast] at hnearest
  rw [roundPos, pow_eq_steps hk, ← step]
  exact mul_le_mul_of_nonneg_right (by exact_mod_cast hnearest) (step_pos y).le

/-- Where the step gets wider a power of two lies between. -/
theorem pow_between {x y : ℚ} (hy : 0 < y) (h : scale f x < scale f y) :
    ∃ k : ℤ, x < 2^k ∧ 2^k ≤ y ∧ scale f x ≤ k ∧ scale f y ≤ k := by
  have hpos := f.precision_pos
  have hlog := log_le_scale (f := f) x
  have hscale : scale f y = Int.log 2 y+1-f.precision := by
    rcases max_choice (Int.log 2 y+1-f.precision) f.lowest with hmax | hmax
    · exact hmax
    · exact absurd ((lowest_le_scale x).trans_lt (h.trans_eq hmax)) (lt_irrefl _)
  refine ⟨Int.log 2 y,?_,pow_log_le hy,by omega,by omega⟩
  apply (lt_pow_log x).trans_le
  exact zpow_le_zpow_right₀ (by norm_num) (by omega)

theorem roundPos_mono {x y : ℚ} (hx : 0 < x) (h : x ≤ y) : roundPos f x ≤ roundPos f y := by
  rcases (scale_mono (f := f) hx h).lt_or_eq with hlt | heq
  · obtain ⟨k,hxk,hky,hs,ht⟩ := pow_between (hx.trans_le h) hlt
    exact (roundPos_le_pow hxk.le hs).trans (pow_le_roundPos hky ht)
  · have hstep : step f x = step f y := by rw [step, step, heq]
    rw [roundPos, roundPos, hstep]
    apply mul_le_mul_of_nonneg_right _ (step_pos y).le
    have hdiv : x/step f y ≤ y/step f y := div_le_div_of_nonneg_right h (step_pos y).le
    exact_mod_cast nearest_mono hdiv

theorem roundPos_zero : roundPos f 0 = 0 := by
  have h : nearest 0 = 0 := nearest_intCast 0
  simp [roundPos, h]

@[simp] theorem round_zero : round f 0 = 0 := by
  rw [round, if_neg (lt_irrefl 0), roundPos_zero]

theorem round_of_nonneg {x : ℚ} (hx : 0 ≤ x) : round f x = roundPos f x := if_neg (not_lt.mpr hx)

theorem round_neg (x : ℚ) : round f (-x) = -round f x := by
  rcases lt_trichotomy x 0 with hx | rfl | hx
  · rw [round, if_neg (by linarith), round, if_pos hx, neg_neg]
  · simp
  · rw [round, if_pos (by linarith), neg_neg, round_of_nonneg hx.le]

theorem round_nonneg {x : ℚ} (hx : 0 ≤ x) : 0 ≤ round f x := by
  rw [round_of_nonneg hx]
  exact roundPos_nonneg hx

theorem round_nonpos {x : ℚ} (hx : x ≤ 0) : round f x ≤ 0 := by
  have h := round_nonneg (f := f) (neg_nonneg.mpr hx)
  rw [round_neg] at h
  linarith

theorem round_mono {x y : ℚ} (h : x ≤ y) : round f x ≤ round f y := by
  rcases lt_or_ge 0 x with hx | hx
  · rw [round_of_nonneg hx.le, round_of_nonneg (hx.le.trans h)]
    exact roundPos_mono hx h
  · rcases lt_or_ge y 0 with hy | hy
    · have hneg : roundPos f (-y) ≤ roundPos f (-x) := roundPos_mono (by linarith) (by linarith)
      rw [round, if_pos (h.trans_lt hy), round, if_pos hy]
      linarith
    · exact (round_nonpos hx).trans (round_nonneg hy)

theorem Representable.neg {x : ℚ} (h : Representable f x) : Representable f (-x) := by
  obtain ⟨m,e,rfl,hm,he⟩ := h
  exact ⟨-m,e,by push_cast; ring,by rwa [abs_neg],he⟩

theorem Representable.abs {x : ℚ} (h : Representable f x) : Representable f |x| := by
  rcases abs_choice x with hx | hx <;> rw [hx]
  exacts [h,h.neg]

theorem representable_zero : Representable f 0 :=
  ⟨0,f.lowest,by simp,by simp,le_refl _⟩

theorem representable_pow {k : ℤ} (h : f.lowest ≤ k) : Representable f (2^k) :=
  ⟨1,k,by simp,by rw [abs_one]; exact one_lt_pow₀ (by norm_num) f.precision_pos.ne',h⟩

/-- A number of the format is left as it is. -/
theorem round_of_representable {x : ℚ} (h : Representable f x) : round f x = x := by
  rcases lt_trichotomy x 0 with hx | rfl | hx
  · obtain ⟨n,hn⟩ := h.neg.eq_steps (neg_pos.mpr hx)
    rw [round, if_pos hx, roundPos_steps hn, neg_neg]
  · exact round_zero
  · obtain ⟨n,hn⟩ := h.eq_steps hx
    rw [round_of_nonneg hx.le, roundPos_steps hn]

theorem round_le_of_le {x r : ℚ} (hr : Representable f r) (h : x ≤ r) : round f x ≤ r :=
  (round_mono h).trans_eq (round_of_representable hr)

theorem le_round_of_le {x r : ℚ} (hr : Representable f r) (h : r ≤ x) : r ≤ round f x :=
  (round_of_representable hr).symm.trans_le (round_mono h)

/-- A whole number of steps, up to a full binade of them, is in the format. -/
theorem representable_steps {n s : ℤ} (hn : 0 ≤ n) (hle : n ≤ 2^f.precision) (hs : f.lowest ≤ s) :
    Representable f (n*2^s) := by
  rcases hle.lt_or_eq with hlt | rfl
  · exact ⟨n,s,rfl,by rwa [abs_of_nonneg hn],hs⟩
  · have hpow : (((2^f.precision : ℤ) : ℚ))*2^s = 2^(f.precision+s) := by
      rw [Int.cast_pow, Int.cast_ofNat, ← zpow_natCast, ← zpow_add₀ (by norm_num : (2 : ℚ) ≠ 0)]
    rw [hpow]
    exact representable_pow (by omega)

theorem roundPos_representable {x : ℚ} (hx : 0 < x) : Representable f (roundPos f x) := by
  apply representable_steps _ _ (lowest_le_scale x)
  · have h := nearest_mono (div_pos hx (step_pos (f := f) x)).le
    rwa [← Int.cast_zero, nearest_intCast] at h
  · have hdiv : x/step f x ≤ ((2^f.precision : ℤ) : ℚ) := by
      rw [div_le_iff₀ (step_pos x), Int.cast_pow, Int.cast_ofNat]
      exact (lt_pow_log x).le.trans pow_log_scale
    have h := nearest_mono hdiv
    rwa [nearest_intCast] at h

theorem round_representable (x : ℚ) : Representable f (round f x) := by
  rcases lt_trichotomy x 0 with hx | rfl | hx
  · rw [round, if_pos hx]
    exact (roundPos_representable (neg_pos.mpr hx)).neg
  · rw [round_zero]
    exact representable_zero
  · rw [round_of_nonneg hx.le]
    exact roundPos_representable hx

theorem roundPos_dist {x : ℚ} (n : ℤ) : |roundPos f x-x| ≤ |n*step f x-x| := by
  have hstep := step_pos (f := f) x
  have hscale (k : ℤ) : |(k : ℚ)*step f x-x| = |(k : ℚ)-x/step f x| * step f x := by
    rw [← abs_of_pos hstep, ← abs_mul, abs_of_pos hstep, sub_mul, div_mul_cancel₀ _ hstep.ne']
  rw [roundPos, hscale, hscale]
  exact mul_le_mul_of_nonneg_right (nearest_dist _ n) hstep.le

/-- No number of the format is nearer. -/
theorem round_dist {x r : ℚ} (hr : Representable f r) (hx : 0 ≤ x) : |round f x-x| ≤ |r-x| := by
  rcases hx.eq_or_lt with rfl | hx
  · rw [round_zero, sub_zero, abs_zero]
    exact abs_nonneg _
  · rw [round_of_nonneg hx.le]
    rcases le_or_gt r 0 with hr0 | hr0
    · apply (roundPos_dist 0).trans
      rw [Int.cast_zero, zero_mul, abs_of_nonpos (by linarith : 0-x ≤ 0),
        abs_of_nonpos (by linarith : r-x ≤ 0)]
      linarith
    · rcases le_or_gt (scale f x) (scale f r) with hs | hs
      · obtain ⟨n,hn⟩ := hr.eq_steps_of_le hr0 hs
        rw [hn]
        exact roundPos_dist n
      · obtain ⟨k,hrk,hkx,_,hs⟩ := pow_between hx hs
        apply (roundPos_dist (2^(k-scale f x).toNat)).trans
        rw [step, ← pow_eq_steps hs, abs_of_nonpos (by linarith), abs_of_nonpos (by linarith)]
        linarith

/-- Twice a number of the format is one. -/
theorem Representable.double {x : ℚ} (h : Representable f x) : Representable f (2*x) := by
  obtain ⟨m,e,rfl,hm,he⟩ := h
  refine ⟨m,e+1,?_,hm,by omega⟩
  rw [zpow_add_one₀ (by norm_num : (2 : ℚ) ≠ 0)]
  ring

theorem abs_round_le {x r : ℚ} (hr : Representable f r) (h : |x| ≤ r) : |round f x| ≤ r := by
  obtain ⟨hlow,hhigh⟩ := abs_le.mp h
  exact abs_le.mpr ⟨le_round_of_le hr.neg hlow,round_le_of_le hr hhigh⟩

/-- What a sum loses by rounding, computed from the larger number and the sum,
is no more than the smaller number. -/
theorem lost_le {a b : ℚ} (ha : Representable f a) (hb : Representable f b) (h0 : 0 ≤ b)
    (hba : b ≤ a) : a ≤ round f (a+b) ∧ |round f (a-round f (a+b))| ≤ 2*b ∧
      |round f (round f (a-round f (a+b))+b)| ≤ b := by
  have hlow : a ≤ round f (a+b) := le_round_of_le ha (by linarith)
  have hhigh : round f (a+b) ≤ a+2*b := by
    have h := (abs_le.mp (round_dist ha (by linarith : 0 ≤ a+b))).2
    rw [abs_of_nonpos (by linarith : a-(a+b) ≤ 0)] at h
    linarith
  have hneg : round f (a-round f (a+b)) ≤ 0 := round_nonpos (by linarith)
  have hdouble : -(2*b) ≤ round f (a-round f (a+b)) := le_round_of_le hb.double.neg (by linarith)
  refine ⟨hlow,abs_le.mpr ⟨hdouble,by linarith⟩,?_⟩
  exact abs_round_le hb (abs_le.mpr ⟨by linarith,by linarith⟩)

/-- Where the step is not the smallest one, some number of the format is below
by less than a step, which is a small part of the number. -/
theorem exists_below {x : ℚ} (hx : 0 < x) (hnormal : f.lowest ≤ Int.log 2 x+1-f.precision) :
    ∃ r, Representable f r ∧ r ≤ x ∧ 2^f.precision*(x-r) ≤ 2*x := by
  have hstep := step_pos (f := f) x
  have hfloor : 0 ≤ ⌊x/step f x⌋ := Int.floor_nonneg.mpr (div_nonneg hx.le hstep.le)
  have hlow : (⌊x/step f x⌋ : ℚ)*step f x ≤ x := (le_div_iff₀ hstep).mp (Int.floor_le _)
  have hhigh : x < ((⌊x/step f x⌋ : ℚ)+1)*step f x :=
    (div_lt_iff₀ hstep).mp (Int.lt_floor_add_one _)
  refine ⟨⌊x/step f x⌋*step f x,?_,hlow,?_⟩
  · apply representable_steps hfloor _ (lowest_le_scale x)
    have hdiv : x/step f x ≤ ((2^f.precision : ℤ) : ℚ) := by
      rw [div_le_iff₀ hstep, Int.cast_pow, Int.cast_ofNat]
      exact (lt_pow_log x).le.trans pow_log_scale
    exact_mod_cast (Int.floor_le _).trans hdiv
  · have hscale : scale f x = Int.log 2 x+1-f.precision := max_eq_left hnormal
    have hwide : (2 : ℚ)^f.precision*step f x = 2*2^Int.log 2 x := by
      rw [step, hscale, ← zpow_natCast, ← zpow_add₀ (by norm_num : (2 : ℚ) ≠ 0),
        show (f.precision : ℤ)+(Int.log 2 x+1-f.precision) = Int.log 2 x+1 by ring,
        zpow_add_one₀ (by norm_num : (2 : ℚ) ≠ 0)]
      ring
    calc 2^f.precision*(x-⌊x/step f x⌋*step f x)
        ≤ 2^f.precision*step f x := by
          apply mul_le_mul_of_nonneg_left _ (by positivity)
          linarith
      _ = 2*2^Int.log 2 x := hwide
      _ ≤ 2*x := by linarith [pow_log_le hx]

/-- A part of a number is not rounded past the number, even when the number is
rounded before. -/
theorem round_part_le {p x : ℚ} (hx : 0 < x) (hp : p ≤ 3/4)
    (hnormal : f.lowest ≤ Int.log 2 x+1-f.precision) (hprecision : 4 ≤ f.precision) :
    round f (p*round f x) ≤ x := by
  obtain ⟨r,hr,hrx,hnear⟩ := exists_below hx hnormal
  have hsixteen : (16 : ℚ) ≤ 2^f.precision := by
    calc (16 : ℚ) = 2^4 := by norm_num
      _ ≤ 2^f.precision := pow_le_pow_right₀ (by norm_num) hprecision
  have hclose : 8*(x-r) ≤ x := by nlinarith
  have hdist := (abs_le.mp (round_dist hr hx.le)).2
  rw [abs_of_nonpos (by linarith : r-x ≤ 0)] at hdist
  have hround := round_nonneg (f := f) hx.le
  have hpart : p*round f x ≤ 3/4*round f x := mul_le_mul_of_nonneg_right hp hround
  exact (round_le_of_le hr (by linarith)).trans hrx

/-- Below a power of two a number of the format is a step below it at least. -/
theorem le_of_lt_pow {x : ℚ} (h : Representable f x) {k : ℤ} (hx : x < 2^k) :
    x ≤ 2^k-2^(k-f.precision) := by
  obtain ⟨m,e,rfl,hm,_⟩ := h
  have hpos := f.precision_pos
  have htwo : (2 : ℚ) ≠ 0 := by norm_num
  have hk : (2 : ℚ)^k = 2^f.precision*2^(k-f.precision) := by
    rw [← zpow_natCast, ← zpow_add₀ htwo]
    congr 1
    ring
  rcases le_or_gt (k-f.precision) e with he | he
  · rw [pow_eq_steps he, ← mul_assoc] at hx ⊢
    rw [hk] at hx ⊢
    have hgap : (0 : ℚ) < 2^(k-f.precision) := zpow_pos (by norm_num) _
    have hlt : m*2^(e-(k-f.precision)).toNat < 2^f.precision := by
      have := lt_of_mul_lt_mul_right hx hgap.le
      exact_mod_cast this
    have hle : ((m*2^(e-(k-f.precision)).toNat : ℤ) : ℚ) ≤ 2^f.precision-1 := by
      have : m*2^(e-(k-f.precision)).toNat ≤ 2^f.precision-1 := by omega
      exact_mod_cast this
    push_cast at hle ⊢
    nlinarith
  · have hm' : (m : ℚ) ≤ 2^f.precision := by exact_mod_cast (le_abs_self m).trans hm.le
    have hstep : (2 : ℚ)^e ≤ 2^(k-f.precision-1) := zpow_le_zpow_right₀ (by norm_num) (by omega)
    have hhalf : (2 : ℚ)^(k-f.precision) = 2*2^(k-f.precision-1) := by
      rw [zpow_sub_one₀ htwo]
      ring
    have hone : (2 : ℚ) ≤ 2^f.precision := by
      calc (2 : ℚ) = 2^1 := (pow_one 2).symm
        _ ≤ 2^f.precision := pow_le_pow_right₀ (by norm_num) hpos
    have hgap : (0 : ℚ) < 2^(k-f.precision-1) := zpow_pos (by norm_num) _
    calc (m : ℚ)*2^e ≤ 2^f.precision*2^(k-f.precision-1) :=
          mul_le_mul hm' hstep (zpow_pos (by norm_num) e).le (by positivity)
      _ ≤ 2^k-2^(k-f.precision) := by
          rw [hk, hhalf]
          nlinarith

theorem pow_two_mul (k : ℤ) : (2 : ℚ)^(2*k) = 2^k*2^k := by
  rw [two_mul, zpow_add₀ (by norm_num)]

/-- The square of a number below a power of two is not rounded up to the square
of the power: the number is a step below. -/
theorem round_square_lt {x : ℚ} (h : Representable f x) {k : ℤ} (h0 : 0 ≤ x) (hx : x < 2^k)
    (hk : f.lowest ≤ 2*k-f.precision) : round f (x*x) < 2^(2*k) := by
  have htwo : (2 : ℚ) ≠ 0 := by norm_num
  have hgap : (0 : ℚ) < 2^(2*k-f.precision) := zpow_pos (by norm_num) _
  have hrep : Representable f (2^(2*k)-2^(2*k-f.precision)) := by
    refine ⟨2^f.precision-1,2*k-f.precision,?_,?_,hk⟩
    · have hsplit : (2 : ℚ)^(2*k) = 2^f.precision*2^(2*k-f.precision) := by
        rw [← zpow_natCast, ← zpow_add₀ htwo]
        congr 1
        ring
      rw [hsplit]
      push_cast
      ring
    · have hone : (1 : ℤ) ≤ 2^f.precision := one_le_pow₀ (by norm_num)
      rw [abs_of_nonneg (by linarith)]
      linarith
  have hle := le_of_lt_pow h hx
  have hstep : (0 : ℚ) < 2^(k-f.precision) := zpow_pos (by norm_num) _
  have hstep_le : (2 : ℚ)^(k-f.precision) ≤ 2^k := zpow_le_zpow_right₀ (by norm_num) (by omega)
  have hprod : (2 : ℚ)^(2*k-f.precision) = 2^k*2^(k-f.precision) := by
    rw [← zpow_add₀ htwo]
    congr 1
    ring
  have hbelow : x*x ≤ 2^(2*k)-2^(2*k-f.precision) := by
    calc x*x ≤ (2^k-2^(k-f.precision))*(2^k-2^(k-f.precision)) :=
          mul_le_mul hle hle h0 (by linarith)
      _ ≤ 2^(2*k)-2^(2*k-f.precision) := by
          rw [hprod, pow_two_mul]
          nlinarith
  exact (round_le_of_le hrep hbelow).trans_lt (by linarith)

theorem pow_le_round_square {x : ℚ} {k : ℤ} (hx : 2^k ≤ x) (hk : f.lowest ≤ 2*k) :
    2^(2*k) ≤ round f (x*x) := by
  apply le_round_of_le (representable_pow hk)
  rw [pow_two_mul]
  have hpos : (0 : ℚ) < 2^k := zpow_pos (by norm_num) _
  exact mul_le_mul hx hx hpos.le (hpos.le.trans hx)

end PipelineX.Rounding
