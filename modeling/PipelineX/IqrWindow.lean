import PipelineX.IqrViews
import PipelineX.SpecialValues

/-!
# The two views of the interquartile detector

The sorted view holds the same samples as the window, in order: the sample that
leaves is found by bisection, since finite floats are in linear order. The
ranks that the percentiles read are inside it.
-/

set_option autoImplicit false

namespace PipelineX.Detectors
open PipelineX.Records PipelineX.Rounding

namespace Iqr

/-- Bisection works on what is defined, infinities or not. -/
theorem ordered_defined (compensated : Bool) : Ordered (float64 compensated) (· ≠ .nan) where
  linear := Double.linear_lt
  eq_self _ := Double.eq_self

theorem ordered_finite (compensated : Bool) :
    Ordered (float64 compensated) (fun x => x.isFinite = true) where
  linear := Double.linear_lt.imp fun _ => Double.finite_defined
  eq_self _ h := Double.eq_self (Double.finite_defined h)

/-- What holds of the two views between calls. -/
structure Views (n : ℤ) (s : State Float64) : Prop where
  finite : ∀ x ∈ s.sorted, x.isFinite = true
  ascending : Bisect.Ascending Double.lt s.sorted
  perm : s.sorted.Perm s.window
  length : s.window.length ≤ n

theorem views_start {n : ℤ} (h : 0 ≤ n) : Views n ⟨[],[]⟩ where
  finite x hx := by cases hx
  ascending := List.Pairwise.nil
  perm := List.Perm.nil
  length := h

theorem Views.synced {n : ℤ} {s : State Float64} (h : Views n s) (compensated : Bool) :
    Synced (float64 compensated) (fun x => x.isFinite = true) n s :=
  ⟨h.finite,h.ascending,h.perm,h.length⟩

theorem add_views (compensated : Bool) {cfg : Config Float64} {s : State Float64} {v : Float64}
    (hn : 0 < cfg.windowSize) (h : Views cfg.windowSize s) (hv : v.isFinite = true) :
    Views cfg.windowSize (add (float64 compensated) cfg s v) ∧
      v ∈ (add (float64 compensated) cfg s v).sorted := by
  obtain ⟨hsynced,hmem⟩ := add_synced (ordered_finite compensated) hn (h.synced compensated) hv
  exact ⟨⟨hsynced.elements,hsynced.ascending,hsynced.perm,hsynced.length⟩,hmem⟩

theorem index_ok {F : Type} {xs : List F} {i : ℤ} (h0 : 0 ≤ i) (h : i < xs.length) :
    ∃ x, index xs i = .ok x := by
  have hlt : i.toNat < xs.length := by omega
  have hindex := index_getElem hlt
  rw [Int.toNat_of_nonneg h0] at hindex
  exact ⟨xs[i.toNat],hindex⟩

/-- The literals `0.25` and `0.75` are what they say. -/
theorem quarter_finite (k : ℤ) (hk : |k| < 4) :
    Representable binary64 ((k : ℚ)/4) ∧ |(k : ℚ)/4| < 2^binary64.bound := by
  constructor
  · refine ⟨k,-2,by norm_num [div_eq_mul_inv],?_,by decide⟩
    exact hk.trans (by decide)
  · have hone : |(k : ℚ)/4| ≤ 2^(0 : ℤ) := by
      rw [abs_div, zpow_zero, abs_of_pos (by norm_num : (0 : ℚ) < 4), div_le_one (by norm_num)]
      exact_mod_cast hk.le
    exact hone.trans_lt (zpow_lt_zpow_right₀ (by norm_num) (by decide))

theorem ofInt_ok {n : ℤ} (h0 : 0 ≤ n) (h : n ≤ 2^63) : ∃ x, Float64.ofInt n = .ok x := by
  rcases h0.eq_or_lt with rfl | hpos
  · refine ⟨Double.zero,?_⟩
    rw [Float64.ofInt, Int.cast_zero, Double.ofRat_zero]
    rfl
  · obtain ⟨x,hx,hofInt,-⟩ := Float64.ofInt_pos hpos h
    exact ⟨_,hofInt⟩

/-- The rank is a number between zero and the last place. -/
theorem rank_between {n : ℤ} {p : ℚ} (hpf : Representable binary64 p ∧ |p| < 2^binary64.bound)
    (hlast : Representable binary64 (round binary64 n) ∧ |round binary64 n| < 2^binary64.bound)
    (hn : 1 ≤ n) (hmax : n ≤ 2^63) (hp0 : 0 ≤ p) (hp : p ≤ 3/4) :
    ∃ rank h, Double.mul (.finite p hpf) (.finite (round binary64 n) hlast) = .finite rank h ∧
      0 ≤ rank ∧ rank ≤ n := by
  have hpos : (0 : ℚ) < n := by exact_mod_cast hn
  have hlog : 0 ≤ Int.log 2 (n : ℚ) := le_log_of_le hpos (by exact_mod_cast hn)
  have hrank0 : 0 ≤ round binary64 (p*round binary64 n) :=
    round_nonneg (mul_nonneg hp0 (round_nonneg hpos.le))
  have hrank : round binary64 (p*round binary64 n) ≤ n := by
    apply round_part_le hpos hp _ (by decide)
    show (-1074 : ℤ) ≤ Int.log 2 (n : ℚ)+1-53
    omega
  have hsize : |round binary64 (p*round binary64 n)| < 2^binary64.bound := by
    rw [abs_of_nonneg hrank0]
    have hpow : (n : ℚ) ≤ 2^(63 : ℤ) := by
      rw [zpow_ofNat]
      exact_mod_cast hmax
    exact (hrank.trans hpow).trans_lt (zpow_lt_zpow_right₀ (by norm_num) (by decide))
  exact ⟨_,⟨round_representable _,hsize⟩,Double.ofRat_finite hsize,hrank0,hrank⟩

theorem percentile_ok (compensated : Bool) (sorted : List Float64) {k : ℤ}
    (hlength : 2 ≤ sorted.length) (hmax : sorted.length ≤ 2^63) (hk0 : 0 ≤ k) (hk : k ≤ 3) :
    ∃ x, percentile (float64 compensated) sorted (Double.ofRat binary64 (k/4)) = .ok x := by
  have hquarter := quarter_finite k (abs_lt.mpr ⟨by omega,by omega⟩)
  obtain ⟨last,hlastf,hofInt,rfl,-⟩ :=
    Float64.ofInt_pos (by omega : (0 : ℤ) < (sorted.length : ℤ)-1) (by omega)
  obtain ⟨rank,hrankf,hmul,hrank0,hrank⟩ := rank_between hquarter hlastf (by omega)
    (by omega) (by positivity) (by linarith [show (k : ℚ) ≤ 3 by exact_mod_cast hk])
  have hfloor0 : 0 ≤ ⌊rank⌋ := Int.floor_nonneg.mpr hrank0
  have hfloor : ⌊rank⌋ ≤ (sorted.length : ℤ)-1 := by
    exact_mod_cast (Int.floor_le rank).trans hrank
  have htoInt : Float64.toInt (.finite rank hrankf) = .ok ⌊rank⌋ :=
    congrArg Except.ok (if_neg (not_lt.mpr hrank0))
  obtain ⟨whole,hwhole⟩ := ofInt_ok hfloor0 (by omega : ⌊rank⌋ ≤ 2^63)
  obtain ⟨low,hlow⟩ := index_ok hfloor0 (by omega : ⌊rank⌋ < sorted.length)
  have hnext : min (⌊rank⌋+1) ((sorted.length : ℤ)-1) < sorted.length := by omega
  obtain ⟨high,hhigh⟩ := index_ok (by omega) hnext
  refine ⟨Double.add low (Double.mul (Double.sub (.finite rank hrankf) whole)
    (Double.sub high low)),?_⟩
  rw [percentile, if_neg (by omega), Double.ofRat_eq hquarter]
  simp only [float64, hofInt, hmul, htoInt, hwhole, hlow, hhigh, bind, Except.bind]

/-- The fences are computed whatever the window holds. -/
theorem bounds_ok {compensated : Bool} {cfg : Config Float64} {sorted : List Float64}
    (haccepted : init (float64 compensated) cfg = .ok ()) (hlength : sorted.length ≤ cfg.windowSize) :
    ∃ b, bounds (float64 compensated) cfg sorted = .ok b := by
  obtain ⟨_,hmin,hmax⟩ := init_ok haccepted
  unfold maxsize at hmax
  unfold bounds
  by_cases hfew : sorted.length < cfg.minSamples
  · exact ⟨none,if_pos hfew⟩
  · rw [if_neg hfew]
    obtain ⟨q1,hq1⟩ := percentile_ok compensated sorted (by omega) (by omega)
      (by decide : (0 : ℤ) ≤ 1) (by decide)
    obtain ⟨q3,hq3⟩ := percentile_ok compensated sorted (by omega) (by omega)
      (by decide : (0 : ℤ) ≤ 3) (by decide)
    rw [Int.cast_one] at hq1
    rw [Int.cast_ofNat] at hq3
    simp only [float64] at hq1 hq3 ⊢
    simp only [hq1, hq3, bind, Except.bind]
    by_cases hflat : Double.eq (Double.sub q3 q1) (Double.ofRat binary64 0) = true
    · exact ⟨none,if_pos hflat⟩
    · exact ⟨_,if_neg hflat⟩

end Iqr
end PipelineX.Detectors
