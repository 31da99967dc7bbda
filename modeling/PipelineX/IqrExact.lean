import PipelineX.ExactDetectors
import PipelineX.IqrViews
import PipelineX.Quantile

/-!
# The interquartile detector in exact arithmetic

The incremental window is the naive one: the last samples, put in order for
every call. The quartiles are quantiles of it.
-/

set_option autoImplicit false

namespace PipelineX.Detectors.Iqr
open PipelineX.Records PipelineX.Quantile
variable {K : Type} [Field K] [LinearOrder K] [FloorRing K] (root : K → K)

theorem ordered_exact : Ordered (exact root) (fun _ => True) where
  linear := Bisect.linear_lt
  eq_self _ _ := decide_eq_true rfl

theorem ascending_exact {xs : List K} :
    Bisect.Ascending (exact root).lt xs ↔ xs.Pairwise (· ≤ ·) :=
  Bisect.ascending_lt

theorem detect_skip {F : Type} {py : PyFloat F} {cfg : Config F} {draw : Draw} {s : State F}
    {r : Sample F} (h : readMetric py cfg.sourceDict cfg.metricKey r = none) :
    detect py cfg draw s r = (.ok none,s) := by
  rw [detect, h]

omit [LinearOrder K] [FloorRing K] in
theorem index_place {xs : List K} {i : ℕ} (h : i < xs.length) :
    index xs i = .ok (place xs i) := by
  rw [index_getElem h, place_eq h]

theorem event_severity (cfg : Config K) (draw : Draw) (r : Sample K) (s : State K)
    (v low high : K) : (event (exact root) cfg draw r s v low high).severityScore =
      if v < low then low-v else v-high := by
  show (if decide (v < low) = true then low-v else v-high) = _
  simp only [decide_eq_true_eq]

variable [IsStrictOrderedRing K]

/-- A percentile is a point on the line through the sorted samples. -/
theorem percentile_exact {xs : List K} (hxs : xs ≠ []) {p : K} (h0 : 0 ≤ p) (h1 : p ≤ 1) :
    percentile (exact root) xs p = .ok (interpolate xs (p*(xs.length-1))) := by
  have hrange := inRange_part hxs h0 h1
  have hpos := List.length_pos_iff.mpr hxs
  have hlast : (((xs.length : ℤ)-1 : ℤ) : K) = xs.length-1 := by push_cast; rfl
  unfold percentile
  dsimp only
  split
  · next hone =>
    have hlength : xs.length = 1 := by omega
    have hfirst := index_place hpos
    rw [Nat.cast_zero] at hfirst
    have hrank : p*(xs.length-1) = 0 := by rw [hlength]; ring
    have hplace : interpolate xs (0 : K) = place xs 0 := by simp [interpolate]
    rw [hfirst, hrank, hplace]
  · simp only [exact, bind, Except.bind, hlast]
    rw [if_neg (not_lt.mpr hrange.nonneg)]
    have hlow := index_place hrange.floor_lt
    have hhigh := index_place (hrange.next_lt ⌊p*((xs.length : K)-1)⌋.toNat)
    have hfloor := Int.floor_nonneg.mpr hrange.nonneg
    have hnext : ((min (⌊p*((xs.length : K)-1)⌋.toNat+1) (xs.length-1) : ℕ) : ℤ) =
        min (⌊p*((xs.length : K)-1)⌋+1) ((xs.length : ℤ)-1) := by
      omega
    rw [Int.toNat_of_nonneg hfloor] at hlow
    rw [hnext] at hhigh
    rw [hlow, hhigh, interpolate, hrange.floor_eq]

/-- The quartiles of samples in any order. -/
def q1 (xs : List K) : K := quantile xs (1/4)

def q3 (xs : List K) : K := quantile xs (3/4)

def lower (cfg : Config K) (xs : List K) : K := q1 xs-cfg.k*(q3 xs-q1 xs)

def upper (cfg : Config K) (xs : List K) : K := q3 xs+cfg.k*(q3 xs-q1 xs)

theorem q1_le_q3 {xs : List K} (hxs : xs ≠ []) : q1 xs ≤ q3 xs :=
  quantile_mono hxs (by norm_num) (by norm_num) (by norm_num)

theorem quartiles_between {xs : List K} (hxs : xs ≠ []) :
    (∃ x ∈ xs, x ≤ q1 xs) ∧ q1 xs ≤ q3 xs ∧ ∃ x ∈ xs, q3 xs ≤ x :=
  ⟨(quantile_between hxs (by norm_num) (by norm_num)).1,q1_le_q3 hxs,
    (quantile_between hxs (by norm_num) (by norm_num)).2⟩

/-- The fences of a sorted view are those of the samples. -/
theorem bounds_exact (cfg : Config K) {sorted xs : List K} (hmin : 1 ≤ cfg.minSamples)
    (hsorted : sorted.Pairwise (· ≤ ·)) (hperm : sorted.Perm xs) :
    bounds (exact root) cfg sorted =
      .ok (if cfg.minSamples ≤ xs.length ∧ q1 xs < q3 xs then
        some (lower cfg xs,upper cfg xs) else none) := by
  have hlength := hperm.length_eq
  unfold bounds
  by_cases hfew : sorted.length < cfg.minSamples
  · rw [if_pos hfew, if_neg (fun h => absurd h.1 (by omega))]
  · have hne : sorted ≠ [] := by
      intro h
      rw [h, List.length_nil] at hfew
      omega
    have hxs : xs ≠ [] := fun h => hne (h ▸ hperm).eq_nil
    have hlow := percentile_exact root hne (p := 1/4) (by norm_num) (by norm_num)
    have hhigh := percentile_exact root hne (p := 3/4) (by norm_num) (by norm_num)
    rw [← quantile_eq hsorted hperm] at hlow hhigh
    have hquarter : (exact root).literal (1/4) = 1/4 := by
      show ((1/4 : ℚ) : K) = 1/4
      norm_num
    have hthree : (exact root).literal (3/4) = 3/4 := by
      show ((3/4 : ℚ) : K) = 3/4
      norm_num
    rw [if_neg hfew, hquarter, hthree, hlow, hhigh]
    simp only [bind, Except.bind]
    have hflat : (exact root).eq ((exact root).sub (quantile xs (3/4)) (quantile xs (1/4)))
        ((exact root).literal 0) = true ↔ q3 xs = q1 xs := by
      show decide (q3 xs-q1 xs = ((0 : ℚ) : K)) = true ↔ _
      rw [decide_eq_true_iff, Rat.cast_zero, sub_eq_zero]
    by_cases hsame : q3 xs = q1 xs
    · rw [if_pos (hflat.mpr hsame), if_neg fun h => h.2.ne' hsame]
    · rw [if_neg (fun h => hsame (hflat.mp h)),
        if_pos ⟨by omega,lt_of_le_of_ne (q1_le_q3 hxs) (Ne.symm hsame)⟩]
      rfl

/-- The value is beyond a fence of the earlier samples, this far. -/
def Exceeds (cfg : Config K) (earlier : List K) (v d : K) : Prop :=
  cfg.minSamples ≤ earlier.length ∧ q1 earlier < q3 earlier ∧
    ((v < lower cfg earlier ∧ d = lower cfg earlier-v) ∨
      (upper cfg earlier < v ∧ d = v-upper cfg earlier))

theorem lower_le_upper {cfg : Config K} (hcfg : init (exact root) cfg = .ok ()) {xs : List K}
    (h : q1 xs < q3 xs) : lower cfg xs ≤ upper cfg xs := by
  have hk : 0 < cfg.k := by
    have hk : decide (cfg.k ≤ ((0 : ℚ) : K)) = false := init_k hcfg
    rw [decide_eq_false_iff_not, Rat.cast_zero, not_le] at hk
    exact hk
  have hspread := mul_pos hk (sub_pos.mpr h)
  rw [lower, upper]
  linarith

omit [IsStrictOrderedRing K] in
theorem not_exceeds {cfg : Config K} {xs : List K} {v : K}
    (h : lower cfg xs ≤ v ∧ v ≤ upper cfg xs) (d : K) : ¬Exceeds cfg xs v d := by
  rintro ⟨_,_,⟨hlow,_⟩ | ⟨hhigh,_⟩⟩
  · exact absurd h.1 (not_le.mpr hlow)
  · exact absurd h.2 (not_le.mpr hhigh)

/-- Outside of the fences there is one distance. -/
theorem exceeds_outside {cfg : Config K} (hcfg : init (exact root) cfg = .ok ()) {xs : List K}
    {v d : K} (hmany : cfg.minSamples ≤ xs.length) (hspread : q1 xs < q3 xs)
    (hout : ¬(lower cfg xs ≤ v ∧ v ≤ upper cfg xs)) :
    (if v < lower cfg xs then lower cfg xs-v else v-upper cfg xs) = d ↔ Exceeds cfg xs v d := by
  have hfences := lower_le_upper root hcfg hspread
  by_cases hlow : v < lower cfg xs
  · rw [if_pos hlow]
    constructor
    · exact fun hd => ⟨hmany,hspread,Or.inl ⟨hlow,hd.symm⟩⟩
    · rintro ⟨_,_,⟨_,hd⟩ | ⟨hhigh,_⟩⟩
      · exact hd.symm
      · exact absurd (hhigh.trans hlow) (not_lt.mpr hfences)
  · have hhigh : upper cfg xs < v := not_le.mp fun h => hout ⟨not_lt.mp hlow,h⟩
    rw [if_neg hlow]
    constructor
    · exact fun hd => ⟨hmany,hspread,Or.inr ⟨hhigh,hd.symm⟩⟩
    · rintro ⟨_,_,⟨h,_⟩ | ⟨_,hd⟩⟩
      · exact absurd h hlow
      · exact hd.symm

theorem detect_number {cfg : Config K} (hcfg : init (exact root) cfg = .ok ()) (draw : Draw)
    {s : State K} {r : Sample K} {v : K}
    (hs : Synced (exact root) (fun _ => True) cfg.windowSize s)
    (hv : readMetric (exact root) cfg.sourceDict cfg.metricKey r = some (.ok v)) :
    (detect (exact root) cfg draw s r).2 = add (exact root) cfg s v ∧
    ∃ outcome, (detect (exact root) cfg draw s r).1 = .ok outcome ∧
      ∀ d, (∃ e, outcome = some e ∧ e.severityScore = d) ↔ Exceeds cfg s.window v d := by
  have hmin := (init_ok hcfg).2.1
  have hbounds := bounds_exact root cfg (by omega) ((ascending_exact root).mp hs.ascending)
    hs.perm
  rw [detect, hv]
  dsimp only
  rw [hbounds]
  by_cases hready : cfg.minSamples ≤ s.window.length ∧ q1 s.window < q3 s.window
  · rw [if_pos hready]
    dsimp only
    have hle : ((exact root).le (lower cfg s.window) v && (exact root).le v (upper cfg s.window)) =
        true ↔ lower cfg s.window ≤ v ∧ v ≤ upper cfg s.window := by
      rw [Bool.and_eq_true]
      exact and_congr decide_eq_true_iff decide_eq_true_iff
    by_cases hinside : lower cfg s.window ≤ v ∧ v ≤ upper cfg s.window
    · rw [if_pos (hle.mpr hinside)]
      refine ⟨rfl,none,rfl,fun d => ⟨fun ⟨_,h,_⟩ => (by cases h),fun h => ?_⟩⟩
      exact absurd h (not_exceeds hinside d)
    · rw [if_neg (fun h => hinside (hle.mp h))]
      refine ⟨rfl,_,rfl,fun d => ?_⟩
      rw [fired_iff, event_severity]
      exact exceeds_outside root hcfg hready.1 hready.2 hinside
  · rw [if_neg hready]
    refine ⟨rfl,none,rfl,fun d => ⟨fun ⟨_,h,_⟩ => (by cases h),fun h => ?_⟩⟩
    exact absurd ⟨h.1,h.2.1⟩ hready

/-- Between calls both views are the last samples since the last reset. -/
structure Naive (cfg : Config K) (s : State K) (xs : List K) : Prop where
  synced : Synced (exact root) (fun _ => True) cfg.windowSize s
  window : s.window = recent cfg.windowSize xs

theorem after_naive {cfg : Config K} (hcfg : init (exact root) cfg = .ok ())
    (ops : List (Op K)) : Naive root cfg (after (detect (exact root) cfg) reset ⟨[],[]⟩ ops)
      (admitted (exact root) cfg.sourceDict cfg.metricKey [] ops) := by
  have hsize := (init_ok hcfg).1
  have hstart : ∀ s : State K, Naive root cfg (reset s) [] :=
    fun _ => ⟨synced_start (by omega),(recent_nil _).symm⟩
  apply after_relates_exact (R := Naive root cfg) root hstart
  · exact fun draw s r h => by rw [detect_skip h]
  · intro draw s r xs v hs hv
    rw [(detect_number root hcfg draw hs.synced hv).1]
    refine ⟨(add_synced (ordered_exact root) (by omega) hs.synced trivial).1,?_⟩
    rw [add_remaining, hs.window, push_recent (by omega)]
  · exact hstart ⟨[],[]⟩

/-- The ranks of the quartiles are places of the sorted view. -/
theorem ranks_inRange {xs : List K} (hxs : xs ≠ []) {p : K} (h0 : 0 ≤ p) (h1 : p ≤ 1) :
    ∃ lo : ℕ, (exact root).toInt (p*(xs.length-1)) = .ok lo ∧ lo < xs.length ∧
      min (lo+1) (xs.length-1) < xs.length := by
  have hrange := inRange_part hxs h0 h1
  refine ⟨_,?_,hrange.floor_lt,hrange.next_lt _⟩
  show Except.ok (if p*((xs.length : K)-1) < 0 then _ else _) = _
  rw [if_neg (not_lt.mpr hrange.nonneg), Int.toNat_of_nonneg (Int.floor_nonneg.mpr hrange.nonneg)]

/-- The incremental window is the naive one. -/
theorem window_naive {cfg : Config K} (hcfg : init (exact root) cfg = .ok ())
    (ops : List (Op K)) :
    let s := after (detect (exact root) cfg) reset ⟨[],[]⟩ ops
    let earlier := recent cfg.windowSize
      (admitted (exact root) cfg.sourceDict cfg.metricKey [] ops)
    s.window = earlier ∧ s.sorted.Perm earlier ∧ s.sorted.Pairwise (· ≤ ·) ∧
    (cfg.minSamples ≤ earlier.length →
      (∀ p : K, p = 1/4 ∨ p = 3/4 →
        ∃ lo : ℕ, (exact root).toInt (p*(s.sorted.length-1)) = .ok lo ∧ lo < s.sorted.length ∧
          min (lo+1) (s.sorted.length-1) < s.sorted.length) ∧
      (∃ x ∈ earlier, x ≤ q1 earlier) ∧ q1 earlier ≤ q3 earlier ∧ ∃ x ∈ earlier, q3 earlier ≤ x) ∧
    ∀ draw r,
      (readMetric (exact root) cfg.sourceDict cfg.metricKey r = none ∧
        detect (exact root) cfg draw s r = (.ok none,s)) ∨
      ∃ v outcome, readMetric (exact root) cfg.sourceDict cfg.metricKey r = some (.ok v) ∧
        (detect (exact root) cfg draw s r).1 = .ok outcome ∧
        ∀ d, (∃ e, outcome = some e ∧ e.severityScore = d) ↔ Exceeds cfg earlier v d := by
  intro s earlier
  obtain ⟨hsynced,hwindow⟩ := after_naive root hcfg ops
  have hperm : s.sorted.Perm earlier := hsynced.perm.trans (List.Perm.of_eq hwindow)
  have hmin := (init_ok hcfg).2.1
  refine ⟨hwindow,hperm,(ascending_exact root).mp hsynced.ascending,fun hmany => ?_,
    fun draw r => ?_⟩
  · have hne : earlier ≠ [] := by
      intro h
      rw [h, List.length_nil] at hmany
      omega
    have hsorted : s.sorted ≠ [] := fun h => hne (h ▸ hperm).symm.eq_nil
    refine ⟨fun p hp => ?_,quartiles_between hne⟩
    rcases hp with rfl | rfl
    · exact ranks_inRange root hsorted (by norm_num) (by norm_num)
    · exact ranks_inRange root hsorted (by norm_num) (by norm_num)
  · rcases readMetric_exact root cfg.sourceDict cfg.metricKey r with h | ⟨v,h⟩
    · exact Or.inl ⟨h,detect_skip h⟩
    · obtain ⟨_,outcome,hok,hfires⟩ := detect_number root hcfg draw hsynced h
      refine Or.inr ⟨v,outcome,h,hok,fun d => ?_⟩
      rw [hfires, hwindow]

def sampleConfig : Config ℚ := ⟨"metric",1,4,4,"enrichment"⟩

theorem window_naive_sample :
    (after (detect (exact id) sampleConfig) reset ⟨[],[]⟩
      (feed "metric" [5,1,4,2,3])).window =
      [1,4,2,3] := by
  have hcfg : init (exact id) sampleConfig = .ok () := by decide +kernel
  exact (window_naive id hcfg (feed "metric" [5,1,4,2,3])).1.trans (by decide +kernel)

end PipelineX.Detectors.Iqr

