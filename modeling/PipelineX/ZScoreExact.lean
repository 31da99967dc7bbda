import PipelineX.DetectorRuns
import PipelineX.ExactDetectors

/-!
# The z-score detector in exact arithmetic

The score of a value is its distance from the mean of the window, in standard
deviations.
-/

set_option autoImplicit false

namespace PipelineX.Detectors.ZScore
open PipelineX.Records PipelineX.Moments

theorem init_accepts {K : Type} [Field K] [LinearOrder K] [FloorRing K] (root : K → K)
    {cfg : Config K} (hsize : 1 < cfg.windowSize) (hthreshold : 0 < cfg.threshold)
    (hmin : 2 ≤ cfg.minSamples)
    (hdict : cfg.sourceDict = "enrichment" ∨ cfg.sourceDict = "raw_payload")
    (hmax : cfg.windowSize ≤ maxsize) : init (exact root) cfg = .ok () := by
  have hle : ¬(exact root).le cfg.threshold ((exact root).literal 0) = true := by
    rw [literal_zero]
    exact fun h => absurd (of_decide_eq_true h) (not_le.mpr hthreshold)
  have hsource : checkSourceDict cfg.sourceDict = .ok () := by
    rcases hdict with h | h
    · exact if_neg fun hne => hne.1 h
    · exact if_neg fun hne => hne.2 h
  have hlength : checkMaxlen cfg.windowSize = .ok () := if_neg (not_lt.mpr hmax)
  rw [init, if_neg (by omega), if_neg hle, if_neg (by omega), hsource, hlength]
  rfl

variable {K : Type} [Field K] [LinearOrder K] [IsStrictOrderedRing K] (roots : SquareRoot K)

/-- The standard deviation. -/
def deviation (xs : List K) : K := roots.root (variance xs)

def score (xs : List K) (v : K) : K := (v-Moments.mean xs)/deviation roots xs

/-- The value is over the threshold, this far from the earlier samples. -/
def Exceeds (cfg : Config K) (earlier : List K) (v d : K) : Prop :=
  cfg.minSamples ≤ earlier.length ∧ deviation roots earlier ≠ 0 ∧ cfg.threshold < d ∧
    d = |score roots earlier v|

variable [FloorRing K]

omit [FloorRing K] in
theorem deviation_nonneg (xs : List K) : 0 ≤ deviation roots xs :=
  roots.nonneg _ (variance_nonneg xs)

theorem zScore_exact {cfg : Config K} (hmin : 1 ≤ cfg.minSamples) (window : List K) (v : K) :
    zScore (exact roots.root) cfg window v =
      .ok (if cfg.minSamples ≤ window.length ∧ deviation roots window ≠ 0 then
        some (score roots window v) else none) := by
  unfold zScore
  by_cases hfew : window.length < cfg.minSamples
  · rw [if_pos hfew, if_neg (fun h => absurd h.1 (by omega))]
  · have hne : window ≠ [] := by
      intro h
      rw [h, List.length_nil] at hfew
      omega
    have hlength := length_ne_zero hne
    have hofInt : (exact roots.root).ofInt window.length = .ok (window.length : K) :=
      congrArg Except.ok (Int.cast_natCast _)
    have hmean : ZScore.mean (exact roots.root) window = .ok (Moments.mean window) := by
      rw [ZScore.mean, hofInt]
      exact div_exact roots.root hlength
    have hvariance : (exact roots.root).div
        ((exact roots.root).sum (spreads window (Moments.mean window))) window.length =
        .ok (variance window) := div_exact roots.root hlength
    have hsqrt : (exact roots.root).sqrt (variance window) = .ok (deviation roots window) :=
      if_neg (not_lt.mpr (variance_nonneg _))
    rw [if_neg hfew, hofInt, hmean]
    simp only [bind, Except.bind]
    rw [squares_exact]
    dsimp only
    rw [hvariance]
    dsimp only
    rw [hsqrt]
    dsimp only
    have hflat : (exact roots.root).eq (deviation roots window) ((exact roots.root).literal 0) =
        true ↔ deviation roots window = 0 := by
      rw [literal_zero]
      exact decide_eq_true_iff
    by_cases hzero : deviation roots window = 0
    · rw [if_pos (hflat.mpr hzero), if_neg (fun h => h.2 hzero)]
    · have hdiv : (exact roots.root).div ((exact roots.root).sub v (Moments.mean window))
          (deviation roots window) = .ok (score roots window v) := div_exact roots.root hzero
      rw [if_neg (fun h => hzero (hflat.mp h)), hdiv, if_pos ⟨by omega,hzero⟩]

theorem detect_skip {F : Type} {py : PyFloat F} {cfg : Config F} {draw : Draw} {window : List F}
    {r : Sample F} (h : readMetric py cfg.sourceDict cfg.metricKey r = none) :
    detect py cfg draw window r = (.ok none,window) := by
  rw [detect, h]

theorem detect_number {cfg : Config K} (hmin : 1 ≤ cfg.minSamples) (draw : Draw) (window : List K)
    {r : Sample K} {v : K}
    (hv : readMetric (exact roots.root) cfg.sourceDict cfg.metricKey r = some (.ok v)) :
    (detect (exact roots.root) cfg draw window r).2 = push cfg.windowSize window v ∧
    ∃ outcome, (detect (exact roots.root) cfg draw window r).1 = .ok outcome ∧
      ∀ d, (∃ e, outcome = some e ∧ e.severityScore = d) ↔ Exceeds roots cfg window v d := by
  rw [detect, hv]
  dsimp only
  rw [zScore_exact roots hmin]
  by_cases hready : cfg.minSamples ≤ window.length ∧ deviation roots window ≠ 0
  · rw [if_pos hready]
    dsimp only
    have hle : (exact roots.root).le ((exact roots.root).abs (score roots window v)) cfg.threshold =
        true ↔ |score roots window v| ≤ cfg.threshold := decide_eq_true_iff
    by_cases hinside : |score roots window v| ≤ cfg.threshold
    · rw [if_pos (hle.mpr hinside)]
      refine ⟨rfl,none,rfl,fun d => ⟨fun ⟨_,h,_⟩ => (by cases h),?_⟩⟩
      rintro ⟨_,_,hover,rfl⟩
      exact absurd hinside (not_le.mpr hover)
    · rw [if_neg (fun h => hinside (hle.mp h))]
      refine ⟨rfl,_,rfl,fun d => ?_⟩
      rw [fired_iff]
      constructor
      · rintro rfl
        exact ⟨hready.1,hready.2,not_le.mp hinside,rfl⟩
      · rintro ⟨_,_,_,rfl⟩
        rfl
  · rw [if_neg hready]
    refine ⟨rfl,none,rfl,fun d => ⟨fun ⟨_,h,_⟩ => (by cases h),fun h => ?_⟩⟩
    exact absurd ⟨h.1,h.2.1⟩ hready

theorem after_recent {cfg : Config K} (hcfg : init (exact roots.root) cfg = .ok ())
    (ops : List (Op K)) : after (detect (exact roots.root) cfg) reset [] ops =
      recent cfg.windowSize (admitted (exact roots.root) cfg.sourceDict cfg.metricKey [] ops) := by
  obtain ⟨hsize,hmin,_⟩ := init_ok hcfg
  apply after_relates_exact (R := fun window xs => window = recent cfg.windowSize xs) roots.root
    (fun _ => (recent_nil _).symm)
  · exact fun draw window r h => by rw [detect_skip h]
  · intro draw window r xs v hs hv
    rw [(detect_number roots (by omega) draw window hv).1, hs, push_recent (by omega)]
  · exact (recent_nil _).symm

end PipelineX.Detectors.ZScore
