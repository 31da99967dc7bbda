import PipelineX.ClampedSum
import PipelineX.DetectorRuns
import PipelineX.ExactDetectors

/-!
# The drifts that the CUSUM detector detects

In exact arithmetic the two sums are the greatest over the runs of deviations
that end at the current sample and start after the last alarm. A sample does not
take both over the threshold.
-/

set_option autoImplicit false

namespace PipelineX.Detectors.Cusum
open PipelineX.Records PipelineX.Moments PipelineX.ClampedSum
variable {K : Type} [Field K] [LinearOrder K]

/-- A deviation as it counts for the upper sum, and for the lower. -/
def above (cfg : Config K) (d : K) : K := d-cfg.slack

def below (cfg : Config K) (d : K) : K := -d-cfg.slack

/-- Some run of deviations up to the last is over the threshold. -/
def Alarm (cfg : Config K) (ds : List K) : Prop :=
  ∃ run, run ≠ [] ∧ run <:+ ds ∧
    (cfg.threshold < total (above cfg) run ∨ cfg.threshold < total (below cfg) run)

open Classical in
/-- The deviations since the last alarm. -/
noncomputable def sinceAlarm (cfg : Config K) : List K → List K → List K
  | since, [] => since
  | since, d::ds =>
    if Alarm cfg (since ++ [d]) then sinceAlarm cfg [] ds else sinceAlarm cfg (since ++ [d]) ds

open Classical in
theorem sinceAlarm_append (cfg : Config K) (since ds : List K) (d : K) :
    sinceAlarm cfg since (ds ++ [d]) =
      if Alarm cfg (sinceAlarm cfg since ds ++ [d]) then [] else sinceAlarm cfg since ds ++ [d] := by
  induction ds generalizing since with
  | nil => rfl
  | cons e ds ih =>
    rw [List.cons_append, sinceAlarm, sinceAlarm]
    split
    · exact ih []
    · exact ih _

/-- A run that was an alarm is over. -/
theorem sinceAlarm_quiet {cfg : Config K} {since : List K} (h : ¬Alarm cfg since) (ds : List K) :
    ¬Alarm cfg (sinceAlarm cfg since ds) := by
  induction ds using List.reverseRecOn with
  | nil => exact h
  | append_singleton ds d _ =>
    rw [sinceAlarm_append]
    split
    · rintro ⟨run,hne,hrun,_⟩
      exact hne (List.suffix_nil.mp hrun)
    · next hquiet => exact hquiet

theorem not_alarm_nil (cfg : Config K) : ¬Alarm cfg [] := by
  rintro ⟨run,hne,hrun,_⟩
  exact hne (List.suffix_nil.mp hrun)

/-- The mean of the warm-up. -/
def meanOf (cfg : Config K) (xs : List K) : K := mean (xs.take cfg.warmupSamples.toNat)

/-- The deviation of the warm-up, and no less than `1e-12`. -/
def spreadOf (root : K → K) (cfg : Config K) (xs : List K) : K :=
  max (root (variance (xs.take cfg.warmupSamples.toNat))) (1/10^12)

def deviation (root : K → K) (cfg : Config K) (xs : List K) (v : K) : K :=
  (v-meanOf cfg xs)/spreadOf root cfg xs

/-- The deviations of the samples after the warm-up. -/
def deviations (root : K → K) (cfg : Config K) (xs : List K) : List K :=
  (xs.drop cfg.warmupSamples.toNat).map (deviation root cfg xs)

theorem deviations_warming (root : K → K) {cfg : Config K} {xs : List K}
    (h : xs.length ≤ cfg.warmupSamples) : deviations root cfg xs = [] := by
  rw [deviations, List.drop_of_length_le (by omega)]
  rfl

section
variable (root : K → K) {cfg : Config K} {xs : List K} (v : K)
variable (h : cfg.warmupSamples ≤ xs.length)
include h

omit [LinearOrder K] in
theorem meanOf_append : meanOf cfg (xs ++ [v]) = meanOf cfg xs := by
  rw [meanOf, List.take_append_of_le_length (by omega)]
  rfl

theorem spreadOf_append : spreadOf root cfg (xs ++ [v]) = spreadOf root cfg xs := by
  rw [spreadOf, List.take_append_of_le_length (by omega)]
  rfl

theorem deviations_append :
    deviations root cfg (xs ++ [v]) = deviations root cfg xs ++ [deviation root cfg xs v] := by
  have hsame : deviation root cfg (xs ++ [v]) = deviation root cfg xs := by
    funext x
    rw [deviation, meanOf_append v h, spreadOf_append root v h]
    rfl
  rw [deviations, hsame, List.drop_append_of_le_length (by omega), List.map_append]
  rfl

open Classical in
/-- After the warm-up every sample adds its deviation to the run, or ends it. -/
theorem sinceAlarm_deviations : sinceAlarm cfg [] (deviations root cfg (xs ++ [v])) =
    if Alarm cfg (sinceAlarm cfg [] (deviations root cfg xs) ++ [deviation root cfg xs v]) then []
    else sinceAlarm cfg [] (deviations root cfg xs) ++ [deviation root cfg xs v] := by
  rw [deviations_append root v h, sinceAlarm_append]

end

section
variable [IsStrictOrderedRing K]

theorem spreadOf_pos (root : K → K) (cfg : Config K) (xs : List K) : 0 < spreadOf root cfg xs := by
  have htiny : (0 : K) < 1/10^12 := by positivity
  exact htiny.trans_le (le_max_right _ _)

theorem alarm_iff {cfg : Config K} (hthreshold : 0 ≤ cfg.threshold) (ds : List K) : Alarm cfg ds ↔
    cfg.threshold < clamped (above cfg) ds ∨ cfg.threshold < clamped (below cfg) ds := by
  rw [lt_clamped_iff _ hthreshold, lt_clamped_iff _ hthreshold]
  constructor
  · rintro ⟨run,hne,hrun,hhigh | hlow⟩
    · exact Or.inl ⟨run,hne,hrun,hhigh⟩
    · exact Or.inr ⟨run,hne,hrun,hlow⟩
  · rintro (⟨run,hne,hrun,hhigh⟩ | ⟨run,hne,hrun,hlow⟩)
    · exact ⟨run,hne,hrun,Or.inl hhigh⟩
    · exact ⟨run,hne,hrun,Or.inr hlow⟩

end

section
variable [FloorRing K] (root : K → K) {cfg : Config K}

/-- What a configuration that is accepted says of the numbers. -/
theorem init_signs (hcfg : init (exact root) cfg = .ok ()) : 0 < cfg.threshold ∧ 0 ≤ cfg.slack := by
  unfold init at hcfg
  split at hcfg
  · cases hcfg
  next hthreshold =>
  split at hcfg
  · cases hcfg
  next hslack =>
  have hpos : ¬cfg.threshold ≤ (exact root).literal 0 := fun h => hthreshold (decide_eq_true h)
  have hnonneg : ¬cfg.slack < (exact root).literal 0 := fun h => hslack (decide_eq_true h)
  rw [literal_zero] at hpos hnonneg
  exact ⟨not_le.mp hpos,not_lt.mp hnonneg⟩

theorem accumulate_high (s : State K) (d : K) :
    (accumulate (exact root) cfg s d).sHigh = max 0 (s.sHigh+d-cfg.slack) := by
  rw [accumulate, max_exact, literal_zero]
  rfl

theorem accumulate_low (s : State K) (d : K) :
    (accumulate (exact root) cfg s d).sLow = max 0 (s.sLow-d-cfg.slack) := by
  rw [accumulate, max_exact, max_exact, literal_zero]
  rfl

theorem accumulate_exact (s : State K) (d : K) :
    accumulate (exact root) cfg s d =
      { s with sHigh := max 0 (s.sHigh+above cfg d), sLow := max 0 (s.sLow+below cfg d) } := by
  have hhigh : s.sHigh+d-cfg.slack = s.sHigh+above cfg d := by rw [above]; ring
  have hlow : s.sLow-d-cfg.slack = s.sLow+below cfg d := by rw [below]; ring
  rw [accumulate, max_exact, max_exact, literal_zero, ← hhigh, ← hlow]
  rfl

theorem calibrate_exact [IsStrictOrderedRing K] {s : State K} (hne : s.warmup ≠ []) :
    calibrate (exact root) s = (.ok none,{ s with
      target := some (mean s.warmup)
      sigma := some (max (root (variance s.warmup)) (1/10^12)) }) := by
  have hlength := length_ne_zero hne
  have hofInt : (exact root).ofInt s.warmup.length = .ok (s.warmup.length : K) :=
    congrArg Except.ok (Int.cast_natCast _)
  have hmean : (exact root).div ((exact root).sum s.warmup) s.warmup.length =
      .ok (mean s.warmup) := div_exact root hlength
  have hvariance : (exact root).div ((exact root).sum (spreads s.warmup (mean s.warmup)))
      s.warmup.length = .ok (variance s.warmup) := div_exact root hlength
  have hroot : (exact root).root (variance s.warmup) = .ok (root (variance s.warmup)) :=
    if_neg (not_lt.mpr (variance_nonneg _))
  have htiny : (exact root).literal (1/10^12) = 1/10^12 := by
    show ((1/10^12 : ℚ) : K) = 1/10^12
    norm_num
  have hsigma : sigmaOf (exact root) s.warmup s.warmup.length (mean s.warmup) =
      .ok (max (root (variance s.warmup)) (1/10^12)) := by
    rw [sigmaOf, squares_exact]
    simp only [bind, Except.bind]
    rw [hvariance]
    dsimp only
    rw [hroot, htiny, ← max_exact root]
  rw [calibrate, hofInt]
  dsimp only
  rw [hmean]
  dsimp only
  rw [hsigma]

theorem detect_skip {draw : Draw} {s : State K} {r : Sample K}
    (h : readMetric (exact root) cfg.sourceDict cfg.metricKey r = none) :
    detect (exact root) cfg draw s r = (.ok none,s) := by
  rw [detect, h]

section
variable {draw : Draw} {r : Sample K} {v : K}
variable (hv : readMetric (exact root) cfg.sourceDict cfg.metricKey r = some (.ok v))
include hv

/-- One more sample of the warm-up. -/
theorem warming_exact {xs : List K} (h : (xs.length : ℤ)+1 < cfg.warmupSamples) :
    detect (exact root) cfg draw ⟨xs,none,none,0,0⟩ r = (.ok none,⟨xs ++ [v],none,none,0,0⟩) := by
  rw [detect, hv]
  dsimp only
  rw [push_room v (by omega), if_pos (by rw [List.length_append]; push_cast; exact h)]

/-- The last sample of the warm-up. -/
theorem warmed_exact [IsStrictOrderedRing K] {xs : List K}
    (h : (xs.length : ℤ)+1 = cfg.warmupSamples) :
    detect (exact root) cfg draw ⟨xs,none,none,0,0⟩ r =
      (.ok none,⟨xs ++ [v],some (meanOf cfg (xs ++ [v])),
        some (spreadOf root cfg (xs ++ [v])),0,0⟩) := by
  have hlength : ((xs ++ [v]).length : ℤ) = cfg.warmupSamples := by
    rw [List.length_append]
    exact h
  have htake : (xs ++ [v]).take cfg.warmupSamples.toNat = xs ++ [v] :=
    List.take_of_length_le (by omega)
  rw [detect, hv]
  dsimp only
  rw [push_room v (by omega), if_neg (by omega),
    calibrate_exact root (List.append_ne_nil_of_right_ne_nil _ (List.cons_ne_nil _ _)), meanOf,
    spreadOf, htake]

/-- A sample after the warm-up. -/
theorem scoring_exact {s : State K} {target sigma : K} (ht : s.target = some target)
    (hs : s.sigma = some sigma) (hpos : 0 < sigma) :
    detect (exact root) cfg draw s r =
      let s' := accumulate (exact root) cfg s ((v-target)/sigma)
      if cfg.threshold < s'.sHigh ∨ cfg.threshold < s'.sLow then
        (.ok (some (event (exact root) cfg draw r s' v target sigma)),
          { s' with sHigh := 0, sLow := 0 })
      else (.ok none,s') := by
  rw [detect, hv]
  dsimp only
  rw [ht, hs]
  dsimp only
  have hdiv : (exact root).div ((exact root).sub v target) sigma = .ok ((v-target)/sigma) :=
    div_exact root hpos.ne'
  rw [hdiv]
  dsimp only
  have hfires : ((exact root).lt cfg.threshold
        (accumulate (exact root) cfg s ((v-target)/sigma)).sHigh ||
      (exact root).lt cfg.threshold (accumulate (exact root) cfg s ((v-target)/sigma)).sLow) = true ↔
      cfg.threshold < (accumulate (exact root) cfg s ((v-target)/sigma)).sHigh ∨
      cfg.threshold < (accumulate (exact root) cfg s ((v-target)/sigma)).sLow := by
    rw [Bool.or_eq_true]
    exact or_congr decide_eq_true_iff decide_eq_true_iff
  rw [literal_zero]
  split
  · next h => rw [if_pos (hfires.mp h)]
  · next h => rw [if_neg (fun h' => h (hfires.mpr h'))]

end

/-- The state between calls, when these samples were admitted since the last
reset. -/
structure Drifts (cfg : Config K) (s : State K) (xs : List K) : Prop where
  warming : xs.length < cfg.warmupSamples → s = ⟨xs,none,none,0,0⟩
  target : cfg.warmupSamples ≤ xs.length → s.target = some (meanOf cfg xs)
  sigma : cfg.warmupSamples ≤ xs.length → s.sigma = some (spreadOf root cfg xs)
  sHigh : s.sHigh = clamped (above cfg) (sinceAlarm cfg [] (deviations root cfg xs))
  sLow : s.sLow = clamped (below cfg) (sinceAlarm cfg [] (deviations root cfg xs))

omit [FloorRing K] in
/-- Before the first deviation both sums are zero. -/
theorem sums_start {xs : List K} (h : deviations root cfg xs = []) :
    0 = clamped (above cfg) (sinceAlarm cfg [] (deviations root cfg xs)) ∧
      0 = clamped (below cfg) (sinceAlarm cfg [] (deviations root cfg xs)) := by
  rw [h]
  exact ⟨rfl,rfl⟩

theorem drifts_reset (hcfg : init (exact root) cfg = .ok ()) (s : State K) :
    Drifts root cfg (reset (exact root) s) [] := by
  have hwarmup := (init_ok hcfg).1
  have hreset : reset (exact root) s = ⟨[],none,none,0,0⟩ := by rw [reset, literal_zero]
  have hnone : deviations root cfg [] = [] := by rw [deviations, List.drop_nil, List.map_nil]
  obtain ⟨hhigh,hlow⟩ := sums_start root hnone
  rw [hreset]
  refine ⟨fun _ => rfl,fun h => ?_,fun h => ?_,hhigh,hlow⟩
  · rw [List.length_nil] at h
    omega
  · rw [List.length_nil] at h
    omega

section
variable [IsStrictOrderedRing K] (draw : Draw) {s : State K} {xs : List K} {r : Sample K} {v : K}
variable (hs : Drifts root cfg s xs)
variable (hv : readMetric (exact root) cfg.sourceDict cfg.metricKey r = some (.ok v))
include hs hv

theorem warming_drifts (h : xs.length < cfg.warmupSamples) :
    (detect (exact root) cfg draw s r).1 = .ok none ∧
      Drifts root cfg (detect (exact root) cfg draw s r).2 (xs ++ [v]) := by
  have hlength : ((xs ++ [v]).length : ℤ) = (xs.length : ℤ)+1 := by
    rw [List.length_append]
    rfl
  obtain ⟨hhigh,hlow⟩ := sums_start root (deviations_warming root (by omega) :
    deviations root cfg (xs ++ [v]) = [])
  rw [hs.warming h]
  rcases Int.lt_or_eq_of_le (by omega : (xs.length : ℤ)+1 ≤ cfg.warmupSamples) with hlt | heq
  · rw [warming_exact root hv hlt]
    exact ⟨rfl,fun _ => rfl,fun h => by omega,fun h => by omega,hhigh,hlow⟩
  · rw [warmed_exact root hv heq]
    exact ⟨rfl,fun h => by omega,fun _ => rfl,fun _ => rfl,hhigh,hlow⟩

/-- After the warm-up one more deviation is added to the run, or ends it. -/
theorem scoring_drifts (hcfg : init (exact root) cfg = .ok ())
    (h : cfg.warmupSamples ≤ xs.length) :
    ∃ outcome, (detect (exact root) cfg draw s r).1 = .ok outcome ∧
      (outcome.isSome = true ↔ Alarm cfg (sinceAlarm cfg [] (deviations root cfg xs) ++
        [deviation root cfg xs v])) ∧
      Drifts root cfg (detect (exact root) cfg draw s r).2 (xs ++ [v]) := by
  have hsigns := init_signs root hcfg
  have hlength : ((xs ++ [v]).length : ℤ) = (xs.length : ℤ)+1 := by
    rw [List.length_append]
    rfl
  have hdeviation : (v-meanOf cfg xs)/spreadOf root cfg xs = deviation root cfg xs v := rfl
  have halarm := alarm_iff hsigns.1.le (sinceAlarm cfg [] (deviations root cfg xs) ++
    [deviation root cfg xs v])
  rw [clamped_append, clamped_append, ← hs.sHigh, ← hs.sLow] at halarm
  have hnext := sinceAlarm_deviations root v h
  have htarget : s.target = some (meanOf cfg (xs ++ [v])) := by
    rw [meanOf_append v h]
    exact hs.target h
  have hsigma : s.sigma = some (spreadOf root cfg (xs ++ [v])) := by
    rw [spreadOf_append root v h]
    exact hs.sigma h
  rw [scoring_exact root hv (hs.target h) (hs.sigma h) (spreadOf_pos root cfg xs), hdeviation,
    accumulate_exact]
  dsimp only
  by_cases hfires : Alarm cfg (sinceAlarm cfg [] (deviations root cfg xs) ++
      [deviation root cfg xs v])
  · rw [if_pos (halarm.mp hfires)]
    rw [if_pos hfires] at hnext
    refine ⟨_,rfl,⟨fun _ => hfires,fun _ => rfl⟩,fun h => by omega,fun _ => htarget,
      fun _ => hsigma,?_,?_⟩
    · rw [hnext]
      rfl
    · rw [hnext]
      rfl
  · rw [if_neg (fun h => hfires (halarm.mpr h))]
    rw [if_neg hfires] at hnext
    refine ⟨_,rfl,⟨(fun h => by cases h),fun h => absurd h hfires⟩,fun h => by omega,
      fun _ => htarget,fun _ => hsigma,?_,?_⟩
    · rw [hnext, clamped_append, ← hs.sHigh]
    · rw [hnext, clamped_append, ← hs.sLow]

end

theorem after_drifts [IsStrictOrderedRing K] (hcfg : init (exact root) cfg = .ok ())
    (ops : List (Op K)) :
    Drifts root cfg (after (detect (exact root) cfg) (reset (exact root)) (start (exact root)) ops)
      (admitted (exact root) cfg.sourceDict cfg.metricKey [] ops) := by
  apply after_relates_exact (R := Drifts root cfg) root (drifts_reset root hcfg)
  · exact fun draw s r h => by rw [detect_skip root h]
  · intro draw s r xs v hs hv
    rcases lt_or_ge (xs.length : ℤ) cfg.warmupSamples with h | h
    · exact (warming_drifts root draw hs hv h).2
    · obtain ⟨_,_,_,hafter⟩ := scoring_drifts root draw hs hv hcfg h
      exact hafter
  · exact drifts_reset root hcfg (start (exact root))

/-- The detector fires exactly on the drifts it is defined for. -/
theorem detects_drifts [IsStrictOrderedRing K] (hcfg : init (exact root) cfg = .ok ())
    (ops : List (Op K)) :
    let s := after (detect (exact root) cfg) (reset (exact root)) (start (exact root)) ops
    let xs := admitted (exact root) cfg.sourceDict cfg.metricKey [] ops
    let since := sinceAlarm cfg [] (deviations root cfg xs)
    (cfg.warmupSamples ≤ xs.length → s.target = some (meanOf cfg xs) ∧
      s.sigma = some (spreadOf root cfg xs) ∧
      IsGreatest (insert 0 (runSums (above cfg) since)) s.sHigh ∧
      IsGreatest (insert 0 (runSums (below cfg) since)) s.sLow) ∧
    ∀ draw r,
      (readMetric (exact root) cfg.sourceDict cfg.metricKey r = none ∧
        detect (exact root) cfg draw s r = (.ok none,s)) ∨
      ∃ v outcome, readMetric (exact root) cfg.sourceDict cfg.metricKey r = some (.ok v) ∧
        (detect (exact root) cfg draw s r).1 = .ok outcome ∧
        (outcome.isSome = true ↔ cfg.warmupSamples ≤ xs.length ∧
          Alarm cfg (since ++ [deviation root cfg xs v])) ∧
        (outcome.isSome = true → (detect (exact root) cfg draw s r).2.sHigh = 0 ∧
          (detect (exact root) cfg draw s r).2.sLow = 0) ∧
        (outcome.isSome = false → cfg.warmupSamples ≤ xs.length →
          IsGreatest (insert 0 (runSums (above cfg) (since ++ [deviation root cfg xs v])))
            (detect (exact root) cfg draw s r).2.sHigh ∧
          IsGreatest (insert 0 (runSums (below cfg) (since ++ [deviation root cfg xs v])))
            (detect (exact root) cfg draw s r).2.sLow) := by
  intro s xs since
  have hs : Drifts root cfg s xs := after_drifts root hcfg ops
  refine ⟨fun h => ⟨hs.target h,hs.sigma h,?_,?_⟩,fun draw r => ?_⟩
  · rw [hs.sHigh]
    exact clamped_isGreatest _ _
  · rw [hs.sLow]
    exact clamped_isGreatest _ _
  rcases readMetric_exact root cfg.sourceDict cfg.metricKey r with hnone | ⟨v,hv⟩
  · exact Or.inl ⟨hnone,detect_skip root hnone⟩
  refine Or.inr ⟨v,?_⟩
  rcases lt_or_ge (xs.length : ℤ) cfg.warmupSamples with h | h
  · have hquiet := (warming_drifts root draw hs hv h).1
    refine ⟨none,hv,hquiet,?_,(fun hfires => by cases hfires),fun _ hwarm => by omega⟩
    exact ⟨(fun hfires => by cases hfires),fun hfires => by omega⟩
  · obtain ⟨outcome,houtcome,halarm,hafter⟩ := scoring_drifts root draw hs hv hcfg h
    have hnext := sinceAlarm_deviations root v h
    have hhigh := hafter.sHigh
    have hlow := hafter.sLow
    refine ⟨outcome,hv,houtcome,halarm.trans (and_iff_right h).symm,fun hfires => ?_,
      fun hquiet _ => ?_⟩
    · rw [if_pos (halarm.mp hfires)] at hnext
      rw [hhigh, hlow, hnext]
      exact ⟨rfl,rfl⟩
    · have hnot : ¬Alarm cfg (sinceAlarm cfg [] (deviations root cfg xs) ++
          [deviation root cfg xs v]) := by
        intro h
        rw [halarm.mpr h] at hquiet
        cases hquiet
      rw [if_neg hnot] at hnext
      rw [hhigh, hlow, hnext]
      exact ⟨clamped_isGreatest _ _,clamped_isGreatest _ _⟩

def sampleConfig : Config ℚ := ⟨"metric",2,1/2,2,"enrichment"⟩

theorem sampleConfig_ok : init (exact id) sampleConfig = .ok () := by decide +kernel

/-- A warm-up of two numbers and one above their mean. -/
def drifting : List (Op ℚ) := feed "metric" [0,2,3]

/-- The number after them takes the upper sum over the threshold. -/
theorem fires_sample : ∃ e, (detect (exact id) sampleConfig ⟨0,0⟩
    (after (detect (exact id) sampleConfig) (reset (exact id)) (start (exact id)) drifting)
    (sample "metric" 5)).1 = .ok (some e) := by
  have hsome : ((detect (exact id) sampleConfig ⟨0,0⟩
      (after (detect (exact id) sampleConfig) (reset (exact id)) (start (exact id)) drifting)
      (sample "metric" 5)).1.toOption.join).isSome = true := by decide +kernel
  generalize (detect (exact id) sampleConfig ⟨0,0⟩ _ _).1 = outcome at hsome ⊢
  match outcome, hsome with
  | .ok (some e), _ => exact ⟨e,rfl⟩

theorem detects_drifts_sample :
    let s := after (detect (exact id) sampleConfig) (reset (exact id)) (start (exact id)) drifting
    s.target = some (meanOf sampleConfig [0,2,3]) ∧
    Alarm sampleConfig (sinceAlarm sampleConfig [] (deviations id sampleConfig [0,2,3]) ++
      [deviation id sampleConfig [0,2,3] 5]) ∧
    (detect (exact id) sampleConfig ⟨0,0⟩ s (sample "metric" 5)).2.sHigh = 0 := by
  intro s
  obtain ⟨e,he⟩ := fires_sample
  obtain ⟨hstate,hcall⟩ := detects_drifts id sampleConfig_ok drifting
  refine ⟨(hstate (by decide +kernel)).1,?_⟩
  rcases hcall ⟨0,0⟩ (sample "metric" 5) with ⟨hnone,_⟩ | ⟨v,outcome,hv,hout,hiff,hzero,_⟩
  · cases hnone
  · cases Except.ok.inj (he.symm.trans hout)
    cases hv
    exact ⟨(hiff.mp rfl).2,(hzero rfl).1⟩

/-- Between calls neither sum is over the threshold. -/
structure Within (cfg : Config K) (s : State K) : Prop where
  high_nonneg : 0 ≤ s.sHigh
  high_le : s.sHigh ≤ cfg.threshold
  low_nonneg : 0 ≤ s.sLow
  low_le : s.sLow ≤ cfg.threshold

omit [FloorRing K] in
/-- A deviation that takes one sum over the threshold makes the other fall. -/
theorem one_side [IsStrictOrderedRing K] (hslack : 0 ≤ cfg.slack) {x y d : K} (hx : x ≤ cfg.threshold)
    (hy : y ≤ cfg.threshold) (hy0 : 0 ≤ y) (hover : cfg.threshold < max 0 (x+d-cfg.slack)) :
    max 0 (y-d-cfg.slack) ≤ cfg.threshold := by
  have hd : cfg.slack < d := by
    rcases lt_max_iff.mp hover with h | h
    · exact absurd (hy0.trans hy) (not_le.mpr h)
    · linarith
  apply max_le (hy0.trans hy)
  linarith

theorem after_within [IsStrictOrderedRing K] (hcfg : init (exact root) cfg = .ok ())
    (ops : List (Op K)) : Within cfg
      (after (detect (exact root) cfg) (reset (exact root)) (start (exact root)) ops) := by
  have hs := after_drifts root hcfg ops
  have hquiet := sinceAlarm_quiet (not_alarm_nil cfg) (deviations root cfg
    (admitted (exact root) cfg.sourceDict cfg.metricKey [] ops))
  rw [alarm_iff (init_signs root hcfg).1.le, not_or, not_lt, not_lt, ← hs.sHigh, ← hs.sLow]
    at hquiet
  refine ⟨?_,hquiet.1,?_,hquiet.2⟩
  · rw [hs.sHigh]
    exact clamped_nonneg _ _
  · rw [hs.sLow]
    exact clamped_nonneg _ _

theorem event_direction (draw : Draw) (r : Sample K) (s : State K) (v target sigma : K) :
    (event (exact root) cfg draw r s v target sigma).metadata.lookup "direction" =
      some (.str (if cfg.threshold < s.sHigh then "up" else "down")) := by
  show some (Datum.str (if decide (cfg.threshold < s.sHigh) = true then "up" else "down")) = _
  simp only [decide_eq_true_eq]

theorem event_score (draw : Draw) (r : Sample K) (s : State K) (v target sigma : K) :
    (event (exact root) cfg draw r s v target sigma).severityScore = max s.sHigh s.sLow :=
  max_exact root _ _

/-- An alarm is on the side that its event names. -/
theorem alarm_one_side [IsStrictOrderedRing K] (hcfg : init (exact root) cfg = .ok ())
    (ops : List (Op K)) :
    let s := after (detect (exact root) cfg) (reset (exact root)) (start (exact root)) ops
    Within cfg s ∧ ∀ draw r e, (detect (exact root) cfg draw s r).1 = .ok (some e) →
      ∃ v target sigma, readMetric (exact root) cfg.sourceDict cfg.metricKey r = some (.ok v) ∧
        s.target = some target ∧ s.sigma = some sigma ∧
        ((cfg.threshold < max 0 (s.sHigh+(v-target)/sigma-cfg.slack) ∧
            max 0 (s.sLow-(v-target)/sigma-cfg.slack) ≤ cfg.threshold ∧
            e.metadata.lookup "direction" = some (.str "up") ∧
            e.severityScore = max 0 (s.sHigh+(v-target)/sigma-cfg.slack)) ∨
          (cfg.threshold < max 0 (s.sLow-(v-target)/sigma-cfg.slack) ∧
            max 0 (s.sHigh+(v-target)/sigma-cfg.slack) ≤ cfg.threshold ∧
            e.metadata.lookup "direction" = some (.str "down") ∧
            e.severityScore = max 0 (s.sLow-(v-target)/sigma-cfg.slack))) ∧
        cfg.threshold < e.severityScore := by
  intro s
  have hwithin : Within cfg s := after_within root hcfg ops
  have hs := after_drifts root hcfg ops
  have hsigns := init_signs root hcfg
  refine ⟨hwithin,fun draw r e he => ?_⟩
  rcases readMetric_exact root cfg.sourceDict cfg.metricKey r with hnone | ⟨v,hv⟩
  · rw [detect_skip root hnone] at he
    cases he
  rcases lt_or_ge ((admitted (exact root) cfg.sourceDict cfg.metricKey [] ops).length : ℤ)
    cfg.warmupSamples with h | h
  · rw [(warming_drifts root draw hs hv h).1] at he
    cases he
  refine ⟨v,_,_,hv,hs.target h,hs.sigma h,?_⟩
  have hpos := spreadOf_pos root cfg (admitted (exact root) cfg.sourceDict cfg.metricKey [] ops)
  rw [scoring_exact root hv (hs.target h) (hs.sigma h) hpos] at he
  dsimp only at he
  split at he
  · next hover =>
    cases he
    rw [event_direction, event_score]
    rw [accumulate_high, accumulate_low] at hover ⊢
    by_cases hup : cfg.threshold < max 0 (s.sHigh+
        (v-meanOf cfg (admitted (exact root) cfg.sourceDict cfg.metricKey [] ops))/
          spreadOf root cfg (admitted (exact root) cfg.sourceDict cfg.metricKey [] ops)-cfg.slack)
    · have hlow := one_side hsigns.2 hwithin.high_le hwithin.low_le hwithin.low_nonneg hup
      rw [if_pos hup, max_eq_left (hlow.trans hup.le)]
      exact ⟨Or.inl ⟨hup,hlow,rfl,rfl⟩,hup⟩
    · have hdown := hover.resolve_left hup
      rw [if_neg hup, max_eq_right ((not_lt.mp hup).trans hdown.le)]
      exact ⟨Or.inr ⟨hdown,not_lt.mp hup,rfl,rfl⟩,hdown⟩
  · cases he

end

theorem alarm_one_side_sample :
    let s := after (detect (exact id) sampleConfig) (reset (exact id)) (start (exact id)) drifting
    Within sampleConfig s ∧
    ∃ e, (detect (exact id) sampleConfig ⟨0,0⟩ s (sample "metric" 5)).1 = .ok (some e) ∧
      e.metadata.lookup "direction" = some (.str "up") ∧ 2 < e.severityScore := by
  intro s
  obtain ⟨e,he⟩ := fires_sample
  obtain ⟨hwithin,hevent⟩ := alarm_one_side id sampleConfig_ok drifting
  obtain ⟨v,target,sigma,hv,htarget,hsigma,hside,hover⟩ := hevent _ _ e he
  refine ⟨hwithin,e,he,?_,hover⟩
  rcases hside with ⟨_,_,hup,_⟩ | ⟨hlow,_⟩
  · exact hup
  · have hstate : s.target = some 1 ∧ s.sigma = some 1 ∧
        ¬ 2 < max 0 (s.sLow-(5-1)/1-1/2) := by decide +kernel
    cases hv
    cases htarget.symm.trans hstate.1
    cases hsigma.symm.trans hstate.2.1
    exact absurd hlow hstate.2.2

end PipelineX.Detectors.Cusum
