import PipelineX.IqrWindow

/-!
# When a detector raises

Squaring is the only operation of a detector that raises on floats, and the
squares are of the distances of the samples from their mean. So the window or
the warm-up decides it, and the interquartile detector never raises.
-/

set_option autoImplicit false

namespace PipelineX.Detectors
open PipelineX.Records PipelineX.Rounding

def outOfRange : PyError := .other "OverflowError" "(34, 'Numerical result out of range')"

/-- The metric of the record is the finite number. -/
def HasMetric (sourceDict metricKey : String) (r : Sample Float64) (v : Float64) : Prop :=
  (if sourceDict = "enrichment" then r.enrichment else r.rawPayload).get? metricKey =
    some (.float v) ∧ v.isFinite = true

/-- The call returns, and leaves a state that the metric has entered. -/
def Survives {S : Type} (sourceDict metricKey : String) (Entered : Float64 → S → S → Prop)
    (c : Call S Float64) : Prop :=
  (∃ e, c.outcome = .ok e) ∧
    ∃ v, HasMetric sourceDict metricKey c.sample v ∧ Entered v c.before c.after

/-- Some sample is `2^512` or more away from the mean of them all, by a finite
difference: the square of an infinite one is infinite. -/
def Extreme (compensated : Bool) (samples : List Float64) : Prop :=
  ∃ mean, Double.div ((float64 compensated).sum samples)
      (Double.ofRat binary64 samples.length) = some mean ∧
    ∃ x ∈ samples, Float64.Far (Double.sub x mean)

theorem extreme_iff (compensated : Bool) (samples : List Float64) :
    ((Double.div ((float64 compensated).sum samples) (Double.ofRat binary64 samples.length)).any
      (fun mean => samples.any (fun x => Float64.Far (Double.sub x mean)))) = true ↔
    Extreme compensated samples := by
  simp only [Option.any_eq_true, List.any_eq_true, decide_eq_true_eq, Extreme]

instance (compensated : Bool) (samples : List Float64) :
    Decidable (Extreme compensated samples) :=
  decidable_of_iff _ (extreme_iff compensated samples)

theorem HasMetric.read {sourceDict metricKey : String} {r : Sample Float64} {v : Float64}
    (h : HasMetric sourceDict metricKey r v) (compensated : Bool) :
    readMetric (float64 compensated) sourceDict metricKey r = some (.ok v) := by
  unfold readMetric
  dsimp only
  rw [h.1]

theorem HasMetric.unique {sourceDict metricKey : String} {r : Sample Float64} {v w : Float64}
    (hv : HasMetric sourceDict metricKey r v) (hw : HasMetric sourceDict metricKey r w) : v = w := by
  have h := hv.1.symm.trans hw.1
  injection h with h
  injection h

/-- Every call of a run finds the invariant and a sample of the run. -/
theorem calls_forall {S F : Type}
    {detect : Draw → S → Sample F → Except PyError (Option (AnomalyEvent F)) × S}
    (Inv : S → Prop) (Ok : Sample F → Prop)
    (hstep : ∀ draw s r, Inv s → Ok r → Inv (detect draw s r).2) {s : S}
    {rs : List (Draw × Sample F)} (hs : Inv s) (hrs : ∀ r ∈ rs, Ok r.2) :
    ∀ c ∈ calls detect s rs, Inv c.before ∧ Ok c.sample ∧
      ∃ draw, detect draw c.before c.sample = (c.outcome,c.after) := by
  induction rs generalizing s with
  | nil =>
    intro c hc
    cases hc
  | cons first rest ih =>
    obtain ⟨draw,r⟩ := first
    have hr : Ok r := hrs _ List.mem_cons_self
    intro c hc
    rcases List.mem_cons.mp hc with rfl | hc
    · exact ⟨hs,hr,draw,rfl⟩
    · exact ih (hstep draw s r hs hr) (fun x hx => hrs x (List.mem_cons_of_mem _ hx)) c hc

/-- What a call with a metric does: it raises in the states and on the samples
that overflow, and on no others. -/
def Decides {S : Type}
    (detect : Draw → S → Sample Float64 → Except PyError (Option (AnomalyEvent Float64)) × S)
    (sourceDict metricKey : String) (Entered : Float64 → S → S → Prop) (Inv : S → Prop)
    (Overflows : S → Sample Float64 → Prop) : Prop :=
  ∀ draw s r v, Inv s → HasMetric sourceDict metricKey r v → Inv (detect draw s r).2 ∧
    (Overflows s r ∧ (∃ e, (detect draw s r).1 = .error e) ∨
      ¬ Overflows s r ∧ (∃ e, (detect draw s r).1 = .ok e) ∧ Entered v s (detect draw s r).2)

theorem Decides.run {S : Type}
    {detect : Draw → S → Sample Float64 → Except PyError (Option (AnomalyEvent Float64)) × S}
    {sourceDict metricKey : String} {Entered : Float64 → S → S → Prop} {Inv : S → Prop}
    {Overflows : S → Sample Float64 → Prop}
    (h : Decides detect sourceDict metricKey Entered Inv Overflows) {s : S}
    {rs : List (Draw × Sample Float64)} (hs : Inv s)
    (hrs : ∀ r ∈ rs, ∃ v, HasMetric sourceDict metricKey r.2 v) :
    (∀ c ∈ calls detect s rs, Survives sourceDict metricKey Entered c) ↔
      ∀ c ∈ calls detect s rs, ¬ Overflows c.before c.sample := by
  have hrun := calls_forall Inv (fun r => ∃ v, HasMetric sourceDict metricKey r v)
    (fun draw s r hs ⟨v,hv⟩ => (h draw s r v hs hv).1) hs hrs
  refine forall₂_congr fun c hc => ?_
  obtain ⟨hinv,⟨v,hv⟩,draw,hdetect⟩ := hrun c hc
  have hcall := (h draw c.before c.sample v hinv hv).2
  rw [hdetect] at hcall
  rcases hcall with ⟨hover,e,he⟩ | ⟨hnot,hreturns,hentered⟩
  · refine ⟨fun hsurvives => ?_,fun hnot => absurd hover hnot⟩
    obtain ⟨⟨e',he'⟩,_⟩ := hsurvives
    cases he.symm.trans he'
  · exact ⟨fun _ => hnot,fun _ => ⟨hreturns,v,hv,hentered⟩⟩

/-- The squares are computed unless a sample is far from the mean. -/
theorem squares_cases (compensated : Bool) (xs : List Float64) (mean : Float64) :
    (∃ x ∈ xs, Float64.Far (Double.sub x mean)) ∧
        squares (float64 compensated) xs mean = .error outOfRange ∨
      (¬ ∃ x ∈ xs, Float64.Far (Double.sub x mean)) ∧
        ∃ zs, squares (float64 compensated) xs mean = .ok zs ∧
          ∀ z ∈ zs, Double.NotNegative z := by
  induction xs with
  | nil => exact Or.inr ⟨by simp,[],rfl,by simp⟩
  | cons x xs ih =>
    have hcons : squares (float64 compensated) (x::xs) mean = (do
        let z ← Float64.square (Double.sub x mean)
        let zs ← squares (float64 compensated) xs mean
        pure (z::zs)) := squares_cons (float64 compensated) x xs mean
    rcases Float64.square_cases (Double.sub x mean) with ⟨hfar,hsquare⟩ | ⟨hnear,z,hsquare,hz⟩
    · refine Or.inl ⟨⟨x,List.mem_cons_self,hfar⟩,?_⟩
      rw [hcons, hsquare]
      rfl
    · rcases ih with ⟨⟨y,hy,hfar⟩,hsquares⟩ | ⟨hnone,zs,hsquares,hzs⟩
      · refine Or.inl ⟨⟨y,List.mem_cons_of_mem _ hy,hfar⟩,?_⟩
        rw [hcons, hsquare, hsquares]
        rfl
      · refine Or.inr ⟨?_,z::zs,?_,?_⟩
        · rintro ⟨y,hy,hfar⟩
          rcases List.mem_cons.mp hy with rfl | hy
          · exact hnear hfar
          · exact hnone ⟨y,hy,hfar⟩
        · rw [hcons, hsquare, hsquares]
          rfl
        · intro w hw
          rcases List.mem_cons.mp hw with rfl | hw
          · exact hz
          · exact hzs w hw

/-- The mean of samples that can be counted. -/
theorem mean_ok (compensated : Bool) {samples : List Float64} (hpos : 0 < samples.length)
    (hmax : samples.length ≤ 2^63) : ∃ y h mean, 0 < y ∧
      (float64 compensated).ofInt samples.length = .ok (.finite y h) ∧
      (float64 compensated).div ((float64 compensated).sum samples) (.finite y h) = .ok mean ∧
      (Extreme compensated samples ↔ ∃ x ∈ samples, Float64.Far (Double.sub x mean)) := by
  obtain ⟨y,h,hofInt,hy,hone⟩ :=
    Float64.ofInt_pos (by omega : (0 : ℤ) < samples.length) (by omega)
  have hy0 : 0 < y := by linarith
  have hn : Double.ofRat binary64 samples.length = .finite y h := by
    rw [Int.cast_natCast] at hy
    subst hy
    exact Double.ofRat_finite h.2
  have hne : Double.eq (.finite y h) Double.zero = false := decide_eq_false hy0.ne'
  obtain ⟨mean,hdiv⟩ := Float64.div_ok ((float64 compensated).sum samples) hne
  have hmean : Double.div ((float64 compensated).sum samples) (.finite y h) = some mean :=
    Float64.div_some hdiv
  refine ⟨y,h,mean,hy0,hofInt,hdiv,?_⟩
  unfold Extreme
  rw [hn, hmean]
  constructor
  · rintro ⟨other,hother,hfar⟩
    rwa [Option.some.inj hother]
  · intro hfar
    exact ⟨mean,rfl,hfar⟩

/-- The variance of samples, once their mean is there. -/
theorem variance_cases (compensated : Bool) {samples : List Float64} {mean : Float64} {y : ℚ}
    (h : Representable binary64 y ∧ |y| < 2^binary64.bound) (hy : 0 < y) :
    (∃ x ∈ samples, Float64.Far (Double.sub x mean)) ∧
        squares (float64 compensated) samples mean = .error outOfRange ∨
      (¬ ∃ x ∈ samples, Float64.Far (Double.sub x mean)) ∧ ∃ zs variance,
        squares (float64 compensated) samples mean = .ok zs ∧
        (float64 compensated).div ((float64 compensated).sum zs) (.finite y h) = .ok variance ∧
        Double.NotNegative variance := by
  rcases squares_cases compensated samples mean with hfar | ⟨hnear,zs,hsquares,hzs⟩
  · exact Or.inl hfar
  · obtain ⟨variance,hdiv,hvariance⟩ :=
      Float64.div_pos h hy (Float64.sum_notNegative compensated hzs)
    exact Or.inr ⟨hnear,zs,variance,hsquares,hdiv,hvariance⟩

namespace ZScore

/-- The window is scored and a sample is far from its mean. -/
def Overflows (compensated : Bool) (cfg : Config Float64) (window : List Float64) : Prop :=
  cfg.minSamples ≤ window.length ∧ Extreme compensated window

instance (compensated : Bool) (cfg : Config Float64) (window : List Float64) :
    Decidable (Overflows compensated cfg window) := inferInstanceAs (Decidable (_ ∧ _))

def Entered (cfg : Config Float64) (v : Float64) (window after : List Float64) : Prop :=
  after = push cfg.windowSize window v

theorem zScore_cases {compensated : Bool} {cfg : Config Float64} {window : List Float64}
    (haccepted : init (float64 compensated) cfg = .ok ())
    (hlength : window.length ≤ cfg.windowSize) (v : Float64) :
    Overflows compensated cfg window ∧
        zScore (float64 compensated) cfg window v = .error outOfRange ∨
      ¬ Overflows compensated cfg window ∧
        ∃ z, zScore (float64 compensated) cfg window v = .ok z := by
  obtain ⟨_,hmin,hmax⟩ := init_ok haccepted
  unfold maxsize at hmax
  unfold zScore
  by_cases hfew : window.length < cfg.minSamples
  · exact Or.inr ⟨fun h => absurd h.1 (not_le.mpr hfew),none,if_pos hfew⟩
  · rw [if_neg hfew]
    obtain ⟨y,h,m,hy,hofInt,hmean,hextreme⟩ :=
      mean_ok compensated (by omega : 0 < window.length) (by omega)
    have hmean' : mean (float64 compensated) window = .ok m := by
      unfold mean
      rw [hofInt]
      exact hmean
    rw [hofInt, hmean']
    rcases variance_cases compensated h hy with ⟨hfar,hsquares⟩ | ⟨hnear,zs,variance,hsquares,hdiv,h0⟩
    · refine Or.inl ⟨⟨not_lt.mp hfew,hextreme.mpr hfar⟩,?_⟩
      show (squares (float64 compensated) window m >>= fun _ => _) = _
      rw [hsquares]
      rfl
    · refine Or.inr ⟨fun h => hnear (hextreme.mp h.2),?_⟩
      obtain ⟨sigma,hsigma⟩ := Float64.sqrt_ok h0
      have hsqrt : (float64 compensated).sqrt variance = .ok sigma := hsigma
      simp only [bind, Except.bind, hsquares, hdiv, hsqrt]
      by_cases hzero : (float64 compensated).eq sigma ((float64 compensated).literal 0) = true
      · exact ⟨none,if_pos hzero⟩
      · have hne : Double.eq sigma Double.zero = false := by
          rw [← Double.ofRat_zero]
          exact Bool.eq_false_of_not_eq_true hzero
        obtain ⟨z,hz⟩ := Float64.div_ok ((float64 compensated).sub v m) hne
        have hdivide : (float64 compensated).div ((float64 compensated).sub v m) sigma = .ok z := hz
        refine ⟨some z,?_⟩
        rw [if_neg hzero, hdivide]

theorem detect_decides {compensated : Bool} {cfg : Config Float64}
    (haccepted : init (float64 compensated) cfg = .ok ()) :
    Decides (detect (float64 compensated) cfg) cfg.sourceDict cfg.metricKey (Entered cfg)
      (fun window => window.length ≤ cfg.windowSize)
      (fun window _ => Overflows compensated cfg window) := by
  intro draw window r v hlength hmetric
  obtain ⟨hsize,_,_⟩ := init_ok haccepted
  have hpush := push_length v (by omega) hlength
  unfold detect
  rw [hmetric.read]
  dsimp only
  rcases zScore_cases haccepted hlength v with ⟨hover,hz⟩ | ⟨hnot,z,hz⟩
  · rw [hz]
    exact ⟨hlength,Or.inl ⟨hover,_,rfl⟩⟩
  · rw [hz]
    cases z with
    | none => exact ⟨hpush,Or.inr ⟨hnot,⟨_,rfl⟩,rfl⟩⟩
    | some z =>
      dsimp only
      split
      · exact ⟨hpush,Or.inr ⟨hnot,⟨_,rfl⟩,rfl⟩⟩
      · exact ⟨hpush,Or.inr ⟨hnot,⟨_,rfl⟩,rfl⟩⟩

theorem detect_raises {compensated : Bool} {cfg : Config Float64} {window : List Float64}
    (haccepted : init (float64 compensated) cfg = .ok ())
    (hlength : window.length ≤ cfg.windowSize) (hover : Overflows compensated cfg window)
    (draw : Draw) {r : Sample Float64} {v : Float64}
    (hmetric : HasMetric cfg.sourceDict cfg.metricKey r v) :
    detect (float64 compensated) cfg draw window r = (.error outOfRange,window) := by
  rcases zScore_cases haccepted hlength v with ⟨_,hz⟩ | ⟨hnot,_⟩
  · unfold detect
    rw [hmetric.read]
    dsimp only
    rw [hz]
  · exact absurd hover hnot

/-- A window that overflows stays, and every later call raises. -/
theorem poisoned {compensated : Bool} {cfg : Config Float64} {window : List Float64}
    (haccepted : init (float64 compensated) cfg = .ok ())
    (hlength : window.length ≤ cfg.windowSize) (hover : Overflows compensated cfg window)
    {rs : List (Draw × Sample Float64)}
    (hrs : ∀ r ∈ rs, ∃ v, HasMetric cfg.sourceDict cfg.metricKey r.2 v) :
    ∀ c ∈ calls (detect (float64 compensated) cfg) window rs,
      c.outcome = .error outOfRange ∧ c.after = window := by
  induction rs with
  | nil =>
    intro c hc
    cases hc
  | cons call rest ih =>
    obtain ⟨v,hv⟩ := hrs call List.mem_cons_self
    rw [calls_cons, detect_raises haccepted hlength hover call.1 hv]
    intro c hc
    rcases List.mem_cons.mp hc with rfl | hc
    · exact ⟨rfl,rfl⟩
    · exact ih (fun x hx => hrs x (List.mem_cons_of_mem _ hx)) c hc

end ZScore

namespace Cusum

/-- The sample completes a warm-up in which a sample is far from the mean. -/
def Overflows (compensated : Bool) (cfg : Config Float64) (s : State Float64)
    (r : Sample Float64) : Prop :=
  (s.target = none ∨ s.sigma = none) ∧ ∃ v, HasMetric cfg.sourceDict cfg.metricKey r v ∧
    cfg.warmupSamples ≤ (push cfg.warmupSamples s.warmup v).length ∧
    Extreme compensated (push cfg.warmupSamples s.warmup v)

theorem overflows_iff {compensated : Bool} {cfg : Config Float64} {s : State Float64}
    {r : Sample Float64} {v : Float64} (hv : HasMetric cfg.sourceDict cfg.metricKey r v) :
    Overflows compensated cfg s r ↔ (s.target = none ∨ s.sigma = none) ∧
      cfg.warmupSamples ≤ (push cfg.warmupSamples s.warmup v).length ∧
      Extreme compensated (push cfg.warmupSamples s.warmup v) := by
  refine and_congr_right fun _ => ⟨?_,fun h => ⟨v,hv,h⟩⟩
  rintro ⟨w,hw,h⟩
  rwa [hv.unique hw]

/-- A value enters the warm-up, and the two sums once that is over. An alarm
sets them back. -/
def Entered (compensated : Bool) (cfg : Config Float64) (v : Float64) (s after : State Float64) :
    Prop :=
  match s.target, s.sigma with
  | some target, some sigma => ∃ deviation,
      (float64 compensated).div ((float64 compensated).sub v target) sigma = .ok deviation ∧
      let sums := accumulate (float64 compensated) cfg s deviation
      after = if Double.lt cfg.threshold sums.sHigh || Double.lt cfg.threshold sums.sLow
        then { s with sHigh := Double.ofRat binary64 0, sLow := Double.ofRat binary64 0 } else sums
  | _, _ => after.warmup = push cfg.warmupSamples s.warmup v

/-- What holds between calls. -/
structure Calibrated (n : ℤ) (s : State Float64) : Prop where
  length : s.warmup.length ≤ n
  sigma : ∀ sigma, s.sigma = some sigma → Double.eq sigma Double.zero = false

theorem calibrated_start (compensated : Bool) {n : ℤ} (h : 0 ≤ n) :
    Calibrated n (start (float64 compensated)) where
  length := h
  sigma sigma hsigma := by cases hsigma

/-- `1e-12` is above zero as a float too. -/
theorem tiny_pos : ∃ x h, Double.ofRat binary64 (1/10^12) = .finite x h ∧ 0 < x := by
  have hlow : (2 : ℚ)^(-40 : ℤ) ≤ round binary64 (1/10^12) :=
    le_round_of_le (representable_pow (by decide)) (by norm_num)
  have hhigh : round binary64 (1/10^12) ≤ 2^(0 : ℤ) :=
    round_le_of_le (representable_pow (by decide)) (by norm_num)
  have hpos : (0 : ℚ) < 2^(-40 : ℤ) := zpow_pos (by norm_num) _
  have hsize : |round binary64 (1/10^12)| < 2^binary64.bound := by
    rw [abs_of_pos (hpos.trans_le hlow)]
    exact hhigh.trans_lt (zpow_lt_zpow_right₀ (by norm_num) (by decide))
  exact ⟨_,⟨round_representable _,hsize⟩,Double.ofRat_finite hsize,hpos.trans_le hlow⟩

theorem max_tiny (compensated : Bool) (root : Float64) :
    Double.eq ((float64 compensated).max root (Double.ofRat binary64 (1/10^12))) Double.zero =
      false := by
  obtain ⟨x,h,htiny,hpos⟩ := tiny_pos
  rw [htiny]
  show Double.eq (if Double.lt root (.finite x h) then .finite x h else root) Double.zero = false
  split
  · exact decide_eq_false hpos.ne'
  · next hlt =>
    cases root with
    | finite y hy =>
      have hle : ¬ y < x := fun h => hlt (decide_eq_true h)
      have hne : y ≠ 0 := by linarith
      exact decide_eq_false hne
    | inf negative => rfl
    | nan => rfl

theorem calibrate_cases (compensated : Bool) {s : State Float64} (hpos : 0 < s.warmup.length)
    (hmax : s.warmup.length ≤ 2^63) :
    Extreme compensated s.warmup ∧ (∃ mean, calibrate (float64 compensated) s =
        (.error outOfRange,{ s with target := some mean })) ∨
      ¬ Extreme compensated s.warmup ∧ ∃ mean sigma, calibrate (float64 compensated) s =
        (.ok none,{ s with target := some mean, sigma := some sigma }) ∧
        Double.eq sigma Double.zero = false := by
  obtain ⟨y,h,mean,hy,hofInt,hmean,hextreme⟩ := mean_ok compensated hpos hmax
  unfold calibrate
  rw [hofInt]
  dsimp only
  rw [hmean]
  dsimp only
  rcases variance_cases compensated h hy with ⟨hfar,hsquares⟩ | ⟨hnear,zs,variance,hsquares,hdiv,h0⟩
  · refine Or.inl ⟨hextreme.mpr hfar,mean,?_⟩
    have hsigma : sigmaOf (float64 compensated) s.warmup (.finite y h) mean =
        .error outOfRange := by
      unfold sigmaOf
      rw [hsquares]
      rfl
    rw [hsigma]
  · refine Or.inr ⟨fun h => hnear (hextreme.mp h),mean,?_⟩
    obtain ⟨root,hroot⟩ := Float64.root_ok h0
    have hroot' : (float64 compensated).root variance = .ok root := hroot
    have hsigma : sigmaOf (float64 compensated) s.warmup (.finite y h) mean =
        .ok ((float64 compensated).max root (Double.ofRat binary64 (1/10^12))) := by
      unfold sigmaOf
      simp only [bind, Except.bind, hsquares, hdiv, hroot']
      rfl
    rw [hsigma]
    exact ⟨_,rfl,max_tiny compensated root⟩

section
variable {compensated : Bool} {cfg : Config Float64} {s : State Float64} {r : Sample Float64}
  {v : Float64}

theorem detect_warming (hmetric : HasMetric cfg.sourceDict cfg.metricKey r v)
    (h : s.target = none ∨ s.sigma = none) (draw : Draw) :
    detect (float64 compensated) cfg draw s r =
      if (push cfg.warmupSamples s.warmup v).length < cfg.warmupSamples then
        (.ok none,{ s with warmup := push cfg.warmupSamples s.warmup v })
      else calibrate (float64 compensated) { s with warmup := push cfg.warmupSamples s.warmup v } := by
  unfold detect
  rw [hmetric.read]
  dsimp only
  rcases h with h | h
  · rw [h]
  · rw [h]
    cases s.target <;> rfl

theorem entered_warming {after : State Float64} (h : s.target = none ∨ s.sigma = none)
    (hwarmup : after.warmup = push cfg.warmupSamples s.warmup v) :
    Entered compensated cfg v s after := by
  unfold Entered
  rcases h with h | h
  · rw [h]
    exact hwarmup
  · rw [h]
    cases s.target <;> exact hwarmup

/-- A call of the warm-up. -/
theorem warming_decides (haccepted : init (float64 compensated) cfg = .ok ())
    (hinv : Calibrated cfg.warmupSamples s) (hmetric : HasMetric cfg.sourceDict cfg.metricKey r v)
    (h : s.target = none ∨ s.sigma = none) (draw : Draw) :
    Calibrated cfg.warmupSamples (detect (float64 compensated) cfg draw s r).2 ∧
      (Overflows compensated cfg s r ∧
          (∃ e, (detect (float64 compensated) cfg draw s r).1 = .error e) ∨
        ¬ Overflows compensated cfg s r ∧
          (∃ e, (detect (float64 compensated) cfg draw s r).1 = .ok e) ∧
          Entered compensated cfg v s (detect (float64 compensated) cfg draw s r).2) := by
  obtain ⟨hsize,hmax⟩ := init_ok haccepted
  unfold maxsize at hmax
  have hpush := push_length v (by omega) hinv.length
  have hoverflows : Overflows compensated cfg s r ↔
      cfg.warmupSamples ≤ (push cfg.warmupSamples s.warmup v).length ∧
        Extreme compensated (push cfg.warmupSamples s.warmup v) := by
    constructor
    · rintro ⟨_,w,hw,hover⟩
      rwa [hmetric.unique hw]
    · exact fun hover => ⟨h,v,hmetric,hover⟩
  rw [detect_warming hmetric h]
  by_cases hfew : (push cfg.warmupSamples s.warmup v).length < cfg.warmupSamples
  · rw [if_pos hfew]
    exact ⟨⟨hpush,hinv.sigma⟩,Or.inr ⟨fun hover => absurd (hoverflows.mp hover).1 (not_le.mpr hfew),
      ⟨none,rfl⟩,entered_warming h rfl⟩⟩
  · rw [if_neg hfew]
    rcases calibrate_cases compensated
      (s := { s with warmup := push cfg.warmupSamples s.warmup v }) (by dsimp only; omega)
      (by dsimp only; omega) with ⟨hextreme,mean,hcalibrate⟩ | ⟨hnear,mean,sigma,hcalibrate,hsigma⟩
    · rw [hcalibrate]
      exact ⟨⟨hpush,hinv.sigma⟩,
        Or.inl ⟨hoverflows.mpr ⟨not_lt.mp hfew,hextreme⟩,outOfRange,rfl⟩⟩
    · rw [hcalibrate]
      refine ⟨⟨hpush,fun other hother => ?_⟩,Or.inr ⟨fun hover => hnear (hoverflows.mp hover).2,
        ⟨none,rfl⟩,entered_warming h rfl⟩⟩
      rwa [← Option.some.inj hother]

/-- A call after the warm-up. -/
theorem scoring_decides (hinv : Calibrated cfg.warmupSamples s)
    (hmetric : HasMetric cfg.sourceDict cfg.metricKey r v) {target sigma : Float64}
    (htarget : s.target = some target) (hsigma : s.sigma = some sigma) (draw : Draw) :
    Calibrated cfg.warmupSamples (detect (float64 compensated) cfg draw s r).2 ∧
      ¬ Overflows compensated cfg s r ∧
        (∃ e, (detect (float64 compensated) cfg draw s r).1 = .ok e) ∧
        Entered compensated cfg v s (detect (float64 compensated) cfg draw s r).2 := by
  obtain ⟨deviation,hdiv⟩ := Float64.div_ok ((float64 compensated).sub v target)
    (hinv.sigma sigma hsigma)
  have hdivide : (float64 compensated).div ((float64 compensated).sub v target) sigma =
      .ok deviation := hdiv
  have hnot : ¬ Overflows compensated cfg s r := by
    rintro ⟨h | h,_⟩
    · rw [htarget] at h
      cases h
    · rw [hsigma] at h
      cases h
  obtain ⟨warmup,_,_,sHigh,sLow⟩ := s
  cases htarget
  cases hsigma
  unfold detect
  rw [hmetric.read]
  dsimp only
  rw [hdivide]
  dsimp only
  split
  · next halarm => exact ⟨⟨hinv.length,hinv.sigma⟩,hnot,⟨_,rfl⟩,deviation,hdiv,(if_pos halarm).symm⟩
  · next hcalm => exact ⟨⟨hinv.length,hinv.sigma⟩,hnot,⟨_,rfl⟩,deviation,hdiv,(if_neg hcalm).symm⟩

end

theorem detect_decides {compensated : Bool} {cfg : Config Float64}
    (haccepted : init (float64 compensated) cfg = .ok ()) :
    Decides (detect (float64 compensated) cfg) cfg.sourceDict cfg.metricKey
      (Entered compensated cfg) (Calibrated cfg.warmupSamples) (Overflows compensated cfg) := by
  intro draw s r v hinv hmetric
  cases htarget : s.target with
  | none => exact warming_decides haccepted hinv hmetric (Or.inl htarget) draw
  | some target =>
    cases hsigma : s.sigma with
    | none => exact warming_decides haccepted hinv hmetric (Or.inr hsigma) draw
    | some sigma =>
      obtain ⟨hkept,hdone⟩ := scoring_decides hinv hmetric htarget hsigma draw
      exact ⟨hkept,Or.inr hdone⟩

end Cusum

namespace Iqr

def Entered (cfg : Config Float64) (v : Float64) (s after : State Float64) : Prop :=
  after.window = push cfg.windowSize s.window v ∧ v ∈ after.sorted

theorem detect_decides {compensated : Bool} {cfg : Config Float64}
    (haccepted : init (float64 compensated) cfg = .ok ()) :
    Decides (detect (float64 compensated) cfg) cfg.sourceDict cfg.metricKey (Entered cfg)
      (Views cfg.windowSize) (fun _ _ => False) := by
  intro draw s r v hviews hmetric
  obtain ⟨hsize,_,_⟩ := init_ok haccepted
  obtain ⟨hadd,hmem⟩ := add_views compensated (by omega) hviews hmetric.2
  have hlength : s.sorted.length ≤ cfg.windowSize := hviews.perm.length_eq ▸ hviews.length
  obtain ⟨bounds,hbounds⟩ := bounds_ok haccepted hlength
  unfold detect
  rw [hmetric.read]
  dsimp only
  rw [hbounds]
  cases bounds with
  | none => exact ⟨hadd,Or.inr ⟨id,⟨_,rfl⟩,rfl,hmem⟩⟩
  | some fences =>
    dsimp only
    split
    · exact ⟨hadd,Or.inr ⟨id,⟨_,rfl⟩,rfl,hmem⟩⟩
    · exact ⟨hadd,Or.inr ⟨id,⟨_,rfl⟩,rfl,hmem⟩⟩

end Iqr

def one : Float64 := .finite 1 ⟨⟨1,0,by norm_num,by decide,by decide⟩,by
  rw [abs_one]
  exact one_lt_zpow₀ (by norm_num) (by decide)⟩

/-- `2.0 ** 600`. -/
def huge : Float64 := .finite (2^(600 : ℤ)) ⟨representable_pow (by decide),by
  rw [abs_of_pos (zpow_pos (by norm_num) _)]
  exact zpow_lt_zpow_right₀ (by norm_num) (by decide)⟩

def withMetric (v : Float64) : Draw × Sample Float64 :=
  (⟨0,0⟩,⟨0,⟨[("metric",.float v)],List.nodup_singleton _⟩,OrderedDict.empty⟩)

theorem hasMetric_withMetric {v : Float64} (h : v.isFinite = true) :
    HasMetric "enrichment" "metric" (withMetric v).2 v := ⟨rfl,h⟩

def zConfig : ZScore.Config Float64 := ⟨"metric",one,2,2,"enrichment"⟩
def cusumConfig : Cusum.Config Float64 := ⟨"metric",one,Double.zero,2,"enrichment"⟩
def iqrConfig : Iqr.Config Float64 := ⟨"metric",one,4,4,"enrichment"⟩

theorem one_le_zero (compensated : Bool) :
    (float64 compensated).le one ((float64 compensated).literal 0) = false := by
  show Double.le one (Double.ofRat binary64 0) = false
  rw [Double.ofRat_zero]
  simp [Double.le, Double.lt, Double.eq, one, Double.zero]

theorem zConfig_ok (compensated : Bool) :
    ZScore.init (float64 compensated) zConfig = .ok () := by
  simp [ZScore.init, zConfig, one_le_zero, checkSourceDict, checkMaxlen, maxsize]
  rfl

theorem cusumConfig_ok (compensated : Bool) :
    Cusum.init (float64 compensated) cusumConfig = .ok () := by
  have hslack : (float64 compensated).lt Double.zero ((float64 compensated).literal 0) = false := by
    show Double.lt Double.zero (Double.ofRat binary64 0) = false
    rw [Double.ofRat_zero]
    simp [Double.lt, Double.zero]
  simp [Cusum.init, cusumConfig, one_le_zero, hslack, checkSourceDict, checkMaxlen, maxsize]
  rfl

theorem iqrConfig_ok (compensated : Bool) :
    Iqr.init (float64 compensated) iqrConfig = .ok () := by
  simp [Iqr.init, iqrConfig, one_le_zero, checkSourceDict, checkMaxlen, maxsize]
  rfl

/-- The windowed z-score and the cumulative sums survive a run of finite metrics
when no call finds a window or completes a warm-up with a sample that is far
from the mean. The interquartile range survives every run. -/
theorem survives_run (compensated : Bool) (rs : List (Draw × Sample Float64)) :
    (∀ cfg : ZScore.Config Float64, ZScore.init (float64 compensated) cfg = .ok () →
      (∀ r ∈ rs, ∃ v, HasMetric cfg.sourceDict cfg.metricKey r.2 v) →
      ((∀ c ∈ calls (ZScore.detect (float64 compensated) cfg) [] rs,
          Survives cfg.sourceDict cfg.metricKey (ZScore.Entered cfg) c) ↔
        ∀ c ∈ calls (ZScore.detect (float64 compensated) cfg) [] rs,
          ¬ ZScore.Overflows compensated cfg c.before)) ∧
    (∀ cfg : Cusum.Config Float64, Cusum.init (float64 compensated) cfg = .ok () →
      (∀ r ∈ rs, ∃ v, HasMetric cfg.sourceDict cfg.metricKey r.2 v) →
      ((∀ c ∈ calls (Cusum.detect (float64 compensated) cfg) (Cusum.start (float64 compensated)) rs,
          Survives cfg.sourceDict cfg.metricKey (Cusum.Entered compensated cfg) c) ↔
        ∀ c ∈ calls (Cusum.detect (float64 compensated) cfg) (Cusum.start (float64 compensated)) rs,
          ¬ Cusum.Overflows compensated cfg c.before c.sample)) ∧
    (∀ cfg : Iqr.Config Float64, Iqr.init (float64 compensated) cfg = .ok () →
      (∀ r ∈ rs, ∃ v, HasMetric cfg.sourceDict cfg.metricKey r.2 v) →
      ∀ c ∈ calls (Iqr.detect (float64 compensated) cfg) ⟨[],[]⟩ rs,
        Survives cfg.sourceDict cfg.metricKey (Iqr.Entered cfg) c) := by
  refine ⟨fun cfg haccepted hrs => ?_,fun cfg haccepted hrs => ?_,fun cfg haccepted hrs => ?_⟩
  · obtain ⟨hsize,_,_⟩ := ZScore.init_ok haccepted
    have hstart : (([] : List Float64).length : ℤ) ≤ cfg.windowSize := by
      rw [List.length_nil]
      omega
    exact (ZScore.detect_decides haccepted).run hstart hrs
  · obtain ⟨hsize,_⟩ := Cusum.init_ok haccepted
    have hstart := Cusum.calibrated_start compensated (n := cfg.warmupSamples) (by omega)
    exact (Cusum.detect_decides haccepted).run hstart hrs
  · obtain ⟨hsize,_,_⟩ := Iqr.init_ok haccepted
    have hstart := Iqr.views_start (n := cfg.windowSize) (by omega)
    exact ((Iqr.detect_decides haccepted).run hstart hrs).mpr fun c _ => id

/-- Enough samples to score a window, to end a warm-up and to have quartiles. -/
def calm : List Float64 := [Double.zero,one,Double.zero,one,one]

theorem survives_run_calm :
    (∀ c ∈ calls (ZScore.detect (float64 true) zConfig) [] (calm.map withMetric),
      Survives "enrichment" "metric" (ZScore.Entered zConfig) c) ∧
    (∀ c ∈ calls (Cusum.detect (float64 true) cusumConfig) (Cusum.start (float64 true))
        (calm.map withMetric),
      Survives "enrichment" "metric" (Cusum.Entered true cusumConfig) c) ∧
    ∀ c ∈ calls (Iqr.detect (float64 true) iqrConfig) ⟨[],[]⟩ (calm.map withMetric),
      Survives "enrichment" "metric" (Iqr.Entered iqrConfig) c := by
  have hfinite : ∀ v ∈ calm, v.isFinite = true := by decide
  have hrs : ∀ r ∈ calm.map withMetric, ∃ v, HasMetric "enrichment" "metric" r.2 v := by
    intro r hr
    obtain ⟨v,hv,rfl⟩ := List.mem_map.mp hr
    exact ⟨v,hasMetric_withMetric (hfinite v hv)⟩
  obtain ⟨hz,hcusum,hiqr⟩ := survives_run true (calm.map withMetric)
  refine ⟨(hz zConfig (zConfig_ok true) hrs).mpr (by decide +kernel),
    (hcusum cusumConfig (cusumConfig_ok true) hrs).mpr ?_,hiqr iqrConfig (iqrConfig_ok true) hrs⟩
  intro c hc
  simp only [calm, List.map_cons, List.map_nil, calls_cons, calls, List.mem_cons,
    List.not_mem_nil, or_false] at hc
  rcases hc with rfl | rfl | rfl | rfl | rfl
  all_goals
    rw [Cusum.overflows_iff (hasMetric_withMetric rfl)]
    decide +kernel

theorem huge_sum (compensated : Bool) :
    (float64 compensated).sum [Double.neg huge,huge] = Double.zero := by
  have hadd : Double.add (Double.neg huge) huge = Double.zero := by
    show Double.ofRat binary64 (-2^(600 : ℤ)+2^(600 : ℤ)) = _
    rw [neg_add_cancel, Double.ofRat_zero]
  cases compensated with
  | false => exact hadd
  | true =>
    have hadd' : Double.add huge (Double.neg huge) = Double.zero := by
      show Double.ofRat binary64 (2^(600 : ℤ)+-2^(600 : ℤ)) = _
      rw [add_neg_cancel, Double.ofRat_zero]
    have hzero : Double.add (Double.zero : Float64) Double.zero = Double.zero := by
      show Double.ofRat binary64 (0+0) = _
      rw [add_zero, Double.ofRat_zero]
    have hlow : Double.sub (Double.neg huge) Double.zero = Double.neg huge := Double.sub_zero _ _
    have hhigh : Double.sub huge Double.zero = huge := Double.sub_zero _ _
    have hsum : Double.compensate (Double.neg huge,Double.zero) huge =
        (Double.zero,Double.zero) := by
      unfold Double.compensate
      dsimp only
      rw [hadd, hlow, hhigh, hadd, hadd', ite_self, hzero]
    rw [show (float64 true).sum = Double.sumCompensated from rfl, Double.sumCompensated_pair, hsum]
    exact hzero

theorem huge_extreme (compensated : Bool) : Extreme compensated [Double.neg huge,huge] := by
  have htwo : Representable binary64 2 ∧ |(2 : ℚ)| < 2^binary64.bound := by
    have hpow : (2 : ℚ) = 2^(1 : ℤ) := (zpow_one 2).symm
    rw [abs_of_pos (by norm_num), hpow]
    exact ⟨representable_pow (by decide),zpow_lt_zpow_right₀ (by norm_num) (by decide)⟩
  refine ⟨Double.zero,?_,huge,by simp,?_⟩
  · rw [huge_sum]
    show Double.div Double.zero (Double.ofRat binary64 ((2 : ℕ) : ℚ)) = _
    rw [Nat.cast_ofNat, Double.ofRat_eq htwo]
    show (if (2 : ℚ) = 0 then none else some (Double.ofRat binary64 (0/2))) = _
    rw [if_neg (by norm_num), zero_div, Double.ofRat_zero]
  · unfold huge
    rw [Double.sub_zero]
    show (2 : ℚ)^(512 : ℤ) ≤ |2^(600 : ℤ)|
    rw [abs_of_pos (zpow_pos (by norm_num) _)]
    exact zpow_le_zpow_right₀ (by norm_num) (by decide)

/-- After two huge values of opposite sign no call of the z-score returns, and
the warm-up of the cumulative sums cannot end with them. -/
theorem huge_pair_raises : ZScore.init (float64 true) zConfig = .ok () ∧
    Cusum.init (float64 true) cusumConfig = .ok () ∧
    (∀ v ∈ [Double.neg huge,huge,one], HasMetric "enrichment" "metric" (withMetric v).2 v) ∧
    (calls (ZScore.detect (float64 true) zConfig) []
      [withMetric (Double.neg huge),withMetric huge,withMetric one,withMetric one]).map
        Call.outcome = [.ok none,.ok none,.error outOfRange,.error outOfRange] ∧
    (calls (Cusum.detect (float64 true) cusumConfig) (Cusum.start (float64 true))
      [withMetric (Double.neg huge),withMetric huge]).map Call.outcome =
        [.ok none,.error outOfRange] := by
  have hlow := hasMetric_withMetric (v := Double.neg huge) rfl
  have hhigh := hasMetric_withMetric (v := huge) rfl
  have hone := hasMetric_withMetric (v := one) rfl
  refine ⟨zConfig_ok true,cusumConfig_ok true,?_,?_,?_⟩
  · intro v hv
    simp only [List.mem_cons, List.not_mem_nil, or_false] at hv
    rcases hv with rfl | rfl | rfl
    exacts [hlow,hhigh,hone]
  · have hfirst : ZScore.detect (float64 true) zConfig (withMetric (Double.neg huge)).1 []
        (withMetric (Double.neg huge)).2 = (.ok none,[Double.neg huge]) := rfl
    have hsecond : ZScore.detect (float64 true) zConfig (withMetric huge).1 [Double.neg huge]
        (withMetric huge).2 = (.ok none,[Double.neg huge,huge]) := rfl
    have hover : ZScore.Overflows true zConfig [Double.neg huge,huge] :=
      ⟨le_refl _,huge_extreme true⟩
    have hlater := ZScore.detect_raises (zConfig_ok true) (le_refl _) hover (withMetric one).1 hone
    rw [calls_cons, hfirst, calls_cons, hsecond, calls_cons, hlater, calls_cons, hlater]
    rfl
  · have hfirst : Cusum.detect (float64 true) cusumConfig (withMetric (Double.neg huge)).1
        (Cusum.start (float64 true)) (withMetric (Double.neg huge)).2 =
        (.ok none,{ Cusum.start (float64 true) with warmup := [Double.neg huge] }) := rfl
    obtain ⟨mean,hsecond⟩ : ∃ mean, Cusum.detect (float64 true) cusumConfig (withMetric huge).1
        { Cusum.start (float64 true) with warmup := [Double.neg huge] } (withMetric huge).2 =
        (.error outOfRange,{ Cusum.start (float64 true) with
          warmup := [Double.neg huge,huge], target := some mean }) := by
      rw [Cusum.detect_warming hhigh (Or.inl rfl)]
      rcases Cusum.calibrate_cases true
        (s := { Cusum.start (float64 true) with warmup := [Double.neg huge,huge] })
        (by decide) (by decide) with ⟨_,mean,hcalibrate⟩ | ⟨hnear,_⟩
      · exact ⟨mean,hcalibrate⟩
      · exact absurd (huge_extreme true) hnear
    rw [calls_cons, hfirst, calls_cons, hsecond]
    rfl

end PipelineX.Detectors
