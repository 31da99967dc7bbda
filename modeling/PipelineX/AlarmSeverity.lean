import PipelineX.DetectorFaults
import PipelineX.DetectorRuns
import PipelineX.SpecialValues

/-!
# What the severity of an event says

The cumulative sums are never undefined, since `max` keeps its zero. The other
two detectors fire when a comparison fails, and it does on an undefined score or
fence too.
-/

set_option autoImplicit false

namespace PipelineX
open PipelineX.Records PipelineX.Rounding

namespace Float64
open PipelineX.Double
variable {x z : Float64}

theorem sqrt_some (h : sqrt x = .ok z) : Double.sqrt x = some z := by
  unfold sqrt at h
  split at h
  · next hz => rw [hz, Except.ok.inj h]
  · cases h

theorem inRange_ok {message : String} (h : inRange message x = .ok z) : z = x := by
  cases x with
  | finite a ha => exact (Except.ok.inj h).symm
  | inf a => cases h
  | nan => exact (Except.ok.inj h).symm

/-- A square is the product, when it does not raise. -/
theorem square_mul (h : square x = .ok z) : z = Double.mul x x := by
  cases x with
  | finite a ha => exact inRange_ok h
  | inf a =>
    rw [Double.mul, Bool.xor_self]
    exact (Except.ok.inj h).symm
  | nan => exact (Except.ok.inj h).symm

/-- A positive number of things is a float that is one or more. -/
theorem ofInt_finite {n : ℤ} (hn : 0 < n) (h : ofInt n = .ok x) :
    ∃ b hb, x = .finite b hb ∧ 1 ≤ b ∧ Double.ofRat binary64 n = .finite b hb := by
  have hx := inRange_ok h
  by_cases hsize : |round binary64 (n : ℚ)| < 2^binary64.bound
  · rw [ofRat_finite hsize] at hx ⊢
    refine ⟨_,_,hx,?_,rfl⟩
    have hone := representable_pow (f := binary64) (k := 0) (by decide)
    rw [zpow_zero] at hone
    exact le_round_of_le hone (by exact_mod_cast hn)
  · rw [ofInt, ofRat_inf (not_lt.mp hsize)] at h
    cases h

theorem sqrt_isFinite (hx : x.isFinite = true) (h : Double.sqrt x = some z) :
    z.isFinite = true := by
  cases x with
  | finite a ha =>
    rw [Double.sqrt] at h
    split_ifs at h with hneg hzero
    · rw [← Option.some.inj h]
      rfl
    · have hpos : 0 < a := lt_of_le_of_ne (not_lt.mp hneg) (Ne.symm hzero)
      have hfour : a < 4^(512 : ℤ) := by
        rw [show (4 : ℚ) = 2^(2 : ℤ) by norm_num, ← zpow_mul]
        exact (le_abs_self a).trans_lt ha.2
      have hroot := sqrtRat_le (f := binary64) hpos hfour (by decide)
      rw [← Option.some.inj h]
      apply ofRat_isFinite (representable_pow (k := 512) (by decide))
        (zpow_lt_zpow_right₀ (by norm_num) (by decide))
      rwa [abs_of_nonneg (sqrtRat_nonneg a)]
  | inf a => cases hx
  | nan => cases hx

theorem sum_infinite (compensated : Bool) {xs : List Float64} (h : ∃ x ∈ xs, x.isFinite = false) :
    ((float64 compensated).sum xs).isFinite = false := by
  cases compensated
  · exact absorbing_infinite.sumPlain h
  · exact absorbing_infinite.sumCompensated h

theorem sum_defined (compensated : Bool) {xs : List Float64}
    (h : ∀ x ∈ xs, NotNegative x ∧ x ≠ .nan) : (float64 compensated).sum xs ≠ .nan := by
  cases compensated
  · exact sumPlain_defined h
  · exact sumCompensated_defined h

end Float64

namespace Detectors
open PipelineX.Double
variable {compensated : Bool}

theorem squares_map {xs zs : List Float64} {mean : Float64}
    (h : squares (float64 compensated) xs mean = .ok zs) :
    zs = xs.map fun x => Double.mul (Double.sub x mean) (Double.sub x mean) := by
  induction xs generalizing zs with
  | nil => exact (Except.ok.inj h).symm
  | cons x xs ih =>
    rw [squares_cons] at h
    obtain ⟨z,hz,hrest⟩ := bind_ok h
    obtain ⟨ws,hws,hlist⟩ := bind_ok hrest
    rw [← Except.ok.inj hlist, ih hws, Float64.square_mul hz, List.map_cons]
    rfl

namespace ZScore
variable {cfg : Config Float64} {window : List Float64} {v z : Float64}

/-- In floats, the sum of the samples is finite, and so is the distance of the
value from their mean or else the sum of their squared distances from it. -/
def Regular (compensated : Bool) (window : List Float64) (v : Float64) : Prop :=
  v ≠ .nan ∧ ((float64 compensated).sum window).isFinite = true ∧
    ∃ mean, Double.div ((float64 compensated).sum window)
        (Double.ofRat binary64 window.length) = some mean ∧
      ((Double.sub v mean).isFinite = true ∨ ((float64 compensated).sum
        (window.map fun x => Double.mul (Double.sub x mean) (Double.sub x mean))).isFinite = true)

/-- What goes into a score. -/
structure Scored (compensated : Bool) (window : List Float64) (v mean variance sigma z : Float64)
    (n : ℚ) (hn : Representable binary64 n ∧ |n| < 2^binary64.bound) : Prop where
  nonempty : window ≠ []
  one_le : 1 ≤ n
  length_eq : Double.ofRat binary64 window.length = .finite n hn
  mean_eq : Double.div ((float64 compensated).sum window) (.finite n hn) = some mean
  variance_eq : Double.div ((float64 compensated).sum (window.map fun x =>
    Double.mul (Double.sub x mean) (Double.sub x mean))) (.finite n hn) = some variance
  sigma_eq : Double.sqrt variance = some sigma
  score_eq : Double.div (Double.sub v mean) sigma = some z

theorem zScore_scored (hcfg : init (float64 compensated) cfg = .ok ())
    (h : zScore (float64 compensated) cfg window v = .ok (some z)) :
    ∃ mean variance sigma n hn, Scored compensated window v mean variance sigma z n hn := by
  obtain ⟨_,hmin,_⟩ := init_ok hcfg
  unfold zScore at h
  split at h
  · cases h
  next hmany =>
  obtain ⟨count,hcount,hrest⟩ := bind_ok h
  obtain ⟨m,hm,hrest⟩ := bind_ok hrest
  obtain ⟨zs,hzs,hrest⟩ := bind_ok hrest
  obtain ⟨variance,hvariance,hrest⟩ := bind_ok hrest
  obtain ⟨sigma,hsigma,hrest⟩ := bind_ok hrest
  split at hrest
  · cases hrest
  obtain ⟨w,hw,hscore⟩ := bind_ok hrest
  obtain ⟨count',hcount',hmean⟩ := bind_ok hm
  obtain ⟨n,hn,hfinite,hone,hlength⟩ := Float64.ofInt_finite (by omega) hcount
  cases Except.ok.inj (hcount.symm.trans hcount')
  cases Option.some.inj (Except.ok.inj hscore)
  rw [squares_map hzs] at hvariance
  rw [Int.cast_natCast] at hlength
  subst hfinite
  refine ⟨m,variance,sigma,n,hn,?_,hone,hlength,Float64.div_some hmean,
    Float64.div_some hvariance,Float64.sqrt_some hsigma,Float64.div_some hw⟩
  rintro rfl
  rw [List.length_nil] at hmany
  omega

section
variable {mean variance sigma : Float64} {n : ℚ}
  {hn : Representable binary64 n ∧ |n| < 2^binary64.bound}
  (h : Scored compensated window v mean variance sigma z n hn)
include h

/-- A score is undefined once both parts of it are out of range. -/
theorem Scored.undefined (hdistance : (Double.sub v mean).isFinite = false)
    (hsquares : ((float64 compensated).sum
      (window.map fun x => Double.mul (Double.sub x mean) (Double.sub x mean))).isFinite = false) :
    z = .nan := by
  have hvariance := infinite_div hsquares rfl h.variance_eq
  have hsigma := sqrt_infinite hvariance h.sigma_eq
  exact Option.some.inj (h.score_eq.symm.trans (div_infinite hdistance hsigma))

/-- It is so when the sum of the samples is. -/
theorem Scored.sum_isFinite (hz : z ≠ .nan) : ((float64 compensated).sum window).isFinite = true := by
  by_contra hinfinite
  rw [Bool.not_eq_true] at hinfinite
  have hmean := infinite_div hinfinite rfl h.mean_eq
  obtain ⟨x,hx⟩ := List.exists_mem_of_ne_nil window h.nonempty
  apply hz (h.undefined (sub_infinite v hmean) (Float64.sum_infinite compensated ⟨_,?_,
    mul_self_infinite (sub_infinite x hmean)⟩))
  exact List.mem_map_of_mem hx

theorem Scored.mean_isFinite (hsum : ((float64 compensated).sum window).isFinite = true) :
    mean.isFinite = true := div_isFinite hsum h.one_le h.mean_eq

/-- A sum that is finite has no term that is not, so that the squares are defined. -/
theorem Scored.squares_defined (hsum : ((float64 compensated).sum window).isFinite = true) :
    (float64 compensated).sum
      (window.map fun x => Double.mul (Double.sub x mean) (Double.sub x mean)) ≠ .nan := by
  have hmean := h.mean_isFinite hsum
  apply Float64.sum_defined
  intro w hw
  obtain ⟨x,hx,rfl⟩ := List.mem_map.mp hw
  have hfinite : x.isFinite = true := by
    by_contra hinfinite
    rw [Bool.not_eq_true] at hinfinite
    rw [Float64.sum_infinite compensated ⟨x,hx,hinfinite⟩] at hsum
    cases hsum
  exact ⟨mul_self_notNegative _,mul_self_defined (sub_defined (finite_defined hfinite) hmean)⟩

theorem Scored.defined_iff : z ≠ .nan ↔ Regular compensated window v := by
  have hmean := h.mean_eq
  rw [← h.length_eq] at hmean
  constructor
  · intro hz
    refine ⟨?_,h.sum_isFinite hz,mean,hmean,?_⟩
    · rintro rfl
      exact hz (nan_div h.score_eq)
    · by_contra hneither
      rw [not_or, Bool.not_eq_true, Bool.not_eq_true] at hneither
      exact hz (h.undefined hneither.1 hneither.2)
  · rintro ⟨hv,hsum,mean',hmean',hrange⟩
    cases Option.some.inj (hmean.symm.trans hmean')
    rcases hrange with hdistance | hsquares
    · have hdefined := div_finite_defined (h.squares_defined hsum) rfl h.variance_eq
      exact finite_div_defined hdistance (sqrt_defined hdefined h.sigma_eq) h.score_eq
    · have hsigma := Float64.sqrt_isFinite (div_isFinite hsquares h.one_le h.variance_eq) h.sigma_eq
      exact div_finite_defined (sub_defined hv (h.mean_isFinite hsum)) hsigma h.score_eq

end

/-- An event comes from a score that does not compare within the threshold. -/
theorem detect_scored {draw : Draw} {r : Sample Float64} {e : AnomalyEvent Float64}
    (h : (detect (float64 compensated) cfg draw window r).1 = .ok (some e)) :
    ∃ v z, readMetric (float64 compensated) cfg.sourceDict cfg.metricKey r = some (.ok v) ∧
      zScore (float64 compensated) cfg window v = .ok (some z) ∧
      Double.le (Double.abs z) cfg.threshold = false ∧ e.severityScore = Double.abs z := by
  unfold detect at h
  split at h
  · cases h
  · cases h
  next v hv =>
  split at h
  · cases h
  · cases h
  next z hz =>
  dsimp only at h
  split at h
  · cases h
  next hle =>
  refine ⟨v,z,hv,hz,Bool.eq_false_of_not_eq_true hle,?_⟩
  cases Option.some.inj (Except.ok.inj h)
  rfl

theorem exceeds_iff (hcfg : init (float64 compensated) cfg = .ok ()) {draw : Draw}
    {r : Sample Float64} {e : AnomalyEvent Float64}
    (h : (detect (float64 compensated) cfg draw window r).1 = .ok (some e)) :
    ∃ v, readMetric (float64 compensated) cfg.sourceDict cfg.metricKey r = some (.ok v) ∧
      (Double.lt cfg.threshold e.severityScore = true ↔
        cfg.threshold ≠ .nan ∧ Regular compensated window v) := by
  obtain ⟨v,z,hv,hz,hle,hseverity⟩ := detect_scored h
  obtain ⟨_,_,_,_,_,hscored⟩ := zScore_scored hcfg hz
  refine ⟨v,hv,?_⟩
  rw [hseverity, ← hscored.defined_iff]
  have habs : Double.abs z ≠ .nan ↔ z ≠ .nan := by cases z <;> simp [Double.abs]
  constructor
  · intro hlt
    obtain ⟨hthreshold,hz⟩ := lt_defined hlt
    exact ⟨hthreshold,habs.mp hz⟩
  · rintro ⟨hthreshold,hz⟩
    exact lt_of_not_le (habs.mpr hz) hthreshold hle

end ZScore

namespace Cusum
variable {cfg : Config Float64} {s : State Float64}

theorem max_zero_defined (compensated : Bool) (x : Float64) :
    (float64 compensated).max ((float64 compensated).literal 0) x ≠ .nan := by
  unfold PyFloat.max
  split
  · next h => exact (lt_defined h).2
  · exact ofRat_defined 0

/-- The larger sum is over the threshold when one of them is. -/
theorem lt_max {threshold a b : Float64} (ha : a ≠ .nan)
    (h : (Double.lt threshold a || Double.lt threshold b) = true) :
    Double.lt threshold ((float64 compensated).max a b) = true := by
  show Double.lt threshold (if Double.lt a b = true then b else a) = true
  rw [Bool.or_eq_true] at h
  split
  · next hab =>
    rcases h with h | h
    · exact lt_trans h hab
    · exact h
  · next hab =>
    rcases h with h | h
    · exact h
    · exact lt_of_lt_of_not_lt ha h (Bool.eq_false_of_not_eq_true hab)

theorem exceeds {draw : Draw} {r : Sample Float64} {e : AnomalyEvent Float64}
    (h : (detect (float64 compensated) cfg draw s r).1 = .ok (some e)) :
    Double.lt cfg.threshold e.severityScore = true := by
  unfold detect at h
  split at h
  · cases h
  · cases h
  split at h
  · split at h
    · cases h
    next deviation _ =>
    dsimp only at h
    split at h
    · next halarm =>
      cases Option.some.inj (Except.ok.inj h)
      exact lt_max (max_zero_defined compensated _) halarm
    · cases h
  · dsimp only at h
    split at h
    · cases h
    · unfold calibrate at h
      split at h
      · cases h
      split at h
      · cases h
      dsimp only at h
      split at h
      · cases h
      · cases h

end Cusum

namespace Iqr
variable {cfg : Config Float64} {s : State Float64} {v lower upper : Float64}

/-- The quartiles of the samples differ by a number or by an infinity. -/
def Regular (compensated : Bool) (sorted : List Float64) (v : Float64) : Prop :=
  v ≠ .nan ∧ ∃ q1 q3,
    percentile (float64 compensated) sorted (Double.ofRat binary64 (1/4)) = .ok q1 ∧
    percentile (float64 compensated) sorted (Double.ofRat binary64 (3/4)) = .ok q3 ∧
    Double.sub q3 q1 ≠ .nan

/-- The value of the event is below its lower fence or above its upper one. -/
def BeyondFence (e : AnomalyEvent Float64) : Prop :=
  ∃ value lower upper, ("value",Datum.float value) ∈ e.metadata ∧
    ("lower_fence",Datum.float lower) ∈ e.metadata ∧
    ("upper_fence",Datum.float upper) ∈ e.metadata ∧
    (Double.lt value lower = true ∨ Double.lt upper value = true)

theorem beyondFence_iff (draw : Draw) (r : Sample Float64) :
    BeyondFence (event (float64 compensated) cfg draw r s v lower upper) ↔
      Double.lt v lower = true ∨ Double.lt upper v = true := by
  unfold BeyondFence event
  simp

/-- What goes into a pair of fences. -/
structure Fenced (compensated : Bool) (k : Float64) (sorted : List Float64)
    (q1 q3 lower upper : Float64) : Prop where
  q1_eq : percentile (float64 compensated) sorted (Double.ofRat binary64 (1/4)) = .ok q1
  q3_eq : percentile (float64 compensated) sorted (Double.ofRat binary64 (3/4)) = .ok q3
  spread : Double.eq (Double.sub q3 q1) Double.zero = false
  lower_eq : lower = Double.sub q1 (Double.mul k (Double.sub q3 q1))
  upper_eq : upper = Double.add q3 (Double.mul k (Double.sub q3 q1))

theorem bounds_fenced {sorted : List Float64}
    (h : bounds (float64 compensated) cfg sorted = .ok (some (lower,upper))) :
    ∃ q1 q3, Fenced compensated cfg.k sorted q1 q3 lower upper := by
  unfold bounds at h
  split at h
  · cases h
  obtain ⟨q1,hq1,hrest⟩ := bind_ok h
  obtain ⟨q3,hq3,hrest⟩ := bind_ok hrest
  dsimp only at hrest
  split at hrest
  · cases hrest
  next hflat =>
  have hfences := Option.some.inj (Except.ok.inj hrest)
  refine ⟨q1,q3,hq1,hq3,?_,(Prod.ext_iff.mp hfences).1.symm,(Prod.ext_iff.mp hfences).2.symm⟩
  rw [← ofRat_zero]
  exact Bool.eq_false_of_not_eq_true hflat

section
variable {k q1 q3 : Float64} {sorted : List Float64}
  (h : Fenced compensated k sorted q1 q3 lower upper)
include h

/-- A comparison is true of a fence that is defined. -/
theorem Fenced.regular (hbeyond : Double.lt v lower = true ∨ Double.lt upper v = true) :
    k ≠ .nan ∧ Regular compensated sorted v := by
  have hproduct : Double.mul k (Double.sub q3 q1) ≠ .nan := by
    intro hnan
    rw [h.lower_eq, h.upper_eq, hnan, sub_nan, absorbing_nan q3 _ (Or.inr rfl)] at hbeyond
    rcases hbeyond with hlt | hlt
    · exact (lt_defined hlt).2 rfl
    · exact (lt_defined hlt).1 rfl
  have hv : v ≠ .nan := by
    rcases hbeyond with hlt | hlt
    · exact (lt_defined hlt).1
    · exact (lt_defined hlt).2
  exact ⟨fun hk => hproduct (mul_undefined (Or.inl hk)),hv,q1,q3,h.q1_eq,h.q3_eq,
    fun hdiff => hproduct (mul_undefined (Or.inr hdiff))⟩

theorem Fenced.defined (hk : Double.lt Double.zero k = true) (hv : Regular compensated sorted v) :
    lower ≠ .nan ∧ upper ≠ .nan := by
  obtain ⟨_,q1',q3',hq1,hq3,hdiff⟩ := hv
  cases Except.ok.inj (h.q1_eq.symm.trans hq1)
  cases Except.ok.inj (h.q3_eq.symm.trans hq3)
  rw [h.lower_eq, h.upper_eq]
  exact apart_defined hk hdiff h.spread

end

theorem beyond_of_not_inside (hv : v ≠ .nan) (hlower : lower ≠ .nan) (hupper : upper ≠ .nan)
    (h : (Double.le lower v && Double.le v upper) = false) :
    Double.lt v lower = true ∨ Double.lt upper v = true := by
  rcases Bool.and_eq_false_iff.mp h with h | h
  · exact Or.inl (lt_of_not_le hlower hv h)
  · exact Or.inr (lt_of_not_le hv hupper h)

/-- The distance to a fence is above zero. -/
theorem distance_pos (h : Double.lt v lower = true ∨ Double.lt upper v = true) :
    Double.lt Double.zero
      (if Double.lt v lower then Double.sub lower v else Double.sub v upper) = true := by
  split
  · next hbelow => exact zero_lt_sub hbelow
  · next hbelow => exact zero_lt_sub (h.resolve_left hbelow)

theorem detect_fences {draw : Draw} {r : Sample Float64} {e : AnomalyEvent Float64}
    (h : (detect (float64 compensated) cfg draw s r).1 = .ok (some e)) :
    ∃ v lower upper,
      readMetric (float64 compensated) cfg.sourceDict cfg.metricKey r = some (.ok v) ∧
      bounds (float64 compensated) cfg s.sorted = .ok (some (lower,upper)) ∧
      (Double.le lower v && Double.le v upper) = false ∧
      e.severityScore = (if Double.lt v lower then Double.sub lower v else Double.sub v upper) ∧
      (BeyondFence e ↔ Double.lt v lower = true ∨ Double.lt upper v = true) := by
  unfold detect at h
  split at h
  · cases h
  · cases h
  next v hv =>
  split at h
  · cases h
  · cases h
  next lower upper hbounds =>
  dsimp only at h
  split at h
  · cases h
  next hinside =>
  cases Option.some.inj (Except.ok.inj h)
  exact ⟨v,lower,upper,hv,hbounds,Bool.eq_false_of_not_eq_true hinside,rfl,beyondFence_iff draw r⟩

theorem k_pos (hcfg : init (float64 compensated) cfg = .ok ()) (hk : cfg.k ≠ .nan) :
    Double.lt Double.zero cfg.k = true := by
  have hle := init_k hcfg
  change Double.le cfg.k (Double.ofRat binary64 0) = false at hle
  rw [ofRat_zero] at hle
  exact lt_of_not_le hk (finite_defined rfl) hle

theorem exceeds_iff (hcfg : init (float64 compensated) cfg = .ok ()) {draw : Draw}
    {r : Sample Float64} {e : AnomalyEvent Float64}
    (h : (detect (float64 compensated) cfg draw s r).1 = .ok (some e)) :
    ∃ v, readMetric (float64 compensated) cfg.sourceDict cfg.metricKey r = some (.ok v) ∧
      (Double.lt Double.zero e.severityScore = true ∧ BeyondFence e ↔
        cfg.k ≠ .nan ∧ Regular compensated s.sorted v) := by
  obtain ⟨v,lower,upper,hv,hbounds,hinside,hseverity,hbeyond⟩ := detect_fences h
  obtain ⟨q1,q3,hfenced⟩ := bounds_fenced hbounds
  refine ⟨v,hv,?_⟩
  rw [hseverity, hbeyond]
  constructor
  · exact fun h => hfenced.regular h.2
  · rintro ⟨hk,hregular⟩
    obtain ⟨hlower,hupper⟩ := hfenced.defined (k_pos hcfg hk) hregular
    have hout := beyond_of_not_inside hregular.1 hlower hupper hinside
    exact ⟨distance_pos hout,hout⟩

end Iqr

/-- In every run, a cumulative sum that fires is over its threshold; the other two
detectors fire on a real exceedance exactly when the parameter and the metric are
numbers and the statistics of the window are in range. -/
theorem alarm_exceeds_iff (compensated : Bool) (draw : Draw) (r : Sample Float64)
    (ops : List (Op Float64)) :
    (∀ cfg e, ZScore.init (float64 compensated) cfg = .ok () →
      let window := after (ZScore.detect (float64 compensated) cfg) ZScore.reset [] ops
      (ZScore.detect (float64 compensated) cfg draw window r).1 = .ok (some e) →
      ∃ v, readMetric (float64 compensated) cfg.sourceDict cfg.metricKey r = some (.ok v) ∧
        (Double.lt cfg.threshold e.severityScore = true ↔
          cfg.threshold ≠ .nan ∧ ZScore.Regular compensated window v)) ∧
    (∀ cfg e, Cusum.init (float64 compensated) cfg = .ok () →
      let s := after (Cusum.detect (float64 compensated) cfg) (Cusum.reset (float64 compensated))
        (Cusum.start (float64 compensated)) ops
      (Cusum.detect (float64 compensated) cfg draw s r).1 = .ok (some e) →
      Double.lt cfg.threshold e.severityScore = true) ∧
    ∀ cfg e, Iqr.init (float64 compensated) cfg = .ok () →
      let s := after (Iqr.detect (float64 compensated) cfg) Iqr.reset ⟨[],[]⟩ ops
      (Iqr.detect (float64 compensated) cfg draw s r).1 = .ok (some e) →
      ∃ v, readMetric (float64 compensated) cfg.sourceDict cfg.metricKey r = some (.ok v) ∧
        (Double.lt Double.zero e.severityScore = true ∧ Iqr.BeyondFence e ↔
          cfg.k ≠ .nan ∧ Iqr.Regular compensated s.sorted v) :=
  ⟨fun _ _ hcfg h => ZScore.exceeds_iff hcfg h,fun _ _ _ h => Cusum.exceeds h,
    fun _ _ hcfg h => Iqr.exceeds_iff hcfg h⟩

/-- What a call with this metric gives after a run. -/
def outcome {S : Type}
    (detect : Draw → S → Sample Float64 → Except PyError (Option (AnomalyEvent Float64)) × S)
    (reset : S → S) (s : S) (ops : List (Op Float64)) (v : Float64) :
    Except PyError (Option (AnomalyEvent Float64)) :=
  (detect ⟨0,0⟩ (after detect reset s ops) (sample "metric" v)).1

/-- Two values in turn. -/
def alternating : List (Op Float64) := feed "metric" [Double.zero,one,Double.zero,one]

theorem ZScore.alternating_regular : Regular true
    (after (detect (float64 true) zConfig) reset [] alternating) (.inf false) := by
  refine ⟨by simp,by decide +kernel,?_⟩
  have hmean : (Double.div
      ((float64 true).sum (after (detect (float64 true) zConfig) reset [] alternating))
      (Double.ofRat binary64 (after (detect (float64 true) zConfig) reset [] alternating).length)).map
        (fun mean => ((float64 true).sum
          ((after (detect (float64 true) zConfig) reset [] alternating).map
            fun x => Double.mul (Double.sub x mean) (Double.sub x mean))).isFinite) = some true := by
    decide +kernel
  obtain ⟨mean,hdiv,hfinite⟩ := Option.map_eq_some_iff.mp hmean
  exact ⟨mean,hdiv,Or.inr hfinite⟩

theorem Iqr.alternating_regular : Regular true
    (after (detect (float64 true) iqrConfig) reset ⟨[],[]⟩ alternating).sorted (.inf false) := by
  refine ⟨by simp,?_⟩
  have hquartiles : (do
      let q1 ← percentile (float64 true)
        (after (detect (float64 true) iqrConfig) reset ⟨[],[]⟩ alternating).sorted
        (Double.ofRat binary64 (1/4))
      let q3 ← percentile (float64 true)
        (after (detect (float64 true) iqrConfig) reset ⟨[],[]⟩ alternating).sorted
        (Double.ofRat binary64 (3/4))
      Except.ok (Double.sub q3 q1).isFinite) = Except.ok true := by
    decide +kernel
  obtain ⟨q1,hq1,hrest⟩ := bind_ok hquartiles
  obtain ⟨q3,hq3,hfinite⟩ := bind_ok hrest
  exact ⟨q1,q3,hq1,hq3,finite_defined (Except.ok.inj hfinite)⟩

/-- An infinite metric after them is a real exceedance for all three. -/
theorem alarm_exceeds_alternating :
    (∃ e, outcome (ZScore.detect (float64 true) zConfig) ZScore.reset [] alternating (.inf false) =
      .ok (some e) ∧ Double.lt one e.severityScore = true) ∧
    (∃ e, outcome (Cusum.detect (float64 true) cusumConfig) (Cusum.reset (float64 true))
      (Cusum.start (float64 true)) alternating (.inf false) = .ok (some e) ∧
      Double.lt one e.severityScore = true) ∧
    ∃ e, outcome (Iqr.detect (float64 true) iqrConfig) Iqr.reset ⟨[],[]⟩ alternating (.inf false) =
      .ok (some e) ∧ Double.lt Double.zero e.severityScore = true ∧ Iqr.BeyondFence e := by
  have hone : one ≠ .nan := finite_defined rfl
  obtain ⟨hz,hcusum,hiqr⟩ :=
    alarm_exceeds_iff true ⟨0,0⟩ (sample "metric" (.inf false)) alternating
  refine ⟨?_,?_,?_⟩
  · obtain ⟨e,he⟩ := severity_isSome (x := outcome (ZScore.detect (float64 true) zConfig)
      ZScore.reset [] alternating (.inf false)) (by decide +kernel)
    obtain ⟨v,hv,hexceeds⟩ := hz zConfig e (zConfig_ok true) he
    cases Except.ok.inj (Option.some.inj (hv.symm.trans (readMetric_sample _ _ _ _)))
    exact ⟨e,he,hexceeds.mpr ⟨hone,ZScore.alternating_regular⟩⟩
  · obtain ⟨e,he⟩ := severity_isSome (x := outcome (Cusum.detect (float64 true) cusumConfig)
      (Cusum.reset (float64 true)) (Cusum.start (float64 true)) alternating (.inf false))
      (by decide +kernel)
    exact ⟨e,he,hcusum cusumConfig e (cusumConfig_ok true) he⟩
  · obtain ⟨e,he⟩ := severity_isSome (x := outcome (Iqr.detect (float64 true) iqrConfig)
      Iqr.reset ⟨[],[]⟩ alternating (.inf false)) (by decide +kernel)
    obtain ⟨v,hv,hexceeds⟩ := hiqr iqrConfig e (iqrConfig_ok true) he
    cases Except.ok.inj (Option.some.inj (hv.symm.trans (readMetric_sample _ _ _ _)))
    exact ⟨e,he,hexceeds.mpr ⟨hone,Iqr.alternating_regular⟩⟩

/-- An undefined number in the window fires the z-score on the next value, and an
undefined metric fires the interquartile range. -/
theorem nan_fires : (ZScore.init (float64 true) zConfig = .ok () ∧
    ∃ e, outcome (ZScore.detect (float64 true) zConfig) ZScore.reset [] (feed "metric" [.nan,one])
      one = .ok (some e) ∧ ¬Double.lt zConfig.threshold e.severityScore = true) ∧
    Iqr.init (float64 true) iqrConfig = .ok () ∧
    ∃ e, outcome (Iqr.detect (float64 true) iqrConfig) Iqr.reset ⟨[],[]⟩ alternating .nan =
      .ok (some e) ∧ ¬(Double.lt Double.zero e.severityScore = true ∧ Iqr.BeyondFence e) := by
  refine ⟨⟨zConfig_ok true,?_⟩,iqrConfig_ok true,?_⟩
  · obtain ⟨e,he⟩ := severity_isSome (x := outcome (ZScore.detect (float64 true) zConfig)
      ZScore.reset [] (feed "metric" [.nan,one]) one) (by decide +kernel)
    obtain ⟨v,_,hexceeds⟩ := ZScore.exceeds_iff (zConfig_ok true) he
    refine ⟨e,he,fun hlt => ?_⟩
    exact absurd (hexceeds.mp hlt).2.2.1 (by decide +kernel)
  · obtain ⟨e,he⟩ := severity_isSome (x := outcome (Iqr.detect (float64 true) iqrConfig)
      Iqr.reset ⟨[],[]⟩ alternating .nan) (by decide +kernel)
    obtain ⟨v,hv,hexceeds⟩ := Iqr.exceeds_iff (iqrConfig_ok true) he
    cases Except.ok.inj (Option.some.inj (hv.symm.trans (readMetric_sample _ _ _ _)))
    exact ⟨e,he,fun hlt => (hexceeds.mp hlt).2.1 rfl⟩

end Detectors
end PipelineX
