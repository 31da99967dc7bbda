import PipelineX.IqrExact
import PipelineX.ZScoreExact
import Mathlib.Analysis.Real.Sqrt

/-!
# A change of unit

Two runs, on the numbers and on their images under a linear map that keeps the
order. The windows stay related, and so do the scores and the fences.
-/

set_option autoImplicit false

namespace PipelineX.Detectors
open PipelineX.Records PipelineX.Moments PipelineX.Quantile
variable {K : Type} [Field K] [LinearOrder K]

def rescaleMetric (a b : K) : Metric K → Metric K
  | .int n => .float (a*n+b)
  | .float x => .float (a*x+b)
  | m => m

/-- Every number `x` of the record becomes `a*x+b`. -/
def rescaleSample (a b : K) (r : Sample K) : Sample K where
  id := r.id
  enrichment := r.enrichment.mapValues (rescaleMetric a b)
  rawPayload := r.rawPayload.mapValues (rescaleMetric a b)

def rescale (a b : K) : Op K → Op K := Op.onSample (rescaleSample a b)

theorem readMetric_rescale [FloorRing K] (root : K → K) (a b : K) (sourceDict metricKey : String)
    (r : Sample K) : readMetric (exact root) sourceDict metricKey (rescaleSample a b r) =
      (readMetric (exact root) sourceDict metricKey r).map (Except.map (fun x => a*x+b)) := by
  have hbag : (if sourceDict = "enrichment" then (rescaleSample a b r).enrichment
        else (rescaleSample a b r).rawPayload) =
      (if sourceDict = "enrichment" then r.enrichment else r.rawPayload).mapValues
        (rescaleMetric a b) := by
    split <;> rfl
  unfold readMetric
  dsimp only
  rw [hbag, OrderedDict.get?_mapValues]
  cases (if sourceDict = "enrichment" then r.enrichment else r.rawPayload).get? metricKey with
  | none => rfl
  | some m => cases m <;> rfl

variable [IsStrictOrderedRing K] {a : K} (ha : 0 < a) (b : K)

theorem recent_map {F : Type} (f : F → F) (n : ℤ) (w : List F) (v : F) :
    push n (w.map f) (f v) = (push n w v).map f := by
  rw [push, push, List.map_drop, List.map_append, List.length_append, List.length_append,
    List.length_map]
  rfl

namespace ZScore
variable (roots : SquareRoot K)
include ha

/-- The root of a square multiple. -/
theorem root_mul_self {x : K} (hx : 0 ≤ x) : roots.root (a*a*x) = a*roots.root x := by
  have haa : 0 ≤ a*a*x := mul_nonneg (mul_self_nonneg a) hx
  apply (mul_self_inj (roots.nonneg _ haa) (mul_nonneg ha.le (roots.nonneg x hx))).mp
  rw [roots.mul_self _ haa, mul_mul_mul_comm, roots.mul_self x hx]

theorem deviation_rescale {xs : List K} (hxs : xs ≠ []) :
    deviation roots (xs.map (fun x => a*x+b)) = a*deviation roots xs := by
  rw [deviation, variance_affine hxs, root_mul_self ha roots (variance_nonneg xs), deviation]

theorem score_rescale {xs : List K} (hxs : xs ≠ []) (v : K) :
    score roots (xs.map (fun x => a*x+b)) (a*v+b) = score roots xs v := by
  have hdistance : a*v+b-(a*Moments.mean xs+b) = a*(v-Moments.mean xs) := by ring
  rw [score, mean_affine hxs, deviation_rescale ha b roots hxs, hdistance,
    mul_div_mul_left _ _ ha.ne', score]

/-- The score does not depend on the unit. -/
theorem exceeds_rescale {cfg : Config K} (hmin : 1 ≤ cfg.minSamples) (window : List K) (v d : K) :
    Exceeds roots cfg (window.map (fun x => a*x+b)) (a*v+b) d ↔ Exceeds roots cfg window v d := by
  unfold Exceeds
  rw [List.length_map]
  apply and_congr_right
  intro hmany
  have hne : window ≠ [] := by
    intro h
    rw [h, List.length_nil] at hmany
    omega
  rw [deviation_rescale ha b roots hne, score_rescale ha b roots hne,
    mul_ne_zero_iff_left ha.ne']

/-- One call on the number and on its image. -/
theorem detect_rescale [FloorRing K] {cfg : Config K} (hmin : 1 ≤ cfg.minSamples) (draw : Draw)
    (window : List K) (r : Sample K) :
    severity (detect (exact roots.root) cfg draw (window.map (fun x => a*x+b))
        (rescaleSample a b r)).1 = severity (detect (exact roots.root) cfg draw window r).1 ∧
      (detect (exact roots.root) cfg draw (window.map (fun x => a*x+b)) (rescaleSample a b r)).2 =
        (detect (exact roots.root) cfg draw window r).2.map (fun x => a*x+b) := by
  have hread := readMetric_rescale roots.root a b cfg.sourceDict cfg.metricKey r
  rcases readMetric_exact roots.root cfg.sourceDict cfg.metricKey r with h | ⟨v,h⟩
  · rw [h] at hread
    rw [detect_skip h, detect_skip hread]
    exact ⟨rfl,rfl⟩
  · rw [h] at hread
    obtain ⟨hnext,_,hok,hfires⟩ := detect_number roots hmin draw window h
    obtain ⟨hnext',_,hok',hfires'⟩ :=
      detect_number roots hmin draw (window.map (fun x => a*x+b)) hread
    constructor
    · apply Option.ext
      intro d
      rw [severity_iff hok, severity_iff hok', hfires, hfires', exceeds_rescale ha b roots hmin]
    · rw [hnext, hnext']
      exact recent_map (fun x => a*x+b) cfg.windowSize window v

theorem severities_rescale [FloorRing K] {cfg : Config K}
    (hcfg : init (exact roots.root) cfg = .ok ()) (ops : List (Op K)) :
    severities (detect (exact roots.root) cfg) reset [] (ops.map (rescale a b)) =
      severities (detect (exact roots.root) cfg) reset [] ops := by
  obtain ⟨_,hmin,_⟩ := init_ok hcfg
  have hsame : severities (detect (exact roots.root) cfg) reset [] (ops.map (rescale a b)) =
      (severities (detect (exact roots.root) cfg) reset [] ops).map (Option.map id) := by
    apply severities_onSample (R := fun window window' => window' = window.map (fun x => a*x+b))
    · exact fun _ _ _ => rfl
    · rintro draw window _ r rfl
      rw [Option.map_id]
      exact detect_rescale ha b roots (by omega) draw window r
    · rfl
  rw [hsame, Option.map_id, List.map_id]

end ZScore

namespace Iqr
include ha

theorem fences_rescale [FloorRing K] (cfg : Config K) {xs : List K} (hxs : xs ≠ []) :
    q1 (xs.map (fun x => a*x+b)) = a*q1 xs+b ∧ q3 (xs.map (fun x => a*x+b)) = a*q3 xs+b ∧
    lower cfg (xs.map (fun x => a*x+b)) = a*lower cfg xs+b ∧
    upper cfg (xs.map (fun x => a*x+b)) = a*upper cfg xs+b := by
  have h1 : q1 (xs.map (fun x => a*x+b)) = a*q1 xs+b :=
    quantile_affine hxs (by norm_num) (by norm_num) ha b
  have h3 : q3 (xs.map (fun x => a*x+b)) = a*q3 xs+b :=
    quantile_affine hxs (by norm_num) (by norm_num) ha b
  refine ⟨h1,h3,?_,?_⟩
  · rw [lower, lower, h1, h3]
    ring
  · rw [upper, upper, h1, h3]
    ring

/-- A distance is in the unit. -/
theorem exceeds_rescale [FloorRing K] {cfg : Config K} (hmin : 1 ≤ cfg.minSamples)
    (window : List K) (v d : K) :
    Exceeds cfg (window.map (fun x => a*x+b)) (a*v+b) d ↔
      ∃ d', Exceeds cfg window v d' ∧ a*d' = d := by
  have hlt : ∀ x y, a*x+b < a*y+b ↔ x < y := fun x y => by
    rw [add_lt_add_iff_right, mul_lt_mul_iff_right₀ ha]
  unfold Exceeds
  rw [List.length_map]
  constructor
  · rintro ⟨hmany,hspread,hside⟩
    have hne : window ≠ [] := List.ne_nil_of_length_pos (by omega)
    obtain ⟨h1,h3,hlower,hupper⟩ := fences_rescale ha b cfg hne
    rw [h1, h3, hlt] at hspread
    rw [hlower, hupper, hlt, hlt] at hside
    rcases hside with ⟨hlow,rfl⟩ | ⟨hhigh,rfl⟩
    · exact ⟨_,⟨hmany,hspread,Or.inl ⟨hlow,rfl⟩⟩,by ring⟩
    · exact ⟨_,⟨hmany,hspread,Or.inr ⟨hhigh,rfl⟩⟩,by ring⟩
  · rintro ⟨_,⟨hmany,hspread,hside⟩,rfl⟩
    have hne : window ≠ [] := List.ne_nil_of_length_pos (by omega)
    obtain ⟨h1,h3,hlower,hupper⟩ := fences_rescale ha b cfg hne
    rw [h1, h3, hlower, hupper, hlt, hlt, hlt]
    refine ⟨hmany,hspread,?_⟩
    rcases hside with ⟨hlow,rfl⟩ | ⟨hhigh,rfl⟩
    · exact Or.inl ⟨hlow,by ring⟩
    · exact Or.inr ⟨hhigh,by ring⟩

/-- The states of the two runs. -/
structure Rescaled [FloorRing K] (root : K → K) (a b : K) (cfg : Config K) (s s' : State K) :
    Prop where
  synced : Synced (exact root) (fun _ => True) cfg.windowSize s
  synced' : Synced (exact root) (fun _ => True) cfg.windowSize s'
  window : s'.window = s.window.map (fun x => a*x+b)

theorem detect_rescale [FloorRing K] (root : K → K) {cfg : Config K}
    (hcfg : init (exact root) cfg = .ok ()) (draw : Draw) {s s' : State K}
    (hs : Rescaled root a b cfg s s') (r : Sample K) :
    severity (detect (exact root) cfg draw s' (rescaleSample a b r)).1 =
        (severity (detect (exact root) cfg draw s r).1).map (fun d => a*d) ∧
      Rescaled root a b cfg (detect (exact root) cfg draw s r).2
        (detect (exact root) cfg draw s' (rescaleSample a b r)).2 := by
  obtain ⟨hsize,hmin,_⟩ := init_ok hcfg
  have hread := readMetric_rescale root a b cfg.sourceDict cfg.metricKey r
  rcases readMetric_exact root cfg.sourceDict cfg.metricKey r with h | ⟨v,h⟩
  · rw [h] at hread
    rw [detect_skip h, detect_skip hread]
    exact ⟨rfl,hs⟩
  · rw [h] at hread
    obtain ⟨hnext,_,hok,hfires⟩ := detect_number root hcfg draw hs.synced h
    obtain ⟨hnext',_,hok',hfires'⟩ := detect_number root hcfg draw hs.synced' hread
    constructor
    · apply Option.ext
      intro d
      rw [severity_iff hok', hfires', hs.window, exceeds_rescale ha b (by omega),
        Option.map_eq_some_iff]
      apply exists_congr
      intro d'
      rw [severity_iff hok, hfires]
    · rw [hnext, hnext']
      refine ⟨(add_synced (ordered_exact root) (by omega) hs.synced trivial).1,
        (add_synced (ordered_exact root) (by omega) hs.synced' trivial).1,?_⟩
      rw [add_remaining, add_remaining, hs.window]
      exact recent_map (fun x => a*x+b) cfg.windowSize s.window v

theorem severities_rescale [FloorRing K] (root : K → K) {cfg : Config K}
    (hcfg : init (exact root) cfg = .ok ()) (ops : List (Op K)) :
    severities (detect (exact root) cfg) reset ⟨[],[]⟩ (ops.map (rescale a b)) =
      (severities (detect (exact root) cfg) reset ⟨[],[]⟩ ops).map
        (Option.map (fun d => a*d)) := by
  obtain ⟨hsize,_⟩ := init_ok hcfg
  have hstart : ∀ s s' : State K, Rescaled root a b cfg (reset s) (reset s') :=
    fun _ _ => ⟨synced_start (by omega),synced_start (by omega),rfl⟩
  apply severities_onSample (R := Rescaled root a b cfg)
  · exact fun s s' _ => hstart s s'
  · exact fun draw s s' r hs => detect_rescale ha b root hcfg draw hs r
  · exact hstart ⟨[],[]⟩ ⟨[],[]⟩

end Iqr

/-- Both detectors fire in the same calls whatever the unit of the metric. -/
theorem unit_does_not_matter [FloorRing K] (roots : SquareRoot K) (root : K → K) {a : K}
    (ha : 0 < a) (b : K) (ops : List (Op K)) :
    (∀ cfg, ZScore.init (exact roots.root) cfg = .ok () →
      severities (ZScore.detect (exact roots.root) cfg) ZScore.reset [] (ops.map (rescale a b)) =
        severities (ZScore.detect (exact roots.root) cfg) ZScore.reset [] ops) ∧
    ∀ cfg, Iqr.init (exact root) cfg = .ok () →
      severities (Iqr.detect (exact root) cfg) Iqr.reset ⟨[],[]⟩ (ops.map (rescale a b)) =
        (severities (Iqr.detect (exact root) cfg) Iqr.reset ⟨[],[]⟩ ops).map
          (Option.map (fun d => a*d)) :=
  ⟨fun _ hcfg => ZScore.severities_rescale ha b roots hcfg ops,
    fun _ hcfg => Iqr.severities_rescale ha b root hcfg ops⟩

/-- The square roots of the reals. -/
noncomputable def realRoots : SquareRoot ℝ where
  root := Real.sqrt
  nonneg x _ := Real.sqrt_nonneg x
  mul_self _ h := Real.mul_self_sqrt h

def metre : ZScore.Config ℝ := ⟨"metric",(3 : ℤ),10,2,"enrichment"⟩

theorem unit_does_not_matter_sample :
    severities (ZScore.detect (exact realRoots.root) metre) ZScore.reset []
        ((feed "metric" [0,2,9]).map (rescale 2 1)) =
      severities (ZScore.detect (exact realRoots.root) metre) ZScore.reset []
        (feed "metric" [0,2,9]) := by
  have hcfg : ZScore.init (exact realRoots.root) metre = .ok () :=
    ZScore.init_accepts realRoots.root (by decide) (by norm_num [metre]) (by decide)
      (Or.inl rfl) (by decide)
  exact (unit_does_not_matter realRoots id two_pos 1 (feed "metric" [0,2,9])).1 metre hcfg

end PipelineX.Detectors
