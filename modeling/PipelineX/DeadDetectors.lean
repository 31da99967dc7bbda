import PipelineX.UnitChange

/-!
# Detectors that never fire

A window that is smaller than the samples it has to hold never holds them. Where
it can, there are samples on which the detector fires.
-/

set_option autoImplicit false

namespace PipelineX.Detectors
open PipelineX.Records PipelineX.Moments PipelineX.Quantile
variable {K : Type} [Field K] [LinearOrder K] [FloorRing K]

/-- Whole samples. -/
def whole (vs : List ℤ) : List K := vs.map Int.cast

omit [LinearOrder K] [FloorRing K] in
theorem whole_append (vs : List ℤ) (n : ℤ) : (whole (vs ++ [n]) : List K) = whole vs ++ [(n : K)] :=
  List.map_append

theorem exists_whole_gt (x : K) : ∃ n : ℤ, x < n :=
  ⟨⌊x⌋+1,by push_cast; exact Int.lt_floor_add_one x⟩

theorem recent_few {F : Type} {n : ℤ} {xs : List F} {m : ℤ} (h : m ≤ (recent n xs).length)
    (hm : 1 ≤ m) : m ≤ n := by
  rw [recent_length] at h
  omega

variable [IsStrictOrderedRing K]

namespace ZScore
variable (roots : SquareRoot K) {cfg : Config K}

/-- A detector that fires has room for the samples that it needs. -/
theorem fires_room (hcfg : init (exact roots.root) cfg = .ok ()) {ops : List (Op K)} {d : K}
    (h : some d ∈ severities (detect (exact roots.root) cfg) reset [] ops) :
    cfg.minSamples ≤ cfg.windowSize := by
  obtain ⟨_,hmin,_⟩ := init_ok hcfg
  obtain ⟨front,draw,r,hd⟩ := mem_severities h
  rcases readMetric_exact roots.root cfg.sourceDict cfg.metricKey r with hnone | ⟨v,hv⟩
  · rw [detect_skip hnone] at hd
    cases hd
  · obtain ⟨_,_,hok,hfires⟩ := detect_number roots (by omega) draw _ hv
    rw [severity_iff hok, hfires, after_recent roots hcfg] at hd
    exact recent_few hd.1 (by omega)

theorem score_gt {xs : List K} (hspread : deviation roots xs ≠ 0) (limit : K) :
    ∃ n : ℤ, limit < |score roots xs n| := by
  have hpos : 0 < deviation roots xs := lt_of_le_of_ne (deviation_nonneg roots xs) hspread.symm
  obtain ⟨n,hn⟩ := exists_whole_gt (Moments.mean xs+limit*deviation roots xs)
  refine ⟨n,lt_of_lt_of_le ?_ (le_abs_self _)⟩
  rw [score, lt_div_iff₀ hpos]
  linarith

/-- As many samples as it takes, not all the same. -/
theorem exists_spread {m : ℤ} (hm : 2 ≤ m) :
    ∃ xs : List ℤ, xs.length = m ∧ deviation roots (whole xs : List K) ≠ 0 := by
  have hzero : (0 : K) ∈ whole (0::1::List.replicate (m.toNat-2) 1) := by simp [whole]
  have hone : (1 : K) ∈ whole (0::1::List.replicate (m.toNat-2) 1) := by simp [whole]
  have hvariance := variance_pos hzero hone zero_ne_one
  refine ⟨0::1::List.replicate (m.toNat-2) 1,?_,fun h => ?_⟩
  · rw [List.length_cons, List.length_cons, List.length_replicate]
    omega
  · have hsquare := roots.mul_self _ hvariance.le
    rw [← deviation, h, mul_zero] at hsquare
    exact hvariance.ne hsquare

/-- A full window, and then a value that is far enough from it. -/
theorem exists_fires (hcfg : init (exact roots.root) cfg = .ok ())
    (hroom : cfg.minSamples ≤ cfg.windowSize) : ∃ vs : List ℤ, ∃ d : K,
      some d ∈ severities (detect (exact roots.root) cfg) reset []
        (feed cfg.metricKey (whole vs)) := by
  obtain ⟨_,hmin,_⟩ := init_ok hcfg
  obtain ⟨xs,hlength,hspread⟩ := exists_spread roots hmin
  obtain ⟨n,hn⟩ := score_gt roots hspread cfg.threshold
  have hwhole : ((whole xs : List K).length : ℤ) = cfg.minSamples := by
    rw [whole, List.length_map, hlength]
  have hwindow : after (detect (exact roots.root) cfg) reset [] (feed cfg.metricKey (whole xs)) =
      whole xs := by
    rw [after_recent roots hcfg, admitted_feed, List.nil_append, recent_all (by omega)]
  have hv := readMetric_sample (exact roots.root) cfg.sourceDict cfg.metricKey (n : K)
  obtain ⟨_,_,hok,hfires⟩ := detect_number roots (by omega) ⟨0,0⟩ (whole xs) hv
  have hsome := (severity_iff hok _).mpr ((hfires _).mpr ⟨hwhole.ge,hspread,hn,rfl⟩)
  rw [← hwindow] at hsome
  have hmem := severity_mem hsome
  rw [← whole_append] at hmem
  exact ⟨xs ++ [n],_,hmem⟩

end ZScore

namespace Iqr
variable (root : K → K) {cfg : Config K}

theorem fires_room (hcfg : init (exact root) cfg = .ok ()) {ops : List (Op K)} {d : K}
    (h : some d ∈ severities (detect (exact root) cfg) reset ⟨[],[]⟩ ops) :
    cfg.minSamples ≤ cfg.windowSize := by
  obtain ⟨_,hmin,_⟩ := init_ok hcfg
  obtain ⟨front,draw,r,hd⟩ := mem_severities h
  have hs := after_naive root hcfg front
  rcases readMetric_exact root cfg.sourceDict cfg.metricKey r with hnone | ⟨v,hv⟩
  · rw [detect_skip hnone] at hd
    cases hd
  · obtain ⟨_,_,hok,hfires⟩ := detect_number root hcfg draw hs.synced hv
    rw [severity_iff hok, hfires, hs.window] at hd
    exact recent_few hd.1 (by omega)

/-- The line through the places themselves. -/
theorem interpolate_places {xs : List K} {rank : K} (h : InRange xs rank)
    (hxs : ∀ i < xs.length, place xs i = i) : interpolate xs rank = rank := by
  have hfloor := h.floor_lt
  rw [interpolate, hxs _ hfloor, hxs _ (h.next_lt _)]
  rcases Nat.lt_or_ge (⌊rank⌋.toNat+1) xs.length with hlt | hlast
  · rw [min_eq_left (by omega)]
    push_cast
    ring
  · have hend : rank ≤ (⌊rank⌋.toNat : ℕ) := by
      have hlength : xs.length = ⌊rank⌋.toNat+1 := by omega
      have hrank := h.last
      rw [hlength] at hrank
      push_cast at hrank
      linarith
    have hwhole : rank = (⌊rank⌋.toNat : ℕ) := le_antisymm hend h.floor_le
    rw [← hwhole, sub_self, zero_mul, add_zero]

/-- As many samples as it takes, spread evenly. -/
theorem exists_spread {m : ℤ} (hm : 4 ≤ m) :
    ∃ xs : List ℤ, xs.length = m ∧ q1 (whole xs : List K) < q3 (whole xs) := by
  have hlength : (whole ((List.range m.toNat).map Int.ofNat) : List K).length = m.toNat := by
    rw [whole, List.length_map, List.length_map, List.length_range]
  have hplaces : ∀ i < (whole ((List.range m.toNat).map Int.ofNat) : List K).length,
      place (whole ((List.range m.toNat).map Int.ofNat) : List K) i = i := by
    intro i hi
    rw [place_eq hi]
    simp [whole]
  have hsorted : (whole ((List.range m.toNat).map Int.ofNat) : List K).Pairwise (· ≤ ·) := by
    rw [List.pairwise_iff_getElem]
    intro i j hi hj hij
    rw [← place_eq hi, ← place_eq hj, hplaces i hi, hplaces j hj]
    exact Nat.cast_le.mpr hij.le
  have hquantile : ∀ p : K, 0 ≤ p → p ≤ 1 →
      quantile (whole ((List.range m.toNat).map Int.ofNat) : List K) p = p*(m.toNat-1) := by
    intro p h0 h1
    have hne : (whole ((List.range m.toNat).map Int.ofNat) : List K) ≠ [] :=
      List.ne_nil_of_length_pos (by omega)
    rw [quantile_eq hsorted (List.Perm.refl _), interpolate_places (inRange_part hne h0 h1) hplaces,
      hlength]
  refine ⟨(List.range m.toNat).map Int.ofNat,?_,?_⟩
  · rw [List.length_map, List.length_range]
    omega
  · have hmany : (4 : K) ≤ m.toNat := by exact_mod_cast (by omega : 4 ≤ m.toNat)
    rw [q1, q3, hquantile _ (by norm_num) (by norm_num), hquantile _ (by norm_num) (by norm_num)]
    linarith

/-- A full window, and then a value above its upper fence. -/
theorem exists_fires (hcfg : init (exact root) cfg = .ok ())
    (hroom : cfg.minSamples ≤ cfg.windowSize) : ∃ vs : List ℤ, ∃ d : K,
      some d ∈ severities (detect (exact root) cfg) reset ⟨[],[]⟩
        (feed cfg.metricKey (whole vs)) := by
  obtain ⟨_,hmin,_⟩ := init_ok hcfg
  obtain ⟨xs,hlength,hspread⟩ := exists_spread (K := K) hmin
  obtain ⟨n,hn⟩ := exists_whole_gt (upper cfg (whole xs))
  have hwhole : ((whole xs : List K).length : ℤ) = cfg.minSamples := by
    rw [whole, List.length_map, hlength]
  have hs := after_naive root hcfg (feed cfg.metricKey (whole xs))
  have hwindow := hs.window
  rw [admitted_feed, List.nil_append, recent_all (by omega)] at hwindow
  have hv := readMetric_sample (exact root) cfg.sourceDict cfg.metricKey (n : K)
  obtain ⟨_,_,hok,hfires⟩ := detect_number root hcfg ⟨0,0⟩ hs.synced hv
  rw [hwindow] at hfires
  have hsome := (severity_iff hok _).mpr
    ((hfires _).mpr ⟨hwhole.ge,hspread,Or.inr ⟨hn,rfl⟩⟩)
  have hmem := severity_mem hsome
  rw [← whole_append] at hmem
  exact ⟨xs ++ [n],_,hmem⟩

end Iqr

/-- There are samples on which an accepted detector fires exactly when its
window has room for the samples that it needs; else it fires in no run. -/
theorem fires_iff_room (roots : SquareRoot K) (root : K → K) :
    (∀ cfg, ZScore.init (exact roots.root) cfg = .ok () →
      (cfg.minSamples ≤ cfg.windowSize → ∃ vs : List ℤ, ∃ d : K,
        some d ∈ severities (ZScore.detect (exact roots.root) cfg) ZScore.reset []
          (feed cfg.metricKey (whole vs))) ∧
      ((∃ ops, ∃ d : K, some d ∈ severities (ZScore.detect (exact roots.root) cfg)
        ZScore.reset [] ops) → cfg.minSamples ≤ cfg.windowSize)) ∧
    ∀ cfg, Iqr.init (exact root) cfg = .ok () →
      (cfg.minSamples ≤ cfg.windowSize → ∃ vs : List ℤ, ∃ d : K,
        some d ∈ severities (Iqr.detect (exact root) cfg) Iqr.reset ⟨[],[]⟩
          (feed cfg.metricKey (whole vs))) ∧
      ((∃ ops, ∃ d : K, some d ∈ severities (Iqr.detect (exact root) cfg)
        Iqr.reset ⟨[],[]⟩ ops) → cfg.minSamples ≤ cfg.windowSize) := by
  constructor
  · intro cfg hcfg
    exact ⟨ZScore.exists_fires roots hcfg,fun ⟨_,_,h⟩ => ZScore.fires_room roots hcfg h⟩
  · intro cfg hcfg
    exact ⟨Iqr.exists_fires root hcfg,fun ⟨_,_,h⟩ => Iqr.fires_room root hcfg h⟩

/-- The windowed z-score fires with its defaults. -/
theorem fires_iff_room_defaults : ∃ vs : List ℤ, ∃ d : ℝ, some d ∈ severities
    (ZScore.detect (exact realRoots.root) ⟨"metric",3,100,30,"enrichment"⟩) ZScore.reset []
    (feed "metric" (whole vs)) := by
  have hcfg : ZScore.init (exact realRoots.root) ⟨"metric",3,100,30,"enrichment"⟩ = .ok () :=
    ZScore.init_accepts realRoots.root (by decide) (by norm_num) (by decide) (Or.inl rfl)
      (by decide)
  exact ((fires_iff_room realRoots realRoots.root).1 _ hcfg).1 (by decide)

/-- A window of ten samples, and the thirty that a detector needs by default. -/
def smallZScore : ZScore.Config ℝ := ⟨"metric",(3 : ℤ),10,30,"enrichment"⟩

def smallIqr : Iqr.Config ℚ := ⟨"metric",3/2,10,30,"enrichment"⟩

theorem small_window_is_dead :
    (ZScore.init (exact realRoots.root) smallZScore = .ok () ∧ ¬∃ ops, ∃ d : ℝ,
      some d ∈ severities (ZScore.detect (exact realRoots.root) smallZScore) ZScore.reset [] ops) ∧
    Iqr.init (exact id) smallIqr = .ok () ∧ ¬∃ ops, ∃ d : ℚ,
      some d ∈ severities (Iqr.detect (exact id) smallIqr) Iqr.reset ⟨[],[]⟩ ops := by
  have hz : ZScore.init (exact realRoots.root) smallZScore = .ok () :=
    ZScore.init_accepts realRoots.root (by decide) (by norm_num [smallZScore]) (by decide)
      (Or.inl rfl) (by decide)
  have hi : Iqr.init (exact id) smallIqr = .ok () := by decide +kernel
  refine ⟨⟨hz,?_⟩,hi,?_⟩
  · rintro ⟨ops,d,h⟩
    exact absurd (ZScore.fires_room realRoots hz h) (by decide)
  · rintro ⟨ops,d,h⟩
    exact absurd (Iqr.fires_room id hi h) (by decide)

end PipelineX.Detectors
