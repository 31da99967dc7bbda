import PipelineX.DetectorFaults
import PipelineX.IqrViews

/-!
# The undefined number in the interquartile window

The sorted view never lets go of it: it is unequal to itself. Without it the two
views stay the same, infinities or not.
-/

set_option autoImplicit false

namespace PipelineX.Detectors.Iqr
open PipelineX.Records

variable {compensated : Bool} {cfg : Config Float64} {s : State Float64}

/-- One copy of the oldest sample leaves the sorted view, or nothing does. -/
theorem evict_cases (compensated : Bool) (sorted : List Float64) (old : Float64) :
    evict (float64 compensated) sorted old = sorted ∨
      old ≠ .nan ∧ sorted.Perm (old::evict (float64 compensated) sorted old) := by
  unfold evict
  dsimp only
  split
  · next x hx =>
    split
    · next heq =>
      obtain ⟨rfl,hdefined⟩ := Double.eq_of_eq heq
      obtain ⟨hlt,hget⟩ := List.getElem?_eq_some_iff.mp hx
      have hperm := List.getElem_cons_eraseIdx_perm hlt
      rw [hget] at hperm
      exact Or.inr ⟨hdefined,hperm.symm⟩
    · exact Or.inl rfl
  · exact Or.inl rfl

theorem nan_remains (h : .nan ∈ s.sorted) : .nan ∈ remaining (float64 compensated) cfg s := by
  unfold remaining
  split
  · split
    · next old _ =>
      rcases evict_cases compensated s.sorted old with hsame | ⟨hdefined,hperm⟩
      · rw [hsame]
        exact h
      · exact (List.mem_cons.mp (hperm.mem_iff.mp h)).resolve_left hdefined.symm
    · exact h
  · exact h

/-- The sorted view has at least the samples of the window. -/
structure Covers (n : ℤ) (s : State Float64) : Prop where
  length : s.window.length ≤ n
  subperm : s.window.Subperm s.sorted

theorem remaining_covers (hn : 0 < cfg.windowSize) (v : Float64) (h : Covers cfg.windowSize s) :
    (push cfg.windowSize s.window v).Subperm (v::remaining (float64 compensated) cfg s) := by
  rcases remaining_cases (float64 compensated) v hn h.length with
    ⟨hsame,hpush⟩ | ⟨old,rest,hw,hevict,hpush⟩
  · rw [hsame, hpush]
    exact (List.perm_append_singleton v s.window).subperm.trans
      ((List.subperm_cons v).mpr h.subperm)
  · have hsub : (old::rest).Subperm s.sorted := hw ▸ h.subperm
    rw [hevict, hpush]
    refine (List.perm_append_singleton v rest).subperm.trans ((List.subperm_cons v).mpr ?_)
    rcases evict_cases compensated s.sorted old with hsame | ⟨_,hperm⟩
    · rw [hsame]
      exact (List.sublist_cons_self old rest).subperm.trans hsub
    · exact (List.subperm_cons old).mp (hsub.trans hperm.subperm)

theorem add_covers (compensated : Bool) (hn : 0 < cfg.windowSize) (v : Float64)
    (h : Covers cfg.windowSize s) :
    Covers cfg.windowSize (add (float64 compensated) cfg s v) := by
  rw [add_remaining]
  exact ⟨push_length v hn h.length,
    (remaining_covers hn v h).trans (Bisect.insort_perm _ _ v).symm.subperm⟩

theorem detect_adds (draw : Draw) {r : Sample Float64} {v : Float64}
    (hcfg : init (float64 compensated) cfg = .ok ())
    (hv : readMetric (float64 compensated) cfg.sourceDict cfg.metricKey r = some (.ok v))
    (hroom : s.sorted.length ≤ cfg.windowSize) :
    (detect (float64 compensated) cfg draw s r).2 = add (float64 compensated) cfg s v := by
  obtain ⟨bounds,hbounds⟩ := bounds_ok hcfg hroom
  rw [detect, hv]
  dsimp only
  rw [hbounds]
  cases bounds with
  | none => rfl
  | some fences =>
    dsimp only
    split <;> rfl

/-- A call adds its number or leaves the state. -/
theorem detect_state (draw : Draw) {r : Sample Float64} {v : Float64}
    (hv : readMetric (float64 compensated) cfg.sourceDict cfg.metricKey r = some (.ok v)) :
    (detect (float64 compensated) cfg draw s r).2 = s ∨
      (detect (float64 compensated) cfg draw s r).2 = add (float64 compensated) cfg s v := by
  rw [detect, hv]
  dsimp only
  split
  · exact Or.inl rfl
  · exact Or.inr rfl
  · split <;> exact Or.inr rfl

theorem detect_skips (draw : Draw) {r : Sample Float64}
    (hskip : ∀ v, readMetric (float64 compensated) cfg.sourceDict cfg.metricKey r ≠
      some (.ok v)) : (detect (float64 compensated) cfg draw s r).2 = s := by
  unfold detect
  split
  · rfl
  · rfl
  · next v hv => exact absurd hv (hskip v)

/-- Between calls, with the numbers since the last reset. Without an undefined one
among them the views are the same; once there is one it stays. -/
structure Tracks (compensated : Bool) (cfg : Config Float64) (s : State Float64)
    (xs : List Float64) : Prop where
  covers : Covers cfg.windowSize s
  synced : .nan ∉ xs → Synced (float64 compensated) (· ≠ .nan) cfg.windowSize s ∧
    s.window = recent cfg.windowSize xs
  stays : .nan ∈ xs → .nan ∈ s.sorted

theorem tracks_start (hcfg : init (float64 compensated) cfg = .ok ()) :
    Tracks compensated cfg ⟨[],[]⟩ [] := by
  have hsize : 0 ≤ cfg.windowSize := by
    have := (init_ok hcfg).1
    omega
  exact ⟨⟨hsize,List.Subperm.refl _⟩,fun _ => ⟨synced_start hsize,(recent_nil _).symm⟩,
    fun h => by cases h⟩

theorem detect_tracks (hcfg : init (float64 compensated) cfg = .ok ()) (draw : Draw)
    {r : Sample Float64} {xs : List Float64} {v : Float64} (h : Tracks compensated cfg s xs)
    (hv : readMetric (float64 compensated) cfg.sourceDict cfg.metricKey r = some (.ok v)) :
    Tracks compensated cfg (detect (float64 compensated) cfg draw s r).2 (xs ++ [v]) := by
  have hsize := (init_ok hcfg).1
  have hcovers := add_covers compensated (by omega) v h.covers
  have hmem := Bisect.insort_perm Double.lt (remaining (float64 compensated) cfg s) v
  by_cases hclean : .nan ∈ xs
  · have hnan : .nan ∈ (add (float64 compensated) cfg s v).sorted := by
      rw [add_remaining]
      exact hmem.mem_iff.mpr (List.mem_cons_of_mem _ (nan_remains (h.stays hclean)))
    have hbad : .nan ∈ xs ++ [v] := List.mem_append_left _ hclean
    rcases detect_state draw hv with hsame | hadd
    · rw [hsame]
      exact ⟨h.covers,fun hnot => absurd hbad hnot,fun _ => h.stays hclean⟩
    · rw [hadd]
      exact ⟨hcovers,fun hnot => absurd hbad hnot,fun _ => hnan⟩
  · obtain ⟨hsynced,hwindow⟩ := h.synced hclean
    rw [detect_adds draw hcfg hv (hsynced.perm.length_eq ▸ hsynced.length)]
    refine ⟨hcovers,fun hnot => ?_,fun hbad => ?_⟩
    · have hdefined : v ≠ .nan := fun h => hnot (h ▸ List.mem_append_right _ List.mem_cons_self)
      refine ⟨(add_synced (ordered_defined compensated) (by omega) hsynced hdefined).1,?_⟩
      rw [add_remaining, hwindow, push_recent (by omega)]
    · have hlast := List.mem_singleton.mp ((List.mem_append.mp hbad).resolve_left hclean)
      rw [add_remaining, hlast]
      exact (Bisect.insort_perm _ _ v).mem_iff.mpr List.mem_cons_self

theorem after_tracks (hcfg : init (float64 compensated) cfg = .ok ()) (ops : List (Op Float64)) :
    Tracks compensated cfg (after (detect (float64 compensated) cfg) reset ⟨[],[]⟩ ops)
      (admitted (float64 compensated) cfg.sourceDict cfg.metricKey [] ops) := by
  apply after_relates (R := Tracks compensated cfg) (float64 compensated)
  · exact fun _ => tracks_start hcfg
  · intro draw s r xs hs hskip
    rw [detect_skips draw hskip]
    exact hs
  · exact fun draw s r xs v hs hv => detect_tracks hcfg draw hs hv
  · exact tracks_start hcfg

/-- The two views have one size, and no more than the window takes. -/
def SameSize (cfg : Config Float64) (s : State Float64) : Prop :=
  s.sorted.length = s.window.length ∧ s.sorted.length ≤ cfg.windowSize

/-- The state after some calls and then these numbers. -/
def fed (compensated : Bool) (cfg : Config Float64) (ops : List (Op Float64))
    (vs : List Float64) : State Float64 :=
  after (detect (float64 compensated) cfg) reset ⟨[],[]⟩ (ops ++ feed cfg.metricKey vs)

theorem fed_append (ops : List (Op Float64)) (vs : List Float64) (v : Float64) :
    fed compensated cfg ops (vs ++ [v]) = (detect (float64 compensated) cfg ⟨0,0⟩
      (fed compensated cfg ops vs) (sample cfg.metricKey v)).2 := by
  rw [fed, feed_append, ← List.append_assoc, after_append]
  rfl

theorem fed_tracks (hcfg : init (float64 compensated) cfg = .ok ()) (ops : List (Op Float64))
    (vs : List Float64) : Tracks compensated cfg (fed compensated cfg ops vs)
      (admitted (float64 compensated) cfg.sourceDict cfg.metricKey [] ops ++ vs) := by
  have h := after_tracks hcfg (ops ++ feed cfg.metricKey vs)
  rwa [admitted_append, admitted_feed] at h

/-- As long as the sizes agree the numbers enter the window. -/
theorem fed_window (hcfg : init (float64 compensated) cfg = .ok ()) {ops : List (Op Float64)}
    (hsame : ∀ vs, .nan ∉ vs → SameSize cfg (fed compensated cfg ops vs)) {vs : List Float64}
    (hvs : .nan ∉ vs) : (fed compensated cfg ops vs).window =
      recent cfg.windowSize ((fed compensated cfg ops []).window ++ vs) := by
  have hsize := (init_ok hcfg).1
  induction vs using List.reverseRecOn with
  | nil =>
    rw [List.append_nil, recent_all (fed_tracks hcfg ops []).covers.length]
  | append_singleton vs v ih =>
    have hfront : .nan ∉ vs := fun h => hvs (List.mem_append_left _ h)
    have hv := readMetric_sample (float64 compensated) cfg.sourceDict cfg.metricKey v
    rw [fed_append, detect_adds _ hcfg hv (hsame vs hfront).2, add_remaining, ih hfront,
      push_recent (by omega), List.append_assoc]

theorem nan_replicate (n : ℕ) : .nan ∉ List.replicate n one :=
  fun h => absurd (List.eq_of_mem_replicate h) (by simp [one])

/-- Once there is an undefined number in the sorted view, a window of others later
the sorted view is larger than the window. -/
theorem nan_grows (hcfg : init (float64 compensated) cfg = .ok ()) {ops : List (Op Float64)}
    (hnan : .nan ∈ admitted (float64 compensated) cfg.sourceDict cfg.metricKey [] ops) :
    ∃ vs, .nan ∉ vs ∧ ¬SameSize cfg (fed compensated cfg ops vs) := by
  by_contra hnone
  push Not at hnone
  have hsize := (init_ok hcfg).1
  have hvs := nan_replicate cfg.windowSize.toNat
  have htracks := fed_tracks hcfg ops (List.replicate cfg.windowSize.toNat one)
  have hwindow := fed_window hcfg hnone hvs
  have hlength := List.length_replicate (n := cfg.windowSize.toNat) (a := one)
  rw [recent_append _ (by omega), recent_all (by omega)] at hwindow
  have hperm := htracks.covers.subperm.perm_of_length_le (hnone _ hvs).1.le
  have hmem := hperm.mem_iff.mpr (htracks.stays (List.mem_append_left _ hnan))
  rw [hwindow] at hmem
  exact hvs hmem

/-- The two views stay the same size whatever comes, and a sample leaves both a
window later, exactly when no undefined number came since the last reset. -/
theorem same_size_iff (hcfg : init (float64 compensated) cfg = .ok ()) (ops : List (Op Float64)) :
    ((∀ vs, .nan ∉ vs → SameSize cfg (fed compensated cfg ops vs)) ↔
      .nan ∉ admitted (float64 compensated) cfg.sourceDict cfg.metricKey [] ops) ∧
    ((∀ vs, .nan ∉ vs → cfg.windowSize ≤ vs.length →
        ∀ x ∈ (fed compensated cfg ops vs).sorted, x ∈ vs) ↔
      .nan ∉ admitted (float64 compensated) cfg.sourceDict cfg.metricKey [] ops) := by
  have hsize := (init_ok hcfg).1
  refine ⟨⟨fun hsame hnan => ?_,fun hclean vs hvs => ?_⟩,
    ⟨fun hleaves hnan => ?_,fun hclean vs hvs hlong x hx => ?_⟩⟩
  · obtain ⟨vs,hvs,hgrows⟩ := nan_grows hcfg hnan
    exact hgrows (hsame vs hvs)
  · have hnot := List.not_mem_append hclean hvs
    obtain ⟨hsynced,_⟩ := (fed_tracks hcfg ops vs).synced hnot
    exact ⟨hsynced.perm.length_eq,hsynced.perm.length_eq ▸ hsynced.length⟩
  · have hvs := nan_replicate cfg.windowSize.toNat
    have htracks := fed_tracks hcfg ops (List.replicate cfg.windowSize.toNat one)
    refine hvs (hleaves _ hvs ?_ _ (htracks.stays (List.mem_append_left _ hnan)))
    rw [List.length_replicate]
    omega
  · have hnot := List.not_mem_append hclean hvs
    obtain ⟨hsynced,hwindow⟩ := (fed_tracks hcfg ops vs).synced hnot
    have hmem := hsynced.perm.mem_iff.mp hx
    rw [hwindow, recent_append _ hlong] at hmem
    exact List.mem_of_mem_drop hmem

/-- Infinities come and go like other numbers. -/
theorem same_size_infinite :
    SameSize iqrConfig (fed true iqrConfig (feed "metric" [.inf true,.inf false])
      [.inf true,one,.inf false,one,one]) ∧
    ∀ x ∈ (fed true iqrConfig (feed "metric" [.inf true,.inf false])
      [Double.zero,one,one,one]).sorted, x ∈ [Double.zero,one,one,one] := by
  have hclean : .nan ∉ admitted (float64 true) "enrichment" "metric" []
      (feed "metric" [.inf true,.inf false]) := by
    change .nan ∉ [Double.inf true,.inf false]
    simp
  obtain ⟨hsize,hleaves⟩ := same_size_iff (iqrConfig_ok true)
    (feed "metric" [.inf true,.inf false])
  exact ⟨hsize.mpr hclean _ (by simp [one]),
    hleaves.mpr hclean _ (by simp [one, Double.zero]) (le_refl 4)⟩

/-- A window of four samples later the undefined number is still there. -/
theorem nan_sample_stays : init (float64 true) iqrConfig = .ok () ∧
    .nan ∈ (fed true iqrConfig [] [.nan,one,one,one,one]).sorted ∧
    ¬SameSize iqrConfig (fed true iqrConfig [] [.nan,one,one,one,one]) := by
  have htracks := fed_tracks (iqrConfig_ok true) [] [.nan,one,one,one,one]
  refine ⟨iqrConfig_ok true,htracks.stays List.mem_cons_self,fun h => ?_⟩
  exact absurd h.1 (by decide +kernel)

end PipelineX.Detectors.Iqr
