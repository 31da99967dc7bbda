import PipelineX.SequenceDetector
import Mathlib.Data.Set.Card

/-!
# The score of a trace

The detector fires on the share of a trace's distinct n-grams that the model
does not know. A model that knows more and a threshold that is higher leave
fewer traces to fire on, and lower scores.
-/

set_option autoImplicit false

namespace PipelineX.SequenceDetector
open PipelineX.Records

/-- The pieces of length `n` of a sequence. -/
def pieces {α : Type} (events : List α) (n : ℤ) : Set (List α) :=
  {g | g <:+: events ∧ g.length = n}

/-- The share of the distinct pieces that are not in `M`. -/
noncomputable def share {α : Type} (M : Finset (List α)) (events : List α) (n : ℤ) : ℚ :=
  (pieces events n \ M).ncard/(pieces events n).ncard

section
variable {α : Type}

theorem mem_ngrams_iff_piece {events g : List α} {n : ℤ} (hn : 0 < n) :
    g ∈ ngrams events n ↔ g ∈ pieces events n := by
  rw [mem_ngrams, pieces, Set.mem_ofPred_eq, and_comm (a := g <:+: events)]
  exact and_iff_right hn

theorem ngrams_eq_nil_iff {events : List α} {n : ℤ} :
    ngrams events n = [] ↔ n ≤ 0 ∨ events.length < n := by
  unfold ngrams
  split
  · next h => exact ⟨fun _ => h,fun _ => rfl⟩
  · next h =>
    refine ⟨fun hnil => ?_,fun hn => absurd hn h⟩
    have hlen := congrArg List.length hnil
    simp at hlen

end

theorem coe_observedSet (m : SequenceModel) (trace : BlockTrace) (hn : 0 < m.n) :
    (observedSet m trace : Set (List String)) = pieces trace.eventSequence m.n := by
  ext g
  rw [observedSet, List.coe_toFinset, Set.mem_ofPred_eq, mem_ngrams_iff_piece hn]

theorem ratio_eq_share (m : SequenceModel) (trace : BlockTrace) (hn : 0 < m.n) :
    ratio m trace = share m.normalNgrams trace.eventSequence m.n := by
  unfold ratio share
  rw [← coe_observedSet m trace hn, ← Finset.coe_sdiff, Set.ncard_coe_finset, Set.ncard_coe_finset]
  rfl

theorem ratio_le_one (m : SequenceModel) (trace : BlockTrace) : ratio m trace ≤ 1 := by
  have hsub : (novel m trace).card ≤ (observedSet m trace).card :=
    Finset.card_le_card Finset.sdiff_subset
  refine div_le_one_of_le₀ ?_ (Nat.cast_nonneg _)
  exact_mod_cast hsub

/-- A model that knows more finds less that is novel. -/
theorem ratio_anti {m m' : SequenceModel} (hn : m.n = m'.n)
    (hM : m.normalNgrams ⊆ m'.normalNgrams) (trace : BlockTrace) :
    ratio m' trace ≤ ratio m trace := by
  have hobserved : observedSet m' trace = observedSet m trace := by
    rw [observedSet, observedSet, hn]
  have hnovel : novel m' trace ⊆ novel m trace := by
    unfold novel
    rw [hobserved]
    exact Finset.sdiff_subset_sdiff (Finset.Subset.refl _) hM
  have hcard : ((novel m' trace).card : ℚ) ≤ (novel m trace).card := by
    exact_mod_cast Finset.card_le_card hnovel
  unfold ratio
  rw [hobserved]
  exact div_le_div_of_nonneg_right hcard (Nat.cast_nonneg _)

theorem detectTrace_isSome_iff (d : SequenceAnomalyDetector) (trace : BlockTrace)
    (id anchor : UUID) (detectedAt : Datetime) :
    (detectTrace d trace id anchor detectedAt).isSome ↔
      1 ≤ d.model.n ∧ d.model.n ≤ trace.eventSequence.length ∧
        d.threshold < ratio d.model trace := by
  unfold detectTrace
  split
  · next h =>
    have hshort := ngrams_eq_nil_iff.mp h
    simp only [Option.isSome_none, Bool.false_eq_true, false_iff]
    omega
  · next h =>
    have hlong := mt ngrams_eq_nil_iff.mpr h
    split
    · next hle => simp [not_lt.mpr hle]
    · next hlt =>
      simp only [Option.isSome_some, true_iff]
      exact ⟨by omega,by omega,not_le.mp hlt⟩

theorem detectTrace_score {d : SequenceAnomalyDetector} {trace : BlockTrace} {id anchor : UUID}
    {detectedAt : Datetime} {a : AnomalyEvent}
    (h : detectTrace d trace id anchor detectedAt = some a) :
    a.severityScore = ratio d.model trace := by
  unfold detectTrace at h
  split at h
  · cases h
  · split at h
    · cases h
    · cases h
      rfl

/-- `detect_trace` fires exactly when the trace is long enough and the share of
its distinct n-grams that the model does not know exceeds the threshold; the
share is the score. What fires with more normal n-grams and a higher threshold
fires with fewer and a lower one, with a score that is at least as large. -/
theorem scoring_exact_monotone {d d' : SequenceAnomalyDetector} (hn : d.model.n = d'.model.n)
    (hM : d.model.normalNgrams ⊆ d'.model.normalNgrams) (ht : d.threshold ≤ d'.threshold)
    (trace : BlockTrace) (id id' anchor anchor' : UUID) (detectedAt detectedAt' : Datetime) :
    ((detectTrace d trace id anchor detectedAt).isSome ↔
      1 ≤ d.model.n ∧ d.model.n ≤ trace.eventSequence.length ∧
        d.threshold < share d.model.normalNgrams trace.eventSequence d.model.n) ∧
    (∀ a, detectTrace d trace id anchor detectedAt = some a →
      a.severityScore = share d.model.normalNgrams trace.eventSequence d.model.n ∧
      0 < a.severityScore ∧ a.severityScore ≤ 1) ∧
    ∀ a', detectTrace d' trace id' anchor' detectedAt' = some a' →
      ∃ a, detectTrace d trace id anchor detectedAt = some a ∧
        a'.severityScore ≤ a.severityScore := by
  have hfires := detectTrace_isSome_iff d trace id anchor detectedAt
  refine ⟨?_,fun a ha => ?_,fun a' ha' => ?_⟩
  · rw [hfires]
    refine and_congr_right fun hpos => ?_
    rw [ratio_eq_share d.model trace (by omega)]
  · obtain ⟨hpos,_,hlt⟩ := hfires.mp (by rw [ha]; rfl)
    rw [detectTrace_score ha]
    exact ⟨ratio_eq_share d.model trace (by omega),d.threshold_nonneg.trans_lt hlt,
      ratio_le_one d.model trace⟩
  · obtain ⟨hpos,hlong,hlt⟩ :=
      (detectTrace_isSome_iff d' trace id' anchor' detectedAt').mp (by rw [ha']; rfl)
    have hle := ratio_anti hn hM trace
    obtain ⟨a,ha⟩ := Option.isSome_iff_exists.mp
      (hfires.mpr ⟨hn ▸ hpos,hn ▸ hlong,(ht.trans_lt hlt).trans_le hle⟩)
    refine ⟨a,ha,?_⟩
    rw [detectTrace_score ha, detectTrace_score ha']
    exact hle

/-- A model that knows one of two bigrams, against one that knows none. -/
theorem one_bigram_known :
    let d : SequenceAnomalyDetector := ⟨⟨2,∅,∅⟩,0,le_refl 0⟩
    let d' : SequenceAnomalyDetector := ⟨⟨2,{["E5","E22"]},∅⟩,0,le_refl 0⟩
    let trace : BlockTrace := ⟨"blk_1",["E5","E22","E9"],[0,1,2],0,1,3,0,.shutdown⟩
    ((detectTrace d trace 0 0 0).isSome ↔ (1 : ℤ) ≤ 2 ∧ (2 : ℤ) ≤ 3 ∧
      0 < share d.model.normalNgrams trace.eventSequence 2) ∧
    (∀ a, detectTrace d trace 0 0 0 = some a →
      a.severityScore = share d.model.normalNgrams trace.eventSequence 2 ∧
      0 < a.severityScore ∧ a.severityScore ≤ 1) ∧
    ∀ a', detectTrace d' trace 1 1 1 = some a' →
      ∃ a, detectTrace d trace 0 0 0 = some a ∧ a'.severityScore ≤ a.severityScore := by
  intro d d' trace
  have hn : d.model.n = d'.model.n := rfl
  exact scoring_exact_monotone hn (Finset.empty_subset _) (le_refl _) trace 0 1 0 1 0 1

end PipelineX.SequenceDetector
