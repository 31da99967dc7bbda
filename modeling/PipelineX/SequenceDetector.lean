import PipelineX.Records
import Mathlib.Data.Finset.Sort
import Mathlib.Data.List.Lex
import Mathlib.Data.String.Basic
import Mathlib.Data.List.Infix
import Mathlib.Tactic.Positivity
import Mathlib.Algebra.Order.Field.Rat

/-!
# `SequenceAnomalyDetector`

The n-grams of a sequence are its contiguous pieces of length `n`, so what a
fragment of a sequence shows the detector, the whole sequence shows it too.
The share of novel n-grams is an exact fraction here.
-/

set_option autoImplicit false

namespace PipelineX.SequenceDetector
open PipelineX.Records

section
variable {α : Type}

/-- The generator `ngrams`, run to its end. -/
def ngrams (events : List α) (n : ℤ) : List (List α) :=
  if n ≤ 0 ∨ events.length < n then []
  else (List.range (events.length-n.toNat+1)).map (fun i => (events.drop i).take n.toNat)

theorem mem_ngrams {events g : List α} {n : ℤ} :
    g ∈ ngrams events n ↔ 0 < n ∧ g.length = n ∧ g <:+: events := by
  unfold ngrams
  split
  · next h =>
    refine ⟨fun hg => absurd hg List.not_mem_nil,?_⟩
    rintro ⟨hn,hlen,hin⟩
    have hle := hin.length_le
    omega
  · next h =>
    rw [List.mem_map]
    constructor
    · rintro ⟨i,hi,rfl⟩
      have hi := List.mem_range.mp hi
      refine ⟨by omega,?_,?_⟩
      · rw [List.length_take, List.length_drop]
        omega
      · exact (List.take_prefix _ _).isInfix.trans (List.drop_suffix _ _).isInfix
    · rintro ⟨hn,hlen,s,t,rfl⟩
      have hg : n.toNat = g.length := by omega
      refine ⟨s.length,List.mem_range.mpr ?_,?_⟩
      · simp only [List.length_append] at *
        omega
      · rw [List.append_assoc, List.drop_left, hg, List.take_left]

/-- The n-grams of a piece are n-grams of the whole. -/
theorem ngrams_of_piece {piece events : List α} (h : piece <:+: events) {n : ℤ} {g : List α}
    (hg : g ∈ ngrams piece n) : g ∈ ngrams events n := by
  obtain ⟨hn,hlen,hi⟩ := mem_ngrams.mp hg
  exact mem_ngrams.mpr ⟨hn,hlen,hi.trans h⟩

end

structure SequenceModel where
  n : ℤ
  normalNgrams : Finset (List String)
  vocabulary : Finset String

structure SequenceAnomalyDetector where
  model : SequenceModel
  threshold : ℚ
  threshold_nonneg : 0 ≤ threshold

/-- `set(observed)`. -/
def observedSet (m : SequenceModel) (trace : BlockTrace) : Finset (List String) :=
  (ngrams trace.eventSequence m.n).toFinset

def novel (m : SequenceModel) (trace : BlockTrace) : Finset (List String) :=
  observedSet m trace \ m.normalNgrams

def ratio (m : SequenceModel) (trace : BlockTrace) : ℚ :=
  (novel m trace).card/(observedSet m trace).card

/-- The metadata of the anomaly that `detect_trace` reports. -/
def metadata (m : SequenceModel) (trace : BlockTrace) : OrderedDict String Value where
  items :=
    [("block_id",.str trace.blockId),
     ("n",.int m.n),
     ("novel_ngrams",.lists (((novel m trace).sort (· ≤ ·)).take 20)),
     ("observed_count",.int (observedSet m trace).card),
     ("novel_count",.int (novel m trace).card),
     ("event_sequence_length",.int trace.eventSequence.length),
     ("closed_reason",.str trace.closedReason.text)]
  nodup := by simp

/-- `detect_trace`. What `AnomalyEvent()` draws by default is an input: its
id, the anchor of a trace without records, and the time. -/
def detectTrace (d : SequenceAnomalyDetector) (trace : BlockTrace) (id anchor : UUID)
    (detectedAt : Datetime) : Option AnomalyEvent :=
  if ngrams trace.eventSequence d.model.n = [] then none
  else if ratio d.model trace ≤ d.threshold then none
  else some
    { id := id
      logRecordId := trace.recordIds.head?.getD anchor
      detectorName := "sequence_ngram"
      severityScore := ratio d.model trace
      detectedAt := detectedAt
      metadata := metadata d.model trace }

theorem ratio_pos_iff (m : SequenceModel) (trace : BlockTrace) :
    0 < ratio m trace ↔ (novel m trace).Nonempty := by
  constructor
  · intro h
    by_contra hn
    rw [Finset.not_nonempty_iff_eq_empty] at hn
    simp [ratio, hn] at h
  · intro h
    have hsub : (novel m trace).card ≤ (observedSet m trace).card :=
      Finset.card_le_card Finset.sdiff_subset
    have hpos := Finset.card_pos.mpr h
    have hobs : 0 < (observedSet m trace).card := by omega
    unfold ratio
    positivity

theorem novel_nonempty_iff (m : SequenceModel) (trace : BlockTrace) :
    (novel m trace).Nonempty ↔ ∃ g ∈ ngrams trace.eventSequence m.n, g ∉ m.normalNgrams := by
  simp [novel, observedSet, Finset.Nonempty]

/-- A flagged trace has an n-gram that the model does not know. -/
theorem detectTrace_novel {d : SequenceAnomalyDetector} {trace : BlockTrace} {id anchor : UUID}
    {detectedAt : Datetime} (h : (detectTrace d trace id anchor detectedAt).isSome) :
    ∃ g ∈ ngrams trace.eventSequence d.model.n, g ∉ d.model.normalNgrams := by
  unfold detectTrace at h
  split at h
  · cases h
  · split at h
    · cases h
    · next hr =>
      rw [not_le] at hr
      exact (novel_nonempty_iff _ _).mp
        ((ratio_pos_iff _ _).mp (d.threshold_nonneg.trans_lt hr))

/-- With threshold zero the converse holds. -/
theorem detectTrace_zero {m : SequenceModel} {trace : BlockTrace} {g : List String}
    (hg : g ∈ ngrams trace.eventSequence m.n) (hm : g ∉ m.normalNgrams) (id anchor : UUID)
    (detectedAt : Datetime) :
    (detectTrace ⟨m,0,le_refl 0⟩ trace id anchor detectedAt).isSome := by
  have hr : ¬ ratio m trace ≤ 0 :=
    not_le.mpr ((ratio_pos_iff _ _).mpr ((novel_nonempty_iff _ _).mpr ⟨g,hg,hm⟩))
  have hne : ngrams trace.eventSequence m.n ≠ [] := List.ne_nil_of_mem hg
  simp [detectTrace, hne, hr]

end PipelineX.SequenceDetector
