import PipelineX.SessionizerPartition
import PipelineX.SequenceDetector
import PipelineX.Stages

/-!
# Online fragments against whole blocks

The offline evaluator scores a block by all its events; the pipeline scores
the traces that the sessionizer cut the block into. A fragment is a
contiguous piece of the block's sequence, so it shows no n-gram that the
whole does not have.
-/

set_option autoImplicit false

namespace PipelineX.BlockScoring
open PipelineX.Records PipelineX.Sessionizer PipelineX.SessionizerPartition
open PipelineX.SequenceDetector PipelineX.Stages

/-- One parsed line in the loop of `amain`: its event goes to the list of its
block. Where the event id comes from is a parameter. -/
def assembleLine (eventId : LogRecord → Option String) (blockIdKey : String)
    (blockEvents : OrderedDict String (List String)) (r : LogRecord) :
    OrderedDict String (List String) :=
  match r.enrichment.get? blockIdKey with
  | some (.str b) =>
    match eventId r with
    | none => blockEvents
    | some e => blockEvents.insert b ((blockEvents.get? b).getD [] ++ [e])
  | _ => blockEvents

def assemble (eventId : LogRecord → Option String) (blockIdKey : String)
    (recs : List LogRecord) : OrderedDict String (List String) :=
  recs.foldl (assembleLine eventId blockIdKey) .empty

/-- The thin trace that `amain` builds for a block. -/
def offlineTrace (blockId : String) (events : List String) (runId : UUID)
    (first last : Datetime) : BlockTrace where
  blockId := blockId
  eventSequence := events
  recordIds := []
  firstTimestamp := first
  lastTimestamp := last
  recordCount := events.length
  pipelineRunId := runId
  closedReason := .terminal

theorem offline_flagged {m : SequenceModel} {events : List String} {g : List String}
    (hg : g ∈ ngrams events m.n) (hm : g ∉ m.normalNgrams) (blockId : String) (runId : UUID)
    (first last : Datetime) (id anchor : UUID) (detectedAt : Datetime) :
    (detectTrace ⟨m,0,le_refl 0⟩ (offlineTrace blockId events runId first last)
      id anchor detectedAt).isSome :=
  detectTrace_zero hg hm id anchor detectedAt

/-- What one line adds to the events of block `b`. -/
def lineEvents (eventId : LogRecord → Option String) (blockIdKey : String) (b : String)
    (r : LogRecord) : List String :=
  if r.enrichment.get? blockIdKey = some (.str b) then (eventId r).toList else []

theorem assembleLine_get (eventId : LogRecord → Option String) (blockIdKey b : String)
    (d : OrderedDict String (List String)) (r : LogRecord) :
    ((assembleLine eventId blockIdKey d r).get? b).getD [] =
      (d.get? b).getD [] ++ lineEvents eventId blockIdKey b r := by
  unfold assembleLine lineEvents
  split
  · next a ha =>
    cases he : eventId r with
    | none => simp
    | some e =>
      by_cases hab : a = b
      · subst hab
        simp [ha, OrderedDict.get?_insert_self]
      · have hne : ¬ r.enrichment.get? blockIdKey = some (.str b) := by
          rw [ha]
          simpa using hab
        simp [hne, OrderedDict.get?_insert_of_ne _ _ (Ne.symm hab)]
  · next hno =>
    rw [if_neg (hno b), List.append_nil]

theorem assemble_get (eventId : LogRecord → Option String) (blockIdKey b : String)
    (recs : List LogRecord) :
    ((assemble eventId blockIdKey recs).get? b).getD [] =
      recs.flatMap (lineEvents eventId blockIdKey b) := by
  have key : ∀ (recs : List LogRecord) (d : OrderedDict String (List String)),
      ((recs.foldl (assembleLine eventId blockIdKey) d).get? b).getD [] =
        (d.get? b).getD [] ++ recs.flatMap (lineEvents eventId blockIdKey b) := by
    intro recs
    induction recs with
    | nil => simp
    | cons r recs ih =>
      intro d
      rw [List.foldl_cons, ih, assembleLine_get, List.flatMap_cons, List.append_assoc]
  have h := key recs .empty
  rwa [OrderedDict.get?_empty, Option.getD_none, List.nil_append] at h

/-- The evaluator's own lookup of event ids gives the same lists wherever the
records carry the ids that it finds. -/
theorem assemble_congr {f g : LogRecord → Option String} (blockIdKey : String)
    {recs : List LogRecord} (h : ∀ r ∈ recs, f r = g r) :
    assemble f blockIdKey recs = assemble g blockIdKey recs := by
  have key : ∀ (recs : List LogRecord) (d : OrderedDict String (List String)),
      (∀ r ∈ recs, f r = g r) →
      recs.foldl (assembleLine f blockIdKey) d = recs.foldl (assembleLine g blockIdKey) d := by
    intro recs
    induction recs with
    | nil => intros; rfl
    | cons r recs ih =>
      intro d h
      have hline : assembleLine f blockIdKey d r = assembleLine g blockIdKey d r := by
        simp only [assembleLine, h r List.mem_cons_self]
      rw [List.foldl_cons, List.foldl_cons, hline]
      exact ih _ (fun q hq => h q (List.mem_cons_of_mem _ hq))
  exact key recs .empty h

section
variable {F : Type} [Seconds F] {cfg : Config F}

/-- The records that `process` was called on. -/
def processedRecords : List Op → List LogRecord :=
  List.filterMap (fun
    | .process r _ _ => some r
    | _ => none)

/-- All events of block `b`, as the evaluator assembles them from the records
that the sessionizer saw. -/
def wholeEvents (cfg : Config F) (ops : List Op) (b : String) : List String :=
  ((assemble (fun r => (newEvents cfg r).head?) cfg.blockIdKey (processedRecords ops)).get?
    b).getD []

theorem blockIdOf_iff (cfg : Config F) (r : LogRecord) (b : String) :
    blockIdOf cfg r = some b ↔ b ≠ "" ∧ r.enrichment.get? cfg.blockIdKey = some (.str b) := by
  unfold blockIdOf
  split
  · next a ha =>
    rw [ha]
    split
    · next he => simp [he, eq_comm]
    · next he =>
      simp only [Option.some.injEq, Value.str.injEq]
      exact ⟨fun h => ⟨h ▸ he,h⟩,And.right⟩
  · next hno =>
    exact ⟨fun h => absurd h (by simp),fun h => absurd h.2 (hno b)⟩

theorem newEvents_head (cfg : Config F) (r : LogRecord) :
    (newEvents cfg r).head?.toList = newEvents cfg r := by
  unfold newEvents
  split
  · rfl
  · split <;> rfl

theorem wholeEvents_eq (cfg : Config F) (ops : List Op) {b : String} (hb : b ≠ "") :
    wholeEvents cfg ops b = (blockRecords cfg ops b).flatMap (newEvents cfg) := by
  rw [wholeEvents, assemble_get]
  induction ops with
  | nil => rfl
  | cons op ops ih =>
    cases op with
    | process r now now' =>
      have hline : lineEvents (fun r => (newEvents cfg r).head?) cfg.blockIdKey b r =
          if blockIdOf cfg r = some b then newEvents cfg r else [] := by
        simp [lineEvents, blockIdOf_iff, hb, newEvents_head]
      change lineEvents _ _ b r ++ (processedRecords ops).flatMap _ = _
      rw [hline, ih]
      cases hr : blockIdOf cfg r with
      | none => simp [blockRecords, carried, carriedBy, hr]
      | some a => by_cases ha : a = b <;> simp [blockRecords, carried, carriedBy, hr, ha]
    | janitorPass => exact ih
    | stop => exact ih

theorem published_block_ne (cfg : Config F) (ops : List Op) :
    ∀ t ∈ (exec cfg ops).published, t.blockId ≠ "" := by
  have hp := exec_partition cfg ops
  intro t ht
  obtain ⟨hcount,hpos⟩ := hp.sized t ht
  obtain ⟨x,hx⟩ := List.exists_mem_of_length_pos (l := t.recordIds) (by omega)
  have hmem : x ∈ emitted (recordIds cfg) (exec cfg ops) t.blockId :=
    List.mem_flatMap.mpr ⟨t,List.mem_filter.mpr ⟨ht,by simp⟩,hx⟩
  have harr := hp.split (recordIds cfg) t.blockId ▸ List.mem_append_left _ hmem
  obtain ⟨p,hp,_⟩ := List.mem_flatMap.mp harr
  obtain ⟨hc,hb⟩ := List.mem_filter.mp hp
  obtain ⟨op,_,hop⟩ := List.mem_flatMap.mp hc
  cases op with
  | process r now now' =>
    cases hr : blockIdOf cfg r with
    | none => simp [carriedBy, hr] at hop
    | some a =>
      have hpa : p = (a,r) := by simpa [carriedBy, hr] using hop
      have hab : a = t.blockId := by simpa [hpa] using hb
      exact hab ▸ ((blockIdOf_iff cfg r a).mp hr).1
  | janitorPass => simp [carriedBy] at hop
  | stop => simp [carriedBy] at hop

/-- An emitted trace is a contiguous piece of its block's events. -/
theorem published_piece (cfg : Config F) (ops : List Op) :
    ∀ t ∈ (exec cfg ops).published, t.eventSequence <:+: wholeEvents cfg ops t.blockId := by
  intro t ht
  have hsplit := (exec_partition cfg ops).split (events cfg) t.blockId
  rw [wholeEvents_eq cfg ops (published_block_ne cfg ops t ht)]
  change _ <:+: (blockRecords cfg ops t.blockId).flatMap (events cfg).ofRecord
  rw [← arrived_carried, ← hsplit, emitted, List.flatMap_def]
  refine List.IsInfix.trans (List.infix_of_mem_flatten ?_) List.infix_append_left
  exact List.mem_map.mpr ⟨t,List.mem_filter.mpr ⟨ht,by simp⟩,rfl⟩

/-- However a block is split, a flagged trace of it comes from an n-gram of
the whole block that the model does not know, and the evaluator's trace of
that block is flagged at threshold zero. -/
theorem split_never_invents_alarm (cfg : Config F) (ops : List Op)
    (d : SequenceAnomalyDetector) :
    (∀ t ∈ (exec cfg ops).published, ∀ id anchor detectedAt,
      (detectTrace d t id anchor detectedAt).isSome →
      (∃ g ∈ ngrams (wholeEvents cfg ops t.blockId) d.model.n, g ∉ d.model.normalNgrams) ∧
      ∀ runId first last,
        (detectTrace ⟨d.model,0,le_refl 0⟩
          (offlineTrace t.blockId (wholeEvents cfg ops t.blockId) runId first last)
          id anchor detectedAt).isSome) ∧
    (∀ b, (∀ g ∈ ngrams (wholeEvents cfg ops b) d.model.n, g ∈ d.model.normalNgrams) →
      ∀ t ∈ (exec cfg ops).published, t.blockId = b → ∀ id anchor detectedAt,
        detectTrace d t id anchor detectedAt = none) ∧
    ∀ patterns : List (String × (String → Bool)),
      (∀ r ∈ processedRecords ops, matchEventId patterns r.message = (newEvents cfg r).head?) →
      ∀ b, ((assemble (fun r => matchEventId patterns r.message) cfg.blockIdKey
        (processedRecords ops)).get? b).getD [] = wholeEvents cfg ops b := by
  have hnovel : ∀ t ∈ (exec cfg ops).published, ∀ id anchor detectedAt,
      (detectTrace d t id anchor detectedAt).isSome →
      ∃ g ∈ ngrams (wholeEvents cfg ops t.blockId) d.model.n, g ∉ d.model.normalNgrams := by
    intro t ht id anchor detectedAt h
    obtain ⟨g,hg,hm⟩ := detectTrace_novel h
    exact ⟨g,ngrams_of_piece (published_piece cfg ops t ht) hg,hm⟩
  refine ⟨fun t ht id anchor detectedAt h => ?_,fun b hb t ht htb id anchor detectedAt => ?_,
    fun patterns hpat b => ?_⟩
  · obtain ⟨g,hg,hm⟩ := hnovel t ht id anchor detectedAt h
    exact ⟨⟨g,hg,hm⟩,fun runId first last =>
      offline_flagged hg hm t.blockId runId first last id anchor detectedAt⟩
  · by_contra hsome
    obtain ⟨g,hg,hm⟩ := hnovel t ht id anchor detectedAt (Option.isSome_iff_ne_none.mpr hsome)
    rw [htb] at hg
    exact hm (hb g hg)
  · rw [wholeEvents, assemble_congr cfg.blockIdKey hpat]

end
end PipelineX.BlockScoring
