import PipelineX.BlockScoring
import PipelineX.Parsers
import PipelineX.TemplateMatcher
import PipelineX.SequenceFile

/-!
# Training and evaluating the sequence model

The loops of `train_sequence_model.py` and `evaluate_hdfs_sequence.py` over the
same kind of input: a log, a table of labels and a file of templates. Both
assemble the events of the blocks, each in its own way. What `uuid4()` and
`datetime.now` give is an input.
-/

set_option autoImplicit false

namespace PipelineX.SequenceScripts
open PipelineX.Records PipelineX.Parsers PipelineX.SequenceDetector PipelineX.BlockScoring
open PipelineX.Stages PipelineX.SequenceFile

/-- The decoded texts of the three files and `--max-lines`. -/
structure Inputs where
  log : List Char
  labels : List Char
  templates : List Char
  maxLines : Option ℤ

/-- An exception of the `csv` module. -/
def csvError {α : Type} (x : Except String α) : Except PyError α := x.mapError (.other "Error")

def loadLabel (out : OrderedDict String String)
    (row : OrderedDict String (Option String)) : OrderedDict String String :=
  let blockId := (Csv.column row "BlockId").getD ""
  let label := (Csv.column row "Label").getD ""
  if blockId ≠ "" ∧ label ≠ "" then out.insert blockId label else out

/-- `_load_labels`, which both scripts have. -/
def loadLabels (text : List Char) : Except PyError (OrderedDict String String) :=
  (csvError (Csv.dictRows (TextFile.translate text))).map (List.foldl loadLabel .empty)

/-- The lines before `break`, with their numbers. -/
def numberedLines (inputs : Inputs) : List (List Char × ℕ) :=
  (TextFile.lines inputs.log).zipIdx.takeWhile (fun p => inputs.maxLines.all ((p.2 : ℤ) < ·))

/-- What the trainer keeps in its loop over the log. -/
structure Progress where
  blockEvents : OrderedDict String (List String)
  nParsed : ℕ
  nMatched : ℕ
  nSkipped : ℕ
  deriving DecidableEq

/-- `block_events[block_id].append(event_id)`. -/
def append (blockEvents : OrderedDict String (List String)) (blockId eventId : String) :
    OrderedDict String (List String) :=
  blockEvents.insert blockId ((blockEvents.get? blockId).getD [] ++ [eventId])

section
variable (chars : CharTable) (ids : ℕ → UUID) (patterns : List (String × Regex))

def trainLine (s : Progress) (line : List Char × ℕ) : Progress :=
  let raw := TextFile.rstripNewline line.1
  if raw = [] then s
  else
    match HdfsParser.parse chars (ids line.2) (String.ofList raw) with
    | .error _ => { s with nSkipped := s.nSkipped+1 }
    | .ok rec =>
      let s := { s with nParsed := s.nParsed+1 }
      match rec.enrichment.get? "block_id" with
      | some (.str blockId) =>
        match matchEventId (TemplateMatcher.matchers patterns) rec.message with
        | none => s
        | some eventId =>
          { s with nMatched := s.nMatched+1,
                   blockEvents := append s.blockEvents blockId eventId }
      | _ => s

/-- The evaluator's loop over the patterns, up to the first match. -/
def appendFirst (blockEvents : OrderedDict String (List String)) (blockId message : String) :
    List (String × Regex) → OrderedDict String (List String)
  | [] => blockEvents
  | (eid,pat)::patterns =>
    if (pat.match message.toList).isSome then append blockEvents blockId eid
    else appendFirst blockEvents blockId message patterns

def evaluateLine (blockEvents : OrderedDict String (List String)) (line : List Char × ℕ) :
    OrderedDict String (List String) :=
  let raw := TextFile.rstripNewline line.1
  if raw = [] then blockEvents
  else
    match HdfsParser.parse chars (ids line.2) (String.ofList raw) with
    | .error _ => blockEvents
    | .ok rec =>
      match rec.enrichment.get? "block_id" with
      | some (.str blockId) => appendFirst blockEvents blockId rec.message patterns
      | _ => blockEvents

end

/-- The n-grams and the vocabulary that the trainer collects. -/
structure Collected where
  normalGrams : Finset (List String)
  vocabulary : Finset String

/-- One block of the trainer's step 4. -/
def collectBlock (labels : OrderedDict String String) (n : ℤ) (s : Collected)
    (block : String × List String) : Collected :=
  match labels.get? block.1 with
  | none => s
  | some label =>
    let vocabulary := s.vocabulary ∪ block.2.toFinset
    if label = "Normal" then ⟨s.normalGrams ∪ (ngrams block.2 n).toFinset,vocabulary⟩
    else ⟨s.normalGrams,vocabulary⟩

/-- `main` of the trainer, up to the model that it writes. -/
def train (chars : CharTable) (ids : ℕ → UUID) (inputs : Inputs) (n : ℤ) :
    Except PyError SequenceModel :=
  match loadLabels inputs.labels with
  | .error e => .error e
  | .ok labels =>
    match csvError (TemplateMatcher.compileTemplates inputs.templates) with
    | .error e => .error e
    | .ok patterns =>
      let s := (numberedLines inputs).foldl (trainLine chars ids patterns) ⟨.empty,0,0,0⟩
      let collected := s.blockEvents.items.foldl (collectBlock labels n) ⟨∅,∅⟩
      .ok ⟨n,collected.normalGrams,collected.vocabulary⟩

structure ConfusionMatrix where
  tp : ℕ
  fp : ℕ
  tn : ℕ
  fn : ℕ
  deriving DecidableEq, Repr

def confusion (predicted actual universeSet : Finset String) : ConfusionMatrix where
  tp := (predicted ∩ actual).card
  fp := (predicted \ actual).card
  tn := ((universeSet \ predicted) \ actual).card
  fn := (actual \ predicted).card

/-- What the evaluator draws for the trace and the anomaly of a block. -/
structure Draws where
  runId : UUID
  first : Datetime
  last : Datetime
  id : UUID
  anchor : UUID
  detectedAt : Datetime

structure Scored where
  predicted : Finset String
  universeSet : Finset String

/-- One block of the evaluator's loop over the blocks. -/
def scoreBlock (detector : SequenceAnomalyDetector) (labels : OrderedDict String String)
    (draws : String → Draws) (s : Scored) (block : String × List String) : Scored :=
  if block.1 ∉ labels.keys then s
  else
    let d := draws block.1
    let trace := offlineTrace block.1 block.2 d.runId d.first d.last
    let anomaly := detectTrace detector trace d.id d.anchor d.detectedAt
    ⟨if anomaly.isSome then insert block.1 s.predicted else s.predicted,
      insert block.1 s.universeSet⟩

/-- `actual`: the anomalies among the blocks that were scored. -/
def actual (labels : OrderedDict String String) (universeSet : Finset String) : Finset String :=
  ((labels.items.filter (fun p => p.2 = "Anomaly" ∧ p.1 ∈ universeSet)).map Prod.fst).toFinset

/-- `amain` of the evaluator, up to the confusion matrix. -/
def evaluate (chars : CharTable) (py : Text) (ids : ℕ → UUID) (draws : String → Draws)
    (inputs : Inputs) (model : List (String × Json)) (threshold : ℚ) :
    Except PyError ConfusionMatrix :=
  match fromDict py model with
  | .error e => .error e
  | .ok m =>
    if h : 0 ≤ threshold then
      match loadLabels inputs.labels with
      | .error e => .error e
      | .ok labels =>
        match csvError (TemplateMatcher.compileTemplates inputs.templates) with
        | .error e => .error e
        | .ok patterns =>
          let blockEvents := (numberedLines inputs).foldl (evaluateLine chars ids patterns) .empty
          let s := blockEvents.items.foldl (scoreBlock ⟨m,threshold,h⟩ labels draws) ⟨∅,∅⟩
          .ok (confusion s.predicted (actual labels s.universeSet) s.universeSet)
    else .error (.other "ValueError" "threshold must be >= 0")

/-- What a line says: an event of a block, if anything. -/
def lineEvent (chars : CharTable) (patterns : List (String × Regex)) (line : List Char) :
    Option (String × String) :=
  let raw := TextFile.rstripNewline line
  if raw = [] then none
  else
    match HdfsParser.parse chars 0 (String.ofList raw) with
    | .error _ => none
    | .ok rec =>
      match rec.enrichment.get? "block_id" with
      | some (.str blockId) =>
        (matchEventId (TemplateMatcher.matchers patterns) rec.message).map (blockId,·)
      | _ => none

/-- The blocks of which some line before `break` has an event. -/
def observed (chars : CharTable) (patterns : List (String × Regex)) (inputs : Inputs) :
    Finset String :=
  ((numberedLines inputs).filterMap
    (fun line => (lineEvent chars patterns line.1).map Prod.fst)).toFinset

def addEvent (blockEvents : OrderedDict String (List String)) :
    Option (String × String) → OrderedDict String (List String)
  | none => blockEvents
  | some p => append blockEvents p.1 p.2

theorem record_id (chars : CharTable) (id id' : UUID) (raw : String) (t : Datetime)
    (a : Regex.Found) : HdfsParser.record chars id raw t a =
      { HdfsParser.record chars id' raw t a with id := id } := by
  unfold HdfsParser.record
  cases HdfsParser.blockId chars (group a "content") <;> dsimp only <;> split <;> rfl

/-- The id that a record gets is all that depends on it. -/
theorem parse_id (chars : CharTable) (id id' : UUID) (raw : String) :
    HdfsParser.parse chars id raw =
      (HdfsParser.parse chars id' raw).map (fun r => { r with id := id }) := by
  unfold HdfsParser.parse
  split
  · rfl
  · split
    · rfl
    · rw [record_id chars id id']
      rfl

section
variable (chars : CharTable) (ids : ℕ → UUID) (patterns : List (String × Regex))

theorem trainLine_events (s : Progress) (line : List Char × ℕ) :
    (trainLine chars ids patterns s line).blockEvents =
      addEvent s.blockEvents (lineEvent chars patterns line.1) := by
  unfold trainLine lineEvent
  dsimp only
  by_cases hraw : TextFile.rstripNewline line.1 = []
  · rw [if_pos hraw, if_pos hraw]
    rfl
  · rw [if_neg hraw, if_neg hraw, parse_id chars (ids line.2) 0]
    cases HdfsParser.parse chars 0 (String.ofList (TextFile.rstripNewline line.1)) with
    | error e => rfl
    | ok rec =>
      simp only [Except.map]
      split
      · cases matchEventId (TemplateMatcher.matchers patterns) rec.message <;> rfl
      · rfl

theorem appendFirst_eq (blockEvents : OrderedDict String (List String)) (blockId message : String) :
    appendFirst blockEvents blockId message patterns = addEvent blockEvents
      ((matchEventId (TemplateMatcher.matchers patterns) message).map (blockId,·)) := by
  induction patterns with
  | nil => rfl
  | cons p patterns ih =>
    obtain ⟨eid,pat⟩ := p
    rw [appendFirst]
    by_cases hp : (pat.match message.toList).isSome = true
    · simp [hp, matchEventId, TemplateMatcher.matchers, addEvent]
    · rw [if_neg hp, ih]
      simp [hp, matchEventId, TemplateMatcher.matchers]

theorem evaluateLine_events (blockEvents : OrderedDict String (List String))
    (line : List Char × ℕ) : evaluateLine chars ids patterns blockEvents line =
      addEvent blockEvents (lineEvent chars patterns line.1) := by
  unfold evaluateLine lineEvent
  dsimp only
  by_cases hraw : TextFile.rstripNewline line.1 = []
  · rw [if_pos hraw, if_pos hraw]
    rfl
  · rw [if_neg hraw, if_neg hraw, parse_id chars (ids line.2) 0]
    cases HdfsParser.parse chars 0 (String.ofList (TextFile.rstripNewline line.1)) with
    | error e => rfl
    | ok rec =>
      simp only [Except.map]
      split
      · exact appendFirst_eq patterns _ _ _
      · rfl

/-- The two loops assemble the same events. -/
theorem loops_agree (ids' : ℕ → UUID) (lines : List (List Char × ℕ)) (s : Progress) :
    (lines.foldl (trainLine chars ids patterns) s).blockEvents =
      lines.foldl (evaluateLine chars ids' patterns) s.blockEvents := by
  induction lines generalizing s with
  | nil => rfl
  | cons line lines ih =>
    rw [List.foldl_cons, List.foldl_cons, ih, trainLine_events, evaluateLine_events]

theorem mem_keys_append {d : OrderedDict String (List String)} {b blockId e : String} :
    b ∈ (append d blockId e).keys ↔ b ∈ d.keys ∨ b = blockId := by
  rw [← not_iff_not, not_or, ← OrderedDict.get?_eq_none, ← OrderedDict.get?_eq_none, append]
  by_cases hb : b = blockId
  · simp [hb, OrderedDict.get?_insert_self]
  · rw [OrderedDict.get?_insert_of_ne _ _ hb]
    exact ⟨fun h => ⟨h,hb⟩,And.left⟩

/-- A block has an entry when some line has an event of it. -/
theorem mem_keys_evaluated {lines : List (List Char × ℕ)} {d : OrderedDict String (List String)}
    {b : String} : b ∈ (lines.foldl (evaluateLine chars ids patterns) d).keys ↔
      b ∈ d.keys ∨
        b ∈ lines.filterMap (fun line => (lineEvent chars patterns line.1).map Prod.fst) := by
  induction lines generalizing d with
  | nil => simp
  | cons line lines ih =>
    rw [List.foldl_cons, ih, evaluateLine_events]
    cases he : lineEvent chars patterns line.1 with
    | none => simp [he, addEvent]
    | some p => simp [he, addEvent, mem_keys_append, or_assoc]

end

/-- The normal n-grams are those of the blocks labelled normal. -/
theorem mem_normalGrams {labels : OrderedDict String String} {n : ℤ} {g : List String}
    {items : List (String × List String)} {s : Collected} :
    g ∈ (items.foldl (collectBlock labels n) s).normalGrams ↔ g ∈ s.normalGrams ∨
      ∃ p ∈ items, labels.get? p.1 = some "Normal" ∧ g ∈ ngrams p.2 n := by
  induction items generalizing s with
  | nil => simp
  | cons p items ih =>
    rw [List.foldl_cons, ih]
    simp only [List.mem_cons, exists_eq_or_imp, ← or_assoc]
    apply or_congr_left
    unfold collectBlock
    cases hl : labels.get? p.1 with
    | none => simp
    | some label =>
      by_cases hn : label = "Normal"
      · simp [hn]
      · simp [hn]

section
variable {detector : SequenceAnomalyDetector} {labels : OrderedDict String String}
variable {draws : String → Draws}

/-- The universe is the labelled blocks among those that were observed. -/
theorem mem_universe {items : List (String × List String)} {s : Scored} {b : String} :
    b ∈ (items.foldl (scoreBlock detector labels draws) s).universeSet ↔
      b ∈ s.universeSet ∨ b ∈ labels.keys ∧ b ∈ items.map Prod.fst := by
  induction items generalizing s with
  | nil => simp
  | cons p items ih =>
    rw [List.foldl_cons, ih, scoreBlock]
    by_cases hp : p.1 ∈ labels.keys
    · by_cases hb : b = p.1 <;> simp [hp, hb]
    · by_cases hb : b = p.1 <;> simp [hp, hb]

/-- Every predicted block was flagged for its events. -/
theorem of_mem_predicted {items : List (String × List String)} {s : Scored} {b : String}
    (hb : b ∈ (items.foldl (scoreBlock detector labels draws) s).predicted) :
    b ∈ s.predicted ∨ ∃ events, (b,events) ∈ items ∧ b ∈ labels.keys ∧
      ∃ g ∈ ngrams events detector.model.n, g ∉ detector.model.normalNgrams := by
  induction items generalizing s with
  | nil => exact Or.inl hb
  | cons p items ih =>
    rcases ih hb with hs | ⟨events,hmem,hrest⟩
    · unfold scoreBlock at hs
      split at hs
      · exact Or.inl hs
      · next hp =>
        dsimp only at hs
        split at hs
        · next hflagged =>
          rcases Finset.mem_insert.mp hs with rfl | hs
          · exact Or.inr ⟨p.2,List.mem_cons_self,not_not.mp hp,detectTrace_novel hflagged⟩
          · exact Or.inl hs
        · exact Or.inl hs
    · exact Or.inr ⟨events,List.mem_cons_of_mem _ hmem,hrest⟩

end

/-- Each entity of the universe is counted once. -/
theorem confusion_total {predicted actual universeSet : Finset String}
    (hp : predicted ⊆ universeSet) (ha : actual ⊆ universeSet) :
    let cm := confusion predicted actual universeSet
    cm.tp+cm.fp+cm.tn+cm.fn = universeSet.card := by
  have hpredicted : (predicted ∩ actual).card+(predicted \ actual).card = predicted.card :=
    Finset.card_inter_add_card_sdiff predicted actual
  have hrest : ((universeSet \ predicted) \ actual).card+(actual \ predicted).card =
      (universeSet \ predicted).card := by
    have hsub : actual \ predicted ⊆ universeSet \ predicted := Finset.sdiff_subset_sdiff ha subset_rfl
    have hsame : (universeSet \ predicted) \ actual =
        (universeSet \ predicted) \ (actual \ predicted) := by
      ext b
      simp only [Finset.mem_sdiff]
      tauto
    rw [hsame, Finset.card_sdiff_add_card_eq_card hsub]
  have htotal : (universeSet \ predicted).card+predicted.card = universeSet.card :=
    Finset.card_sdiff_add_card_eq_card hp
  show (predicted ∩ actual).card+(predicted \ actual).card+
    ((universeSet \ predicted) \ actual).card+(actual \ predicted).card = universeSet.card
  omega

theorem actual_subset (labels : OrderedDict String String) (universeSet : Finset String) :
    actual labels universeSet ⊆ universeSet := by
  intro b hb
  simp only [actual, List.mem_toFinset, List.mem_map, List.mem_filter, decide_eq_true_eq] at hb
  obtain ⟨p,⟨_,_,hp⟩,rfl⟩ := hb
  exact hp

theorem mem_actual {labels : OrderedDict String String} {universeSet : Finset String} {b : String}
    (hl : labels.get? b = some "Anomaly") (hb : b ∈ universeSet) : b ∈ actual labels universeSet := by
  simp only [actual, List.mem_toFinset, List.mem_map, List.mem_filter, decide_eq_true_eq]
  exact ⟨(b,"Anomaly"),⟨OrderedDict.mem_of_get? hl,rfl,hb⟩,rfl⟩

section
variable {labels : OrderedDict String String} {m : SequenceModel} {threshold : ℚ}
variable {draws : String → Draws}

variable (draws) in
/-- Scoring the blocks that the model was trained on: what is predicted is an
anomaly, since a normal block has no n-gram that the model does not know. -/
theorem scored_on_training_data (h : 0 ≤ threshold)
    (hlabels : ∀ b l, labels.get? b = some l → l = "Normal" ∨ l = "Anomaly")
    (blockEvents : OrderedDict String (List String))
    (hm : ∀ g, g ∈ m.normalNgrams ↔ ∃ p ∈ blockEvents.items,
      labels.get? p.1 = some "Normal" ∧ g ∈ ngrams p.2 m.n) :
    let s := blockEvents.items.foldl (scoreBlock ⟨m,threshold,h⟩ labels draws) ⟨∅,∅⟩
    s.predicted ⊆ s.universeSet ∧ s.predicted ⊆ actual labels s.universeSet := by
  intro s
  have hboth : ∀ b ∈ s.predicted, b ∈ s.universeSet ∧ labels.get? b = some "Anomaly" := by
    intro b hb
    rcases of_mem_predicted hb with hempty | ⟨events,hmem,hkey,g,hg,hnovel⟩
    · exact absurd hempty (Finset.notMem_empty b)
    · refine ⟨mem_universe.mpr (Or.inr ⟨hkey,List.mem_map.mpr ⟨_,hmem,rfl⟩⟩),?_⟩
      obtain ⟨l,hl⟩ := Option.ne_none_iff_exists'.mp
        (mt OrderedDict.get?_eq_none.mp (not_not.mpr hkey))
      rcases hlabels b l hl with rfl | rfl
      · exact absurd ((hm g).mpr ⟨(b,events),hmem,hl,hg⟩) hnovel
      · exact hl
  constructor
  · intro b hb
    exact (hboth b hb).1
  · intro b hb
    exact mem_actual (hboth b hb).2 (hboth b hb).1

end

/-- A trained model knows the n-grams of the normal blocks that the evaluator
will see in the same input. -/
theorem train_ok {chars : CharTable} {ids : ℕ → UUID} {inputs : Inputs} {n : ℤ}
    {m : SequenceModel} (ids' : ℕ → UUID) (h : train chars ids inputs n = .ok m) :
    ∃ labels patterns, loadLabels inputs.labels = .ok labels ∧
      csvError (TemplateMatcher.compileTemplates inputs.templates) = .ok patterns ∧
      ∀ g, g ∈ m.normalNgrams ↔
        ∃ p ∈ ((numberedLines inputs).foldl (evaluateLine chars ids' patterns) .empty).items,
          labels.get? p.1 = some "Normal" ∧ g ∈ ngrams p.2 m.n := by
  unfold train at h
  cases hload : loadLabels inputs.labels with
  | error e =>
    rw [hload] at h
    cases h
  | ok labels =>
    cases hcompile : csvError (TemplateMatcher.compileTemplates inputs.templates) with
    | error e =>
      rw [hload, hcompile] at h
      cases h
    | ok patterns =>
      rw [hload, hcompile] at h
      simp only [Except.ok.injEq] at h
      rw [loops_agree chars ids patterns ids'] at h
      refine ⟨labels,patterns,rfl,rfl,fun g => ?_⟩
      rw [← h, mem_normalGrams]
      exact or_iff_right (Finset.notMem_empty g)

/-- Evaluating a model on the data that it was trained on succeeds, gives no
false positive, and counts each labelled block that was observed once. -/
theorem no_false_positive (chars : CharTable) (py : Text) (ids ids' : ℕ → UUID)
    (draws : String → Draws) (inputs : Inputs) (n : ℤ) (threshold : ℚ) (m : SequenceModel)
    (grams : List (List String)) (hthreshold : 0 ≤ threshold)
    (hlabels : ∀ labels, loadLabels inputs.labels = .ok labels →
      ∀ b l, labels.get? b = some l → l = "Normal" ∨ l = "Anomaly")
    (htrain : train chars ids inputs n = .ok m) (hgrams : grams.toFinset = m.normalNgrams) :
    ∃ labels patterns cm, loadLabels inputs.labels = .ok labels ∧
      csvError (TemplateMatcher.compileTemplates inputs.templates) = .ok patterns ∧
      evaluate chars py ids' draws inputs (toDict m grams) threshold = .ok cm ∧ cm.fp = 0 ∧
      cm.tp+cm.fp+cm.tn+cm.fn =
        ((observed chars patterns inputs).filter (· ∈ labels.keys)).card := by
  obtain ⟨labels,patterns,hload,hcompile,hm⟩ := train_ok ids' htrain
  let blockEvents := (numberedLines inputs).foldl (evaluateLine chars ids' patterns) .empty
  let s := blockEvents.items.foldl (scoreBlock ⟨m,threshold,hthreshold⟩ labels draws) ⟨∅,∅⟩
  obtain ⟨hpredicted,hactual⟩ := scored_on_training_data draws hthreshold
    (hlabels labels hload) blockEvents hm
  have hevaluate : evaluate chars py ids' draws inputs (toDict m grams) threshold =
      .ok (confusion s.predicted (actual labels s.universeSet) s.universeSet) := by
    simp only [evaluate, fromDict_toDict py m grams hgrams, hload, hcompile, dif_pos hthreshold]
    rfl
  have huniverse : s.universeSet =
      (observed chars patterns inputs).filter (· ∈ labels.keys) := by
    ext b
    rw [mem_universe, Finset.mem_filter, observed, List.mem_toFinset]
    rw [or_iff_right (Finset.notMem_empty b), and_comm]
    apply and_congr_left'
    exact (mem_keys_evaluated chars ids' patterns).trans (or_iff_right List.not_mem_nil)
  refine ⟨labels,patterns,_,hload,hcompile,hevaluate,?_,?_⟩
  · show (s.predicted \ actual labels s.universeSet).card = 0
    rw [Finset.card_eq_zero, Finset.sdiff_eq_empty_iff_subset]
    exact hactual
  · rw [← huniverse]
    exact confusion_total hpredicted (actual_subset labels s.universeSet)

/-- Two lines of a normal block, one of an anomaly, and one that does not parse. -/
def sampleInputs : Inputs where
  log := ("081109 203615 148 INFO dfs.A: Receiving block blk_1\n" ++
    "081109 203616 148 INFO dfs.A: Received block blk_1\nnoise\n" ++
    "081109 203617 149 WARN dfs.A: Received block blk_2\n").toList
  labels := "BlockId,Label\nblk_1,Normal\nblk_2,Anomaly\n".toList
  templates := "EventId,EventTemplate\nE1,Receiving block <*>\nE2,Received block <*>\n".toList
  maxLines := none

def sampleText : Text where
  text
    | .str s => s
    | value => value.typeName
  text_str _ := rfl

def sampleDraws (_ : String) : Draws := ⟨0,0,0,1,2,0⟩

theorem sample_labels : ∃ labels, loadLabels sampleInputs.labels = .ok labels ∧
    labels.items = [("blk_1","Normal"),("blk_2","Anomaly")] :=
  ⟨_,rfl,rfl⟩

theorem no_false_positive_sample : ∃ m cm, train .ascii id sampleInputs 2 = .ok m ∧
    evaluate .ascii sampleText id sampleDraws sampleInputs
      (toDict m (m.normalNgrams.sort (· ≤ ·))) 0 = .ok cm ∧ cm.fp = 0 := by
  have hlabels : ∀ labels, loadLabels sampleInputs.labels = .ok labels →
      ∀ b l, labels.get? b = some l → l = "Normal" ∨ l = "Anomaly" := by
    intro labels hload b l hl
    obtain ⟨labels',hload',hitems⟩ := sample_labels
    rw [hload] at hload'
    have hmem := OrderedDict.mem_of_get? hl
    rw [Except.ok.inj hload', hitems] at hmem
    simp only [List.mem_cons, Prod.mk.injEq, List.not_mem_nil, or_false] at hmem
    exact hmem.imp And.right And.right
  obtain ⟨m,hm⟩ : ∃ m, train .ascii id sampleInputs 2 = .ok m := ⟨_,rfl⟩
  obtain ⟨_,_,cm,_,_,hcm,hfp,_⟩ := no_false_positive .ascii sampleText id id sampleDraws
    sampleInputs 2 0 m (m.normalNgrams.sort (· ≤ ·)) (le_refl 0) hlabels hm
    (Finset.sort_toFinset _ _)
  exact ⟨m,cm,hm,hcm,hfp⟩

end PipelineX.SequenceScripts
