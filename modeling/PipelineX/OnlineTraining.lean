import PipelineX.CliRun
import PipelineX.HdfsFormat
import PipelineX.PipedLines
import PipelineX.SequenceTraining
import PipelineX.StatelessStages
import PipelineX.Validators

/-!
# The pipeline and the training script on one log

`hdfs_v1.yaml` sends a log through the HDFS parser, a check that there is a
message, the templates and the sessionizer; `train_sequence_model.py` reads the
same log in a loop of its own. Both come to the same events of each block, so
a model that was trained on a log gives no alarm for its normal blocks when the
pipeline is run over that log. This rests on the source's order, which the
pipeline keeps on CPython 3.12 and later.
-/

set_option autoImplicit false

namespace PipelineX.OnlineTraining
open PipelineX.Records PipelineX.Parsers PipelineX.Stages PipelineX.TransitionSystem
open PipelineX.Sessionizer (blockIdOf eventIdOf newEvents)
open PipelineX.Executor (shell)
open PipelineX.SessionizerPartition (emitted events)
open PipelineX.ExecutorOrder (sequential shells)
open PipelineX.StatelessStages (Stateless sequential_stateless)
open PipelineX.BuiltPipeline PipelineX.SourceOrder PipelineX.SequenceScripts PipelineX.LogSources
open PipelineX.Validators (SchemaValidator stateless)
open PipelineX.SequenceDetector PipelineX.SequenceFile
open PipelineX.SequenceAlarms (Draw stepAlarmed alarms_warranted)
open PipelineX.HdfsFormat (blockId_eq_none record_blockId record_bare bare_enrichment)

variable {σ F : Type} [Sessionizer.Seconds F]

section
variable (chars : CharTable) (id : UUID) (patterns : List (String × Regex))

/-- The first stages of `hdfs_v1.yaml`. -/
def hdfsFront : List (Stage σ) :=
  frontStages (parserStage ⟨"hdfs",HdfsParser.parse chars id⟩)
    (some (validationStage [stateless "schema" ({} : SchemaValidator).check]))
    (some (templateMatcherStage (TemplateMatcher.matchers patterns)))

/-- A line with what the first stages add to it. -/
def staged (record parsed : LogRecord) : LogRecord :=
  (matchTemplate (TemplateMatcher.matchers patterns) "event_id"
    (((adopt record parsed).markStage "parse:hdfs").markStage "validate:schema")).markStage
      "enrich:template_match"

theorem hdfsFront_stateless : Stateless (hdfsFront (σ := σ) chars id patterns) := by
  intro st hst w r
  simp only [hdfsFront, frontStages, Option.toList_some, List.cons_append, List.nil_append,
    List.mem_cons, List.not_mem_nil, or_false] at hst
  rcases hst with rfl | rfl | rfl
  · rfl
  · by_cases h : (({} : SchemaValidator).check r).valid = true <;>
      simp [validationStage, validateChain, stateless, h]
  · rfl

theorem check_message (r : LogRecord) :
    (({} : SchemaValidator).check r).valid = decide (r.message ≠ "") := by
  by_cases hm : r.message = "" <;> simp [SchemaValidator.check, hm]

theorem runStages_hdfs (cfg : Executor.Config) (n : ℕ) (l : String) (w : σ) :
    (runStages (hdfsFront chars id patterns) w (shell cfg n l)).2.1.toOption =
      (HdfsParser.parse chars id l).toOption.bind (fun parsed =>
        if parsed.message = "" then none else some (staged patterns (shell cfg n l) parsed)) := by
  have hraw : rawOf (shell cfg n l) = .str l := rfl
  have hnames : ",".intercalate ["schema"] = "schema" := by decide
  simp only [hdfsFront, frontStages, Option.toList_some, List.cons_append, List.nil_append,
    runStages, parserStage, parseRecord, hraw]
  cases hp : HdfsParser.parse chars id l with
  | error e => cases e <;> rfl
  | ok parsed =>
    simp only [validationStage, validateChain, stateless, check_message]
    by_cases hm : parsed.message = ""
    · simp [adopt, LogRecord.markStage, hm, Except.toOption]
    · simp [adopt, LogRecord.markStage, hm, Except.toOption, templateMatcherStage, staged, hnames]

end

theorem blockId_ne (chars : CharTable) {content : List Char} {b : String}
    (h : HdfsParser.blockId chars content = some b) : b ≠ "" := by
  obtain ⟨a,_,rfl⟩ := Option.map_eq_some_iff.mp h
  intro he
  simpa using congrArg String.toList he

theorem blockId_nil (chars : CharTable) : HdfsParser.blockId chars [] = none := by
  refine blockId_eq_none.mpr ?_
  rintro ⟨v,⟨sign,number,rfl,_,_,_⟩,before,after,h⟩
  simp at h

/-- What a parsed line says, but for its block. -/
theorem parse_content {chars : CharTable} {id : UUID} {raw : String} {r : LogRecord}
    (h : HdfsParser.parse chars id raw = .ok r) : ∃ content : List Char,
      r.message = String.ofList content ∧
      r.enrichment.get? "block_id" = (HdfsParser.blockId chars content).map Value.str ∧
      r.enrichment.get? "event_id" = none := by
  unfold HdfsParser.parse at h
  split at h
  · cases h
  · next a ha =>
    split at h
    · cases h
    · next t ht =>
      cases h
      obtain ⟨enrichment,hr⟩ := record_bare chars id raw t a
      refine ⟨group a "content",by rw [hr]; rfl,record_blockId chars id raw t a,?_⟩
      unfold HdfsParser.record
      cases HdfsParser.blockId chars (group a "content") <;> dsimp only <;> split <;>
        simp [LogRecord.addEnrichment, OrderedDict.get?_insert_of_ne, bare_enrichment]

/-- What a line without its newline says: an event of a block, if anything. -/
def textEvent (chars : CharTable) (patterns : List (String × Regex)) (raw : String) :
    Option (String × String) :=
  match HdfsParser.parse chars 0 raw with
  | .error _ => none
  | .ok rec =>
    match rec.enrichment.get? "block_id" with
    | some (.str blockId) =>
      (matchEventId (TemplateMatcher.matchers patterns) rec.message).map (blockId,·)
    | _ => none

theorem lineEvent_text (chars : CharTable) (patterns : List (String × Regex)) (line : List Char) :
    lineEvent chars patterns line = if TextFile.rstripNewline line = [] then none
      else textEvent chars patterns (String.ofList (TextFile.rstripNewline line)) := by
  unfold lineEvent
  dsimp only
  by_cases hraw : TextFile.rstripNewline line = []
  · rw [if_pos hraw, if_pos hraw]
  · rw [if_neg hraw, if_neg hraw]
    unfold textEvent
    cases HdfsParser.parse chars 0 (String.ofList (TextFile.rstripNewline line)) <;> rfl

/-- The event, if it is one of block `b`. -/
def ofBlock (b : String) (e : Option (String × String)) : List String :=
  (e.bind (fun p => if p.1 = b then some p.2 else none)).toList

/-- The keys under which the stages leave a block and an event. -/
structure DefaultKeys (cfg : Sessionizer.Config F) : Prop where
  block : cfg.blockIdKey = "block_id"
  event : cfg.eventIdKey = "event_id"

theorem staged_block (patterns : List (String × Regex))
    {cfg : Sessionizer.Config F} (hkeys : DefaultKeys cfg) (record parsed : LogRecord)
    (hempty : record.enrichment = .empty) :
    blockIdOf cfg (staged patterns record parsed) = blockIdOf cfg parsed := by
  unfold blockIdOf staged matchTemplate
  rw [hkeys.block]
  cases matchEventId (TemplateMatcher.matchers patterns) _ <;>
    simp [LogRecord.addEnrichment, LogRecord.markStage, adopt, hempty, OrderedDict.empty,
      OrderedDict.get?_insert_of_ne]

theorem staged_events (patterns : List (String × Regex)) (hids : ∀ p ∈ patterns, p.1 ≠ "")
    {cfg : Sessionizer.Config F} (hkeys : DefaultKeys cfg) (record parsed : LogRecord)
    (hempty : record.enrichment = .empty) (hnone : parsed.enrichment.get? "event_id" = none) :
    newEvents cfg (staged patterns record parsed) =
      (matchEventId (TemplateMatcher.matchers patterns) parsed.message).toList := by
  have hmessage : (((adopt record parsed).markStage "parse:hdfs").markStage
      "validate:schema").message = parsed.message := rfl
  unfold newEvents eventIdOf staged matchTemplate
  rw [hkeys.event, hmessage]
  cases he : matchEventId (TemplateMatcher.matchers patterns) parsed.message with
  | none => simp [LogRecord.markStage, adopt, hempty, OrderedDict.empty, hnone]
  | some e =>
    have hne : e ≠ "" := by
      obtain ⟨p,hp,rfl⟩ := Option.map_eq_some_iff.mp he
      obtain ⟨q,hq,rfl⟩ := List.mem_map.mp (List.mem_of_find?_eq_some hp)
      exact hids q hq
    simp [LogRecord.addEnrichment, LogRecord.markStage, OrderedDict.get?_insert_self, hne]

theorem eventIds_toList (cfg : Sessionizer.Config F) (b : String) (r : Option LogRecord) :
    eventIds cfg b r.toList = r.toList.flatMap
      (fun r => if blockIdOf cfg r = some b then newEvents cfg r else []) := by
  cases r with
  | none => rfl
  | some r => by_cases hb : blockIdOf cfg r = some b <;> simp [eventIds, hb]

/-- What a line adds to a block, through the stages. -/
theorem line_events (chars : CharTable) (id : UUID) (patterns : List (String × Regex))
    (hids : ∀ p ∈ patterns, p.1 ≠ "") {cfg : Sessionizer.Config F} (hkeys : DefaultKeys cfg)
    (executor : Executor.Config) (n : ℕ) (l b : String) (w : σ) :
    eventIds cfg b
        (runStages (hdfsFront chars id patterns) w (shell executor n l)).2.1.toOption.toList =
      ofBlock b (textEvent chars patterns l) := by
  rw [runStages_hdfs, textEvent, parse_id chars 0 id]
  cases hp : HdfsParser.parse chars id l with
  | error e => rfl
  | ok parsed =>
    obtain ⟨content,hmessage,hblock,hevent⟩ := parse_content hp
    have hstaged := staged_block patterns hkeys (shell executor n l) parsed rfl
    have hevents := staged_events patterns hids hkeys (shell executor n l) parsed rfl hevent
    simp only [Except.toOption, Option.bind_some, Except.map]
    cases hb : HdfsParser.blockId chars content with
    | none =>
      -- the trainer skips the line, the sessionizer lets the record pass
      have hnone : blockIdOf cfg parsed = none := by simp [blockIdOf, hkeys.block, hblock, hb]
      by_cases hm : parsed.message = ""
      · simp [hm, hblock, hb, ofBlock, eventIds]
      · simp [hm, hblock, hb, ofBlock, eventIds, hstaged, hnone]
    | some blockId =>
      -- there is a block only where there is a message
      have hm : parsed.message ≠ "" := by
        intro hm
        have hnil : content = [] := String.ofList_injective (hmessage.symm.trans hm)
        rw [hnil, blockId_nil] at hb
        cases hb
      have hsome : blockIdOf cfg parsed = some blockId := by
        simp [blockIdOf, hkeys.block, hblock, hb, blockId_ne chars hb]
      rw [if_neg hm, eventIds_toList, Option.toList_some, List.flatMap_singleton, hstaged, hsome,
        hevents, hblock, hb]
      cases matchEventId (TemplateMatcher.matchers patterns) parsed.message <;>
        by_cases he : blockId = b <;> simp [he, ofBlock]

theorem eventIds_append (cfg : Sessionizer.Config F) (b : String) (rs ss : List LogRecord) :
    eventIds cfg b (rs ++ ss) = eventIds cfg b rs ++ eventIds cfg b ss := by
  simp [eventIds]

/-- The events of a block in the records that pass the first stages. -/
theorem survivors_events (chars : CharTable) (id : UUID) (patterns : List (String × Regex))
    (hids : ∀ p ∈ patterns, p.1 ≠ "") {cfg : Sessionizer.Config F} (hkeys : DefaultKeys cfg)
    (executor : Executor.Config) (ls : List String) (n : ℕ) (b : String) (w : σ) :
    eventIds cfg b (sequential (hdfsFront chars id patterns) w (shells executor n ls)).2.1 =
      ls.flatMap (fun l => ofBlock b (textEvent chars patterns l)) := by
  rw [sequential_stateless (hdfsFront_stateless chars id patterns)]
  induction ls generalizing n with
  | nil => rfl
  | cons l ls ih =>
    have hline := line_events chars id patterns hids hkeys executor n l b w
    rw [shells, List.flatMap_cons, ← ih (n+1), ← hline, ← eventIds_append]
    cases hr : (runStages (hdfsFront chars id patterns) w (shell executor n l)).2.1.toOption <;>
      simp [hr]

theorem takeWhile_all {α : Type} {p : α → Bool} (h : ∀ x, p x = true) (xs : List α) :
    xs.takeWhile p = xs :=
  List.takeWhile_eq_self_iff.mpr fun x _ => h x

/-- The trainer's events of a block, without `--max-lines`: those of the lines
that a file source gives. -/
theorem eventsOf_lines (chars : CharTable) (patterns : List (String × Regex)) {inputs : Inputs}
    (hmax : inputs.maxLines = none) (b : String) : eventsOf chars patterns inputs b =
      (FileLogSource.streamText inputs.log).flatMap
        (fun raw => ofBlock b (textEvent chars patterns (String.ofList raw))) := by
  have hlines : numberedLines inputs = (TextFile.lines inputs.log).zipIdx :=
    takeWhile_all (fun p => by simp [hmax]) _
  rw [eventsOf, eventsIn, hlines, FileLogSource.streamText, FileLogSource.iterLines_eq]
  generalize TextFile.lines inputs.log = ls
  generalize 0 = k
  induction ls generalizing k with
  | nil => rfl
  | cons line ls ih =>
    rw [List.zipIdx_cons, List.filterMap_cons, List.map_cons, List.filter_cons]
    by_cases hraw : TextFile.rstripNewline line = []
    · rw [lineEvent_text, if_pos hraw, if_neg (by simpa using hraw)]
      exact ih (k+1)
    · rw [lineEvent_text, if_neg hraw, if_pos (by simpa using hraw), List.flatMap_cons, ← ih (k+1)]
      cases textEvent chars patterns (String.ofList (TextFile.rstripNewline line)) with
      | none => rfl
      | some p => by_cases hb : p.1 = b <;> simp [ofBlock, hb]

theorem init_keys {runId : UUID} {idle : F} {records opens : ℤ} {cfg : Sessionizer.Config F}
    (h : Sessionizer.Config.init runId idle records opens = .ok cfg) : DefaultKeys cfg := by
  unfold Sessionizer.Config.init at h
  split at h
  · cases h
  · split at h
    · cases h
    · split at h
      · cases h
      · cases h
        exact ⟨rfl,rfl⟩

theorem compiled_ids {text : List Char} {patterns : List (String × Regex)}
    (h : TemplateMatcher.compileTemplates text = .ok patterns) : ∀ p ∈ patterns, p.1 ≠ "" := by
  obtain ⟨rows,_,rfl⟩ := map_eq_ok.mp h
  intro p hp
  obtain ⟨row,_,hrow⟩ := List.mem_filterMap.mp hp
  simp only [TemplateMatcher.compileRow, Option.ite_none_left_eq_some, not_or] at hrow
  obtain ⟨⟨hne,_⟩,hp⟩ := hrow
  cases hp
  exact hne

section
variable (chars : CharTable) (id : UUID) (patterns : List (String × Regex))

/-- The pipeline of `hdfs_v1.yaml`. What the parser draws for a record is given
up with the record's own id. -/
def hdfsV1 (executor : Executor.Config) (handlers : ℕ) (z : Sessionizing σ F)
    (h : executor.stageNames =
      ["parse:hdfs","validate:schema","enrich:template_match","sessionize:block"]) : Setup σ F :=
  buildPipeline executor handlers (parserStage ⟨"hdfs",HdfsParser.parse chars id⟩)
    (some (validationStage [stateless "schema" ({} : SchemaValidator).check]))
    (some (templateMatcherStage (TemplateMatcher.matchers patterns))) z [] (by rw [h]; rfl)

/-- What the stages leave of a log is what the trainer makes of it. -/
theorem survivors_trained (executor : Executor.Config) (handlers : ℕ) (z : Sessionizing σ F)
    (h : executor.stageNames =
      ["parse:hdfs","validate:schema","enrich:template_match","sessionize:block"])
    {inputs : Inputs} (hkeys : DefaultKeys z.config)
    (hcompile : TemplateMatcher.compileTemplates inputs.templates = .ok patterns)
    (hmax : inputs.maxLines = none) (w : σ) (b : String) :
    eventIds z.config b (survivorsOf (hdfsV1 chars id patterns executor handlers z h) w
        ((FileLogSource.streamText inputs.log).map String.ofList)) =
      eventsOf chars patterns inputs b := by
  have hevents := survivors_events chars id patterns (compiled_ids hcompile) hkeys executor
    ((FileLogSource.streamText inputs.log).map String.ofList) 0 b w
  rw [eventsOf_lines chars patterns hmax]
  exact hevents.trans (List.flatMap_map ..)

end

/-- When a run over a log has come to its end, the published traces of a block
hold, in their order, the events that the trainer has appended for it. -/
theorem published_as_trained (chars : CharTable) (id : UUID) (ids : ℕ → UUID)
    (patterns : List (String × Regex)) (executor : Executor.Config) (handlers : ℕ)
    (z : Sessionizing σ F)
    (h : executor.stageNames =
      ["parse:hdfs","validate:schema","enrich:template_match","sessionize:block"])
    (inputs : Inputs) (runId : UUID) (idle : F) (records opens : ℤ)
    (hz : Sessionizer.Config.init runId idle records opens = .ok z.config)
    (hcompile : TemplateMatcher.compileTemplates inputs.templates = .ok patterns)
    (hmax : inputs.maxLines = none) (w : σ) (started : Bool) (ls : List Label) (x : Built σ)
    (hsource : executor.sourceRaises = false)
    (hrun : run (CliRun.step (hdfsV1 chars id patterns executor handlers z h))
      (initial (hdfsV1 chars id patterns executor handlers z h) w started
        ((FileLogSource.streamText inputs.log).map String.ofList)) ls = some x)
    (hret : x.tasks.stop = .returned) (b : String) :
    emitted (events z.config) x.tasks.sessionizer b =
      ((((numberedLines inputs).foldl (trainLine chars ids patterns)
        ⟨.empty,0,0,0⟩).blockEvents.get? b).getD []) := by
  let cfg := hdfsV1 chars id patterns executor handlers z h
  have hx := run_invariant (CliRun.step cfg)
    (CliRun.Whole cfg w ((FileLogSource.streamText inputs.log).map String.ofList))
    (fun x l y hx h => CliRun.step_whole cfg w _ x y l hsource hx h)
    (CliRun.initial_whole cfg w started _) hrun
  rw [loops_agree chars ids patterns ids, evaluated_get, OrderedDict.get?_empty, Option.getD_none,
    List.nil_append, ← eventsOf,
    ← survivors_trained chars id patterns executor handlers z h (init_keys hz) hcompile hmax w b]
  exact CliRun.returned_events hx hsource hret b

theorem ok_getD {ε α : Type} {x : Except ε α} (d : α) (h : x.toOption.isSome = true) :
    x = .ok (x.toOption.getD d) := by
  cases x with
  | error e => cases h
  | ok a => rfl

/-- A normal block, and one with its events the other way round. -/
def turnedInputs : Inputs where
  log := ("081109 000001 1 I A: a blk_1\n081109 000002 1 I A: b blk_1\n" ++
    "081109 000003 1 I A: b blk_2\n081109 000004 1 I A: a blk_2\n").toList
  labels := "BlockId,Label\nblk_1,Normal\nblk_2,Anomaly\n".toList
  templates := "EventId,EventTemplate\nE1,a <*>\nE2,b <*>\n".toList
  maxLines := none

def turnedPatterns : List (String × Regex) :=
  (TemplateMatcher.compileTemplates turnedInputs.templates).toOption.getD []

theorem turned_compiles :
    TemplateMatcher.compileTemplates turnedInputs.templates = .ok turnedPatterns :=
  ok_getD [] (by decide +kernel)

/-- One consumer, and one handler of the traces. -/
def turnedExecutor : Executor.Config where
  stageNames := ["parse:hdfs","validate:schema","enrich:template_match","sessionize:block"]
  numWorkers := 1
  queueSize := 2
  batchSize := 100
  runId := 7
  sourceRaises := false
  workers_pos := Nat.one_pos
  queue_pos := Nat.two_pos
  batch_pos := Nat.succ_pos 99

def turnedSetup : Setup Sessionizer.State ℚ :=
  hdfsV1 .ascii 0 turnedPatterns turnedExecutor 1 sampleSessionizing rfl

def turnedInitial : Built Sessionizer.State :=
  initial turnedSetup .initial true
    ((FileLogSource.streamText turnedInputs.log).map String.ofList)

/-- A line from the source to the buffer. -/
def passes : List Label :=
  [.producer,.producer,.get 0,.front 0,.front 0,.front 0,.enter 0 0 0,.leave 0,.consumer 0 .buffer]

/-- All lines, the end of `run` and that of `stop`. -/
def turnedSchedule : List Label :=
  passes ++ passes ++ passes ++ passes ++
    [.producer,.main .advance,.main .advance,.cancelled 0 false,.flusher .tick,.flusher .swap,
      .flusher (.saved .stored),.main .advance,.main .advance,.tasks .stopCall,.tasks .unwound,
      .tasks .joined,.tasks (.handled 0),.tasks .resume,.tasks (.handled 0),.tasks .resume]

theorem published_as_trained_turned : ∃ x,
    run (CliRun.step turnedSetup) turnedInitial turnedSchedule = some x ∧
    emitted (events sampleSessionizing.config) x.tasks.sessionizer "blk_2" = ["E2","E1"] := by
  have hret : (run (CliRun.step turnedSetup) turnedInitial turnedSchedule).map
      (fun x => x.tasks.stop) = some .returned := by
    decide +kernel
  obtain ⟨x,hx,hstop⟩ := Option.map_eq_some_iff.mp hret
  refine ⟨x,hx,?_⟩
  rw [published_as_trained .ascii 0 id turnedPatterns turnedExecutor 1 sampleSessionizing rfl
    turnedInputs 7 30 1000 50000 (Sessionizer.init_default 7) turned_compiles rfl .initial true
    turnedSchedule x rfl hx hstop "blk_2"]
  decide +kernel

/-- One n-gram that the model does not know is enough at threshold zero. -/
theorem predicts_of_novel {m : SequenceModel} {events g : List String} (hg : g ∈ ngrams events m.n)
    (hnovel : g ∉ m.normalNgrams) : predicts m 0 events := by
  obtain ⟨hn,hlen,hi⟩ := mem_ngrams.mp hg
  have hshort := hi.length_le
  refine ⟨by omega,by omega,div_pos ?_ ?_⟩
  · exact_mod_cast Finset.card_pos.mpr ⟨g,by simp [hg, hnovel]⟩
  · exact_mod_cast Finset.card_pos.mpr ⟨g,by simp [hg]⟩

section
variable (chars : CharTable) (id : UUID) (patterns : List (String × Regex))

/-- A block that the pipeline gives an alarm for, at whatever moment and with
whatever threshold, is one that the evaluator predicts from the same log and the
same model at threshold zero. -/
theorem alarms_predicted (executor : Executor.Config) (handlers : ℕ) (z : Sessionizing σ F)
    (h : executor.stageNames =
      ["parse:hdfs","validate:schema","enrich:template_match","sessionize:block"])
    (inputs : Inputs) (runId : UUID) (idle : F) (records opens : ℤ)
    (hz : Sessionizer.Config.init runId idle records opens = .ok z.config)
    (hcompile : TemplateMatcher.compileTemplates inputs.templates = .ok patterns)
    (hmax : inputs.maxLines = none) (w : σ) (started : Bool) (k : ℕ) (d : SequenceAnomalyDetector)
    (ls : List (Label × Draw)) (x : Built σ) (anomalies : List AnomalyEvent)
    (hsource : executor.sourceRaises = false)
    (hrun : run (stepAlarmed (hdfsV1 chars id patterns executor handlers z h) k d)
      (initial (hdfsV1 chars id patterns executor handlers z h) w started
        ((FileLogSource.streamText inputs.log).map String.ofList),[]) ls = some (x,anomalies)) :
    ∀ a ∈ anomalies, ∃ b, a.metadata.get? "block_id" = some (.str b) ∧
      predicts d.model 0 (eventsOf chars patterns inputs b) := by
  intro a ha
  obtain ⟨b,hwarranted⟩ := alarms_warranted hsource hrun a ha
  obtain ⟨g,hg,hnovel⟩ := hwarranted.novel
  have hsame := survivors_trained chars id patterns executor handlers z h (init_keys hz) hcompile
    hmax w b
  exact ⟨b,hwarranted.block,predicts_of_novel (hsame ▸ hg) hnovel⟩

end

/-- The run of `turnedSchedule` with this detector. -/
def turnedRun (d : SequenceAnomalyDetector) : Option (Built Sessionizer.State × List AnomalyEvent) :=
  run (stepAlarmed turnedSetup 0 d) (turnedInitial,[])
    (turnedSchedule.map (fun l => (l,⟨1,2,0,true⟩)))

theorem alarms_predicted_turned : ∃ x a b,
    turnedRun ⟨⟨1,{["E2"]},∅⟩,0,le_refl 0⟩ = some (x,[a,b]) ∧
    ∃ blockId, a.metadata.get? "block_id" = some (.str blockId) ∧
      predicts ⟨1,{["E2"]},∅⟩ 0 (eventsOf .ascii turnedPatterns turnedInputs blockId) := by
  have hlen : (turnedRun ⟨⟨1,{["E2"]},∅⟩,0,le_refl 0⟩).map (fun p => p.2.length) = some 2 := by
    decide +kernel
  obtain ⟨⟨x,anomalies⟩,hrun,hlen⟩ := Option.map_eq_some_iff.mp hlen
  obtain ⟨a,b,rfl⟩ := List.length_eq_two.mp hlen
  exact ⟨x,a,b,hrun,alarms_predicted .ascii 0 turnedPatterns turnedExecutor 1 sampleSessionizing rfl
    turnedInputs 7 30 1000 50000 (Sessionizer.init_default 7) turned_compiles rfl .initial true 0 _
    _ x [a,b] rfl hrun a List.mem_cons_self⟩

section
variable (chars : CharTable) (id : UUID) (patterns : List (String × Regex))

/-- With the model that was trained on a log, saved and loaded, the pipeline
never gives an alarm for a normal block of that log, however its tasks are
interleaved and wherever the block's traces are cut. -/
theorem normal_blocks_quiet (py : Text) (ids : ℕ → UUID) (executor : Executor.Config)
    (handlers : ℕ) (z : Sessionizing σ F)
    (h : executor.stageNames =
      ["parse:hdfs","validate:schema","enrich:template_match","sessionize:block"])
    (inputs : Inputs) (runId : UUID) (idle : F) (records opens : ℤ)
    (hz : Sessionizer.Config.init runId idle records opens = .ok z.config)
    (hcompile : TemplateMatcher.compileTemplates inputs.templates = .ok patterns)
    (hmax : inputs.maxLines = none) (n : ℤ) (m loaded : SequenceModel)
    (labels : OrderedDict String String) (hlabels : loadLabels inputs.labels = .ok labels)
    (htrain : train chars ids inputs n = .ok m) (grams : List (List String))
    (hgrams : grams.toFinset = m.normalNgrams) (hload : fromDict py (toDict m grams) = .ok loaded)
    (threshold : ℚ) (hthreshold : 0 ≤ threshold) (w : σ) (started : Bool) (k : ℕ)
    (ls : List (Label × Draw)) (x : Built σ) (anomalies : List AnomalyEvent)
    (hsource : executor.sourceRaises = false)
    (hrun : run (stepAlarmed (hdfsV1 chars id patterns executor handlers z h) k
        ⟨loaded,threshold,hthreshold⟩)
      (initial (hdfsV1 chars id patterns executor handlers z h) w started
        ((FileLogSource.streamText inputs.log).map String.ofList),[]) ls = some (x,anomalies)) :
    ∀ a ∈ anomalies, ∃ b, a.metadata.get? "block_id" = some (.str b) ∧
      labels.get? b ≠ some "Normal" := by
  have hm : loaded = m :=
    Except.ok.inj (hload.symm.trans (fromDict_toDict py m grams hgrams))
  have hprepare : prepare inputs = .ok (labels,patterns) := by
    simp [prepare, hlabels, hcompile, csvError, Except.mapError]
  obtain ⟨m',hm',htrained⟩ := train_trainedOn chars ids hprepare (n := n)
  have htrained : TrainedOn labels n (eventsOf chars patterns inputs) m :=
    Except.ok.inj (hm'.symm.trans htrain) ▸ htrained
  intro a ha
  obtain ⟨b,hwarranted⟩ := alarms_warranted hsource hrun a ha
  obtain ⟨g,hg,hnovel⟩ := hwarranted.novel
  have hsame := survivors_trained chars id patterns executor handlers z h (init_keys hz) hcompile
    hmax w b
  refine ⟨b,hwarranted.block,fun hnormal => hnovel ?_⟩
  have hevents : g ∈ ngrams (eventsOf chars patterns inputs b) n := by
    rw [← hsame, ← htrained.n_eq, ← hm]
    exact hg
  exact hm ▸ (htrained.normal g).mpr ⟨b,hnormal,hevents⟩

end

def turnedModel : SequenceModel := (train .ascii id turnedInputs 2).toOption.getD ⟨2,∅,∅⟩

def turnedLabels : OrderedDict String String :=
  (loadLabels turnedInputs.labels).toOption.getD .empty

theorem normal_blocks_quiet_turned : ∃ x a, turnedRun ⟨turnedModel,0,le_refl 0⟩ = some (x,[a]) ∧
    ∃ b, a.metadata.get? "block_id" = some (.str b) ∧ turnedLabels.get? b ≠ some "Normal" := by
  have hlen : (turnedRun ⟨turnedModel,0,le_refl 0⟩).map (fun p => p.2.length) = some 1 := by
    decide +kernel
  obtain ⟨⟨x,anomalies⟩,hrun,hlen⟩ := Option.map_eq_some_iff.mp hlen
  obtain ⟨a,rfl⟩ := List.length_eq_one_iff.mp hlen
  have htrain : train .ascii id turnedInputs 2 = .ok turnedModel := ok_getD _ (by decide +kernel)
  have hlabels : loadLabels turnedInputs.labels = .ok turnedLabels := ok_getD _ (by decide +kernel)
  have hgrams : (turnedModel.normalNgrams.sort (· ≤ ·)).toFinset = turnedModel.normalNgrams :=
    Finset.sort_toFinset _ _
  exact ⟨x,a,hrun,normal_blocks_quiet .ascii 0 turnedPatterns sampleText id turnedExecutor 1
    sampleSessionizing rfl turnedInputs 7 30 1000 50000 (Sessionizer.init_default 7) turned_compiles
    rfl 2 turnedModel turnedModel turnedLabels hlabels htrain _ hgrams
    (fromDict_toDict sampleText turnedModel _ hgrams) 0 (le_refl 0) .initial true 0 _ x [a] rfl hrun
    a List.mem_cons_self⟩

end PipelineX.OnlineTraining
