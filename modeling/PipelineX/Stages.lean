import PipelineX.Sessionizer

/-!
# The stages that `build_pipeline` makes

A stage is a call on a record that returns a record or raises. What the
stages of a run keep between calls (buckets, windows, the open table, the
readings of a clock still to come) is one state `σ`, which a call may read
and change. Every stage hands on the id, the run id and the stage history of
the record it was given; a `Stage` carries the proof that it does.
-/

set_option autoImplicit false

namespace PipelineX.Stages
open PipelineX.Records

/-- What `ParserStage` copies by hand and the other stages leave alone. -/
structure Carries (r r' : LogRecord) : Prop where
  id : r'.id = r.id
  pipelineRunId : r'.pipelineRunId = r.pipelineRunId
  stageHistory : r'.stageHistory = r.stageHistory

theorem Carries.refl (r : LogRecord) : Carries r r := ⟨rfl,rfl,rfl⟩

structure Stage (σ : Type) where
  name : String
  process : σ → LogRecord → Except PyError LogRecord × σ
  carries : ∀ w r r', (process w r).1 = .ok r' → Carries r r'

variable {σ : Type}

structure Parser where
  name : String
  parse : String → Except PyError LogRecord

/-- `record.raw_payload.get("raw")`. -/
def rawOf (r : LogRecord) : Value := (r.rawPayload.get? "raw").getD .none

/-- The parsed record under the identity of the one that came in; enrichment
of earlier stages fills in where the parser set none. -/
def adopt (record parsed : LogRecord) : LogRecord :=
  { parsed with
    id := record.id
    pipelineRunId := record.pipelineRunId
    stageHistory := record.stageHistory
    enrichment := record.enrichment.items.foldl (fun d p => d.setDefault p.1 p.2)
      parsed.enrichment }

def parseRecord (parser : Parser) (record : LogRecord) : Except PyError LogRecord :=
  match rawOf record with
  | .str raw =>
    match parser.parse raw with
    | .ok parsed => .ok (adopt record parsed)
    | .error (.parserError e) =>
      .error (.fatalStageError (parser.name ++ " failed to parse: " ++ e))
    | .error e => .error e
  | raw => .error (.fatalStageError
      ("ParserStage requires raw_payload['raw'] to be str, got " ++ raw.typeName))

theorem parseRecord_carries (parser : Parser) (r r' : LogRecord)
    (h : parseRecord parser r = .ok r') : Carries r r' := by
  unfold parseRecord at h
  split at h
  · split at h
    · cases h
      exact ⟨rfl,rfl,rfl⟩
    · cases h
    · cases h
  · cases h

def parserStage (parser : Parser) : Stage σ where
  name := "parse:" ++ parser.name
  process w r := (parseRecord parser r,w)
  carries _ r r' h := parseRecord_carries parser r r' h

structure ValidationResult where
  valid : Bool
  reason : String := ""
  validatorName : String := ""
  deriving DecidableEq, Repr

structure Validator (σ : Type) where
  name : String
  validate : σ → LogRecord → ValidationResult × σ

/-- The loop over the chain, up to the first failure. -/
def validateChain : List (Validator σ) → σ → LogRecord → Except PyError LogRecord × σ
  | [], w, r => (.ok r,w)
  | v::vs, w, r =>
    let (result,w) := v.validate w r
    if result.valid then validateChain vs w r
    else (.error (.validationError ("validator " ++ result.validatorName ++
      " rejected record: " ++ result.reason)),w)

theorem validateChain_record (vs : List (Validator σ)) (w : σ) (r r' : LogRecord)
    (h : (validateChain vs w r).1 = .ok r') : r' = r := by
  induction vs generalizing w with
  | nil =>
    cases h
    rfl
  | cons v vs ih =>
    simp only [validateChain] at h
    split at h
    · exact ih _ h
    · cases h

def validationStage (validators : List (Validator σ)) : Stage σ where
  name := "validate:" ++ ",".intercalate (validators.map Validator.name)
  process := validateChain validators
  carries w r r' h := validateChain_record validators w r r' h ▸ Carries.refl r

/-- The first template whose pattern matches the message. -/
def matchEventId (patterns : List (String × (String → Bool))) (message : String) :
    Option String :=
  (patterns.find? (fun p => p.2 message)).map Prod.fst

def matchTemplate (patterns : List (String × (String → Bool))) (enrichmentKey : String)
    (r : LogRecord) : LogRecord :=
  match matchEventId patterns r.message with
  | some eid => r.addEnrichment enrichmentKey (.str eid)
  | none => r

theorem matchTemplate_carries (patterns : List (String × (String → Bool)))
    (enrichmentKey : String) (r : LogRecord) :
    Carries r (matchTemplate patterns enrichmentKey r) := by
  unfold matchTemplate
  split
  · exact ⟨rfl,rfl,rfl⟩
  · exact Carries.refl r

def templateMatcherStage (patterns : List (String × (String → Bool)))
    (enrichmentKey : String := "event_id") : Stage σ where
  name := "enrich:template_match"
  process w r := (.ok (matchTemplate patterns enrichmentKey r),w)
  carries _ r r' h := by
    cases h
    exact matchTemplate_carries patterns enrichmentKey r

/-- The sessionizer inside the state of a run: where its own state is kept,
and what the wall clock reads at the call. -/
structure Sessionizing (σ F : Type) [Sessionizer.Seconds F] where
  config : Sessionizer.Config F
  state : σ → Sessionizer.State
  update : σ → Sessionizer.State → σ
  clock : σ → Datetime × Datetime

def sessionizerStage {F : Type} [Sessionizer.Seconds F] (z : Sessionizing σ F) : Stage σ where
  name := "sessionize:block"
  process w r :=
    let (out,s) := Sessionizer.process z.config (z.state w) r (z.clock w).1 (z.clock w).2
    (out,z.update w s)
  carries w r r' h := by
    have hout := Sessionizer.process_outcome z.config (z.state w) r (z.clock w).1 (z.clock w).2
    exact Sessionizer.outcome_record (hout.symm.trans h) ▸ Carries.refl r

/-- A detector and the repository it reports to, inside the state of a run. -/
structure Detecting (σ : Type) where
  name : String
  detect : σ → LogRecord → Except PyError (Option AnomalyEvent) × σ
  saveAnomaly : σ → AnomalyEvent → Except PyError Unit × σ
  countAnomaly : σ → σ

def detectRecord (d : Detecting σ) (w : σ) (r : LogRecord) : Except PyError LogRecord × σ :=
  match d.detect w r with
  | (.error e,w) => (.error e,w)
  | (.ok none,w) => (.ok r,w)
  | (.ok (some anomaly),w) =>
    match d.saveAnomaly w anomaly with
    | (.error e,w) => (.error e,w)
    | (.ok _,w) =>
      (.ok (r.addEnrichment ("anomaly:" ++ d.name) (.float anomaly.severityScore)),
        d.countAnomaly w)

theorem detectRecord_carries (d : Detecting σ) (w : σ) (r r' : LogRecord)
    (h : (detectRecord d w r).1 = .ok r') : Carries r r' := by
  unfold detectRecord at h
  split at h
  · cases h
  · cases h
    exact Carries.refl r
  · split at h
    · cases h
    · cases h
      exact ⟨rfl,rfl,rfl⟩

def detectorStage (d : Detecting σ) : Stage σ where
  name := "detect:" ++ d.name
  process := detectRecord d
  carries := detectRecord_carries d

/-- The stages of `build_pipeline` before the sessionizer. -/
def frontStages (parser : Stage σ) (validation template : Option (Stage σ)) : List (Stage σ) :=
  [parser] ++ validation.toList ++ template.toList

/-- The stage list of `build_pipeline`, in its order. -/
def buildStages (parser : Stage σ) (validation template sessionizer : Option (Stage σ))
    (detectors : List (Stage σ)) : List (Stage σ) :=
  frontStages parser validation template ++ sessionizer.toList ++ detectors

/-- A call of a stage, as the stage sees it. -/
structure StageCall where
  stage : String
  record : LogRecord
  deriving DecidableEq

/-- One record through a list of stages: the calls made, and the record that
came out or the exception of the stage that raised. -/
def runStages : List (Stage σ) → σ → LogRecord → List StageCall × Except PyError LogRecord × σ
  | [], w, r => ([],.ok r,w)
  | st::rest, w, r =>
    match st.process w r with
    | (.error e,w) => ([⟨st.name,r⟩],.error e,w)
    | (.ok r',w) =>
      let (calls,out) := runStages rest w (r'.markStage st.name)
      (⟨st.name,r⟩::calls,out)

/-- A record that passes a list of stages keeps its identity and has their
names, in order, at the end of its history. -/
theorem runStages_carries (sts : List (Stage σ)) (w : σ) (r r' : LogRecord)
    (h : (runStages sts w r).2.1 = .ok r') :
    r'.id = r.id ∧ r'.stageHistory = r.stageHistory ++ sts.map Stage.name := by
  induction sts generalizing w r with
  | nil =>
    cases h
    simp
  | cons st rest ih =>
    have hst := st.carries w r
    simp only [runStages] at h
    split at h
    · cases h
    · next r₁ w₁ hp =>
      have hc := hst r₁ (by rw [hp])
      obtain ⟨hid,hhist⟩ := ih _ _ h
      refine ⟨hid.trans hc.id,?_⟩
      rw [hhist, LogRecord.markStage, hc.stageHistory, List.append_assoc]
      rfl

end PipelineX.Stages
