import PipelineX.PyFloat

/-!
# The configuration and its validation

`parse_config` over the data that YAML gives. A model is validated field by
field; the errors of all fields are collected, and a model's own check runs
when there are none. How a single value is converted is up to the library;
what is fixed is that a string is a string and an integer an integer.
-/

set_option autoImplicit false

namespace PipelineX.Config
open PipelineX.Records

/-- What `yaml.safe_load` gives; the items of a dictionary in its order. -/
inductive Data where
  | none
  | bool (b : Bool)
  | int (n : ℤ)
  | float (x : Float64)
  | str (s : String)
  | list (xs : List Data)
  | dict (items : List (Data × Data))
  | other (type : String)

abbrev Items := List (Data × Data)

def Data.isStr (key : String) : Data → Bool
  | .str s => s == key
  | _ => false

def lookup : Items → String → Option Data
  | [], _ => none
  | (k,v)::rest, key => if k.isStr key then some v else lookup rest key

/-- `d[key] = value`. -/
def store : Items → String → Data → Items
  | [], key, v => [(.str key,v)]
  | (k,w)::rest, key, v => if k.isStr key then (k,v)::rest else (k,w)::store rest key v

structure FieldError where
  loc : List String
  message : String
  deriving DecidableEq, Repr

inductive Validation (α : Type) where
  | valid (a : α)
  | invalid (errors : List FieldError)

namespace Validation
variable {α β : Type}

def map (f : α → β) : Validation α → Validation β
  | valid a => valid (f a)
  | invalid errors => invalid errors

/-- One field more; the errors of both sides are kept. -/
def also : Validation (α → β) → Validation α → Validation β
  | valid f, x => x.map f
  | invalid errors, valid _ => invalid errors
  | invalid errors, invalid errors' => invalid (errors ++ errors')

/-- The part of the input that the errors are about. -/
def within (name : String) : Validation α → Validation α
  | valid a => valid a
  | invalid errors => invalid (errors.map (fun e => { e with loc := name::e.loc }))

def bind : Validation α → (α → Validation β) → Validation β
  | valid a, f => f a
  | invalid errors, _ => invalid errors

def fail (message : String) : Validation α := invalid [⟨[],message⟩]

theorem also_eq_valid {f : Validation (α → β)} {x : Validation α} {b : β} :
    f.also x = valid b ↔ ∃ g a, f = valid g ∧ x = valid a ∧ g a = b := by
  cases f <;> cases x <;> simp [also, map]

theorem bind_eq_valid {x : Validation α} {f : α → Validation β} {b : β} :
    x.bind f = valid b ↔ ∃ a, x = valid a ∧ f a = valid b := by
  cases x <;> simp [bind]

theorem within_eq_valid {name : String} {x : Validation α} {a : α} :
    x.within name = valid a ↔ x = valid a := by
  cases x <;> simp [within]

end Validation

open Validation

/-- The conversions of single values, and how the errors are shown. -/
structure Pydantic where
  str : Data → Except String String
  int : Data → Except String ℤ
  float : Data → Except String Float64
  bool : Data → Except String Bool
  list : Data → Except String (List Data)
  key : Data → String
  render : List FieldError → String
  str_str : ∀ s, str (.str s) = .ok s
  int_int : ∀ n, int (.int n) = .ok n

section
variable {α : Type}

def converted : Except String α → Validation α
  | .ok a => valid a
  | .error message => fail message

def field (items : Items) (name : String) (default : Option α) (read : Data → Validation α) :
    Validation α :=
  match lookup items name with
  | some v => (read v).within name
  | none =>
    match default with
    | some a => valid a
    | none => invalid [⟨[name],"Field required"⟩]

/-- `X | None`. -/
def nullable (read : Data → Validation α) : Data → Validation (Option α)
  | .none => valid none
  | v => (read v).map some

/-- One of the values of a `Literal`. -/
def literal (values : List (String × α)) (message : String) : Data → Validation α
  | .str s =>
    match values.find? (fun p => p.1 = s) with
    | some p => valid p.2
    | none => fail message
  | _ => fail message

/-- The items of a list, each with its number. -/
def each (read : Data → Validation α) : ℕ → List Data → Validation (List α)
  | _, [] => valid []
  | n, v::vs => ((valid List.cons).also ((read v).within (toString n))).also (each read (n+1) vs)

end

def itemsOf (model : String) : Data → Validation Items
  | .dict items => valid items
  | _ => fail ("Input should be a valid dictionary or instance of " ++ model)

section
variable (py : Pydantic)

def keyError (allowExtra : Bool) : Data → List FieldError
  | .str k => if allowExtra then [] else [⟨[k],"Extra inputs are not permitted"⟩]
  | k => [⟨[py.key k],"Keys should be strings"⟩]

def isField (fields : List String) (k : Data) : Bool := fields.any (fun name => k.isStr name)

/-- The items that are no field, which `extra="forbid"` refuses. -/
def extras (allowExtra : Bool) (fields : List String) (items : Items) : Validation Items :=
  let extra := items.filter (fun p => !isField fields p.1)
  match extra.flatMap (fun p => keyError py allowExtra p.1) with
  | [] => valid extra
  | errors => invalid errors

def str (v : Data) : Validation String := converted (py.str v)

def bool (v : Data) : Validation Bool := converted (py.bool v)

def float (v : Data) : Validation Float64 := converted (py.float v)

def int (v : Data) : Validation ℤ := converted (py.int v)

def listOf {α : Type} (read : Data → Validation α) (v : Data) : Validation (List α) :=
  (converted (py.list v)).bind (each read 0)

/-- `Field(ge=..., le=...)`. -/
def bounded (ge : ℤ) (le : Option ℤ) (v : Data) : Validation ℤ :=
  (int py v).bind (fun n =>
    if le.any (fun m => decide (m < n)) then
      fail ("Input should be less than or equal to " ++ toString (le.getD 0))
    else if n < ge then fail ("Input should be greater than or equal to " ++ toString ge)
    else valid n)

/-- `Field(gt=0.0)`. -/
def positive (v : Data) : Validation Float64 :=
  (float py v).bind (fun x =>
    if Double.lt Double.zero x then valid x else fail "Input should be greater than 0")

end

inductive SourceKind where
  | file
  | stdin
  | iterable
  deriving DecidableEq, Repr

structure SourceConfig where
  kind : SourceKind := .file
  path : Option String := none
  encoding : String := "utf-8"
  throttleRps : Option Float64 := none

structure ParserConfig where
  kind : String := "hdfs"

inductive ValidatorKind where
  | schema
  | size
  | rateLimit
  deriving DecidableEq, Repr

structure ValidatorConfig where
  kind : ValidatorKind
  extra : Items

structure DetectorConfig where
  kind : String
  metricKey : String := "metric"
  extra : Items

structure SequenceDetectorConfig where
  kind : String := "sequence_ngram"
  modelPath : Option String := none
  threshold : Float64 := Double.zero

structure SessionizerConfig where
  enabled : Bool := false
  idleWindowS : Float64 := Double.ofRat binary64 30
  maxRecordsPerTrace : ℤ := 1000
  maxOpenTraces : ℤ := 50000
  flushIntervalS : Float64 := Double.ofRat binary64 5

structure TemplateMatcherConfig where
  enabled : Bool := false
  templatesPath : String := "data/HDFS/preprocessed/HDFS.log_templates.csv"

inductive RepositoryKind where
  | memory
  | postgres
  deriving DecidableEq, Repr

structure RepositoryConfig where
  kind : RepositoryKind := .memory
  dsn : Option String := none

structure RuntimeConfig where
  numWorkers : ℤ := 4
  queueSize : ℤ := 1000
  batchSize : ℤ := 100
  flushIntervalS : Float64 := Double.ofRat binary64 1

structure PipelineConfig where
  source : SourceConfig
  parser : ParserConfig := {}
  validation : List ValidatorConfig := []
  templateMatcher : TemplateMatcherConfig := {}
  sessionizer : SessionizerConfig := {}
  detectors : List DetectorConfig := []
  sequenceDetector : Option SequenceDetectorConfig := none
  repository : RepositoryConfig := {}
  runtime : RuntimeConfig := {}

section
variable (py : Pydantic)

/-- A model that forbids extra fields, after its fields. -/
def closed {α : Type} (fields : List String) (items : Items) (model : Validation α) :
    Validation α :=
  (model.map (fun a _ => a)).also (extras py false fields items)

def sourceKind : Data → Validation SourceKind :=
  literal [("file",.file),("stdin",.stdin),("iterable",.iterable)]
    "Input should be 'file', 'stdin' or 'iterable'"

def SourceConfig.pathRequiredForFile (c : SourceConfig) : Validation SourceConfig :=
  if c.kind = .file ∧ c.path.getD "" = "" then
    fail "Value error, source.path is required when kind=file"
  else valid c

def SourceConfig.fields (items : Items) : Validation SourceConfig :=
  closed py ["kind","path","encoding","throttle_rps"] items
    (((((valid SourceConfig.mk).also (field items "kind" (some .file) sourceKind)).also
      (field items "path" (some none) (nullable (str py)))).also
      (field items "encoding" (some "utf-8") (str py))).also
      (field items "throttle_rps" (some none) (nullable (float py))))

def SourceConfig.validate (v : Data) : Validation SourceConfig :=
  (itemsOf "SourceConfig" v).bind (fun items =>
    (SourceConfig.fields py items).bind SourceConfig.pathRequiredForFile)

def ParserConfig.validate (v : Data) : Validation ParserConfig :=
  (itemsOf "ParserConfig" v).bind (fun items =>
    closed py ["kind"] items
      ((valid ParserConfig.mk).also (field items "kind" (some "hdfs") (str py))))

def ValidatorConfig.validate (v : Data) : Validation ValidatorConfig :=
  (itemsOf "ValidatorConfig" v).bind (fun items =>
    ((valid ValidatorConfig.mk).also (field items "kind" none
      (literal [("schema",.schema),("size",.size),("rate_limit",.rateLimit)]
        "Input should be 'schema', 'size' or 'rate_limit'"))).also
      (extras py true ["kind"] items))

def DetectorConfig.validate (v : Data) : Validation DetectorConfig :=
  (itemsOf "DetectorConfig" v).bind (fun items =>
    (((valid DetectorConfig.mk).also (field items "kind" none (str py))).also
      (field items "metric_key" (some "metric") (str py))).also
      (extras py true ["kind","metric_key"] items))

def SequenceDetectorConfig.validate (v : Data) : Validation SequenceDetectorConfig :=
  (itemsOf "SequenceDetectorConfig" v).bind (fun items =>
    closed py ["kind","model_path","threshold"] items
      ((((valid SequenceDetectorConfig.mk).also
        (field items "kind" (some "sequence_ngram") (str py))).also
        (field items "model_path" (some none) (nullable (str py)))).also
        (field items "threshold" (some Double.zero) (float py))))

def SessionizerConfig.validate (v : Data) : Validation SessionizerConfig :=
  (itemsOf "SessionizerConfig" v).bind (fun items =>
    closed py ["enabled","idle_window_s","max_records_per_trace","max_open_traces",
        "flush_interval_s"] items
      ((((((valid SessionizerConfig.mk).also
        (field items "enabled" (some false) (bool py))).also
        (field items "idle_window_s" (some (Double.ofRat binary64 30)) (float py))).also
        (field items "max_records_per_trace" (some 1000) (int py))).also
        (field items "max_open_traces" (some 50000) (int py))).also
        (field items "flush_interval_s" (some (Double.ofRat binary64 5)) (float py))))

def TemplateMatcherConfig.validate (v : Data) : Validation TemplateMatcherConfig :=
  (itemsOf "TemplateMatcherConfig" v).bind (fun items =>
    closed py ["enabled","templates_path"] items
      (((valid TemplateMatcherConfig.mk).also (field items "enabled" (some false) (bool py))).also
        (field items "templates_path" (some "data/HDFS/preprocessed/HDFS.log_templates.csv")
          (str py))))

def RepositoryConfig.dsnRequiredForPostgres (c : RepositoryConfig) :
    Validation RepositoryConfig :=
  if c.kind = .postgres ∧ c.dsn.getD "" = "" then
    fail "Value error, repository.dsn is required when kind=postgres"
  else valid c

def RepositoryConfig.validate (v : Data) : Validation RepositoryConfig :=
  (itemsOf "RepositoryConfig" v).bind (fun items =>
    (closed py ["kind","dsn"] items
      (((valid RepositoryConfig.mk).also (field items "kind" (some .memory)
        (literal [("memory",.memory),("postgres",.postgres)]
          "Input should be 'memory' or 'postgres'"))).also
        (field items "dsn" (some none) (nullable (str py))))).bind
      RepositoryConfig.dsnRequiredForPostgres)

def RuntimeConfig.fields (items : Items) : Validation RuntimeConfig :=
  closed py ["num_workers","queue_size","batch_size","flush_interval_s"] items
    (((((valid RuntimeConfig.mk).also
      (field items "num_workers" (some 4) (bounded py 1 (some 64)))).also
      (field items "queue_size" (some 1000) (bounded py 1 none))).also
      (field items "batch_size" (some 100) (bounded py 1 none))).also
      (field items "flush_interval_s" (some (Double.ofRat binary64 1)) (positive py)))

def RuntimeConfig.validate (v : Data) : Validation RuntimeConfig :=
  (itemsOf "RuntimeConfig" v).bind (RuntimeConfig.fields py)

def PipelineConfig.sections : List String :=
  ["source","parser","validation","template_matcher","sessionizer","detectors",
    "sequence_detector","repository","runtime"]

def PipelineConfig.validate (items : Items) : Validation PipelineConfig :=
  closed py PipelineConfig.sections items
    ((((((((((valid PipelineConfig.mk).also
      (field items "source" none (SourceConfig.validate py))).also
      (field items "parser" (some {}) (ParserConfig.validate py))).also
      (field items "validation" (some []) (listOf py (ValidatorConfig.validate py)))).also
      (field items "template_matcher" (some {}) (TemplateMatcherConfig.validate py))).also
      (field items "sessionizer" (some {}) (SessionizerConfig.validate py))).also
      (field items "detectors" (some []) (listOf py (DetectorConfig.validate py)))).also
      (field items "sequence_detector" (some none)
        (nullable (SequenceDetectorConfig.validate py)))).also
      (field items "repository" (some {}) (RepositoryConfig.validate py))).also
      (field items "runtime" (some {}) (RuntimeConfig.validate py)))

def parseConfig (d : Items) : Except PyError PipelineConfig :=
  match PipelineConfig.validate py d with
  | .valid c => .ok c
  | .invalid errors =>
    .error (.other "ConfigurationError" ("config validation failed: " ++ py.render errors))

/-- The options of `pipelinex run`. -/
structure Overrides where
  workers : Option ℤ
  sourcePath : Option String
  deriving DecidableEq, Repr

def applySourcePath (sourcePath : Option String) (c : PipelineConfig) : PipelineConfig :=
  match sourcePath with
  | some path => { c with source := { c.source with path := some path, kind := .file } }
  | none => c

def applyWorkers (workers : Option ℤ) (c : PipelineConfig) : PipelineConfig :=
  match workers with
  | some n => { c with runtime := { c.runtime with numWorkers := n } }
  | none => c

/-- What `_run` hands to `build_pipeline`. -/
def handed (d : Items) (o : Overrides) : Except PyError PipelineConfig :=
  (parseConfig py d).map (fun c => applyWorkers o.workers (applySourcePath o.sourcePath c))

end

end PipelineX.Config
