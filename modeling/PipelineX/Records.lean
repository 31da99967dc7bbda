import PipelineX.OrderedDict
import Mathlib.Data.Rat.Defs
import Mathlib.Data.Int.Notation

/-!
# The data that flows through the pipeline

The types of `core/models.py` and the exceptions of `core/exceptions.py`.
A `UUID` is a number: `uuid4()` is a fresh one. A `Datetime` is a
timezone-aware instant, in microseconds since the epoch.
-/

set_option autoImplicit false

namespace PipelineX.Records

abbrev UUID := ℕ
abbrev Datetime := ℤ

inductive Severity where
  | debug
  | info
  | warning
  | error
  | critical
  deriving DecidableEq, Repr

/-- `str(severity)`. -/
def Severity.text : Severity → String
  | .debug => "DEBUG"
  | .info => "INFO"
  | .warning => "WARNING"
  | .error => "ERROR"
  | .critical => "CRITICAL"

/-- A Python value in a `dict[str, Any]`. `lists` is a list of lists of
strings; an `object` is any other value, which equals none of these. -/
inductive Value where
  | none
  | bool (b : Bool)
  | int (n : ℤ)
  | float (x : ℚ)
  | str (s : String)
  | lists (xs : List (List String))
  | object (type : String) (ref : ℕ)
  deriving DecidableEq

/-- `type(value).__name__`. -/
def Value.typeName : Value → String
  | .none => "NoneType"
  | .bool _ => "bool"
  | .int _ => "int"
  | .float _ => "float"
  | .str _ => "str"
  | .lists _ => "list"
  | .object type _ => type

/-- `hash(value)` raises: the built-in types that are mutable, but for `set`,
of which `in` takes a frozen copy. Other objects are hashable. -/
def Value.unhashable : Value → Bool
  | .lists _ => true
  | .object type _ => type ∈ ["list","dict","bytearray"]
  | _ => false

structure LogRecord where
  id : UUID
  pipelineRunId : Option UUID := none
  timestamp : Option Datetime := none
  source : String := ""
  severity : Severity := .info
  message : String := ""
  rawPayload : OrderedDict String Value := .empty
  enrichment : OrderedDict String Value := .empty
  stageHistory : List String := []
  deriving DecidableEq

def LogRecord.addEnrichment (r : LogRecord) (key : String) (value : Value) : LogRecord :=
  { r with enrichment := r.enrichment.insert key value }

def LogRecord.markStage (r : LogRecord) (stageName : String) : LogRecord :=
  { r with stageHistory := r.stageHistory ++ [stageName] }

inductive ClosedReason where
  | terminal
  | timeout
  | shutdown
  | evicted
  deriving DecidableEq, Repr

/-- The literal that `ClosedReason` names. -/
def ClosedReason.text : ClosedReason → String
  | .terminal => "terminal"
  | .timeout => "timeout"
  | .shutdown => "shutdown"
  | .evicted => "evicted"

structure BlockTrace where
  blockId : String
  eventSequence : List String
  recordIds : List UUID
  firstTimestamp : Datetime
  lastTimestamp : Datetime
  recordCount : ℕ
  pipelineRunId : UUID
  closedReason : ClosedReason
  deriving DecidableEq, Repr

structure AnomalyEvent where
  id : UUID
  logRecordId : UUID
  detectorName : String
  severityScore : ℚ
  detectedAt : Datetime
  metadata : OrderedDict String Value
  deriving DecidableEq

/-- An exception that is an `Exception`: the classes that the code tells
apart, and every other one by its class name. -/
inductive PyError where
  | fatalStageError (message : String)
  | transientStageError (message : String)
  | parserError (message : String)
  | validationError (message : String)
  | repositoryError (message : String)
  | other (type message : String)
  deriving DecidableEq, Repr

end PipelineX.Records
