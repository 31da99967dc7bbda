import PipelineX.Records
import PipelineX.Sql
import PipelineX.Uuid

/-!
# The two log repositories

`InMemoryLogRepository` and `PostgresLogRepository`. What PostgreSQL stores
is a table of rows for each of the three `Table`s of `postgres_repo.py`; the
columns that are not nullable have no `NULL` by their type. The order in which
the server returns rows, what it says of a violated constraint and the
readings of the clock are inputs.
-/

set_option autoImplicit false

namespace PipelineX.Repositories
open PipelineX.Records PipelineX.Sql

structure QueryFilters where
  severity : Option String := none
  source : Option String := none
  pipelineRunId : Option String := none
  after : Option Datetime := none
  before : Option Datetime := none
  limit : ℤ := 1000
  deriving DecidableEq, Repr

structure InMemoryLogRepository where
  records : List LogRecord
  traces : List BlockTrace
  anomalies : List AnomalyEvent

namespace InMemoryLogRepository

def empty : InMemoryLogRepository := ⟨[],[],[]⟩

def saveBatch (m : InMemoryLogRepository) (records : List LogRecord) : InMemoryLogRepository :=
  { m with records := m.records ++ records }

def saveTrace (m : InMemoryLogRepository) (trace : BlockTrace) : InMemoryLogRepository :=
  { m with traces := m.traces ++ [trace] }

def saveAnomaly (m : InMemoryLogRepository) (anomaly : AnomalyEvent) : InMemoryLogRepository :=
  { m with anomalies := m.anomalies ++ [anomaly] }

/-- `str(r.pipeline_run_id)`. -/
def runText (r : LogRecord) : String := r.pipelineRunId.elim "None" Uuid.str

/-- One of the `continue`s of `query` is reached. -/
def skipped (f : QueryFilters) (r : LogRecord) : Bool :=
  f.severity.elim false (fun s => r.severity.text != s) ||
  f.source.elim false (fun s => r.source != s) ||
  f.pipelineRunId.elim false (fun s => runText r != s) ||
  f.after.elim false (fun d => r.timestamp.elim true (fun t => t < d)) ||
  f.before.elim false (fun d => r.timestamp.elim true (fun t => d < t))

def queryLoop (f : QueryFilters) : List LogRecord → List LogRecord → List LogRecord
  | results, [] => results
  | results, r::rs =>
    if skipped f r then queryLoop f results rs
    else if f.limit ≤ (results ++ [r]).length then results ++ [r]
    else queryLoop f (results ++ [r]) rs

def query (m : InMemoryLogRepository) (f : QueryFilters) : List LogRecord :=
  queryLoop f [] m.records

def allTraces (m : InMemoryLogRepository) : List BlockTrace := m.traces

end InMemoryLogRepository

/-- A `datetime` that the driver returns. -/
inductive Stamp where
  | naive (wall : ℤ)
  | aware (instant : Datetime)
  deriving DecidableEq, Repr

/-- As a `TIMESTAMPTZ` of a session in UTC. -/
def Stamp.instant : Stamp → Datetime
  | .naive wall => wall
  | .aware t => t

/-- `_as_utc`, with the reading of `datetime.now(UTC)`. -/
def asUtc (now : Datetime) : Option Stamp → Datetime
  | none => now
  | some (.naive wall) => wall
  | some (.aware t) => t

structure RecordRow where
  id : UUID
  pipelineRunId : Option UUID
  timestamp : Option Stamp
  source : String
  severity : String
  message : String
  rawPayload : OrderedDict String Value
  enrichment : OrderedDict String Value
  stageHistory : List String
  deriving DecidableEq

structure TraceRow where
  blockId : String
  pipelineRunId : UUID
  firstTimestamp : Option Stamp
  lastTimestamp : Option Stamp
  recordCount : ℕ
  eventSequence : List String
  closedReason : ClosedReason
  deriving DecidableEq, Repr

structure AnomalyRow where
  id : UUID
  logRecordId : UUID
  detectorName : String
  severityScore : ℚ
  detectedAt : Option Stamp
  metadata : OrderedDict String Value
  deriving DecidableEq

/-- `log_records_table`. -/
def logRecords : Schema RecordRow UUID where
  key := RecordRow.id
  admits row := row.source.length ≤ 255 && row.severity.length ≤ 20

/-- `block_traces_table`. -/
def blockTraces : Schema TraceRow String where
  key := TraceRow.blockId
  admits row := row.blockId.length ≤ 64 && row.closedReason.text.length ≤ 20

/-- `anomaly_events_table`. -/
def anomalyEvents : Schema AnomalyRow UUID where
  key := AnomalyRow.id
  admits row := row.detectorName.length ≤ 100 && row.detectedAt.isSome

def recordToRow (r : LogRecord) : RecordRow where
  id := r.id
  pipelineRunId := r.pipelineRunId
  timestamp := r.timestamp.map .aware
  source := r.source
  severity := r.severity.text
  message := r.message
  rawPayload := r.rawPayload
  enrichment := r.enrichment
  stageHistory := r.stageHistory

/-- `Severity(text)`; the text is quoted as one without quotes in it. -/
def severityOf (text : String) : Except PyError Severity :=
  match text with
  | "DEBUG" => .ok .debug
  | "INFO" => .ok .info
  | "WARNING" => .ok .warning
  | "ERROR" => .ok .error
  | "CRITICAL" => .ok .critical
  | text => .error (.other "ValueError" ("'" ++ text ++ "' is not a valid Severity"))

def rowToRecord (now : Datetime) (row : RecordRow) : Except PyError LogRecord := do
  let severity ← if row.severity = "" then .ok .info else severityOf row.severity
  return {
    id := row.id
    pipelineRunId := row.pipelineRunId
    timestamp := some (asUtc now row.timestamp)
    source := if row.source = "" then "" else row.source
    severity := severity
    message := if row.message = "" then "" else row.message
    rawPayload := if row.rawPayload.items = [] then .empty else row.rawPayload
    enrichment := if row.enrichment.items = [] then .empty else row.enrichment
    stageHistory := if row.stageHistory = [] then [] else row.stageHistory }

def traceToRow (t : BlockTrace) : TraceRow where
  blockId := t.blockId
  pipelineRunId := t.pipelineRunId
  firstTimestamp := some (.aware t.firstTimestamp)
  lastTimestamp := some (.aware t.lastTimestamp)
  recordCount := t.recordCount
  eventSequence := t.eventSequence
  closedReason := t.closedReason

def rowToTrace (now now' : Datetime) (row : TraceRow) : BlockTrace where
  blockId := row.blockId
  eventSequence := if row.eventSequence = [] then [] else row.eventSequence
  recordIds := []
  firstTimestamp := asUtc now row.firstTimestamp
  lastTimestamp := asUtc now' row.lastTimestamp
  recordCount := row.recordCount
  pipelineRunId := row.pipelineRunId
  closedReason := row.closedReason

/-- The row that `save_anomaly` inserts. -/
def anomalyToRow (a : AnomalyEvent) : AnomalyRow where
  id := a.id
  logRecordId := a.logRecordId
  detectorName := a.detectorName
  severityScore := a.severityScore
  detectedAt := some (.aware a.detectedAt)
  metadata := a.metadata

def rowToAnomaly (now : Datetime) (row : AnomalyRow) : AnomalyEvent where
  id := row.id
  logRecordId := row.logRecordId
  detectorName := row.detectorName
  severityScore := row.severityScore
  detectedAt := asUtc now row.detectedAt
  metadata := if row.metadata.items = [] then .empty else row.metadata

structure PostgresLogRepository where
  records : Table logRecords
  traces : Table blockTraces
  anomalies : Table anomalyEvents

namespace PostgresLogRepository

def empty : PostgresLogRepository := ⟨.empty,.empty,.empty⟩

/-- `except SQLAlchemyError`: the failed statement leaves the table alone. -/
def inserted {α : Type} (describe : Violation → String) (method : String)
    (result : Except Violation α) : Except PyError α :=
  result.mapError (fun e => .repositoryError (method ++ " failed: " ++ describe e))

def saveBatch (describe : Violation → String) (db : PostgresLogRepository)
    (records : List LogRecord) : Except PyError PostgresLogRepository :=
  if records = [] then .ok db
  else do
    let table ← inserted describe "save_batch" (db.records.insert (records.map recordToRow))
    return { db with records := table }

def saveTraceBatch (describe : Violation → String) (db : PostgresLogRepository)
    (traces : List BlockTrace) : Except PyError PostgresLogRepository :=
  if traces = [] then .ok db
  else do
    let table ← inserted describe "save_trace_batch" (db.traces.insert (traces.map traceToRow))
    return { db with traces := table }

def saveTrace (describe : Violation → String) (db : PostgresLogRepository)
    (trace : BlockTrace) : Except PyError PostgresLogRepository :=
  saveTraceBatch describe db [trace]

def saveAnomaly (describe : Violation → String) (db : PostgresLogRepository)
    (anomaly : AnomalyEvent) : Except PyError PostgresLogRepository := do
  let table ← inserted describe "save_anomaly" (db.anomalies.insert [anomalyToRow anomaly])
  return { db with anomalies := table }

def severityIs (s : String) (row : RecordRow) : Truth := compare (· == s) (some row.severity)

def sourceIs (s : String) (row : RecordRow) : Truth := compare (· == s) (some row.source)

def runIs (u : UUID) (row : RecordRow) : Truth := compare (· == u) row.pipelineRunId

def notBefore (d : Datetime) (row : RecordRow) : Truth :=
  compare (fun s => d ≤ s.instant) row.timestamp

def notAfter (d : Datetime) (row : RecordRow) : Truth :=
  compare (fun s => s.instant ≤ d) row.timestamp

/-- The `WHERE` clauses of `query`, in the order in which they are built. -/
def clauses (chars : CharTable) (f : QueryFilters) : Except PyError (List (RecordRow → Truth)) := do
  let run ← match f.pipelineRunId with
    | none => .ok []
    | some t => (Uuid.parse chars t).map (fun u => [runIs u])
  return f.severity.toList.map severityIs ++ f.source.toList.map sourceIs ++ run ++
    f.after.toList.map notBefore ++ f.before.toList.map notAfter

/-- `query` on the rows of the table in the order of the scan; `clock` is read
when a row is mapped. -/
def query (chars : CharTable) (clock : UUID → Datetime) (f : QueryFilters)
    (scan : List RecordRow) : Except PyError (List LogRecord) := do
  let clauses ← clauses chars f
  if f.limit < 0 then throw (.repositoryError "query failed: LIMIT must not be negative")
  ((select clauses scan).take f.limit.toNat).mapM (fun row => rowToRecord (clock row.id) row)

/-- `all_traces` on the rows in the order of the scan. -/
def allTraces (clock clock' : String → Datetime) (scan : List TraceRow) : List BlockTrace :=
  scan.map (fun row => rowToTrace (clock row.blockId) (clock' row.blockId) row)

end PostgresLogRepository

theorem severityOf_text (s : Severity) : severityOf s.text = .ok s := by
  cases s <;> rfl

theorem text_ne_empty (s : Severity) : s.text ≠ "" := by
  cases s <;> decide

theorem if_empty {α : Type*} (x e : α) [Decidable (x = e)] : (if x = e then e else x) = x := by
  split
  · next h => exact h.symm
  · rfl

theorem if_no_items (d : OrderedDict String Value) :
    (if d.items = [] then OrderedDict.empty else d) = d := by
  split
  · next h => exact OrderedDict.ext_items h.symm
  · rfl

/-- The defaults for empty columns change nothing. -/
theorem rowToRecord_eq (now : Datetime) (row : RecordRow) (s : Severity)
    (hs : row.severity = s.text) : rowToRecord now row =
      .ok ⟨row.id,row.pipelineRunId,some (asUtc now row.timestamp),row.source,s,row.message,
        row.rawPayload,row.enrichment,row.stageHistory⟩ := by
  have hne : row.severity ≠ "" := hs ▸ text_ne_empty s
  have hof : severityOf row.severity = .ok s := hs ▸ severityOf_text s
  simp only [rowToRecord, if_neg hne, hof, if_empty, if_no_items]
  rfl

theorem rowToAnomaly_eq (now : Datetime) (row : AnomalyRow) : rowToAnomaly now row =
    ⟨row.id,row.logRecordId,row.detectorName,row.severityScore,asUtc now row.detectedAt,
      row.metadata⟩ := by
  simp only [rowToAnomaly, if_no_items]

theorem rowToTrace_eq (now now' : Datetime) (row : TraceRow) : rowToTrace now now' row =
    ⟨row.blockId,row.eventSequence,[],asUtc now row.firstTimestamp,asUtc now' row.lastTimestamp,
      row.recordCount,row.pipelineRunId,row.closedReason⟩ := by
  simp only [rowToTrace, if_empty]

theorem asUtc_aware (now : Datetime) (t : Option Datetime) :
    asUtc now (t.map Stamp.aware) = t.getD now := by
  cases t <;> rfl

/-- What comes back of a record that was stored. -/
theorem rowToRecord_recordToRow (now : Datetime) (r : LogRecord) :
    rowToRecord now (recordToRow r) = .ok { r with timestamp := some (r.timestamp.getD now) } := by
  rw [rowToRecord_eq now (recordToRow r) r.severity rfl, ← asUtc_aware]
  rfl

/-- A record with a timestamp comes back as it was stored, one without comes
back with the time of the query. Anomalies come back as they were stored. -/
theorem row_round_trip_iff (now : Datetime) :
    (∀ r, rowToRecord now (recordToRow r) = .ok r ↔ r.timestamp ≠ none) ∧
    ∀ a, rowToAnomaly now (anomalyToRow a) = a := by
  refine ⟨fun r => ?_,fun a => ?_⟩
  · rw [rowToRecord_recordToRow]
    constructor
    · intro h hn
      have ht := congrArg LogRecord.timestamp (Except.ok.inj h)
      rw [hn] at ht
      cases ht
    · intro h
      obtain ⟨t,ht⟩ := Option.ne_none_iff_exists'.mp h
      cases r
      cases ht
      rfl
  · exact rowToAnomaly_eq now (anomalyToRow a)

/-- A record as `LogRecord()` makes it. -/
def bare : LogRecord where
  id := 0

theorem bare_not_round_trip : rowToRecord 5 (recordToRow bare) ≠ .ok bare := by
  rw [rowToRecord_recordToRow]
  intro h
  cases congrArg LogRecord.timestamp (Except.ok.inj h)

end PipelineX.Repositories
