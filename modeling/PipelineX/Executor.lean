import PipelineX.Stages
import PipelineX.TransitionSystem
import PipelineX.Tally

/-!
# `PipelineExecutor` as a transition system

One step is what a task does between two awaits: the producer, the consumers,
the flusher and `run` itself. Which task moves, and what the stages and the
repository answer, are the labels. A critical section of the batch lock holds
no await and is one step; the lock may still be waited for before it. The
`get` inside `wait_for` is awaited in the consumer's own task, as on CPython
3.12 and later, so that a record leaves the queue in the step in which the
consumer gets it; `InnerGet` has what 3.11 does.

After the counters of the executor a state keeps what happened: the stage
calls, and for every record how it left its consumer.
-/

set_option autoImplicit false

namespace PipelineX.Executor
open PipelineX.Records PipelineX.Stages PipelineX.TransitionSystem PipelineX.Tally

structure Config where
  stageNames : List String
  numWorkers : ℕ
  queueSize : ℕ
  batchSize : ℕ
  runId : UUID
  sourceRaises : Bool
  workers_pos : 0 < numWorkers
  queue_pos : 0 < queueSize
  batch_pos : 0 < batchSize

inductive SaveOutcome where
  | stored
  | repositoryError
  | unexpected
  deriving DecidableEq, Repr

/-- What `_flush_batch` swaps out of the buffer; it leaves an empty buffer
alone. -/
structure Batch where
  records : List LogRecord
  nonempty : records ≠ []
  deriving DecidableEq

/-- The task that called `_flush_batch`. -/
inductive Caller where
  | consumer
  | flusher
  | run
  deriving DecidableEq, Repr

structure SaveCall where
  caller : Caller
  toSave : Batch
  outcome : SaveOutcome
  deriving DecidableEq

/-- What the tasks share. From `calls` on, the fields are a history:
`passed` was buffered, `dropped` had a stage raise, `lost` was in a stage of a
cancelled consumer; `uncounted` was buffered by a consumer that was cancelled
before it counted it, and `interrupted` was in a cancelled save. -/
structure Shared where
  pulled : ℕ := 0
  queue : List LogRecord := []
  unfinished : ℕ := 0
  batchBuffer : List LogRecord := []
  shutdown : Bool := false
  recordsProcessed : ℤ := 0
  recordsFailed : ℤ := 0
  anomaliesDetected : ℕ := 0
  stored : List LogRecord := []
  calls : List StageCall := []
  passed : List LogRecord := []
  dropped : List LogRecord := []
  lost : List LogRecord := []
  uncounted : List LogRecord := []
  interrupted : List LogRecord := []
  swaps : List Batch := []
  saves : List SaveCall := []
  deriving DecidableEq

inductive Producer where
  | streaming (lines : List String)
  | putting (record : LogRecord) (lines : List String)
  | finished
  | failed
  deriving DecidableEq

inductive Consumer where
  | getting
  | staging (record : LogRecord) (k : ℕ)
  | flushing (record : LogRecord)
  | saving (record : LogRecord) (toSave : Batch)
  | exited
  deriving DecidableEq

inductive Flusher where
  | sleeping
  | flushing
  | saving (toSave : Batch)
  | exited
  deriving DecidableEq

inductive Main where
  | awaiting
  | joining
  | gathering
  | draining
  | saving (toSave : Batch)
  | returned
  | raised
  deriving DecidableEq

structure State where
  shared : Shared
  producer : Producer
  consumers : List Consumer
  flusher : Flusher
  main : Main
  deriving DecidableEq

def initial (cfg : Config) (lines : List String) : State where
  shared := {}
  producer := .streaming lines
  consumers := List.replicate cfg.numWorkers .getting
  flusher := .sleeping
  main := .awaiting

/-- The shell that `_produce` wraps around a line. -/
def shell (cfg : Config) (n : ℕ) (rawLine : String) : LogRecord where
  id := n
  pipelineRunId := some cfg.runId
  rawPayload := OrderedDict.empty.insert "raw" (.str rawLine)

def produce (cfg : Config) (s : Shared) : Producer → Option (Producer × Shared)
  | .streaming [] => some (if cfg.sourceRaises then .failed else .finished,s)
  | .streaming (l::ls) => some (.putting (shell cfg s.pulled l) ls,{ s with pulled := s.pulled+1 })
  | .putting r ls =>
    if s.queue.length < cfg.queueSize then
      some (.streaming ls,{ s with queue := s.queue ++ [r], unfinished := s.unfinished+1 })
    else none
  | .finished => none
  | .failed => none

def taskDone (s : Shared) : Shared := { s with unfinished := s.unfinished-1 }

/-- The critical section of `_buffer_for_batch` and its `should_flush`. -/
def bufferForBatch (cfg : Config) (s : Shared) (r : LogRecord) : Bool × Shared :=
  let s := { s with batchBuffer := s.batchBuffer ++ [r], passed := s.passed ++ [r] }
  (decide (cfg.batchSize ≤ s.batchBuffer.length),s)

/-- The critical section of `_flush_batch`: nothing to save, or the batch. -/
def flushBatch (s : Shared) : Option Batch × Shared :=
  if h : s.batchBuffer = [] then (none,s)
  else (some ⟨s.batchBuffer,h⟩,
    { s with batchBuffer := [], swaps := s.swaps ++ [⟨s.batchBuffer,h⟩] })

/-- The rest of `_flush_batch`: the call and its `except RepositoryError`. -/
def saveBatch (s : Shared) (caller : Caller) (toSave : Batch) : SaveOutcome → Shared
  | .stored => { s with stored := s.stored ++ toSave.records
                        saves := s.saves ++ [⟨caller,toSave,.stored⟩] }
  | .repositoryError => { s with recordsFailed := s.recordsFailed+toSave.records.length
                                 recordsProcessed := s.recordsProcessed-toSave.records.length
                                 saves := s.saves ++ [⟨caller,toSave,.repositoryError⟩] }
  | .unexpected => { s with saves := s.saves ++ [⟨caller,toSave,.unexpected⟩] }

def countProcessed (s : Shared) : Shared := { s with recordsProcessed := s.recordsProcessed+1 }

/-- The handlers of `_consume`: a fatal, a transient and any other error are
counted alike. -/
def countFailed (s : Shared) : Shared := { s with recordsFailed := s.recordsFailed+1 }

inductive ConsumerLabel where
  | timeout
  | get
  | stage (out : Except PyError LogRecord)
  | buffer
  | swap
  | saved (outcome : SaveOutcome)

def consume (cfg : Config) (s : Shared) : Consumer → ConsumerLabel → Option (Consumer × Shared)
  | .getting, .timeout => some (.getting,s)
  | .getting, .get =>
    match s.queue with
    | [] => none
    | r::queue => some (.staging r 0,{ s with queue })
  | .staging r k, .stage out =>
    match cfg.stageNames[k]? with
    | none => none
    | some name =>
      let s := { s with calls := s.calls ++ [⟨name,r⟩] }
      match out with
      | .error _ => some (.getting,taskDone (countFailed { s with dropped := s.dropped ++ [r] }))
      | .ok r' => if r'.id = r.id then some (.staging (r'.markStage name) (k+1),s) else none
  | .staging r k, .buffer =>
    if k = cfg.stageNames.length then
      let (shouldFlush,s) := bufferForBatch cfg s r
      if shouldFlush then some (.flushing r,s) else some (.getting,taskDone (countProcessed s))
    else none
  | .flushing r, .swap =>
    match flushBatch s with
    | (none,s) => some (.getting,taskDone (countProcessed s))
    | (some toSave,s) => some (.saving r toSave,s)
  | .saving _ toSave, .saved outcome =>
    let s := saveBatch s .consumer toSave outcome
    match outcome with
    | .unexpected => some (.getting,taskDone (countFailed s))
    | _ => some (.getting,taskDone (countProcessed s))
  | _, _ => none

/-- A cancelled consumer: `CancelledError` is no `Exception`, so only the
`finally` runs. A save it interrupts may have taken effect. -/
def unwind (s : Shared) (landed : Bool) : Consumer → Option Shared
  | .getting => some s
  | .staging r _ => some (taskDone { s with lost := s.lost ++ [r] })
  | .flushing r => some (taskDone { s with uncounted := s.uncounted ++ [r] })
  | .saving r toSave =>
    let s := { s with uncounted := s.uncounted ++ [r] }
    if landed then some (taskDone (saveBatch s .consumer toSave .stored))
    else some (taskDone { s with interrupted := s.interrupted ++ toSave.records })
  | .exited => none

/-- The head of the flusher's loop. -/
def flusherLoop (s : Shared) : Flusher := if s.shutdown then .exited else .sleeping

inductive FlusherLabel where
  | tick
  | swap
  | saved (outcome : SaveOutcome)

def batchFlusher (s : Shared) : Flusher → FlusherLabel → Option (Flusher × Shared)
  | .sleeping, .tick => some (.flushing,s)
  | .flushing, .swap =>
    match flushBatch s with
    | (none,s) => some (flusherLoop s,s)
    | (some toSave,s) => some (.saving toSave,s)
  | .saving toSave, .saved outcome =>
    let s := saveBatch s .flusher toSave outcome
    match outcome with
    | .unexpected => some (.exited,s)
    | _ => some (flusherLoop s,s)
  | _, _ => none

/-- How `run` ends when nothing went wrong in its final drain. -/
def ending : Producer → Main
  | .failed => .raised
  | _ => .returned

inductive MainLabel where
  | advance
  | saved (outcome : SaveOutcome)

/-- `run` after it has made its tasks. Leaving the `try`, it sets the shutdown
event and cancels the consumers without an await. -/
def runMain (s : State) : Main → MainLabel → Option (Main × Shared)
  | .awaiting, .advance =>
    match s.producer with
    | .finished => some (.joining,s.shared)
    | .failed => some (.gathering,{ s.shared with shutdown := true })
    | _ => none
  | .joining, .advance =>
    if s.shared.unfinished = 0 then some (.gathering,{ s.shared with shutdown := true }) else none
  | .gathering, .advance =>
    if (∀ c ∈ s.consumers, c = .exited) ∧ s.flusher = .exited then some (.draining,s.shared)
    else none
  | .draining, .advance =>
    match flushBatch s.shared with
    | (none,sh) => some (ending s.producer,sh)
    | (some toSave,sh) => some (.saving toSave,sh)
  | .saving toSave, .saved outcome =>
    let sh := saveBatch s.shared .run toSave outcome
    match outcome with
    | .unexpected => some (.raised,sh)
    | _ => some (ending s.producer,sh)
  | _, _ => none

inductive Label where
  | producer
  | consumer (i : ℕ) (l : ConsumerLabel)
  | cancelled (i : ℕ) (landed : Bool)
  | flusher (l : FlusherLabel)
  | main (l : MainLabel)

/-- Once the consumers are cancelled they only unwind. -/
def step (cfg : Config) (s : State) : Label → Option State
  | .producer =>
    (produce cfg s.shared s.producer).map
      (fun q => { s with producer := q.1, shared := q.2 })
  | .consumer i l =>
    if s.shared.shutdown then none
    else (s.consumers[i]?).bind (fun c => (consume cfg s.shared c l).map
      (fun q => { s with consumers := s.consumers.set i q.1, shared := q.2 }))
  | .cancelled i landed =>
    if s.shared.shutdown then
      (s.consumers[i]?).bind (fun c => (unwind s.shared landed c).map
        (fun sh => { s with consumers := s.consumers.set i .exited, shared := sh }))
    else none
  | .flusher l =>
    (batchFlusher s.shared s.flusher l).map (fun q => { s with flusher := q.1, shared := q.2 })
  | .main l =>
    (runMain s s.main l).map (fun q => { s with main := q.1, shared := q.2 })

structure PipelineRunResult where
  runId : UUID
  recordsProcessed : ℤ
  recordsFailed : ℤ
  anomaliesDetected : ℕ
  deriving DecidableEq, Repr

/-- What `run` returns, when it returns. -/
def result (cfg : Config) (s : State) : Option PipelineRunResult :=
  if s.main = .returned then
    some ⟨cfg.runId,s.shared.recordsProcessed,s.shared.recordsFailed,s.shared.anomaliesDetected⟩
  else none

end PipelineX.Executor
