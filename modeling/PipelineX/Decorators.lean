import PipelineX.Records
import PipelineX.Bisect
import Mathlib.Algebra.Order.Ring.Rat
import Mathlib.Tactic.NormNum

/-!
# The stage decorators

`RetryDecorator`, `TimingDecorator` and `LoggingDecorator` around a stage, and
the registry that the timing goes to. What the inner stage does at each call,
the readings of the clock and the power of floats are inputs; the delays are
over any linear order.
-/

set_option autoImplicit false

namespace PipelineX.Decorators
open PipelineX.Records

/-- `type(e).__name__`. -/
def errorType : PyError → String
  | .fatalStageError _ => "FatalStageError"
  | .transientStageError _ => "TransientStageError"
  | .parserError _ => "ParserError"
  | .validationError _ => "ValidationError"
  | .repositoryError _ => "RepositoryError"
  | .other type _ => type

/-- `str(e)`. -/
def errorText : PyError → String
  | .fatalStageError message => message
  | .transientStageError message => message
  | .parserError message => message
  | .validationError message => message
  | .repositoryError message => message
  | .other _ message => message

/-- How a call of `process` ends. An interruption is a `BaseException` that is
no `Exception`, by its class name. -/
inductive Outcome where
  | returned (record : LogRecord)
  | raised (e : PyError)
  | interrupted (type : String)
  deriving DecidableEq

/-- `except TransientStageError` catches it. -/
def Outcome.transient : Outcome → Bool
  | .raised (.transientStageError _) => true
  | _ => false

structure Registry (F : Type) where
  counters : OrderedDict String ℤ
  gauges : OrderedDict String F
  timers : OrderedDict String (List F)

def Registry.empty {F : Type} : Registry F := ⟨.empty,.empty,.empty⟩

/-- `inc(name)`. -/
def Registry.inc {F : Type} (g : Registry F) (name : String) : Registry F :=
  { g with counters := g.counters.insert name ((g.counters.get? name).getD 0+1) }

/-- `timing(name, seconds)`. -/
def Registry.timing {F : Type} [LinearOrder F] (g : Registry F) (name : String) (seconds : F) :
    Registry F :=
  let timers := g.timers.setDefault name []
  let samples := (timers.get? name).getD []
  { g with timers := timers.insert name (Bisect.insort (fun x y => x < y) samples seconds) }

/-- The settings that the constructor of `RetryDecorator` accepts. -/
structure Retry (F : Type) [LinearOrder F] [Zero F] where
  maxRetries : ℕ
  base : F
  cap : F
  factor : F
  base_nonneg : 0 ≤ base

/-- The checks of its `__init__`. -/
def Retry.init {F : Type} [LinearOrder F] [Zero F] (maxRetries : ℤ) (baseDelayS maxDelayS
    backoffFactor : F) : Except PyError (Retry F) :=
  if maxRetries < 0 then .error (.other "ValueError" "max_retries must be >= 0")
  else if hb : baseDelayS < 0 then .error (.other "ValueError" "base_delay_s must be >= 0")
  else .ok ⟨maxRetries.toNat,baseDelayS,maxDelayS,backoffFactor,not_lt.mp hb⟩

theorem default_base_nonneg : (0 : ℚ) ≤ 1/20 := by norm_num

/-- The settings of a `RetryDecorator` made without any. -/
def Retry.default : Retry ℚ := ⟨3,1/20,1,2,default_base_nonneg⟩

/-- The constructor accepts its own defaults. -/
theorem init_default : Retry.init 3 (1/20 : ℚ) 1 2 = .ok Retry.default := by
  unfold Retry.init
  rw [if_neg (by decide), dif_neg (not_lt.mpr default_base_nonneg)]
  rfl

/-- A decorator of a stack. A timing layer has the number of its registry. -/
inductive Layer (F : Type) [LinearOrder F] [Zero F] where
  | retry (r : Retry F)
  | timing (registry : ℕ)
  | logging (level : ℤ)

/-- What is logged, with the arguments of the format. -/
inductive Line (F : Type) where
  | enter (level : ℤ) (stage : String) (recordId : UUID) (severity : Severity) (source : String)
  | raised (level : ℤ) (stage : String) (recordId : UUID) (type message : String)
  | exit (level : ℤ) (stage : String) (recordId : UUID)
  | gaveUp (stage : String) (attempt : ℕ) (message : String)
  | retrying (stage : String) (attempt maxRetries : ℕ) (delay : F)

/-- `enter` is a call of `process` at a depth of the stack, the inner stage
being the deepest; `sleep` is an `asyncio.sleep` in the layer at that depth. -/
inductive Event (F : Type) where
  | enter (depth : ℕ)
  | sleep (depth : ℕ) (delay : F)
  | log (line : Line F)

structure World (F : Type) where
  calls : ℕ
  readings : ℕ
  registries : ℕ → Registry F
  events : List (Event F)

def World.initial {F : Type} (registries : ℕ → Registry F) : World F := ⟨0,0,registries,[]⟩

def World.emit {F : Type} (w : World F) (e : Event F) : World F :=
  { w with events := w.events ++ [e] }

/-- The clock is read once more. -/
def World.tick {F : Type} (w : World F) : World F := { w with readings := w.readings+1 }

/-- The inner stage, its record and the arithmetic: the outcome of each call of
it, the record as it is after so many calls, `x ** n` where it does not
overflow, and the readings of `perf_counter`. -/
structure Env (F : Type) where
  name : String
  outcome : ℕ → Outcome
  record : ℕ → LogRecord
  power : F → ℕ → Option F
  perfCounter : ℕ → F

section
variable {F : Type} [LinearOrder F] [Zero F] [Mul F] [Sub F]

/-- A call of the inner stage. -/
def callInner (env : Env F) (w : World F) : Outcome × World F :=
  (env.outcome w.calls,{ w with calls := w.calls+1 })

/-- `min(self._cap, self._base * (self._factor ** (attempt - 1)))`, when
`attempt - 1` failures came before. -/
def Retry.delay (r : Retry F) (env : Env F) (failures : ℕ) : Option F :=
  (env.power r.factor failures).map (fun p => min r.cap (r.base*p))

/-- The loop of `RetryDecorator.process`, with `left` retries and after
`failures` attempts. -/
def retryLoop (env : Env F) (r : Retry F) (depth : ℕ) (inner : World F → Outcome × World F) :
    ℕ → ℕ → World F → Outcome × World F
  | left, failures, w =>
    match inner w with
    | (.raised (.transientStageError e),w) =>
      match left with
      | 0 => (.raised (.transientStageError e),w.emit (.log (.gaveUp env.name (failures+1) e)))
      | left+1 =>
        match r.delay env failures with
        | none => (.raised (.other "OverflowError" "(34, 'Numerical result out of range')"),w)
        | some delay =>
          let w := w.emit (.log (.retrying env.name (failures+1) r.maxRetries delay))
          retryLoop env r depth inner left (failures+1) (w.emit (.sleep depth delay))
    | result => result

/-- `finally` of `TimingDecorator.process`. -/
def record (env : Env F) (registry : ℕ) (elapsed : F) (w : World F) : World F :=
  let timed := (w.registries registry).timing ("stage." ++ env.name ++ ".duration_s") elapsed
  let counted := timed.inc ("stage." ++ env.name ++ ".invocations")
  { w with registries := Function.update w.registries registry counted }

def logEnter (env : Env F) (level : ℤ) (w : World F) : World F :=
  let r := env.record w.calls
  w.emit (.log (.enter level env.name r.id r.severity r.source))

def logOutcome (env : Env F) (level : ℤ) (w : World F) : Outcome → World F
  | .returned result => w.emit (.log (.exit level env.name result.id))
  | .raised e => w.emit (.log (.raised level env.name (env.record w.calls).id (errorType e)
      (errorText e)))
  | .interrupted _ => w

/-- `process` of the stack whose outermost layer is at `depth`. -/
def process (env : Env F) : List (Layer F) → ℕ → World F → Outcome × World F
  | [], depth, w => callInner env (w.emit (.enter depth))
  | .retry r::stack, depth, w =>
    retryLoop env r depth (process env stack (depth+1)) r.maxRetries 0 (w.emit (.enter depth))
  | .timing registry::stack, depth, w =>
    let w := w.emit (.enter depth)
    let start := env.perfCounter w.readings
    let (outcome,w) := process env stack (depth+1) w.tick
    let elapsed := env.perfCounter w.readings-start
    (outcome,record env registry elapsed w.tick)
  | .logging level::stack, depth, w =>
    let w := w.emit (.enter depth)
    let (outcome,w) := process env stack (depth+1) (logEnter env level w)
    (outcome,logOutcome env level w outcome)

end
end PipelineX.Decorators
