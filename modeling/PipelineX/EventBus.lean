import PipelineX.Records
import PipelineX.TransitionSystem

/-!
# `EventBus`

A publish takes a copy of the handlers of the event's type, makes a task of
each and waits for all of them. The tasks run when the loop lets them, and
while they do anyone, a handler too, may change the registrations or publish.
A step is what happens between two awaits; who moves, and how a handler ends,
are the labels.

After the registry and the publishes a state keeps what happened: the
changes of the registrations, and for every publish those before it and the
handlers that it started.
-/

set_option autoImplicit false

namespace PipelineX.EventBus
open PipelineX.Records PipelineX.TransitionSystem

inductive Phase where
  | pending
  | running
  | returned
  | raised (e : PyError)
  deriving DecidableEq, Repr

/-- `_safe_call(h, event)`, wrapped in a task by `gather`. -/
structure Call (H : Type) where
  handler : H
  phase : Phase
  deriving DecidableEq, Repr

def Phase.ended : Phase → Bool
  | .pending => false
  | .running => false
  | .returned => true
  | .raised _ => true

/-- A call of `subscribe` or `unsubscribe`. -/
inductive Change (T H : Type) where
  | subscribe (type : T) (handler : H)
  | unsubscribe (type : T) (handler : H)
  deriving DecidableEq, Repr

structure Dispatch (T H E : Type) where
  event : E
  calls : List (Call H)
  returned : Bool
  before : List (Change T H)
  started : List H
  deriving DecidableEq

/-- The messages of the two log calls, with the exception they show. -/
inductive Line where
  | eventHandlerFailed (e : PyError)
  | listenerRaised (e : PyError)
  deriving DecidableEq, Repr

structure State (T H E : Type) where
  handlers : OrderedDict T (List H)
  dispatches : List (Dispatch T H E)
  changes : List (Change T H)
  log : List Line

variable {T H E : Type} [DecidableEq T] [DecidableEq H]

def initial : State T H E := ⟨.empty,[],[],[]⟩

/-- `self._handlers.get(type, [])`. -/
def handlersOf (handlers : OrderedDict T (List H)) (type : T) : List H :=
  (handlers.get? type).getD []

def subscribe (handlers : OrderedDict T (List H)) (type : T) (handler : H) :
    OrderedDict T (List H) :=
  handlers.insert type (handlersOf handlers type ++ [handler])

/-- `list.remove` takes the first that is equal. -/
def unsubscribe (handlers : OrderedDict T (List H)) (type : T) (handler : H) :
    OrderedDict T (List H) :=
  if handler ∈ handlersOf handlers type then
    handlers.insert type ((handlersOf handlers type).erase handler)
  else handlers

/-- `publish` up to the `await`; without handlers it returns at once. -/
def publish (typeOf : E → T) (s : State T H E) (event : E) : State T H E :=
  let handlers := handlersOf s.handlers (typeOf event)
  { s with dispatches := s.dispatches ++
      [⟨event,handlers.map (fun h => ⟨h,.pending⟩),handlers.isEmpty,s.changes,[]⟩] }

inductive Label (T H E : Type) where
  | subscribe (type : T) (handler : H)
  | unsubscribe (type : T) (handler : H)
  | publish (event : E)
  | start (i j : ℕ)
  | ends (i j : ℕ) (exception : Option PyError)
  | gathered (i : ℕ)

/-- The task of the call begins: the handler is called. -/
def Dispatch.start (d : Dispatch T H E) (j : ℕ) : Option (Dispatch T H E) :=
  match d.calls[j]? with
  | some ⟨h,.pending⟩ =>
    some { d with calls := d.calls.set j ⟨h,.running⟩, started := d.started ++ [h] }
  | _ => none

/-- The handler returns or raises. -/
def Dispatch.ends (d : Dispatch T H E) (j : ℕ) (exception : Option PyError) :
    Option (Dispatch T H E) :=
  match d.calls[j]? with
  | some ⟨h,.running⟩ =>
    some { d with calls := d.calls.set j ⟨h,exception.elim .returned .raised⟩ }
  | _ => none

/-- `gather` has all results, and the exceptions among them are logged. -/
def Dispatch.gathered (d : Dispatch T H E) : Option (Dispatch T H E) :=
  if d.returned = false ∧ ∀ c ∈ d.calls, c.phase.ended = true then some { d with returned := true }
  else none

def warning (c : Call H) : List Line :=
  match c.phase with
  | .raised e => [.listenerRaised e]
  | _ => []

/-- A step of the publish with this number. -/
def stepDispatch (s : State T H E) (i : ℕ) (f : Dispatch T H E → Option (Dispatch T H E))
    (log : Dispatch T H E → List Line) : Option (State T H E) :=
  (s.dispatches[i]?).bind (fun d => (f d).map (fun d' =>
    { s with dispatches := s.dispatches.set i d', log := s.log ++ log d }))

def step (typeOf : E → T) (s : State T H E) : Label T H E → Option (State T H E)
  | .subscribe type handler => some { s with
      handlers := subscribe s.handlers type handler
      changes := s.changes ++ [.subscribe type handler] }
  | .unsubscribe type handler => some { s with
      handlers := unsubscribe s.handlers type handler
      changes := s.changes ++ [.unsubscribe type handler] }
  | .publish event => some (publish typeOf s event)
  | .start i j => stepDispatch s i (fun d => d.start j) (fun _ => [])
  | .ends i j exception => stepDispatch s i (fun d => d.ends j exception)
      (fun _ => exception.toList.map .eventHandlerFailed)
  | .gathered i => stepDispatch s i Dispatch.gathered (fun d => d.calls.flatMap warning)

end PipelineX.EventBus
