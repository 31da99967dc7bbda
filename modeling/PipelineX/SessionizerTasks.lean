import PipelineX.SessionizerPartition
import PipelineX.TransitionSystem

/-!
# The tasks around the sessionizer's lock

`process` calls of the workers, the janitor and `stop` contend for one lock,
which is first come, first served. Whoever has the lock gives up control only
in `publish`, when it waits for the handlers of the event it has published;
each handler is a task of its own. A step is what runs between two such
points.
-/

set_option autoImplicit false

namespace PipelineX.SessionizerTasks
open PipelineX.Records PipelineX.Sessionizer PipelineX.SessionizerPartition
open PipelineX.TransitionSystem

variable {F : Type} [Seconds F]

/-- The sessionizer's settings and how many handlers the bus has for
`BlockTraceClosed`. -/
structure Setup (F : Type) [Seconds F] where
  config : Config F
  handlers : ℕ

inductive Owner where
  | worker (w : ℕ)
  | janitor
  | stop
  deriving DecidableEq, Repr

inductive Waiter where
  | worker (w : ℕ) (blockId : String) (record : LogRecord)
  | janitor
  | stop
  deriving DecidableEq

/-- Inside the lock and inside `publish`: the handlers that have not finished
with the last published event, and the traces that are still to be closed. -/
structure Publishing where
  owner : Owner
  pending : List ℕ
  todo : List Closing
  deriving DecidableEq

/-- `passing` is from the end of the sleep to the end of the pass. -/
inductive Janitor where
  | absent
  | sleeping
  | passing
  | cancelled
  | finished
  deriving DecidableEq, Repr

inductive Stop where
  | notCalled
  | joining
  | flushing
  | returned
  deriving DecidableEq, Repr

/-- The last three fields are a history. A pair is the place of an event among
the published ones and a handler: it has finished with the event, or it was
cancelled while the event was in its hands. -/
structure Tasks where
  sessionizer : Sessionizer.State
  holder : Option Publishing
  waiters : List Waiter
  janitor : Janitor
  stop : Stop
  processed : List (String × LogRecord)
  delivered : List (ℕ × ℕ)
  interrupted : List (ℕ × ℕ)
  deriving DecidableEq

/-- Before the first call, with or without `start`. -/
def initial (started : Bool) : Tasks where
  sessionizer := .initial
  holder := none
  waiters := []
  janitor := if started then .sleeping else .absent
  stop := .notCalled
  processed := []
  delivered := []
  interrupted := []

/-- The end of the `async with`, and what the caller does next. -/
def release (o : Owner) (s : Tasks) : Tasks :=
  match o with
  | .worker _ => { s with holder := none }
  | .janitor => { s with holder := none, janitor := .sleeping }
  | .stop => { s with holder := none, stop := .returned }

/-- Close and publish in turn, up to the first `publish` that has handlers to
wait for. -/
def emitAll (cfg : Setup F) (o : Owner) : List Closing → Tasks → Tasks
  | [], s => release o s
  | c::cs, s =>
    let s := { s with sessionizer := close cfg.config s.sessionizer c }
    if cfg.handlers = 0 then emitAll cfg o cs s
    else { s with holder := some ⟨o,List.range cfg.handlers,cs⟩ }

/-- `process` under the lock. -/
def processLocked (cfg : Setup F) (w : ℕ) (b : String) (r : LogRecord) (now now' : Datetime)
    (s : Tasks) : Tasks :=
  let (trace,touched) := touch cfg.config s.sessionizer b r now now'
  emitAll cfg (.worker w) (closing cfg.config b r trace touched).toList
    { s with sessionizer := touched, processed := s.processed ++ [(b,r)] }

/-- `_janitor_pass` under the lock. -/
def passLocked (cfg : Setup F) (s : Tasks) : Tasks :=
  emitAll cfg .janitor (janitorClosings cfg.config s.sessionizer) s

/-- The flush of `stop` under the lock. -/
def flushLocked (cfg : Setup F) (s : Tasks) : Tasks :=
  emitAll cfg .stop (stopClosings s.sessionizer) s

/-- `async with self._lock`: at once when it is free and nobody waits, else
behind those who do. -/
def acquire (enter : Tasks → Tasks) (k : Waiter) (s : Tasks) : Tasks :=
  if s.holder = none ∧ s.waiters = [] then enter s else { s with waiters := s.waiters ++ [k] }

/-- The pairs that are lost when the lock's owner is cancelled. -/
def inHands (s : Tasks) (o : Owner) : List (ℕ × ℕ) :=
  match s.holder with
  | none => []
  | some p =>
    if p.owner = o then p.pending.map (fun h => (s.sessionizer.published.length-1,h)) else []

/-- `self._janitor_task.cancel()`: a pass that waits for the lock leaves the
queue, and a pass inside `publish` cancels its handlers with it. It has the
lock until it unwinds. -/
def cancelJanitor (s : Tasks) : Tasks :=
  { s with
    janitor := .cancelled
    waiters := s.waiters.filter (fun k => k ≠ .janitor)
    holder := s.holder.map (fun p => if p.owner = .janitor then ⟨.janitor,[],[]⟩ else p)
    interrupted := s.interrupted ++ inHands s .janitor }

inductive Label where
  | process (w : ℕ) (record : LogRecord) (now now' : Datetime)
  | grant (now now' : Datetime)
  | handled (h : ℕ)
  | resume
  | tick
  | stopCall
  | unwound
  | joined

def step (cfg : Setup F) (s : Tasks) : Label → Option Tasks
  | .process w r now now' =>
    match blockIdOf cfg.config r with
    | none => some s
    | some b => some (acquire (processLocked cfg w b r now now') (.worker w b r) s)
  | .grant now now' =>
    if s.holder = none then
      match s.waiters with
      | [] => none
      | .worker w b r::ks => some (processLocked cfg w b r now now' { s with waiters := ks })
      | .janitor::ks => some (passLocked cfg { s with waiters := ks })
      | .stop::ks => some (flushLocked cfg { s with waiters := ks })
    else none
  | .handled h =>
    match s.holder with
    | none => none
    | some p =>
      if h ∈ p.pending then
        some { s with
          holder := some { p with pending := p.pending.erase h }
          delivered := s.delivered ++ [(s.sessionizer.published.length-1,h)] }
      else none
  | .resume =>
    match s.holder with
    | none => none
    | some p =>
      if p.pending = [] ∧ (p.owner = .janitor → s.janitor ≠ .cancelled) then
        some (emitAll cfg p.owner p.todo s)
      else none
  | .tick =>
    if s.janitor = .sleeping then
      some (acquire (passLocked cfg) .janitor { s with janitor := .passing })
    else none
  | .stopCall =>
    if s.stop = .notCalled then
      match s.janitor with
      | .absent => some (acquire (flushLocked cfg) .stop { s with stop := .flushing })
      | _ => some { cancelJanitor s with stop := .joining }
    else none
  | .unwound =>
    if s.janitor = .cancelled then
      some { s with
        janitor := .finished
        holder := s.holder.filter (fun p => p.owner ≠ .janitor) }
    else none
  | .joined =>
    if s.stop = .joining ∧ s.janitor = .finished then
      some (acquire (flushLocked cfg) .stop { s with stop := .flushing })
    else none

/-- The cases of a step. -/
inductive Acts (cfg : Setup F) (s : Tasks) : Label → Tasks → Prop where
  | ignored (w : ℕ) (r : LogRecord) (now now' : Datetime) (hb : blockIdOf cfg.config r = none) :
      Acts cfg s (.process w r now now') s
  | process (w : ℕ) (b : String) (r : LogRecord) (now now' : Datetime)
      (hb : blockIdOf cfg.config r = some b) :
      Acts cfg s (.process w r now now')
        (acquire (processLocked cfg w b r now now') (.worker w b r) s)
  | grantWorker (w : ℕ) (b : String) (r : LogRecord) (ks : List Waiter) (now now' : Datetime)
      (hh : s.holder = none) (hw : s.waiters = .worker w b r::ks) :
      Acts cfg s (.grant now now') (processLocked cfg w b r now now' { s with waiters := ks })
  | grantJanitor (ks : List Waiter) (now now' : Datetime) (hh : s.holder = none)
      (hw : s.waiters = .janitor::ks) :
      Acts cfg s (.grant now now') (passLocked cfg { s with waiters := ks })
  | grantStop (ks : List Waiter) (now now' : Datetime) (hh : s.holder = none)
      (hw : s.waiters = .stop::ks) :
      Acts cfg s (.grant now now') (flushLocked cfg { s with waiters := ks })
  | handled (h : ℕ) (p : Publishing) (hh : s.holder = some p) (hm : h ∈ p.pending) :
      Acts cfg s (.handled h) { s with
        holder := some { p with pending := p.pending.erase h }
        delivered := s.delivered ++ [(s.sessionizer.published.length-1,h)] }
  | resume (p : Publishing) (hh : s.holder = some p) (hp : p.pending = [])
      (hj : p.owner = .janitor → s.janitor ≠ .cancelled) :
      Acts cfg s .resume (emitAll cfg p.owner p.todo s)
  | tick (hj : s.janitor = .sleeping) :
      Acts cfg s .tick (acquire (passLocked cfg) .janitor { s with janitor := .passing })
  | stopAlone (hs : s.stop = .notCalled) (hj : s.janitor = .absent) :
      Acts cfg s .stopCall (acquire (flushLocked cfg) .stop { s with stop := .flushing })
  | stopJoins (hs : s.stop = .notCalled) (hj : s.janitor ≠ .absent) :
      Acts cfg s .stopCall { cancelJanitor s with stop := .joining }
  | unwound (hj : s.janitor = .cancelled) :
      Acts cfg s .unwound { s with
        janitor := .finished
        holder := s.holder.filter (fun p => p.owner ≠ .janitor) }
  | joined (hs : s.stop = .joining) (hj : s.janitor = .finished) :
      Acts cfg s .joined (acquire (flushLocked cfg) .stop { s with stop := .flushing })

theorem step_acts (cfg : Setup F) (s t : Tasks) (l : Label) (h : step cfg s l = some t) :
    Acts cfg s l t := by
  cases l with
  | process w r now now' =>
    cases hb : blockIdOf cfg.config r with
    | none =>
      simp only [step, hb] at h
      cases h
      exact .ignored w r now now' hb
    | some b =>
      simp only [step, hb] at h
      cases h
      exact .process w b r now now' hb
  | grant now now' =>
    by_cases hh : s.holder = none
    · rw [step, if_pos hh] at h
      split at h
      · cases h
      · next w b r ks hw =>
        cases h
        exact .grantWorker w b r ks now now' hh hw
      · next ks hw =>
        cases h
        exact .grantJanitor ks now now' hh hw
      · next ks hw =>
        cases h
        exact .grantStop ks now now' hh hw
    · rw [step, if_neg hh] at h
      cases h
  | handled n =>
    cases hh : s.holder with
    | none => simp [step, hh] at h
    | some p =>
      by_cases hm : n ∈ p.pending
      · simp only [step, hh, if_pos hm] at h
        cases h
        exact .handled n p hh hm
      · simp [step, hh, hm] at h
  | resume =>
    cases hh : s.holder with
    | none => simp [step, hh] at h
    | some p =>
      by_cases hp : p.pending = [] ∧ (p.owner = .janitor → s.janitor ≠ .cancelled)
      · simp only [step, hh, if_pos hp] at h
        cases h
        exact .resume p hh hp.1 hp.2
      · simp only [step, hh, if_neg hp] at h
        cases h
  | tick =>
    by_cases hj : s.janitor = .sleeping
    · rw [step, if_pos hj] at h
      cases h
      exact .tick hj
    · rw [step, if_neg hj] at h
      cases h
  | stopCall =>
    by_cases hs : s.stop = .notCalled
    · rw [step, if_pos hs] at h
      split at h
      · next hj =>
        cases h
        exact .stopAlone hs hj
      · next hj =>
        cases h
        exact .stopJoins hs hj
    · rw [step, if_neg hs] at h
      cases h
  | unwound =>
    by_cases hj : s.janitor = .cancelled
    · rw [step, if_pos hj] at h
      cases h
      exact .unwound hj
    · rw [step, if_neg hj] at h
      cases h
  | joined =>
    by_cases hs : s.stop = .joining ∧ s.janitor = .finished
    · rw [step, if_pos hs] at h
      cases h
      exact .joined hs.1 hs.2
    · rw [step, if_neg hs] at h
      cases h

/-- The traces that are to be closed are open, each once. -/
structure Open (s : Sessionizer.State) (todo : List Closing) : Prop where
  found : ∀ c ∈ todo, s.openTraces.get? c.key = some c.trace
  nodup : (todo.map Closing.key).Nodup

theorem Open.close (cfg : Config F) {s : Sessionizer.State} {c : Closing} {cs : List Closing}
    (h : Open s (c::cs)) : Open (Sessionizer.close cfg s c) cs :=
  ⟨close_keeps_open cfg s h.found h.nodup,(List.nodup_cons.mp h.nodup).2⟩

theorem janitor_open (cfg : Config F) (s : Sessionizer.State) :
    Open s (janitorClosings cfg s) :=
  ⟨janitorClosings_open cfg s,janitorClosings_nodup cfg s⟩

theorem stop_open (s : Sessionizer.State) : Open s (stopClosings s) :=
  ⟨stopClosings_open s,stopClosings_nodup s⟩

theorem closing_todo (cfg : Config F) (s : Sessionizer.State) (b : String) (r : LogRecord)
    (now now' : Datetime) : Open (touch cfg s b r now now').2
      (closing cfg b r (touch cfg s b r now now').1 (touch cfg s b r now now').2).toList := by
  cases hc : closing cfg b r (touch cfg s b r now now').1 (touch cfg s b r now now').2 with
  | none => exact ⟨by simp,by simp⟩
  | some c => exact ⟨by simpa using eviction_open cfg s (eviction_of_closing hc),by simp⟩

/-- What holds of the table whoever has the lock. -/
structure Orderly (cfg : Setup F) (s : Tasks) : Prop where
  partition : Partition cfg.config s.processed s.sessionizer
  todo : ∀ p, s.holder = some p → Open s.sessionizer p.todo

theorem initial_orderly (cfg : Setup F) (started : Bool) : Orderly cfg (initial started) :=
  ⟨initial_partition cfg.config,by simp [initial]⟩

theorem release_frame (o : Owner) (s : Tasks) :
    (release o s).sessionizer = s.sessionizer ∧ (release o s).processed = s.processed ∧
    (release o s).waiters = s.waiters ∧ (release o s).holder = none := by
  cases o <;> exact ⟨rfl,rfl,rfl,rfl⟩

theorem emitAll_orderly (cfg : Setup F) (o : Owner) (cs : List Closing) (s : Tasks)
    (hp : Partition cfg.config s.processed s.sessionizer) (ho : Open s.sessionizer cs) :
    Orderly cfg (emitAll cfg o cs s) := by
  induction cs generalizing s with
  | nil =>
    obtain ⟨hs,hproc,_,hh⟩ := release_frame o s
    exact ⟨by rw [emitAll, hs, hproc]; exact hp,by simp [emitAll, hh]⟩
  | cons c cs ih =>
    have hclosed := close_partition hp c (ho.found c List.mem_cons_self)
    by_cases hn : cfg.handlers = 0
    · rw [emitAll, if_pos hn]
      exact ih _ hclosed (ho.close cfg.config)
    · rw [emitAll, if_neg hn]
      refine ⟨hclosed,fun p hp => ?_⟩
      cases hp
      exact ho.close cfg.config

theorem emitAll_frame (cfg : Setup F) (o : Owner) (cs : List Closing) (s : Tasks) :
    (emitAll cfg o cs s).processed = s.processed ∧ (emitAll cfg o cs s).waiters = s.waiters := by
  induction cs generalizing s with
  | nil => exact ⟨(release_frame o s).2.1,(release_frame o s).2.2.1⟩
  | cons c cs ih =>
    by_cases hn : cfg.handlers = 0
    · rw [emitAll, if_pos hn]
      exact ih _
    · rw [emitAll, if_neg hn]
      exact ⟨rfl,rfl⟩

theorem processLocked_frame (cfg : Setup F) (w : ℕ) (b : String) (r : LogRecord)
    (now now' : Datetime) (s : Tasks) :
    (processLocked cfg w b r now now' s).processed = s.processed ++ [(b,r)] ∧
    (processLocked cfg w b r now now' s).waiters = s.waiters :=
  emitAll_frame cfg _ _ _

theorem passLocked_frame (cfg : Setup F) (s : Tasks) :
    (passLocked cfg s).processed = s.processed ∧ (passLocked cfg s).waiters = s.waiters :=
  emitAll_frame cfg _ _ s

theorem flushLocked_frame (cfg : Setup F) (s : Tasks) :
    (flushLocked cfg s).processed = s.processed ∧ (flushLocked cfg s).waiters = s.waiters :=
  emitAll_frame cfg _ _ s

theorem processLocked_orderly (cfg : Setup F) (w : ℕ) (b : String) (r : LogRecord)
    (now now' : Datetime) (s : Tasks) (hs : Orderly cfg s) :
    Orderly cfg (processLocked cfg w b r now now' s) :=
  emitAll_orderly cfg _ _ _ (touch_partition hs.partition b r now now')
    (closing_todo cfg.config s.sessionizer b r now now')

theorem passLocked_orderly (cfg : Setup F) (s : Tasks) (hs : Orderly cfg s) :
    Orderly cfg (passLocked cfg s) :=
  emitAll_orderly cfg _ _ _ hs.partition (janitor_open cfg.config s.sessionizer)

theorem flushLocked_orderly (cfg : Setup F) (s : Tasks) (hs : Orderly cfg s) :
    Orderly cfg (flushLocked cfg s) :=
  emitAll_orderly cfg _ _ _ hs.partition (stop_open s.sessionizer)

theorem acquire_orderly (cfg : Setup F) (enter : Tasks → Tasks) (k : Waiter) (s : Tasks)
    (henter : ∀ s, Orderly cfg s → Orderly cfg (enter s)) (hs : Orderly cfg s) :
    Orderly cfg (acquire enter k s) := by
  unfold acquire
  split
  · exact henter s hs
  · exact ⟨hs.partition,hs.todo⟩

theorem cancelJanitor_orderly (cfg : Setup F) (s : Tasks) (hs : Orderly cfg s) :
    Orderly cfg (cancelJanitor s) := by
  refine ⟨hs.partition,fun p hp => ?_⟩
  obtain ⟨q,hq,rfl⟩ := Option.map_eq_some_iff.mp hp
  by_cases ho : q.owner = .janitor
  · rw [if_pos ho]
    exact ⟨by simp,by simp⟩
  · rw [if_neg ho]
    exact hs.todo q hq

theorem step_orderly (cfg : Setup F) (s t : Tasks) (l : Label) (hs : Orderly cfg s)
    (h : Acts cfg s l t) : Orderly cfg t := by
  cases h with
  | ignored w r now now' hb => exact hs
  | process w b r now now' hb =>
    exact acquire_orderly cfg _ _ s (processLocked_orderly cfg w b r now now') hs
  | grantWorker w b r ks now now' hh hw =>
    exact processLocked_orderly cfg w b r now now' _ ⟨hs.partition,hs.todo⟩
  | grantJanitor ks now now' hh hw => exact passLocked_orderly cfg _ ⟨hs.partition,hs.todo⟩
  | grantStop ks now now' hh hw => exact flushLocked_orderly cfg _ ⟨hs.partition,hs.todo⟩
  | handled h p hh hm =>
    refine ⟨hs.partition,fun q hq => ?_⟩
    cases hq
    exact hs.todo p hh
  | resume p hh hp hj => exact emitAll_orderly cfg _ _ s hs.partition (hs.todo p hh)
  | tick hj =>
    exact acquire_orderly cfg _ _ _ (passLocked_orderly cfg) ⟨hs.partition,hs.todo⟩
  | stopAlone hst hj =>
    exact acquire_orderly cfg _ _ _ (flushLocked_orderly cfg) ⟨hs.partition,hs.todo⟩
  | stopJoins hst hj =>
    have hc := cancelJanitor_orderly cfg s hs
    exact ⟨hc.partition,hc.todo⟩
  | unwound hj =>
    refine ⟨hs.partition,fun p hp => ?_⟩
    exact hs.todo p (Option.filter_eq_some_iff.mp hp).1
  | joined hst hj =>
    exact acquire_orderly cfg _ _ _ (flushLocked_orderly cfg) ⟨hs.partition,hs.todo⟩

theorem run_orderly (cfg : Setup F) (started : Bool) (ls : List Label) (t : Tasks)
    (hrun : run (step cfg) (initial started) ls = some t) : Orderly cfg t :=
  run_invariant (step cfg) (Orderly cfg)
    (fun s l t hs h => step_orderly cfg s t l hs (step_acts cfg s t l h))
    (initial_orderly cfg started) hrun

end PipelineX.SessionizerTasks
