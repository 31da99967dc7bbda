import PipelineX.Records

/-!
# `BlockSessionizerStage`, one call at a time

The open table, the four ways in which a trace is closed and the events that
are published, as `block_sessionizer.py` computes them when each call runs to
completion under the lock. The float arithmetic of the janitor is a
parameter, and the two readings of the wall clock that a record without a
timestamp may cause are inputs of the call.
-/

set_option autoImplicit false

namespace PipelineX.Sessionizer
open PipelineX.Records

/-- The float operations that `_janitor_pass` and the constructor use. -/
class Seconds (F : Type) where
  timestamp : Datetime → F
  sub : F → F → F
  lt : F → F → Bool
  nonpos : F → Bool

/-- Exact arithmetic on seconds. -/
instance : Seconds ℚ where
  timestamp d := d/1000000
  sub := (· - ·)
  lt x y := decide (x < y)
  nonpos x := decide (x ≤ 0)

/-- The settings that the constructor accepts. -/
structure Config (F : Type) [Seconds F] where
  pipelineRunId : UUID
  idleWindowS : F
  maxRecordsPerTrace : ℕ
  maxOpenTraces : ℕ
  terminal : List String
  blockIdKey : String
  eventIdKey : String
  idle_pos : Seconds.nonpos idleWindowS = false
  records_pos : 0 < maxRecordsPerTrace
  open_pos : 0 < maxOpenTraces

section
variable {F : Type} [Seconds F]

/-- The checks of `__init__`, with its defaults for the keys and the terminal
events. -/
def Config.init (pipelineRunId : UUID) (idleWindowS : F) (maxRecordsPerTrace maxOpenTraces : ℤ)
    (terminal : List String := ["E9","E21"]) (blockIdKey : String := "block_id")
    (eventIdKey : String := "event_id") : Except PyError (Config F) :=
  if hi : Seconds.nonpos idleWindowS = true then
    .error (.other "ValueError" "idle_window_s must be > 0")
  else if hr : maxRecordsPerTrace ≤ 0 then
    .error (.other "ValueError" "max_records_per_trace must be > 0")
  else if ho : maxOpenTraces ≤ 0 then
    .error (.other "ValueError" "max_open_traces must be > 0")
  else
    .ok { pipelineRunId, idleWindowS, terminal, blockIdKey, eventIdKey
          maxRecordsPerTrace := maxRecordsPerTrace.toNat
          maxOpenTraces := maxOpenTraces.toNat
          idle_pos := by simpa using hi
          records_pos := by omega
          open_pos := by omega }

end

theorem idleWindowS_pos : Seconds.nonpos (30 : ℚ) = false := by decide

/-- The defaults of `__init__`. -/
def Config.default (pipelineRunId : UUID) : Config ℚ where
  pipelineRunId := pipelineRunId
  idleWindowS := 30
  maxRecordsPerTrace := 1000
  maxOpenTraces := 50000
  terminal := ["E9","E21"]
  blockIdKey := "block_id"
  eventIdKey := "event_id"
  idle_pos := idleWindowS_pos
  records_pos := by decide
  open_pos := by decide

/-- The defaults pass the checks. -/
theorem init_default (pipelineRunId : UUID) :
    Config.init pipelineRunId (30 : ℚ) 1000 50000 = .ok (Config.default pipelineRunId) := by
  simp [Config.init, idleWindowS_pos, Config.default]

structure OpenTrace where
  blockId : String
  events : List String
  recordIds : List UUID
  firstTs : Datetime
  lastTs : Datetime
  terminalSeen : Bool
  deriving DecidableEq, Repr

def OpenTrace.new (blockId : String) (firstTs lastTs : Datetime) : OpenTrace :=
  ⟨blockId,[],[],firstTs,lastTs,false⟩

def OpenTrace.add (t : OpenTrace) (eventId : Option String) (rid : UUID)
    (ts : Option Datetime) : OpenTrace :=
  { t with
    events := match eventId with
      | none => t.events
      | some e => if e = "" then t.events else t.events ++ [e]
    recordIds := t.recordIds ++ [rid]
    firstTs := match ts with
      | none => t.firstTs
      | some d => if d < t.firstTs then d else t.firstTs
    lastTs := match ts with
      | none => t.lastTs
      | some d => if t.lastTs < d then d else t.lastTs }

structure State where
  openTraces : OrderedDict String OpenTrace
  latestLogTs : Option Datetime
  tracesEmitted : ℕ
  published : List BlockTrace
  deriving DecidableEq

def State.initial : State := ⟨.empty,none,0,[]⟩

variable {F : Type} [Seconds F]

/-- The record's `block_id` when it is a non-empty string. -/
def blockIdOf (cfg : Config F) (r : LogRecord) : Option String :=
  match r.enrichment.get? cfg.blockIdKey with
  | some (.str b) => if b = "" then none else some b
  | _ => none

/-- `event_id if isinstance(event_id, str) else None`. -/
def eventIdOf (cfg : Config F) (r : LogRecord) : Option String :=
  match r.enrichment.get? cfg.eventIdKey with
  | some (.str e) => some e
  | _ => none

/-- What `event_id in self._terminal` raises, if it does. -/
def hashError (cfg : Config F) (r : LogRecord) : Option PyError :=
  match r.enrichment.get? cfg.eventIdKey with
  | some v =>
    if v.unhashable then some (.other "TypeError" ("unhashable type: '" ++ v.typeName ++ "'"))
    else none
  | none => none

/-- `event_id in self._terminal`, when it does not raise. -/
def isTerminal (cfg : Config F) (r : LogRecord) : Bool :=
  match eventIdOf cfg r with
  | some e => e ∈ cfg.terminal
  | none => false

def blockTrace (cfg : Config F) (trace : OpenTrace) (reason : ClosedReason) : BlockTrace where
  blockId := trace.blockId
  eventSequence := trace.events
  recordIds := trace.recordIds
  firstTimestamp := trace.firstTs
  lastTimestamp := trace.lastTs
  recordCount := trace.recordIds.length
  pipelineRunId := cfg.pipelineRunId
  closedReason := reason

def emit (cfg : Config F) (s : State) (trace : OpenTrace) (reason : ClosedReason) : State :=
  { s with
    tracesEmitted := s.tracesEmitted+1
    published := s.published ++ [blockTrace cfg trace reason] }

/-- A trace that a call takes out of the table and emits. -/
structure Closing where
  key : String
  trace : OpenTrace
  reason : ClosedReason
  deriving DecidableEq, Repr

def close (cfg : Config F) (s : State) (c : Closing) : State :=
  emit cfg { s with openTraces := s.openTraces.erase c.key } c.trace c.reason

def latest (old : Option Datetime) (ts : Option Datetime) : Option Datetime :=
  match ts, old with
  | none, _ => old
  | some d, none => some d
  | some d, some l => if l < d then some d else some l

/-- `process` up to its caps: the trace that the record was added to, and the
table with that trace at the end of its order. A call that raises gets as far,
for then the event id is no string. -/
def touch (cfg : Config F) (s : State) (b : String) (r : LogRecord) (now now' : Datetime) :
    OpenTrace × State :=
  let (found,table) := match s.openTraces.get? b with
    | none =>
      let fresh := OpenTrace.new b (r.timestamp.getD now) (r.timestamp.getD now')
      (fresh,s.openTraces.insert b fresh)
    | some t => (t,s.openTraces.moveToEnd b)
  let added := found.add (eventIdOf cfg r) r.id r.timestamp
  let trace := if isTerminal cfg r then { added with terminalSeen := true } else added
  (trace,{ s with openTraces := table.insert b trace
                  latestLogTs := latest s.latestLogTs r.timestamp })

def hardCapped (cfg : Config F) (trace : OpenTrace) : Bool :=
  cfg.maxRecordsPerTrace ≤ trace.events.length

/-- `popitem(last=False)` when the table is over capacity. -/
def lruVictim (cfg : Config F) (s : State) : Option (String × OpenTrace) :=
  if cfg.maxOpenTraces < s.openTraces.size then s.openTraces.items.head? else none

/-- What `process` closes after it has added the record: the hard cap goes
before the capacity. -/
def eviction (cfg : Config F) (b : String) (trace : OpenTrace) (s : State) : Option Closing :=
  if hardCapped cfg trace then some ⟨b,trace,.evicted⟩
  else (lruVictim cfg s).map (fun v => ⟨v.1,v.2,.evicted⟩)

/-- The trace that a call closes: none if it raises before it comes to the
caps. -/
def closing (cfg : Config F) (b : String) (r : LogRecord) (trace : OpenTrace) (s : State) :
    Option Closing :=
  match hashError cfg r with
  | some _ => none
  | none => eviction cfg b trace s

/-- What a call of `process` returns or raises. -/
def outcome (cfg : Config F) (r : LogRecord) : Except PyError LogRecord :=
  match blockIdOf cfg r, hashError cfg r with
  | some _, some e => .error e
  | _, _ => .ok r

def process (cfg : Config F) (s : State) (r : LogRecord) (now now' : Datetime) :
    Except PyError LogRecord × State :=
  match blockIdOf cfg r with
  | none => (outcome cfg r,s)
  | some b =>
    let (trace,touched) := touch cfg s b r now now'
    match closing cfg b r trace touched with
    | none => (outcome cfg r,touched)
    | some c => (outcome cfg r,close cfg touched c)

/-- Why a janitor pass with this cutoff closes the trace, if it does. -/
def janitorReason (cutoff : F) (trace : OpenTrace) : Option ClosedReason :=
  let agePass := Seconds.lt (Seconds.timestamp trace.lastTs) cutoff
  if trace.terminalSeen then some .terminal
  else if agePass then some .timeout
  else none

/-- `to_close` of a janitor pass, in table order. -/
def janitorClosings (cfg : Config F) (s : State) : List Closing :=
  match s.latestLogTs with
  | none => []
  | some cutoffTs =>
    let cutoff := Seconds.sub (Seconds.timestamp cutoffTs) cfg.idleWindowS
    s.openTraces.items.filterMap (fun p =>
      (janitorReason cutoff p.2).map (fun reason => ⟨p.1,p.2,reason⟩))

def janitorPass (cfg : Config F) (s : State) : State :=
  (janitorClosings cfg s).foldl (close cfg) s

/-- The flush of `stop`: every key that was open, popped and emitted in turn. -/
def stop (cfg : Config F) (s : State) : State :=
  s.openTraces.keys.foldl (fun s k =>
    match s.openTraces.get? k with
    | none => s
    | some trace => close cfg s ⟨k,trace,.shutdown⟩) s

inductive Op where
  | process (r : LogRecord) (now now' : Datetime)
  | janitorPass
  | stop

def apply (cfg : Config F) (s : State) : Op → State
  | .process r now now' => (process cfg s r now now').2
  | .janitorPass => janitorPass cfg s
  | .stop => stop cfg s

def exec (cfg : Config F) (ops : List Op) : State := ops.foldl (apply cfg) .initial

@[simp] theorem close_openTraces (cfg : Config F) (s : State) (c : Closing) :
    (close cfg s c).openTraces = s.openTraces.erase c.key := rfl

@[simp] theorem close_published (cfg : Config F) (s : State) (c : Closing) :
    (close cfg s c).published = s.published ++ [blockTrace cfg c.trace c.reason] := rfl

@[simp] theorem close_tracesEmitted (cfg : Config F) (s : State) (c : Closing) :
    (close cfg s c).tracesEmitted = s.tracesEmitted+1 := rfl

/-- What a new event id adds to a trace's sequence. -/
def newEvents (cfg : Config F) (r : LogRecord) : List String :=
  match eventIdOf cfg r with
  | none => []
  | some e => if e = "" then [] else [e]

/-- The trace that a record of block `b` is added to. -/
def found (s : State) (b : String) (r : LogRecord) (now now' : Datetime) : OpenTrace :=
  (s.openTraces.get? b).getD (.new b (r.timestamp.getD now) (r.timestamp.getD now'))

theorem touch_trace (cfg : Config F) (s : State) (b : String) (r : LogRecord)
    (now now' : Datetime) :
    (touch cfg s b r now now').1 =
      { (found s b r now now').add (eventIdOf cfg r) r.id r.timestamp with
        terminalSeen := isTerminal cfg r || (found s b r now now').terminalSeen } := by
  cases hg : s.openTraces.get? b <;> cases ht : isTerminal cfg r <;>
    simp [touch, found, hg, ht, OpenTrace.add]

/-- Whether the block was open or not, its trace ends up at the end of the
table's order. -/
theorem touch_openTraces (cfg : Config F) (s : State) (b : String) (r : LogRecord)
    (now now' : Datetime) :
    (touch cfg s b r now now').2.openTraces =
      s.openTraces.pushEnd b (touch cfg s b r now now').1 := by
  cases hg : s.openTraces.get? b with
  | none =>
    simp only [touch, hg]
    rw [OrderedDict.insert_of_get?_none _ hg, OrderedDict.insert_pushEnd]
  | some t =>
    simp only [touch, hg]
    rw [OrderedDict.moveToEnd_of_get?_some hg, OrderedDict.insert_pushEnd]

@[simp] theorem touch_published (cfg : Config F) (s : State) (b : String) (r : LogRecord)
    (now now' : Datetime) : (touch cfg s b r now now').2.published = s.published := rfl

@[simp] theorem touch_tracesEmitted (cfg : Config F) (s : State) (b : String) (r : LogRecord)
    (now now' : Datetime) : (touch cfg s b r now now').2.tracesEmitted = s.tracesEmitted := rfl

theorem touch_recordIds (cfg : Config F) (s : State) (b : String) (r : LogRecord)
    (now now' : Datetime) :
    (touch cfg s b r now now').1.recordIds =
      ((s.openTraces.get? b).elim [] OpenTrace.recordIds) ++ [r.id] := by
  rw [touch_trace]
  cases hg : s.openTraces.get? b <;> simp [found, hg, OpenTrace.add, OpenTrace.new]

theorem add_events (cfg : Config F) (t : OpenTrace) (r : LogRecord) :
    (t.add (eventIdOf cfg r) r.id r.timestamp).events = t.events ++ newEvents cfg r := by
  unfold OpenTrace.add newEvents
  cases eventIdOf cfg r with
  | none => simp
  | some e => by_cases he : e = "" <;> simp [he]

theorem touch_events (cfg : Config F) (s : State) (b : String) (r : LogRecord)
    (now now' : Datetime) :
    (touch cfg s b r now now').1.events =
      ((s.openTraces.get? b).elim [] OpenTrace.events) ++ newEvents cfg r := by
  rw [touch_trace]
  change ((found s b r now now').add (eventIdOf cfg r) r.id r.timestamp).events = _
  rw [add_events]
  cases hg : s.openTraces.get? b <;> simp [found, hg, OpenTrace.new]

theorem closing_of_hashable {cfg : Config F} {r : LogRecord} (h : hashError cfg r = none)
    (b : String) (trace : OpenTrace) (s : State) :
    closing cfg b r trace s = eviction cfg b trace s := by
  simp only [closing, h]

theorem eviction_of_closing {cfg : Config F} {b : String} {r : LogRecord} {trace : OpenTrace}
    {s : State} {c : Closing} (h : closing cfg b r trace s = some c) :
    eviction cfg b trace s = some c := by
  unfold closing at h
  split at h
  · cases h
  · exact h

/-- The call added the record and closed nothing, or closed the one trace
that `eviction` names. -/
theorem process_cases (cfg : Config F) (s : State) {b : String} (r : LogRecord)
    (now now' : Datetime) (hb : blockIdOf cfg r = some b) :
    (closing cfg b r (touch cfg s b r now now').1 (touch cfg s b r now now').2 = none ∧
      (process cfg s r now now').2 = (touch cfg s b r now now').2) ∨
    ∃ c, eviction cfg b (touch cfg s b r now now').1 (touch cfg s b r now now').2 = some c ∧
      (process cfg s r now now').2 = close cfg (touch cfg s b r now now').2 c := by
  simp only [process, hb]
  split
  · next h => exact Or.inl ⟨h,rfl⟩
  · next c h => exact Or.inr ⟨c,eviction_of_closing h,rfl⟩

theorem process_ignored (cfg : Config F) (s : State) (r : LogRecord) (now now' : Datetime)
    (hb : blockIdOf cfg r = none) : (process cfg s r now now').2 = s := by
  simp [process, hb]

theorem process_outcome (cfg : Config F) (s : State) (r : LogRecord) (now now' : Datetime) :
    (process cfg s r now now').1 = outcome cfg r := by
  unfold process
  split
  · rfl
  · split
    split <;> rfl

theorem outcome_record {cfg : Config F} {r r' : LogRecord} (h : outcome cfg r = .ok r') :
    r' = r := by
  unfold outcome at h
  split at h
  · cases h
  · exact (Except.ok.inj h).symm

/-- An evicted trace is in the table under its key. -/
theorem eviction_open (cfg : Config F) (s : State) {b : String} {r : LogRecord}
    {now now' : Datetime} {c : Closing}
    (h : eviction cfg b (touch cfg s b r now now').1 (touch cfg s b r now now').2 = some c) :
    (touch cfg s b r now now').2.openTraces.get? c.key = some c.trace := by
  unfold eviction at h
  split at h
  · cases h
    rw [touch_openTraces, OrderedDict.get?_pushEnd_self]
  · obtain ⟨v,hv,rfl⟩ := Option.map_eq_some_iff.mp h
    unfold lruVictim at hv
    split at hv
    · exact OrderedDict.get?_eq_some.mpr (List.mem_of_head? hv)
    · exact absurd hv (by simp)

theorem janitorClosings_open (cfg : Config F) (s : State) :
    ∀ c ∈ janitorClosings cfg s, s.openTraces.get? c.key = some c.trace := by
  intro c hc
  unfold janitorClosings at hc
  split at hc
  · exact absurd hc (by simp)
  · obtain ⟨p,hp,hpc⟩ := List.mem_filterMap.mp hc
    obtain ⟨reason,_,rfl⟩ := Option.map_eq_some_iff.mp hpc
    exact OrderedDict.get?_eq_some.mpr hp

theorem filterMap_keys {α : Type} (f : OpenTrace → Option α) (key : String × OpenTrace → α → Closing)
    (hkey : ∀ p a, (key p a).key = p.1) (items : List (String × OpenTrace)) :
    (items.filterMap (fun p => (f p.2).map (key p))).map Closing.key =
      (items.filter (fun p => (f p.2).isSome)).map Prod.fst := by
  induction items with
  | nil => rfl
  | cons p items ih =>
    cases hf : f p.2 <;> simp [hf, hkey, ih]

theorem janitorClosings_nodup (cfg : Config F) (s : State) :
    ((janitorClosings cfg s).map Closing.key).Nodup := by
  unfold janitorClosings
  split
  · exact List.nodup_nil
  · rw [filterMap_keys _ _ (fun _ _ => rfl)]
    exact s.openTraces.nodup.sublist (List.filter_sublist.map Prod.fst)

/-- The closings of a `stop` that finds these traces open. -/
def stopClosings (s : State) : List Closing :=
  s.openTraces.items.map (fun p => ⟨p.1,p.2,.shutdown⟩)

theorem stopClosings_open (s : State) :
    ∀ c ∈ stopClosings s, s.openTraces.get? c.key = some c.trace := by
  intro c hc
  obtain ⟨p,hp,rfl⟩ := List.mem_map.mp hc
  exact OrderedDict.get?_eq_some.mpr hp

theorem stopClosings_keys (s : State) :
    (stopClosings s).map Closing.key = s.openTraces.keys := by
  simp [stopClosings, OrderedDict.keys, Function.comp_def]

theorem stopClosings_nodup (s : State) : ((stopClosings s).map Closing.key).Nodup := by
  rw [stopClosings_keys]
  exact s.openTraces.nodup

/-- Closing one trace leaves the others open for the closings that follow. -/
theorem close_keeps_open (cfg : Config F) (s : State) {c : Closing} {cs : List Closing}
    (ho : ∀ d ∈ c::cs, s.openTraces.get? d.key = some d.trace)
    (hn : ((c::cs).map Closing.key).Nodup) :
    ∀ d ∈ cs, (close cfg s c).openTraces.get? d.key = some d.trace := by
  intro d hd
  have hne : d.key ≠ c.key := fun h =>
    (List.nodup_cons.mp hn).1 (h ▸ List.mem_map_of_mem hd)
  rw [close_openTraces, OrderedDict.get?_erase_of_ne _ hne]
  exact ho d (List.mem_cons_of_mem _ hd)

/-- What each closing of an open trace keeps, a list of closings keeps. -/
theorem foldl_close_invariant (cfg : Config F) (I : State → Prop)
    (hI : ∀ s c, I s → s.openTraces.get? c.key = some c.trace → I (close cfg s c))
    (cs : List Closing) (s : State) (hs : I s)
    (ho : ∀ c ∈ cs, s.openTraces.get? c.key = some c.trace)
    (hn : (cs.map Closing.key).Nodup) : I (cs.foldl (close cfg) s) := by
  induction cs generalizing s with
  | nil => exact hs
  | cons c cs ih =>
    exact ih _ (hI s c hs (ho c List.mem_cons_self)) (close_keeps_open cfg s ho hn)
      (List.nodup_cons.mp hn).2

/-- Popping each key in turn finds the trace that was open at the start. -/
theorem stop_eq_closings (cfg : Config F) (s : State) :
    stop cfg s = (stopClosings s).foldl (close cfg) s := by
  have key : ∀ (cs : List Closing) (s : State), (∀ c ∈ cs, c.reason = .shutdown) →
      (∀ c ∈ cs, s.openTraces.get? c.key = some c.trace) → (cs.map Closing.key).Nodup →
      (cs.map Closing.key).foldl (fun s k =>
        match s.openTraces.get? k with
        | none => s
        | some trace => close cfg s ⟨k,trace,.shutdown⟩) s = cs.foldl (close cfg) s := by
    intro cs
    induction cs with
    | nil => intros; rfl
    | cons c cs ih =>
      intro s hr ho hn
      have hc : (⟨c.key,c.trace,.shutdown⟩ : Closing) = c := by
        rw [← hr c List.mem_cons_self]
      simp only [List.map_cons, List.foldl_cons, ho c List.mem_cons_self, hc]
      exact ih _ (fun d hd => hr d (List.mem_cons_of_mem _ hd))
        (close_keeps_open cfg s ho hn) (List.nodup_cons.mp hn).2
  rw [stop, ← stopClosings_keys]
  refine key _ s (fun c hc => ?_) (stopClosings_open s) (stopClosings_nodup s)
  obtain ⟨p,_,rfl⟩ := List.mem_map.mp hc
  rfl

/-- The records of each call that carry a block id, with it. -/
def carriedBy (cfg : Config F) : Op → List (String × LogRecord)
  | .process r _ _ => (blockIdOf cfg r).elim [] (fun b => [(b,r)])
  | .janitorPass => []
  | .stop => []

def carried (cfg : Config F) (ops : List Op) : List (String × LogRecord) :=
  ops.flatMap (carriedBy cfg)

theorem carried_snoc (cfg : Config F) (ops : List Op) (op : Op) :
    carried cfg (ops ++ [op]) = carried cfg ops ++ carriedBy cfg op := by
  simp [carried]

/-- The induction behind every invariant of the stage: what a processed
record, a call that brings none and the closing of an open trace keep holds
after any calls. -/
theorem exec_invariant_of_ops (cfg : Config F) (I : List Op → State → Prop) (h0 : I [] .initial)
    (hprocess : ∀ ops s b r now now', blockIdOf cfg r = some b → I ops s →
      I (ops ++ [.process r now now']) (process cfg s r now now').2)
    (hother : ∀ ops s op, carriedBy cfg op = [] → I ops s → I (ops ++ [op]) s)
    (hclose : ∀ ops s c, I ops s → s.openTraces.get? c.key = some c.trace → I ops (close cfg s c))
    (ops : List Op) : I ops (exec cfg ops) := by
  have key : ∀ (rest ops : List Op) s, I ops s → I (ops ++ rest) (rest.foldl (apply cfg) s) := by
    intro rest
    induction rest with
    | nil =>
      intro ops s hs
      simpa using hs
    | cons op rest ih =>
      intro ops s hs
      have hop : I (ops ++ [op]) (apply cfg s op) := by
        cases op with
        | process r now now' =>
          cases hb : blockIdOf cfg r with
          | none =>
            rw [apply, process_ignored cfg s r now now' hb]
            exact hother ops s _ (by simp [carriedBy, hb]) hs
          | some b => exact hprocess ops s b r now now' hb hs
        | janitorPass =>
          exact foldl_close_invariant cfg (I (ops ++ [.janitorPass])) (hclose _) _ s
            (hother ops s _ rfl hs) (janitorClosings_open cfg s) (janitorClosings_nodup cfg s)
        | stop =>
          rw [apply, stop_eq_closings]
          exact foldl_close_invariant cfg (I (ops ++ [.stop])) (hclose _) _ s
            (hother ops s _ rfl hs) (stopClosings_open s) (stopClosings_nodup s)
      simpa [List.append_assoc] using ih _ _ hop
  exact key ops [] .initial h0

/-- The same when only the records count, with their blocks. -/
theorem exec_invariant_of_calls (cfg : Config F) (I : List (String × LogRecord) → State → Prop)
    (h0 : I [] .initial)
    (hprocess : ∀ h s b r now now', blockIdOf cfg r = some b → I h s →
      I (h ++ [(b,r)]) (process cfg s r now now').2)
    (hclose : ∀ h s c, I h s → s.openTraces.get? c.key = some c.trace → I h (close cfg s c))
    (ops : List Op) : I (carried cfg ops) (exec cfg ops) := by
  refine exec_invariant_of_ops cfg (fun ops s => I (carried cfg ops) s) h0 ?_ ?_
    (fun ops => hclose (carried cfg ops)) ops
  · intro ops s b r now now' hb hs
    rw [carried_snoc, carriedBy, hb]
    exact hprocess _ s b r now now' hb hs
  · intro ops s op hop hs
    rwa [carried_snoc, hop, List.append_nil]

/-- The same when the cap plays no part: adding a record and closing a trace
are looked at separately. -/
theorem exec_invariant (cfg : Config F) (I : List (String × LogRecord) → State → Prop)
    (h0 : I [] .initial)
    (htouch : ∀ h s b r now now', blockIdOf cfg r = some b → I h s →
      I (h ++ [(b,r)]) (touch cfg s b r now now').2)
    (hclose : ∀ h s c, I h s → s.openTraces.get? c.key = some c.trace → I h (close cfg s c))
    (ops : List Op) : I (carried cfg ops) (exec cfg ops) := by
  refine exec_invariant_of_calls cfg I h0 (fun h s b r now now' hb hs => ?_) hclose ops
  have ht := htouch h s b r now now' hb hs
  rcases process_cases cfg s r now now' hb with ⟨_,hp⟩ | ⟨c,hc,hp⟩
  · exact hp ▸ ht
  · exact hp ▸ hclose _ _ c ht (eviction_open cfg s hc)

end PipelineX.Sessionizer
