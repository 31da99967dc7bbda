import PipelineX.ExecutorOrder
import PipelineX.SessionizerTasks

/-!
# The pipeline of `build_pipeline` with a sessionizer

The executor's consumers call the sessionizer's `process`, after the stages
that come before it. Those stages never suspend, so from its `get` to the
sessionizer's lock a consumer runs alone. The queue and the lock's waiters
are first in, first out, and the records keep the source's order on their
way.
-/

set_option autoImplicit false

namespace PipelineX.BuiltPipeline
open PipelineX.Records PipelineX.Stages PipelineX.TransitionSystem
open PipelineX.Executor (Consumer ConsumerLabel FlusherLabel MainLabel)
open PipelineX.ExecutorSteps PipelineX.ExecutorLedger PipelineX.ExecutorPhases
open PipelineX.ExecutorOrder PipelineX.SessionizerPartition
open PipelineX.SessionizerTasks (Tasks Waiter Owner Publishing inHands Acts Orderly)

variable {σ F : Type} [Sessionizer.Seconds F]

/-- `front` are the stages before the sessionizer, `later` the names of those
after it. -/
structure Setup (σ F : Type) [Sessionizer.Seconds F] where
  executor : Executor.Config
  tasks : SessionizerTasks.Setup F
  front : List (Stage σ)
  later : List String
  names : executor.stageNames = front.map Stage.name ++ "sessionize:block" :: later

/-- The stages in the order of `build_pipeline`. -/
def buildPipeline (executor : Executor.Config) (handlers : ℕ) (parser : Stage σ)
    (validation template : Option (Stage σ)) (z : Sessionizing σ F) (detectors : List (Stage σ))
    (h : executor.stageNames = (buildStages parser validation template
      (some (sessionizerStage z)) detectors).map Stage.name) : Setup σ F where
  executor
  tasks := ⟨z.config,handlers⟩
  front := frontStages parser validation template
  later := detectors.map Stage.name
  names := by
    rw [h, buildStages]
    simp [sessionizerStage]

/-- `running` is the consumer that has not suspended since its `get`.
`survivors` reached the sessionizer, and `cut` were cancelled at its lock. -/
structure Built (σ : Type) where
  executor : Executor.State
  tasks : Tasks
  world : σ
  running : Option ℕ
  survivors : List LogRecord
  cut : List LogRecord
  deriving DecidableEq

def initial (cfg : Setup σ F) (w : σ) (started : Bool) (lines : List String) : Built σ where
  executor := Executor.initial cfg.executor lines
  tasks := SessionizerTasks.initial started
  world := w
  running := none
  survivors := []
  cut := []

/-- The records of the waiters that satisfy `p`, in order. -/
def waiting (p : ℕ → Bool) : List Waiter → List LogRecord
  | [] => []
  | .worker w _ r::ks => if p w then r :: waiting p ks else waiting p ks
  | _::ks => waiting p ks

def ofWorker (i : ℕ) : Waiter → Bool
  | .worker w _ _ => w = i
  | _ => false

/-- `CancelledError` in a consumer that waits for the lock, or has it and
waits for the handlers. -/
def cancelWorker (i : ℕ) (s : Tasks) : Tasks :=
  { s with
    waiters := s.waiters.filter (fun k => !ofWorker i k)
    holder := s.holder.filter (fun p => p.owner ≠ .worker i)
    interrupted := s.interrupted ++ inHands s (.worker i) }

/-- The consumer's call of `process` has returned. -/
def returned (i : ℕ) (s : Tasks) : Bool :=
  s.waiters.all (fun k => !ofWorker i k) && (s.holder.filter (fun p => p.owner = .worker i)).isNone

/-- The consumer is neither before nor in the sessionizer. -/
def outside (cfg : Setup σ F) (x : Built σ) (i : ℕ) : Bool :=
  match x.executor.consumers[i]? with
  | some (.staging _ k) => cfg.front.length < k
  | _ => true

inductive Label where
  | get (i : ℕ)
  | front (i : ℕ)
  | enter (i : ℕ) (now now' : Datetime)
  | leave (i : ℕ)
  | consumer (i : ℕ) (l : ConsumerLabel)
  | cancelled (i : ℕ) (landed : Bool)
  | producer
  | flusher (l : FlusherLabel)
  | main (l : MainLabel)
  | tasks (l : SessionizerTasks.Label)

/-- A step of the executor and nothing else. -/
def executorStep (cfg : Setup σ F) (x : Built σ) (l : Executor.Label) : Option (Built σ) :=
  (Executor.step cfg.executor x.executor l).map (fun s => { x with executor := s })

def stepRunning (cfg : Setup σ F) (x : Built σ) (i : ℕ) : Label → Option (Built σ)
  | .front j =>
    if j = i then
      match x.executor.consumers[i]? with
      | some (.staging r k) =>
        (cfg.front[k]?).bind (fun st =>
          let (out,w) := st.process x.world r
          (executorStep cfg x (.consumer i (.stage out))).map (fun y =>
            { y with world := w, running := match out with | .ok _ => some i | .error _ => none }))
      | _ => none
    else none
  | .enter j now now' =>
    if j = i then
      match x.executor.consumers[i]? with
      | some (.staging r k) =>
        if k = cfg.front.length then
          (SessionizerTasks.step cfg.tasks x.tasks (.process i r now now')).map (fun s =>
            { x with tasks := s, running := none, survivors := x.survivors ++ [r] })
        else none
      | _ => none
    else none
  | _ => none

def stepIdle (cfg : Setup σ F) (x : Built σ) : Label → Option (Built σ)
  | .get i => (executorStep cfg x (.consumer i .get)).map (fun y => { y with running := some i })
  | .leave i =>
    match x.executor.consumers[i]? with
    | some (.staging r k) =>
      if k = cfg.front.length ∧ returned i x.tasks then
        executorStep cfg x (.consumer i (.stage (Sessionizer.outcome cfg.tasks.config r)))
      else none
    | _ => none
  | .consumer _ .get => none
  | .consumer i l => if outside cfg x i then executorStep cfg x (.consumer i l) else none
  | .cancelled i landed =>
    (executorStep cfg x (.cancelled i landed)).map (fun y => { y with
      tasks := cancelWorker i x.tasks
      cut := x.cut ++ waiting (fun w => w = i) x.tasks.waiters })
  | .producer => executorStep cfg x .producer
  | .flusher l => executorStep cfg x (.flusher l)
  | .main l => executorStep cfg x (.main l)
  | .tasks (.process _ _ _ _) => none
  | .tasks l => (SessionizerTasks.step cfg.tasks x.tasks l).map (fun s => { x with tasks := s })
  | _ => none

/-- While a consumer runs no other task does. -/
def step (cfg : Setup σ F) (x : Built σ) (l : Label) : Option (Built σ) :=
  match x.running with
  | some i => stepRunning cfg x i l
  | none => stepIdle cfg x l

/-- The cases of a step. -/
inductive Goes (cfg : Setup σ F) (x : Built σ) : Built σ → Prop where
  | get (i : ℕ) (s : Executor.State) (hr : x.running = none)
      (h : Executor.step cfg.executor x.executor (.consumer i .get) = some s) :
      Goes cfg x { x with executor := s, running := some i }
  | front (i : ℕ) (r : LogRecord) (k : ℕ) (st : Stage σ) (s : Executor.State)
      (hr : x.running = some i) (hi : x.executor.consumers[i]? = some (.staging r k))
      (hk : cfg.front[k]? = some st)
      (h : Executor.step cfg.executor x.executor
        (.consumer i (.stage (st.process x.world r).1)) = some s) :
      Goes cfg x { x with
        executor := s
        world := (st.process x.world r).2
        running := match (st.process x.world r).1 with | .ok _ => some i | .error _ => none }
  | enter (i : ℕ) (r : LogRecord) (now now' : Datetime) (s : Tasks) (hr : x.running = some i)
      (hi : x.executor.consumers[i]? = some (.staging r cfg.front.length))
      (h : SessionizerTasks.step cfg.tasks x.tasks (.process i r now now') = some s) :
      Goes cfg x { x with tasks := s, running := none, survivors := x.survivors ++ [r] }
  | leave (i : ℕ) (r : LogRecord) (s : Executor.State) (hr : x.running = none)
      (hi : x.executor.consumers[i]? = some (.staging r cfg.front.length))
      (hret : returned i x.tasks = true)
      (h : Executor.step cfg.executor x.executor
        (.consumer i (.stage (Sessionizer.outcome cfg.tasks.config r))) = some s) :
      Goes cfg x { x with executor := s }
  | consumer (i : ℕ) (l : ConsumerLabel) (s : Executor.State) (hr : x.running = none)
      (hl : l ≠ .get) (hout : outside cfg x i = true)
      (h : Executor.step cfg.executor x.executor (.consumer i l) = some s) :
      Goes cfg x { x with executor := s }
  | cancelled (i : ℕ) (landed : Bool) (s : Executor.State) (hr : x.running = none)
      (h : Executor.step cfg.executor x.executor (.cancelled i landed) = some s) :
      Goes cfg x { x with
        executor := s
        tasks := cancelWorker i x.tasks
        cut := x.cut ++ waiting (fun w => w = i) x.tasks.waiters }
  | other (l : Executor.Label) (s : Executor.State) (hr : x.running = none)
      (hl : ∀ i m b, l ≠ .consumer i m ∧ l ≠ .cancelled i b)
      (h : Executor.step cfg.executor x.executor l = some s) :
      Goes cfg x { x with executor := s }
  | tasks (l : SessionizerTasks.Label) (s : Tasks) (hr : x.running = none)
      (hl : ∀ w r now now', l ≠ .process w r now now')
      (h : SessionizerTasks.step cfg.tasks x.tasks l = some s) :
      Goes cfg x { x with tasks := s }

theorem stepRunning_goes (cfg : Setup σ F) (x y : Built σ) (i : ℕ) (l : Label)
    (hr : x.running = some i) (h : stepRunning cfg x i l = some y) : Goes cfg x y := by
  cases l with
  | front j =>
    simp only [stepRunning] at h
    split at h
    · split at h
      · next r k hi =>
        obtain ⟨st,hk,h⟩ := Option.bind_eq_some_iff.mp h
        obtain ⟨z,hz,rfl⟩ := Option.map_eq_some_iff.mp h
        obtain ⟨s,hs,rfl⟩ := Option.map_eq_some_iff.mp hz
        exact .front i r k st s hr hi hk hs
      · cases h
    · cases h
  | enter j now now' =>
    simp only [stepRunning] at h
    split at h
    · split at h
      · next r k hi =>
        split at h
        · next hk =>
          obtain ⟨s,hs,rfl⟩ := Option.map_eq_some_iff.mp h
          exact .enter i r now now' s hr (hk ▸ hi) hs
        · cases h
      · cases h
    · cases h
  | _ => cases h

theorem stepIdle_goes (cfg : Setup σ F) (x y : Built σ) (l : Label) (hr : x.running = none)
    (h : stepIdle cfg x l = some y) : Goes cfg x y := by
  have hother (m : Executor.Label) (hm : ∀ i l b, m ≠ .consumer i l ∧ m ≠ .cancelled i b)
      (h : executorStep cfg x m = some y) : Goes cfg x y := by
    obtain ⟨s,hs,rfl⟩ := Option.map_eq_some_iff.mp h
    exact .other m s hr hm hs
  cases l with
  | get i =>
    obtain ⟨z,hz,rfl⟩ := Option.map_eq_some_iff.mp h
    obtain ⟨s,hs,rfl⟩ := Option.map_eq_some_iff.mp hz
    exact .get i s hr hs
  | leave i =>
    simp only [stepIdle] at h
    split at h
    · next r k hi =>
      split at h
      · next hk =>
        obtain ⟨s,hs,rfl⟩ := Option.map_eq_some_iff.mp h
        exact .leave i r s hr (hk.1 ▸ hi) hk.2 hs
      · cases h
    · cases h
  | consumer i m =>
    have hgo (hm : m ≠ .get)
        (h : (if outside cfg x i then executorStep cfg x (.consumer i m) else none) = some y) :
        Goes cfg x y := by
      split at h
      · next hout =>
        obtain ⟨s,hs,rfl⟩ := Option.map_eq_some_iff.mp h
        exact .consumer i m s hr hm hout hs
      · cases h
    cases m with
    | get => cases h
    | _ => exact hgo (by simp) h
  | cancelled i landed =>
    obtain ⟨z,hz,rfl⟩ := Option.map_eq_some_iff.mp h
    obtain ⟨s,hs,rfl⟩ := Option.map_eq_some_iff.mp hz
    exact .cancelled i landed s hr hs
  | producer => exact hother .producer (by simp) h
  | flusher m => exact hother (.flusher m) (by simp) h
  | main m => exact hother (.main m) (by simp) h
  | tasks m =>
    have hgo (hm : ∀ w r now now', m ≠ .process w r now now')
        (h : (SessionizerTasks.step cfg.tasks x.tasks m).map (fun s => { x with tasks := s }) =
          some y) : Goes cfg x y := by
      obtain ⟨s,hs,rfl⟩ := Option.map_eq_some_iff.mp h
      exact .tasks m s hr hm hs
    cases m with
    | process w r now now' => cases h
    | _ => exact hgo (by simp) h
  | _ => cases h

theorem step_goes (cfg : Setup σ F) (x y : Built σ) (l : Label) (h : step cfg x l = some y) :
    Goes cfg x y := by
  unfold step at h
  split at h
  · next i hr => exact stepRunning_goes cfg x y i l hr h
  · next hr => exact stepIdle_goes cfg x y l hr h

end PipelineX.BuiltPipeline
