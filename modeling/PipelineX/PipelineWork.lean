import PipelineX.ExecutorWork
import PipelineX.SequenceAlarms

/-!
# How much a built pipeline still has to do

Around the sessionizer's lock the waiters, the open traces and the handlers of
a trace that is published are weighed like the executor's tasks. An open trace
is closed once, so a record pays for at most one trace when it enters.
-/

set_option autoImplicit false

namespace PipelineX.PipelineWork
open PipelineX.Records PipelineX.Stages PipelineX.TransitionSystem PipelineX.Tally
open PipelineX.Sessionizer (Closing blockIdOf touch touch_openTraces)
open PipelineX.SessionizerTasks (Tasks Waiter Owner Publishing Janitor Acts Orderly Open acquire
  emitAll release processLocked passLocked flushLocked step_acts cancelJanitor emitAll_frame)
open PipelineX.BuiltPipeline

variable {σ F : Type} [Sessionizer.Seconds F]

/-- The handlers of a trace, and what its publisher does next. -/
def traceWork (cfg : SessionizerTasks.Setup F) : ℕ := cfg.handlers+1

def waiterWork (cfg : SessionizerTasks.Setup F) : Waiter → ℕ
  | .worker _ _ _ => traceWork cfg+1
  | .janitor => 1
  | .stop => 1

def holderWork : Option Publishing → ℕ
  | none => 0
  | some p => p.pending.length+1

def janitorWork : Janitor → ℕ
  | .cancelled => 1
  | _ => 0

def stopWork : SessionizerTasks.Stop → ℕ
  | .notCalled => 4
  | .joining => 2
  | .flushing => 0
  | .returned => 0

def tasksWork (cfg : SessionizerTasks.Setup F) (s : Tasks) : ℕ :=
  s.sessionizer.openTraces.size*traceWork cfg + tally (waiterWork cfg) s.waiters +
    holderWork s.holder + janitorWork s.janitor + stopWork s.stop

theorem release_work (cfg : SessionizerTasks.Setup F) (o : Owner) (s : Tasks) :
    tasksWork cfg (release o s) + holderWork s.holder ≤ tasksWork cfg s := by
  cases o <;> simp only [release, tasksWork, holderWork, janitorWork, stopWork] <;> omega

/-- A trace that is published was open. -/
theorem close_size (cfg : Sessionizer.Config F) {s : Sessionizer.State} {c : Closing}
    (h : s.openTraces.get? c.key = some c.trace) :
    (Sessionizer.close cfg s c).openTraces.size < s.openTraces.size :=
  OrderedDict.size_erase_lt (List.mem_map_of_mem (OrderedDict.mem_of_get? h))

theorem emitAll_work (cfg : SessionizerTasks.Setup F) (o : Owner) (cs : List Closing) (s : Tasks)
    (h : Open s.sessionizer cs) :
    tasksWork cfg (emitAll cfg o cs s) + holderWork s.holder ≤ tasksWork cfg s := by
  induction cs generalizing s with
  | nil => exact release_work cfg o s
  | cons c cs ih =>
    have hsize := Nat.mul_le_mul_right (traceWork cfg)
      (Nat.succ_le_of_lt (close_size cfg.config (h.found c List.mem_cons_self)))
    rw [Nat.succ_mul] at hsize
    by_cases hn : cfg.handlers = 0
    · have hrest := ih { s with sessionizer := Sessionizer.close cfg.config s.sessionizer c }
        (h.close cfg.config)
      rw [emitAll, if_pos hn]
      simp only [tasksWork] at hrest ⊢
      omega
    · rw [emitAll, if_neg hn]
      simp only [tasksWork, holderWork, List.length_range]
      simp only [traceWork] at hsize ⊢
      omega

theorem processLocked_work (cfg : SessionizerTasks.Setup F) (w : ℕ) (b : String) (r : LogRecord)
    (now now' : Datetime) (s : Tasks) :
    tasksWork cfg (processLocked cfg w b r now now' s) + holderWork s.holder ≤
      tasksWork cfg s + traceWork cfg := by
  have hsize := Nat.mul_le_mul_right (traceWork cfg)
    (OrderedDict.size_pushEnd_le s.sessionizer.openTraces b
      (touch cfg.config s.sessionizer b r now now').1)
  rw [Nat.succ_mul, ← touch_openTraces] at hsize
  have hemit := emitAll_work cfg (.worker w) _
    { s with
      sessionizer := (touch cfg.config s.sessionizer b r now now').2
      processed := s.processed ++ [(b,r)] }
    (SessionizerTasks.closing_todo cfg.config s.sessionizer b r now now')
  simp only [processLocked]
  simp only [tasksWork] at hemit ⊢
  omega

theorem passLocked_work (cfg : SessionizerTasks.Setup F) (s : Tasks) :
    tasksWork cfg (passLocked cfg s) + holderWork s.holder ≤ tasksWork cfg s :=
  emitAll_work cfg .janitor _ s (SessionizerTasks.janitor_open cfg.config s.sessionizer)

theorem flushLocked_work (cfg : SessionizerTasks.Setup F) (s : Tasks) :
    tasksWork cfg (flushLocked cfg s) + holderWork s.holder ≤ tasksWork cfg s :=
  emitAll_work cfg .stop _ s (SessionizerTasks.stop_open s.sessionizer)

theorem acquire_work (cfg : SessionizerTasks.Setup F) (enter : Tasks → Tasks) (k : Waiter)
    (s : Tasks) (henter : tasksWork cfg (enter s) ≤ tasksWork cfg s + waiterWork cfg k) :
    tasksWork cfg (acquire enter k s) ≤ tasksWork cfg s + waiterWork cfg k := by
  by_cases hfree : s.holder = none ∧ s.waiters = []
  · rw [acquire, if_pos hfree]
    exact henter
  · rw [acquire, if_neg hfree]
    simp only [tasksWork, tally_append, tally_cons, tally_nil]
    omega

theorem tally_filter_le {α : Type} (g : α → ℕ) (p : α → Bool) (xs : List α) :
    tally g (xs.filter p) ≤ tally g xs := by
  induction xs with
  | nil => exact le_refl _
  | cons x xs ih =>
    by_cases hp : p x = true
    · rw [List.filter_cons_of_pos hp, tally_cons, tally_cons]
      omega
    · rw [List.filter_cons_of_neg hp, tally_cons]
      omega

theorem holderWork_filter (p : Publishing → Bool) (h : Option Publishing) :
    holderWork (h.filter p) ≤ holderWork h := by
  cases h with
  | none => exact le_refl _
  | some q => cases hp : p q <;> simp [Option.filter_some, hp, holderWork]

theorem cancelJanitor_work (cfg : SessionizerTasks.Setup F) (s : Tasks) :
    tasksWork cfg (cancelJanitor s) ≤ tasksWork cfg s + 1 := by
  have hwaiters := tally_filter_le (waiterWork cfg) (fun k => k ≠ .janitor) s.waiters
  have hholder : holderWork (cancelJanitor s).holder ≤ holderWork s.holder := by
    cases hh : s.holder with
    | none => simp [cancelJanitor, hh]
    | some p => by_cases ho : p.owner = .janitor <;> simp [cancelJanitor, hh, ho, holderWork]
  simp only [tasksWork] at hholder ⊢
  simp only [cancelJanitor, janitorWork] at hholder ⊢
  omega

/-- What a call of `process` may add, and what the janitor's clock may. -/
def tasksGain (cfg : SessionizerTasks.Setup F) : SessionizerTasks.Label → ℕ
  | .process _ _ _ _ => traceWork cfg+1
  | .tick => 1
  | _ => 0

def tasksCost : SessionizerTasks.Label → ℕ
  | .process _ _ _ _ => 0
  | .tick => 0
  | _ => 1

theorem acts_work (cfg : SessionizerTasks.Setup F) (s t : Tasks) (l : SessionizerTasks.Label)
    (hs : Orderly cfg s) (h : Acts cfg s l t) :
    tasksWork cfg t + tasksCost l ≤ tasksWork cfg s + tasksGain cfg l := by
  -- the first waiter leaves the queue when it gets the lock
  have hgrant (k : Waiter) (ks : List Waiter) (hw : s.waiters = k::ks) :
      tasksWork cfg { s with waiters := ks } + waiterWork cfg k = tasksWork cfg s := by
    simp only [tasksWork, hw, tally_cons]
    omega
  cases h with
  | ignored w r now now' hb => simp [tasksCost, tasksGain]
  | process w b r now now' hb =>
    refine acquire_work cfg _ (.worker w b r) s ?_
    have hwork := processLocked_work cfg w b r now now' s
    simp only [waiterWork]
    omega
  | grantWorker w b r ks now now' hh hw =>
    have hwork := processLocked_work cfg w b r now now' { s with waiters := ks }
    have hfirst := hgrant _ _ hw
    simp only [waiterWork, tasksCost, tasksGain] at hfirst ⊢
    omega
  | grantJanitor ks now now' hh hw =>
    have hwork := passLocked_work cfg { s with waiters := ks }
    have hfirst := hgrant _ _ hw
    simp only [waiterWork, tasksCost, tasksGain] at hfirst ⊢
    omega
  | grantStop ks now now' hh hw =>
    have hwork := flushLocked_work cfg { s with waiters := ks }
    have hfirst := hgrant _ _ hw
    simp only [waiterWork, tasksCost, tasksGain] at hfirst ⊢
    omega
  | handled h p hh hm =>
    have hlen := List.length_erase_of_mem hm
    have hpos := List.length_pos_of_mem hm
    simp only [tasksWork, hh, holderWork, hlen, tasksCost, tasksGain]
    omega
  | resume p hh hp hj =>
    have hwork := emitAll_work cfg p.owner p.todo s (hs.todo p hh)
    rw [hh, holderWork] at hwork
    simp only [tasksCost, tasksGain]
    omega
  | tick hj =>
    have hpass : tasksWork cfg { s with janitor := .passing } = tasksWork cfg s := by
      simp [tasksWork, hj, janitorWork]
    have hwork := passLocked_work cfg { s with janitor := .passing }
    have hacquire := acquire_work cfg (passLocked cfg) .janitor { s with janitor := .passing }
      (by omega)
    simp only [waiterWork] at hacquire
    simp only [tasksCost, tasksGain]
    omega
  | stopAlone hst hj =>
    have hflush : tasksWork cfg { s with stop := .flushing } + 4 = tasksWork cfg s := by
      simp only [tasksWork, hst, stopWork]
    have hwork := flushLocked_work cfg { s with stop := .flushing }
    have hacquire := acquire_work cfg (flushLocked cfg) .stop { s with stop := .flushing }
      (by omega)
    simp only [waiterWork] at hacquire
    simp only [tasksCost, tasksGain]
    omega
  | stopJoins hst hj =>
    have hcancel := cancelJanitor_work cfg s
    have hstop : (cancelJanitor s).stop = .notCalled := hst
    have hjoin : tasksWork cfg { cancelJanitor s with stop := .joining } + 2 =
        tasksWork cfg (cancelJanitor s) := by
      simp only [tasksWork, hstop, stopWork]
    change tasksWork cfg { cancelJanitor s with stop := .joining } + 1 ≤ tasksWork cfg s + 0
    omega
  | unwound hj =>
    have hholder := holderWork_filter (fun p => p.owner ≠ .janitor) s.holder
    simp only [tasksWork, hj, janitorWork, tasksCost, tasksGain]
    omega
  | joined hst hj =>
    have hflush : tasksWork cfg { s with stop := .flushing } + 2 = tasksWork cfg s := by
      simp only [tasksWork, hst, stopWork]
    have hwork := flushLocked_work cfg { s with stop := .flushing }
    have hacquire := acquire_work cfg (flushLocked cfg) .stop { s with stop := .flushing }
      (by omega)
    simp only [waiterWork] at hacquire
    simp only [tasksCost, tasksGain]
    omega

theorem cancelWorker_work (cfg : SessionizerTasks.Setup F) (i : ℕ) (s : Tasks) :
    tasksWork cfg (cancelWorker i s) ≤ tasksWork cfg s := by
  have hwaiters := tally_filter_le (waiterWork cfg) (fun k => !ofWorker i k) s.waiters
  have hholder := holderWork_filter (fun p => p.owner ≠ .worker i) s.holder
  simp only [tasksWork, cancelWorker]
  omega

/-- What a record costs between the queue and the table: its way in, a grant of
the lock, and the trace that it may start. -/
def enterWork (cfg : Setup σ F) : ℕ := traceWork cfg.tasks+2

def runningWork (cfg : Setup σ F) : Option ℕ → ℕ
  | none => 0
  | some _ => enterWork cfg

def work (cfg : Setup σ F) (x : Built σ) : ℕ :=
  ExecutorWork.work cfg.executor (enterWork cfg) x.executor + runningWork cfg x.running +
    tasksWork cfg.tasks x.tasks

/-- The polls of an empty queue, and what the flusher's and the janitor's
clocks set off. -/
def timer : Label → Bool
  | .consumer _ .timeout => true
  | .flusher .tick => true
  | .tasks .tick => true
  | _ => false

def cost (l : Label) : ℕ := if timer l then 0 else 1

def gain (l : Label) : ℕ := if timer l then 2 else 0

theorem executorStep_work (cfg : Setup σ F) {x y : Built σ} {l : Executor.Label}
    (h : executorStep cfg x l = some y) : y.tasks = x.tasks ∧ y.running = x.running ∧
      ExecutorWork.work cfg.executor (enterWork cfg) y.executor +
          ExecutorWork.cost (enterWork cfg) l ≤
        ExecutorWork.work cfg.executor (enterWork cfg) x.executor + ExecutorWork.gain l := by
  obtain ⟨s,hs,rfl⟩ := Option.map_eq_some_iff.mp h
  exact ⟨rfl,rfl,ExecutorWork.step_work cfg.executor _ _ s l hs⟩

theorem stepRunning_work (cfg : Setup σ F) (x y : Built σ) (i : ℕ) (l : Label)
    (hr : x.running = some i) (ho : Orderly cfg.tasks x.tasks)
    (h : stepRunning cfg x i l = some y) : work cfg y + cost l ≤ work cfg x + gain l := by
  cases l with
  | front j =>
    simp only [stepRunning] at h
    split at h
    · split at h
      · obtain ⟨st,_,h⟩ := Option.bind_eq_some_iff.mp h
        obtain ⟨z,hz,rfl⟩ := Option.map_eq_some_iff.mp h
        obtain ⟨htasks,_,hwork⟩ := executorStep_work cfg hz
        simp only [ExecutorWork.cost, ExecutorWork.gain] at hwork
        simp only [work, htasks, hr, cost, gain, timer, runningWork, Bool.false_eq_true, if_false]
        split <;> omega
      · cases h
    · cases h
  | enter j now now' =>
    simp only [stepRunning] at h
    split at h
    · split at h
      · next r n hi =>
        split at h
        · obtain ⟨s,hs,rfl⟩ := Option.map_eq_some_iff.mp h
          have hwork := acts_work cfg.tasks _ _ _ ho (step_acts cfg.tasks _ _ _ hs)
          simp only [tasksCost, tasksGain] at hwork
          simp only [work, hr, cost, gain, timer, runningWork, enterWork, Bool.false_eq_true,
            if_false]
          omega
        · cases h
      · cases h
    · cases h
  | _ => cases h

theorem stepIdle_work (cfg : Setup σ F) (x y : Built σ) (l : Label) (hr : x.running = none)
    (ho : Orderly cfg.tasks x.tasks) (h : stepIdle cfg x l = some y) :
    work cfg y + cost l ≤ work cfg x + gain l := by
  have hother {m : Executor.Label} (h : executorStep cfg x m = some y)
      (hcost : cost l ≤ ExecutorWork.cost (enterWork cfg) m)
      (hgain : ExecutorWork.gain m ≤ gain l) : work cfg y + cost l ≤ work cfg x + gain l := by
    obtain ⟨htasks,hrun,hwork⟩ := executorStep_work cfg h
    simp only [work, htasks, hrun]
    omega
  cases l with
  | get i =>
    obtain ⟨z,hz,rfl⟩ := Option.map_eq_some_iff.mp h
    obtain ⟨htasks,_,hwork⟩ := executorStep_work cfg hz
    simp only [ExecutorWork.cost, ExecutorWork.gain] at hwork
    simp only [work, htasks, hr, cost, gain, timer, runningWork, Bool.false_eq_true, if_false]
    omega
  | leave i =>
    simp only [stepIdle] at h
    split at h
    · split at h
      · exact hother h (le_refl 1) (le_refl 0)
      · cases h
    · cases h
  | consumer i m =>
    cases m with
    | get => cases h
    | timeout =>
      simp only [stepIdle] at h
      split at h
      · exact hother h (le_refl 0) (Nat.zero_le _)
      · cases h
    | _ =>
      simp only [stepIdle] at h
      split at h
      · exact hother h (le_refl 1) (le_refl 0)
      · cases h
  | cancelled i landed =>
    obtain ⟨z,hz,rfl⟩ := Option.map_eq_some_iff.mp h
    obtain ⟨_,hrun,hwork⟩ := executorStep_work cfg hz
    have hcancel := cancelWorker_work cfg.tasks i x.tasks
    simp only [ExecutorWork.cost, ExecutorWork.gain] at hwork
    simp only [work, hrun, cost, gain, timer, Bool.false_eq_true, if_false]
    omega
  | producer => exact hother h (le_refl 1) (le_refl 0)
  | flusher m =>
    cases m with
    | tick => exact hother h (le_refl 0) (le_refl 2)
    | _ => exact hother h (le_refl 1) (le_refl 0)
  | main m => exact hother h (le_refl 1) (le_refl 0)
  | tasks m =>
    have hgo (h : (SessionizerTasks.step cfg.tasks x.tasks m).map (fun s => { x with tasks := s }) =
        some y) (hcost : cost (.tasks m) ≤ tasksCost m)
        (hgain : tasksGain cfg.tasks m ≤ gain (.tasks m)) :
        work cfg y + cost (.tasks m) ≤ work cfg x + gain (.tasks m) := by
      obtain ⟨s,hs,rfl⟩ := Option.map_eq_some_iff.mp h
      have hwork := acts_work cfg.tasks _ _ _ ho (step_acts cfg.tasks _ _ _ hs)
      simp only [work]
      omega
    cases m with
    | process w r now now' => cases h
    | tick => exact hgo h (le_refl 0) (Nat.le_succ 1)
    | _ => exact hgo h (le_refl 1) (le_refl 0)
  | _ => cases h

/-- Every step but a timer's is paid for. -/
theorem step_work (cfg : Setup σ F) (x y : Built σ) (l : Label)
    (ho : Orderly cfg.tasks x.tasks) (h : step cfg x l = some y) :
    work cfg y + cost l ≤ work cfg x + gain l := by
  unfold step at h
  split at h
  · next i hr => exact stepRunning_work cfg x y i l hr ho h
  · next hr => exact stepIdle_work cfg x y l hr ho h

end PipelineX.PipelineWork
