import PipelineX.PipelineWork
import PipelineX.SessionizerDuty

/-!
# `pipelinex run`

`_run` starts the sessionizer, runs the executor, and calls `stop` when `run`
has returned or raised. Until `stop` has returned some task can go on, all
but the timers is bounded by the size of the log, and what is left at the end
is the log's own traces, each with its handlers. That a block's events are in the
order of its lines is for CPython 3.12 and later.
-/

set_option autoImplicit false

namespace PipelineX.CliRun
open PipelineX.Records PipelineX.Stages PipelineX.TransitionSystem
open PipelineX.Sessionizer (blockIdOf)
open PipelineX.Executor (Consumer ConsumerLabel Main)
open PipelineX.ExecutorSteps PipelineX.ExecutorLedger PipelineX.ExecutorPhases
open PipelineX.SessionizerPartition
open PipelineX.SessionizerTasks (Tasks Waiter Owner Acts Orderly step_acts)
open PipelineX.SessionizerDuty (Stopping)
open PipelineX.BuiltPipeline PipelineX.SourceOrder PipelineX.SequenceAlarms
open PipelineX.TraceListeners PipelineX.Tally
open PipelineX.PipelineWork (work timer cost gain)

variable {σ F : Type} [Sessionizer.Seconds F]

/-- `run` has returned or raised. -/
def hasEnded : Main → Bool
  | .returned => true
  | .raised => true
  | _ => false

/-- `_run`: `stop` is called in the `finally`. -/
def step (cfg : Setup σ F) (x : Built σ) (l : Label) : Option (Built σ) :=
  match l with
  | .tasks .stopCall => if hasEnded x.executor.main then BuiltPipeline.step cfg x l else none
  | _ => BuiltPipeline.step cfg x l

theorem step_built (cfg : Setup σ F) {x y : Built σ} {l : Label} (h : step cfg x l = some y) :
    BuiltPipeline.step cfg x l = some y ∧
      (l = .tasks .stopCall → hasEnded x.executor.main = true) := by
  unfold step at h
  split at h
  · split at h
    · next hover => exact ⟨h,fun _ => hover⟩
    · cases h
  · next hne => exact ⟨h,fun he => absurd he hne⟩

theorem step_other (cfg : Setup σ F) (x : Built σ) {l : Label} (hl : l ≠ .tasks .stopCall) :
    step cfg x l = BuiltPipeline.step cfg x l := by
  unfold step
  split
  · exact absurd rfl hl
  · rfl

/-- The consumer that has not suspended since its `get` is on its way to the
sessionizer, and nobody else is. -/
structure Posted (cfg : Setup σ F) (x : Built σ) : Prop where
  running : ∀ i, x.running = some i → ∃ r k,
    x.executor.consumers[i]? = some (.staging r k) ∧ k ≤ cfg.front.length
  others : ∀ i r k, x.executor.consumers[i]? = some (.staging r k) →
    x.running = some i ∨ cfg.front.length ≤ k

/-- Consumer `i` moves to `c` and the others stay. -/
theorem posted_set (cfg : Setup σ F) {x y : Built σ} {i : ℕ} {c : Consumer}
    (hx : Posted cfg x) (hfree : ∀ j, x.running = some j → j = i)
    (hset : y.executor.consumers = x.executor.consumers.set i c)
    (hlen : i < x.executor.consumers.length)
    (hrun : ∀ j, y.running = some j → j = i ∧ ∃ r k, c = .staging r k ∧ k ≤ cfg.front.length)
    (hmoved : ∀ r k, c = .staging r k → y.running = some i ∨ cfg.front.length ≤ k) :
    Posted cfg y := by
  constructor
  · intro j hj
    obtain ⟨rfl,r,k,rfl,hk⟩ := hrun j hj
    exact ⟨r,k,by rw [hset, List.getElem?_set_self hlen],hk⟩
  · intro j r k hj
    rw [hset] at hj
    by_cases hij : i = j
    · subst hij
      rw [List.getElem?_set_self hlen] at hj
      exact hmoved r k (Option.some.inj hj)
    · rw [List.getElem?_set_ne hij] at hj
      rcases hx.others j r k hj with hr | hk
      · exact absurd (hfree j hr).symm hij
      · exact Or.inr hk

theorem lt_of_some {α : Type} {xs : List α} {i : ℕ} {a : α} (h : xs[i]? = some a) :
    i < xs.length := (List.getElem?_eq_some_iff.mp h).1

theorem goes_posted (cfg : Setup σ F) (x y : Built σ) (hx : Posted cfg x)
    (hgoes : Goes cfg x y) : Posted cfg y := by
  have hnone {i : ℕ} (hr : x.running = none) : ∀ j, x.running = some j → j = i :=
    fun j hj => by simp [hr] at hj
  cases hgoes with
  | get i s hr h =>
    obtain ⟨c,c',sh,hi,hc,rfl⟩ := consumer_moves cfg.executor x.executor s i .get h
    cases hc with
    | get r queue hq =>
      refine posted_set cfg hx (hnone hr) rfl (lt_of_some hi) (fun j hj => ?_) (fun _ _ _ => Or.inl rfl)
      exact ⟨(Option.some.inj hj).symm,r,0,rfl,Nat.zero_le _⟩
  | front i r k st s hr hi hk h =>
    obtain ⟨c,c',sh,hi',hc,rfl⟩ := consumer_moves cfg.executor x.executor s i _ h
    rw [hi] at hi'
    cases hi'
    have hlt := lt_of_some hk
    have hfree : ∀ j, x.running = some j → j = i := fun j hj => by
      rw [hr] at hj
      exact (Option.some.inj hj).symm
    cases hout : (st.process x.world r).1 with
    | error e =>
      rw [hout] at hc
      cases hc with
      | raised _ _ name e hk =>
        exact posted_set cfg hx hfree rfl (lt_of_some hi) (by simp) (by simp)
    | ok r' =>
      rw [hout] at hc
      cases hc with
      | staged _ _ _ name hk hid =>
        refine posted_set cfg hx hfree rfl (lt_of_some hi) (fun j hj => ?_) (fun _ _ _ => Or.inl rfl)
        exact ⟨(Option.some.inj hj).symm,_,k+1,rfl,hlt⟩
  | enter i r now now' s hr hi h =>
    refine ⟨fun j hj => by simp at hj,fun j q k hj => ?_⟩
    rcases hx.others j q k hj with hrun | hk
    · rw [hr] at hrun
      cases hrun
      rw [show x.executor.consumers[i]? = _ from hi] at hj
      cases hj
      exact Or.inr (le_refl _)
    · exact Or.inr hk
  | leave i r s hr hi hret h =>
    obtain ⟨c,c',sh,hi',hc,rfl⟩ := consumer_moves cfg.executor x.executor s i _ h
    rw [hi] at hi'
    cases hi'
    generalize hn : cfg.front.length = n at hc
    generalize Sessionizer.outcome cfg.tasks.config r = out at hc
    cases hc with
    | raised _ _ name e hk =>
      exact posted_set cfg hx (hnone hr) rfl (lt_of_some hi) (by simp [hr]) (by simp)
    | staged _ _ _ name hk hid =>
      refine posted_set cfg hx (hnone hr) rfl (lt_of_some hi) (by simp [hr]) (fun q k hq => ?_)
      cases hq
      exact Or.inr (hn ▸ Nat.le_succ _)
  | consumer i l s hr hl hout h =>
    obtain ⟨c,c',sh,hi,hc,rfl⟩ := consumer_moves cfg.executor x.executor s i l h
    refine posted_set cfg hx (hnone hr) rfl (lt_of_some hi) (by simp [hr]) (fun q k hq => ?_)
    cases hc with
    | get r queue hq => exact absurd rfl hl
    | staged r r' k name hk hid =>
      cases hq
      have hlt : cfg.front.length < k := by simpa [outside, hi] using hout
      exact Or.inr (by omega)
    | _ => cases hq
  | cancelled i landed s hr h =>
    cases step_moves cfg.executor x.executor s _ h with
    | cancelled i landed c sh hdown hi h =>
      exact posted_set cfg hx (hnone hr) rfl (lt_of_some hi) (by simp [hr]) (by simp)
  | other l s hr hl h =>
    have hcons := (other_toCome cfg.executor x.executor s l hl h).2.1
    exact ⟨fun j hj => by simp [hr] at hj,fun j q k hj => hx.others j q k (hcons ▸ hj)⟩
  | tasks l s hr hl h => exact ⟨hx.running,hx.others⟩

theorem cancelWorker_stopping (i : ℕ) (s : Tasks) (hs : Stopping s) :
    Stopping (cancelWorker i s) := by
  constructor
  · exact fun hd hm => hs.waiter hd (List.mem_of_mem_filter hm)
  · exact fun p hp ho => hs.holder p (Option.filter_eq_some_iff.mp hp).1 ho
  · exact hs.settled
  · have hcount : (s.waiters.filter (fun k => !ofWorker i k)).count .stop =
        s.waiters.count .stop := List.count_filter rfl
    have hholds : SessionizerDuty.stopHolds (s.holder.filter (fun p => p.owner ≠ .worker i)) =
        SessionizerDuty.stopHolds s.holder := by
      cases hh : s.holder with
      | none => rfl
      | some p =>
        by_cases ho : p.owner = .worker i <;>
          simp [Option.filter_some, ho, SessionizerDuty.stopHolds]
    have hturn := hs.turn
    rwa [← hcount, ← hholds] at hturn

/-- A consumer runs only before the shutdown. -/
theorem goes_up (cfg : Setup σ F) (x y : Built σ) (hgoes : Goes cfg x y) :
    y.running ≠ none → y.executor.shared.shutdown = false := by
  have hconsumer {i : ℕ} {l : ConsumerLabel} {s : Executor.State}
      (h : Executor.step cfg.executor x.executor (.consumer i l) = some s) :
      s.shared.shutdown = false := by
    cases step_moves cfg.executor x.executor s _ h with
    | consumer i l c c' sh hrun hi hc =>
      exact (consumes_frame cfg.executor _ _ _ _ _ hc).1.shutdown.trans hrun
  cases hgoes with
  | get i s hr h => exact fun _ => hconsumer h
  | front i r k st s hr hi hk h => exact fun _ => hconsumer h
  | enter i r now now' s hr hi h => exact fun hn => absurd rfl hn
  | leave i r s hr hi hret h => exact fun hn => absurd hr hn
  | consumer i l s hr hl hout h => exact fun hn => absurd hr hn
  | cancelled i landed s hr h => exact fun hn => absurd hr hn
  | other l s hr hl h => exact fun hn => absurd hr hn
  | tasks l s hr hl h => exact fun hn => absurd hr hn

/-- What holds in every run of `_run`. -/
structure Alive (cfg : Setup σ F) (w : σ) (lines : List String) (x : Built σ) : Prop where
  executor : Inv cfg.executor lines x.executor
  ready : ExecutorProgress.Ready cfg.executor x.executor
  orderly : Orderly cfg.tasks x.tasks
  sorted : Sorted cfg (survivorsOf cfg w lines) x
  held : Held cfg x
  posted : Posted cfg x
  up : x.running ≠ none → x.executor.shared.shutdown = false
  stopping : Stopping x.tasks
  called : x.tasks.stop ≠ .notCalled → hasEnded x.executor.main = true

theorem initial_alive (cfg : Setup σ F) (w : σ) (started : Bool) (lines : List String) :
    Alive cfg w lines (initial cfg w started lines) where
  executor := run_inv cfg.executor lines [] _ rfl
  ready := ExecutorProgress.initial_ready cfg.executor lines
  orderly := SessionizerTasks.initial_orderly cfg.tasks started
  sorted := initial_sorted cfg w started lines
  held := (initial_sound cfg 0 w started lines).held
  posted := by
    refine ⟨fun i hi => by simp [initial] at hi,fun i r k hi => ?_⟩
    have hmem := List.mem_of_getElem? hi
    simp [initial, Executor.initial] at hmem
  up := fun h => absurd rfl h
  stopping := SessionizerDuty.initial_stopping started
  called := fun h => absurd rfl h

theorem over_stays (cfg : Executor.Config) (s t : Executor.State) (l : Executor.Label)
    (h : Executor.step cfg s l = some t) (hs : hasEnded s.main = true) :
    hasEnded t.main = true := by
  cases step_moves cfg s t l h with
  | main l m sh hm =>
    generalize s.main = m₀ at hm hs
    cases hm <;> simp [hasEnded] at hs
  | _ => exact hs

theorem goes_executor (cfg : Setup σ F) (x y : Built σ) (hgoes : Goes cfg x y) :
    y.executor = x.executor ∨
      ∃ m, Executor.step cfg.executor x.executor m = some y.executor := by
  cases hgoes with
  | enter i r now now' s hr hi h => exact Or.inl rfl
  | tasks l s hr hl h => exact Or.inl rfl
  | get i s hr h => exact Or.inr ⟨_,h⟩
  | front i r k st s hr hi hk h => exact Or.inr ⟨_,h⟩
  | leave i r s hr hi hret h => exact Or.inr ⟨_,h⟩
  | consumer i l s hr hl hout h => exact Or.inr ⟨_,h⟩
  | cancelled i landed s hr h => exact Or.inr ⟨_,h⟩
  | other l s hr hl h => exact Or.inr ⟨_,h⟩

/-- The tasks around the lock make a step of their own, lose a consumer, or
stay. -/
theorem step_tasks (cfg : Setup σ F) {x y : Built σ} {l : Label}
    (h : BuiltPipeline.step cfg x l = some y) :
    y.tasks = x.tasks ∨ (∃ i, y.tasks = cancelWorker i x.tasks) ∨
      ∃ m, (m = .stopCall → l = .tasks .stopCall) ∧
        SessionizerTasks.step cfg.tasks x.tasks m = some y.tasks := by
  have hother {m : Executor.Label} (h : executorStep cfg x m = some y) : y.tasks = x.tasks :=
    executorStep_tasks cfg h
  unfold BuiltPipeline.step at h
  split at h
  · next i hr =>
    cases l with
    | front j =>
      simp only [stepRunning] at h
      split at h
      · split at h
        · obtain ⟨st,_,h⟩ := Option.bind_eq_some_iff.mp h
          obtain ⟨z,hz,rfl⟩ := Option.map_eq_some_iff.mp h
          have htasks := executorStep_tasks cfg hz
          exact Or.inl htasks
        · cases h
      · cases h
    | enter j now now' =>
      simp only [stepRunning] at h
      split at h
      · split at h
        · next r n hi =>
          split at h
          · obtain ⟨s,hs,rfl⟩ := Option.map_eq_some_iff.mp h
            exact Or.inr (Or.inr ⟨.process i r now now',by simp,hs⟩)
          · cases h
        · cases h
      · cases h
    | _ => cases h
  · next hr =>
    cases l with
    | get i =>
      obtain ⟨z,hz,rfl⟩ := Option.map_eq_some_iff.mp h
      have htasks := executorStep_tasks cfg hz
      exact Or.inl htasks
    | leave i =>
      simp only [stepIdle] at h
      split at h
      · split at h
        · exact Or.inl (hother h)
        · cases h
      · cases h
    | consumer i m =>
      cases m with
      | get => cases h
      | _ =>
        simp only [stepIdle] at h
        split at h
        · exact Or.inl (hother h)
        · cases h
    | cancelled i landed =>
      obtain ⟨z,_,rfl⟩ := Option.map_eq_some_iff.mp h
      exact Or.inr (Or.inl ⟨i,rfl⟩)
    | producer => exact Or.inl (hother h)
    | flusher m => exact Or.inl (hother h)
    | main m => exact Or.inl (hother h)
    | tasks m =>
      cases m with
      | process w r now now' => cases h
      | _ =>
        obtain ⟨s,hs,rfl⟩ := Option.map_eq_some_iff.mp h
        exact Or.inr (Or.inr ⟨_,by simp,hs⟩)
    | _ => cases h

theorem step_alive (cfg : Setup σ F) (w : σ) (lines : List String) (x y : Built σ) (l : Label)
    (hx : Alive cfg w lines x) (h : step cfg x l = some y) : Alive cfg w lines y := by
  obtain ⟨hbuilt,hstop⟩ := step_built cfg h
  have hgoes := step_goes cfg x y l hbuilt
  obtain ⟨hexec,horderly⟩ := goes_parts cfg lines x y hx.executor hx.orderly hgoes
  have hmain := goes_executor cfg x y hgoes
  have htasks := step_tasks cfg hbuilt
  have hover (hx : hasEnded x.executor.main = true) : hasEnded y.executor.main = true := by
    rcases hmain with he | ⟨m,hm⟩
    · exact he ▸ hx
    · exact over_stays cfg.executor _ _ m hm hx
  have hstopping : Stopping y.tasks := by
    rcases htasks with he | ⟨i,he⟩ | ⟨m,_,hm⟩
    · exact he ▸ hx.stopping
    · exact he ▸ cancelWorker_stopping i _ hx.stopping
    · exact SessionizerDuty.acts_stopping cfg.tasks _ _ m hx.stopping (step_acts cfg.tasks _ _ _ hm)
  refine ⟨hexec,?_,horderly,step_sorted cfg _ lines x y hx.executor hx.sorted hgoes,
    goes_held cfg _ x y hx.sorted hx.held hgoes,goes_posted cfg x y hx.posted hgoes,
    goes_up cfg x y hgoes,hstopping,?_⟩
  · rcases hmain with he | ⟨m,hm⟩
    · exact he ▸ hx.ready
    · exact ExecutorProgress.step_ready cfg.executor _ _ m hx.ready hm
  · intro hy
    by_cases hc : x.tasks.stop = .notCalled
    · by_cases hl : l = .tasks .stopCall
      · exact hover (hstop hl)
      · refine absurd ?_ hy
        rcases htasks with he | ⟨i,he⟩ | ⟨m,hm,hstep⟩
        · rw [he, hc]
        · rw [he]
          exact hc
        · exact SessionizerDuty.acts_notCalled cfg.tasks _ _ m hx.stopping (fun he => hl (hm he)) hc
            (step_acts cfg.tasks _ _ _ hstep)
    · exact hover (hx.called hc)

/-- The steps that are not a timer's, and after the shutdown the one interval
that the flusher still sleeps out. -/
def GoesOn (x : Built σ) (l : Label) : Prop :=
  timer l = false ∨ l = .flusher .tick ∧ x.executor.shared.shutdown = true

theorem goes_work (cfg : Setup σ F) {x y : Built σ} {l : Label} (ho : Orderly cfg.tasks x.tasks)
    (hgo : GoesOn x l) (h : BuiltPipeline.step cfg x l = some y) : work cfg y < work cfg x := by
  rcases hgo with hl | ⟨rfl,hdown⟩
  · have hwork := PipelineWork.step_work cfg x y l ho h
    simp only [PipelineWork.cost, PipelineWork.gain, hl, Bool.false_eq_true, if_false] at hwork
    omega
  · unfold BuiltPipeline.step at h
    split at h
    · cases h
    · obtain ⟨s,hs,rfl⟩ := Option.map_eq_some_iff.mp h
      have htick := ExecutorWork.tick_work cfg.executor (PipelineWork.enterWork cfg) _ s hdown hs
      simp only [work]
      omega

theorem front_lt (cfg : Setup σ F) {k : ℕ} (h : k ≤ cfg.front.length) :
    k < cfg.executor.stageNames.length := by
  rw [cfg.names]
  simp
  omega

/-- A consumer on its way to the sessionizer gets there. -/
theorem running_goes (cfg : Setup σ F) {x : Built σ} {i : ℕ} (hr : x.running = some i)
    (hp : Posted cfg x) (hup : x.executor.shared.shutdown = false) :
    ∃ l, GoesOn x l ∧ (step cfg x l).isSome := by
  obtain ⟨r,k,hi,hk⟩ := hp.running i hr
  rcases Nat.lt_or_eq_of_le hk with hlt | rfl
  · refine ⟨.front i,Or.inl rfl,?_⟩
    have hst := List.getElem?_eq_getElem hlt
    have hstep := (ExecutorProgress.answered cfg.executor x.executor i hup).1 r k hi (front_lt cfg hk)
      ((cfg.front[k]).process x.world r).1 (fun r' h => ((cfg.front[k]).carries x.world r r' h).id)
    obtain ⟨s,hs⟩ := Option.isSome_iff_exists.mp hstep
    simp [step, BuiltPipeline.step, hr, stepRunning, hi, hst, executorStep, hs]
  · refine ⟨.enter i 0 0,Or.inl rfl,?_⟩
    have hstep : (SessionizerTasks.step cfg.tasks x.tasks (.process i r 0 0)).isSome := by
      cases hb : blockIdOf cfg.tasks.config r <;> simp [SessionizerTasks.step, hb]
    obtain ⟨s,hs⟩ := Option.isSome_iff_exists.mp hstep
    simp [step, BuiltPipeline.step, hr, stepRunning, hi, hs]

theorem tasks_goes (cfg : Setup σ F) {x : Built σ} (hr : x.running = none)
    {m : SessionizerTasks.Label} (hm : ∀ w r now now', m ≠ .process w r now now')
    (hstop : m = .stopCall → hasEnded x.executor.main = true) (ht : m ≠ .tick)
    (h : (SessionizerTasks.step cfg.tasks x.tasks m).isSome) :
    ∃ l, GoesOn x l ∧ (step cfg x l).isSome := by
  obtain ⟨s,hs⟩ := Option.isSome_iff_exists.mp h
  refine ⟨.tasks m,Or.inl ?_,?_⟩
  · cases m <;> first | rfl | exact absurd rfl ht
  · have hbuilt : (BuiltPipeline.step cfg x (.tasks m)).isSome := by
      cases m with
      | process w r now now' => exact absurd rfl (hm w r now now')
      | _ => simp [BuiltPipeline.step, hr, stepIdle, hs]
    unfold step
    split
    · next he =>
      cases he
      rw [if_pos (hstop rfl)]
      exact hbuilt
    · exact hbuilt

/-- While a consumer is in the sessionizer, somebody at the lock can go on. -/
theorem inside_goes (cfg : Setup σ F) {x : Built σ} {i : ℕ} (hr : x.running = none)
    (hret : returned i x.tasks = false) : ∃ l, GoesOn x l ∧ (step cfg x l).isSome := by
  have hbusy : x.tasks.holder ≠ none ∨ x.tasks.waiters ≠ [] := by
    by_contra hn
    push Not at hn
    simp [returned, hn.1, hn.2] at hret
  obtain ⟨m,hm,hstep⟩ := SessionizerDuty.turn_taken cfg.tasks x.tasks hbusy
  refine tasks_goes cfg hr (fun w r now now' he => ?_) (fun he => ?_) (fun he => ?_) hstep <;>
    simp [he, SessionizerDuty.turns] at hm

theorem executor_goes (cfg : Setup σ F) {x : Built σ} {m : Executor.Label} (hr : x.running = none)
    (hp : Posted cfg x) (hm : ExecutorProgress.GoesOn x.executor m)
    (h : (Executor.step cfg.executor x.executor m).isSome) :
    ∃ l, GoesOn x l ∧ (step cfg x l).isSome := by
  have hgo (l : Label) (hne : l ≠ .tasks .stopCall) (hl : GoesOn x l)
      (hs : (BuiltPipeline.step cfg x l).isSome) : ∃ l, GoesOn x l ∧ (step cfg x l).isSome :=
    ⟨l,hl,by rw [step_other cfg x hne]; exact hs⟩
  obtain ⟨s,hs⟩ := Option.isSome_iff_exists.mp h
  cases m with
  | producer =>
    exact hgo .producer (by simp) (Or.inl rfl)
      (by simp [BuiltPipeline.step, hr, stepIdle, executorStep, hs])
  | cancelled i landed =>
    exact hgo (.cancelled i landed) (by simp) (Or.inl rfl)
      (by simp [BuiltPipeline.step, hr, stepIdle, executorStep, hs])
  | flusher l =>
    refine hgo (.flusher l) (by simp) ?_
      (by simp [BuiltPipeline.step, hr, stepIdle, executorStep, hs])
    cases l with
    | tick => exact Or.inr ⟨rfl,hm⟩
    | _ => exact Or.inl rfl
  | main l =>
    exact hgo (.main l) (by simp) (Or.inl rfl)
      (by simp [BuiltPipeline.step, hr, stepIdle, executorStep, hs])
  | consumer i l =>
    by_cases hget : l = .get
    · subst hget
      exact hgo (.get i) (by simp) (Or.inl rfl)
        (by simp [BuiltPipeline.step, hr, stepIdle, executorStep, hs])
    · by_cases hout : outside cfg x i = true
      · refine hgo (.consumer i l) (by simp) (Or.inl ?_) ?_
        · cases l <;> first | rfl | exact absurd rfl hm
        · cases l with
          | get => exact absurd rfl hget
          | _ => simp [BuiltPipeline.step, hr, stepIdle, hout, executorStep, hs]
      -- the consumer is at the sessionizer, and its own next step is to leave it
      · obtain ⟨c,c',sh,hi,hc,_⟩ := consumer_moves cfg.executor x.executor s i l hs
        cases c with
        | staging r k =>
          have hk : k = cfg.front.length := by
            have hle : ¬ cfg.front.length < k := by simpa [outside, hi] using hout
            have hge := (hp.others i r k hi).resolve_left (by simp [hr])
            omega
          subst hk
          cases hret : returned i x.tasks with
          | false => exact inside_goes cfg hr hret
          | true =>
            have hup : x.executor.shared.shutdown = false := by
              cases step_moves cfg.executor x.executor s _ hs with
              | consumer _ _ _ _ _ hrun _ _ => exact hrun
            obtain ⟨t,ht⟩ := Option.isSome_iff_exists.mp
              ((ExecutorProgress.answered cfg.executor x.executor i hup).1 r _ hi
                (front_lt cfg (le_refl _)) (Sessionizer.outcome cfg.tasks.config r)
                (fun r' h => by rw [Sessionizer.outcome_record h]))
            exact hgo (.leave i) (by simp) (Or.inl rfl)
              (by simp [BuiltPipeline.step, hr, stepIdle, hi, hret, executorStep, ht])
        | _ => simp [outside, hi] at hout

/-- Until `stop` has returned some task can go on. -/
theorem alive_goes (cfg : Setup σ F) (w : σ) (lines : List String) (x : Built σ)
    (hx : Alive cfg w lines x) (hret : x.tasks.stop ≠ .returned) :
    ∃ l, GoesOn x l ∧ (step cfg x l).isSome := by
  cases hr : x.running with
  | some i => exact running_goes cfg hr hx.posted (hx.up (by simp [hr]))
  | none =>
    cases hover : hasEnded x.executor.main with
    | false =>
      obtain ⟨m,hm,hstep⟩ := ExecutorProgress.moving cfg.executor lines x.executor hx.ready
        hx.executor (fun h => by simp [h, hasEnded] at hover)
        (fun h => by simp [h, hasEnded] at hover)
      exact executor_goes cfg hr hx.posted hm hstep
    | true =>
      by_cases hc : x.tasks.stop = .notCalled
      · refine tasks_goes cfg hr (m := .stopCall) (by simp) (fun _ => hover) (by simp) ?_
        simp only [SessionizerTasks.step, hc, if_true]
        split <;> rfl
      · obtain ⟨m,hm,hstep⟩ := SessionizerDuty.stop_goes cfg.tasks x.tasks hx.stopping hc hret
        refine tasks_goes cfg hr (fun w r now now' he => ?_) (fun he => ?_) (fun he => ?_) hstep <;>
          simp [he, SessionizerDuty.turns] at hm

theorem initial_work (cfg : Setup σ F) (w : σ) (started : Bool) (lines : List String) :
    work cfg (initial cfg w started lines) =
      lines.length*(cfg.executor.stageNames.length+cfg.tasks.handlers+9) +
        cfg.executor.numWorkers + 13 := by
  have hjanitor : PipelineWork.janitorWork (if started then .sleeping else .absent) = 0 := by
    cases started <;> rfl
  have hqueued : ExecutorWork.queuedWork cfg.executor (PipelineWork.enterWork cfg) + 2 =
      cfg.executor.stageNames.length+cfg.tasks.handlers+9 := by
    simp only [ExecutorWork.queuedWork, PipelineWork.enterWork, PipelineWork.traceWork]
    omega
  have htasks : PipelineWork.tasksWork cfg.tasks (SessionizerTasks.initial started) = 4 := by
    simp [PipelineWork.tasksWork, SessionizerTasks.initial, Sessionizer.State.initial,
      OrderedDict.size, OrderedDict.empty, PipelineWork.holderWork, PipelineWork.stopWork, hjanitor]
  simp only [work, initial, ExecutorWork.initial_work, hqueued, htasks, PipelineWork.runningWork]

theorem tally_cost (ls : List Label) : tally cost ls = ls.countP (fun l => !timer l) := by
  induction ls with
  | nil => rfl
  | cons l ls ih => cases hl : timer l <;> simp [cost, hl, ih, Nat.add_comm]

theorem tally_gain (ls : List Label) : tally gain ls = 2*ls.countP timer := by
  induction ls with
  | nil => rfl
  | cons l ls ih =>
    rw [tally_cons, ih, List.countP_cons]
    cases hl : timer l <;> simp [gain, hl]
    omega

theorem run_alive (cfg : Setup σ F) (w : σ) (started : Bool) (lines : List String)
    (ls : List Label) (x : Built σ)
    (hrun : run (step cfg) (initial cfg w started lines) ls = some x) : Alive cfg w lines x :=
  run_invariant (step cfg) (Alive cfg w lines)
    (fun x l y hx h => step_alive cfg w lines x y l hx h) (initial_alive cfg w started lines) hrun

/-- The run of a log neither gets stuck nor goes on for ever: but for the
timers, the number of its steps is bounded by the log's, until `stop` has
returned some task can go on, and whoever goes on brings the end nearer. -/
theorem run_completes (cfg : Setup σ F) (w : σ) (started : Bool) (lines : List String)
    (ls : List Label) (x : Built σ)
    (hrun : run (step cfg) (initial cfg w started lines) ls = some x) :
    ls.countP (fun l => !timer l) ≤
      lines.length*(cfg.executor.stageNames.length+cfg.tasks.handlers+9) +
        cfg.executor.numWorkers + 13 + 2*ls.countP timer ∧
    (x.tasks.stop ≠ .returned → ∃ l y, GoesOn x l ∧ step cfg x l = some y) ∧
    (∀ l y, GoesOn x l → step cfg x l = some y → work cfg y < work cfg x) ∧
    ∃ ls' y, run (step cfg) x ls' = some y ∧ y.tasks.stop = .returned ∧
      ls'.length ≤ work cfg x := by
  have hkeep : ∀ x l y, Alive cfg w lines x → step cfg x l = some y → Alive cfg w lines y :=
    fun x l y hx h => step_alive cfg w lines x y l hx h
  have hx := run_alive cfg w started lines ls x hrun
  have hgo (x : Built σ) (hx : Alive cfg w lines x) (hret : x.tasks.stop ≠ .returned) :
      ∃ l y, GoesOn x l ∧ step cfg x l = some y := by
    obtain ⟨l,hl,hstep⟩ := alive_goes cfg w lines x hx hret
    obtain ⟨y,hy⟩ := Option.isSome_iff_exists.mp hstep
    exact ⟨l,y,hl,hy⟩
  refine ⟨?_,hgo x hx,fun l y hl h => goes_work cfg hx.orderly hl (step_built cfg h).1,?_⟩
  · have hpaid := Potential.run_paid (step cfg) (Alive cfg w lines) (work cfg) cost gain hkeep
      (fun x l y hx h => PipelineWork.step_work cfg x y l hx.orderly (step_built cfg h).1)
      (initial_alive cfg w started lines) hrun
    rw [tally_cost, tally_gain, initial_work] at hpaid
    omega
  · refine Potential.reaches (step cfg) (Alive cfg w lines) (work cfg)
      (fun y => y.tasks.stop = .returned) (fun y hy hret => ?_) hx
    obtain ⟨l,z,hl,hz⟩ := hgo y hy hret
    exact ⟨l,z,hz,hkeep y l z hy hz,goes_work cfg hy.orderly hl (step_built cfg hz).1⟩

/-- Both consumers wait for the lock behind a trace's handler. -/
def waitingFor : Built Sessionizer.State :=
  (run (step sampleSetup) (initial sampleSetup .initial true ["E9","E2","E3"])
    (contended.take 20)).getD (initial sampleSetup .initial true [])

theorem run_completes_contended :
    waitingFor.tasks.waiters.length = 2 ∧ (∃ l y, GoesOn waitingFor l ∧
      step sampleSetup waitingFor l = some y) ∧
    ∃ ls y, run (step sampleSetup) waitingFor ls = some y ∧ y.tasks.stop = .returned ∧
      ls.length ≤ work sampleSetup waitingFor := by
  have h := run_completes sampleSetup .initial true ["E9","E2","E3"] (contended.take 20) waitingFor
    (by decide)
  exact ⟨by decide,h.2.1 (by decide),h.2.2.2⟩

/-- Once `run` is over the consumers and the flusher have ended, and nobody but
`stop` has or wants the lock. -/
theorem over_idle {cfg : Setup σ F} {w : σ} {lines : List String} {x : Built σ}
    (hx : Alive cfg w lines x) (hover : hasEnded x.executor.main = true) :
    (∀ c ∈ x.executor.consumers, c = .exited) ∧ x.executor.flusher = .exited ∧
    x.executor.shared.shutdown = true ∧ x.running = none ∧
    (∀ v b r, Waiter.worker v b r ∉ x.tasks.waiters) ∧ ∀ v, ¬ Owned x.tasks v := by
  have hgathered : gathered x.executor.main = true := by
    cases hm : x.executor.main <;> simp [hm, hasEnded, gathered] at hover ⊢
  have hdown : x.executor.shared.shutdown = true := by
    rw [hx.executor.phases.shutdown]
    cases hm : x.executor.main <;> simp [hm, hasEnded, cancelling] at hover ⊢
  obtain ⟨hexit,hflusher⟩ := hx.executor.phases.gathered hgathered
  have hstaging : ∀ (i : ℕ) (r : LogRecord) (k : ℕ),
      x.executor.consumers[i]? ≠ some (.staging r k) :=
    fun i r k h => by cases hexit _ (List.mem_of_getElem? h)
  refine ⟨hexit,hflusher,hdown,?_,fun v b r hm => hstaging v r _ (hx.sorted.waiters v b r hm),
    fun v hv => (hx.held v hv).elim (fun r hr => hstaging v r _ hr)⟩
  by_contra hr
  simp [hx.up hr] at hdown

/-- When `stop` has returned the lock is free. -/
theorem returned_free {cfg : Setup σ F} {w : σ} {lines : List String} {x : Built σ}
    (hx : Alive cfg w lines x) (hret : x.tasks.stop = .returned) :
    x.tasks.holder = none ∧ x.tasks.waiters = [] ∧
    (x.tasks.janitor = .finished ∨ x.tasks.janitor = .absent) := by
  obtain ⟨_,_,_,_,hwaiters,howned⟩ := over_idle hx (hx.called (by simp [hret]))
  have hsettled := hx.stopping.settled
  have hturn := hx.stopping.turn
  rw [hret] at hsettled hturn
  have hj : x.tasks.janitor = .finished ∨ x.tasks.janitor = .absent := by
    cases hj : x.tasks.janitor <;> simp [hj, SessionizerDuty.settled] at hsettled ⊢
  have hduty : SessionizerDuty.onDuty x.tasks.janitor = false := by
    rcases hj with h | h <;> rw [h] <;> rfl
  have hcount : x.tasks.waiters.count .stop = 0 ∧
      SessionizerDuty.stopHolds x.tasks.holder = 0 := by
    simp only [SessionizerDuty.stopTurn] at hturn
    omega
  refine ⟨?_,List.eq_nil_iff_forall_not_mem.mpr (fun k hk => ?_),hj⟩
  · by_contra hh
    obtain ⟨p,hp⟩ := Option.ne_none_iff_exists'.mp hh
    cases ho : p.owner with
    | worker v => exact howned v ⟨p,hp,ho⟩
    | janitor =>
      rcases hx.stopping.holder p hp ho with h | h
      · simp [hduty] at h
      · rcases hj with hj | hj <;> simp [hj] at h
    | stop => simp [hp, ho, SessionizerDuty.stopHolds] at hcount
  · cases k with
    | worker v b r => exact hwaiters v b r hk
    | janitor => exact hx.stopping.waiter hduty hk
    | stop => exact absurd hk (List.count_eq_zero.mp hcount.1)

/-- The end of `stop` is the end of the run. -/
theorem returned_final {cfg : Setup σ F} {w : σ} {lines : List String} {x : Built σ}
    (hx : Alive cfg w lines x) (hret : x.tasks.stop = .returned) (l : Label) :
    step cfg x l = none := by
  have hover := hx.called (by simp [hret])
  obtain ⟨hexit,hflusher,hdown,hrun,_,_⟩ := over_idle hx hover
  obtain ⟨hholder,hwaiters,hj⟩ := returned_free hx hret
  have hproducer : x.executor.producer = .failed ∨ x.executor.producer = .finished :=
    (hx.executor.phases.joined hdown).imp_right And.left
  have hmain : x.executor.main = .returned ∨ x.executor.main = .raised := by
    cases hm : x.executor.main <;> simp [hm, hasEnded] at hover ⊢
  by_contra hne
  obtain ⟨y,hy⟩ := Option.ne_none_iff_exists'.mp hne
  have hgoes := step_goes cfg x y l (step_built cfg hy).1
  have hconsumer {i : ℕ} {m : ConsumerLabel} {s : Executor.State}
      (h : Executor.step cfg.executor x.executor (.consumer i m) = some s) : False := by
    simp [Executor.step, hdown] at h
  cases hgoes with
  | get i s hr h => exact hconsumer h
  | front i r k st s hr hi hk h => exact hconsumer h
  | enter i r now now' s hr hi h => simp [hrun] at hr
  | leave i r s hr hi hret h => exact hconsumer h
  | consumer i m s hr hm hout h => exact hconsumer h
  | cancelled i landed s hr h =>
    cases step_moves cfg.executor x.executor s _ h with
    | cancelled i landed c sh hdown hi h =>
      cases hexit c (List.mem_of_getElem? hi)
      cases h
  | other m s hr hm h =>
    cases step_moves cfg.executor x.executor s m h with
    | producer p sh hq => rcases hproducer with hp | hp <;> simp [hp, Executor.produce] at hq
    | consumer i m c c' sh hrun hi hq => exact absurd rfl (hm i m true).1
    | cancelled i b c sh hdown hi hq => exact absurd rfl (hm i .get b).2
    | flusher m p sh hq =>
      rw [hflusher] at hq
      cases hq
    | main m q sh hq => rcases hmain with hm | hm <;> rw [hm] at hq <;> cases hq
  | tasks m s hr hm h =>
    have hacts := step_acts cfg.tasks _ _ _ h
    cases hacts with
    | ignored v r now now' hb => exact hm v r now now' rfl
    | process v b r now now' hb => exact hm v r now now' rfl
    | grantWorker v b r ks now now' hh hw => simp [hwaiters] at hw
    | grantJanitor ks now now' hh hw => simp [hwaiters] at hw
    | grantStop ks now now' hh hw => simp [hwaiters] at hw
    | handled h p hh hm => simp [hholder] at hh
    | resume p hh hp hj => simp [hholder] at hh
    | tick ht => rcases hj with hj | hj <;> simp [hj] at ht
    | stopAlone hs _ => simp [hret] at hs
    | stopJoins hs _ => simp [hret] at hs
    | unwound hu => rcases hj with hj | hj <;> simp [hj] at hu
    | joined hs _ => simp [hret] at hs

/-- When `run` is over and the source did not raise, every survivor with a
block has been added to the table. -/
theorem over_processed {cfg : Setup σ F} {w : σ} {lines : List String} {x : Built σ}
    (hx : Alive cfg w lines x) (hover : hasEnded x.executor.main = true)
    (hp : x.executor.producer ≠ .failed) :
    x.tasks.processed.map Prod.snd = (survivorsOf cfg w lines).filter (hasBlock cfg) := by
  obtain ⟨_,_,hdown,hrun,hwaiters,_⟩ := over_idle hx hover
  obtain ⟨hfin,hun⟩ := (hx.executor.phases.joined hdown).resolve_left hp
  have hqueue : x.executor.shared.queue = [] := by
    have hcount := hx.executor.ledger.unfinished
    exact List.eq_nil_of_length_eq_zero (by omega)
  have hcome : coming cfg x = [] := by
    simp [coming, ExecutorOrder.toCome, hqueue, hfin, ExecutorOrder.upstream]
  have hnobody : waiting (fun _ => true) x.tasks.waiters = [] := by
    refine List.eq_nil_iff_forall_not_mem.mpr (fun r hr => ?_)
    obtain ⟨v,b,_,hb⟩ := mem_waiting _ _ r hr
    exact hwaiters v b r hb
  have htotal := hx.sorted.idle hrun
  rw [hcome, ExecutorOrder.sequential, List.append_nil] at htotal
  rw [← htotal, ← hx.sorted.uncut (hx.sorted.spared hp), line, hnobody, List.append_nil]

theorem acts_interrupted (cfg : SessionizerTasks.Setup F) (s t : Tasks)
    (l : SessionizerTasks.Label) (h : Acts cfg s l t) : t.interrupted = s.interrupted ∨
      s.stop = .notCalled ∧
        t.interrupted = s.interrupted ++ SessionizerTasks.inHands s .janitor := by
  by_cases hs : s.stop = .notCalled
  · cases h with
    | ignored v r now now' hb => exact Or.inl rfl
    | process v b r now now' hb =>
      exact Or.inl (SessionizerStop.acquire_stop (SessionizerTasks.processLocked cfg v b r now now')
        (.worker v b r) s (SessionizerStop.emitAll_stop cfg _ _ _)).1
    | grantWorker v b r ks now now' hh hw =>
      exact Or.inl (SessionizerStop.emitAll_stop cfg (.worker v) _ _).1
    | grantJanitor ks now now' hh hw => exact Or.inl (SessionizerStop.emitAll_stop cfg .janitor _ _).1
    | grantStop ks now now' hh hw => exact Or.inl (SessionizerStop.emitAll_stop cfg .stop _ _).1
    | handled h p hh hm => exact Or.inl rfl
    | resume p hh hp hj => exact Or.inl (SessionizerStop.emitAll_stop cfg p.owner p.todo s).1
    | tick hj =>
      exact Or.inl (SessionizerStop.acquire_stop _ _ { s with janitor := .passing }
        (SessionizerStop.emitAll_stop cfg .janitor _ _)).1
    | stopAlone hs hj =>
      exact Or.inl (SessionizerStop.acquire_stop _ _ { s with stop := .flushing }
        (SessionizerStop.emitAll_stop cfg .stop _ _)).1
    | stopJoins hs hj => exact Or.inr ⟨hs,rfl⟩
    | unwound hj => exact Or.inl rfl
    | joined hj _ => exact absurd (hs.symm.trans hj) (by simp)
  · exact Or.inl (SessionizerStop.step_interrupted cfg s t l hs h).1

/-- What holds besides in a run whose source does not raise. -/
structure Whole (cfg : Setup σ F) (w : σ) (lines : List String) (x : Built σ) : Prop where
  alive : Alive cfg w lines x
  paced : ∀ k, Paced cfg.tasks k x.tasks
  missed : ∃ e, ∀ p ∈ x.tasks.interrupted, p.1 = e
  emptied : x.tasks.stop = .returned → x.tasks.sessionizer.openTraces.items = []

theorem initial_whole (cfg : Setup σ F) (w : σ) (started : Bool) (lines : List String) :
    Whole cfg w lines (initial cfg w started lines) :=
  ⟨initial_alive cfg w started lines,fun k => run_paced cfg.tasks k started [] _ rfl,
    ⟨0,fun p hp => by cases hp⟩,fun h => by cases h⟩

theorem step_whole (cfg : Setup σ F) (w : σ) (lines : List String) (x y : Built σ) (l : Label)
    (hsource : cfg.executor.sourceRaises = false) (hx : Whole cfg w lines x)
    (h : step cfg x l = some y) : Whole cfg w lines y := by
  have halive := step_alive cfg w lines x y l hx.alive h
  have hlive : x.tasks.stop ≠ .returned := fun hret => by
    rw [returned_final hx.alive hret l] at h
    cases h
  rcases step_follows cfg 0 _ lines x y l hx.alive.executor hx.alive.sorted hx.alive.held hsource
    (step_built cfg h).1 with ⟨htasks,_⟩ | ⟨m,hm,_⟩
  · exact ⟨halive,htasks ▸ hx.paced,htasks ▸ hx.missed,htasks ▸ hx.emptied⟩
  · have hacts := step_acts cfg.tasks _ _ _ hm
    have hcounted := (hx.paced 0).counted
    refine ⟨halive,fun k => acts_paced cfg.tasks k _ _ m (hx.paced k) hacts,?_,fun hret => ?_⟩
    · rcases acts_interrupted cfg.tasks _ _ m hacts with hi | ⟨hst,hi⟩
      · rw [hi]
        exact hx.missed
      · rw [hi, hcounted.unharmed hst, List.nil_append]
        refine ⟨x.tasks.sessionizer.published.length-1,fun p hp => ?_⟩
        unfold SessionizerTasks.inHands at hp
        split at hp
        · cases hp
        · split at hp
          · obtain ⟨_,_,rfl⟩ := List.mem_map.mp hp
            rfl
          · cases hp
    · exact (SessionizerStop.step_returned cfg.tasks _ _ m hcounted hacts hlive hret).2

/-- When `stop` has returned the published traces have all events of the
survivors. -/
theorem returned_events {cfg : Setup σ F} {w : σ} {lines : List String} {x : Built σ}
    (hx : Whole cfg w lines x) (hsource : cfg.executor.sourceRaises = false)
    (hret : x.tasks.stop = .returned) (b : String) :
    emitted (events cfg.tasks.config) x.tasks.sessionizer b =
      eventIds cfg.tasks.config b (survivorsOf cfg w lines) := by
  have hp : x.executor.producer ≠ .failed := fun hf => by
    simpa [hsource] using hx.alive.executor.phases.raises hf
  have hprocessed := over_processed hx.alive (hx.alive.called (by simp [hret])) hp
  have hsplit := hx.alive.orderly.partition.split (events cfg.tasks.config) b
  have hnone : x.tasks.sessionizer.openTraces.get? b = none :=
    OrderedDict.get?_eq_none.mpr (by simp [OrderedDict.keys, hx.emptied hret])
  rw [arrived_eventIds cfg.tasks.config _ b hx.alive.sorted.tagged.processed, hprocessed,
    eventIds_hasBlock] at hsplit
  rwa [pending, hnone, Option.elim_none, List.append_nil] at hsplit

/-- When `stop` has returned nothing moves any more. If the source did not
raise, the published traces are the log's: no record of a surviving line with
a block is missing or there twice, and a block's events are in the order of its
lines. Every handler has finished with every trace, in order; only one trace,
the same for all, can have been taken from their hands. -/
theorem run_reports (cfg : Setup σ F) (w : σ) (started : Bool) (lines : List String)
    (ls : List Label) (x : Built σ) (hsource : cfg.executor.sourceRaises = false)
    (hrun : run (step cfg) (initial cfg w started lines) ls = some x)
    (hret : x.tasks.stop = .returned) :
    (∀ l, step cfg x l = none) ∧
    x.tasks.sessionizer.openTraces.items = [] ∧
    (x.tasks.sessionizer.published.flatMap BlockTrace.recordIds).Perm
      (((survivorsOf cfg w lines).filter (hasBlock cfg)).map LogRecord.id) ∧
    (∀ b, emitted (events cfg.tasks.config) x.tasks.sessionizer b =
      eventIds cfg.tasks.config b (survivorsOf cfg w lines)) ∧
    ∃ e, ∀ k < cfg.tasks.handlers,
      deliveredTo k x.tasks = List.range x.tasks.sessionizer.published.length ∨
      deliveredTo k x.tasks =
        (List.range x.tasks.sessionizer.published.length).filter (fun i => i ≠ e) := by
  have hx := run_invariant (step cfg) (Whole cfg w lines)
    (fun x l y hx h => step_whole cfg w lines x y l hsource hx h)
    (initial_whole cfg w started lines) hrun
  have hp : x.executor.producer ≠ .failed := fun hf => by
    simpa [hsource] using hx.alive.executor.phases.raises hf
  have hprocessed := over_processed hx.alive (hx.alive.called (by simp [hret])) hp
  have hempty := hx.emptied hret
  have hfree := (returned_free hx.alive hret).1
  refine ⟨returned_final hx.alive hret,hempty,?_,fun b => ?_,?_⟩
  · have htotal := hx.alive.orderly.partition.total
    have hids : x.tasks.processed.map (fun p => p.2.id) =
        (x.tasks.processed.map Prod.snd).map LogRecord.id := List.map_map.symm
    rwa [hempty, List.flatMap_nil, List.append_nil, hids, hprocessed] at htotal
  · exact returned_events hx hsource hret b
  · obtain ⟨e,he⟩ := hx.missed
    refine ⟨e,fun k hk => ?_⟩
    rw [deliveredTo_eq cfg.tasks k hk x.tasks (hx.paced k) hfree]
    by_cases hm : (e,k) ∈ x.tasks.interrupted
    · refine Or.inr (List.filter_congr (fun i _ => ?_))
      by_cases hi : i = e
      · simp [hi, hm]
      · have hnot : (i,k) ∉ x.tasks.interrupted := fun h => hi (he _ h)
        simp [hi, hnot]
    · refine Or.inl (List.filter_eq_self.mpr (fun i _ => ?_))
      have hnot : (i,k) ∉ x.tasks.interrupted := fun h => hm (he _ h ▸ h)
      simp [hnot]

/-- The run of `contended`, to its end. -/
def reported : Built Sessionizer.State :=
  (run (step sampleSetup) (initial sampleSetup .initial true ["E9","E2","E3"])
    (contended ++ closes)).getD (initial sampleSetup .initial true [])

theorem run_reports_contended : (∀ l, step sampleSetup reported l = none) ∧
    (reported.tasks.sessionizer.published.flatMap BlockTrace.recordIds).Perm [0,1,2] ∧
    emitted (events sampleSetup.tasks.config) reported.tasks.sessionizer "blk_1" =
      ["E9","E2","E3"] := by
  obtain ⟨hfinal,_,hids,hevents,_⟩ := run_reports sampleSetup .initial true ["E9","E2","E3"]
    (contended ++ closes) reported rfl (by decide) (by decide)
  refine ⟨hfinal,?_,(hevents "blk_1").trans (by decide)⟩
  have hall : ((survivorsOf sampleSetup .initial ["E9","E2","E3"]).filter
      (hasBlock sampleSetup)).map LogRecord.id = [0,1,2] := by decide
  rwa [hall] at hids

end PipelineX.CliRun
