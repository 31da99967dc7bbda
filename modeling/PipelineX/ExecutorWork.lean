import PipelineX.ExecutorFailure
import PipelineX.ExecutorProgress
import PipelineX.Potential

/-!
# How much the executor still has to do

Each line, task and phase of `run` is weighed by the steps that it can still
take. A step takes one away; a poll of the empty queue takes nothing, and only
the flusher's periodic tick adds to it.
-/

set_option autoImplicit false

namespace PipelineX.ExecutorWork
open PipelineX.Records PipelineX.Executor PipelineX.ExecutorSteps PipelineX.ExecutorPhases
open PipelineX.ExecutorFailure PipelineX.Tally

/-- A record on the queue: its `get`, its stages, and what its buffering and
the save of its batch may take. `extra` is what else a `get` leads to. -/
def queuedWork (cfg : Config) (extra : ℕ) : ℕ := extra+cfg.stageNames.length+4

def producerWork (cfg : Config) (extra : ℕ) : Producer → ℕ
  | .streaming lines => lines.length*(queuedWork cfg extra+2)+1
  | .putting _ lines => lines.length*(queuedWork cfg extra+2)+queuedWork cfg extra+2
  | .finished => 0
  | .failed => 0

/-- One of these is the cancellation. -/
def consumerWork (cfg : Config) : Consumer → ℕ
  | .getting => 1
  | .staging _ k => cfg.stageNames.length-k+4
  | .flushing _ => 3
  | .saving _ _ => 2
  | .exited => 0

/-- While the pipeline is up the flusher only does what its ticks ask for. -/
def flusherWork (shutdown : Bool) : Flusher → ℕ
  | .sleeping => if shutdown then 3 else 0
  | .flushing => 2
  | .saving _ => 1
  | .exited => 0

/-- The flusher sleeps out one more interval after the shutdown, and `run` pays
for it. -/
def mainWork : Main → ℕ
  | .awaiting => 8
  | .joining => 7
  | .gathering => 3
  | .draining => 2
  | .saving _ => 1
  | .returned => 0
  | .raised => 0

def work (cfg : Config) (extra : ℕ) (s : State) : ℕ :=
  producerWork cfg extra s.producer + s.shared.queue.length*queuedWork cfg extra +
    tally (consumerWork cfg) s.consumers + flusherWork s.shared.shutdown s.flusher +
    mainWork s.main

def cost (extra : ℕ) : Label → ℕ
  | .consumer _ .timeout => 0
  | .consumer _ .get => extra+1
  | .flusher .tick => 0
  | _ => 1

def gain : Label → ℕ
  | .flusher .tick => 2
  | _ => 0

theorem produce_work (cfg : Config) (extra : ℕ) (s s' : Shared) (p p' : Producer)
    (h : produce cfg s p = some (p',s')) : s'.shutdown = s.shutdown ∧
      producerWork cfg extra p' + s'.queue.length*queuedWork cfg extra + 1 =
        producerWork cfg extra p + s.queue.length*queuedWork cfg extra := by
  cases p with
  | streaming lines =>
    cases lines with
    | nil =>
      cases h
      by_cases hr : cfg.sourceRaises = true <;> simp [hr, producerWork, Nat.add_comm]
    | cons l ls =>
      cases h
      refine ⟨rfl,?_⟩
      simp only [producerWork, List.length_cons, Nat.add_mul, Nat.one_mul]
      omega
  | putting r ls =>
    by_cases hroom : s.queue.length < cfg.queueSize
    · rw [produce, if_pos hroom] at h
      cases h
      refine ⟨rfl,?_⟩
      simp only [producerWork, List.length_append, List.length_singleton, Nat.add_mul, Nat.one_mul]
      omega
    · simp [produce, hroom] at h
  | finished => simp [produce] at h
  | failed => simp [produce] at h

theorem consumes_work (cfg : Config) (extra i : ℕ) (s s' : Shared) (c c' : Consumer)
    (l : ConsumerLabel) (h : Consumes cfg s c l c' s') :
    consumerWork cfg c' + s'.queue.length*queuedWork cfg extra + cost extra (.consumer i l) ≤
      consumerWork cfg c + s.queue.length*queuedWork cfg extra := by
  cases h with
  | timeout => exact le_refl _
  | get r queue hq =>
    simp only [hq, consumerWork, cost, queuedWork, List.length_cons, Nat.add_mul, Nat.one_mul]
    omega
  | staged r r' k name hk hid =>
    have hlt := (List.getElem?_eq_some_iff.mp hk).1
    simp only [consumerWork, cost, called]
    omega
  | saved r toSave o ho =>
    simp only [taskDone, countProcessed, saveBatch_queue, consumerWork, cost]
    omega
  | crashed r toSave =>
    simp only [taskDone, countFailed, saveBatch_queue, consumerWork, cost]
    omega
  | _ =>
    simp only [taskDone, countProcessed, countFailed, called, buffered, swapped, consumerWork, cost]
    omega

theorem unwind_work (cfg : Config) (s s' : Shared) (landed : Bool) (c : Consumer)
    (h : unwind s landed c = some s') : s'.queue = s.queue ∧ 1 ≤ consumerWork cfg c := by
  cases c with
  | getting =>
    cases h
    exact ⟨rfl,le_refl 1⟩
  | staging r k =>
    cases h
    exact ⟨rfl,by simp [consumerWork]⟩
  | flushing r =>
    cases h
    exact ⟨rfl,by simp [consumerWork]⟩
  | saving r toSave => cases landed <;> cases h <;> exact ⟨rfl,by simp [consumerWork]⟩
  | exited => simp [unwind] at h

/-- A tick asks for work, and after the shutdown it is the last. -/
theorem flusher_work (extra : ℕ) (s s' : Shared) (p p' : Flusher) (l : FlusherLabel)
    (h : batchFlusher s p l = some (p',s')) : s'.queue = s.queue ∧ s'.shutdown = s.shutdown ∧
      flusherWork s'.shutdown p' + cost extra (.flusher l) ≤
        flusherWork s.shutdown p + gain (.flusher l) ∧
      (s.shutdown = true → flusherWork s'.shutdown p' < flusherWork s.shutdown p) := by
  have hcases := batchFlusher_cases s s' p p' l h
  have hframe := (flushes_frame s s' p p' hcases).1
  refine ⟨flushes_queue s s' p p' hcases,hframe.shutdown,?_⟩
  rw [hframe.shutdown]
  cases p with
  | sleeping =>
    cases l with
    | tick =>
      cases h
      cases s.shutdown <;> simp [flusherWork, cost, gain]
    | _ => simp [batchFlusher] at h
  | flushing =>
    cases l with
    | swap =>
      cases hcases with
      | nothing hb => cases hs : s.shutdown <;> simp [flusherLoop, hs, flusherWork, cost, gain]
      | swapped hb => simp [flusherWork, cost, gain]
    | _ => simp [batchFlusher] at h
  | saving toSave =>
    cases l with
    | saved o =>
      have hnone : flusherWork s.shutdown p' = 0 := by
        cases hcases with
        | saved _ o ho => cases hs : s.shutdown <;> simp [flusherLoop, hs, flusherWork]
        | crashed => rfl
      have hone : flusherWork s.shutdown (.saving toSave) = 1 := rfl
      simp [hnone, hone, cost, gain]
    | _ => simp [batchFlusher] at h
  | exited => cases l <;> simp [batchFlusher] at h

theorem flusherWork_shutdown (shutdown : Bool) (p : Flusher) :
    flusherWork true p ≤ flusherWork shutdown p + 3 := by
  cases p <;> simp [flusherWork]

theorem runs_work (s : State) (m : Main) (sh : Shared) (h : Runs s s.main m sh) :
    sh.queue = s.shared.queue ∧ flusherWork sh.shutdown s.flusher + mainWork m + 1 ≤
      flusherWork s.shared.shutdown s.flusher + mainWork s.main := by
  have hwake := flusherWork_shutdown s.shared.shutdown s.flusher
  have hend : mainWork (ending s.producer) = 0 := by cases s.producer <;> rfl
  generalize s.main = m₀ at h
  cases h with
  | exhausted hp => exact ⟨rfl,by simp only [mainWork]; omega⟩
  | sourceFailed hp => exact ⟨rfl,by simp only [mainWork]; omega⟩
  | joined hu => exact ⟨rfl,by simp only [mainWork]; omega⟩
  | gathered hc hf => exact ⟨rfl,by simp only [mainWork]; omega⟩
  | nothing hb => exact ⟨rfl,by rw [hend]; simp only [mainWork]; omega⟩
  | swapped hb => exact ⟨rfl,by simp only [swapped, mainWork]; omega⟩
  | saved toSave o ho =>
    refine ⟨saveBatch_queue _ _ _ _,?_⟩
    rw [(saveBatch_frame s.shared .run toSave o).1.shutdown, hend]
    simp only [mainWork]
    omega
  | crashed toSave => exact ⟨saveBatch_queue _ _ _ _,by simp only [saveBatch, mainWork]; omega⟩

theorem step_work (cfg : Config) (extra : ℕ) (s t : State) (l : Label)
    (h : step cfg s l = some t) :
    work cfg extra t + cost extra l ≤ work cfg extra s + gain l := by
  cases l with
  | flusher m =>
    obtain ⟨q,hq,rfl⟩ := Option.map_eq_some_iff.mp h
    obtain ⟨hqueue,_,hwork,_⟩ := flusher_work extra _ _ _ _ m hq
    simp only [work, hqueue]
    omega
  | producer =>
    cases step_moves cfg s t _ h with
    | producer p sh hp =>
      obtain ⟨hshut,hwork⟩ := produce_work cfg extra _ _ _ _ hp
      simp only [work, hshut, cost, gain]
      omega
  | consumer i l =>
    cases step_moves cfg s t _ h with
    | consumer _ _ c c' sh hrun hi hc =>
      have hset := tally_set (consumerWork cfg) s.consumers i c c' hi
      have hshut := (consumes_frame cfg _ _ _ _ _ hc).1.shutdown
      have hwork := consumes_work cfg extra i _ _ _ _ l hc
      simp only [work, hshut, gain]
      omega
  | cancelled i landed =>
    cases step_moves cfg s t _ h with
    | cancelled _ _ c sh hdown hi hc =>
      have hset := tally_set (consumerWork cfg) s.consumers i c .exited hi
      have hshut := (unwind_frame _ _ _ _ hc).1
      obtain ⟨hqueue,hwork⟩ := unwind_work cfg _ _ _ _ hc
      have hexited : consumerWork cfg .exited = 0 := rfl
      simp only [work, hqueue, hshut, cost, gain]
      omega
  | main l =>
    cases step_moves cfg s t _ h with
    | main _ m sh hm =>
      obtain ⟨hqueue,hwork⟩ := runs_work s m sh hm
      simp only [work, hqueue, cost, gain]
      omega

/-- A tick after the shutdown is work like any other. -/
theorem tick_work (cfg : Config) (extra : ℕ) (s t : State) (hdown : s.shared.shutdown = true)
    (h : step cfg s (.flusher .tick) = some t) : work cfg extra t < work cfg extra s := by
  obtain ⟨q,hq,rfl⟩ := Option.map_eq_some_iff.mp h
  obtain ⟨hqueue,_,_,hlast⟩ := flusher_work extra _ _ _ _ .tick hq
  have hlt := hlast hdown
  simp only [work, hqueue]
  omega

theorem initial_work (cfg : Config) (extra : ℕ) (lines : List String) :
    work cfg extra (initial cfg lines) =
      lines.length*(queuedWork cfg extra+2) + cfg.numWorkers + 9 := by
  have htally (n : ℕ) : tally (consumerWork cfg) (List.replicate n .getting) = n := by
    induction n with
    | zero => rfl
    | succ n ih =>
      rw [List.replicate_succ, tally_cons, ih]
      simp only [consumerWork]
      omega
  simp only [work, initial, producerWork, htally, flusherWork, mainWork, List.length_nil]
  simp
  omega

end PipelineX.ExecutorWork
