import PipelineX.ExecutorAccounting

/-!
# The run cannot get stuck

The queue's count of unfinished tasks is exact, and until `run` is over some
task can go on. A consumer that polls an empty queue and the flusher's
periodic tick do not count as going on.
-/

set_option autoImplicit false

namespace PipelineX.ExecutorProgress
open PipelineX.Records PipelineX.Stages PipelineX.TransitionSystem PipelineX.Tally
open PipelineX.Executor PipelineX.ExecutorSteps PipelineX.ExecutorLedger
open PipelineX.ExecutorPhases PipelineX.ExecutorAccounting

/-- The consumer has taken a record and not yet finished with it. -/
def taken : Consumer → Bool
  | .staging _ _ => true
  | .flushing _ => true
  | .saving _ _ => true
  | _ => false

/-- Each consumer is at a point of its loop where it can go on. -/
structure Ready (cfg : Config) (s : State) : Prop where
  workers : s.consumers.length = cfg.numWorkers
  staged : ∀ r k, Consumer.staging r k ∈ s.consumers → k ≤ cfg.stageNames.length
  looping : s.shared.shutdown = false → Consumer.exited ∉ s.consumers

theorem initial_ready (cfg : Config) (lines : List String) : Ready cfg (initial cfg lines) := by
  constructor <;> simp [initial]

/-- A consumer's own step never ends its loop. -/
theorem consumes_ready {cfg : Config} {s s' : Shared} {c c' : Consumer} {l : ConsumerLabel}
    (h : Consumes cfg s c l c' s') :
    c' ≠ .exited ∧ ∀ r k, c' = .staging r k → k ≤ cfg.stageNames.length := by
  cases h with
  | get r queue hq =>
    refine ⟨by simp,fun r' k hk => ?_⟩
    cases hk
    exact Nat.zero_le _
  | staged r r' k name hk hid =>
    refine ⟨by simp,fun q j hj => ?_⟩
    cases hj
    exact (List.getElem?_eq_some_iff.mp hk).1
  | _ => exact ⟨by simp,by simp⟩

theorem step_ready (cfg : Config) (s t : State) (l : Label) (hs : Ready cfg s)
    (hstep : step cfg s l = some t) : Ready cfg t := by
  cases step_moves cfg s t l hstep with
  | producer p sh h =>
    have hf := (produce_frame cfg s.shared sh s.producer p h).1
    exact ⟨hs.workers,hs.staged,fun hup => hs.looping (hf.shutdown ▸ hup)⟩
  | consumer i l c c' sh hrun hi h =>
    have hc := consumes_ready h
    refine ⟨by simpa using hs.workers,fun r k hm => ?_,fun _ hm => ?_⟩
    · rcases List.mem_or_eq_of_mem_set hm with hm | hm
      · exact hs.staged r k hm
      · exact hc.2 r k hm.symm
    · rcases List.mem_or_eq_of_mem_set hm with hm | hm
      · exact hs.looping hrun hm
      · exact hc.1 hm.symm
  | cancelled i landed c sh hdown hi h =>
    have hf := unwind_frame s.shared sh landed c h
    refine ⟨by simpa using hs.workers,fun r k hm => ?_,fun hup => ?_⟩
    · rcases List.mem_or_eq_of_mem_set hm with hm | hm
      · exact hs.staged r k hm
      · cases hm
    · simp [hf.1, hdown] at hup
  | flusher l p sh h =>
    have hf := (flushes_frame s.shared sh s.flusher p h).1
    exact ⟨hs.workers,hs.staged,fun hup => hs.looping (hf.shutdown ▸ hup)⟩
  | main l m sh h =>
    refine ⟨hs.workers,hs.staged,fun hup => hs.looping ?_⟩
    generalize s.main = m₀ at h
    cases h with
    | sourceFailed hp => cases hup
    | joined hu => cases hup
    | saved toSave o ho => exact (saveBatch_frame s.shared .run toSave o).1.shutdown ▸ hup
    | crashed toSave => exact hup
    | _ => exact hup

/-- The steps that count: no poll, and of the flusher only what the shutdown
waits for. -/
def GoesOn (s : State) : Label → Prop
  | .consumer _ l => l ≠ .timeout
  | .flusher _ => s.shared.shutdown = true
  | _ => True

/-- Some task can go on. -/
def Moving (cfg : Config) (s : State) : Prop := ∃ l, GoesOn s l ∧ (step cfg s l).isSome

theorem consumer_steps (cfg : Config) (s : State) (i : ℕ) (c : Consumer) (l : ConsumerLabel)
    (hup : s.shared.shutdown = false) (hi : s.consumers[i]? = some c)
    (h : (consume cfg s.shared c l).isSome) : (step cfg s (.consumer i l)).isSome := by
  simp only [step, hup, hi, Bool.false_eq_true, if_false, Option.bind_some, Option.isSome_map]
  exact h

/-- No answer of a stage or of the repository stops a consumer. -/
theorem answered (cfg : Config) (s : State) (i : ℕ) (hup : s.shared.shutdown = false) :
    (∀ r k, s.consumers[i]? = some (.staging r k) → k < cfg.stageNames.length → ∀ out,
      (∀ r', out = .ok r' → r'.id = r.id) →
      (step cfg s (.consumer i (.stage out))).isSome) ∧
    ∀ r toSave, s.consumers[i]? = some (.saving r toSave) → ∀ o,
      (step cfg s (.consumer i (.saved o))).isSome := by
  constructor
  · intro r k hi hk out hid
    refine consumer_steps cfg s i _ _ hup hi ?_
    have hname := List.getElem?_eq_getElem hk
    cases out with
    | error e => simp [consume, hname]
    | ok r' => simp [consume, hname, hid r' rfl]
  · intro r toSave hi o
    refine consumer_steps cfg s i _ _ hup hi ?_
    cases o <;> rfl

/-- A consumer with a record in hand can go on. -/
theorem taken_goes (cfg : Config) (s : State) (i : ℕ) (c : Consumer) (hs : Ready cfg s)
    (hup : s.shared.shutdown = false) (hi : s.consumers[i]? = some c) (hc : taken c = true) :
    Moving cfg s := by
  have hstep (l : ConsumerLabel) (hl : l ≠ .timeout)
      (h : (consume cfg s.shared c l).isSome) : Moving cfg s :=
    ⟨.consumer i l,hl,consumer_steps cfg s i c l hup hi h⟩
  cases c with
  | staging r k =>
    rcases Nat.lt_or_eq_of_le (hs.staged r k (List.mem_of_getElem? hi)) with hk | rfl
    · exact hstep (.stage (.error (.other "" ""))) (by simp) (by
        simp [consume, List.getElem?_eq_getElem hk])
    · refine hstep .buffer (by simp) ?_
      simp only [consume, if_true]
      split <;> rfl
  | flushing r =>
    refine hstep .swap (by simp) ?_
    by_cases hb : s.shared.batchBuffer = []
    · simp [consume, flushBatch_empty s.shared hb]
    · simp [consume, flushBatch_some s.shared hb]
  | saving r toSave => exact hstep (.saved .stored) (by simp) rfl
  | _ => cases hc

/-- A consumer goes on, or it waits for a record. -/
theorem consumer_goes (cfg : Config) (s : State) (i : ℕ) (c : Consumer) (hs : Ready cfg s)
    (hup : s.shared.shutdown = false) (hi : s.consumers[i]? = some c)
    (hq : s.shared.queue ≠ []) : Moving cfg s := by
  cases hc : taken c with
  | true => exact taken_goes cfg s i c hs hup hi hc
  | false =>
    cases c with
    | getting =>
      obtain ⟨r,queue,hqueue⟩ := List.exists_cons_of_ne_nil hq
      exact ⟨.consumer i .get,by simp [GoesOn],
        consumer_steps cfg s i .getting .get hup hi (by simp [consume, hqueue])⟩
    | exited => exact absurd (List.mem_of_getElem? hi) (hs.looping hup)
    | _ => cases hc

theorem first_consumer {cfg : Config} {s : State} (hs : Ready cfg s) :
    ∃ c, s.consumers[0]? = some c :=
  ⟨_,List.getElem?_eq_getElem (by rw [hs.workers]; exact cfg.workers_pos)⟩

theorem awaiting_goes (cfg : Config) (s : State) (hs : Ready cfg s)
    (hup : s.shared.shutdown = false) (hm : s.main = .awaiting) : Moving cfg s := by
  cases hp : s.producer with
  | streaming lines =>
    refine ⟨.producer,trivial,?_⟩
    cases lines <;> simp [step, hp, produce]
  | putting r ls =>
    by_cases hroom : s.shared.queue.length < cfg.queueSize
    · exact ⟨.producer,trivial,by simp [step, hp, produce, hroom]⟩
    -- the queue is full, so a consumer has a record to take
    · have hpos := cfg.queue_pos
      obtain ⟨c,hc⟩ := first_consumer hs
      exact consumer_goes cfg s 0 c hs hup hc (List.ne_nil_of_length_pos (by omega))
  | finished => exact ⟨.main .advance,trivial,by simp [step, hm, runMain, hp]⟩
  | failed => exact ⟨.main .advance,trivial,by simp [step, hm, runMain, hp]⟩

theorem tally_taken (cs : List Consumer) :
    tally (fun c => (consumerHolding c).busy) cs = cs.countP taken := by
  induction cs with
  | nil => rfl
  | cons c cs ih =>
    rw [tally_cons, List.countP_cons, ih, Nat.add_comm]
    cases c <;> rfl

/-- `unfinished_tasks` is what is queued and what consumers have taken. -/
theorem unfinished_eq (s : State) (hs : Ledger s) :
    s.shared.unfinished = s.shared.queue.length + s.consumers.countP taken := by
  have hbusy : tally Holding.busy (tasks s) = s.consumers.countP taken := by
    have hp : (producerHolding s.producer).busy = 0 := by cases s.producer <;> rfl
    have hf : (flusherHolding s.flusher).busy = 0 := by cases s.flusher <;> rfl
    have hm : (mainHolding s.main).busy = 0 := by cases s.main <;> rfl
    rw [← tally_taken, tasks, tally_cons, tally_cons, tally_cons, tally_map, hp, hf, hm]
    omega
  rw [hs.unfinished, hbusy]

theorem joining_goes (cfg : Config) (s : State) (hs : Ready cfg s) (hl : Ledger s)
    (hup : s.shared.shutdown = false) (hm : s.main = .joining) : Moving cfg s := by
  by_cases hu : s.shared.unfinished = 0
  · exact ⟨.main .advance,trivial,by simp [step, hm, runMain, hu]⟩
  · by_cases hq : s.shared.queue = []
    -- nothing is queued, so a record that is not done is in a consumer's hands
    · rw [unfinished_eq s hl, hq, List.length_nil, Nat.zero_add] at hu
      obtain ⟨c,hc,ht⟩ := List.countP_pos_iff.mp (Nat.pos_of_ne_zero hu)
      obtain ⟨i,hi⟩ := List.getElem?_of_mem hc
      exact taken_goes cfg s i c hs hup hi ht
    · obtain ⟨c,hc⟩ := first_consumer hs
      exact consumer_goes cfg s 0 c hs hup hc hq

theorem flusher_goes (cfg : Config) (s : State) (hdown : s.shared.shutdown = true)
    (hf : s.flusher ≠ .exited) : Moving cfg s := by
  cases hp : s.flusher with
  | sleeping => exact ⟨.flusher .tick,hdown,by simp [step, hp, batchFlusher]⟩
  | flushing =>
    refine ⟨.flusher .swap,hdown,?_⟩
    by_cases hb : s.shared.batchBuffer = []
    · simp [step, hp, batchFlusher, flushBatch_empty s.shared hb]
    · simp [step, hp, batchFlusher, flushBatch_some s.shared hb]
  | saving toSave => exact ⟨.flusher (.saved .stored),hdown,by simp [step, hp, batchFlusher]⟩
  | exited => exact absurd hp hf

theorem gathering_goes (cfg : Config) (s : State) (hdown : s.shared.shutdown = true)
    (hm : s.main = .gathering) : Moving cfg s := by
  by_cases hc : ∀ c ∈ s.consumers, c = .exited
  · by_cases hf : s.flusher = .exited
    · exact ⟨.main .advance,trivial,by
        simp only [step, hm, runMain, if_pos (And.intro hc hf), Option.map_some, Option.isSome_some]⟩
    · exact flusher_goes cfg s hdown hf
  · push Not at hc
    obtain ⟨c,hmem,hne⟩ := hc
    obtain ⟨i,hi⟩ := List.getElem?_of_mem hmem
    refine ⟨.cancelled i true,trivial,?_⟩
    simp only [step, hdown, if_true, hi, Option.bind_some, Option.isSome_map]
    cases c with
    | exited => exact absurd rfl hne
    | _ => rfl

theorem moving (cfg : Config) (lines : List String) (s : State) (hs : Ready cfg s)
    (hi : Inv cfg lines s) (hret : s.main ≠ .returned) (hraised : s.main ≠ .raised) :
    Moving cfg s := by
  have hshut := hi.phases.shutdown
  cases hm : s.main with
  | awaiting => exact awaiting_goes cfg s hs (by rw [hshut, hm]; rfl) hm
  | joining => exact joining_goes cfg s hs hi.ledger (by rw [hshut, hm]; rfl) hm
  | gathering => exact gathering_goes cfg s (by rw [hshut, hm]; rfl) hm
  | draining =>
    refine ⟨.main .advance,trivial,?_⟩
    by_cases hb : s.shared.batchBuffer = []
    · simp [step, hm, runMain, flushBatch_empty s.shared hb]
    · simp [step, hm, runMain, flushBatch_some s.shared hb]
  | saving toSave => exact ⟨.main (.saved .stored),trivial,by simp [step, hm, runMain]⟩
  | returned => exact absurd hm hret
  | raised => exact absurd hm hraised

/-- In every reachable state the queue's count is exact, a call that a
consumer waits for may end in any way, and unless `run` is over some task can
go on. -/
theorem never_stuck (cfg : Config) (lines : List String) (ls : List Label) (s : State)
    (hrun : run (step cfg) (initial cfg lines) ls = some s) :
    s.shared.unfinished = s.shared.queue.length + s.consumers.countP taken ∧
    (s.shared.shutdown = false → ∀ i,
      (∀ r k, s.consumers[i]? = some (.staging r k) → k < cfg.stageNames.length → ∀ out,
        (∀ r', out = .ok r' → r'.id = r.id) →
        (step cfg s (.consumer i (.stage out))).isSome) ∧
      ∀ r toSave, s.consumers[i]? = some (.saving r toSave) → ∀ o,
        (step cfg s (.consumer i (.saved o))).isSome) ∧
    (s.main ≠ .returned → s.main ≠ .raised → ∃ l t, GoesOn s l ∧ step cfg s l = some t) := by
  have hi := run_inv cfg lines ls s hrun
  have hs := run_invariant (step cfg) (Ready cfg) (fun s l t hs h => step_ready cfg s t l hs h)
    (initial_ready cfg lines) hrun
  refine ⟨unfinished_eq s hi.ledger,fun hup i => answered cfg s i hup,fun hret hraised => ?_⟩
  obtain ⟨l,hl,hstep⟩ := moving cfg lines s hs hi hret hraised
  obtain ⟨t,ht⟩ := Option.isSome_iff_exists.mp hstep
  exact ⟨l,t,hl,ht⟩

/-- One line in a stage, and the other on the queue. -/
def inStage : State :=
  (run (step sample) (initial sample ["a","b"])
    [.producer,.producer,.consumer 0 .get,.producer,.producer]).getD (initial sample [])

theorem never_stuck_inStage :
    inStage.shared.unfinished = inStage.shared.queue.length + inStage.consumers.countP taken ∧
    ∃ l t, GoesOn inStage l ∧ step sample inStage l = some t := by
  have h := never_stuck sample ["a","b"]
    [.producer,.producer,.consumer 0 .get,.producer,.producer] inStage (by decide)
  exact ⟨h.1,h.2.2 (by decide) (by decide)⟩

end PipelineX.ExecutorProgress
