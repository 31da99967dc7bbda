import PipelineX.ExecutorAccounting

/-!
# Backpressure

The decision to flush and the swap are two critical sections, and consumers
append in between. Each append that finds the buffer full leaves its consumer
owing a flush, so the buffer outgrows the batch size by at most one record for
each consumer. All the executor's memory is bounded by that.
-/

set_option autoImplicit false

namespace PipelineX.ExecutorBounds
open PipelineX.Records PipelineX.Stages PipelineX.TransitionSystem PipelineX.Tally
open PipelineX.Executor PipelineX.ExecutorSteps PipelineX.ExecutorLedger
open PipelineX.ExecutorPhases PipelineX.ExecutorAccounting

/-- The most records that a batch can have. -/
def cap (cfg : Config) : ℕ := cfg.batchSize + cfg.numWorkers - 1

theorem cap_pos (cfg : Config) : 1 ≤ cap cfg := by
  have hb := cfg.batch_pos
  have hw := cfg.workers_pos
  unfold cap
  omega

def owing : Consumer → ℕ
  | .flushing _ => 1
  | _ => 0

def live : Consumer → ℕ
  | .exited => 0
  | _ => 1

theorem owing_le (c : Consumer) : owing c ≤ 1 := by cases c <;> simp [owing]

theorem tally_le_length {α : Type} (g : α → ℕ) (hg : ∀ x, g x ≤ 1) (xs : List α) :
    tally g xs ≤ xs.length := by
  induction xs with
  | nil => simp
  | cons x xs ih =>
    have hx := hg x
    simp only [tally_cons, List.length_cons]
    omega

/-- What the bounds say of the shared state alone. -/
structure Small (cfg : Config) (s : Shared) : Prop where
  queue : s.queue.length ≤ cfg.queueSize
  buffer : s.batchBuffer.length ≤ cap cfg
  swaps : ∀ b ∈ s.swaps, b.records.length ≤ cap cfg
  saves : ∀ c ∈ s.saves, c.toSave.records.length ≤ cap cfg

/-- What a task may have in hand. -/
def Fits (cfg : Config) (h : Holding) : Prop :=
  h.inStages.length ≤ 1 ∧ h.toSave.length ≤ cap cfg ∧ (h.inStages = [] ∨ h.toSave = [])

theorem fits_idle (cfg : Config) : Fits cfg {} := ⟨Nat.zero_le _,Nat.zero_le _,Or.inl rfl⟩

structure Bounded (cfg : Config) (s : State) : Prop where
  small : Small cfg s.shared
  workers : s.consumers.length = cfg.numWorkers
  owed : s.shared.shutdown = false →
    s.shared.batchBuffer.length + 1 ≤ cfg.batchSize + tally owing s.consumers
  hands : ∀ h ∈ tasks s, Fits cfg h
  abandoned : s.shared.lost.length + s.shared.interrupted.length +
    cap cfg * tally live s.consumers ≤ cap cfg * cfg.numWorkers

theorem initial_bounded (cfg : Config) (lines : List String) : Bounded cfg (initial cfg lines) := by
  have hb := cfg.batch_pos
  have hidle : ∀ h ∈ tasks (initial cfg lines), h = {} := by
    simp [tasks, initial, producerHolding, flusherHolding, mainHolding, consumerHolding,
      cfg.workers_pos.ne']
  constructor
  · exact ⟨by simp [initial],by simp [initial],by simp [initial],by simp [initial]⟩
  · simp [initial]
  · intro _
    simp only [initial, List.length_nil]
    omega
  · intro h hh
    rw [hidle h hh]
    exact fits_idle cfg
  · have hlive := tally_le_length live (fun c => by cases c <;> simp [live])
      (initial cfg lines).consumers
    have hlen : (initial cfg lines).consumers.length = cfg.numWorkers := by simp [initial]
    rw [hlen] at hlive
    simpa [initial] using Nat.mul_le_mul_left (cap cfg) hlive

theorem saveBatch_small {cfg : Config} {s : Shared} {b : Batch} (hs : Small cfg s)
    (hb : b.records.length ≤ cap cfg) (caller : Caller) (o : SaveOutcome) :
    Small cfg (saveBatch s caller b o) := by
  have hsaves : ∀ c ∈ s.saves ++ [⟨caller,b,o⟩], c.toSave.records.length ≤ cap cfg := by
    intro c hc
    rcases List.mem_append.mp hc with hc | hc
    · exact hs.saves c hc
    · rw [List.mem_singleton.mp hc]
      exact hb
  cases o <;> exact ⟨hs.queue,hs.buffer,hs.swaps,hsaves⟩

theorem swapped_small {cfg : Config} {s : Shared} {b : Batch} (hs : Small cfg s)
    (hb : b.records = s.batchBuffer) : Small cfg (swapped s b) := by
  refine ⟨hs.queue,Nat.zero_le _,fun c hc => ?_,hs.saves⟩
  rcases List.mem_append.mp hc with hc | hc
  · exact hs.swaps c hc
  · rw [List.mem_singleton.mp hc, hb]
    exact hs.buffer

/-- What a consumer's step does to the buffer, `n` consumers besides it owing
a flush. -/
theorem consumes_owed (cfg : Config) (s s' : Shared) (c c' : Consumer) (l : ConsumerLabel)
    (n : ℕ) (h : Consumes cfg s c l c' s')
    (hs : s.batchBuffer.length + 1 ≤ cfg.batchSize + (n + owing c)) :
    s'.batchBuffer.length + 1 ≤ cfg.batchSize + (n + owing c') := by
  have hpos := cfg.batch_pos
  cases h with
  | buffered r hroom =>
    simp only [taskDone, countProcessed, ExecutorSteps.buffered, List.length_append,
      List.length_singleton, owing]
    omega
  | filled r hfull =>
    simp only [ExecutorSteps.buffered, List.length_append, List.length_singleton, owing] at hs ⊢
    omega
  | nothing r hb =>
    simp only [taskDone, countProcessed, hb, List.length_nil]
    omega
  | swapped r hb =>
    simp only [ExecutorSteps.swapped, List.length_nil]
    omega
  | saved r toSave o ho =>
    rw [show (taskDone (countProcessed (saveBatch s .consumer toSave o))).batchBuffer =
      s.batchBuffer from (saveBatch_frame s .consumer toSave o).2.2.2]
    exact hs
  | _ => exact hs

theorem consumes_small {cfg : Config} {s s' : Shared} {c c' : Consumer} {l : ConsumerLabel}
    (h : Consumes cfg s c l c' s') (hs : Small cfg s)
    (hroom : s'.batchBuffer.length ≤ cap cfg)
    (hhand : (consumerHolding c).toSave.length ≤ cap cfg) :
    Small cfg s' ∧ Fits cfg (consumerHolding c') := by
  have hone (r : LogRecord) : Fits cfg { inStages := [r], busy := 1 } :=
    ⟨le_rfl,Nat.zero_le _,Or.inr rfl⟩
  have hnone (h : Holding) (hi : h.inStages = []) (hb : h.toSave = []) : Fits cfg h := by
    rw [Fits, hi, hb]
    exact fits_idle cfg
  cases h with
  | get r queue hq =>
    have hlen := hs.queue
    rw [hq, List.length_cons] at hlen
    exact ⟨⟨by simp only; omega,hs.buffer,hs.swaps,hs.saves⟩,hone r⟩
  | staged r r' k name hk hid => exact ⟨⟨hs.queue,hs.buffer,hs.swaps,hs.saves⟩,hone _⟩
  | buffered r hr => exact ⟨⟨hs.queue,hroom,hs.swaps,hs.saves⟩,hnone _ rfl rfl⟩
  | filled r hf => exact ⟨⟨hs.queue,hroom,hs.swaps,hs.saves⟩,hnone _ rfl rfl⟩
  | swapped r hb => exact ⟨swapped_small hs rfl,Nat.zero_le _,hs.buffer,Or.inl rfl⟩
  | saved r toSave o ho =>
    have hsave := saveBatch_small hs hhand .consumer o
    exact ⟨⟨hsave.queue,hsave.buffer,hsave.swaps,hsave.saves⟩,hnone _ rfl rfl⟩
  | crashed r toSave =>
    have hsave := saveBatch_small hs hhand .consumer .unexpected
    exact ⟨⟨hsave.queue,hsave.buffer,hsave.swaps,hsave.saves⟩,hnone _ rfl rfl⟩
  | _ => exact ⟨⟨hs.queue,hs.buffer,hs.swaps,hs.saves⟩,hnone _ rfl rfl⟩

theorem consumes_live {cfg : Config} {s s' : Shared} {c c' : Consumer} {l : ConsumerLabel}
    (h : Consumes cfg s c l c' s') : live c = 1 ∧ live c' = 1 := by
  cases h <;> exact ⟨rfl,rfl⟩

theorem hands_set {cfg : Config} {s t : State} {i : ℕ} {h : Holding}
    (hs : ∀ g ∈ tasks s, Fits cfg g) (ht : tasks t = (tasks s).set i h) (hh : Fits cfg h) :
    ∀ g ∈ tasks t, Fits cfg g := by
  intro g hg
  rw [ht] at hg
  rcases List.mem_or_eq_of_mem_set hg with hg | rfl
  · exact hs g hg
  · exact hh

theorem consumer_bounded (cfg : Config) (s : State) (i : ℕ) (l : ConsumerLabel)
    (c c' : Consumer) (sh : Shared) (hs : Bounded cfg s) (hup : s.shared.shutdown = false)
    (hi : s.consumers[i]? = some c) (h : Consumes cfg s.shared c l c' sh) :
    Bounded cfg { s with consumers := s.consumers.set i c', shared := sh } := by
  have howing := tally_set owing s.consumers i c c' hi
  have hlive := tally_set live s.consumers i c c' hi
  have htasks := tasks_consumer s i c c' sh hi
  have hframe := (consumes_frame cfg s.shared sh c c' l h).1
  have howed := consumes_owed cfg s.shared sh c c' l (tally owing s.consumers - owing c) h (by
    have hle := le_tally owing s.consumers c (List.mem_of_getElem? hi)
    have ho := hs.owed hup
    omega)
  have hlen : tally owing (s.consumers.set i c') ≤ cfg.numWorkers := by
    have hle := tally_le_length owing owing_le (s.consumers.set i c')
    rwa [List.length_set, hs.workers] at hle
  have howed' : sh.batchBuffer.length + 1 ≤ cfg.batchSize + tally owing (s.consumers.set i c') := by
    have hle := le_tally owing s.consumers c (List.mem_of_getElem? hi)
    omega
  have hsmall := consumes_small h hs.small (by unfold cap; omega)
    (hs.hands _ (List.mem_of_getElem? htasks.1)).2.1
  refine ⟨hsmall.1,by simpa using hs.workers,fun _ => howed',hands_set hs.hands htasks.2 hsmall.2,?_⟩
  obtain ⟨h1,h2⟩ := consumes_live h
  rw [h1, h2] at hlive
  have heq : tally live (s.consumers.set i c') = tally live s.consumers := by omega
  simp only [hframe.lost, hframe.interrupted, heq]
  exact hs.abandoned

/-- A cancelled consumer leaves behind at most what it could have in hand. -/
theorem unwind_small {cfg : Config} {s sh : Shared} {landed : Bool} {c : Consumer}
    (hs : Small cfg s) (hhand : (consumerHolding c).toSave.length ≤ cap cfg)
    (h : unwind s landed c = some sh) : Small cfg sh ∧
      sh.lost.length + sh.interrupted.length ≤
        s.lost.length + s.interrupted.length + cap cfg * live c := by
  have hpos := cap_pos cfg
  cases c with
  | getting =>
    cases h
    exact ⟨hs,Nat.le_add_right _ _⟩
  | staging r k =>
    cases h
    refine ⟨⟨hs.queue,hs.buffer,hs.swaps,hs.saves⟩,?_⟩
    simp only [taskDone, List.length_append, List.length_singleton, live]
    omega
  | flushing r =>
    cases h
    exact ⟨⟨hs.queue,hs.buffer,hs.swaps,hs.saves⟩,Nat.le_add_right _ _⟩
  | saving r toSave =>
    cases landed with
    | false =>
      cases h
      refine ⟨⟨hs.queue,hs.buffer,hs.swaps,hs.saves⟩,?_⟩
      simp only [consumerHolding] at hhand
      simp only [taskDone, List.length_append, live]
      omega
    | true =>
      cases h
      have hsave := saveBatch_small hs hhand .consumer .stored
      exact ⟨⟨hsave.queue,hsave.buffer,hsave.swaps,hsave.saves⟩,Nat.le_add_right _ _⟩
  | exited => cases h

theorem unwind_bounded (cfg : Config) (s : State) (i : ℕ) (landed : Bool) (c : Consumer)
    (sh : Shared) (hs : Bounded cfg s) (hdown : s.shared.shutdown = true)
    (hi : s.consumers[i]? = some c) (h : unwind s.shared landed c = some sh) :
    Bounded cfg { s with consumers := s.consumers.set i .exited, shared := sh } := by
  have htasks := tasks_consumer s i c .exited sh hi
  have hhand := (hs.hands _ (List.mem_of_getElem? htasks.1)).2.1
  have hlive := tally_set live s.consumers i c .exited hi
  have hframe := unwind_frame s.shared sh landed c h
  have hab := hs.abandoned
  have hmul : cap cfg * tally live (s.consumers.set i .exited) + cap cfg * live c =
      cap cfg * tally live s.consumers := by
    rw [← Nat.mul_add]
    exact congrArg _ hlive
  have hdown' : sh.shutdown = false → False := by simp [hframe.1, hdown]
  have hrest := unwind_small hs.small hhand h
  refine ⟨hrest.1,by simpa using hs.workers,fun hup => (hdown' hup).elim,
    hands_set hs.hands htasks.2 (fits_idle cfg),?_⟩
  have hle := hrest.2
  simp only
  omega

theorem produce_bounded (cfg : Config) (s : State) (p : Producer) (sh : Shared)
    (hs : Bounded cfg s) (h : produce cfg s.shared s.producer = some (p,sh)) :
    Bounded cfg { s with producer := p, shared := sh } := by
  have hset : tasks { s with producer := p, shared := sh } =
      (tasks s).set 0 (producerHolding p) := rfl
  have hfits : Fits cfg (producerHolding p) := by
    cases p with
    | putting r ls => exact ⟨le_rfl,Nat.zero_le _,Or.inr rfl⟩
    | _ => exact fits_idle cfg
  have hhands := hands_set hs.hands hset hfits
  cases hp : s.producer with
  | streaming lines =>
    rw [hp] at h
    cases lines <;> cases h
    · exact ⟨hs.small,hs.workers,hs.owed,hhands,hs.abandoned⟩
    · exact ⟨⟨hs.small.queue,hs.small.buffer,hs.small.swaps,hs.small.saves⟩,hs.workers,hs.owed,
        hhands,hs.abandoned⟩
  | putting r ls =>
    rw [hp] at h
    by_cases hroom : s.shared.queue.length < cfg.queueSize
    · rw [produce, if_pos hroom] at h
      cases h
      refine ⟨⟨?_,hs.small.buffer,hs.small.swaps,hs.small.saves⟩,hs.workers,hs.owed,hhands,
        hs.abandoned⟩
      simp only [List.length_append, List.length_singleton]
      omega
    · simp [produce, hroom] at h
  | finished => simp [hp, produce] at h
  | failed => simp [hp, produce] at h

/-- A step of a task that only swaps and saves. -/
theorem other_bounded (cfg : Config) (s t : State) (i : ℕ) (h : Holding) (hs : Bounded cfg s)
    (hcons : t.consumers = s.consumers) (hsmall : Small cfg t.shared)
    (hbuffer : t.shared.batchBuffer.length ≤ s.shared.batchBuffer.length)
    (hup : t.shared.shutdown = false → s.shared.shutdown = false)
    (hlost : t.shared.lost = s.shared.lost)
    (hint : t.shared.interrupted = s.shared.interrupted)
    (ht : tasks t = (tasks s).set i h) (hh : Fits cfg h) : Bounded cfg t := by
  refine ⟨hsmall,by rw [hcons, hs.workers],fun hdown => ?_,hands_set hs.hands ht hh,?_⟩
  · have ho := hs.owed (hup hdown)
    rw [hcons]
    omega
  · rw [hlost, hint, hcons]
    exact hs.abandoned

theorem flusher_fits (cfg : Config) (s : Shared) : Fits cfg (flusherHolding (flusherLoop s)) := by
  rw [flusherLoop_holding]
  exact fits_idle cfg

theorem flushes_bounded (cfg : Config) (s : State) (p : Flusher) (sh : Shared)
    (hs : Bounded cfg s) (h : Flushes s.shared s.flusher p sh) :
    Bounded cfg { s with flusher := p, shared := sh } := by
  have hset : tasks { s with flusher := p, shared := sh } =
      (tasks s).set 1 (flusherHolding p) := rfl
  have hhand : (flusherHolding s.flusher).toSave.length ≤ cap cfg :=
    (hs.hands _ (by simp [tasks])).2.1
  generalize s.flusher = p₀ at h hhand
  cases h with
  | tick =>
    exact other_bounded cfg s _ 1 _ hs rfl hs.small le_rfl id rfl rfl hset (fits_idle cfg)
  | nothing hb =>
    exact other_bounded cfg s _ 1 _ hs rfl hs.small le_rfl id rfl rfl hset (flusher_fits cfg _)
  | swapped hb =>
    exact other_bounded cfg s _ 1 _ hs rfl (swapped_small hs.small rfl) (Nat.zero_le _) id rfl rfl
      hset ⟨Nat.zero_le _,hs.small.buffer,Or.inl rfl⟩
  | saved toSave o ho =>
    have hf := saveBatch_frame s.shared .flusher toSave o
    exact other_bounded cfg s _ 1 _ hs rfl (saveBatch_small hs.small hhand .flusher o)
      (by rw [hf.2.2.2]) (by rw [hf.1.shutdown]; exact id) hf.1.lost hf.1.interrupted hset
      (flusher_fits cfg _)
  | crashed toSave =>
    have hf := saveBatch_frame s.shared .flusher toSave .unexpected
    exact other_bounded cfg s _ 1 _ hs rfl (saveBatch_small hs.small hhand .flusher .unexpected)
      (by rw [hf.2.2.2]) (by rw [hf.1.shutdown]; exact id) hf.1.lost hf.1.interrupted hset
      (fits_idle cfg)

theorem ending_fits (cfg : Config) (p : Producer) : Fits cfg (mainHolding (ending p)) := by
  rw [ending_holding]
  exact fits_idle cfg

theorem runs_bounded (cfg : Config) (s : State) (m : Main) (sh : Shared) (hs : Bounded cfg s)
    (h : Runs s s.main m sh) : Bounded cfg { s with main := m, shared := sh } := by
  have hset : tasks { s with main := m, shared := sh } = (tasks s).set 2 (mainHolding m) := rfl
  have hhand : (mainHolding s.main).toSave.length ≤ cap cfg :=
    (hs.hands _ (by simp [tasks])).2.1
  have hdown : Small cfg { s.shared with shutdown := true } :=
    ⟨hs.small.queue,hs.small.buffer,hs.small.swaps,hs.small.saves⟩
  generalize s.main = m₀ at h hhand
  cases h with
  | exhausted hp =>
    exact other_bounded cfg s _ 2 _ hs rfl hs.small le_rfl id rfl rfl hset (fits_idle cfg)
  | sourceFailed hp =>
    exact other_bounded cfg s _ 2 _ hs rfl hdown le_rfl (by simp) rfl rfl hset (fits_idle cfg)
  | joined hu =>
    exact other_bounded cfg s _ 2 _ hs rfl hdown le_rfl (by simp) rfl rfl hset (fits_idle cfg)
  | gathered hc hf =>
    exact other_bounded cfg s _ 2 _ hs rfl hs.small le_rfl id rfl rfl hset (fits_idle cfg)
  | nothing hb =>
    exact other_bounded cfg s _ 2 _ hs rfl hs.small le_rfl id rfl rfl hset (ending_fits cfg _)
  | swapped hb =>
    exact other_bounded cfg s _ 2 _ hs rfl (swapped_small hs.small rfl) (Nat.zero_le _) id rfl rfl
      hset ⟨Nat.zero_le _,hs.small.buffer,Or.inl rfl⟩
  | saved toSave o ho =>
    have hf := saveBatch_frame s.shared .run toSave o
    exact other_bounded cfg s _ 2 _ hs rfl (saveBatch_small hs.small hhand .run o)
      (by rw [hf.2.2.2]) (by rw [hf.1.shutdown]; exact id) hf.1.lost hf.1.interrupted hset
      (ending_fits cfg _)
  | crashed toSave =>
    have hf := saveBatch_frame s.shared .run toSave .unexpected
    exact other_bounded cfg s _ 2 _ hs rfl (saveBatch_small hs.small hhand .run .unexpected)
      (by rw [hf.2.2.2]) (by rw [hf.1.shutdown]; exact id) hf.1.lost hf.1.interrupted hset
      (fits_idle cfg)

theorem step_bounded (cfg : Config) (s t : State) (l : Label) (hs : Bounded cfg s)
    (hstep : step cfg s l = some t) : Bounded cfg t := by
  cases step_moves cfg s t l hstep with
  | producer p sh h => exact produce_bounded cfg s p sh hs h
  | consumer i l c c' sh hrun hi h => exact consumer_bounded cfg s i l c c' sh hs hrun hi h
  | cancelled i landed c sh hdown hi h => exact unwind_bounded cfg s i landed c sh hs hdown hi h
  | flusher l p sh h => exact flushes_bounded cfg s p sh hs h
  | main l m sh h => exact runs_bounded cfg s m sh hs h

theorem run_bounded (cfg : Config) (lines : List String) (ls : List Label) (s : State)
    (hrun : run (step cfg) (initial cfg lines) ls = some s) : Bounded cfg s :=
  run_invariant (step cfg) (Bounded cfg) (fun s l t hs h => step_bounded cfg s t l hs h)
    (initial_bounded cfg lines) hrun

/-- The records that are counted as failed, when no save raises anything but a
`RepositoryError`. -/
def failed (s : Shared) : List LogRecord :=
  s.dropped ++
    (s.saves.filter (fun c => c.outcome = .repositoryError)).flatMap (fun c => c.toSave.records)

/-- The lines that were pulled and whose records are neither stored nor counted
as failed. -/
def outstanding (s : Shared) : List ℕ :=
  (List.range s.pulled).filter (fun i => i ∉ (s.stored ++ failed s).map LogRecord.id)

/-- The records on their way, and those that a cancellation left behind. -/
def held (s : State) : List LogRecord :=
  s.shared.queue ++ s.shared.lost ++ s.shared.batchBuffer ++ s.shared.interrupted ++
    (tasks s).flatMap (fun h => h.inStages ++ h.toSave)

theorem saved_split {s : Shared} (hk : Kept s) (hsaves : ∀ c ∈ s.saves, c.outcome ≠ .unexpected) :
    (s.stored ++ (s.saves.filter (fun c => c.outcome = .repositoryError)).flatMap
      (fun c => c.toSave.records)).Perm (saved s) := by
  have hfilter : s.saves.filter (fun c => c.outcome = .repositoryError) =
      s.saves.filter (fun c => !decide (c.outcome = .stored)) := by
    refine List.filter_congr (fun c hc => ?_)
    have hne := hsaves c hc
    cases ho : c.outcome with
    | unexpected => exact absurd ho hne
    | _ => rfl
  rw [hk.stored, hfilter, ← List.flatMap_append]
  exact (List.filter_append_perm _ s.saves).flatMap_right _

/-- Every pulled line is stored, counted as failed, or held. -/
theorem pulled_perm {s : State} (hl : Ledger s) (hk : Kept s.shared)
    (hsaves : ∀ c ∈ s.shared.saves, c.outcome ≠ .unexpected) :
    (List.range s.shared.pulled).Perm
      ((s.shared.stored ++ failed s.shared).map LogRecord.id ++ (held s).map LogRecord.id) := by
  apply perm_of_tally
  intro f
  have hplaced := hl.placed f
  have hsettled := hl.settled (fun r => f r.id)
  have hsplit := tally_perm (fun r => f r.id) (saved_split hk hsaves)
  simp only [saved, tally_append, tally_flatMap] at hsplit
  simp only [placed, weigh] at hplaced
  simp only [settled] at hsettled
  simp only [held, failed, List.map_append, tally_append, tally_map, tally_flatMap, tally_add]
  omega

/-- How much a task holds. -/
def load (h : Holding) : ℕ := h.inStages.length + h.toSave.length

theorem consumers_load {cfg : Config} (hcap : 1 ≤ cap cfg) (cs : List Consumer)
    (hs : ∀ c ∈ cs, Fits cfg (consumerHolding c)) :
    tally load (cs.map consumerHolding) ≤ cap cfg * tally live cs := by
  induction cs with
  | nil => simp
  | cons c cs ih =>
    have hrest := ih (fun d hd => hs d (List.mem_cons_of_mem _ hd))
    have hfits := (hs c List.mem_cons_self).2.1
    have hc : load (consumerHolding c) ≤ cap cfg * live c := by
      cases c with
      | staging r k => simpa [load, consumerHolding, live] using hcap
      | saving r toSave => simpa [load, consumerHolding, live] using hfits
      | _ => exact Nat.zero_le _
    simp only [List.map_cons, tally_cons, Nat.mul_add]
    omega

theorem held_length {cfg : Config} {lines : List String} {s : State} (hi : Inv cfg lines s)
    (hs : Bounded cfg s) :
    (held s).length ≤ 1 + cfg.queueSize + (cfg.numWorkers+2) * cap cfg := by
  have hcap := cap_pos cfg
  have hfits := hs.hands
  simp only [tasks, List.forall_mem_cons, List.forall_mem_map] at hfits
  obtain ⟨hp,hf,hm,hc⟩ := hfits
  have hcons := consumers_load hcap s.consumers hc
  have hproducer : load (producerHolding s.producer) ≤ 1 := by
    cases s.producer <;> simp [load, producerHolding]
  have hflusher : load (flusherHolding s.flusher) ≤ cap cfg := by
    have hto := hf.2.1
    cases hp : s.flusher with
    | saving toSave => simpa [hp, load, flusherHolding] using hto
    | _ => exact Nat.zero_le _
  -- the final drain saves what was in the buffer
  have hmain : s.shared.batchBuffer.length + load (mainHolding s.main) ≤ cap cfg := by
    have hto := hm.2.1
    have hbuf := hs.small.buffer
    cases hp : s.main with
    | saving toSave =>
      rw [hi.phases.emptied (by rw [hp]; rfl)]
      simpa [hp, load, mainHolding] using hto
    | _ => exact hbuf
  have hload : ((tasks s).flatMap (fun h => h.inStages ++ h.toSave)).length =
      tally load (tasks s) := by
    simp only [length_flatMap, List.length_append]
    rfl
  have hqueue := hs.small.queue
  have hab := hs.abandoned
  have hmul : (cfg.numWorkers+2) * cap cfg = cap cfg * cfg.numWorkers + 2 * cap cfg := by
    rw [Nat.add_mul, Nat.mul_comm]
  rw [held, List.length_append, hload, hmul]
  simp only [List.length_append, tasks, tally_cons]
  omega

/-- Memory is bounded in every reachable state: the queue, the buffer, each
batch, and the lines that are neither stored nor counted as failed. -/
theorem backpressure_bound (cfg : Config) (lines : List String) (ls : List Label) (s : State)
    (hrun : run (step cfg) (initial cfg lines) ls = some s)
    (hsaves : ∀ c ∈ s.shared.saves, c.outcome ≠ .unexpected) :
    s.shared.queue.length ≤ cfg.queueSize ∧
    s.shared.batchBuffer.length ≤ cfg.batchSize + cfg.numWorkers - 1 ∧
    (∀ b, b ∈ s.shared.swaps ∨ b ∈ s.shared.saves.map SaveCall.toSave →
      1 ≤ b.records.length ∧ b.records.length ≤ cfg.batchSize + cfg.numWorkers - 1) ∧
    (outstanding s.shared).length ≤
      1 + cfg.queueSize + (cfg.numWorkers+2) * (cfg.batchSize + cfg.numWorkers - 1) ∧
    s.shared.recordsFailed = (failed s.shared).length := by
  have hs := run_bounded cfg lines ls s hrun
  have hi := run_inv cfg lines ls s hrun
  refine ⟨hs.small.queue,hs.small.buffer,fun b hb => ⟨List.length_pos_of_ne_nil b.nonempty,?_⟩,
    ?_,?_⟩
  · rcases hb with hb | hb
    · exact hs.small.swaps b hb
    · obtain ⟨c,hc,rfl⟩ := List.mem_map.mp hb
      exact hs.small.saves c hc
  · have hperm := (pulled_perm hi.ledger hi.kept hsaves).filter
      (fun i => i ∉ (s.shared.stored ++ failed s.shared).map LogRecord.id)
    rw [List.filter_append] at hperm
    have hnone : ((s.shared.stored ++ failed s.shared).map LogRecord.id).filter
        (fun i => i ∉ (s.shared.stored ++ failed s.shared).map LogRecord.id) = [] :=
      List.filter_eq_nil_iff.mpr (fun i hi => by simp only [hi, not_true, decide_false,
        Bool.false_eq_true, not_false_eq_true])
    rw [hnone, List.nil_append] at hperm
    have hlen := List.length_filter_le
      (fun i => decide (i ∉ (s.shared.stored ++ failed s.shared).map LogRecord.id))
      ((held s).map LogRecord.id)
    rw [List.length_map] at hlen
    rw [outstanding, hperm.length_eq]
    exact hlen.trans (held_length hi hs)
  · have hdebit := hi.ledger.debit
    have hrejected : tally rejected s.shared.saves =
        ((s.shared.saves.filter (fun c => c.outcome = .repositoryError)).flatMap
          (fun c => c.toSave.records)).length := by
      induction s.shared.saves with
      | nil => rfl
      | cons c saves ih => by_cases ho : c.outcome = .repositoryError <;> simp [rejected, ho, ih]
    have hcrash : tally crash s.shared.saves = 0 :=
      (tally_eq_zero _ _).mpr (fun c hc => if_neg (fun h => hsaves c hc h.1))
    rw [debit, hcrash, hrejected] at hdebit
    rw [failed, List.length_append]
    omega

/-- The consumer has swapped both records out and is inside its save. -/
def inSave : List Label := passes sample 0 "a" ++ passes sample 1 "b" ++ [.consumer 0 .swap]

theorem backpressure_bound_inSave :
    (outstanding ((run (step sample) (initial sample ["a","b"]) inSave).getD
      (initial sample [])).shared).length ≤ 9 :=
  (backpressure_bound sample ["a","b"] inSave _ (by decide) (by decide)).2.2.2.1

end PipelineX.ExecutorBounds
