import PipelineX.ExecutorLedger

/-!
# The phases of a run

`run` passes from awaiting the producer to the final drain. What each phase
presupposes of the other tasks, and that a run whose source did not raise is
cancelled only when no consumer has a record in hand.
-/

set_option autoImplicit false

namespace PipelineX.ExecutorPhases
open PipelineX.Records PipelineX.Stages PipelineX.TransitionSystem PipelineX.Tally
open PipelineX.Executor PipelineX.ExecutorSteps PipelineX.ExecutorLedger

/-- The lines that the source still has. -/
def remaining : Producer → List String
  | .streaming lines => lines
  | .putting _ lines => lines
  | .finished => []
  | .failed => []

/-- `run` is past its `gather`. -/
def gathered : Main → Bool
  | .draining => true
  | .saving _ => true
  | .returned => true
  | .raised => true
  | _ => false

/-- `run` is past the swap of its final drain. -/
def emptied : Main → Bool
  | .saving _ => true
  | .returned => true
  | .raised => true
  | _ => false

def cancelling : Main → Bool
  | .awaiting => false
  | .joining => false
  | _ => true

structure Phases (cfg : Config) (lines : List String) (s : State) : Prop where
  source : s.shared.pulled + (remaining s.producer).length = lines.length
  raises : s.producer = .failed → cfg.sourceRaises = true
  shutdown : s.shared.shutdown = cancelling s.main
  joining : s.main = .joining → s.producer = .finished
  joined : s.shared.shutdown = true →
    s.producer = .failed ∨ s.producer = .finished ∧ s.shared.unfinished = 0
  gathered : gathered s.main = true → (∀ c ∈ s.consumers, c = .exited) ∧ s.flusher = .exited
  emptied : emptied s.main = true → s.shared.batchBuffer = []
  returned : s.main = .returned → s.producer ≠ .failed
  unharmed : s.shared.shutdown = false ∨ s.producer ≠ .failed →
    s.shared.lost = [] ∧ s.shared.uncounted = [] ∧ s.shared.interrupted = []

structure Inv (cfg : Config) (lines : List String) (s : State) : Prop where
  ledger : Ledger s
  kept : Kept s.shared
  phases : Phases cfg lines s

theorem initial_phases (cfg : Config) (lines : List String) :
    Phases cfg lines (initial cfg lines) := by
  constructor <;> simp [initial, remaining, gathered, emptied, cancelling]

/-- What only `run` and a cancellation change. -/
structure Frame (s s' : Shared) : Prop where
  shutdown : s'.shutdown = s.shutdown
  lost : s'.lost = s.lost
  uncounted : s'.uncounted = s.uncounted
  interrupted : s'.interrupted = s.interrupted

theorem Frame.refl (s : Shared) : Frame s s := ⟨rfl,rfl,rfl,rfl⟩

theorem saveBatch_frame (s : Shared) (caller : Caller) (b : Batch) (o : SaveOutcome) :
    Frame s (saveBatch s caller b o) ∧ (saveBatch s caller b o).pulled = s.pulled ∧
      (saveBatch s caller b o).unfinished = s.unfinished ∧
      (saveBatch s caller b o).batchBuffer = s.batchBuffer := by
  cases o <;> exact ⟨⟨rfl,rfl,rfl,rfl⟩,rfl,rfl,rfl⟩

theorem consumes_frame (cfg : Config) (s s' : Shared) (c c' : Consumer)
    (l : ConsumerLabel) (h : Consumes cfg s c l c' s') : Frame s s' ∧ s'.pulled = s.pulled := by
  cases h with
  | saved r toSave o ho =>
    have hb := saveBatch_frame s .consumer toSave o
    exact ⟨⟨hb.1.shutdown,hb.1.lost,hb.1.uncounted,hb.1.interrupted⟩,hb.2.1⟩
  | _ => exact ⟨⟨rfl,rfl,rfl,rfl⟩,rfl⟩

theorem flushes_frame (s s' : Shared) (p p' : Flusher) (h : Flushes s p p' s') :
    Frame s s' ∧ s'.pulled = s.pulled ∧ s'.unfinished = s.unfinished := by
  cases h with
  | saved toSave o ho =>
    have hb := saveBatch_frame s .flusher toSave o
    exact ⟨hb.1,hb.2.1,hb.2.2.1⟩
  | _ => exact ⟨⟨rfl,rfl,rfl,rfl⟩,rfl,rfl⟩

theorem produce_frame (cfg : Config) (s s' : Shared) (p p' : Producer)
    (h : produce cfg s p = some (p',s')) :
    Frame s s' ∧ s'.pulled + (remaining p').length = s.pulled + (remaining p).length ∧
      (p' = .failed → cfg.sourceRaises = true) ∧ p ≠ .finished ∧ p ≠ .failed := by
  cases p with
  | streaming lines =>
    cases lines with
    | nil =>
      cases h
      by_cases hr : cfg.sourceRaises = true <;> simp [hr, Frame.refl, remaining]
    | cons l ls =>
      cases h
      exact ⟨⟨rfl,rfl,rfl,rfl⟩,by simp [remaining]; omega,by simp,by simp,by simp⟩
  | putting r ls =>
    by_cases hroom : s.queue.length < cfg.queueSize
    · rw [produce, if_pos hroom] at h
      cases h
      exact ⟨⟨rfl,rfl,rfl,rfl⟩,rfl,by simp,by simp,by simp⟩
    · simp [produce, hroom] at h
  | finished => simp [produce] at h
  | failed => simp [produce] at h

theorem running_main (cfg : Config) (lines : List String) (s : State) (hs : Phases cfg lines s)
    (hup : s.shared.shutdown = false) : s.main = .awaiting ∨ s.main = .joining := by
  have hm := hs.shutdown
  rw [hup] at hm
  cases hmain : s.main <;> simp [hmain, cancelling] at hm ⊢

theorem produce_phases (cfg : Config) (lines : List String) (s : State) (p : Producer)
    (sh : Shared) (hs : Phases cfg lines s) (h : produce cfg s.shared s.producer = some (p,sh)) :
    Phases cfg lines { s with producer := p, shared := sh } := by
  obtain ⟨hf,hsource,hraises,hlive,hlive'⟩ := produce_frame cfg s.shared sh s.producer p h
  have hup : s.shared.shutdown = false := by
    by_contra hd
    rcases hs.joined (by simpa using hd) with hp | hp
    · exact hlive' hp
    · exact hlive hp.1
  have hmain : s.main = .awaiting :=
    (running_main cfg lines s hs hup).resolve_right (fun hm => hlive (hs.joining hm))
  have hun := hs.unharmed (Or.inr hlive')
  constructor
  · exact hsource.trans hs.source
  · exact hraises
  · exact hf.shutdown.trans hs.shutdown
  · simp [hmain]
  · simp [hf.shutdown, hup]
  · simp [hmain, ExecutorPhases.gathered]
  · simp [hmain, ExecutorPhases.emptied]
  · simp [hmain]
  · intro _
    exact ⟨hf.lost.trans hun.1,hf.uncounted.trans hun.2.1,hf.interrupted.trans hun.2.2⟩

theorem consumes_phases (cfg : Config) (lines : List String) (s : State) (i : ℕ)
    (c c' : Consumer) (l : ConsumerLabel) (sh : Shared) (hs : Phases cfg lines s)
    (hup : s.shared.shutdown = false) (h : Consumes cfg s.shared c l c' sh) :
    Phases cfg lines { s with consumers := s.consumers.set i c', shared := sh } := by
  obtain ⟨hf,hpulled⟩ := consumes_frame cfg s.shared sh c c' l h
  have hmain := running_main cfg lines s hs hup
  constructor
  · exact hpulled ▸ hs.source
  · exact hs.raises
  · exact hf.shutdown.trans hs.shutdown
  · exact hs.joining
  · simp [hf.shutdown, hup]
  · rcases hmain with hm | hm <;> simp [hm, ExecutorPhases.gathered]
  · rcases hmain with hm | hm <;> simp [hm, ExecutorPhases.emptied]
  · exact hs.returned
  · intro _
    have hun := hs.unharmed (Or.inl hup)
    exact ⟨hf.lost.trans hun.1,hf.uncounted.trans hun.2.1,hf.interrupted.trans hun.2.2⟩

/-- A consumer with a record in hand is one of the unfinished tasks. -/
theorem busy_unfinished (s : State) (i : ℕ) (c : Consumer) (hs : Ledger s)
    (hi : s.consumers[i]? = some c) : (consumerHolding c).busy ≤ s.shared.unfinished := by
  have hmem : consumerHolding c ∈ tasks s :=
    List.mem_of_getElem? (tasks_consumer s i c c s.shared hi).1
  have hun := hs.unfinished
  have hle := le_tally Holding.busy (tasks s) _ hmem
  omega

theorem unwind_frame (s s' : Shared) (landed : Bool) (c : Consumer)
    (h : unwind s landed c = some s') : s'.shutdown = s.shutdown ∧ s'.pulled = s.pulled ∧
      s'.batchBuffer = s.batchBuffer ∧ s'.unfinished ≤ s.unfinished := by
  cases c with
  | getting =>
    cases h
    exact ⟨rfl,rfl,rfl,le_rfl⟩
  | staging r k =>
    cases h
    exact ⟨rfl,rfl,rfl,Nat.sub_le _ _⟩
  | flushing r =>
    cases h
    exact ⟨rfl,rfl,rfl,Nat.sub_le _ _⟩
  | saving r toSave => cases landed <;> cases h <;> exact ⟨rfl,rfl,rfl,Nat.sub_le _ _⟩
  | exited => simp [unwind] at h

theorem unwind_phases (cfg : Config) (lines : List String) (s : State) (i : ℕ) (landed : Bool)
    (c : Consumer) (sh : Shared) (hl : Ledger s) (hs : Phases cfg lines s)
    (hdown : s.shared.shutdown = true) (hi : s.consumers[i]? = some c)
    (h : unwind s.shared landed c = some sh) :
    Phases cfg lines { s with consumers := s.consumers.set i .exited, shared := sh } := by
  obtain ⟨hshut,hpulled,hbuffer,hle⟩ := unwind_frame s.shared sh landed c h
  have hlive : c ≠ .exited := by
    intro hc
    simp [hc, unwind] at h
  constructor
  · exact hpulled ▸ hs.source
  · exact hs.raises
  · exact hshut.trans hs.shutdown
  · exact hs.joining
  · intro _
    rcases hs.joined hdown with hp | ⟨hp,hu⟩
    · exact Or.inl hp
    · exact Or.inr ⟨hp,by change sh.unfinished = 0; omega⟩
  · intro hg
    exact absurd ((hs.gathered hg).1 c (List.mem_of_getElem? hi)) hlive
  · intro he
    exact hbuffer.trans (hs.emptied he)
  · exact hs.returned
  · intro hp
    -- the queue was joined: a consumer that unwinds has no record in hand
    have hp' : s.producer ≠ .failed := hp.resolve_left (by simp [hshut, hdown])
    have hu := (hs.joined hdown).resolve_left hp'
    have hbusy := busy_unfinished s i c hl hi
    have hun := hs.unharmed (Or.inr hp')
    cases c with
    | getting => exact Option.some.inj h ▸ hun
    | exited => exact absurd rfl hlive
    | _ =>
      simp only [consumerHolding] at hbusy
      omega

theorem flushes_phases (cfg : Config) (lines : List String) (s : State) (p : Flusher)
    (sh : Shared) (hs : Phases cfg lines s) (h : Flushes s.shared s.flusher p sh) :
    Phases cfg lines { s with flusher := p, shared := sh } := by
  obtain ⟨hf,hpulled,hunf⟩ := flushes_frame s.shared sh s.flusher p h
  have hlive : ¬ gathered s.main = true := by
    intro hg
    rw [(hs.gathered hg).2] at h
    cases h
  constructor
  · exact hpulled ▸ hs.source
  · exact hs.raises
  · exact hf.shutdown.trans hs.shutdown
  · exact hs.joining
  · intro hd
    rcases hs.joined (hf.shutdown ▸ hd) with hp | ⟨hp,hu⟩
    · exact Or.inl hp
    · exact Or.inr ⟨hp,hunf.trans hu⟩
  · exact fun hg => absurd hg hlive
  · intro he
    cases hm : s.main <;> simp [hm, ExecutorPhases.gathered, ExecutorPhases.emptied] at hlive he
  · exact hs.returned
  · intro hp
    have hun := hs.unharmed (hf.shutdown ▸ hp)
    exact ⟨hf.lost.trans hun.1,hf.uncounted.trans hun.2.1,hf.interrupted.trans hun.2.2⟩

theorem ending_spec (p : Producer) :
    gathered (ending p) = true ∧ (ending p = .returned → p ≠ .failed) := by
  cases p <;> simp [ending, gathered]

theorem ending_phases (cfg : Config) (lines : List String) (s : State) (m : Main) (sh : Shared)
    (hs : Phases cfg lines s) (hg : gathered s.main = true) (hf : Frame s.shared sh)
    (hpulled : sh.pulled = s.shared.pulled) (hunf : sh.unfinished = s.shared.unfinished)
    (hbuffer : sh.batchBuffer = []) (hm : gathered m = true)
    (hret : m = .returned → s.producer ≠ .failed) :
    Phases cfg lines { s with main := m, shared := sh } := by
  have hdown : cancelling s.main = true ∧ cancelling m = true := by
    constructor
    · cases h : s.main <;> simp [h, ExecutorPhases.gathered, cancelling] at hg ⊢
    · cases h : m <;> simp [h, ExecutorPhases.gathered, cancelling] at hm ⊢
  constructor
  · exact hpulled ▸ hs.source
  · exact hs.raises
  · exact hf.shutdown.trans (hs.shutdown.trans (hdown.1.trans hdown.2.symm))
  · intro hj
    change m = .joining at hj
    simp [hj, ExecutorPhases.gathered] at hm
  · intro hd
    rcases hs.joined (hf.shutdown ▸ hd) with hp | ⟨hp,hu⟩
    · exact Or.inl hp
    · exact Or.inr ⟨hp,hunf.trans hu⟩
  · exact fun _ => hs.gathered hg
  · exact fun _ => hbuffer
  · exact hret
  · intro hp
    have hun := hs.unharmed (hf.shutdown ▸ hp)
    exact ⟨hf.lost.trans hun.1,hf.uncounted.trans hun.2.1,hf.interrupted.trans hun.2.2⟩

theorem runs_phases (cfg : Config) (lines : List String) (s : State) (m : Main) (sh : Shared)
    (hs : Phases cfg lines s) (h : Runs s s.main m sh) :
    Phases cfg lines { s with main := m, shared := sh } := by
  have hend := ending_spec s.producer
  generalize hmain : s.main = m₀ at h
  cases h with
  | exhausted hp =>
    have hdown : s.shared.shutdown = false := by simp [hs.shutdown, hmain, cancelling]
    have hsource : s.shared.pulled + (remaining .finished).length = lines.length := hp ▸ hs.source
    constructor <;> simp [hsource, hp, hdown, ExecutorPhases.gathered, ExecutorPhases.emptied,
      cancelling, hs.unharmed]
  | sourceFailed hp =>
    have hsource : s.shared.pulled + (remaining .failed).length = lines.length := hp ▸ hs.source
    constructor <;> simp [hsource, hs.raises, hp, ExecutorPhases.gathered,
      ExecutorPhases.emptied, cancelling]
  | joined hu =>
    have hp := hs.joining hmain
    have hsource : s.shared.pulled + (remaining .finished).length = lines.length := hp ▸ hs.source
    constructor <;> simp [hsource, hp, hu, ExecutorPhases.gathered, ExecutorPhases.emptied,
      cancelling, hs.unharmed]
  | gathered hc hf =>
    have hdown : s.shared.shutdown = true := by simp [hs.shutdown, hmain, cancelling]
    constructor
    · exact hs.source
    · exact hs.raises
    · exact hdown
    · simp
    · exact hs.joined
    · exact fun _ => ⟨hc,hf⟩
    · simp [ExecutorPhases.emptied]
    · simp
    · exact hs.unharmed
  | nothing hb =>
    exact ending_phases cfg lines s _ s.shared hs (by simp [hmain, ExecutorPhases.gathered])
      (Frame.refl s.shared) rfl rfl hb hend.1 hend.2
  | swapped hb =>
    exact ending_phases cfg lines s _ _ hs (by simp [hmain, ExecutorPhases.gathered])
      ⟨rfl,rfl,rfl,rfl⟩ rfl rfl rfl rfl (by simp)
  | saved toSave o ho =>
    have hf := saveBatch_frame s.shared .run toSave o
    have hbuffer := hs.emptied (by simp [hmain, ExecutorPhases.emptied])
    exact ending_phases cfg lines s _ _ hs (by simp [hmain, ExecutorPhases.gathered])
      hf.1 hf.2.1 hf.2.2.1 (hf.2.2.2.trans hbuffer) hend.1 hend.2
  | crashed toSave =>
    have hf := saveBatch_frame s.shared .run toSave .unexpected
    have hbuffer := hs.emptied (by simp [hmain, ExecutorPhases.emptied])
    exact ending_phases cfg lines s _ _ hs (by simp [hmain, ExecutorPhases.gathered])
      hf.1 hf.2.1 hf.2.2.1 (hf.2.2.2.trans hbuffer) rfl (by simp)

theorem step_inv (cfg : Config) (lines : List String) (s t : State) (l : Label)
    (hs : Inv cfg lines s) (hstep : step cfg s l = some t) : Inv cfg lines t := by
  have hmoves := step_moves cfg s t l hstep
  constructor
  · exact step_ledger cfg s t l hs.ledger hmoves
  · exact step_kept cfg s t l hs.kept hmoves
  · cases hmoves with
    | producer p sh h => exact produce_phases cfg lines s p sh hs.phases h
    | consumer i l c c' sh hrun hi h =>
      exact consumes_phases cfg lines s i c c' l sh hs.phases hrun h
    | cancelled i landed c sh hdown hi h =>
      exact unwind_phases cfg lines s i landed c sh hs.ledger hs.phases hdown hi h
    | flusher l p sh h => exact flushes_phases cfg lines s p sh hs.phases h
    | main l m sh h => exact runs_phases cfg lines s m sh hs.phases h

theorem run_inv (cfg : Config) (lines : List String) (ls : List Label) (t : State)
    (hrun : run (step cfg) (initial cfg lines) ls = some t) : Inv cfg lines t :=
  run_invariant (step cfg) (Inv cfg lines) (fun s l t hs => step_inv cfg lines s t l hs)
    ⟨initial_ledger cfg lines,⟨rfl,rfl⟩,initial_phases cfg lines⟩ hrun

end PipelineX.ExecutorPhases
