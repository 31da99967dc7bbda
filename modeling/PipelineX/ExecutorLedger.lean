import PipelineX.ExecutorSteps

/-!
# Conservation laws of the executor

Every record that was pulled is in one place: in a task's hands, on the
queue, dropped, lost or passed. Every record that passed is in one place: in
the buffer, in a batch that a task is saving, or in a batch whose save is
over. The counters and the queue's count of unfinished tasks follow. Each
task's step keeps these laws for the task and the shared state alone.
-/

set_option autoImplicit false

namespace PipelineX.ExecutorLedger
open PipelineX.Records PipelineX.Stages PipelineX.TransitionSystem PipelineX.Tally
open PipelineX.Executor PipelineX.ExecutorSteps

/-- What one task holds: records on their way to the buffer, a batch that it
has swapped out, whether it owes a `task_done`, and whether it owes a count. -/
structure Holding where
  inStages : List LogRecord := []
  toSave : List LogRecord := []
  busy : ℕ := 0
  owes : ℕ := 0

def Holding.add (h k : Holding) : Holding where
  inStages := h.inStages ++ k.inStages
  toSave := h.toSave ++ k.toSave
  busy := h.busy + k.busy
  owes := h.owes + k.owes

def producerHolding : Producer → Holding
  | .putting r _ => { inStages := [r] }
  | _ => {}

def consumerHolding : Consumer → Holding
  | .staging r _ => { inStages := [r], busy := 1 }
  | .flushing _ => { busy := 1, owes := 1 }
  | .saving _ toSave => { toSave := toSave.records, busy := 1, owes := 1 }
  | _ => {}

def flusherHolding : Flusher → Holding
  | .saving toSave => { toSave := toSave.records }
  | _ => {}

def mainHolding : Main → Holding
  | .saving toSave => { toSave := toSave.records }
  | _ => {}

def tasks (s : State) : List Holding :=
  producerHolding s.producer :: flusherHolding s.flusher :: mainHolding s.main ::
    s.consumers.map consumerHolding

def weigh (f : UUID → ℕ) (rs : List LogRecord) : ℕ := tally (fun r => f r.id) rs

def placed (f : UUID → ℕ) (s : Shared) : ℕ :=
  weigh f s.queue + weigh f s.dropped + weigh f s.lost + weigh f s.passed

def settled (g : LogRecord → ℕ) (s : Shared) : ℕ :=
  tally g s.batchBuffer + tally g s.interrupted + tally (fun c => tally g c.toSave.records) s.saves

/-- The size of a batch that the executor counts as failed. -/
def rejected (c : SaveCall) : ℕ := if c.outcome = .repositoryError then c.toSave.records.length else 0

/-- One for a save whose exception a consumer counts against its own record. -/
def crash (c : SaveCall) : ℕ := if c.outcome = .unexpected ∧ c.caller = .consumer then 1 else 0

def credit (s : Shared) : ℤ :=
  s.recordsProcessed + s.uncounted.length + tally rejected s.saves + tally crash s.saves -
    s.passed.length

def debit (s : Shared) : ℤ :=
  s.recordsFailed - s.dropped.length - tally rejected s.saves - tally crash s.saves

/-- The laws that a step of one task keeps between it and the shared state. -/
structure Conserves (s : Shared) (h : Holding) (s' : Shared) (h' : Holding) : Prop where
  placed : ∀ f, tally f (List.range s'.pulled) + (placed f s + weigh f h.inStages) =
    tally f (List.range s.pulled) + (placed f s' + weigh f h'.inStages)
  settled : ∀ g, tally g s'.passed + (settled g s + tally g h.toSave) =
    tally g s.passed + (settled g s' + tally g h'.toSave)
  credit : credit s' + h'.owes = credit s + h.owes
  debit : debit s' = debit s
  unfinished : s.queue.length + h.busy ≤ s.unfinished →
    s'.unfinished + (s.queue.length + h.busy) = s.unfinished + (s'.queue.length + h'.busy)

theorem Conserves.refl (s : Shared) (h : Holding) : Conserves s h s h :=
  ⟨fun _ => rfl,fun _ => rfl,rfl,rfl,fun _ => rfl⟩

theorem Conserves.trans {s s' s'' : Shared} {h h' h'' : Holding} (h1 : Conserves s h s' h')
    (h2 : Conserves s' h' s'' h'') : Conserves s h s'' h'' := by
  constructor
  · intro f
    have p1 := h1.placed f
    have p2 := h2.placed f
    omega
  · intro g
    have p1 := h1.settled g
    have p2 := h2.settled g
    omega
  · exact h2.credit.trans h1.credit
  · exact h2.debit.trans h1.debit
  · intro hle
    have p1 := h1.unfinished hle
    have p2 := h2.unfinished (by omega)
    omega

/-- What else the task holds has no part in a step. -/
theorem Conserves.frame {s s' : Shared} {h h' : Holding} (k : Holding)
    (hc : Conserves s h s' h') : Conserves s (k.add h) s' (k.add h') := by
  constructor
  · intro f
    have hp := hc.placed f
    simp only [Holding.add, weigh, tally_append] at hp ⊢
    omega
  · intro g
    have hp := hc.settled g
    simp only [Holding.add, tally_append]
    omega
  · have hp := hc.credit
    simp only [Holding.add]
    omega
  · exact hc.debit
  · intro hle
    simp only [Holding.add] at hle ⊢
    have hp := hc.unfinished (by omega)
    omega

theorem pulled_conserves (s : Shared) (r : LogRecord) (hid : r.id = s.pulled) :
    Conserves s {} { s with pulled := s.pulled+1 } { inStages := [r] } := by
  refine ⟨fun f => ?_,fun _ => rfl,rfl,rfl,fun _ => rfl⟩
  simp only [placed, weigh, List.range_succ, tally_append, tally_cons, tally_nil, hid]
  omega

theorem put_conserves (s : Shared) (r : LogRecord) :
    Conserves s { inStages := [r] }
      { s with queue := s.queue ++ [r], unfinished := s.unfinished+1 } {} := by
  refine ⟨fun f => ?_,fun _ => rfl,rfl,rfl,fun _ => ?_⟩
  · simp only [placed, weigh, tally_append, tally_cons, tally_nil]
    omega
  · simp only [List.length_append, List.length_singleton]
    omega

theorem get_conserves (s : Shared) (r : LogRecord) (queue : List LogRecord)
    (hq : s.queue = r::queue) :
    Conserves s {} { s with queue } { inStages := [r], busy := 1 } := by
  refine ⟨fun f => ?_,fun _ => rfl,rfl,rfl,fun _ => ?_⟩
  · simp only [placed, weigh, hq, tally_cons, tally_nil]
    omega
  · simp only [hq, List.length_cons]

/-- A stage hands on the id it was given. -/
theorem called_conserves (s : Shared) (name : String) (r r' : LogRecord) (hid : r'.id = r.id) :
    Conserves s { inStages := [r] } (called s name r) { inStages := [r'.markStage name] } := by
  refine ⟨fun f => ?_,fun _ => rfl,rfl,rfl,fun _ => rfl⟩
  simp [placed, weigh, called, LogRecord.markStage, hid]

theorem dropped_conserves (s : Shared) (name : String) (r : LogRecord) :
    Conserves s { inStages := [r] }
      (countFailed { called s name r with dropped := s.dropped ++ [r] }) {} := by
  refine ⟨fun f => ?_,fun _ => rfl,rfl,?_,fun _ => rfl⟩
  · simp only [placed, weigh, countFailed, called, tally_append, tally_cons, tally_nil]
    omega
  · simp only [debit, countFailed, called, List.length_append, List.length_singleton]
    omega

theorem lost_conserves (s : Shared) (r : LogRecord) :
    Conserves s { inStages := [r] } { s with lost := s.lost ++ [r] } {} := by
  refine ⟨fun f => ?_,fun _ => rfl,rfl,rfl,fun _ => rfl⟩
  simp only [placed, weigh, tally_append, tally_cons, tally_nil]
  omega

/-- From here on a count is owed for the record. -/
theorem buffered_conserves (s : Shared) (r : LogRecord) :
    Conserves s { inStages := [r] } (buffered s r) { owes := 1 } := by
  refine ⟨fun f => ?_,fun g => ?_,?_,rfl,fun _ => rfl⟩
  · simp only [placed, weigh, buffered, tally_append, tally_cons, tally_nil]
    omega
  · simp only [settled, buffered, tally_append, tally_cons, tally_nil]
    omega
  · simp only [credit, buffered, List.length_append, List.length_singleton]
    omega

theorem swap_conserves (s : Shared) (b : Batch) (hb : b.records = s.batchBuffer) :
    Conserves s {} (swapped s b) { toSave := b.records } := by
  refine ⟨fun _ => rfl,fun g => ?_,rfl,rfl,fun _ => rfl⟩
  simp only [settled, swapped, hb, tally_nil]
  omega

/-- A save whose exception no consumer counts. -/
theorem save_conserves (s : Shared) (caller : Caller) (b : Batch) (o : SaveOutcome)
    (hc : o ≠ .unexpected ∨ caller ≠ .consumer) :
    Conserves s { toSave := b.records } (saveBatch s caller b o) {} := by
  have hcrash : crash ⟨caller,b,o⟩ = 0 := if_neg (by tauto)
  constructor
  · intro f
    cases o <;> rfl
  · intro g
    cases o <;> simp only [settled, saveBatch, tally_append, tally_cons, tally_nil] <;> omega
  · cases o <;> simp [credit, saveBatch, rejected, hcrash]
    omega
  · cases o <;> simp [debit, saveBatch, rejected, hcrash]
    omega
  · cases o <;> exact fun _ => rfl

/-- An exception that is no `RepositoryError`, counted by the consumer that
made the save. -/
theorem crash_conserves (s : Shared) (b : Batch) :
    Conserves s { toSave := b.records, owes := 1 }
      (countFailed (saveBatch s .consumer b .unexpected)) {} := by
  refine ⟨fun _ => rfl,fun g => ?_,?_,?_,fun _ => rfl⟩
  · simp only [settled, countFailed, saveBatch, tally_append, tally_cons, tally_nil]
    omega
  · simp [credit, countFailed, saveBatch, rejected, crash]
    omega
  · simp [debit, countFailed, saveBatch, rejected, crash]
    omega

theorem interrupted_conserves (s : Shared) (b : Batch) :
    Conserves s { toSave := b.records }
      { s with interrupted := s.interrupted ++ b.records } {} := by
  refine ⟨fun _ => rfl,fun g => ?_,rfl,rfl,fun _ => rfl⟩
  simp only [settled, tally_append, tally_nil]
  omega

theorem uncounted_conserves (s : Shared) (r : LogRecord) :
    Conserves s { owes := 1 } { s with uncounted := s.uncounted ++ [r] } {} := by
  refine ⟨fun _ => rfl,fun _ => rfl,?_,rfl,fun _ => rfl⟩
  simp only [credit, List.length_append, List.length_singleton]
  omega

theorem counted_conserves (s : Shared) : Conserves s { owes := 1 } (countProcessed s) {} := by
  refine ⟨fun _ => rfl,fun _ => rfl,?_,rfl,fun _ => rfl⟩
  simp only [credit, countProcessed]
  omega

theorem taskDone_conserves (s : Shared) : Conserves s { busy := 1 } (taskDone s) {} := by
  refine ⟨fun _ => rfl,fun _ => rfl,rfl,rfl,fun hle => ?_⟩
  simp only [taskDone] at hle ⊢
  omega

/-- A consumer counts its record and is done with it. -/
theorem finished_conserves (s : Shared) :
    Conserves s { busy := 1, owes := 1 } (taskDone (countProcessed s)) {} :=
  ((counted_conserves s).frame { busy := 1 }).trans (taskDone_conserves (countProcessed s))

theorem produce_conserves (cfg : Config) (s s' : Shared) (p p' : Producer)
    (h : produce cfg s p = some (p',s')) :
    Conserves s (producerHolding p) s' (producerHolding p') := by
  cases p with
  | streaming lines =>
    cases lines with
    | nil =>
      cases h
      have hidle : producerHolding (if cfg.sourceRaises then .failed else .finished) = {} := by
        split <;> rfl
      rw [hidle]
      exact Conserves.refl s {}
    | cons l ls =>
      cases h
      exact pulled_conserves s (shell cfg s.pulled l) rfl
  | putting r ls =>
    simp only [produce] at h
    split at h
    · cases h
      exact put_conserves s r
    · cases h
  | finished => cases h
  | failed => cases h

theorem consume_conserves (cfg : Config) (s s' : Shared) (c c' : Consumer)
    (l : ConsumerLabel) (h : Consumes cfg s c l c' s') :
    Conserves s (consumerHolding c) s' (consumerHolding c') := by
  cases h with
  | timeout => exact Conserves.refl s {}
  | get r queue hq => exact get_conserves s r queue hq
  | raised r k name e hk =>
    exact ((dropped_conserves s name r).frame { busy := 1 }).trans (taskDone_conserves _)
  | staged r r' k name hk hid => exact (called_conserves s name r r' hid).frame { busy := 1 }
  | buffered r hroom =>
    exact ((buffered_conserves s r).frame { busy := 1 }).trans (finished_conserves _)
  | filled r hfull => exact (buffered_conserves s r).frame { busy := 1 }
  | nothing r hb => exact finished_conserves s
  | swapped r hb =>
    exact (swap_conserves s ⟨s.batchBuffer,hb⟩ rfl).frame { busy := 1, owes := 1 }
  | saved r toSave o ho =>
    have hsave := save_conserves s .consumer toSave o (Or.inl ho)
    exact (hsave.frame { busy := 1, owes := 1 }).trans (finished_conserves _)
  | crashed r toSave =>
    exact ((crash_conserves s toSave).frame { busy := 1 }).trans (taskDone_conserves _)

theorem unwind_conserves (s s' : Shared) (landed : Bool) (c : Consumer)
    (h : unwind s landed c = some s') :
    Conserves s (consumerHolding c) s' (consumerHolding .exited) := by
  cases c with
  | getting =>
    cases h
    exact Conserves.refl s {}
  | staging r k =>
    cases h
    exact ((lost_conserves s r).frame { busy := 1 }).trans (taskDone_conserves _)
  | flushing r =>
    cases h
    exact ((uncounted_conserves s r).frame { busy := 1 }).trans (taskDone_conserves _)
  | saving r toSave =>
    -- the batch is settled first, then the record that is not counted
    have hrest (t : Shared) : Conserves t { busy := 1, owes := 1 }
        (taskDone { t with uncounted := t.uncounted ++ [r] }) {} :=
      ((uncounted_conserves t r).frame { busy := 1 }).trans (taskDone_conserves _)
    cases landed with
    | false =>
      cases h
      exact ((interrupted_conserves s toSave).frame { busy := 1, owes := 1 }).trans (hrest _)
    | true =>
      cases h
      have hsave := save_conserves s .consumer toSave .stored (Or.inl (by simp))
      exact (hsave.frame { busy := 1, owes := 1 }).trans (hrest _)
  | exited => cases h

theorem flusherLoop_holding (s : Shared) : flusherHolding (flusherLoop s) = {} := by
  unfold flusherLoop
  split <;> rfl

theorem ending_holding (p : Producer) : mainHolding (ending p) = {} := by
  cases p <;> rfl

theorem flushes_conserves (s s' : Shared) (p p' : Flusher) (h : Flushes s p p' s') :
    Conserves s (flusherHolding p) s' (flusherHolding p') := by
  cases h with
  | tick => exact Conserves.refl s {}
  | nothing hb =>
    rw [flusherLoop_holding]
    exact Conserves.refl s {}
  | swapped hb => exact swap_conserves s ⟨s.batchBuffer,hb⟩ rfl
  | saved toSave o ho =>
    rw [flusherLoop_holding]
    exact save_conserves s .flusher toSave o (Or.inl ho)
  | crashed toSave => exact save_conserves s .flusher toSave .unexpected (Or.inr (by simp))

theorem shutdown_conserves (s : Shared) : Conserves s {} { s with shutdown := true } {} :=
  ⟨fun _ => rfl,fun _ => rfl,rfl,rfl,fun _ => rfl⟩

theorem runs_conserves (s : State) (s' : Shared) (m m' : Main) (h : Runs s m m' s') :
    Conserves s.shared (mainHolding m) s' (mainHolding m') := by
  cases h with
  | exhausted hp => exact Conserves.refl s.shared {}
  | sourceFailed hp => exact shutdown_conserves s.shared
  | joined hu => exact shutdown_conserves s.shared
  | gathered hc hf => exact Conserves.refl s.shared {}
  | nothing hb =>
    rw [ending_holding]
    exact Conserves.refl s.shared {}
  | swapped hb => exact swap_conserves s.shared ⟨s.shared.batchBuffer,hb⟩ rfl
  | saved toSave o ho =>
    rw [ending_holding]
    exact save_conserves s.shared .run toSave o (Or.inl ho)
  | crashed toSave => exact save_conserves s.shared .run toSave .unexpected (Or.inr (by simp))

theorem tasks_consumer (s : State) (i : ℕ) (c c' : Consumer) (sh : Shared)
    (hi : s.consumers[i]? = some c) :
    (tasks s)[i+3]? = some (consumerHolding c) ∧
    tasks { s with consumers := s.consumers.set i c', shared := sh } =
      (tasks s).set (i+3) (consumerHolding c') := by
  simp [tasks, hi, List.map_set]

/-- Every step is a step of one task, and that task keeps the laws. -/
theorem step_conserves (cfg : Config) (s t : State) (l : Label) (h : Moves cfg s l t) :
    ∃ i h h', (tasks s)[i]? = some h ∧ tasks t = (tasks s).set i h' ∧
      Conserves s.shared h t.shared h' := by
  cases h with
  | producer p sh h => exact ⟨0,_,_,rfl,rfl,produce_conserves cfg _ _ _ _ h⟩
  | consumer i l c c' sh hrun hi h =>
    have ht := tasks_consumer s i c c' sh hi
    exact ⟨i+3,_,_,ht.1,ht.2,consume_conserves cfg _ _ _ _ l h⟩
  | cancelled i landed c sh hdown hi h =>
    have ht := tasks_consumer s i c .exited sh hi
    exact ⟨i+3,_,_,ht.1,ht.2,unwind_conserves _ _ landed c h⟩
  | flusher l p sh h => exact ⟨1,_,_,rfl,rfl,flushes_conserves _ _ _ _ h⟩
  | main l m sh h => exact ⟨2,_,_,rfl,rfl,runs_conserves s _ _ _ h⟩

structure Ledger (s : State) : Prop where
  placed : ∀ f, tally f (List.range s.shared.pulled) =
    placed f s.shared + tally (fun h => weigh f h.inStages) (tasks s)
  settled : ∀ g, tally g s.shared.passed =
    settled g s.shared + tally (fun h => tally g h.toSave) (tasks s)
  credit : credit s.shared + tally Holding.owes (tasks s) = 0
  debit : debit s.shared = 0
  unfinished : s.shared.unfinished = s.shared.queue.length + tally Holding.busy (tasks s)

theorem initial_ledger (cfg : Config) (lines : List String) : Ledger (initial cfg lines) := by
  have hidle (g : Holding → ℕ) (hg : g {} = 0) : tally g (tasks (initial cfg lines)) = 0 := by
    rw [tally_eq_zero]
    intro h hh
    have he : h = {} := by
      simpa [tasks, initial, producerHolding, flusherHolding, mainHolding, consumerHolding,
        cfg.workers_pos.ne'] using hh
    rw [he, hg]
  constructor
  · intro f
    rw [hidle _ rfl]
    rfl
  · intro g
    rw [hidle _ rfl]
    rfl
  · rw [hidle _ rfl]
    rfl
  · rfl
  · rw [hidle _ rfl]
    rfl

theorem step_ledger (cfg : Config) (s t : State) (l : Label) (hs : Ledger s)
    (h : Moves cfg s l t) : Ledger t := by
  obtain ⟨i,a,b,hi,ht,hc⟩ := step_conserves cfg s t l h
  have hset (g : Holding → ℕ) : tally g (tasks t) + g a = tally g (tasks s) + g b := by
    rw [ht]
    exact tally_set g (tasks s) i a b hi
  constructor
  · intro f
    have h1 := hs.placed f
    have h2 := hc.placed f
    have h3 := hset (fun h => weigh f h.inStages)
    omega
  · intro g
    have h1 := hs.settled g
    have h2 := hc.settled g
    have h3 := hset (fun h => tally g h.toSave)
    omega
  · have h1 := hs.credit
    have h2 := hc.credit
    have h3 := hset Holding.owes
    omega
  · exact hc.debit.trans hs.debit
  · have h1 := hs.unfinished
    have h3 := hset Holding.busy
    have hle : a.busy ≤ tally Holding.busy (tasks s) := by
      have h4 := tally_set Holding.busy (tasks s) i a {} hi
      change _ + a.busy = _ + 0 at h4
      omega
    have h2 := hc.unfinished (by omega)
    omega

/-- What the batches and the repository have of the records that passed. -/
structure Kept (s : Shared) : Prop where
  stored : s.stored =
    (s.saves.filter (fun c => c.outcome = .stored)).flatMap (fun c => c.toSave.records)
  passed : s.passed = s.swaps.flatMap Batch.records ++ s.batchBuffer

theorem saveBatch_kept (s : Shared) (caller : Caller) (b : Batch) (o : SaveOutcome)
    (hs : Kept s) : Kept (saveBatch s caller b o) := by
  have hstored := hs.stored
  cases o with
  | stored => exact ⟨by simp [saveBatch, hstored],hs.passed⟩
  | repositoryError => exact ⟨by simp [saveBatch, hstored],hs.passed⟩
  | unexpected => exact ⟨by simp [saveBatch, hstored],hs.passed⟩

theorem buffered_kept (s : Shared) (r : LogRecord) (hs : Kept s) : Kept (buffered s r) :=
  ⟨hs.stored,by simp [buffered, hs.passed]⟩

theorem swapped_kept (s : Shared) (b : Batch) (hb : b.records = s.batchBuffer) (hs : Kept s) :
    Kept (swapped s b) :=
  ⟨hs.stored,by simp [swapped, hs.passed, hb]⟩

theorem consumes_kept (cfg : Config) (s s' : Shared) (c c' : Consumer)
    (l : ConsumerLabel) (h : Consumes cfg s c l c' s') (hs : Kept s) : Kept s' := by
  cases h with
  | timeout => exact hs
  | get r queue hq => exact ⟨hs.stored,hs.passed⟩
  | raised r k name e hk => exact ⟨hs.stored,hs.passed⟩
  | staged r r' k name hk hid => exact ⟨hs.stored,hs.passed⟩
  | buffered r hroom =>
    have hb := buffered_kept s r hs
    exact ⟨hb.stored,hb.passed⟩
  | filled r hfull => exact buffered_kept s r hs
  | nothing r hb => exact ⟨hs.stored,hs.passed⟩
  | swapped r hb => exact swapped_kept s ⟨s.batchBuffer,hb⟩ rfl hs
  | saved r toSave o ho =>
    have hb := saveBatch_kept s .consumer toSave o hs
    exact ⟨hb.stored,hb.passed⟩
  | crashed r toSave =>
    have hb := saveBatch_kept s .consumer toSave .unexpected hs
    exact ⟨hb.stored,hb.passed⟩

theorem unwind_kept (s s' : Shared) (landed : Bool) (c : Consumer)
    (h : unwind s landed c = some s') (hs : Kept s) : Kept s' := by
  cases c with
  | getting => exact Option.some.inj h ▸ hs
  | staging r k =>
    cases h
    exact ⟨hs.stored,hs.passed⟩
  | flushing r =>
    cases h
    exact ⟨hs.stored,hs.passed⟩
  | saving r toSave =>
    cases landed with
    | false =>
      cases h
      exact ⟨hs.stored,hs.passed⟩
    | true =>
      cases h
      have hb := saveBatch_kept s .consumer toSave .stored hs
      exact ⟨hb.stored,hb.passed⟩
  | exited => simp [unwind] at h

theorem flushes_kept (s s' : Shared) (p p' : Flusher) (h : Flushes s p p' s') (hs : Kept s) :
    Kept s' := by
  cases h with
  | tick => exact hs
  | nothing hb => exact hs
  | swapped hb => exact swapped_kept s ⟨s.batchBuffer,hb⟩ rfl hs
  | saved toSave o ho => exact saveBatch_kept s .flusher toSave o hs
  | crashed toSave => exact saveBatch_kept s .flusher toSave .unexpected hs

theorem runs_kept (s : State) (s' : Shared) (m m' : Main) (h : Runs s m m' s')
    (hs : Kept s.shared) : Kept s' := by
  cases h with
  | exhausted hp => exact hs
  | sourceFailed hp => exact ⟨hs.stored,hs.passed⟩
  | joined hu => exact ⟨hs.stored,hs.passed⟩
  | gathered hc hf => exact hs
  | nothing hb => exact hs
  | swapped hb => exact swapped_kept s.shared ⟨s.shared.batchBuffer,hb⟩ rfl hs
  | saved toSave o ho => exact saveBatch_kept s.shared .run toSave o hs
  | crashed toSave => exact saveBatch_kept s.shared .run toSave .unexpected hs

theorem produce_kept (cfg : Config) (s s' : Shared) (p p' : Producer)
    (h : produce cfg s p = some (p',s')) (hs : Kept s) : Kept s' := by
  cases p with
  | streaming lines =>
    cases lines <;> cases h
    · exact hs
    · exact ⟨hs.stored,hs.passed⟩
  | putting r ls =>
    by_cases hroom : s.queue.length < cfg.queueSize
    · rw [produce, if_pos hroom] at h
      cases h
      exact ⟨hs.stored,hs.passed⟩
    · simp [produce, hroom] at h
  | finished => simp [produce] at h
  | failed => simp [produce] at h

theorem step_kept (cfg : Config) (s t : State) (l : Label) (hs : Kept s.shared)
    (h : Moves cfg s l t) : Kept t.shared := by
  cases h with
  | producer p sh h => exact produce_kept cfg _ _ _ _ h hs
  | consumer i l c c' sh hrun hi h => exact consumes_kept cfg _ _ _ _ l h hs
  | cancelled i landed c sh hdown hi h => exact unwind_kept _ _ landed c h hs
  | flusher l p sh h => exact flushes_kept _ _ _ _ h hs
  | main l m sh h => exact runs_kept s _ _ _ h hs

end PipelineX.ExecutorLedger
