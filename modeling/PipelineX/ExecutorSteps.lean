import PipelineX.Executor

/-!
# What each task of the executor can do

For each task the cases of its step, with what the case presupposes. Every
invariant of the executor is proved from these and none unfolds a step.
-/

set_option autoImplicit false

namespace PipelineX.ExecutorSteps
open PipelineX.Records PipelineX.Stages PipelineX.Executor

def buffered (s : Shared) (r : LogRecord) : Shared :=
  { s with batchBuffer := s.batchBuffer ++ [r], passed := s.passed ++ [r] }

def called (s : Shared) (name : String) (r : LogRecord) : Shared :=
  { s with calls := s.calls ++ [⟨name,r⟩] }

def swapped (s : Shared) (b : Batch) : Shared :=
  { s with batchBuffer := [], swaps := s.swaps ++ [b] }

theorem flushBatch_empty (s : Shared) (h : s.batchBuffer = []) : flushBatch s = (none,s) := by
  simp [flushBatch, h]

theorem flushBatch_some (s : Shared) (h : s.batchBuffer ≠ []) :
    flushBatch s = (some ⟨s.batchBuffer,h⟩,swapped s ⟨s.batchBuffer,h⟩) := by
  simp [flushBatch, h, swapped]

/-- Everything that a consumer's step can do. -/
inductive Consumes (cfg : Config) (s : Shared) :
    Consumer → ConsumerLabel → Consumer → Shared → Prop where
  | timeout : Consumes cfg s .getting .timeout .getting s
  | get (r : LogRecord) (queue : List LogRecord) (hq : s.queue = r::queue) :
      Consumes cfg s .getting .get (.staging r 0) { s with queue }
  | raised (r : LogRecord) (k : ℕ) (name : String) (e : PyError)
      (hk : cfg.stageNames[k]? = some name) :
      Consumes cfg s (.staging r k) (.stage (.error e)) .getting
        (taskDone (countFailed { called s name r with dropped := s.dropped ++ [r] }))
  | staged (r r' : LogRecord) (k : ℕ) (name : String) (hk : cfg.stageNames[k]? = some name)
      (hid : r'.id = r.id) :
      Consumes cfg s (.staging r k) (.stage (.ok r')) (.staging (r'.markStage name) (k+1))
        (called s name r)
  | buffered (r : LogRecord) (hroom : s.batchBuffer.length+1 < cfg.batchSize) :
      Consumes cfg s (.staging r cfg.stageNames.length) .buffer .getting
        (taskDone (countProcessed (buffered s r)))
  | filled (r : LogRecord) (hfull : cfg.batchSize ≤ s.batchBuffer.length+1) :
      Consumes cfg s (.staging r cfg.stageNames.length) .buffer (.flushing r) (buffered s r)
  | nothing (r : LogRecord) (hb : s.batchBuffer = []) :
      Consumes cfg s (.flushing r) .swap .getting (taskDone (countProcessed s))
  | swapped (r : LogRecord) (hb : s.batchBuffer ≠ []) :
      Consumes cfg s (.flushing r) .swap (.saving r ⟨s.batchBuffer,hb⟩)
        (swapped s ⟨s.batchBuffer,hb⟩)
  | saved (r : LogRecord) (toSave : Batch) (o : SaveOutcome) (ho : o ≠ .unexpected) :
      Consumes cfg s (.saving r toSave) (.saved o) .getting
        (taskDone (countProcessed (saveBatch s .consumer toSave o)))
  | crashed (r : LogRecord) (toSave : Batch) :
      Consumes cfg s (.saving r toSave) (.saved .unexpected) .getting
        (taskDone (countFailed (saveBatch s .consumer toSave .unexpected)))

theorem consume_cases (cfg : Config) (s s' : Shared) (c c' : Consumer) (l : ConsumerLabel)
    (h : consume cfg s c l = some (c',s')) : Consumes cfg s c l c' s' := by
  cases c with
  | getting =>
    cases l with
    | timeout =>
      cases h
      exact .timeout
    | get =>
      cases hq : s.queue with
      | nil => simp [consume, hq] at h
      | cons r queue =>
        simp only [consume, hq] at h
        cases h
        exact .get r queue hq
    | _ => simp [consume] at h
  | staging r k =>
    cases l with
    | stage out =>
      cases hk : cfg.stageNames[k]? with
      | none => simp [consume, hk] at h
      | some name =>
        simp only [consume, hk] at h
        cases out with
        | error e =>
          cases h
          exact .raised r k name e hk
        | ok r' =>
          by_cases hid : r'.id = r.id
          · simp only [hid, if_true] at h
            cases h
            exact .staged r r' k name hk hid
          · simp [hid] at h
    | buffer =>
      by_cases hk : k = cfg.stageNames.length
      · subst hk
        by_cases hfull : cfg.batchSize ≤ s.batchBuffer.length+1
        · simp only [consume, bufferForBatch, List.length_append, List.length_singleton, hfull,
            decide_true, if_true] at h
          cases h
          exact .filled r hfull
        · simp only [consume, bufferForBatch, List.length_append, List.length_singleton, hfull,
            decide_false, if_true] at h
          cases h
          exact .buffered r (by omega)
      · simp [consume, hk] at h
    | _ => simp [consume] at h
  | flushing r =>
    cases l with
    | swap =>
      by_cases hb : s.batchBuffer = []
      · simp only [consume, flushBatch_empty s hb] at h
        cases h
        exact .nothing r hb
      · simp only [consume, flushBatch_some s hb] at h
        cases h
        exact .swapped r hb
    | _ => simp [consume] at h
  | saving r toSave =>
    cases l with
    | saved o =>
      cases o with
      | stored =>
        cases h
        exact .saved r toSave .stored (by simp)
      | repositoryError =>
        cases h
        exact .saved r toSave .repositoryError (by simp)
      | unexpected =>
        cases h
        exact .crashed r toSave
    | _ => simp [consume] at h
  | exited => cases l <;> simp [consume] at h

inductive Flushes (s : Shared) : Flusher → Flusher → Shared → Prop where
  | tick : Flushes s .sleeping .flushing s
  | nothing (hb : s.batchBuffer = []) : Flushes s .flushing (flusherLoop s) s
  | swapped (hb : s.batchBuffer ≠ []) :
      Flushes s .flushing (.saving ⟨s.batchBuffer,hb⟩) (swapped s ⟨s.batchBuffer,hb⟩)
  | saved (toSave : Batch) (o : SaveOutcome) (ho : o ≠ .unexpected) :
      Flushes s (.saving toSave) (flusherLoop s) (saveBatch s .flusher toSave o)
  | crashed (toSave : Batch) :
      Flushes s (.saving toSave) .exited (saveBatch s .flusher toSave .unexpected)

theorem batchFlusher_cases (s s' : Shared) (p p' : Flusher) (l : FlusherLabel)
    (h : batchFlusher s p l = some (p',s')) : Flushes s p p' s' := by
  cases p with
  | sleeping =>
    cases l with
    | tick =>
      cases h
      exact .tick
    | _ => simp [batchFlusher] at h
  | flushing =>
    cases l with
    | swap =>
      by_cases hb : s.batchBuffer = []
      · simp only [batchFlusher, flushBatch_empty s hb] at h
        cases h
        exact .nothing hb
      · simp only [batchFlusher, flushBatch_some s hb] at h
        cases h
        exact .swapped hb
    | _ => simp [batchFlusher] at h
  | saving toSave =>
    cases l with
    | saved o =>
      cases o with
      | stored =>
        cases h
        exact .saved toSave .stored (by simp)
      | repositoryError =>
        cases h
        exact .saved toSave .repositoryError (by simp)
      | unexpected =>
        cases h
        exact .crashed toSave
    | _ => simp [batchFlusher] at h
  | exited => cases l <;> simp [batchFlusher] at h

inductive Runs (s : State) : Main → Main → Shared → Prop where
  | exhausted (hp : s.producer = .finished) : Runs s .awaiting .joining s.shared
  | sourceFailed (hp : s.producer = .failed) :
      Runs s .awaiting .gathering { s.shared with shutdown := true }
  | joined (hu : s.shared.unfinished = 0) :
      Runs s .joining .gathering { s.shared with shutdown := true }
  | gathered (hc : ∀ c ∈ s.consumers, c = .exited) (hf : s.flusher = .exited) :
      Runs s .gathering .draining s.shared
  | nothing (hb : s.shared.batchBuffer = []) : Runs s .draining (ending s.producer) s.shared
  | swapped (hb : s.shared.batchBuffer ≠ []) :
      Runs s .draining (.saving ⟨s.shared.batchBuffer,hb⟩)
        (swapped s.shared ⟨s.shared.batchBuffer,hb⟩)
  | saved (toSave : Batch) (o : SaveOutcome) (ho : o ≠ .unexpected) :
      Runs s (.saving toSave) (ending s.producer) (saveBatch s.shared .run toSave o)
  | crashed (toSave : Batch) :
      Runs s (.saving toSave) .raised (saveBatch s.shared .run toSave .unexpected)

theorem runMain_cases (s : State) (s' : Shared) (m m' : Main) (l : MainLabel)
    (h : runMain s m l = some (m',s')) : Runs s m m' s' := by
  cases m with
  | awaiting =>
    cases l with
    | advance =>
      cases hp : s.producer with
      | finished =>
        simp only [runMain, hp] at h
        cases h
        exact .exhausted hp
      | failed =>
        simp only [runMain, hp] at h
        cases h
        exact .sourceFailed hp
      | _ => simp [runMain, hp] at h
    | _ => simp [runMain] at h
  | joining =>
    cases l with
    | advance =>
      by_cases hu : s.shared.unfinished = 0
      · rw [runMain, if_pos hu] at h
        cases h
        exact .joined hu
      · simp [runMain, hu] at h
    | _ => simp [runMain] at h
  | gathering =>
    cases l with
    | advance =>
      by_cases hg : (∀ c ∈ s.consumers, c = .exited) ∧ s.flusher = .exited
      · rw [runMain, if_pos hg] at h
        cases h
        exact .gathered hg.1 hg.2
      · simp [runMain, hg] at h
    | _ => simp [runMain] at h
  | draining =>
    cases l with
    | advance =>
      by_cases hb : s.shared.batchBuffer = []
      · simp only [runMain, flushBatch_empty s.shared hb] at h
        cases h
        exact .nothing hb
      · simp only [runMain, flushBatch_some s.shared hb] at h
        cases h
        exact .swapped hb
    | _ => simp [runMain] at h
  | saving toSave =>
    cases l with
    | saved o =>
      cases o with
      | stored =>
        cases h
        exact .saved toSave .stored (by simp)
      | repositoryError =>
        cases h
        exact .saved toSave .repositoryError (by simp)
      | unexpected =>
        cases h
        exact .crashed toSave
    | _ => simp [runMain] at h
  | returned => cases l <;> simp [runMain] at h
  | raised => cases l <;> simp [runMain] at h

/-- Which task moved, and that its own step is one of those above. -/
inductive Moves (cfg : Config) (s : State) : Label → State → Prop where
  | producer (p : Producer) (sh : Shared) (h : produce cfg s.shared s.producer = some (p,sh)) :
      Moves cfg s .producer { s with producer := p, shared := sh }
  | consumer (i : ℕ) (l : ConsumerLabel) (c c' : Consumer) (sh : Shared)
      (hrun : s.shared.shutdown = false) (hi : s.consumers[i]? = some c)
      (h : Consumes cfg s.shared c l c' sh) :
      Moves cfg s (.consumer i l) { s with consumers := s.consumers.set i c', shared := sh }
  | cancelled (i : ℕ) (landed : Bool) (c : Consumer) (sh : Shared)
      (hdown : s.shared.shutdown = true) (hi : s.consumers[i]? = some c)
      (h : unwind s.shared landed c = some sh) :
      Moves cfg s (.cancelled i landed)
        { s with consumers := s.consumers.set i .exited, shared := sh }
  | flusher (l : FlusherLabel) (p : Flusher) (sh : Shared) (h : Flushes s.shared s.flusher p sh) :
      Moves cfg s (.flusher l) { s with flusher := p, shared := sh }
  | main (l : MainLabel) (m : Main) (sh : Shared) (h : Runs s s.main m sh) :
      Moves cfg s (.main l) { s with main := m, shared := sh }

theorem step_moves (cfg : Config) (s t : State) (l : Label) (h : step cfg s l = some t) :
    Moves cfg s l t := by
  cases l with
  | producer =>
    obtain ⟨q,hq,rfl⟩ := Option.map_eq_some_iff.mp h
    exact .producer q.1 q.2 hq
  | consumer i l =>
    cases hd : s.shared.shutdown with
    | true => simp [step, hd] at h
    | false =>
      simp only [step, hd, Bool.false_eq_true, if_false] at h
      obtain ⟨c,hc,h⟩ := Option.bind_eq_some_iff.mp h
      obtain ⟨q,hq,rfl⟩ := Option.map_eq_some_iff.mp h
      exact .consumer i l c q.1 q.2 hd hc (consume_cases cfg s.shared q.2 c q.1 l hq)
  | cancelled i landed =>
    cases hd : s.shared.shutdown with
    | false => simp [step, hd] at h
    | true =>
      simp only [step, hd, if_true] at h
      obtain ⟨c,hc,h⟩ := Option.bind_eq_some_iff.mp h
      obtain ⟨sh,hsh,rfl⟩ := Option.map_eq_some_iff.mp h
      exact .cancelled i landed c sh hd hc hsh
  | flusher l =>
    obtain ⟨q,hq,rfl⟩ := Option.map_eq_some_iff.mp h
    exact .flusher l q.1 q.2 (batchFlusher_cases s.shared q.2 s.flusher q.1 l hq)
  | main l =>
    obtain ⟨q,hq,rfl⟩ := Option.map_eq_some_iff.mp h
    exact .main l q.1 q.2 (runMain_cases s q.2 s.main q.1 l hq)

end PipelineX.ExecutorSteps
