import PipelineX.SourceOrder

/-!
# `get` in a task of its own

`wait_for` of CPython 3.11 runs `get` in an inner task. A record has then left
the queue before its consumer resumes, and when a consumer's timer goes off at
that moment it resumes before one whose record was taken earlier. With one
consumer there is nobody to overtake: the records behave as if they were still
in a queue with room for them, and the order of the source is kept.

A consumer that is cancelled with a record in its hands, which takes a source
that failed, is left out.
-/

set_option autoImplicit false

namespace PipelineX.InnerGet
open PipelineX.Records PipelineX.TransitionSystem
open PipelineX.Executor (Consumer ConsumerLabel Flusher FlusherLabel Main MainLabel Producer Shared)
open PipelineX.ExecutorSteps PipelineX.ExecutorPhases
open PipelineX.BuiltPipeline (Setup Built Goes)
open PipelineX.SessionizerPartition PipelineX.SourceOrder

variable {σ F : Type} [Sessionizer.Seconds F]

/-- `taken` are the records that an inner task took from the queue for a
consumer that has not resumed yet. -/
structure Inner (σ : Type) where
  built : Built σ
  taken : List (ℕ × LogRecord)
  deriving DecidableEq

inductive Label where
  | take (i : ℕ)
  | resume (i : ℕ)
  | other (l : BuiltPipeline.Label)

def initial (cfg : Setup σ F) (w : σ) (started : Bool) (lines : List String) : Inner σ where
  built := BuiltPipeline.initial cfg w started lines
  taken := []

/-- The consumer is in `wait_for`, and no other task runs. -/
def waits (x : Inner σ) (i : ℕ) : Prop :=
  x.built.running = none ∧ x.built.executor.shared.shutdown = false ∧
    x.built.executor.consumers[i]? = some .getting

instance (x : Inner σ) (i : ℕ) : Decidable (waits x i) :=
  inferInstanceAs (Decidable (_ ∧ _ ∧ _))

/-- What a consumer does not do while a record waits for it. -/
def excluded (x : Inner σ) : BuiltPipeline.Label → Bool
  | .get _ => true
  | .consumer i _ => (x.taken.lookup i).isSome
  | .cancelled i _ => (x.taken.lookup i).isSome
  | _ => false

/-- `get` in two steps: the inner task takes the record, and later the consumer
goes on with it. -/
def step (cfg : Setup σ F) (x : Inner σ) : Label → Option (Inner σ)
  | .take i =>
    match x.built.executor.shared.queue with
    | [] => none
    | r::queue =>
      if waits x i ∧ x.taken.lookup i = none then
        some ⟨{ x.built with executor :=
          { x.built.executor with shared := { x.built.executor.shared with queue } } },
          x.taken ++ [(i,r)]⟩
      else none
  | .resume i =>
    match x.taken.lookup i with
    | none => none
    | some r =>
      if waits x i then
        some ⟨{ x.built with
          executor := { x.built.executor with
            consumers := x.built.executor.consumers.set i (.staging r 0) }
          running := some i },x.taken.filter (fun p => p.1 ≠ i)⟩
      else none
  | .other l =>
    if excluded x l then none
    else (BuiltPipeline.step cfg x.built l).map (fun y => { x with built := y })

/-- A record from its consumer's hands through both stages. -/
def served (i : ℕ) : List Label :=
  [.resume i,.other (.front i),.other (.enter i 0 0),.other (.leave i),
    .other (.consumer i .buffer)]

/-- Both lines are taken in order, and the second consumer, whose timer has gone
off meanwhile, resumes first. -/
def overtaking : List Label :=
  List.replicate 4 (.other .producer) ++ [.take 0,.take 1] ++ served 1 ++ served 0 ++
    closes.map .other

def overtakingEnd : Inner Sessionizer.State :=
  (run (step sampleSetup) (initial sampleSetup .initial true ["E2","E3"]) overtaking).getD
    (initial sampleSetup .initial true [])

/-- The trace of the block has the two lines the wrong way round. -/
theorem source_order_overtaken :
    run (step sampleSetup) (initial sampleSetup .initial true ["E2","E3"]) overtaking =
      some overtakingEnd ∧
    overtakingEnd.built.executor.main = .returned ∧
    overtakingEnd.built.tasks.sessionizer.openTraces.items = [] ∧
    emitted (events sampleSetup.tasks.config) overtakingEnd.built.tasks.sessionizer "blk_1" =
      ["E3","E2"] ∧
    eventIds sampleSetup.tasks.config "blk_1" (survivorsOf sampleSetup .initial ["E2","E3"]) =
      ["E2","E3"] := by
  decide

/-- The queue with the records in front that were taken from it last. -/
def putBack (rs : List LogRecord) (s : Shared) : Shared := { s with queue := rs ++ s.queue }

def refilled (rs : List LogRecord) (s : Executor.State) : Executor.State :=
  { s with shared := putBack rs s.shared }

def roomier (cfg : Executor.Config) (k : ℕ) : Executor.Config :=
  { cfg with queueSize := cfg.queueSize+k, queue_pos := Nat.add_pos_left cfg.queue_pos k }

section Refilled

@[simp] theorem refilled_shared (rs : List LogRecord) (s : Executor.State) :
    (refilled rs s).shared = putBack rs s.shared := rfl

@[simp] theorem refilled_producer (rs : List LogRecord) (s : Executor.State) :
    (refilled rs s).producer = s.producer := rfl

@[simp] theorem refilled_consumers (rs : List LogRecord) (s : Executor.State) :
    (refilled rs s).consumers = s.consumers := rfl

@[simp] theorem refilled_flusher (rs : List LogRecord) (s : Executor.State) :
    (refilled rs s).flusher = s.flusher := rfl

@[simp] theorem refilled_main (rs : List LogRecord) (s : Executor.State) :
    (refilled rs s).main = s.main := rfl

variable (cfg : Executor.Config) {rs : List LogRecord} {k : ℕ}

theorem produce_putBack (hk : rs.length ≤ k) {s : Shared} {p : Producer} {q : Producer × Shared}
    (h : Executor.produce cfg s p = some q) :
    Executor.produce (roomier cfg k) (putBack rs s) p = some (q.1,putBack rs q.2) := by
  cases p with
  | streaming lines =>
    cases lines with
    | nil => cases h; rfl
    | cons l ls => cases h; rfl
  | putting r ls =>
    simp only [Executor.produce] at h ⊢
    split at h
    · next hroom =>
      cases h
      rw [if_pos (by simp only [putBack, roomier, List.length_append]; omega)]
      simp [putBack]
    · cases h
  | _ => cases h

theorem flushBatch_putBack (s : Shared) : Executor.flushBatch (putBack rs s) =
    ((Executor.flushBatch s).1,putBack rs (Executor.flushBatch s).2) := by
  unfold Executor.flushBatch
  change (if h : s.batchBuffer = [] then _ else _) = _
  split <;> rfl

theorem saveBatch_putBack (s : Shared) (c : Executor.Caller) (b : Executor.Batch)
    (o : Executor.SaveOutcome) : Executor.saveBatch (putBack rs s) c b o =
      putBack rs (Executor.saveBatch s c b o) := by
  cases o <;> rfl

theorem consume_putBack {s : Shared} {c : Consumer} {l : ConsumerLabel} (hl : l ≠ .get)
    {q : Consumer × Shared} (h : Executor.consume cfg s c l = some q) :
    Executor.consume (roomier cfg k) (putBack rs s) c l = some (q.1,putBack rs q.2) := by
  obtain ⟨c',s'⟩ := q
  cases ExecutorSteps.consume_cases cfg s s' c c' l h with
  | get r queue hq => exact absurd rfl hl
  | timeout => rfl
  | raised r n name e hk => simp only [Executor.consume, roomier, hk]; rfl
  | staged r r' n name hk hid => simp only [Executor.consume, roomier, hk, hid, if_true]; rfl
  | buffered r hroom =>
    simp only [Executor.consume, roomier, if_true, Executor.bufferForBatch, putBack,
      List.length_append, List.length_singleton, decide_eq_true_eq, if_neg (not_le.mpr hroom)]
    rfl
  | filled r hfull =>
    simp only [Executor.consume, roomier, if_true, Executor.bufferForBatch, putBack,
      List.length_append, List.length_singleton, decide_eq_true_eq, if_pos hfull]
    rfl
  | nothing r hb =>
    have hf : Executor.flushBatch s = (none,s) := dif_pos hb
    simp only [Executor.consume, flushBatch_putBack, hf]
    rfl
  | swapped r hb =>
    have hf : Executor.flushBatch s =
        (some ⟨s.batchBuffer,hb⟩,ExecutorSteps.swapped s ⟨s.batchBuffer,hb⟩) := dif_neg hb
    simp only [Executor.consume, flushBatch_putBack, hf]
  | saved r b o ho =>
    simp only [Executor.consume, saveBatch_putBack]
    cases o with
    | unexpected => exact absurd rfl ho
    | _ => rfl
  | crashed r b => rfl

theorem unwind_putBack (s : Shared) (landed : Bool) (c : Consumer) :
    Executor.unwind (putBack rs s) landed c = (Executor.unwind s landed c).map (putBack rs) := by
  cases c <;> try rfl
  cases landed <;> rfl

theorem batchFlusher_putBack (s : Shared) (p : Flusher) (l : FlusherLabel) :
    Executor.batchFlusher (putBack rs s) p l =
      (Executor.batchFlusher s p l).map (fun q => (q.1,putBack rs q.2)) := by
  cases p <;> cases l <;> try rfl
  · simp only [Executor.batchFlusher, flushBatch_putBack]
    rcases Executor.flushBatch s with ⟨_|b,s'⟩ <;> rfl
  · next b o =>
    simp only [Executor.batchFlusher, saveBatch_putBack]
    cases o <;> rfl

theorem runMain_putBack (s : Executor.State) (m : Main) (l : MainLabel) :
    Executor.runMain (refilled rs s) m l =
      (Executor.runMain s m l).map (fun q => (q.1,putBack rs q.2)) := by
  cases m <;> cases l <;> try rfl
  · simp only [Executor.runMain, refilled_producer]
    cases s.producer <;> rfl
  · simp only [Executor.runMain]
    by_cases hj : s.shared.unfinished = 0
    · have hj' : (refilled rs s).shared.unfinished = 0 := hj
      rw [if_pos hj, if_pos hj']
      rfl
    · have hj' : (refilled rs s).shared.unfinished ≠ 0 := hj
      rw [if_neg hj, if_neg hj']
      rfl
  · simp only [Executor.runMain]
    by_cases hg : (∀ c ∈ s.consumers, c = .exited) ∧ s.flusher = .exited
    · have hg' : (∀ c ∈ (refilled rs s).consumers, c = .exited) ∧
          (refilled rs s).flusher = .exited := hg
      rw [if_pos hg, if_pos hg']
      rfl
    · have hg' : ¬((∀ c ∈ (refilled rs s).consumers, c = .exited) ∧
          (refilled rs s).flusher = .exited) := hg
      rw [if_neg hg, if_neg hg']
      rfl
  · simp only [Executor.runMain, refilled_shared, refilled_producer, flushBatch_putBack]
    rcases Executor.flushBatch s.shared with ⟨_|b,s'⟩ <;> rfl
  · next b o =>
    simp only [Executor.runMain, refilled_shared, refilled_producer, saveBatch_putBack]
    cases o <;> rfl

/-- Only `get` depends on what is in the queue, and only the producer on how
much of it is. -/
theorem step_putBack (hk : rs.length ≤ k) {s t : Executor.State} {l : Executor.Label}
    (hl : ∀ i, l ≠ .consumer i .get) (h : Executor.step cfg s l = some t) :
    Executor.step (roomier cfg k) (refilled rs s) l = some (refilled rs t) := by
  cases l with
  | producer =>
    obtain ⟨q,hq,rfl⟩ := Option.map_eq_some_iff.mp h
    have hq' := produce_putBack cfg hk hq
    simp only [Executor.step, refilled_shared, refilled_producer, hq', Option.map_some]
    rfl
  | consumer i m =>
    simp only [Executor.step] at h ⊢
    split at h
    · cases h
    · next hup =>
      obtain ⟨c,hc,h⟩ := Option.bind_eq_some_iff.mp h
      obtain ⟨q,hq,rfl⟩ := Option.map_eq_some_iff.mp h
      have hq' : Executor.consume (roomier cfg k) (refilled rs s).shared c m =
          some (q.1,putBack rs q.2) := consume_putBack cfg (fun hm => hl i (by rw [hm])) hq
      have hup' : ¬(refilled rs s).shared.shutdown = true := hup
      rw [if_neg hup', refilled_consumers, hc, Option.bind_some, hq']
      rfl
  | cancelled i landed =>
    simp only [Executor.step] at h ⊢
    split at h
    · next hdown =>
      obtain ⟨c,hc,h⟩ := Option.bind_eq_some_iff.mp h
      obtain ⟨sh,hsh,rfl⟩ := Option.map_eq_some_iff.mp h
      have hdown' : (refilled rs s).shared.shutdown = true := hdown
      rw [if_pos hdown', refilled_consumers, refilled_shared, hc, Option.bind_some,
        unwind_putBack, hsh]
      rfl
    · cases h
  | flusher m =>
    obtain ⟨q,hq,rfl⟩ := Option.map_eq_some_iff.mp h
    simp only [Executor.step, refilled_shared, refilled_flusher, batchFlusher_putBack, hq,
      Option.map_some]
    rfl
  | main m =>
    obtain ⟨q,hq,rfl⟩ := Option.map_eq_some_iff.mp h
    simp only [Executor.step, refilled_main, runMain_putBack, hq, Option.map_some]
    rfl

end Refilled

def roomierSetup (cfg : Setup σ F) (k : ℕ) : Setup σ F :=
  { cfg with executor := roomier cfg.executor k }

/-- The pipeline with the records that wait for a consumer back in the queue. -/
def whole (x : Inner σ) : Built σ :=
  { x.built with executor := refilled (x.taken.map Prod.snd) x.built.executor }

theorem shells_roomier (cfg : Executor.Config) (k n : ℕ) (lines : List String) :
    ExecutorOrder.shells (roomier cfg k) n lines = ExecutorOrder.shells cfg n lines := by
  induction lines generalizing n with
  | nil => rfl
  | cons l ls ih =>
    rw [ExecutorOrder.shells, ExecutorOrder.shells, ih]
    rfl

theorem goes_putBack (cfg : Setup σ F) {rs : List LogRecord} {k : ℕ} (hk : rs.length ≤ k)
    {x y : Built σ} (hidle : x.running = none → y.running = none) (h : Goes cfg x y) :
    Goes (roomierSetup cfg k) { x with executor := refilled rs x.executor }
      { y with executor := refilled rs y.executor } := by
  cases h with
  | get i s hr h => cases hidle hr
  | front i r n st s hr hi hn h =>
    exact .front i r n st _ hr hi hn (step_putBack cfg.executor hk (by simp) h)
  | enter i r now now' s hr hi h => exact .enter i r now now' s hr hi h
  | leave i r s hr hi hret h =>
    exact .leave i r _ hr hi hret (step_putBack cfg.executor hk (by simp) h)
  | consumer i l s hr hl hout h =>
    exact .consumer i l _ hr hl hout (step_putBack cfg.executor hk (by simp [hl]) h)
  | cancelled i landed s hr h =>
    exact .cancelled i landed _ hr (step_putBack cfg.executor hk (by simp) h)
  | other l s hr hl h =>
    exact .other l _ hr hl (step_putBack cfg.executor hk (fun i => (hl i .get true).1) h)
  | tasks l s hr hl h => exact .tasks l s hr hl h

/-- Only a `get` makes a consumer run. -/
theorem step_idle (cfg : Setup σ F) {x y : Built σ} {l : BuiltPipeline.Label}
    (hl : ∀ i, l ≠ .get i) (h : BuiltPipeline.step cfg x l = some y) (hr : x.running = none) :
    y.running = none := by
  have hexecutor {m : Executor.Label} {z : Built σ}
      (h : BuiltPipeline.executorStep cfg x m = some z) : z.running = none := by
    obtain ⟨s,_,rfl⟩ := Option.map_eq_some_iff.mp h
    exact hr
  have htasks {m : SessionizerTasks.Label}
      (h : (SessionizerTasks.step cfg.tasks x.tasks m).map (fun s => { x with tasks := s }) =
        some y) : y.running = none := by
    obtain ⟨s,_,rfl⟩ := Option.map_eq_some_iff.mp h
    exact hr
  simp only [BuiltPipeline.step, hr] at h
  cases l with
  | get i => exact absurd rfl (hl i)
  | leave i =>
    simp only [BuiltPipeline.stepIdle] at h
    split at h
    · split at h
      · exact hexecutor h
      · cases h
    · cases h
  | consumer i m =>
    cases m with
    | get => cases h
    | _ =>
      simp only [BuiltPipeline.stepIdle] at h
      split at h
      · exact hexecutor h
      · cases h
  | cancelled i landed =>
    obtain ⟨z,hz,rfl⟩ := Option.map_eq_some_iff.mp h
    have hz' := hexecutor hz
    exact hz'
  | producer => exact hexecutor h
  | flusher m => exact hexecutor h
  | main m => exact hexecutor h
  | tasks m =>
    cases m with
    | process w r now now' => cases h
    | _ => exact htasks h
  | _ => cases h

theorem step_workers (cfg : Executor.Config) {s t : Executor.State} {l : Executor.Label}
    (h : Executor.step cfg s l = some t) : t.consumers.length = s.consumers.length := by
  cases step_moves cfg s t l h with
  | consumer i l c c' sh hrun hi h => exact List.length_set
  | cancelled i landed c sh hdown hi h => exact List.length_set
  | _ => rfl

theorem goes_workers (cfg : Setup σ F) {x y : Built σ} (h : Goes cfg x y) :
    y.executor.consumers.length = x.executor.consumers.length := by
  cases h with
  | enter i r now now' s hr hi h => rfl
  | tasks l s hr hl h => rfl
  | get i s hr h => exact step_workers cfg.executor h
  | front i r n st s hr hi hn h => exact step_workers cfg.executor h
  | leave i r s hr hi hret h => exact step_workers cfg.executor h
  | consumer i l s hr hl hout h => exact step_workers cfg.executor h
  | cancelled i landed s hr h => exact step_workers cfg.executor h
  | other l s hr hl h => exact step_workers cfg.executor h

/-- One consumer, the record that may wait for it, and the invariants of the
pipeline in which that record is still queued. -/
structure Alone (cfg : Setup σ F) (lines : List String) (total : List LogRecord)
    (x : Inner σ) : Prop where
  workers : x.built.executor.consumers.length = 1
  taken : x.taken = [] ∨ ∃ r, x.taken = [(0,r)]
  inv : Inv (roomier cfg.executor 1) lines (whole x).executor
  orderly : SessionizerTasks.Orderly cfg.tasks (whole x).tasks
  sorted : Sorted (roomierSetup cfg 1) total (whole x)

theorem alone_index {cfg : Setup σ F} {lines : List String} {total : List LogRecord}
    {x : Inner σ} (hx : Alone cfg lines total x) {i : ℕ} (hi : waits x i) : i = 0 := by
  have hlt := (List.getElem?_eq_some_iff.mp hi.2.2).1
  have hone := hx.workers
  omega

/-- The queue with the record in front is the queue it was taken from. -/
theorem take_whole (cfg : Setup σ F) {lines : List String} {total : List LogRecord}
    {x y : Inner σ} {i : ℕ} (hx : Alone cfg lines total x) (h : step cfg x (.take i) = some y) :
    y.built.executor.consumers = x.built.executor.consumers ∧ (∃ r, y.taken = [(0,r)]) ∧
    whole y = whole x := by
  simp only [step] at h
  split at h
  · cases h
  · next r queue hq =>
    split at h
    · next hw =>
      cases h
      have hi := alone_index hx hw.1
      have hnone : x.taken = [] := by
        rcases hx.taken with ht | ⟨q,ht⟩
        · exact ht
        · simp [ht, hi] at hw
      refine ⟨rfl,⟨r,by simp [hnone, hi]⟩,?_⟩
      simp only [whole, refilled, putBack, hnone, hq, List.nil_append, List.map_nil, List.map_cons,
        List.singleton_append]
    · cases h

/-- A consumer that resumes gets the head of the longer queue. -/
theorem resume_goes (cfg : Setup σ F) {lines : List String} {total : List LogRecord}
    {x y : Inner σ} {i : ℕ} (hx : Alone cfg lines total x)
    (h : step cfg x (.resume i) = some y) :
    y.built.executor.consumers.length = x.built.executor.consumers.length ∧ y.taken = [] ∧
    Goes (roomierSetup cfg 1) (whole x) (whole y) := by
  simp only [step] at h
  split at h
  · cases h
  · next r hr =>
    split at h
    · next hw =>
      cases h
      have hi := alone_index hx hw
      obtain ⟨hidle,hup,hget⟩ := hw
      have hone : x.taken = [(0,r)] := by
        rcases hx.taken with ht | ⟨q,ht⟩
        · simp [ht] at hr
        · simpa [ht, hi] using hr
      refine ⟨List.length_set,by simp [hone, hi],?_⟩
      have hstep : Executor.step (roomier cfg.executor 1) (whole x).executor (.consumer i .get) =
          some { x.built.executor with
            consumers := x.built.executor.consumers.set i (.staging r 0) } := by
        have hqueue : (whole x).executor.shared.queue = r::x.built.executor.shared.queue := by
          simp [whole, putBack, hone]
        have hup' : ¬(whole x).executor.shared.shutdown = true := by
          change ¬x.built.executor.shared.shutdown = true
          simp [hup]
        have hget' : (whole x).executor.consumers[i]? = some .getting := hget
        simp only [Executor.step, if_neg hup', hget', Option.bind_some, Executor.consume, hqueue]
        rfl
      have hgoes : Goes (roomierSetup cfg 1) (whole x) _ := .get i _ hidle hstep
      simpa [whole, refilled, putBack, hone, hi] using hgoes
    · cases h

theorem step_alone (cfg : Setup σ F) {lines : List String} {total : List LogRecord}
    {x y : Inner σ} {l : Label} (hx : Alone cfg lines total x) (h : step cfg x l = some y) :
    Alone cfg lines total y := by
  have hgoes (hlen : y.built.executor.consumers.length = x.built.executor.consumers.length)
      (ht : y.taken = [] ∨ ∃ r, y.taken = [(0,r)])
      (hg : Goes (roomierSetup cfg 1) (whole x) (whole y)) : Alone cfg lines total y := by
    have hparts := goes_parts (roomierSetup cfg 1) lines _ _ hx.inv hx.orderly hg
    exact ⟨hlen.trans hx.workers,ht,hparts.1,hparts.2,
      step_sorted (roomierSetup cfg 1) total lines _ _ hx.inv hx.sorted hg⟩
  cases l with
  | take i =>
    obtain ⟨hcons,ht,hwhole⟩ := take_whole cfg hx h
    exact ⟨hcons ▸ hx.workers,Or.inr ht,hwhole ▸ hx.inv,hwhole ▸ hx.orderly,
      hwhole ▸ hx.sorted⟩
  | resume i =>
    obtain ⟨hlen,ht,hg⟩ := resume_goes cfg hx h
    exact hgoes hlen (Or.inl ht) hg
  | other l =>
    simp only [step] at h
    split at h
    · cases h
    · next hex =>
      obtain ⟨z,hz,rfl⟩ := Option.map_eq_some_iff.mp h
      have hl : ∀ i, l ≠ .get i := by
        rintro i rfl
        exact hex rfl
      have hg := BuiltPipeline.step_goes cfg x.built z l hz
      have hk : (x.taken.map Prod.snd).length ≤ 1 := by
        rcases hx.taken with ht | ⟨r,ht⟩ <;> simp [ht]
      exact hgoes (goes_workers cfg hg) hx.taken (goes_putBack cfg hk (step_idle cfg hl hz) hg)

/-- With one consumer the order is kept. -/
theorem one_worker_order (cfg : Setup σ F) (hone : cfg.executor.numWorkers = 1) (w : σ)
    (started : Bool) (lines : List String) (ls : List Label) (x : Inner σ)
    (hrun : run (step cfg) (initial cfg w started lines) ls = some x) :
    InOrder cfg (survivorsOf cfg w lines) x.built := by
  have hsame : survivorsOf (roomierSetup cfg 1) w lines = survivorsOf cfg w lines := by
    rw [survivorsOf, survivorsOf]
    exact congrArg (fun rs => (ExecutorOrder.sequential cfg.front w rs).2.1)
      (shells_roomier cfg.executor 1 0 lines)
  have hstart : Alone cfg lines (survivorsOf (roomierSetup cfg 1) w lines)
      (initial cfg w started lines) :=
    ⟨by simp [initial, BuiltPipeline.initial, Executor.initial, hone],Or.inl rfl,
      run_inv (roomier cfg.executor 1) lines [] _ rfl,
      SessionizerTasks.initial_orderly cfg.tasks started,
      initial_sorted (roomierSetup cfg 1) w started lines⟩
  have hx := run_invariant (step cfg) _ (fun _ _ _ hx h => step_alone cfg hx h) hstart hrun
  have h := sorted_inOrder (roomierSetup cfg 1) w lines _ hx.inv hx.orderly hx.sorted
  rw [hsame] at h
  exact ⟨h.split,h.kept,h.uncut,h.complete,h.stopped⟩

def aloneSetup : Setup Sessionizer.State ℚ :=
  { sampleSetup with
    executor := { sampleSetup.executor with numWorkers := 1, workers_pos := Nat.one_pos } }

/-- The second line is put while the first waits for the consumer, and there
is no second consumer to cancel. -/
def alone : List Label :=
  List.replicate 2 (.other .producer) ++ [.take 0] ++ List.replicate 2 (.other .producer) ++
    served 0 ++ [.take 0] ++ served 0 ++ (closes.eraseIdx 4).map .other

def aloneEnd : Inner Sessionizer.State :=
  (run (step aloneSetup) (initial aloneSetup .initial true ["E2","E3"]) alone).getD
    (initial aloneSetup .initial true [])

theorem one_worker_order_alone :
    emitted (events aloneSetup.tasks.config) aloneEnd.built.tasks.sessionizer "blk_1" =
      ["E2","E3"] := by
  have h := one_worker_order aloneSetup rfl .initial true ["E2","E3"] alone aloneEnd (by decide)
  rw [h.stopped (by decide) (by decide) "blk_1"]
  decide

end PipelineX.InnerGet
