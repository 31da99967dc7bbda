import PipelineX.BuiltPipeline

/-!
# The sessionizer sees the log in the source's order

Whatever the number of consumers, the records that were added to the table,
then those that wait for the lock, are the survivors of the first stages in
the order of their lines. A consumer has its record as soon as the record
leaves the queue, as on CPython 3.12 and later.
-/

set_option autoImplicit false

namespace PipelineX.SourceOrder
open PipelineX.Records PipelineX.Stages PipelineX.TransitionSystem
open PipelineX.Sessionizer (blockIdOf newEvents)
open PipelineX.Executor (Consumer ConsumerLabel Shared Producer)
open PipelineX.ExecutorSteps PipelineX.ExecutorLedger PipelineX.ExecutorPhases
open PipelineX.ExecutorOrder PipelineX.SessionizerPartition
open PipelineX.SessionizerTasks (Tasks Waiter Acts Orderly acquire passLocked flushLocked
  emitAll_frame processLocked_frame passLocked_frame flushLocked_frame step_acts step_orderly)
open PipelineX.BuiltPipeline

variable {σ F : Type} [Sessionizer.Seconds F]

@[simp] theorem waiting_append (p : ℕ → Bool) (ks ls : List Waiter) :
    waiting p (ks ++ ls) = waiting p ks ++ waiting p ls := by
  induction ks with
  | nil => rfl
  | cons k ks ih =>
    cases k with
    | worker w b r => by_cases h : p w <;> simp [waiting, h, ih]
    | janitor => simp [waiting, ih]
    | stop => simp [waiting, ih]

theorem waiting_janitor (p : ℕ → Bool) (ks : List Waiter) :
    waiting p (ks.filter (fun k => k ≠ .janitor)) = waiting p ks := by
  induction ks with
  | nil => rfl
  | cons k ks ih =>
    cases k with
    | worker w b r => by_cases h : p w <;> simpa [waiting, h] using ih
    | janitor => simpa [waiting] using ih
    | stop => simpa [waiting] using ih

theorem waiting_cancelled (i : ℕ) (ks : List Waiter) :
    (waiting (fun _ => true) (ks.filter (fun k => !ofWorker i k))).Sublist
      (waiting (fun _ => true) ks) ∧
    (waiting (fun w => w = i) ks = [] →
      waiting (fun _ => true) (ks.filter (fun k => !ofWorker i k)) =
        waiting (fun _ => true) ks) := by
  induction ks with
  | nil => simp [waiting]
  | cons k ks ih =>
    cases k with
    | worker w b r =>
      by_cases h : w = i
      · simp only [List.filter_cons, ofWorker, h, decide_true, Bool.not_true, waiting]
        exact ⟨ih.1.trans (List.sublist_cons_self _ _),by simp⟩
      · simpa [ofWorker, h, waiting] using ih
    | janitor => simpa [ofWorker, waiting] using ih
    | stop => simpa [ofWorker, waiting] using ih

theorem mem_waiting (p : ℕ → Bool) (ks : List Waiter) (r : LogRecord)
    (h : r ∈ waiting p ks) : ∃ w b, p w = true ∧ Waiter.worker w b r ∈ ks := by
  induction ks with
  | nil => simp [waiting] at h
  | cons k ks ih =>
    have hlater (h : r ∈ waiting p ks) : ∃ w b, p w = true ∧ Waiter.worker w b r ∈ k::ks := by
      obtain ⟨w,b,hp,hb⟩ := ih h
      exact ⟨w,b,hp,List.mem_cons_of_mem _ hb⟩
    cases k with
    | worker w b s =>
      by_cases hw : p w = true
      · simp only [waiting, hw, if_true, List.mem_cons] at h
        rcases h with rfl | h
        · exact ⟨w,b,hw,List.mem_cons_self⟩
        · exact hlater h
      · simp only [waiting, hw, Bool.false_eq_true, if_false] at h
        exact hlater h
    | _ => exact hlater h

/-- The records added to the table, then those that wait to be. -/
def line (s : Tasks) : List LogRecord :=
  s.processed.map Prod.snd ++ waiting (fun _ => true) s.waiters

structure Tagged (cfg : SessionizerTasks.Setup F) (s : Tasks) : Prop where
  processed : ∀ p ∈ s.processed, blockIdOf cfg.config p.2 = some p.1
  waiters : ∀ w b r, Waiter.worker w b r ∈ s.waiters → blockIdOf cfg.config r = some b

/-- The step leaves the line of records as it is. -/
structure Still (cfg : SessionizerTasks.Setup F) (s t : Tasks) : Prop where
  line : line t = line s
  workers : ∀ w b r, Waiter.worker w b r ∈ t.waiters → Waiter.worker w b r ∈ s.waiters
  tagged : Tagged cfg s → Tagged cfg t

theorem still_of_eq (cfg : SessionizerTasks.Setup F) {s t : Tasks}
    (hp : t.processed = s.processed) (hw : t.waiters = s.waiters) : Still cfg s t := by
  refine ⟨by rw [line, hp, hw, line],fun w b r h => ?_,fun h => ⟨?_,?_⟩⟩
  · rwa [hw] at h
  · rw [hp]
    exact h.processed
  · rw [hw]
    exact h.waiters

/-- What the first waiter adds to the table when it gets the lock. -/
def brings : Waiter → List (String × LogRecord)
  | .worker _ b r => [(b,r)]
  | _ => []

theorem still_granted (cfg : SessionizerTasks.Setup F) {s t : Tasks} {k : Waiter}
    {ks : List Waiter} (hw : s.waiters = k::ks) (hk : t.waiters = ks)
    (hp : t.processed = s.processed ++ brings k) : Still cfg s t := by
  have hmem : ∀ w b r, Waiter.worker w b r ∈ t.waiters → Waiter.worker w b r ∈ s.waiters := by
    intro w b r h
    rw [hk] at h
    rw [hw]
    exact List.mem_cons_of_mem _ h
  refine ⟨?_,hmem,fun hs => ⟨fun p hm => ?_,fun w b r h => hs.waiters w b r (hmem w b r h)⟩⟩
  · rw [line, line, hp, hk, hw]
    cases k <;> simp [brings, waiting]
  · rw [hp] at hm
    rcases List.mem_append.mp hm with hm | hm
    · exact hs.processed p hm
    · cases k with
      | worker w b r =>
        rw [List.mem_singleton.mp hm]
        exact hs.waiters w b r (by simp [hw])
      | _ => cases hm

theorem still_acquire (cfg : SessionizerTasks.Setup F) (enter : Tasks → Tasks) (k : Waiter)
    (s : Tasks) (hk : k = .janitor ∨ k = .stop)
    (henter : (enter s).processed = s.processed ∧ (enter s).waiters = s.waiters) :
    Still cfg s (acquire enter k s) := by
  by_cases hfree : s.holder = none ∧ s.waiters = []
  · rw [acquire, if_pos hfree]
    exact still_of_eq cfg henter.1 henter.2
  · rw [acquire, if_neg hfree]
    have hnone : waiting (fun _ => true) [k] = [] := by rcases hk with rfl | rfl <;> rfl
    have hmem : ∀ w b r, Waiter.worker w b r ∈ s.waiters ++ [k] →
        Waiter.worker w b r ∈ s.waiters := by
      intro w b r h
      rcases List.mem_append.mp h with h | h
      · exact h
      · rcases hk with rfl | rfl <;> simp at h
    exact ⟨by simp [line, hnone],hmem,
      fun h => ⟨h.processed,fun w b r hm => h.waiters w b r (hmem w b r hm)⟩⟩

/-- Every step but a call of `process`: who gets the lock is first in line. -/
theorem acts_still (cfg : SessionizerTasks.Setup F) (s t : Tasks) (l : SessionizerTasks.Label)
    (hl : ∀ w r now now', l ≠ .process w r now now') (h : Acts cfg s l t) : Still cfg s t := by
  cases h with
  | ignored w r now now' hb => exact absurd rfl (hl w r now now')
  | process w b r now now' hb => exact absurd rfl (hl w r now now')
  | grantWorker w b r ks now now' hh hw =>
    have hf := processLocked_frame cfg w b r now now' { s with waiters := ks }
    exact still_granted cfg hw hf.2 hf.1
  | grantJanitor ks now now' hh hw =>
    have hf := passLocked_frame cfg { s with waiters := ks }
    exact still_granted cfg hw hf.2 (by simp [brings, hf.1])
  | grantStop ks now now' hh hw =>
    have hf := flushLocked_frame cfg { s with waiters := ks }
    exact still_granted cfg hw hf.2 (by simp [brings, hf.1])
  | handled h p hh hm => exact still_of_eq cfg rfl rfl
  | resume p hh hp hj =>
    have hf := emitAll_frame cfg p.owner p.todo s
    exact still_of_eq cfg hf.1 hf.2
  | tick hj =>
    have ha := still_acquire cfg (passLocked cfg) .janitor { s with janitor := .passing }
      (Or.inl rfl) (passLocked_frame cfg _)
    exact ⟨ha.line,ha.workers,fun h => ha.tagged ⟨h.processed,h.waiters⟩⟩
  | stopAlone hst hj =>
    have ha := still_acquire cfg (flushLocked cfg) .stop { s with stop := .flushing }
      (Or.inr rfl) (flushLocked_frame cfg _)
    exact ⟨ha.line,ha.workers,fun h => ha.tagged ⟨h.processed,h.waiters⟩⟩
  | stopJoins hst hj =>
    have hmem : ∀ k ∈ s.waiters.filter (fun k => k ≠ .janitor), k ∈ s.waiters :=
      fun k hk => (List.mem_filter.mp hk).1
    refine ⟨?_,fun _ _ _ h => hmem _ h,fun hs => ⟨hs.processed,fun w b r h => ?_⟩⟩
    · change s.processed.map Prod.snd ++ waiting _ (s.waiters.filter _) = _
      rw [waiting_janitor, line]
    · exact hs.waiters w b r (hmem _ h)
  | unwound hj => exact still_of_eq cfg rfl rfl
  | joined hst hj =>
    have ha := still_acquire cfg (flushLocked cfg) .stop { s with stop := .flushing }
      (Or.inr rfl) (flushLocked_frame cfg _)
    exact ⟨ha.line,ha.workers,fun h => ha.tagged ⟨h.processed,h.waiters⟩⟩

/-- A call of `process` puts its record at the end of the line, if it has a
block. -/
theorem process_line (cfg : SessionizerTasks.Setup F) (s t : Tasks) (i : ℕ) (r : LogRecord)
    (now now' : Datetime) (hs : Tagged cfg s) (h : Acts cfg s (.process i r now now') t) :
    line t = line s ++ (if (blockIdOf cfg.config r).isSome then [r] else []) ∧ Tagged cfg t ∧
    ∀ w b q, Waiter.worker w b q ∈ t.waiters →
      Waiter.worker w b q ∈ s.waiters ∨ w = i ∧ q = r := by
  cases h with
  | ignored w r now now' hb =>
    simp only [hb, Option.isSome_none, Bool.false_eq_true, if_false, List.append_nil]
    exact ⟨trivial,hs,fun _ _ _ h => Or.inl h⟩
  | process w b r now now' hb =>
    have hf := processLocked_frame cfg i b r now now' s
    simp only [hb, Option.isSome_some, if_true]
    by_cases hfree : s.holder = none ∧ s.waiters = []
    · rw [acquire, if_pos hfree]
      refine ⟨by simp [line, hf.1, hf.2, hfree.2, waiting],⟨fun p hm => ?_,?_⟩,?_⟩
      · rw [hf.1] at hm
        rcases List.mem_append.mp hm with hm | hm
        · exact hs.processed p hm
        · rw [List.mem_singleton.mp hm]
          exact hb
      · rw [hf.2]
        exact hs.waiters
      · rw [hf.2]
        exact fun _ _ _ h => Or.inl h
    · rw [acquire, if_neg hfree]
      refine ⟨by simp [line, waiting],⟨hs.processed,fun w c q h => ?_⟩,fun w c q h => ?_⟩
      · rcases List.mem_append.mp h with h | h
        · exact hs.waiters w c q h
        · cases List.mem_singleton.mp h
          exact hb
      · rcases List.mem_append.mp h with h | h
        · exact Or.inl h
        · cases List.mem_singleton.mp h
          exact Or.inr ⟨rfl,rfl⟩

theorem cancelWorker_line (cfg : SessionizerTasks.Setup F) (i : ℕ) (s : Tasks)
    (hs : Tagged cfg s) :
    (line (cancelWorker i s)).Sublist (line s) ∧ Tagged cfg (cancelWorker i s) ∧
    (waiting (fun w => w = i) s.waiters = [] → line (cancelWorker i s) = line s) ∧
    ∀ w b r, Waiter.worker w b r ∈ (cancelWorker i s).waiters →
      Waiter.worker w b r ∈ s.waiters ∧ w ≠ i := by
  have hw := waiting_cancelled i s.waiters
  have hmem : ∀ w b r, Waiter.worker w b r ∈ (cancelWorker i s).waiters →
      Waiter.worker w b r ∈ s.waiters ∧ w ≠ i := by
    intro w b r h
    have hf := List.mem_filter.mp h
    exact ⟨hf.1,by simpa [ofWorker] using hf.2⟩
  refine ⟨hw.1.append_left _,⟨hs.processed,fun w b r h => hs.waiters w b r (hmem w b r h).1⟩,
    fun hnil => ?_,hmem⟩
  change s.processed.map Prod.snd ++ waiting _ (s.waiters.filter _) = _
  rw [hw.2 hnil, line]

theorem cancelWorker_orderly (cfg : SessionizerTasks.Setup F) (i : ℕ) (s : Tasks)
    (hs : Orderly cfg s) : Orderly cfg (cancelWorker i s) :=
  ⟨hs.partition,fun p hp => hs.todo p (Option.filter_eq_some_iff.mp hp).1⟩

theorem returned_not_waiting (i : ℕ) (s : Tasks) (h : returned i s = true) (b : String)
    (r : LogRecord) : Waiter.worker i b r ∉ s.waiters := by
  intro hm
  have hall := (Bool.and_eq_true_iff.mp h).1
  have hk := List.all_eq_true.mp hall _ hm
  simp [ofWorker] at hk

/-- What a consumer's step leaves of the records still to come. -/
theorem consumes_toCome (cfg : Executor.Config) (s s' : Shared) (p : Producer)
    (c c' : Consumer) (l : ConsumerLabel) (h : Consumes cfg s c l c' s') (hl : l ≠ .get) :
    toCome cfg s' p = toCome cfg s p := by
  cases h with
  | get r queue hq => exact absurd rfl hl
  | saved r toSave o ho =>
    have hq := saveBatch_quiet s .consumer toSave o
    simp [toCome, Executor.taskDone, Executor.countProcessed, hq.pulled, hq.queue]
  | _ => rfl

theorem unwind_toCome (cfg : Executor.Config) (s s' : Shared) (p : Producer) (landed : Bool)
    (c : Consumer) (h : Executor.unwind s landed c = some s') :
    toCome cfg s' p = toCome cfg s p := by
  cases c with
  | saving r toSave => cases landed <;> cases h <;> rfl
  | exited => cases h
  | _ =>
    cases h
    rfl

/-- The steps of the producer, the flusher and `run`. -/
theorem other_toCome (cfg : Executor.Config) (s t : Executor.State) (l : Executor.Label)
    (hl : ∀ i m b, l ≠ .consumer i m ∧ l ≠ .cancelled i b)
    (hstep : Executor.step cfg s l = some t) :
    toCome cfg t.shared t.producer = toCome cfg s.shared s.producer ∧
    t.consumers = s.consumers ∧ (s.producer = .failed → t.producer = .failed) := by
  cases step_moves cfg s t l hstep with
  | producer p sh h =>
    refine ⟨(produce_toCome cfg _ _ _ _ h).1,rfl,fun hf => ?_⟩
    simp [hf, Executor.produce] at h
  | consumer i m c c' sh hrun hi h => exact absurd rfl (hl i m true).1
  | cancelled i b c sh hdown hi h => exact absurd rfl (hl i .get b).2
  | flusher m p sh h =>
    have hq := flushes_quiet _ _ _ _ h
    exact ⟨by simp [toCome, hq.pulled, hq.queue],rfl,id⟩
  | main m p sh h =>
    have hq := runs_quiet _ _ _ _ h
    exact ⟨by simp [toCome, hq.pulled, hq.queue],rfl,id⟩

theorem consumer_moves (cfg : Executor.Config) (s t : Executor.State) (i : ℕ)
    (l : ConsumerLabel) (hstep : Executor.step cfg s (.consumer i l) = some t) :
    ∃ c c' sh, s.consumers[i]? = some c ∧ Consumes cfg s.shared c l c' sh ∧
      t = { s with consumers := s.consumers.set i c', shared := sh } := by
  cases step_moves cfg s t _ hstep with
  | consumer i l c c' sh hrun hi h => exact ⟨c,c',sh,hi,h,rfl⟩

def coming (cfg : Setup σ F) (x : Built σ) : List LogRecord :=
  toCome cfg.executor x.executor.shared x.executor.producer

def hasBlock (cfg : Setup σ F) (r : LogRecord) : Bool :=
  (blockIdOf cfg.tasks.config r).isSome

/-- The records that pass the first stages, when these are given the lines one
after another. -/
def survivorsOf (cfg : Setup σ F) (w : σ) (lines : List String) : List LogRecord :=
  (sequential cfg.front w (shells cfg.executor 0 lines)).2.1

structure Sorted (cfg : Setup σ F) (total : List LogRecord) (x : Built σ) : Prop where
  idle : x.running = none →
    x.survivors ++ (sequential cfg.front x.world (coming cfg x)).2.1 = total
  active : ∀ i, x.running = some i → ∃ r k,
    x.executor.consumers[i]? = some (.staging r k) ∧
    x.survivors ++ (ahead cfg.front x.world (.staging r k) (coming cfg x)).2.1 = total
  line : (line x.tasks).Sublist (x.survivors.filter (hasBlock cfg))
  uncut : x.cut = [] → SourceOrder.line x.tasks = x.survivors.filter (hasBlock cfg)
  tagged : Tagged cfg.tasks x.tasks
  waiters : ∀ w b r, Waiter.worker w b r ∈ x.tasks.waiters →
    x.executor.consumers[w]? = some (.staging r cfg.front.length)
  spared : x.executor.producer ≠ .failed → x.cut = []

theorem initial_sorted (cfg : Setup σ F) (w : σ) (started : Bool) (lines : List String) :
    Sorted cfg (survivorsOf cfg w lines) (initial cfg w started lines) := by
  constructor
  · intro _
    rfl
  · simp [initial]
  · exact List.Sublist.refl _
  · exact fun _ => rfl
  · exact ⟨by simp [initial, SessionizerTasks.initial],by simp [initial, SessionizerTasks.initial]⟩
  · simp [initial, SessionizerTasks.initial]
  · exact fun _ => rfl

theorem set_waiters {consumers : List Consumer} {waiters : List Waiter} {n : ℕ} (i : ℕ)
    (c : Consumer) (hw : ∀ w b r, Waiter.worker w b r ∈ waiters →
      consumers[w]? = some (.staging r n))
    (hi : ∀ b r, Waiter.worker i b r ∉ waiters) :
    ∀ w b r, Waiter.worker w b r ∈ waiters →
      (consumers.set i c)[w]? = some (.staging r n) := by
  intro w b r hm
  by_cases h : i = w
  · subst h
    exact absurd hm (hi b r)
  · rw [List.getElem?_set_ne h]
    exact hw w b r hm

theorem not_waiting (cfg : Setup σ F) (total : List LogRecord) (x : Built σ) (i : ℕ)
    (hx : Sorted cfg total x)
    (hi : ∀ r, x.executor.consumers[i]? ≠ some (.staging r cfg.front.length)) :
    ∀ b r, Waiter.worker i b r ∉ x.tasks.waiters :=
  fun b r hm => hi r (hx.waiters i b r hm)

/-- A step of the executor leaves the line of records alone. -/
theorem sorted_executor (cfg : Setup σ F) (total : List LogRecord) (x : Built σ)
    (s : Executor.State) (w : σ) (running : Option ℕ) (hx : Sorted cfg total x)
    (hidle : running = none → x.survivors ++
      (sequential cfg.front w (toCome cfg.executor s.shared s.producer)).2.1 = total)
    (hactive : ∀ i, running = some i → ∃ r k, s.consumers[i]? = some (.staging r k) ∧
      x.survivors ++
        (ahead cfg.front w (.staging r k) (toCome cfg.executor s.shared s.producer)).2.1 = total)
    (hfailed : x.executor.producer = .failed → s.producer = .failed)
    (hw : ∀ w b r, Waiter.worker w b r ∈ x.tasks.waiters →
      s.consumers[w]? = some (.staging r cfg.front.length)) :
    Sorted cfg total { x with executor := s, world := w, running } :=
  ⟨hidle,hactive,hx.line,hx.uncut,hx.tagged,hw,fun hp => hx.spared (fun h => hp (hfailed h))⟩

/-- A step of the executor outside the first stages. -/
theorem outside_sorted (cfg : Setup σ F) (total : List LogRecord) (x : Built σ)
    (s : Executor.State) (hr : x.running = none) (hx : Sorted cfg total x)
    (hcome : toCome cfg.executor s.shared s.producer = coming cfg x)
    (hfailed : x.executor.producer = .failed → s.producer = .failed)
    (hw : ∀ w b r, Waiter.worker w b r ∈ x.tasks.waiters →
      s.consumers[w]? = some (.staging r cfg.front.length)) :
    Sorted cfg total { x with executor := s } := by
  refine sorted_executor cfg total x s x.world x.running hx (fun _ => ?_) (fun i hi => ?_) hfailed hw
  · rw [hcome]
    exact hx.idle hr
  · rw [hr] at hi
    cases hi

theorem consumer_sorted (cfg : Setup σ F) (total : List LogRecord) (x : Built σ) (i : ℕ)
    (l : ConsumerLabel) (s : Executor.State) (hr : x.running = none) (hl : l ≠ .get)
    (hx : Sorted cfg total x) (hi : ∀ b r, Waiter.worker i b r ∉ x.tasks.waiters)
    (h : Executor.step cfg.executor x.executor (.consumer i l) = some s) :
    Sorted cfg total { x with executor := s } := by
  obtain ⟨c,c',sh,_,hc,rfl⟩ := consumer_moves cfg.executor x.executor s i l h
  exact outside_sorted cfg total x _ hr hx (consumes_toCome cfg.executor _ _ _ c c' l hc hl) id
    (set_waiters i c' hx.waiters hi)

theorem get_sorted (cfg : Setup σ F) (total : List LogRecord) (x : Built σ) (i : ℕ)
    (s : Executor.State) (hr : x.running = none) (hx : Sorted cfg total x)
    (h : Executor.step cfg.executor x.executor (.consumer i .get) = some s) :
    Sorted cfg total { x with executor := s, running := some i } := by
  obtain ⟨c,c',sh,hi,hc,rfl⟩ := consumer_moves cfg.executor x.executor s i .get h
  cases hc with
  | get r queue hq =>
    have hlt := (List.getElem?_eq_some_iff.mp hi).1
    have hout := not_waiting cfg total x i hx (by simp [hi])
    refine sorted_executor cfg total x _ x.world (some i) hx (fun h => by cases h)
      (fun j hj => ?_) id (set_waiters i _ hx.waiters hout)
    cases hj
    refine ⟨r,0,by simp [List.getElem?_set_self hlt],?_⟩
    have hidle := hx.idle hr
    rw [coming, toCome, hq, List.cons_append, sequential_cons] at hidle
    exact hidle

theorem front_name (cfg : Setup σ F) (k : ℕ) (st : Stage σ) (hk : cfg.front[k]? = some st) :
    cfg.executor.stageNames[k]? = some st.name := by
  have hlen := (List.getElem?_eq_some_iff.mp hk).1
  rw [cfg.names, List.getElem?_append_left (by simpa using hlen)]
  simp [hk]

theorem front_sorted (cfg : Setup σ F) (total : List LogRecord) (x : Built σ) (i : ℕ)
    (r : LogRecord) (k : ℕ) (st : Stage σ) (s : Executor.State) (hr : x.running = some i)
    (hi : x.executor.consumers[i]? = some (.staging r k)) (hk : cfg.front[k]? = some st)
    (hx : Sorted cfg total x)
    (h : Executor.step cfg.executor x.executor
      (.consumer i (.stage (st.process x.world r).1)) = some s) :
    Sorted cfg total { x with
      executor := s
      world := (st.process x.world r).2
      running := match (st.process x.world r).1 with | .ok _ => some i | .error _ => none } := by
  obtain ⟨hlen,_⟩ := List.getElem?_eq_some_iff.mp hk
  have hlt := (List.getElem?_eq_some_iff.mp hi).1
  have hname := front_name cfg k st hk
  have hout := not_waiting cfg total x i hx (fun q hq => by
    rw [hi] at hq
    cases hq
    exact lt_irrefl _ hlen)
  obtain ⟨r₀,k₀,hi₀,hahead⟩ := hx.active i hr
  rw [hi] at hi₀
  cases hi₀
  obtain ⟨c,c',sh,hc,hcons,rfl⟩ := consumer_moves cfg.executor x.executor s i _ h
  rw [hi] at hc
  cases hc
  have hcome := consumes_toCome cfg.executor _ _ x.executor.producer _ _ _ hcons (by simp)
  rw [ahead_stage cfg.front x.world r k st hk, coming] at hahead
  refine sorted_executor cfg total x _ _ _ hx ?_ ?_ id (set_waiters i c' hx.waiters hout)
  all_goals
    rw [hcome]
    generalize st.process x.world r = q at hahead hcons ⊢
    rcases q with ⟨out,w⟩
  · cases out with
    | error e => exact fun _ => hahead
    | ok r' => exact fun h => by cases h
  · cases hcons with
    | raised _ _ name e hk' => exact fun j hj => by cases hj
    | staged _ r' _ name hk' hid =>
      have hn : name = st.name := Option.some.inj (hk'.symm.trans hname)
      intro j hj
      cases hj
      refine ⟨r'.markStage name,k+1,by simp [List.getElem?_set_self hlt],?_⟩
      rw [hn]
      exact hahead

theorem enter_sorted (cfg : Setup σ F) (total : List LogRecord) (x : Built σ) (i : ℕ)
    (r : LogRecord) (now now' : Datetime) (s : Tasks) (hr : x.running = some i)
    (hi : x.executor.consumers[i]? = some (.staging r cfg.front.length))
    (hx : Sorted cfg total x) (h : Acts cfg.tasks x.tasks (.process i r now now') s) :
    Sorted cfg total { x with tasks := s, running := none, survivors := x.survivors ++ [r] } := by
  obtain ⟨r₀,k₀,hi₀,hahead⟩ := hx.active i hr
  rw [hi] at hi₀
  cases hi₀
  obtain ⟨hline,htagged,hmem⟩ := process_line cfg.tasks x.tasks s i r now now' hx.tagged h
  have hone : [r].filter (hasBlock cfg) =
      if (blockIdOf cfg.tasks.config r).isSome then [r] else [] := by
    simp [List.filter_singleton, hasBlock]
  constructor
  · intro _
    rw [ahead_passed] at hahead
    rw [← hahead]
    simp [after, coming]
  · intro j hj
    cases hj
  · rw [hline, List.filter_append, hone]
    exact hx.line.append (List.Sublist.refl _)
  · intro hcut
    rw [hline, List.filter_append, hone, hx.uncut hcut]
  · exact htagged
  · intro w b q hm
    rcases hmem w b q hm with hold | ⟨rfl,rfl⟩
    · exact hx.waiters w b q hold
    · exact hi
  · exact hx.spared

/-- Nobody waits for the lock when the consumers are cancelled after the queue
was joined. -/
theorem joined_not_waiting (cfg : Setup σ F) (total : List LogRecord) (lines : List String)
    (x : Built σ) (i : ℕ) (hinv : Inv cfg.executor lines x.executor) (hx : Sorted cfg total x)
    (hdown : x.executor.shared.shutdown = true) (hp : x.executor.producer ≠ .failed) :
    waiting (fun w => w = i) x.tasks.waiters = [] := by
  refine List.eq_nil_iff_forall_not_mem.mpr (fun r hr => ?_)
  obtain ⟨w,b,_,hb⟩ := mem_waiting _ _ r hr
  have hbusy := busy_unfinished x.executor w _ hinv.ledger (hx.waiters w b r hb)
  have hun := ((hinv.phases.joined hdown).resolve_left hp).2
  simp only [consumerHolding] at hbusy
  omega

theorem cancelled_sorted (cfg : Setup σ F) (total : List LogRecord) (lines : List String)
    (x : Built σ) (i : ℕ) (landed : Bool) (s : Executor.State) (hr : x.running = none)
    (hinv : Inv cfg.executor lines x.executor) (hx : Sorted cfg total x)
    (hstep : Executor.step cfg.executor x.executor (.cancelled i landed) = some s) :
    Sorted cfg total { x with
      executor := s
      tasks := cancelWorker i x.tasks
      cut := x.cut ++ waiting (fun w => w = i) x.tasks.waiters } := by
  obtain ⟨hsub,htagged,hline,hmem⟩ := cancelWorker_line cfg.tasks i x.tasks hx.tagged
  cases step_moves cfg.executor x.executor s _ hstep with
  | cancelled i landed c sh hdown hi h =>
    have hcome := unwind_toCome cfg.executor x.executor.shared sh x.executor.producer landed c h
    constructor
    · intro _
      rw [coming, hcome]
      exact hx.idle hr
    · intro j hj
      rw [hr] at hj
      cases hj
    · exact hsub.trans hx.line
    · intro hcut
      obtain ⟨hbefore,hnone⟩ := List.append_eq_nil_iff.mp hcut
      exact (hline hnone).trans (hx.uncut hbefore)
    · exact htagged
    · intro w b r hm
      obtain ⟨hold,hne⟩ := hmem w b r hm
      rw [List.getElem?_set_ne (Ne.symm hne)]
      exact hx.waiters w b r hold
    · intro hp
      rw [hx.spared hp, joined_not_waiting cfg total lines x i hinv hx hdown hp]
      rfl

theorem tasks_sorted (cfg : Setup σ F) (total : List LogRecord) (x : Built σ) (s : Tasks)
    (hx : Sorted cfg total x) (h : Still cfg.tasks x.tasks s) :
    Sorted cfg total { x with tasks := s } := by
  constructor
  · exact hx.idle
  · exact hx.active
  · rw [h.line]
    exact hx.line
  · intro hcut
    rw [h.line]
    exact hx.uncut hcut
  · exact h.tagged hx.tagged
  · exact fun w b r hm => hx.waiters w b r (h.workers w b r hm)
  · exact hx.spared

theorem outside_not_waiting (cfg : Setup σ F) (total : List LogRecord) (x : Built σ) (i : ℕ)
    (hx : Sorted cfg total x) (h : outside cfg x i = true) :
    ∀ b r, Waiter.worker i b r ∉ x.tasks.waiters :=
  not_waiting cfg total x i hx (fun r hr => by simp [outside, hr] at h)

theorem step_sorted (cfg : Setup σ F) (total : List LogRecord) (lines : List String)
    (x y : Built σ) (hinv : Inv cfg.executor lines x.executor) (hx : Sorted cfg total x)
    (hgoes : Goes cfg x y) : Sorted cfg total y := by
  cases hgoes with
  | get i s hr h => exact get_sorted cfg total x i s hr hx h
  | front i r k st s hr hi hk h => exact front_sorted cfg total x i r k st s hr hi hk hx h
  | enter i r now now' s hr hi h =>
    exact enter_sorted cfg total x i r now now' s hr hi hx (step_acts cfg.tasks _ _ _ h)
  | leave i r s hr hi hret h =>
    exact consumer_sorted cfg total x i _ s hr (by simp) hx
      (returned_not_waiting i x.tasks hret) h
  | consumer i l s hr hl hout h =>
    exact consumer_sorted cfg total x i l s hr hl hx (outside_not_waiting cfg total x i hx hout) h
  | cancelled i landed s hr h => exact cancelled_sorted cfg total lines x i landed s hr hinv hx h
  | other l s hr hl h =>
    obtain ⟨hcome,hcons,hfailed⟩ := other_toCome cfg.executor x.executor s l hl h
    exact outside_sorted cfg total x s hr hx hcome hfailed (hcons ▸ hx.waiters)
  | tasks l s hr hl h =>
    exact tasks_sorted cfg total x s hx
      (acts_still cfg.tasks x.tasks s l hl (step_acts cfg.tasks _ _ _ h))

/-- The executor and the sessionizer of a built pipeline go on as they do
alone. -/
theorem goes_parts (cfg : Setup σ F) (lines : List String) (x y : Built σ)
    (hinv : Inv cfg.executor lines x.executor) (ho : Orderly cfg.tasks x.tasks)
    (hgoes : Goes cfg x y) :
    Inv cfg.executor lines y.executor ∧ Orderly cfg.tasks y.tasks := by
  cases hgoes with
  | enter i r now now' s hr hi h =>
    exact ⟨hinv,step_orderly cfg.tasks x.tasks s _ ho (step_acts cfg.tasks _ _ _ h)⟩
  | cancelled i landed s hr h =>
    exact ⟨step_inv cfg.executor lines _ s _ hinv h,cancelWorker_orderly cfg.tasks i _ ho⟩
  | tasks l s hr hl h =>
    exact ⟨hinv,step_orderly cfg.tasks x.tasks s _ ho (step_acts cfg.tasks _ _ _ h)⟩
  | get i s hr h => exact ⟨step_inv cfg.executor lines _ s _ hinv h,ho⟩
  | front i r k st s hr hi hk h => exact ⟨step_inv cfg.executor lines _ s _ hinv h,ho⟩
  | leave i r s hr hi hret h => exact ⟨step_inv cfg.executor lines _ s _ hinv h,ho⟩
  | consumer i l s hr hl hout h => exact ⟨step_inv cfg.executor lines _ s _ hinv h,ho⟩
  | other l s hr hl h => exact ⟨step_inv cfg.executor lines _ s _ hinv h,ho⟩

theorem run_sorted (cfg : Setup σ F) (w : σ) (started : Bool) (lines : List String)
    (ls : List Label) (x : Built σ)
    (hrun : run (step cfg) (initial cfg w started lines) ls = some x) :
    Inv cfg.executor lines x.executor ∧ Orderly cfg.tasks x.tasks ∧
    Sorted cfg (survivorsOf cfg w lines) x :=
  run_invariant (step cfg)
    (fun x => Inv cfg.executor lines x.executor ∧ Orderly cfg.tasks x.tasks ∧
      Sorted cfg (survivorsOf cfg w lines) x)
    (fun x l y hx h => by
      have hgoes := step_goes cfg x y l h
      have hparts := goes_parts cfg lines x y hx.1 hx.2.1 hgoes
      exact ⟨hparts.1,hparts.2,step_sorted cfg _ lines x y hx.1 hx.2.2 hgoes⟩)
    ⟨run_inv cfg.executor lines [] _ rfl,SessionizerTasks.initial_orderly cfg.tasks started,
      initial_sorted cfg w started lines⟩
    hrun

/-- The event ids of a block's records. -/
def eventIds (cfg : Sessionizer.Config F) (b : String) (rs : List LogRecord) : List String :=
  (rs.filter (fun r => blockIdOf cfg r = some b)).flatMap (newEvents cfg)

theorem arrived_eventIds (cfg : Sessionizer.Config F) (h : List (String × LogRecord))
    (b : String) (ht : ∀ p ∈ h, blockIdOf cfg p.2 = some p.1) :
    arrived (events cfg) h b = eventIds cfg b (h.map Prod.snd) := by
  have hsame : h.filter ((fun r => decide (blockIdOf cfg r = some b)) ∘ Prod.snd) =
      h.filter (fun p => p.1 = b) :=
    List.filter_congr (fun p hp => by simp [ht p hp])
  rw [eventIds, List.filter_map, List.flatMap_map, hsame]
  rfl

theorem eventIds_hasBlock (cfg : Setup σ F) (b : String) (rs : List LogRecord) :
    eventIds cfg.tasks.config b (rs.filter (hasBlock cfg)) = eventIds cfg.tasks.config b rs := by
  rw [eventIds, eventIds, List.filter_filter]
  congr 1
  refine List.filter_congr (fun r _ => ?_)
  cases hb : blockIdOf cfg.tasks.config r <;> simp [hasBlock, hb]

/-- The records in or past the sessionizer's line came first among those that
survive. -/
theorem sorted_survivors (cfg : Setup σ F) (total : List LogRecord) (x : Built σ)
    (hx : Sorted cfg total x) : x.survivors <+: total := by
  cases hr : x.running with
  | none => exact ⟨_,hx.idle hr⟩
  | some i =>
    obtain ⟨r,k,_,htotal⟩ := hx.active i hr
    exact ⟨_,htotal⟩

/-- When `run` returns, every survivor has been added to the table. -/
theorem sorted_returned (cfg : Setup σ F) (w : σ) (lines : List String) (x : Built σ)
    (hinv : Inv cfg.executor lines x.executor) (hx : Sorted cfg (survivorsOf cfg w lines) x)
    (hret : x.executor.main = .returned) :
    x.tasks.processed.map Prod.snd = (survivorsOf cfg w lines).filter (hasBlock cfg) := by
  have hf := ExecutorAccounting.returned_finished cfg.executor lines x.executor hinv hret
  have hp := hinv.phases.returned hret
  have hdown : x.executor.shared.shutdown = true := by
    simp [hinv.phases.shutdown, hret, cancelling]
  have hfin := ((hinv.phases.joined hdown).resolve_left hp).1
  have hexit := (hinv.phases.gathered (by rw [hret]; rfl)).1
  have hcome : coming cfg x = [] := by simp [coming, toCome, hf.queue, hfin, upstream]
  have hidle : x.running = none := by
    refine Option.eq_none_iff_forall_ne_some.mpr (fun i hi => ?_)
    obtain ⟨r,k,hc,_⟩ := hx.active i hi
    cases hexit _ (List.mem_of_getElem? hc)
  have hnobody : waiting (fun _ => true) x.tasks.waiters = [] := by
    refine List.eq_nil_iff_forall_not_mem.mpr (fun r hr => ?_)
    obtain ⟨i,b,_,hb⟩ := mem_waiting _ _ r hr
    cases hexit _ (List.mem_of_getElem? (hx.waiters i b r hb))
  have htotal := hx.idle hidle
  rw [hcome, sequential, List.append_nil] at htotal
  rw [← htotal, ← hx.uncut (hx.spared hp), line, hnobody, List.append_nil]

/-- The traces of a block hold, in the order of their emission, the event ids
of the records that were added to the table. These are survivors, in the order
of their lines. Only a consumer that is cancelled after the source failed
leaves the line, and when `run` returns no survivor is missing. -/
structure InOrder (cfg : Setup σ F) (survivors : List LogRecord) (x : Built σ) : Prop where
  split : ∀ b, emitted (events cfg.tasks.config) x.tasks.sessionizer b ++
      pending (events cfg.tasks.config) x.tasks.sessionizer b =
    eventIds cfg.tasks.config b (x.tasks.processed.map Prod.snd)
  kept : (x.tasks.processed.map Prod.snd).Sublist survivors
  uncut : x.executor.producer ≠ .failed →
    x.tasks.processed.map Prod.snd <+: survivors.filter (hasBlock cfg)
  complete : x.executor.main = .returned →
    ∀ b, emitted (events cfg.tasks.config) x.tasks.sessionizer b ++
        pending (events cfg.tasks.config) x.tasks.sessionizer b =
      eventIds cfg.tasks.config b survivors
  stopped : x.executor.main = .returned → x.tasks.sessionizer.openTraces.items = [] →
    ∀ b, emitted (events cfg.tasks.config) x.tasks.sessionizer b =
      eventIds cfg.tasks.config b survivors

theorem sorted_inOrder (cfg : Setup σ F) (w : σ) (lines : List String) (x : Built σ)
    (hinv : Inv cfg.executor lines x.executor) (ho : Orderly cfg.tasks x.tasks)
    (hx : Sorted cfg (survivorsOf cfg w lines) x) :
    InOrder cfg (survivorsOf cfg w lines) x := by
  have hsplit : ∀ b, emitted (events cfg.tasks.config) x.tasks.sessionizer b ++
      pending (events cfg.tasks.config) x.tasks.sessionizer b =
      eventIds cfg.tasks.config b (x.tasks.processed.map Prod.snd) :=
    fun b => (ho.partition.split (events cfg.tasks.config) b).trans
      (arrived_eventIds cfg.tasks.config _ b hx.tagged.processed)
  have hfirst : x.tasks.processed.map Prod.snd <+: line x.tasks := List.prefix_append _ _
  have hsurvivors := sorted_survivors cfg _ x hx
  have hcomplete (hret : x.executor.main = .returned) (b : String) :
      emitted (events cfg.tasks.config) x.tasks.sessionizer b ++
        pending (events cfg.tasks.config) x.tasks.sessionizer b =
      eventIds cfg.tasks.config b (survivorsOf cfg w lines) := by
    rw [hsplit, sorted_returned cfg w lines x hinv hx hret, eventIds_hasBlock]
  refine ⟨hsplit,?_,fun hp => ?_,hcomplete,fun hret hempty b => ?_⟩
  · exact ((hfirst.sublist.trans hx.line).trans List.filter_sublist).trans hsurvivors.sublist
  · have hline := hx.uncut (hx.spared hp)
    exact (hline ▸ hfirst).trans (hsurvivors.filter _)
  · have hnone : x.tasks.sessionizer.openTraces.get? b = none :=
      OrderedDict.get?_eq_none.mpr (by simp [OrderedDict.keys, hempty])
    have hb := hcomplete hret b
    rwa [pending, hnone, Option.elim_none, List.append_nil] at hb

/-- A parser of lines that are event ids of one block. -/
def sampleParser : Parser where
  name := "raw"
  parse raw := .ok { id := 0, timestamp := some 0, message := raw
                     enrichment := ⟨[("block_id",.str "blk_1"),("event_id",.str raw)],by simp⟩ }

def sampleSessionizing : Sessionizing Sessionizer.State ℚ where
  config := Sessionizer.Config.default 7
  state := id
  update _ s := s
  clock _ := (0,0)

/-- Two consumers, and one handler of the traces. -/
def sampleSetup : Setup Sessionizer.State ℚ :=
  buildPipeline
    { stageNames := ["parse:raw","sessionize:block"]
      numWorkers := 2
      queueSize := 2
      batchSize := 100
      runId := 7
      sourceRaises := false
      workers_pos := Nat.two_pos
      queue_pos := Nat.two_pos
      batch_pos := by decide }
    1 (parserStage sampleParser) none none sampleSessionizing [] (by decide)

/-- A line from the queue to the sessionizer. -/
def reaches (i : ℕ) : List Label := [.get i,.front i,.enter i 0 0]

/-- The first line ends the block. While the handler of its trace has the lock
waiting, both consumers queue up behind, and then leave the other way round. -/
def contended : List Label :=
  [.producer,.producer] ++ reaches 0 ++ [.leave 0,.consumer 0 .buffer,.tasks .tick] ++
    List.replicate 4 .producer ++ reaches 0 ++ reaches 1 ++
    [.tasks (.handled 0),.tasks .resume,.tasks (.grant 0 0),.tasks (.grant 0 0),
      .leave 1,.consumer 1 .buffer,.leave 0,.consumer 0 .buffer]

/-- `run` returns, and then `stop` does. -/
def closes : List Label :=
  [.producer,.main .advance,.main .advance,.cancelled 0 false,.cancelled 1 false,.flusher .tick,
    .flusher .swap,.flusher (.saved .stored),.main .advance,.main .advance,
    .tasks .stopCall,.tasks .unwound,.tasks .joined,.tasks (.handled 0),.tasks .resume]

def contendedEnd : Built Sessionizer.State :=
  (run (step sampleSetup) (initial sampleSetup .initial true ["E9","E2","E3"])
    (contended ++ closes)).getD (initial sampleSetup .initial true [])

theorem source_order (cfg : Setup σ F) (w : σ) (started : Bool) (lines : List String)
    (ls : List Label) (x : Built σ)
    (hrun : run (step cfg) (initial cfg w started lines) ls = some x) :
    InOrder cfg (survivorsOf cfg w lines) x := by
  obtain ⟨hinv,ho,hx⟩ := run_sorted cfg w started lines ls x hrun
  exact sorted_inOrder cfg w lines x hinv ho hx

theorem source_order_contended :
    emitted (events sampleSetup.tasks.config) contendedEnd.tasks.sessionizer "blk_1" =
      ["E9","E2","E3"] := by
  have h := source_order sampleSetup .initial true ["E9","E2","E3"] (contended ++ closes)
    contendedEnd (by decide)
  rw [h.stopped (by decide) (by decide) "blk_1"]
  decide

end PipelineX.SourceOrder
