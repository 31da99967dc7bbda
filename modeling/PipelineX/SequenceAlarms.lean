import PipelineX.TraceListeners
import PipelineX.SourceOrder
import PipelineX.SequenceScoring

/-!
# The alarms of a built pipeline

`build_pipeline` subscribes a handler that scores each closed trace and saves
what the detector reports. While the source does not raise, the sessionizer of
a built pipeline goes on as it does alone, so the handler hears every emitted
trace, and an alarm shows an n-gram of the block's own lines in their order
(on CPython 3.12 and later, as everything about that order).
-/

set_option autoImplicit false

namespace PipelineX.SequenceAlarms
open PipelineX.Records PipelineX.Stages PipelineX.TransitionSystem PipelineX.Listening
open PipelineX.Sessionizer (blockIdOf newEvents)
open PipelineX.ExecutorSteps PipelineX.ExecutorPhases PipelineX.SessionizerPartition
open PipelineX.SessionizerTasks (Tasks Waiter Owner Publishing Acts Orderly acquire emitAll inHands
  step_acts)
open PipelineX.BuiltPipeline PipelineX.SourceOrder PipelineX.TraceListeners
open PipelineX.SequenceDetector

variable {σ F : Type} [Sessionizer.Seconds F]

def Owned (s : Tasks) (w : ℕ) : Prop := ∃ p, s.holder = some p ∧ p.owner = .worker w

theorem emitAll_owner (cfg : SessionizerTasks.Setup F) (o : Owner)
    (cs : List Sessionizer.Closing) (s : Tasks) {p : Publishing}
    (h : (emitAll cfg o cs s).holder = some p) : p.owner = o := by
  induction cs generalizing s with
  | nil => cases o <;> cases h
  | cons c cs ih =>
    by_cases hn : cfg.handlers = 0
    · rw [emitAll, if_pos hn] at h
      exact ih _ h
    · rw [emitAll, if_neg hn] at h
      cases h
      rfl

/-- Who may have the lock after a step. -/
theorem acts_owner (cfg : SessionizerTasks.Setup F) (s t : Tasks) (l : SessionizerTasks.Label)
    (w : ℕ) (h : Acts cfg s l t) (ht : Owned t w) :
    Owned s w ∨ (∃ b r, Waiter.worker w b r ∈ s.waiters) ∨
      ∃ r now now', l = .process w r now now' := by
  obtain ⟨p,hp,ho⟩ := ht
  have hemit (o : Owner) (cs : List Sessionizer.Closing) (u : Tasks)
      (h : (emitAll cfg o cs u).holder = some p) : o = .worker w :=
    (emitAll_owner cfg o cs u h).symm.trans ho
  have hacquire (enter : Tasks → Tasks) (k : Waiter) (u : Tasks) (hu : u.holder = s.holder)
      (henter : (enter u).holder ≠ some p) (h : (acquire enter k u).holder = some p) :
      Owned s w := by
    unfold acquire at h
    split at h
    · exact absurd h henter
    · exact ⟨p,hu ▸ h,ho⟩
  have hjanitor (u : Tasks) : (SessionizerTasks.passLocked cfg u).holder ≠ some p :=
    fun h => by simpa using hemit .janitor _ _ h
  have hstop (u : Tasks) : (SessionizerTasks.flushLocked cfg u).holder ≠ some p :=
    fun h => by simpa using hemit .stop _ _ h
  cases h with
  | ignored v r now now' hb => exact Or.inl ⟨p,hp,ho⟩
  | process v b r now now' hb =>
    unfold acquire at hp
    split at hp
    · cases hemit _ _ _ hp
      exact Or.inr (Or.inr ⟨r,now,now',rfl⟩)
    · exact Or.inl ⟨p,hp,ho⟩
  | grantWorker v b r ks now now' hh hw =>
    cases hemit _ _ _ hp
    exact Or.inr (Or.inl ⟨b,r,by simp [hw]⟩)
  | grantJanitor ks now now' hh hw => exact absurd hp (hjanitor _)
  | grantStop ks now now' hh hw => exact absurd hp (hstop _)
  | handled h q hh hm =>
    cases hp
    exact Or.inl ⟨q,hh,ho⟩
  | resume q hh hq hj => exact Or.inl ⟨q,hh,hemit _ _ _ hp⟩
  | tick hj => exact Or.inl (hacquire _ _ { s with janitor := .passing } rfl (hjanitor _) hp)
  | stopAlone hs hj => exact Or.inl (hacquire _ _ { s with stop := .flushing } rfl (hstop _) hp)
  | stopJoins hs hj =>
    obtain ⟨q,hq,rfl⟩ := Option.map_eq_some_iff.mp hp
    by_cases hown : q.owner = .janitor
    · simp [hown] at ho
    · rw [if_neg hown] at ho
      exact Or.inl ⟨q,hq,ho⟩
  | unwound hj => exact Or.inl ⟨p,(Option.filter_eq_some_iff.mp hp).1,ho⟩
  | joined hs hj => exact Or.inl (hacquire _ _ { s with stop := .flushing } rfl (hstop _) hp)

/-- A consumer that has the sessionizer's lock is at the sessionizer. -/
def Held (cfg : Setup σ F) (x : Built σ) : Prop :=
  ∀ w, Owned x.tasks w → ∃ r, x.executor.consumers[w]? = some (.staging r cfg.front.length)

/-- Only consumer `i` moves, and it does not have the lock. -/
theorem held_set (cfg : Setup σ F) {x : Built σ} (i : ℕ) (c : Executor.Consumer)
    (hx : Held cfg x) (hi : ¬ Owned x.tasks i) :
    ∀ w, Owned x.tasks w →
      ∃ r, (x.executor.consumers.set i c)[w]? = some (.staging r cfg.front.length) := by
  intro w hw
  have hne : i ≠ w := fun h => hi (h ▸ hw)
  rw [List.getElem?_set_ne hne]
  exact hx w hw

theorem not_owned (cfg : Setup σ F) {x : Built σ} {i : ℕ} (hx : Held cfg x)
    (hi : ∀ r, x.executor.consumers[i]? ≠ some (.staging r cfg.front.length)) :
    ¬ Owned x.tasks i :=
  fun h => (hx i h).elim fun r hr => hi r hr

theorem tasks_held (cfg : Setup σ F) (x : Built σ) (s : Tasks) (l : SessionizerTasks.Label)
    (hx : Held cfg x)
    (hw : ∀ w b r, Waiter.worker w b r ∈ x.tasks.waiters →
      x.executor.consumers[w]? = some (.staging r cfg.front.length))
    (hl : ∀ w r now now', l = .process w r now now' →
      ∃ q, x.executor.consumers[w]? = some (.staging q cfg.front.length))
    (h : SessionizerTasks.step cfg.tasks x.tasks l = some s) :
    ∀ w, Owned s w →
      ∃ r, x.executor.consumers[w]? = some (.staging r cfg.front.length) := by
  intro w hs
  rcases acts_owner cfg.tasks x.tasks s l w (step_acts cfg.tasks _ _ _ h) hs with
    hold | ⟨b,r,hm⟩ | ⟨r,now,now',hp⟩
  · exact hx w hold
  · exact ⟨r,hw w b r hm⟩
  · exact hl w r now now' hp

theorem goes_held (cfg : Setup σ F) (total : List LogRecord) (x y : Built σ)
    (hs : Sorted cfg total x) (hx : Held cfg x) (hgoes : Goes cfg x y) : Held cfg y := by
  cases hgoes with
  | get i s hr h =>
    obtain ⟨c,c',sh,hi,hc,rfl⟩ := consumer_moves cfg.executor x.executor s i .get h
    cases hc
    exact held_set cfg i _ hx (not_owned cfg hx (by simp [hi]))
  | front i r k st s hr hi hk h =>
    have hlen := (List.getElem?_eq_some_iff.mp hk).1
    obtain ⟨c,c',sh,_,_,rfl⟩ := consumer_moves cfg.executor x.executor s i _ h
    refine held_set cfg i _ hx (not_owned cfg hx (fun q hq => ?_))
    rw [hi] at hq
    cases hq
    exact lt_irrefl _ hlen
  | enter i r now now' s hr hi h =>
    refine tasks_held cfg x s _ hx hs.waiters (fun w q _ _ he => ?_) h
    cases he
    exact ⟨r,hi⟩
  | leave i r s hr hi hret h =>
    obtain ⟨c,c',sh,_,_,rfl⟩ := consumer_moves cfg.executor x.executor s i _ h
    refine held_set cfg i _ hx (fun ⟨p,hp,ho⟩ => ?_)
    have hnone := (Bool.and_eq_true_iff.mp hret).2
    simp [hp, ho, Option.filter_some] at hnone
  | consumer i l s hr hl hout h =>
    obtain ⟨c,c',sh,_,_,rfl⟩ := consumer_moves cfg.executor x.executor s i l h
    exact held_set cfg i _ hx (not_owned cfg hx (fun r hr => by simp [outside, hr] at hout))
  | cancelled i landed s hr h =>
    cases step_moves cfg.executor x.executor s _ h with
    | cancelled i landed c sh hdown hi h =>
      rintro w ⟨p,hp,ho⟩
      obtain ⟨hp,hne⟩ := Option.filter_eq_some_iff.mp hp
      have hw : i ≠ w := fun he => by simp [ho, he] at hne
      change ∃ r, (x.executor.consumers.set i _)[w]? = _
      rw [List.getElem?_set_ne hw]
      exact hx w ⟨p,hp,ho⟩
  | other l s hr hl h =>
    intro w hw
    change ∃ r, s.consumers[w]? = _
    rw [(other_toCome cfg.executor x.executor s l hl h).2.1]
    exact hx w hw
  | tasks l s hr hl h =>
    exact tasks_held cfg x s l hx hs.waiters (fun w r now now' he => absurd he (hl w r now now')) h

/-- When the queue was joined, cancelling a consumer touches nothing at the
sessionizer. -/
theorem cancelWorker_idle (cfg : Setup σ F) (total : List LogRecord) (lines : List String)
    (x : Built σ) (i : ℕ) (hinv : Inv cfg.executor lines x.executor) (hs : Sorted cfg total x)
    (hx : Held cfg x) (hdown : x.executor.shared.shutdown = true)
    (hp : x.executor.producer ≠ .failed) : cancelWorker i x.tasks = x.tasks := by
  have hidle : ∀ (w : ℕ) (r : LogRecord),
      x.executor.consumers[w]? ≠ some (.staging r cfg.front.length) := by
    intro w r hw
    have hbusy := busy_unfinished x.executor w _ hinv.ledger hw
    have hun := ((hinv.phases.joined hdown).resolve_left hp).2
    simp only [ExecutorLedger.consumerHolding] at hbusy
    omega
  have hholder : ∀ p, x.tasks.holder = some p → p.owner ≠ .worker i :=
    fun p hp ho => not_owned cfg hx (hidle i) ⟨p,hp,ho⟩
  have hwaiters : x.tasks.waiters.filter (fun k => !ofWorker i k) = x.tasks.waiters := by
    rw [List.filter_eq_self]
    intro k hk
    cases k with
    | worker w b r => exact absurd (hs.waiters w b r hk) (hidle w r)
    | _ => rfl
  have hhold : x.tasks.holder.filter (fun p => p.owner ≠ .worker i) = x.tasks.holder := by
    cases hh : x.tasks.holder with
    | none => rfl
    | some p => simp [Option.filter_some, hholder p hh]
  have hhands : inHands x.tasks (.worker i) = [] := by
    cases hh : x.tasks.holder with
    | none => simp [inHands, hh]
    | some p => simp [inHands, hh, hholder p hh]
  rw [cancelWorker, hwaiters, hhold, hhands, List.append_nil]

/-- The trace that handler `k` finishes with in a step of the built pipeline. -/
def hearsBuilt (k : ℕ) (x : Built σ) : BuiltPipeline.Label → Option BlockTrace
  | .tasks l => hears k x.tasks l
  | _ => none

/-- The sessionizer makes a step of its own, or none. -/
def Follows (cfg : Setup σ F) (k : ℕ) (x y : Built σ) (l : BuiltPipeline.Label) : Prop :=
  (y.tasks = x.tasks ∧ hearsBuilt k x l = none) ∨
    ∃ m, SessionizerTasks.step cfg.tasks x.tasks m = some y.tasks ∧
      hearsBuilt k x l = hears k x.tasks m

theorem executorStep_tasks (cfg : Setup σ F) {x y : Built σ} {l : Executor.Label}
    (h : executorStep cfg x l = some y) : y.tasks = x.tasks := by
  obtain ⟨s,_,rfl⟩ := Option.map_eq_some_iff.mp h
  rfl

theorem stepRunning_follows (cfg : Setup σ F) (k i : ℕ) (x y : Built σ)
    (l : BuiltPipeline.Label) (h : stepRunning cfg x i l = some y) : Follows cfg k x y l := by
  cases l with
  | front j =>
    simp only [stepRunning] at h
    split at h
    · split at h
      · obtain ⟨st,_,h⟩ := Option.bind_eq_some_iff.mp h
        obtain ⟨z,hz,rfl⟩ := Option.map_eq_some_iff.mp h
        have htasks := executorStep_tasks cfg hz
        exact Or.inl ⟨htasks,rfl⟩
      · cases h
    · cases h
  | enter j now now' =>
    simp only [stepRunning] at h
    split at h
    · split at h
      · next r n hi =>
        split at h
        · obtain ⟨s,hs,rfl⟩ := Option.map_eq_some_iff.mp h
          exact Or.inr ⟨.process i r now now',hs,rfl⟩
        · cases h
      · cases h
    · cases h
  | _ => cases h

theorem stepIdle_follows (cfg : Setup σ F) (k : ℕ) (total : List LogRecord)
    (lines : List String) (x y : Built σ) (l : BuiltPipeline.Label)
    (hinv : Inv cfg.executor lines x.executor) (hs : Sorted cfg total x) (hx : Held cfg x)
    (hsource : cfg.executor.sourceRaises = false) (h : stepIdle cfg x l = some y) :
    Follows cfg k x y l := by
  cases l with
  | get i =>
    obtain ⟨z,hz,rfl⟩ := Option.map_eq_some_iff.mp h
    have htasks := executorStep_tasks cfg hz
    exact Or.inl ⟨htasks,rfl⟩
  | leave i =>
    simp only [stepIdle] at h
    split at h
    · split at h
      · exact Or.inl ⟨executorStep_tasks cfg h,rfl⟩
      · cases h
    · cases h
  | consumer i m =>
    cases m with
    | get => cases h
    | _ =>
      simp only [stepIdle] at h
      split at h
      · exact Or.inl ⟨executorStep_tasks cfg h,rfl⟩
      · cases h
  | cancelled i landed =>
    obtain ⟨z,hz,rfl⟩ := Option.map_eq_some_iff.mp h
    obtain ⟨s,hstep,rfl⟩ := Option.map_eq_some_iff.mp hz
    have hdown : x.executor.shared.shutdown = true := by
      cases step_moves _ _ _ _ hstep with
      | cancelled _ _ _ _ hdown _ _ => exact hdown
    have hp : x.executor.producer ≠ .failed := fun hf => by
      simpa [hsource] using hinv.phases.raises hf
    exact Or.inl ⟨cancelWorker_idle cfg total lines x i hinv hs hx hdown hp,rfl⟩
  | producer => exact Or.inl ⟨executorStep_tasks cfg h,rfl⟩
  | flusher m => exact Or.inl ⟨executorStep_tasks cfg h,rfl⟩
  | main m => exact Or.inl ⟨executorStep_tasks cfg h,rfl⟩
  | tasks m =>
    cases m with
    | process w r now now' => cases h
    | _ =>
      obtain ⟨s,hs,rfl⟩ := Option.map_eq_some_iff.mp h
      exact Or.inr ⟨_,hs,rfl⟩
  | _ => cases h

/-- While the source does not raise, the sessionizer of a built pipeline goes
on as it does alone. -/
theorem step_follows (cfg : Setup σ F) (k : ℕ) (total : List LogRecord) (lines : List String)
    (x y : Built σ) (l : BuiltPipeline.Label) (hinv : Inv cfg.executor lines x.executor)
    (hs : Sorted cfg total x) (hx : Held cfg x) (hsource : cfg.executor.sourceRaises = false)
    (h : step cfg x l = some y) : Follows cfg k x y l := by
  unfold step at h
  split at h
  · exact stepRunning_follows cfg k _ x y l h
  · exact stepIdle_follows cfg k total lines x y l hinv hs hx hsource h

/-- What holds of a built pipeline when handler `k` has heard these traces. -/
structure Sound (cfg : Setup σ F) (k : ℕ) (w : σ) (lines : List String) (x : Built σ)
    (heard : List BlockTrace) : Prop where
  executor : Inv cfg.executor lines x.executor
  orderly : Orderly cfg.tasks x.tasks
  sorted : Sorted cfg (survivorsOf cfg w lines) x
  held : Held cfg x
  paced : Paced cfg.tasks k x.tasks
  heard : Heard k x.tasks heard

theorem initial_sound (cfg : Setup σ F) (k : ℕ) (w : σ) (started : Bool) (lines : List String) :
    Sound cfg k w lines (initial cfg w started lines) [] where
  executor := run_inv cfg.executor lines [] _ rfl
  orderly := SessionizerTasks.initial_orderly cfg.tasks started
  sorted := initial_sorted cfg w started lines
  held := by
    rintro v ⟨p,hp,_⟩
    cases hp
  paced := run_paced cfg.tasks k started [] _ rfl
  heard := initial_heard k started

theorem step_sound (cfg : Setup σ F) (k : ℕ) (w : σ) (lines : List String) (x y : Built σ)
    (l : BuiltPipeline.Label) (heard : List BlockTrace)
    (hsource : cfg.executor.sourceRaises = false) (hx : Sound cfg k w lines x heard)
    (h : step cfg x l = some y) :
    Sound cfg k w lines y (heard ++ (hearsBuilt k x l).toList) := by
  have hgoes := step_goes cfg x y l h
  obtain ⟨hexec,horderly⟩ := goes_parts cfg lines x y hx.executor hx.orderly hgoes
  have hsorted := step_sorted cfg _ lines x y hx.executor hx.sorted hgoes
  have hheld := goes_held cfg _ x y hx.sorted hx.held hgoes
  rcases step_follows cfg k _ lines x y l hx.executor hx.sorted hx.held hsource h with
    ⟨htasks,hnone⟩ | ⟨m,hm,hhears⟩
  · rw [hnone, Option.toList_none, List.append_nil]
    exact ⟨hexec,horderly,hsorted,hheld,htasks ▸ hx.paced,htasks ▸ hx.heard⟩
  · have hacts := step_acts cfg.tasks _ _ _ hm
    rw [hhears]
    exact ⟨hexec,horderly,hsorted,hheld,acts_paced cfg.tasks k _ _ m hx.paced hacts,
      acts_heard cfg.tasks k _ _ m heard hx.heard hacts⟩

/-- What `detect_trace` draws for an anomaly, and whether `save_anomaly` stores
it or raises. -/
structure Draw where
  id : UUID
  anchor : UUID
  detectedAt : Datetime
  saved : Bool
  deriving DecidableEq

/-- `on_trace_closed` of `_build_sequence_detector`, on the anomalies of the
repository. What `save_anomaly` raises goes to the bus. -/
def onTraceClosed (d : SequenceAnomalyDetector) (draw : Draw) (trace : BlockTrace)
    (anomalies : List AnomalyEvent) : List AnomalyEvent :=
  match detectTrace d trace draw.id draw.anchor draw.detectedAt with
  | none => anomalies
  | some anomaly => if draw.saved then anomalies ++ [anomaly] else anomalies

/-- The built pipeline and the anomalies that handler `k` has saved. -/
def stepAlarmed (cfg : Setup σ F) (k : ℕ) (d : SequenceAnomalyDetector) :
    Built σ × List AnomalyEvent → BuiltPipeline.Label × Draw →
      Option (Built σ × List AnomalyEvent) :=
  listen (step cfg) (hearsBuilt k) (onTraceClosed d)

/-- The detector reports an anomaly of the trace. -/
def flagged (d : SequenceAnomalyDetector) (trace : BlockTrace) : Bool :=
  1 ≤ d.model.n ∧ d.model.n ≤ trace.eventSequence.length ∧ d.threshold < ratio d.model trace

/-- The anomaly is what the detector reports of the trace with these draws. -/
def Reports (d : SequenceAnomalyDetector) (anomaly : AnomalyEvent) (p : Draw × BlockTrace) : Prop :=
  detectTrace d p.2 p.1.id p.1.anchor p.1.detectedAt = some anomaly

theorem detectTrace_flagged (d : SequenceAnomalyDetector) (trace : BlockTrace) (id anchor : UUID)
    (detectedAt : Datetime) :
    (detectTrace d trace id anchor detectedAt).isSome = flagged d trace := by
  rw [Bool.eq_iff_iff, detectTrace_isSome_iff, flagged, decide_eq_true_eq]

/-- The traces whose anomaly is reported and stored. -/
def kept (d : SequenceAnomalyDetector) (p : Draw × BlockTrace) : Bool :=
  flagged d p.2 && p.1.saved

theorem onTraceClosed_kept {d : SequenceAnomalyDetector} {p : Draw × BlockTrace}
    (h : kept d p = true) (anomalies : List AnomalyEvent) :
    ∃ anomaly, Reports d anomaly p ∧
      onTraceClosed d p.1 p.2 anomalies = anomalies ++ [anomaly] := by
  obtain ⟨hflag,hsaved⟩ := Bool.and_eq_true_iff.mp h
  rw [← detectTrace_flagged d p.2 p.1.id p.1.anchor p.1.detectedAt] at hflag
  obtain ⟨anomaly,hd⟩ := Option.isSome_iff_exists.mp hflag
  exact ⟨anomaly,hd,by simp [onTraceClosed, hd, hsaved]⟩

theorem onTraceClosed_lost {d : SequenceAnomalyDetector} {p : Draw × BlockTrace}
    (h : ¬ kept d p = true) (anomalies : List AnomalyEvent) :
    onTraceClosed d p.1 p.2 anomalies = anomalies := by
  have hflag := detectTrace_flagged d p.2 p.1.id p.1.anchor p.1.detectedAt
  unfold onTraceClosed
  split
  · rfl
  · next anomaly hd =>
    rw [hd, Option.isSome_some] at hflag
    have hsaved : ¬ p.1.saved = true := fun hs => h (by simp [kept, ← hflag, hs])
    exact if_neg hsaved

/-- The saved anomalies are those of the flagged traces, in order, without
those whose save failed. -/
theorem folded_reports (d : SequenceAnomalyDetector) (heard : List (Draw × BlockTrace))
    (anomalies : List AnomalyEvent) (before : List (Draw × BlockTrace))
    (h : List.Forall₂ (Reports d) anomalies before) :
    List.Forall₂ (Reports d) (heard.foldl (fun as p => onTraceClosed d p.1 p.2 as) anomalies)
      (before ++ heard.filter (kept d)) := by
  induction heard generalizing anomalies before with
  | nil => simpa using h
  | cons p heard ih =>
    rw [List.foldl_cons]
    by_cases hp : kept d p = true
    · obtain ⟨anomaly,hr,hnew⟩ := onTraceClosed_kept hp anomalies
      rw [List.filter_cons_of_pos hp, hnew]
      have hnext := ih (anomalies ++ [anomaly]) (before ++ [p])
        (List.rel_append h (List.Forall₂.cons hr List.Forall₂.nil))
      rwa [List.append_assoc] at hnext
    · rw [List.filter_cons_of_neg hp, onTraceClosed_lost hp]
      exact ih anomalies before h

theorem reported_of_mem {d : SequenceAnomalyDetector} {anomalies : List AnomalyEvent}
    {drawn : List (Draw × BlockTrace)} (h : List.Forall₂ (Reports d) anomalies drawn)
    {a : AnomalyEvent} (ha : a ∈ anomalies) : ∃ p ∈ drawn, Reports d a p := by
  induction h with
  | nil => cases ha
  | cons hr _ ih =>
    rcases List.mem_cons.mp ha with rfl | ha
    · exact ⟨_,List.mem_cons_self,hr⟩
    · obtain ⟨p,hp,hpr⟩ := ih ha
      exact ⟨p,List.mem_cons_of_mem _ hp,hpr⟩

/-- An alarm of block `b` that the log itself bears out: it names a record of
the block, and the events of the block's lines, in their order, have an n-gram
that the model does not know. -/
structure Warranted (cfg : Setup σ F) (d : SequenceAnomalyDetector) (survivors : List LogRecord)
    (anomaly : AnomalyEvent) (b : String) : Prop where
  block : anomaly.metadata.get? "block_id" = some (.str b)
  record : ∃ r ∈ survivors, blockIdOf cfg.tasks.config r = some b ∧ r.id = anomaly.logRecordId
  novel : ∃ g ∈ ngrams (eventIds cfg.tasks.config b survivors) d.model.n,
    g ∉ d.model.normalNgrams

theorem reports_fields {d : SequenceAnomalyDetector} {anomaly : AnomalyEvent}
    {p : Draw × BlockTrace} (h : Reports d anomaly p) :
    anomaly.metadata = metadata d.model p.2 ∧
      (p.2.recordIds ≠ [] → some anomaly.logRecordId = p.2.recordIds.head?) ∧
      ∃ g ∈ ngrams p.2.eventSequence d.model.n, g ∉ d.model.normalNgrams := by
  have hnovel := detectTrace_novel (Option.isSome_iff_exists.mpr ⟨_,h⟩)
  unfold Reports detectTrace at h
  split at h
  · cases h
  · split at h
    · cases h
    · cases h
      refine ⟨rfl,fun hne => ?_,hnovel⟩
      obtain ⟨x,xs,hx⟩ := List.exists_cons_of_ne_nil hne
      simp [hx]

/-- What the emitted traces hold is found in the survivors. -/
theorem emitted_survivors (cfg : Setup σ F) (k : ℕ) (w : σ) (lines : List String) (x : Built σ)
    (heard : List BlockTrace) (hx : Sound cfg k w lines x heard)
    (hsource : cfg.executor.sourceRaises = false) :
    x.tasks.processed.map Prod.snd <+: (survivorsOf cfg w lines).filter (hasBlock cfg) := by
  have hp : x.executor.producer ≠ .failed := fun hf => by
    simpa [hsource] using hx.executor.phases.raises hf
  have hline := hx.sorted.uncut (hx.sorted.spared hp)
  have hfirst : x.tasks.processed.map Prod.snd <+: line x.tasks := List.prefix_append _ _
  exact (hline ▸ hfirst).trans ((sorted_survivors cfg _ x hx.sorted).filter _)

theorem warranted (cfg : Setup σ F) (k : ℕ) (w : σ) (lines : List String) (x : Built σ)
    (heard : List BlockTrace) (hx : Sound cfg k w lines x heard)
    (hsource : cfg.executor.sourceRaises = false) (d : SequenceAnomalyDetector)
    {anomaly : AnomalyEvent} {p : Draw × BlockTrace} (hr : Reports d anomaly p)
    (ht : p.2 ∈ x.tasks.sessionizer.published) :
    Warranted cfg d (survivorsOf cfg w lines) anomaly p.2.blockId := by
  obtain ⟨hmeta,hanchor,g,hg,hnovel⟩ := reports_fields hr
  have hfirst := emitted_survivors cfg k w lines x heard hx hsource
  obtain ⟨_,trace⟩ := p
  have htraces : trace ∈ x.tasks.sessionizer.published.filter
      (fun t => t.blockId = trace.blockId) := List.mem_filter.mpr ⟨ht,by simp⟩
  have hids : trace.recordIds ≠ [] := by
    obtain ⟨hcount,hpos⟩ := hx.orderly.partition.sized trace ht
    exact List.ne_nil_of_length_pos (by omega)
  refine ⟨by rw [hmeta]; rfl,?_,g,?_,hnovel⟩
  · -- the anchor is the first record of the trace
    obtain ⟨i,is,his⟩ := List.exists_cons_of_ne_nil hids
    have hsome := hanchor hids
    rw [his, List.head?_cons, Option.some.injEq] at hsome
    have hmem : i ∈ arrived (recordIds cfg.tasks.config) x.tasks.processed trace.blockId := by
      rw [← hx.orderly.partition.split (recordIds cfg.tasks.config) trace.blockId]
      exact List.mem_append_left _ (List.mem_flatMap.mpr ⟨trace,htraces,by
        change i ∈ trace.recordIds
        rw [his]
        exact List.mem_cons_self⟩)
    obtain ⟨p,hp,hi⟩ := List.mem_flatMap.mp hmem
    obtain ⟨hprocessed,hb⟩ := List.mem_filter.mp hp
    have hsurvivor := List.mem_of_mem_filter (hfirst.mem (List.mem_map_of_mem hprocessed))
    refine ⟨p.2,hsurvivor,?_,?_⟩
    · rw [hx.sorted.tagged.processed p hprocessed]
      exact congrArg some (by simpa using hb)
    · exact (List.mem_singleton.mp hi).symm.trans hsome.symm
  · -- the trace is a piece of what arrived, and that comes first in the log
    refine ngrams_of_piece ?_ hg
    have hpiece : trace.eventSequence <:+:
        eventIds cfg.tasks.config trace.blockId (x.tasks.processed.map Prod.snd) := by
      rw [← arrived_eventIds cfg.tasks.config _ _ hx.sorted.tagged.processed,
        ← hx.orderly.partition.split (events cfg.tasks.config) trace.blockId, emitted,
        List.flatMap_def]
      refine List.IsInfix.trans (List.infix_of_mem_flatten ?_) List.infix_append_left
      exact List.mem_map.mpr ⟨trace,htraces,rfl⟩
    obtain ⟨rest,hrest⟩ := hfirst
    refine hpiece.trans (List.IsPrefix.isInfix ⟨eventIds cfg.tasks.config trace.blockId rest,?_⟩)
    rw [← eventIds_hasBlock cfg trace.blockId (survivorsOf cfg w lines), ← hrest, eventIds,
      eventIds, eventIds, List.filter_append, List.flatMap_append]

/-- In every run the log bears out the saved anomalies. -/
theorem alarms_warranted {cfg : Setup σ F} {k : ℕ} {d : SequenceAnomalyDetector} {w : σ}
    {started : Bool} {lines : List String} {ls : List (BuiltPipeline.Label × Draw)} {x : Built σ}
    {anomalies : List AnomalyEvent} (hsource : cfg.executor.sourceRaises = false)
    (hrun : run (stepAlarmed cfg k d) (initial cfg w started lines,[]) ls = some (x,anomalies)) :
    ∀ a ∈ anomalies, ∃ b, Warranted cfg d (survivorsOf cfg w lines) a b := by
  obtain ⟨hbuilt,hfold⟩ := listen_run hrun
  let heard := heard (step cfg) (hearsBuilt k) (initial cfg w started lines) ls
  have hsound : Sound cfg k w lines x (heard.map Prod.snd) :=
    heard_invariant (Sound cfg k w lines)
      (fun x l y es hx h => step_sound cfg k w lines x y l es hsource hx h)
      (initial_sound cfg k w started lines) hbuilt
  intro a ha
  rw [hfold] at ha
  obtain ⟨p,hp,hr⟩ := reported_of_mem (folded_reports d heard [] [] List.Forall₂.nil) ha
  have hsome : some p.2 ∈ (heard.map Prod.snd).map some :=
    List.mem_map_of_mem (List.mem_map_of_mem (List.mem_of_mem_filter hp))
  rw [hsound.heard.traces] at hsome
  obtain ⟨e,_,he⟩ := List.mem_map.mp hsome
  exact ⟨_,warranted cfg k w lines x _ hsound hsource d hr (List.mem_of_getElem? he)⟩

/-- Whenever the sessionizer's lock is free, the handler has heard the emitted
traces whose delivery was not interrupted, in order, and the saved anomalies
are, in order, what the detector reports of the flagged ones among them whose
own save did not fail. Each names a record of its block, and the lines of the
block that survive the first stages, in the source's order, have an n-gram that
the model does not know. -/
theorem alarms_exact (cfg : Setup σ F) (k : ℕ) (hk : k < cfg.tasks.handlers)
    (d : SequenceAnomalyDetector) (w : σ) (started : Bool) (lines : List String)
    (ls : List (BuiltPipeline.Label × Draw)) (x : Built σ) (anomalies : List AnomalyEvent)
    (hsource : cfg.executor.sourceRaises = false)
    (hrun : run (stepAlarmed cfg k d) (initial cfg w started lines,[]) ls = some (x,anomalies))
    (hfree : x.tasks.holder = none) :
    (heard (step cfg) (hearsBuilt k) (initial cfg w started lines) ls).map Prod.snd =
      undisturbed k x.tasks ∧
    List.Forall₂ (Reports d) anomalies
      ((heard (step cfg) (hearsBuilt k) (initial cfg w started lines) ls).filter (kept d)) ∧
    (x.tasks.interrupted = [] → undisturbed k x.tasks = x.tasks.sessionizer.published) ∧
    ∀ a ∈ anomalies, ∃ b, Warranted cfg d (survivorsOf cfg w lines) a b := by
  obtain ⟨hbuilt,hfold⟩ := listen_run hrun
  let heard := heard (step cfg) (hearsBuilt k) (initial cfg w started lines) ls
  have hsound : Sound cfg k w lines x (heard.map Prod.snd) :=
    heard_invariant (Sound cfg k w lines)
      (fun x l y es hx h => step_sound cfg k w lines x y l es hsource hx h)
      (initial_sound cfg k w started lines) hbuilt
  have htraces : heard.map Prod.snd = undisturbed k x.tasks :=
    heard_undisturbed cfg.tasks k hk x.tasks _ hsound.heard hsound.paced hfree
  have hkept : List.Forall₂ (Reports d) anomalies (heard.filter (kept d)) := by
    rw [hfold]
    exact folded_reports d heard [] [] List.Forall₂.nil
  exact ⟨htraces,hkept,undisturbed_of_nil,alarms_warranted hsource hrun⟩

/-- The detector without a model, as `build_pipeline` has it when the file is
not there. -/
def sampleDetector : SequenceAnomalyDetector := ⟨⟨2,∅,∅⟩,0,le_refl 0⟩

def failing : Draw := ⟨1,2,0,false⟩

def storing : Draw := ⟨3,4,5,true⟩

def firstLine : List BuiltPipeline.Label :=
  [.producer,.producer] ++ reaches 0 ++ [.leave 0,.consumer 0 .buffer]

/-- The first two lines are a trace whose save fails, and the others one whose
save does not. -/
def sampleLabels : List (BuiltPipeline.Label × Draw) :=
  (firstLine ++ contended).map (fun l => (l,failing)) ++ closes.map (fun l => (l,storing))

def sampleRun : Option (Built Sessionizer.State × List AnomalyEvent) :=
  run (stepAlarmed sampleSetup 0 sampleDetector)
    (initial sampleSetup .initial true ["E5","E9","E2","E3"],[]) sampleLabels

def sampleTrace (eventSequence : List String) (recordIds : List UUID) (reason : ClosedReason) :
    BlockTrace := ⟨"blk_1",eventSequence,recordIds,0,0,2,7,reason⟩

/-- Both traces are heard and flagged, and the second one's anomaly is saved. -/
theorem alarms_exact_contended :
    let first := sampleTrace ["E5","E9"] [0,1] .terminal
    let second := sampleTrace ["E2","E3"] [2,3] .shutdown
    flagged sampleDetector first = true ∧ flagged sampleDetector second = true ∧
    ∃ x a, sampleRun = some (x,[a]) ∧ undisturbed 0 x.tasks = [first,second] ∧
      Reports sampleDetector a (storing,second) ∧
      ∃ b, Warranted sampleSetup sampleDetector
        (survivorsOf sampleSetup .initial ["E5","E9","E2","E3"]) a b := by
  intro first second
  have hfree : sampleRun.map (fun p => p.1.tasks.holder) = some none := by decide +kernel
  obtain ⟨⟨x,anomalies⟩,hrun,hholder⟩ := Option.map_eq_some_iff.mp hfree
  have hheard : heard (step sampleSetup) (hearsBuilt 0)
      (initial sampleSetup .initial true ["E5","E9","E2","E3"]) sampleLabels =
      [(failing,first),(storing,second)] := by decide +kernel
  have hflagged : flagged sampleDetector first = true ∧ flagged sampleDetector second = true := by
    decide +kernel
  obtain ⟨htraces,hreports,_,hwarranted⟩ := alarms_exact sampleSetup 0 Nat.one_pos sampleDetector
    .initial true ["E5","E9","E2","E3"] sampleLabels x anomalies rfl hrun hholder
  rw [hheard] at htraces hreports
  have hkept : [(failing,first),(storing,second)].filter (kept sampleDetector) =
      [(storing,second)] := by
    simp [kept, hflagged, failing, storing]
  rw [hkept] at hreports
  cases hreports with
  | cons hr hrest =>
    cases hrest
    exact ⟨hflagged.1,hflagged.2,x,_,hrun,htraces.symm,hr,hwarranted _ List.mem_cons_self⟩

end PipelineX.SequenceAlarms
