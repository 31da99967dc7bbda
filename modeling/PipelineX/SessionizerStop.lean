import PipelineX.SessionizerTasks
import Mathlib.Data.List.Count

/-!
# What `stop` delivers

Each handler is owed each published event once. It has finished with it, or
it still has it in its hands, or it was cancelled with it. The last happens
only when `stop` finds the janitor inside `publish`.
-/

set_option autoImplicit false

namespace PipelineX.SessionizerStop
open PipelineX.Records PipelineX.Sessionizer
open PipelineX.SessionizerTasks PipelineX.TransitionSystem

variable {F : Type} [Seconds F]

/-- One when event `e` was published and `h` is a handler. -/
def due (cfg : Setup F) (s : Sessionizer.State) (e h : ℕ) : ℕ :=
  if e < s.published.length ∧ h < cfg.handlers then 1 else 0

/-- One when handler `h` still has the last event, which is `e`, in its hands. -/
def outstanding (s : Tasks) (e h : ℕ) : ℕ :=
  match s.holder with
  | none => 0
  | some p => if e+1 = s.sessionizer.published.length then p.pending.count h else 0

/-- The janitor neither waits for the lock nor makes use of it. -/
def OffDuty (s : Tasks) : Prop :=
  Waiter.janitor ∉ s.waiters ∧ ∀ p, s.holder = some p → p.owner = .janitor →
    s.janitor = .cancelled ∧ p.pending = []

structure Counted (cfg : Setup F) (s : Tasks) : Prop where
  counts : ∀ e h, s.delivered.count (e,h) + s.interrupted.count (e,h) + outstanding s e h =
    due cfg s.sessionizer e h
  published : ∀ p, s.holder = some p → 0 < s.sessionizer.published.length
  flushing : ∀ p, s.holder = some p → p.owner = .stop → p.todo = stopClosings s.sessionizer
  unharmed : s.stop = .notCalled → s.interrupted = []
  offDuty : s.janitor = .cancelled ∨ s.janitor = .absent → OffDuty s

/-- What the owner of the lock may rely on between two events. -/
structure Settled (cfg : Setup F) (o : Owner) (cs : List Closing) (s : Tasks) : Prop where
  counts : ∀ e h, s.delivered.count (e,h) + s.interrupted.count (e,h) = due cfg s.sessionizer e h
  flushing : o = .stop → cs = stopClosings s.sessionizer
  unharmed : s.stop = .notCalled → s.interrupted = []
  offDuty : s.janitor = .cancelled ∨ s.janitor = .absent →
    o ≠ .janitor ∧ Waiter.janitor ∉ s.waiters

theorem shutdown_close (items : List (String × OpenTrace)) (c : Closing) (cs : List Closing)
    (hn : (items.map Prod.fst).Nodup)
    (h : items.map (fun p => (⟨p.1,p.2,.shutdown⟩ : Closing)) = c::cs) :
    (items.filter (fun p => p.1 ≠ c.key)).map (fun p => (⟨p.1,p.2,.shutdown⟩ : Closing)) = cs := by
  cases items with
  | nil => simp at h
  | cons p ps =>
    obtain ⟨rfl,rfl⟩ := List.cons.inj h
    have hp := (List.nodup_cons.mp hn).1
    have hrest : ps.filter (fun q => q.1 ≠ p.1) = ps := by
      rw [List.filter_eq_self]
      intro q hq
      have hne : q.1 ≠ p.1 := fun he => hp (he ▸ List.mem_map_of_mem hq)
      simpa using hne
    rw [List.filter_cons_of_neg (by simp), hrest]

theorem stopClosings_close (cfg : Config F) (s : Sessionizer.State) (c : Closing)
    (cs : List Closing) (h : stopClosings s = c::cs) : stopClosings (close cfg s c) = cs :=
  shutdown_close s.openTraces.items c cs s.openTraces.nodup h

theorem range_count (n h : ℕ) : (List.range n).count h = if h < n then 1 else 0 := by
  simp [List.nodup_range.count]

theorem due_close (cfg : Setup F) (s : Sessionizer.State) (c : Closing) (e h : ℕ) :
    due cfg (close cfg.config s c) e h =
      due cfg s e h + if e = s.published.length ∧ h < cfg.handlers then 1 else 0 := by
  unfold due
  rw [close_published, List.length_append, List.length_singleton]
  by_cases hh : h < cfg.handlers
  · by_cases he : e = s.published.length
    · simp [hh, he]
    · have hlt : e < s.published.length+1 ↔ e < s.published.length := by omega
      simp [hh, he, hlt]
  · simp [hh]

theorem release_counted (cfg : Setup F) (o : Owner) (s : Tasks) (hs : Settled cfg o [] s) :
    Counted cfg (release o s) := by
  have hcounts := hs.counts
  cases o with
  | worker w =>
    exact ⟨hcounts,by simp [release],by simp [release],hs.unharmed,
      fun h => ⟨(hs.offDuty h).2,by simp [release]⟩⟩
  | janitor => exact ⟨hcounts,by simp [release],by simp [release],hs.unharmed,by simp [release]⟩
  | stop =>
    exact ⟨hcounts,by simp [release],by simp [release],by simp [release],
      fun h => ⟨(hs.offDuty h).2,by simp [release]⟩⟩

theorem emitAll_counted (cfg : Setup F) (o : Owner) (cs : List Closing) (s : Tasks)
    (hs : Settled cfg o cs s) : Counted cfg (emitAll cfg o cs s) := by
  induction cs generalizing s with
  | nil => exact release_counted cfg o s hs
  | cons c cs ih =>
    have hflush (ho : o = .stop) :
        cs = stopClosings (close cfg.config s.sessionizer c) :=
      (stopClosings_close cfg.config s.sessionizer c cs (hs.flushing ho).symm).symm
    by_cases hn : cfg.handlers = 0
    · rw [emitAll, if_pos hn]
      apply ih
      refine ⟨fun e h => ?_,hflush,hs.unharmed,hs.offDuty⟩
      have hc := hs.counts e h
      have hd := due_close cfg s.sessionizer c e h
      simp only [hn, Nat.not_lt_zero, and_false, if_false] at hd
      exact hc.trans hd.symm
    · rw [emitAll, if_neg hn]
      constructor
      · intro e h
        have hc := hs.counts e h
        change s.delivered.count (e,h) + s.interrupted.count (e,h) +
          (if e+1 = (close cfg.config s.sessionizer c).published.length
            then (List.range cfg.handlers).count h else 0) = _
        rw [due_close, range_count, close_published, List.length_append, List.length_singleton,
          ← hc]
        by_cases he : e = s.sessionizer.published.length <;> simp [he]
      · simp
      · intro p hp ho
        cases hp
        exact hflush ho
      · exact hs.unharmed
      · intro h
        refine ⟨(hs.offDuty h).2,fun p hp ho => ?_⟩
        cases hp
        exact absurd ho (hs.offDuty h).1

theorem initial_counted (cfg : Setup F) (started : Bool) : Counted cfg (initial started) := by
  constructor
  · intro e h
    simp [initial, outstanding, due, Sessionizer.State.initial]
  · simp [initial]
  · simp [initial]
  · exact fun _ => rfl
  · exact fun _ => ⟨by simp [initial],by simp [initial]⟩

theorem settled_of_free (cfg : Setup F) (o : Owner) (cs : List Closing) (s : Tasks)
    (hs : Counted cfg s) (hh : s.holder = none)
    (hflush : o = .stop → cs = stopClosings s.sessionizer)
    (ho : s.janitor = .cancelled ∨ s.janitor = .absent → o ≠ .janitor) : Settled cfg o cs s := by
  refine ⟨fun e h => ?_,hflush,hs.unharmed,fun hj => ⟨ho hj,(hs.offDuty hj).1⟩⟩
  have hc := hs.counts e h
  simp only [outstanding, hh] at hc
  exact hc

theorem processLocked_counted (cfg : Setup F) (w : ℕ) (b : String) (r : LogRecord)
    (now now' : Datetime) (s : Tasks) (hs : Counted cfg s) (hh : s.holder = none) :
    Counted cfg (processLocked cfg w b r now now' s) := by
  have hset := settled_of_free cfg (.worker w) [] s hs hh (by simp) (by simp)
  apply emitAll_counted
  exact ⟨hset.counts,by simp,hset.unharmed,hset.offDuty⟩

theorem passLocked_counted (cfg : Setup F) (s : Tasks) (hs : Counted cfg s)
    (hh : s.holder = none) (hj : ¬ (s.janitor = .cancelled ∨ s.janitor = .absent)) :
    Counted cfg (passLocked cfg s) :=
  emitAll_counted cfg _ _ s (settled_of_free cfg .janitor _ s hs hh (by simp)
    (fun h => absurd h hj))

theorem flushLocked_counted (cfg : Setup F) (s : Tasks) (hs : Counted cfg s)
    (hh : s.holder = none) : Counted cfg (flushLocked cfg s) :=
  emitAll_counted cfg _ _ s (settled_of_free cfg .stop _ s hs hh (fun _ => rfl) (by simp))

theorem acquire_counted (cfg : Setup F) (enter : Tasks → Tasks) (k : Waiter) (s : Tasks)
    (hs : Counted cfg s) (hk : s.janitor = .cancelled ∨ s.janitor = .absent → k ≠ .janitor)
    (henter : s.holder = none → Counted cfg (enter s)) : Counted cfg (acquire enter k s) := by
  by_cases hfree : s.holder = none ∧ s.waiters = []
  · rw [acquire, if_pos hfree]
    exact henter hfree.1
  · rw [acquire, if_neg hfree]
    refine ⟨hs.counts,hs.published,hs.flushing,hs.unharmed,fun h => ⟨?_,(hs.offDuty h).2⟩⟩
    have hw := (hs.offDuty h).1
    have hne := hk h
    simp [hw, hne.symm]

theorem waiters_counted (cfg : Setup F) (s : Tasks) (ks : List Waiter) (hs : Counted cfg s)
    (hks : ks ⊆ s.waiters) : Counted cfg { s with waiters := ks } :=
  ⟨hs.counts,hs.published,hs.flushing,hs.unharmed,
    fun h => ⟨fun hm => (hs.offDuty h).1 (hks hm),(hs.offDuty h).2⟩⟩

theorem handled_counted (cfg : Setup F) (s : Tasks) (h : ℕ) (p : Publishing)
    (hs : Counted cfg s) (hh : s.holder = some p) (hm : h ∈ p.pending) :
    Counted cfg { s with
      holder := some { p with pending := p.pending.erase h }
      delivered := s.delivered ++ [(s.sessionizer.published.length-1,h)] } := by
  have hpos := hs.published p hh
  constructor
  · intro e g
    have hc := hs.counts e g
    simp only [outstanding, hh] at hc ⊢
    rw [← hc, List.count_append, List.count_erase]
    by_cases he : e+1 = s.sessionizer.published.length
    · have he' : s.sessionizer.published.length-1 = e := by omega
      by_cases hg : h = g
      · have hcount : 0 < p.pending.count g := List.count_pos_iff.mpr (hg ▸ hm)
        simp [he, he', hg]
        omega
      · simp [he, he', hg]
    · have he' : s.sessionizer.published.length-1 ≠ e := by omega
      simp [he, he']
  · exact fun _ _ => hpos
  · intro q hq ho
    cases hq
    exact hs.flushing p hh ho
  · exact hs.unharmed
  · intro hj
    refine ⟨(hs.offDuty hj).1,fun q hq ho => ?_⟩
    cases hq
    have hnil := ((hs.offDuty hj).2 p hh ho).2
    rw [hnil] at hm
    cases hm

theorem inHands_count (s : Tasks) (e h : ℕ)
    (hpos : ∀ p, s.holder = some p → 0 < s.sessionizer.published.length) :
    (inHands s .janitor).count (e,h) =
      match s.holder with
      | none => 0
      | some p => if p.owner = .janitor then outstanding s e h else 0 := by
  cases hh : s.holder with
  | none => simp [inHands, hh]
  | some p =>
    have hp := hpos p hh
    by_cases ho : p.owner = .janitor
    · simp only [inHands, outstanding, hh, ho, if_true]
      by_cases he : e+1 = s.sessionizer.published.length
      · have he' : s.sessionizer.published.length-1 = e := by omega
        rw [if_pos he, he']
        exact List.count_map_of_injective _ (fun h => (e,h)) (fun a b hab => (Prod.mk.inj hab).2) h
      · have he' : s.sessionizer.published.length-1 ≠ e := by omega
        rw [if_neg he, List.count_eq_zero]
        simp [he']
    · simp [inHands, hh, ho]

theorem cancelJanitor_counted (cfg : Setup F) (s : Tasks) (hs : Counted cfg s) :
    Counted cfg { cancelJanitor s with stop := .joining } := by
  constructor
  · intro e h
    have hc := hs.counts e h
    have hcount := inHands_count s e h hs.published
    change s.delivered.count (e,h) + (s.interrupted ++ inHands s .janitor).count (e,h) +
      outstanding (cancelJanitor s) e h = due cfg s.sessionizer e h
    rw [List.count_append, hcount, ← hc]
    cases hh : s.holder with
    | none => simp [outstanding, cancelJanitor, hh]
    | some p =>
      by_cases ho : p.owner = .janitor
      · simp [outstanding, cancelJanitor, hh, ho]
        omega
      · simp [outstanding, cancelJanitor, hh, ho]
  · intro p hp
    obtain ⟨q,hq,_⟩ := Option.map_eq_some_iff.mp hp
    exact hs.published q hq
  · intro p hp ho
    obtain ⟨q,hq,rfl⟩ := Option.map_eq_some_iff.mp hp
    by_cases hj : q.owner = .janitor
    · simp [hj] at ho
    · rw [if_neg hj] at ho ⊢
      exact hs.flushing q hq ho
  · simp
  · intro _
    refine ⟨by simp [cancelJanitor],fun p hp ho => ⟨rfl,?_⟩⟩
    obtain ⟨q,hq,rfl⟩ := Option.map_eq_some_iff.mp hp
    by_cases hj : q.owner = .janitor
    · simp [hj]
    · rw [if_neg hj] at ho
      exact absurd ho hj

theorem unwound_counted (cfg : Setup F) (s : Tasks) (hs : Counted cfg s)
    (hj : s.janitor = .cancelled) :
    Counted cfg { s with
      janitor := .finished
      holder := s.holder.filter (fun p => p.owner ≠ .janitor) } := by
  constructor
  · intro e h
    have hc := hs.counts e h
    change _ + outstanding { s with
      janitor := .finished
      holder := s.holder.filter (fun p => p.owner ≠ .janitor) } e h = _
    rw [← hc]
    cases hh : s.holder with
    | none => simp [outstanding, hh]
    | some p =>
      by_cases ho : p.owner = .janitor
      · have hnil := ((hs.offDuty (Or.inl hj)).2 p hh ho).2
        simp [outstanding, hh, ho, hnil, Option.filter_some]
      · simp [outstanding, hh, ho, Option.filter_some]
  · exact fun p hp => hs.published p (Option.filter_eq_some_iff.mp hp).1
  · exact fun p hp => hs.flushing p (Option.filter_eq_some_iff.mp hp).1
  · exact hs.unharmed
  · simp

theorem step_counted (cfg : Setup F) (s t : Tasks) (l : Label) (hs : Counted cfg s)
    (h : Acts cfg s l t) : Counted cfg t := by
  cases h with
  | ignored w r now now' hb => exact hs
  | process w b r now now' hb =>
    exact acquire_counted cfg _ _ s hs (by simp) (processLocked_counted cfg w b r now now' s hs)
  | grantWorker w b r ks now now' hh hw =>
    exact processLocked_counted cfg w b r now now' _
      (waiters_counted cfg s ks hs (by simp [hw])) hh
  | grantJanitor ks now now' hh hw =>
    exact passLocked_counted cfg _ (waiters_counted cfg s ks hs (by simp [hw])) hh
      (fun hj => (hs.offDuty hj).1 (by simp [hw]))
  | grantStop ks now now' hh hw =>
    exact flushLocked_counted cfg _ (waiters_counted cfg s ks hs (by simp [hw])) hh
  | handled h p hh hm => exact handled_counted cfg s h p hs hh hm
  | resume p hh hp hj =>
    apply emitAll_counted
    refine ⟨fun e h => ?_,hs.flushing p hh,hs.unharmed,fun h => ⟨fun ho => ?_,(hs.offDuty h).1⟩⟩
    · have hc := hs.counts e h
      simp only [outstanding, hh, hp, List.count_nil, ite_self] at hc
      exact hc
    · exact hj ho ((hs.offDuty h).2 p hh ho).1
  | tick hj =>
    have hs' : Counted cfg { s with janitor := .passing } :=
      ⟨hs.counts,hs.published,hs.flushing,hs.unharmed,by simp⟩
    exact acquire_counted cfg _ _ _ hs' (by simp)
      (fun hh => passLocked_counted cfg _ hs' hh (by simp))
  | stopAlone hst hj =>
    have hs' : Counted cfg { s with stop := .flushing } :=
      ⟨hs.counts,hs.published,hs.flushing,by simp,hs.offDuty⟩
    exact acquire_counted cfg _ _ _ hs' (by simp) (flushLocked_counted cfg _ hs')
  | stopJoins hst hj => exact cancelJanitor_counted cfg s hs
  | unwound hj => exact unwound_counted cfg s hs hj
  | joined hst hj =>
    have hs' : Counted cfg { s with stop := .flushing } :=
      ⟨hs.counts,hs.published,hs.flushing,by simp,hs.offDuty⟩
    exact acquire_counted cfg _ _ _ hs' (by simp) (flushLocked_counted cfg _ hs')

theorem run_counted (cfg : Setup F) (started : Bool) (ls : List Label) (t : Tasks)
    (hrun : run (step cfg) (initial started) ls = some t) : Counted cfg t :=
  run_invariant (step cfg) (Counted cfg)
    (fun s l t hs h => step_counted cfg s t l hs (step_acts cfg s t l h))
    (initial_counted cfg started) hrun

theorem emitAll_stop (cfg : Setup F) (o : Owner) (cs : List Closing) (s : Tasks) :
    (emitAll cfg o cs s).interrupted = s.interrupted ∧
    ((emitAll cfg o cs s).stop = s.stop ∨ (emitAll cfg o cs s).stop = .returned) := by
  induction cs generalizing s with
  | nil => cases o <;> simp [emitAll, release]
  | cons c cs ih =>
    by_cases hn : cfg.handlers = 0
    · rw [emitAll, if_pos hn]
      exact ih _
    · rw [emitAll, if_neg hn]
      exact ⟨rfl,Or.inl rfl⟩

theorem acquire_stop (enter : Tasks → Tasks) (k : Waiter) (s : Tasks)
    (henter : (enter s).interrupted = s.interrupted ∧
      ((enter s).stop = s.stop ∨ (enter s).stop = .returned)) :
    (acquire enter k s).interrupted = s.interrupted ∧
    ((acquire enter k s).stop = s.stop ∨ (acquire enter k s).stop = .returned) := by
  unfold acquire
  split
  · exact henter
  · exact ⟨rfl,Or.inl rfl⟩

/-- After the call of `stop` nothing more is interrupted. -/
theorem step_interrupted (cfg : Setup F) (s t : Tasks) (l : Label) (hst : s.stop ≠ .notCalled)
    (h : Acts cfg s l t) : t.interrupted = s.interrupted ∧ t.stop ≠ .notCalled := by
  have hkeep (u : Tasks) (hi : u.interrupted = s.interrupted)
      (hu : u.stop = s.stop ∨ u.stop = .returned) :
      u.interrupted = s.interrupted ∧ u.stop ≠ .notCalled := by
    refine ⟨hi,fun hn => ?_⟩
    rcases hu with hu | hu
    · exact hst (hu ▸ hn)
    · simp [hu] at hn
  cases h with
  | ignored w r now now' hb => exact ⟨rfl,hst⟩
  | process w b r now now' hb =>
    have hs := acquire_stop (processLocked cfg w b r now now') (.worker w b r) s
      (emitAll_stop cfg _ _ _)
    exact hkeep _ hs.1 hs.2
  | grantWorker w b r ks now now' hh hw =>
    have hs := emitAll_stop cfg (.worker w) (closing cfg.config b r
      (touch cfg.config s.sessionizer b r now now').1
      (touch cfg.config s.sessionizer b r now now').2).toList
      { s with waiters := ks, sessionizer := (touch cfg.config s.sessionizer b r now now').2
               processed := s.processed ++ [(b,r)] }
    exact hkeep _ hs.1 hs.2
  | grantJanitor ks now now' hh hw =>
    have hs := emitAll_stop cfg .janitor (janitorClosings cfg.config s.sessionizer)
      { s with waiters := ks }
    exact hkeep _ hs.1 hs.2
  | grantStop ks now now' hh hw =>
    have hs := emitAll_stop cfg .stop (stopClosings s.sessionizer) { s with waiters := ks }
    exact hkeep _ hs.1 hs.2
  | handled h p hh hm => exact ⟨rfl,hst⟩
  | resume p hh hp hj =>
    have hs := emitAll_stop cfg p.owner p.todo s
    exact hkeep _ hs.1 hs.2
  | tick hj =>
    have hs := acquire_stop (passLocked cfg) .janitor { s with janitor := .passing }
      (emitAll_stop cfg _ _ _)
    exact hkeep _ hs.1 hs.2
  | stopAlone hs hj => exact absurd hs hst
  | stopJoins hs hj => exact absurd hs hst
  | unwound hj => exact ⟨rfl,hst⟩
  | joined hs hj =>
    have hs' := acquire_stop (flushLocked cfg) .stop { s with stop := .flushing }
      (emitAll_stop cfg _ _ _)
    refine ⟨hs'.1,fun hn => ?_⟩
    rcases hs'.2 with h | h <;> simp [h] at hn

theorem emitAll_returned (cfg : Setup F) (o : Owner) (cs : List Closing) (s : Tasks)
    (hflush : o = .stop → cs = stopClosings s.sessionizer) (hs : s.stop ≠ .returned)
    (ht : (emitAll cfg o cs s).stop = .returned) : (emitAll cfg o cs s).holder = none ∧
      (emitAll cfg o cs s).sessionizer.openTraces.items = [] := by
  induction cs generalizing s with
  | nil =>
    cases o with
    | worker w => exact absurd ht hs
    | janitor => exact absurd ht hs
    | stop => exact ⟨rfl,List.map_eq_nil_iff.mp (hflush rfl).symm⟩
  | cons c cs ih =>
    by_cases hn : cfg.handlers = 0
    · rw [emitAll, if_pos hn] at ht ⊢
      exact ih _ (fun ho => (stopClosings_close cfg.config s.sessionizer c cs
        (hflush ho).symm).symm) hs ht
    · rw [emitAll, if_neg hn] at ht
      exact absurd ht hs

theorem acquire_returned (enter : Tasks → Tasks) (k : Waiter) (s : Tasks)
    (hs : s.stop ≠ .returned) (ht : (acquire enter k s).stop = .returned)
    (henter : (enter s).stop = .returned → (enter s).holder = none ∧
      (enter s).sessionizer.openTraces.items = []) :
    (acquire enter k s).holder = none ∧
      (acquire enter k s).sessionizer.openTraces.items = [] := by
  by_cases hfree : s.holder = none ∧ s.waiters = []
  · rw [acquire, if_pos hfree] at ht ⊢
    exact henter ht
  · rw [acquire, if_neg hfree] at ht
    exact absurd ht hs

/-- In the step in which `stop` returns it releases the lock and leaves no
trace open. -/
theorem step_returned (cfg : Setup F) (s t : Tasks) (l : Label) (hc : Counted cfg s)
    (h : Acts cfg s l t) (hs : s.stop ≠ .returned) (ht : t.stop = .returned) :
    t.holder = none ∧ t.sessionizer.openTraces.items = [] := by
  cases h with
  | ignored w r now now' hb => exact absurd ht hs
  | process w b r now now' hb =>
    exact acquire_returned _ _ s hs ht (emitAll_returned cfg _ _ _ (by simp) hs)
  | grantWorker w b r ks now now' hh hw =>
    exact emitAll_returned cfg (.worker w) _ _ (by simp) hs ht
  | grantJanitor ks now now' hh hw =>
    exact emitAll_returned cfg .janitor _ _ (by simp) hs ht
  | grantStop ks now now' hh hw =>
    exact emitAll_returned cfg .stop _ _ (fun _ => rfl) hs ht
  | handled h p hh hm => exact absurd ht hs
  | resume p hh hp hj => exact emitAll_returned cfg _ _ s (hc.flushing p hh) hs ht
  | tick hj =>
    exact acquire_returned _ _ _ hs ht
      (emitAll_returned cfg .janitor _ _ (by simp) hs)
  | stopAlone hst hj =>
    exact acquire_returned _ _ _ (by simp) ht
      (emitAll_returned cfg .stop _ _ (fun _ => rfl) (by simp))
  | stopJoins hst hj => simp at ht
  | unwound hj => exact absurd ht hs
  | joined hst hj =>
    exact acquire_returned _ _ _ (by simp) ht
      (emitAll_returned cfg .stop _ _ (fun _ => rfl) (by simp))

/-- What the call of `stop` itself interrupts. -/
theorem stopCall_interrupted (cfg : Setup F) (s t : Tasks) (hs : Counted cfg s)
    (h : Acts cfg s .stopCall t) : t.stop ≠ .notCalled ∧
      (t.interrupted = [] ↔ ∀ p, s.holder = some p → p.owner = .janitor → p.pending = []) := by
  cases h with
  | stopAlone hst hj =>
    have ha := acquire_stop (flushLocked cfg) .stop { s with stop := .flushing }
      (emitAll_stop cfg _ _ _)
    refine ⟨fun hn => ?_,?_⟩
    · rcases ha.2 with h | h <;> simp [h] at hn
    · rw [ha.1]
      have hduty := hs.offDuty (Or.inr hj)
      exact ⟨fun _ p hp ho => (hduty.2 p hp ho).2,fun _ => hs.unharmed hst⟩
  | stopJoins hst hj =>
    refine ⟨by simp,?_⟩
    change s.interrupted ++ inHands s .janitor = [] ↔ _
    rw [hs.unharmed hst, List.nil_append]
    cases hh : s.holder with
    | none => simp [inHands, hh]
    | some p => by_cases ho : p.owner = .janitor <;> simp [inHands, hh, ho]

/-- Everything published was handled once by every handler, or something was
interrupted. -/
theorem delivered_iff (cfg : Setup F) (t : Tasks) (ht : Counted cfg t) (hh : t.holder = none) :
    (∀ e < t.sessionizer.published.length, ∀ h < cfg.handlers, t.delivered.count (e,h) = 1) ↔
      t.interrupted = [] := by
  have hc (e h : ℕ) := ht.counts e h
  simp only [outstanding, hh, due, Nat.add_zero] at hc
  constructor
  · intro hall
    apply List.eq_nil_iff_forall_not_mem.mpr
    rintro ⟨e,h⟩ hm
    have hpos := List.count_pos_iff.mpr hm
    have heh := hc e h
    by_cases hd : e < t.sessionizer.published.length ∧ h < cfg.handlers
    · have hone := hall e hd.1 h hd.2
      rw [if_pos hd] at heh
      omega
    · rw [if_neg hd] at heh
      omega
  · intro hnil e he h hlt
    have heh := hc e h
    rw [hnil, List.count_nil, if_pos ⟨he,hlt⟩] at heh
    omega

/-- The default settings, and one handler. -/
def sample : Setup ℚ where
  config := Config.default 0
  handlers := 1

/-- A line that ends its block. -/
def terminalLine : LogRecord where
  id := 0
  timestamp := some 0
  enrichment := ⟨[("block_id",.str "blk_1"),("event_id",.str "E9")],by decide⟩

/-- The janitor finds the ended block and publishes its trace; the handler
has finished with it or not. -/
def beforeStop (finished : Bool) : List Label :=
  [.process 0 terminalLine 0 0,.tick] ++ if finished then [.handled 0] else []

def atStop (finished : Bool) : Tasks :=
  (run (step sample) (initial true) (beforeStop finished)).getD (initial true)

def stopRest : List Label := [.unwound,.joined]

def stopped (finished : Bool) : Tasks :=
  (run (step sample) (atStop finished) (.stopCall::stopRest)).getD (initial true)

/-- When `stop` returns no trace is open, every processed record is in one
published trace, and every handler has finished once with each of these,
exactly if the call did not find the janitor waiting for a handler. -/
theorem stop_delivers_iff (cfg : Setup F) (started : Bool) (ls ls' : List Label) (s t : Tasks)
    (hrun : run (step cfg) (initial started) ls = some s)
    (hcall : run (step cfg) s (.stopCall::ls') = some t) (hret : t.stop = .returned)
    (hfirst : ∀ u, run (step cfg) s (Label.stopCall::ls').dropLast = some u →
      u.stop ≠ .returned) :
    (t.sessionizer.openTraces.items = [] ∧
      (t.sessionizer.published.flatMap BlockTrace.recordIds).Perm
        (t.processed.map (fun p => p.2.id)) ∧
      ∀ e < t.sessionizer.published.length, ∀ h < cfg.handlers,
        t.delivered.count (e,h) = 1) ↔
    ∀ p, s.holder = some p → p.owner = .janitor → p.pending = [] := by
  have hs := run_counted cfg started ls s hrun
  have hkeep : ∀ s l t, Counted cfg s → step cfg s l = some t → Counted cfg t :=
    fun s l t hs h => step_counted cfg s t l hs (step_acts cfg s t l h)
  have ht := run_invariant (step cfg) (Counted cfg) hkeep hs hcall
  have htotal := (run_orderly cfg started (ls ++ .stopCall::ls') t
    (run_append_some.mpr ⟨s,hrun,hcall⟩)).partition.total
  -- the last step is the one in which `stop` returns
  have hlast : t.holder = none ∧ t.sessionizer.openTraces.items = [] := by
    have hsplit := List.dropLast_append_getLast (List.cons_ne_nil Label.stopCall ls')
    rw [← hsplit] at hcall
    obtain ⟨u,hu,hlast⟩ := run_append_some.mp hcall
    obtain ⟨v,hv,hvt⟩ := run_cons_some.mp hlast
    cases hvt
    exact step_returned cfg u t _ (run_invariant (step cfg) (Counted cfg) hkeep hs hu)
      (step_acts cfg u t _ hv) (hfirst u hu) hret
  rw [hlast.2, List.flatMap_nil, List.append_nil] at htotal
  obtain ⟨u,hu,hrest⟩ := run_cons_some.mp hcall
  obtain ⟨hst,hint⟩ := stopCall_interrupted cfg s u hs (step_acts cfg s u _ hu)
  have hend := run_invariant (step cfg)
    (fun x => x.interrupted = u.interrupted ∧ x.stop ≠ .notCalled)
    (fun x l y hx h => by
      have hi := step_interrupted cfg x y l hx.2 (step_acts cfg x y l h)
      exact ⟨hi.1.trans hx.1,hi.2⟩) ⟨rfl,hst⟩ hrest
  rw [← hint, ← hend.1, ← delivered_iff cfg t ht hlast.1]
  exact ⟨fun h => h.2.2,fun h => ⟨hlast.2,htotal,h⟩⟩

theorem stop_delivers_finished :
    (stopped true).sessionizer.published.length = 1 ∧
    (stopped true).delivered.count (0,0) = 1 := by
  have hheld : (atStop true).holder = some ⟨.janitor,[],[]⟩ := by decide
  have hu : run (step sample) (atStop true) (Label.stopCall::stopRest).dropLast =
      some { stopped true with stop := .joining } := by decide
  have hdelivered := ((stop_delivers_iff sample true (beforeStop true) stopRest (atStop true)
    (stopped true) (by decide) (by decide) (by decide) (fun u h => by
      rw [hu] at h
      cases h
      decide)).mpr (fun p hp _ => by
        rw [hheld] at hp
        cases hp
        rfl)).2.2
  exact ⟨by decide,hdelivered 0 (by decide) 0 (by decide)⟩

/-- `stop` is called while a handler has the trace that the janitor has just
taken out of the table: the handler never finishes with it, and nothing else
delivers it. -/
theorem stop_interrupts_delivery :
    run (step sample) (initial true) (beforeStop false ++ .stopCall::stopRest) =
      some (stopped false) ∧
    (stopped false).stop = .returned ∧ (stopped false).sessionizer.openTraces.items = [] ∧
    (stopped false).sessionizer.published.length = 1 ∧
    ¬ ∀ e < (stopped false).sessionizer.published.length, ∀ h < sample.handlers,
      (stopped false).delivered.count (e,h) = 1 := by
  decide

end PipelineX.SessionizerStop
