import PipelineX.SessionizerTasks
import Mathlib.Data.List.Count

/-!
# Whose turn it is

Once `stop` was called the janitor never works again, and `stop` has one turn
at the lock. Whoever waits for the lock or has it can go on.
-/

set_option autoImplicit false

namespace PipelineX.SessionizerDuty
open PipelineX.Records PipelineX.Sessionizer PipelineX.SessionizerTasks

variable {F : Type} [Seconds F]

/-- The janitor sleeps or makes a pass. -/
def onDuty : Janitor → Bool
  | .sleeping => true
  | .passing => true
  | _ => false

/-- How far `stop` is, and what it has made of the janitor. -/
def settled : Stop → Janitor → Bool
  | .notCalled, _ => true
  | .joining, .cancelled => true
  | .joining, .finished => true
  | .flushing, .finished => true
  | .flushing, .absent => true
  | .returned, .finished => true
  | .returned, .absent => true
  | _, _ => false

def stopHolds : Option Publishing → ℕ
  | none => 0
  | some p => if p.owner = .stop then 1 else 0

def stopTurn : Stop → ℕ
  | .flushing => 1
  | _ => 0

structure Stopping (s : Tasks) : Prop where
  waiter : onDuty s.janitor = false → Waiter.janitor ∉ s.waiters
  holder : ∀ p, s.holder = some p → p.owner = .janitor →
    onDuty s.janitor = true ∨ s.janitor = .cancelled
  settled : settled s.stop s.janitor = true
  turn : s.waiters.count .stop + stopHolds s.holder = stopTurn s.stop

theorem initial_stopping (started : Bool) : Stopping (initial started) := by
  constructor
  · simp [initial]
  · simp [initial]
  · rfl
  · rfl

theorem onDuty_notCalled {st : Stop} {j : Janitor} (h : settled st j = true)
    (hj : onDuty j = true) : st = .notCalled := by
  cases st <;> cases j <;> simp_all [settled, onDuty]

/-- What `emitAll` needs to know about the one who has got the lock. -/
structure Takes (o : Owner) (s : Tasks) : Prop where
  waiter : onDuty s.janitor = false → Waiter.janitor ∉ s.waiters
  onDuty : o = .janitor → onDuty s.janitor = true
  settled : SessionizerDuty.settled s.stop s.janitor = true
  turn : s.waiters.count .stop + (if o = .stop then 1 else 0) = stopTurn s.stop

theorem release_stopping (o : Owner) (s : Tasks) (h : Takes o s) : Stopping (release o s) := by
  have hturn := h.turn
  have hsettled := h.settled
  cases o with
  | worker w => exact ⟨h.waiter,by simp [release],hsettled,by simpa [release, stopHolds] using hturn⟩
  | janitor =>
    have hst := onDuty_notCalled hsettled (h.onDuty rfl)
    refine ⟨by simp [release, onDuty],by simp [release],?_,by simpa [release, stopHolds] using hturn⟩
    simp [release, hst, settled]
  | stop =>
    refine ⟨h.waiter,by simp [release],?_,?_⟩
    · cases hst : s.stop with
      | flushing => cases hj : s.janitor <;> simp [hst, hj, settled, release] at hsettled ⊢
      | _ => simp [hst, stopTurn] at hturn
    · cases hst : s.stop with
      | flushing => simpa [hst, stopTurn, stopHolds, release] using hturn
      | _ => simp [hst, stopTurn] at hturn

theorem emitAll_stopping (cfg : Setup F) (o : Owner) (cs : List Closing) (s : Tasks)
    (h : Takes o s) : Stopping (emitAll cfg o cs s) := by
  induction cs generalizing s with
  | nil => exact release_stopping o s h
  | cons c cs ih =>
    by_cases hn : cfg.handlers = 0
    · rw [emitAll, if_pos hn]
      exact ih _ ⟨h.waiter,h.onDuty,h.settled,h.turn⟩
    · rw [emitAll, if_neg hn]
      refine ⟨h.waiter,fun p hp ho => Or.inl (h.onDuty ?_),h.settled,h.turn⟩
      cases hp
      exact ho

/-- The lock's queue is as before, and a free lock is taken. -/
theorem acquire_stopping (enter : Tasks → Tasks) (k : Waiter) (s : Tasks)
    (hs : Stopping { s with waiters := s.waiters ++ [k] })
    (henter : s.holder = none → s.waiters = [] → Stopping (enter s)) :
    Stopping (acquire enter k s) := by
  by_cases hfree : s.holder = none ∧ s.waiters = []
  · rw [acquire, if_pos hfree]
    exact henter hfree.1 hfree.2
  · rw [acquire, if_neg hfree]
    exact hs

theorem flush_stopping (cfg : Setup F) (s : Tasks) (hs : Stopping s)
    (hj : settled .flushing s.janitor = true) (ht : stopTurn s.stop = 0) :
    Stopping (acquire (flushLocked cfg) .stop { s with stop := .flushing }) := by
  have hturn := hs.turn
  refine acquire_stopping _ _ _ ⟨fun hd => ?_,hs.holder,hj,?_⟩ (fun _ hw => ?_)
  · simpa using hs.waiter hd
  · simp only [List.count_append, List.count_singleton_self, stopTurn]
    omega
  · replace hw : s.waiters = [] := hw
    exact emitAll_stopping cfg .stop _ _ ⟨hs.waiter,by simp,hj,by simp [hw, stopTurn]⟩

theorem acts_stopping (cfg : Setup F) (s t : Tasks) (l : Label) (hs : Stopping s)
    (h : Acts cfg s l t) : Stopping t := by
  have hturn := hs.turn
  -- the first waiter gets the lock
  have hgrant (k : Waiter) (ks : List Waiter) (o : Owner) (hw : s.waiters = k::ks)
      (hh : s.holder = none) (ho : o = .janitor ↔ k = .janitor) (hst : o = .stop ↔ k = .stop) :
      Takes o { s with waiters := ks } := by
    constructor
    · exact fun hd hm => hs.waiter hd (hw ▸ List.mem_cons_of_mem _ hm)
    · intro hj
      by_contra hd
      exact hs.waiter (by simpa using hd) (by simp [hw, ho.mp hj])
    · exact hs.settled
    · rw [hw, hh, List.count_cons] at hturn
      simpa [stopHolds, hst] using hturn
  cases h with
  | ignored w r now now' hb => exact hs
  | process w b r now now' hb =>
    refine acquire_stopping _ _ _ ⟨fun hd => ?_,hs.holder,hs.settled,?_⟩ (fun hh hw => ?_)
    · simpa using hs.waiter hd
    · simpa [List.count_append, List.count_singleton] using hturn
    · exact emitAll_stopping cfg (.worker w) _ _ ⟨hs.waiter,by simp,hs.settled,by
        simpa [hh, hw, stopHolds] using hturn⟩
  | grantWorker w b r ks now now' hh hw =>
    have htakes := hgrant _ ks (.worker w) hw hh (by simp) (by simp)
    exact emitAll_stopping cfg (.worker w) _ _
      ⟨htakes.waiter,htakes.onDuty,htakes.settled,htakes.turn⟩
  | grantJanitor ks now now' hh hw =>
    exact emitAll_stopping cfg .janitor _ _ (hgrant _ ks .janitor hw hh (by simp) (by simp))
  | grantStop ks now now' hh hw =>
    exact emitAll_stopping cfg .stop _ _ (hgrant _ ks .stop hw hh (by simp) (by simp))
  | handled h p hh hm =>
    refine ⟨hs.waiter,fun q hq ho => ?_,hs.settled,?_⟩
    · cases hq
      exact hs.holder p hh ho
    · rw [hh] at hturn
      exact hturn
  | resume p hh hp hj =>
    refine emitAll_stopping cfg p.owner p.todo s ⟨hs.waiter,fun ho => ?_,hs.settled,?_⟩
    · exact (hs.holder p hh ho).resolve_right (hj ho)
    · rw [hh] at hturn
      exact hturn
  | tick hj =>
    have hst := onDuty_notCalled hs.settled (by simp [hj, onDuty])
    refine acquire_stopping _ _ _ ⟨by simp [onDuty],fun p hp ho => Or.inl rfl,?_,?_⟩
      (fun hh hw => ?_)
    · simp [hst, settled]
    · simpa [List.count_append, List.count_singleton] using hturn
    · rw [show s.holder = none from hh] at hturn
      exact emitAll_stopping cfg .janitor _ _ ⟨by simp [onDuty],fun _ => rfl,by
        simp [hst, settled],by simpa [stopHolds] using hturn⟩
  | stopAlone hst hj => exact flush_stopping cfg s hs (by simp [hj, settled]) (by simp [hst, stopTurn])
  | stopJoins hst hj =>
    refine ⟨fun _ hm => ?_,fun p hp ho => Or.inr rfl,rfl,?_⟩
    · simp [cancelJanitor] at hm
    · have hcount : (cancelJanitor s).waiters.count .stop = s.waiters.count .stop :=
        List.count_filter (by simp)
      have hholds : stopHolds (cancelJanitor s).holder = stopHolds s.holder := by
        cases hh : s.holder with
        | none => simp [cancelJanitor, hh]
        | some p => by_cases ho : p.owner = .janitor <;> simp [cancelJanitor, hh, ho, stopHolds]
      rw [hst] at hturn
      change (cancelJanitor s).waiters.count .stop + stopHolds (cancelJanitor s).holder = 0
      rw [hcount, hholds, hturn]
      rfl
  | unwound hj =>
    have hd : onDuty s.janitor = false := by simp [hj, onDuty]
    refine ⟨fun _ => hs.waiter hd,fun p hp ho => ?_,?_,?_⟩
    · exact absurd ho (by simpa using (Option.filter_eq_some_iff.mp hp).2)
    · have hsettled := hs.settled
      rw [hj] at hsettled
      cases hst : s.stop <;> simp [hst, settled] at hsettled ⊢
    · rw [← hturn]
      congr 1
      cases hh : s.holder with
      | none => rfl
      | some p => by_cases ho : p.owner = .janitor <;> simp [Option.filter_some, ho, stopHolds]
  | joined hst hj => exact flush_stopping cfg s hs (by simp [hj, settled]) (by simp [hst, stopTurn])

theorem emitAll_notCalled (cfg : Setup F) (o : Owner) (cs : List Closing) (s : Tasks)
    (ho : o ≠ .stop) : (emitAll cfg o cs s).stop = s.stop := by
  induction cs generalizing s with
  | nil =>
    cases o with
    | stop => exact absurd rfl ho
    | _ => rfl
  | cons c cs ih =>
    by_cases hn : cfg.handlers = 0
    · rw [emitAll, if_pos hn]
      exact ih _
    · rw [emitAll, if_neg hn]

/-- Only a call of `stop` changes that it was not called. -/
theorem acts_notCalled (cfg : Setup F) (s t : Tasks) (l : Label) (hs : Stopping s)
    (hl : l ≠ .stopCall) (hst : s.stop = .notCalled) (h : Acts cfg s l t) :
    t.stop = .notCalled := by
  have hturn := hs.turn
  rw [hst] at hturn
  have hacquire (enter : Tasks → Tasks) (k : Waiter) (u : Tasks) (hu : u.stop = .notCalled)
      (henter : (enter u).stop = u.stop) : (acquire enter k u).stop = .notCalled := by
    unfold acquire
    split
    · exact henter.trans hu
    · exact hu
  cases h with
  | ignored w r now now' hb => exact hst
  | process w b r now now' hb =>
    exact hacquire _ _ s hst (emitAll_notCalled cfg (.worker w) _ _ (by simp))
  | grantWorker w b r ks now now' hh hw =>
    exact (emitAll_notCalled cfg (.worker w) _ _ (by simp)).trans hst
  | grantJanitor ks now now' hh hw => exact (emitAll_notCalled cfg .janitor _ _ (by simp)).trans hst
  | grantStop ks now now' hh hw => simp [hw, stopTurn] at hturn
  | handled h p hh hm => exact hst
  | resume p hh hp hj =>
    refine (emitAll_notCalled cfg p.owner _ _ (fun ho => ?_)).trans hst
    simp [hh, ho, stopHolds, stopTurn] at hturn
  | tick hj => exact hacquire _ _ _ hst (emitAll_notCalled cfg .janitor _ _ (by simp))
  | stopAlone hst hj => exact absurd rfl hl
  | stopJoins hst hj => exact absurd rfl hl
  | unwound hj => exact hst
  | joined hj _ => exact absurd (hst.symm.trans hj) (by simp)

/-- What the lock's owner does next, or who gets the lock. -/
def turns : Label → Bool
  | .grant _ _ => true
  | .handled _ => true
  | .resume => true
  | .unwound => true
  | _ => false

/-- Whoever waits for the lock or has it can go on. -/
theorem turn_taken (cfg : Setup F) (s : Tasks) (h : s.holder ≠ none ∨ s.waiters ≠ []) :
    ∃ l, turns l = true ∧ (step cfg s l).isSome := by
  cases hh : s.holder with
  | none =>
    have hw : s.waiters ≠ [] := h.resolve_left (fun hn => hn hh)
    obtain ⟨k,ks,hks⟩ := List.exists_cons_of_ne_nil hw
    refine ⟨.grant 0 0,rfl,?_⟩
    cases k <;> simp [step, hh, hks]
  | some p =>
    cases hp : p.pending with
    | cons n ns => exact ⟨.handled n,rfl,by simp [step, hh, hp]⟩
    | nil =>
      by_cases hc : p.owner = .janitor ∧ s.janitor = .cancelled
      · exact ⟨.unwound,rfl,by simp [step, hc.2]⟩
      · have hgo : p.owner = .janitor → s.janitor ≠ .cancelled := fun ho hj => hc ⟨ho,hj⟩
        exact ⟨.resume,rfl,by simp only [step, hh, hp]; rw [if_pos ⟨trivial,hgo⟩]; rfl⟩

/-- A call of `stop` that has not returned can go on. -/
theorem stop_goes (cfg : Setup F) (s : Tasks) (hs : Stopping s) (hc : s.stop ≠ .notCalled)
    (hr : s.stop ≠ .returned) :
    ∃ l, (turns l = true ∨ l = .joined) ∧ (step cfg s l).isSome := by
  have hsettled := hs.settled
  have hturn := hs.turn
  cases hst : s.stop with
  | notCalled => exact absurd hst hc
  | returned => exact absurd hst hr
  | joining =>
    cases hj : s.janitor with
    | cancelled => exact ⟨.unwound,Or.inl rfl,by simp [step, hj]⟩
    | finished => exact ⟨.joined,Or.inr rfl,by simp [step, hst, hj]⟩
    | _ => simp [hst, hj, settled] at hsettled
  | flushing =>
    rw [hst] at hturn
    have hbusy : s.holder ≠ none ∨ s.waiters ≠ [] := by
      by_contra hn
      push Not at hn
      simp [hn.1, hn.2, stopHolds, stopTurn] at hturn
    obtain ⟨l,hl,hstep⟩ := turn_taken cfg s hbusy
    exact ⟨l,Or.inl hl,hstep⟩

end PipelineX.SessionizerDuty
