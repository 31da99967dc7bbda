import PipelineX.ExecutorAccounting

/-!
# When the source fails

`run` then leaves its `try` without joining the queue and cancels consumers
that have records in hand. Which records that costs is decided in the state
in which it does so.
-/

set_option autoImplicit false

namespace PipelineX.ExecutorFailure
open PipelineX.Records PipelineX.Stages PipelineX.TransitionSystem PipelineX.Tally
open PipelineX.Executor PipelineX.ExecutorSteps PipelineX.ExecutorLedger
open PipelineX.ExecutorPhases PipelineX.ExecutorAccounting

/-- Whether the save that consumer `i` is cancelled in takes effect. -/
def lands (i : ℕ) : List Label → Bool
  | [] => false
  | .cancelled j landed::ls => if j = i then landed else lands i ls
  | _::ls => lands i ls

/-- Cancelling this consumer costs no record. -/
def Spared (ls : List Label) (i : ℕ) : Consumer → Prop
  | .staging _ _ => False
  | .saving _ _ => lands i ls = true
  | _ => True

structure Spares (s : State) (ls : List Label) : Prop where
  lost : s.shared.lost = []
  interrupted : s.shared.interrupted = []
  consumers : ∀ i c, s.consumers[i]? = some c → Spared ls i c

/-- The state after the cancellation, as long as it lasts. -/
structure Abandoned (q : List LogRecord) (s : State) : Prop where
  queue : s.shared.queue = q
  producer : s.producer = .failed
  shutdown : s.shared.shutdown = true

theorem saveBatch_queue (s : Shared) (caller : Caller) (b : Batch) (o : SaveOutcome) :
    (saveBatch s caller b o).queue = s.queue := by
  cases o <;> rfl

theorem flushes_queue (s s' : Shared) (p p' : Flusher) (h : Flushes s p p' s') :
    s'.queue = s.queue := by
  cases h with
  | saved toSave o ho => exact saveBatch_queue s .flusher toSave o
  | _ => rfl

theorem runs_abandoned (q : List LogRecord) (s : State) (m : Main) (sh : Shared)
    (hs : Abandoned q s) (h : Runs s s.main m sh) :
    Frame s.shared sh ∧ sh.queue = s.shared.queue := by
  have hdown := hs.shutdown
  generalize s.main = m₀ at h
  cases h with
  | sourceFailed hp => exact ⟨⟨hdown.symm,rfl,rfl,rfl⟩,rfl⟩
  | joined hu => exact ⟨⟨hdown.symm,rfl,rfl,rfl⟩,rfl⟩
  | saved toSave o ho =>
    exact ⟨(saveBatch_frame s.shared .run toSave o).1,saveBatch_queue s.shared .run toSave o⟩
  | _ => exact ⟨⟨rfl,rfl,rfl,rfl⟩,rfl⟩

theorem spared_other (ls : List Label) (i j : ℕ) (landed : Bool) (c : Consumer) (h : i ≠ j) :
    Spared (.cancelled i landed::ls) j c ↔ Spared ls j c := by
  cases c <;> simp [Spared, lands, h]

theorem unwind_spared (s s' : Shared) (i : ℕ) (landed : Bool) (c : Consumer) (ls : List Label)
    (h : unwind s landed c = some s') :
    (s'.queue = s.queue ∧ s'.shutdown = s.shutdown) ∧
    (s'.lost = [] ∧ s'.interrupted = [] ↔
      (s.lost = [] ∧ s.interrupted = []) ∧ Spared (.cancelled i landed::ls) i c) := by
  cases c with
  | getting =>
    cases h
    simp [Spared]
  | staging r k =>
    cases h
    simp [Spared, taskDone]
  | flushing r =>
    cases h
    simp [Spared, taskDone]
  | saving r toSave =>
    have hb := toSave.nonempty
    cases landed <;> cases h <;> simp [Spared, lands, taskDone, saveBatch, hb]
  | exited => simp [unwind] at h

theorem cancelled_spares (s : State) (i : ℕ) (landed : Bool) (c : Consumer) (sh : Shared)
    (ls : List Label) (hi : s.consumers[i]? = some c) (h : unwind s.shared landed c = some sh) :
    Spares s (.cancelled i landed::ls) ↔
      Spares { s with consumers := s.consumers.set i .exited, shared := sh } ls := by
  have hu := (unwind_spared s.shared sh i landed c ls h).2
  have hlt := (List.getElem?_eq_some_iff.mp hi).1
  constructor
  · intro hs
    obtain ⟨hl,hint⟩ := hu.mpr ⟨⟨hs.lost,hs.interrupted⟩,hs.consumers i c hi⟩
    refine ⟨hl,hint,fun j d hj => ?_⟩
    by_cases hij : i = j
    · subst hij
      have hd : d = .exited := by simpa [List.getElem?_set_self hlt] using hj.symm
      simp [hd, Spared]
    · rw [List.getElem?_set_ne hij] at hj
      exact (spared_other ls i j landed d hij).mp (hs.consumers j d hj)
  · intro hs
    obtain ⟨⟨hl,hint⟩,hc⟩ := hu.mp ⟨hs.lost,hs.interrupted⟩
    refine ⟨hl,hint,fun j d hj => ?_⟩
    by_cases hij : i = j
    · subst hij
      rw [hi] at hj
      exact Option.some.inj hj ▸ hc
    · exact (spared_other ls i j landed d hij).mpr
        (hs.consumers j d (by rwa [List.getElem?_set_ne hij]))

theorem spares_frame {s t : State} {l : Label} {ls : List Label}
    (hc : t.consumers = s.consumers) (hf : Frame s.shared t.shared)
    (hl : ∀ i, lands i (l::ls) = lands i ls) : Spares s (l::ls) ↔ Spares t ls := by
  have hspared (i : ℕ) (c : Consumer) : Spared (l::ls) i c ↔ Spared ls i c := by
    cases c <;> simp [Spared, hl]
  constructor
  · intro hs
    exact ⟨hf.lost.trans hs.lost,hf.interrupted.trans hs.interrupted,
      fun i c hi => (hspared i c).mp (hs.consumers i c (hc ▸ hi))⟩
  · intro hs
    exact ⟨hf.lost.symm.trans hs.lost,hf.interrupted.symm.trans hs.interrupted,
      fun i c hi => (hspared i c).mpr (hs.consumers i c (hc.symm ▸ hi))⟩

theorem step_spares (cfg : Config) (q : List LogRecord) (s t : State) (l : Label)
    (ls : List Label) (hs : Abandoned q s) (h : Moves cfg s l t) :
    Abandoned q t ∧ (Spares s (l::ls) ↔ Spares t ls) := by
  cases h with
  | producer p sh h => simp [hs.producer, produce] at h
  | consumer i l c c' sh hrun hi h => simp [hs.shutdown] at hrun
  | cancelled i landed c sh hdown hi h =>
    obtain ⟨⟨hqueue,hshut⟩,_⟩ := unwind_spared s.shared sh i landed c ls h
    exact ⟨⟨hqueue.trans hs.queue,hs.producer,hshut.trans hs.shutdown⟩,
      cancelled_spares s i landed c sh ls hi h⟩
  | flusher l p sh h =>
    have hf := (flushes_frame _ _ _ _ h).1
    exact ⟨⟨(flushes_queue _ _ _ _ h).trans hs.queue,hs.producer,hf.shutdown.trans hs.shutdown⟩,
      spares_frame rfl hf (fun _ => rfl)⟩
  | main l m sh h =>
    obtain ⟨hf,hqueue⟩ := runs_abandoned q s m sh hs h
    exact ⟨⟨hqueue.trans hs.queue,hs.producer,hf.shutdown.trans hs.shutdown⟩,
      spares_frame rfl hf (fun _ => rfl)⟩

/-- When the consumers are gone, no record was lost exactly if each of them
was spared when they were cancelled. -/
theorem run_spares (cfg : Config) (q : List LogRecord) (ls : List Label) (s t : State)
    (hs : Abandoned q s) (hrun : run (step cfg) s ls = some t)
    (ht : ∀ c ∈ t.consumers, c = .exited) :
    Abandoned q t ∧
    (t.shared.lost = [] ∧ t.shared.interrupted = [] ↔ Spares s ls) := by
  induction ls generalizing s with
  | nil =>
    cases hrun
    refine ⟨hs,fun h => ⟨h.1,h.2,fun i c hi => ?_⟩,fun h => ⟨h.lost,h.interrupted⟩⟩
    rw [ht c (List.mem_of_getElem? hi)]
    trivial
  | cons l ls ih =>
    obtain ⟨u,hu,hrest⟩ := run_cons_some.mp hrun
    obtain ⟨ha,hsp⟩ := step_spares cfg q s u l ls hs (step_moves cfg s u l hu)
    rw [hsp]
    exact ih u ha hrest

theorem covered_iff (n : ℕ) (xs ys : List ℕ) (h : (xs ++ ys).Perm (List.range n)) :
    (∀ i < n, i ∈ ys) ↔ xs = [] := by
  have hlen := h.length_eq
  rw [List.length_append, List.length_range] at hlen
  constructor
  · intro hall
    have hle := (List.subperm_of_subset List.nodup_range
      (fun i hi => hall i (List.mem_range.mp hi))).length_le
    rw [List.length_range] at hle
    exact List.eq_nil_of_length_eq_zero (by omega)
  · intro hxs i hi
    have hmem := h.mem_iff.mpr (List.mem_range.mpr hi)
    rwa [hxs, List.nil_append] at hmem

theorem uncounted_failures {s : Shared} (hsaves : ∀ c ∈ s.saves, c.outcome = .stored) :
    debit s = s.recordsFailed - s.dropped.length := by
  have hr : tally rejected s.saves = 0 :=
    (tally_eq_zero _ _).mpr (fun c hc => by simp [rejected, hsaves c hc])
  have hc : tally crash s.saves = 0 :=
    (tally_eq_zero _ _).mpr (fun c hc => by simp [crash, hsaves c hc])
  rw [debit, hr, hc]
  omega

/-- Where the records are when `run` has raised the source's error. -/
theorem raised_perm (cfg : Config) (lines : List String) (t : State) (ht : Inv cfg lines t)
    (hraised : t.main = .raised) (hfail : t.producer = .failed)
    (hsaves : ∀ c ∈ t.shared.saves, c.outcome = .stored) :
    ((t.shared.queue ++ (t.shared.lost ++ t.shared.interrupted)).map LogRecord.id ++
      (t.shared.stored ++ t.shared.dropped).map LogRecord.id).Perm
        (List.range lines.length) := by
  have hidle := idle_tasks cfg lines t ht.phases (by rw [hraised]; rfl) (by rw [hraised]; rfl)
    (by rw [hfail]; rfl)
  have hpulled := ht.phases.source
  rw [hfail, remaining, List.length_nil, Nat.add_zero] at hpulled
  apply perm_of_tally
  intro f
  have hplaced := ht.ledger.placed f
  have hsettled := ht.ledger.settled (fun r => f r.id)
  rw [idle_tally hidle _ rfl, placed, hpulled] at hplaced
  rw [idle_tally hidle _ rfl, settled, ht.phases.emptied (by rw [hraised]; rfl),
    ← tally_flatMap] at hsettled
  change _ = _ + tally _ (saved t.shared) + _ at hsettled
  rw [saved_stored ht.kept hsaves] at hsettled
  simp only [weigh, tally_nil] at hplaced hsettled
  simp only [tally_append, tally_map]
  omega

/-- One consumer, batches of two, and a source that raises at its end. -/
def failing : Config := { sample with sourceRaises := true }

/-- The source's only line is in a stage, or in the buffer, when it fails. -/
def failingRun (buffered : Bool) : List Label :=
  (if buffered then passes failing 0 "a" else [.producer,.producer,.consumer 0 .get]) ++
    [.producer]

def failingRest (buffered : Bool) : List Label :=
  [.cancelled 0 false,.flusher .tick,.flusher .swap] ++
    (if buffered then [.flusher (.saved .stored)] else []) ++ [.main .advance,.main .advance]

def failingAt (buffered : Bool) : State :=
  (run (step failing) (initial failing ["a"]) (failingRun buffered)).getD (initial failing [])

def failingCancelled (buffered : Bool) : State :=
  (step failing (failingAt buffered) (.main .advance)).getD (initial failing [])

def failingEnd (buffered : Bool) : State :=
  (run (step failing) (failingCancelled buffered) (failingRest buffered)).getD
    (initial failing [])

/-- When `run` raises the source's error, each line is stored or counted as
failed exactly if, as `run` was woken by the error, the queue was empty, no
consumer was in a stage, and each save it cancels takes effect. -/
theorem no_loss_iff (cfg : Config) (lines : List String) (ls ls' : List Label) (s u t : State)
    (hrun : run (step cfg) (initial cfg lines) ls = some s) (hfail : s.producer = .failed)
    (hawaiting : s.main = .awaiting) (hwoken : step cfg s (.main .advance) = some u)
    (hrest : run (step cfg) u ls' = some t) (hraised : t.main = .raised)
    (hsaves : ∀ c ∈ t.shared.saves, c.outcome = .stored) :
    ((∀ i < lines.length, i ∈ (t.shared.stored ++ t.shared.dropped).map LogRecord.id) ∧
      t.shared.recordsFailed = t.shared.dropped.length) ↔
    s.shared.queue = [] ∧ ∀ i c, s.consumers[i]? = some c → Spared ls' i c := by
  have hs := run_inv cfg lines ls s hrun
  have ht := run_invariant (step cfg) (Inv cfg lines) (fun s l t h => step_inv cfg lines s t l h)
    (step_inv cfg lines s u _ hs hwoken) hrest
  have hup : s.shared.shutdown = false := by simp [hs.phases.shutdown, hawaiting, cancelling]
  have hclean := hs.phases.unharmed (Or.inl hup)
  have hu : u = { s with main := .gathering, shared := { s.shared with shutdown := true } } := by
    simpa [step, runMain, hawaiting, hfail] using hwoken.symm
  have hab : Abandoned s.shared.queue u := by
    rw [hu]
    exact ⟨rfl,hfail,rfl⟩
  obtain ⟨hend,hspares⟩ := run_spares cfg s.shared.queue ls' u t hab hrest
    (ht.phases.gathered (by rw [hraised]; rfl)).1
  have hsp : Spares u ls' ↔ ∀ i c, s.consumers[i]? = some c → Spared ls' i c := by
    rw [hu]
    exact ⟨fun h => h.consumers,fun h => ⟨hclean.1,hclean.2.2,h⟩⟩
  have hcount : t.shared.recordsFailed = t.shared.dropped.length := by
    have hd := ht.ledger.debit
    rw [uncounted_failures hsaves] at hd
    omega
  rw [covered_iff _ _ _ (raised_perm cfg lines t ht hraised hend.producer hsaves)]
  simp only [List.map_eq_nil_iff, List.append_eq_nil_iff, hend.queue, hcount, and_true, hspares, hsp]

theorem no_loss_buffered :
    (∀ i < 1, i ∈ ((failingEnd true).shared.stored ++ (failingEnd true).shared.dropped).map
      LogRecord.id) ∧
    (failingEnd true).shared.recordsFailed = (failingEnd true).shared.dropped.length := by
  have hc : (failingAt true).consumers = [.getting] := by decide
  exact (no_loss_iff failing ["a"] (failingRun true) (failingRest true) (failingAt true)
    (failingCancelled true) (failingEnd true) (by decide) (by decide) (by decide) (by decide)
    (by decide) (by decide) (by decide)).mpr ⟨by decide,fun i c hi => by
      rw [hc] at hi
      have hg : c = .getting := by simpa using List.mem_of_getElem? hi
      rw [hg]
      trivial⟩

/-- The source yields one line and fails while a consumer has it in a stage:
the line is neither stored nor counted. -/
theorem record_in_stage_lost :
    run (step failing) (initial failing ["a"])
      (failingRun false ++ .main .advance :: failingRest false) = some (failingEnd false) ∧
    (failingEnd false).main = .raised ∧ (failingEnd false).producer = .failed ∧
    (∀ c ∈ (failingEnd false).shared.saves, c.outcome = .stored) ∧
    ¬ ((∀ i < 1, i ∈ ((failingEnd false).shared.stored ++
        (failingEnd false).shared.dropped).map LogRecord.id) ∧
      (failingEnd false).shared.recordsFailed = (failingEnd false).shared.dropped.length) := by
  decide

end PipelineX.ExecutorFailure
