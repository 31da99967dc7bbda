import PipelineX.SessionizerStop

/-!
# A slow listener and the other workers

`_emit` awaits the bus under the sessionizer's lock. While a handler of a
closed trace is busy the lock stays taken, and a `process` call gets through
only if it does not ask for the lock at all.
-/

set_option autoImplicit false

namespace PipelineX.SessionizerStall
open PipelineX.Records PipelineX.Sessionizer
open PipelineX.SessionizerTasks PipelineX.SessionizerStop PipelineX.TransitionSystem

variable {F : Type} [Seconds F]

/-- The worker is in a call of `process`: it waits for the lock or has it. -/
def InProcess (s : Tasks) (w : ℕ) : Prop :=
  (∃ b r, Waiter.worker w b r ∈ s.waiters) ∨ ∃ p, s.holder = some p ∧ p.owner = .worker w

/-- Handler `h` has an event in its hands. -/
def Handling (s : Tasks) (h : ℕ) : Prop := ∃ p, s.holder = some p ∧ h ∈ p.pending

/-- A worker in `process` is given the lock, and goes on when its handlers
are done. -/
def Own : Label → Prop
  | .grant _ _ => True
  | .resume => True
  | _ => False

/-- Any step, of any task, in which handler `h` does not finish and `stop`
does not come to cancel it. -/
def Without (h : ℕ) : Label → Prop
  | .handled g => g ≠ h
  | .stopCall => False
  | _ => True

/-- The call `process(r)` of worker `w` can return when only steps in `P`
follow it. -/
def Completes (cfg : Setup F) (P : Label → Prop) (s : Tasks) (w : ℕ) (r : LogRecord) : Prop :=
  ∃ (now now' : Datetime) (ls : List Label) (t : Tasks), (∀ l ∈ ls, P l) ∧
    run (step cfg) s (.process w r now now'::ls) = some t ∧ ¬ InProcess t w

theorem own_without (h : ℕ) {l : Label} (hl : Own l) : Without h l := by
  cases l with
  | grant now now' => trivial
  | resume => trivial
  | _ => exact hl.elim

/-- The worker waits for the lock, which is held for handler `h`. -/
structure Blocked (h w : ℕ) (s : Tasks) : Prop where
  handling : Handling s h
  waiting : ∃ b r, Waiter.worker w b r ∈ s.waiters

theorem acquire_held (enter : Tasks → Tasks) (k : Waiter) (s : Tasks) (h : ℕ)
    (hs : Handling s h) : acquire enter k s = { s with waiters := s.waiters ++ [k] } := by
  obtain ⟨p,hp,_⟩ := hs
  simp [acquire, hp]

theorem acquire_blocked (enter : Tasks → Tasks) (k : Waiter) (s : Tasks) (h w : ℕ)
    (hs : Blocked h w s) : Blocked h w (acquire enter k s) := by
  rw [acquire_held enter k s h hs.handling]
  obtain ⟨b,r,hm⟩ := hs.waiting
  exact ⟨hs.handling,b,r,List.mem_append_left _ hm⟩

/-- Nothing but the handler itself, or its cancellation, sets the worker free. -/
theorem step_blocked (cfg : Setup F) (s t : Tasks) (l : Label) (h w : ℕ) (hc : Counted cfg s)
    (hs : Blocked h w s) (hl : Without h l) (hstep : Acts cfg s l t) : Blocked h w t := by
  obtain ⟨p,hp,hm⟩ := hs.handling
  have hlocked : s.holder ≠ none := by simp [hp]
  cases hstep with
  | ignored v r now now' hb => exact hs
  | process v b r now now' hb => exact acquire_blocked _ _ s h w hs
  | grantWorker v b r ks now now' hh hw => exact absurd hh hlocked
  | grantJanitor ks now now' hh hw => exact absurd hh hlocked
  | grantStop ks now now' hh hw => exact absurd hh hlocked
  | handled g q hh hg =>
    obtain rfl : p = q := Option.some.inj (hp.symm.trans hh)
    have hkept : h ∈ p.pending.erase g := (List.mem_erase_of_ne (Ne.symm hl)).mpr hm
    exact ⟨⟨_,rfl,hkept⟩,hs.waiting⟩
  | resume q hh hq hj =>
    obtain rfl : p = q := Option.some.inj (hp.symm.trans hh)
    rw [hq] at hm
    cases hm
  | tick hj => exact acquire_blocked _ _ _ h w ⟨hs.handling,hs.waiting⟩
  | stopAlone hst hj => exact hl.elim
  | stopJoins hst hj => exact hl.elim
  | unwound hj =>
    -- a cancelled janitor holds the lock without handlers, so the holder is another task
    have hne : p.owner ≠ .janitor := by
      intro ho
      rw [((hc.offDuty (Or.inl hj)).2 p hp ho).2] at hm
      cases hm
    refine ⟨⟨p,?_,hm⟩,hs.waiting⟩
    simp [hp, Option.filter_some, hne]
  | joined hst hj => exact acquire_blocked _ _ _ h w ⟨hs.handling,hs.waiting⟩

theorem run_blocked (cfg : Setup F) (s t : Tasks) (ls : List Label) (h w : ℕ)
    (hc : Counted cfg s) (hs : Blocked h w s) (hls : ∀ l ∈ ls, Without h l)
    (hrun : run (step cfg) s ls = some t) : Blocked h w t :=
  (run_invariant_of (step cfg) (Without h) (fun s => Counted cfg s ∧ Blocked h w s)
    (fun s l t hl hs hstep =>
      have ha := step_acts cfg s t l hstep
      ⟨step_counted cfg s t l hs.1 ha,step_blocked cfg s t l h w hs.1 hs.2 hl ha⟩)
    hls ⟨hc,hs⟩ hrun).2

/-- A record without a block passes at once. -/
theorem completes_of_none (cfg : Setup F) (P : Label → Prop) (s : Tasks) (w : ℕ)
    (r : LogRecord) (hidle : ¬ InProcess s w) (hb : blockIdOf cfg.config r = none) :
    Completes cfg P s w r := by
  refine ⟨0,0,[],s,by simp,?_,hidle⟩
  simp [run, step, hb]

/-- A record of a block gets in line behind the handler. -/
theorem none_of_completes (cfg : Setup F) (s : Tasks) (h w : ℕ) (r : LogRecord)
    (hc : Counted cfg s) (hs : Handling s h) (hr : Completes cfg (Without h) s w r) :
    blockIdOf cfg.config r = none := by
  obtain ⟨now,now',ls,t,hls,hrun,hout⟩ := hr
  cases hb : blockIdOf cfg.config r with
  | none => rfl
  | some b =>
    obtain ⟨u,hu,ht⟩ := run_cons_some.mp hrun
    have hact := step_acts cfg s u _ hu
    have hblocked : Blocked h w u := by
      simp only [step, hb, Option.some.injEq] at hu
      rw [← hu, acquire_held _ _ s h hs]
      exact ⟨hs,b,r,List.mem_append_right _ List.mem_cons_self⟩
    have hend := run_blocked cfg u t ls h w (step_counted cfg s u _ hc hact) hblocked hls ht
    exact absurd (Or.inl hend.waiting) hout

theorem completes_mono (cfg : Setup F) {P Q : Label → Prop} (hPQ : ∀ l, P l → Q l) (s : Tasks)
    (w : ℕ) (r : LogRecord) (h : Completes cfg P s w r) : Completes cfg Q s w r := by
  obtain ⟨now,now',ls,t,hls,hrun,hout⟩ := h
  exact ⟨now,now',ls,t,fun l hl => hPQ l (hls l hl),hrun,hout⟩

/-- While a handler of a closed trace is busy, another worker's `process(r)`
returns exactly for the records that belong to no block. The steps of all the
other tasks and handlers make no difference to this. -/
theorem slow_listener_iff (cfg : Setup F) (started : Bool) (ls : List Label) (s : Tasks)
    (hrun : run (step cfg) (initial started) ls = some s) (h w : ℕ) (hs : Handling s h)
    (hidle : ¬ InProcess s w) (r : LogRecord) :
    (Completes cfg Own s w r ↔ blockIdOf cfg.config r = none) ∧
    (Completes cfg (Without h) s w r ↔ blockIdOf cfg.config r = none) := by
  have hc := run_counted cfg started ls s hrun
  refine ⟨⟨fun hr => ?_,completes_of_none cfg Own s w r hidle⟩,
    ⟨none_of_completes cfg s h w r hc hs,completes_of_none cfg _ s w r hidle⟩⟩
  exact none_of_completes cfg s h w r hc hs
    (completes_mono cfg (fun l => own_without h) s w r hr)

/-- A line of another block than the one that the janitor has closed. -/
def otherLine : LogRecord where
  id := 1
  timestamp := some 1
  enrichment := ⟨[("block_id",.str "blk_2")],List.nodup_singleton _⟩

theorem janitor_handling :
    run (step sample) (initial true) (beforeStop false) = some (atStop false) ∧
    Handling (atStop false) 0 ∧ ¬ InProcess (atStop false) 1 := by
  refine ⟨by decide,⟨⟨.janitor,[0],[]⟩,by decide,by decide⟩,?_⟩
  rintro (⟨b,r,hm⟩ | ⟨p,hp,ho⟩)
  · exact List.not_mem_nil hm
  · have hp' : p = ⟨.janitor,[0],[]⟩ := (Option.some.inj hp).symm
    rw [hp'] at ho
    cases ho

/-- Worker 1 brings a line of `blk_2` while a handler has the trace of `blk_1`. -/
theorem slow_listener_stalls :
    ∃ s, run (step sample) (initial true) (beforeStop false) = some s ∧ Handling s 0 ∧
      ¬ InProcess s 1 ∧ ¬ Completes sample (Without 0) s 1 otherLine := by
  obtain ⟨hrun,hs,hidle⟩ := janitor_handling
  refine ⟨atStop false,hrun,hs,hidle,fun hr => ?_⟩
  have hnone := none_of_completes sample _ 0 1 otherLine
    (run_counted sample true _ _ hrun) hs hr
  simp [blockIdOf, sample, Config.default, otherLine, OrderedDict.get?] at hnone

/-- The same moment, for each record. -/
theorem slow_listener_iff_janitor :
    (Completes sample Own (atStop false) 1 otherLine ↔
      blockIdOf sample.config otherLine = none) ∧
    (Completes sample (Without 0) (atStop false) 1 otherLine ↔
      blockIdOf sample.config otherLine = none) :=
  slow_listener_iff sample true (beforeStop false) _ janitor_handling.1 0 1 janitor_handling.2.1
    janitor_handling.2.2 otherLine

end PipelineX.SessionizerStall
