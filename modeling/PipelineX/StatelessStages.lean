import PipelineX.ExecutorOrder

/-!
# Stages that keep nothing

Where no stage keeps anything between its calls, what becomes of a line does not
depend on the others. Then the consumers are a map over the log in parallel: in
every run each record is what the sequential pipeline makes of its own line, and
a run that returns has stored what the sequential pipeline lets through.
-/

set_option autoImplicit false

namespace PipelineX.StatelessStages
open PipelineX.Records PipelineX.Stages PipelineX.TransitionSystem PipelineX.Tally
open PipelineX.Executor PipelineX.ExecutorSteps PipelineX.ExecutorLedger
open PipelineX.ExecutorPhases PipelineX.ExecutorAccounting PipelineX.ExecutorOrder

variable {σ : Type}

/-- Stages that keep nothing. -/
def Stateless (stages : List (Stage σ)) : Prop := ∀ st ∈ stages, ∀ w r, (st.process w r).2 = w

theorem runStages_stateless {stages : List (Stage σ)} (h : Stateless stages) (w : σ)
    (r : LogRecord) : (runStages stages w r).2.2 = w := by
  induction stages generalizing w r with
  | nil => rfl
  | cons st rest ih =>
    have hst := h st List.mem_cons_self w r
    rw [runStages]
    split
    · next e w' hp => rwa [hp] at hst
    · next r' w' hp =>
      rw [hp] at hst
      cases hst
      exact ih (fun s hs => h s (List.mem_cons_of_mem _ hs)) _ _

theorem sequential_stateless {stages : List (Stage σ)} (h : Stateless stages) (w : σ)
    (rs : List LogRecord) : (sequential stages w rs).2.1 =
      rs.filterMap (fun r => (runStages stages w r).2.1.toOption) := by
  induction rs with
  | nil => rfl
  | cons r rs ih =>
    have hw := runStages_stateless h w r
    rw [List.filterMap_cons, ← ih, sequential]
    rcases hr : runStages stages w r with ⟨calls,out,w'⟩
    rw [hr] at hw
    cases hw
    cases out <;> rfl

section
variable (cfg : Config) (stages : List (Stage σ)) (w : σ) (lines : List String)

/-- What the stages make of the line of this record. -/
def Becomes (r : LogRecord) (out : Except PyError LogRecord) : Prop :=
  ∃ s ∈ shells cfg 0 lines, s.id = r.id ∧ (runStages stages w s).2.1 = out

/-- A record in the stages becomes what the rest of them makes of it. -/
def OnItsWay : Consumer → Prop
  | .staging r k => Becomes cfg stages w lines r (runStages (stages.drop k) w r).2.1
  | _ => True

structure Fates (s : Shared) : Prop where
  passed : ∀ r ∈ s.passed, Becomes cfg stages w lines r (.ok r)
  dropped : ∀ r ∈ s.dropped, ∃ e, Becomes cfg stages w lines r (.error e)

structure Derived (x : State × σ) : Prop where
  world : x.2 = w
  upstream : toCome cfg x.1.shared x.1.producer <:+ shells cfg 0 lines
  consumers : ∀ c ∈ x.1.consumers, OnItsWay cfg stages w lines c
  fates : Fates cfg stages w lines x.1.shared

theorem initial_derived : Derived cfg stages w lines (initial cfg lines,w) where
  world := rfl
  upstream := List.suffix_refl _
  consumers := fun c hc => by
    cases List.eq_of_mem_replicate hc
    trivial
  fates := ⟨by simp [initial],by simp [initial]⟩

end

section
variable {cfg : Config} {stages : List (Stage σ)} {w : σ} {lines : List String}

theorem becomes_fresh {r : LogRecord} (hr : r ∈ shells cfg 0 lines) :
    Becomes cfg stages w lines r (runStages stages w r).2.1 := ⟨r,hr,rfl,rfl⟩

theorem Becomes.congr {r r' : LogRecord} {out : Except PyError LogRecord} (hid : r'.id = r.id)
    (h : Becomes cfg stages w lines r out) : Becomes cfg stages w lines r' out := by
  obtain ⟨s,hs,hr,hout⟩ := h
  exact ⟨s,hs,hr.trans hid.symm,hout⟩

/-- The stage `k` and the rest after it. -/
theorem runStages_drop {k : ℕ} {st : Stage σ} (hk : stages[k]? = some st) (h : Stateless stages)
    (r : LogRecord) : (runStages (stages.drop k) w r).2.1 =
      match (st.process w r).1 with
      | .ok r' => (runStages (stages.drop (k+1)) w (r'.markStage st.name)).2.1
      | .error e => .error e := by
  obtain ⟨hlt,hst⟩ := List.getElem?_eq_some_iff.mp hk
  have hkeeps := h st (hst ▸ List.getElem_mem hlt) w r
  rw [List.drop_eq_getElem_cons hlt, hst, runStages]
  rcases hp : st.process w r with ⟨out,w'⟩
  rw [hp] at hkeeps
  cases hkeeps
  cases out <;> rfl

/-- A stage's answer in the consumer that called it. -/
theorem stage_derived {s s' : Shared} {c' : Consumer} {r : LogRecord} {k : ℕ} {st : Stage σ}
    (hnames : cfg.stageNames = stages.map Stage.name) (hstateless : Stateless stages)
    (hk : stages[k]? = some st) (hs : Fates cfg stages w lines s)
    (hc : OnItsWay cfg stages w lines (.staging r k))
    (h : Consumes cfg s (.staging r k) (.stage (st.process w r).1) c' s') :
    OnItsWay cfg stages w lines c' ∧ Fates cfg stages w lines s' := by
  have hname : cfg.stageNames[k]? = some st.name := by simp [hnames, hk]
  rw [OnItsWay, runStages_drop hk hstateless] at hc
  generalize (st.process w r).1 = out at h hc
  cases h with
  | raised _ _ name e hk' =>
    refine ⟨trivial,hs.passed,fun q hq => ?_⟩
    rcases List.mem_append.mp hq with hq | hq
    · exact hs.dropped q hq
    · cases List.mem_singleton.mp hq
      exact ⟨e,hc⟩
  | staged _ r' _ name hk' hid =>
    have hn : name = st.name := Option.some.inj (hk'.symm.trans hname)
    rw [hn]
    exact ⟨hc.congr hid,hs.passed,hs.dropped⟩

theorem buffered_fates {s : Shared} {r : LogRecord} (hs : Fates cfg stages w lines s)
    (hnames : cfg.stageNames = stages.map Stage.name)
    (hc : OnItsWay cfg stages w lines (.staging r cfg.stageNames.length)) :
    Fates cfg stages w lines (buffered s r) := by
  have hend : stages.drop cfg.stageNames.length = [] := by simp [hnames]
  rw [OnItsWay, hend] at hc
  refine ⟨fun q hq => ?_,hs.dropped⟩
  rcases List.mem_append.mp hq with hq | hq
  · exact hs.passed q hq
  · cases List.mem_singleton.mp hq
    exact hc

theorem saveBatch_fates {s : Shared} (caller : Caller) (b : Batch) (o : SaveOutcome)
    (hs : Fates cfg stages w lines s) : Fates cfg stages w lines (saveBatch s caller b o) := by
  cases o <;> exact ⟨hs.passed,hs.dropped⟩

theorem consumes_derived {s s' : Shared} {c c' : Consumer} {l : ConsumerLabel}
    (hnames : cfg.stageNames = stages.map Stage.name) (hl : ∀ out, l ≠ .stage out)
    (hqueue : ∀ r ∈ s.queue, r ∈ shells cfg 0 lines) (hs : Fates cfg stages w lines s)
    (hc : OnItsWay cfg stages w lines c) (h : Consumes cfg s c l c' s') :
    OnItsWay cfg stages w lines c' ∧ Fates cfg stages w lines s' := by
  cases h with
  | timeout => exact ⟨hc,hs⟩
  | get r queue hq => exact ⟨becomes_fresh (hqueue r (by simp [hq])),hs.passed,hs.dropped⟩
  | raised r k name e hk => exact absurd rfl (hl _)
  | staged r r' k name hk hid => exact absurd rfl (hl _)
  | buffered r hroom =>
    have hb := buffered_fates hs hnames hc
    exact ⟨trivial,hb.passed,hb.dropped⟩
  | filled r hfull => exact ⟨trivial,buffered_fates hs hnames hc⟩
  | nothing r hb => exact ⟨trivial,hs.passed,hs.dropped⟩
  | swapped r hb => exact ⟨trivial,hs.passed,hs.dropped⟩
  | saved r toSave o ho =>
    have hb := saveBatch_fates .consumer toSave o hs
    exact ⟨trivial,hb.passed,hb.dropped⟩
  | crashed r toSave => exact ⟨trivial,hs.passed,hs.dropped⟩

theorem unwind_fates {s s' : Shared} {landed : Bool} {c : Consumer} (hs : Fates cfg stages w lines s)
    (h : unwind s landed c = some s') : Fates cfg stages w lines s' ∧
      s'.queue = s.queue ∧ s'.pulled = s.pulled := by
  cases c with
  | exited => cases h
  | saving r toSave => cases landed <;> cases h <;> exact ⟨⟨hs.passed,hs.dropped⟩,rfl,rfl⟩
  | _ =>
    cases h
    exact ⟨⟨hs.passed,hs.dropped⟩,rfl,rfl⟩

theorem flushes_fates {s s' : Shared} {p p' : Flusher} (h : Flushes s p p' s')
    (hs : Fates cfg stages w lines s) : Fates cfg stages w lines s' := by
  cases h with
  | saved toSave o ho => exact saveBatch_fates .flusher toSave o hs
  | _ => exact ⟨hs.passed,hs.dropped⟩

theorem runs_fates {s : State} {s' : Shared} {m m' : Main} (h : Runs s m m' s')
    (hs : Fates cfg stages w lines s.shared) : Fates cfg stages w lines s' := by
  cases h with
  | saved toSave o ho => exact saveBatch_fates .run toSave o hs
  | _ => exact ⟨hs.passed,hs.dropped⟩

theorem set_onItsWay {cs : List Consumer} {i : ℕ} {c' : Consumer}
    (hcs : ∀ c ∈ cs, OnItsWay cfg stages w lines c) (hc' : OnItsWay cfg stages w lines c') :
    ∀ c ∈ cs.set i c', OnItsWay cfg stages w lines c := by
  intro c hc
  rcases List.mem_or_eq_of_mem_set hc with hc | rfl
  · exact hcs c hc
  · exact hc'

/-- A consumer takes at most the head of the queue. -/
theorem consumes_toCome {s s' : Shared} {p : Producer} {c c' : Consumer} {l : ConsumerLabel}
    (h : Consumes cfg s c l c' s') : toCome cfg s' p <:+ toCome cfg s p := by
  cases h with
  | get r queue hq =>
    rw [toCome, toCome, hq]
    exact List.suffix_cons _ _
  | saved r toSave o ho =>
    have hquiet := saveBatch_quiet s .consumer toSave o
    simp [toCome, taskDone, countProcessed, hquiet.pulled, hquiet.queue]
  | _ => exact List.suffix_refl _

theorem produce_dropped {s s' : Shared} {p p' : Producer} (h : produce cfg s p = some (p',s')) :
    s'.dropped = s.dropped := by
  unfold produce at h
  split at h
  · cases h
    rfl
  · cases h
    rfl
  · split at h <;> cases h
    rfl
  · cases h
  · cases h

theorem driven_derived (hnames : cfg.stageNames = stages.map Stage.name)
    (hstateless : Stateless stages) {x y : State × σ} {l : Label}
    (hx : Derived cfg stages w lines x) (h : Driven cfg stages x l y) :
    Derived cfg stages w lines y := by
  have hmem {c : Consumer} {i : ℕ} (hi : x.1.consumers[i]? = some c) :
      OnItsWay cfg stages w lines c := hx.consumers c (List.mem_of_getElem? hi)
  cases h with
  | stage i r k st s hi hk hstep =>
    have hkeeps := hstateless st (List.mem_of_getElem? hk) x.2 r
    cases step_moves cfg x.1 s _ hstep with
    | consumer _ _ d c' sh hrun hd hc =>
      cases Option.some.inj (hi.symm.trans hd)
      rw [hx.world] at hc hkeeps
      obtain ⟨hway,hfates⟩ := stage_derived hnames hstateless hk hx.fates (hmem hi) hc
      exact ⟨(congrArg (fun v => (st.process v r).2) hx.world).trans hkeeps,
        (consumes_toCome hc).trans hx.upstream,set_onItsWay hx.consumers hway,hfates⟩
  | other l s hl hstep =>
    cases step_moves cfg x.1 s l hstep with
    | producer p sh hq =>
      obtain ⟨hcome,_,hpassed⟩ := produce_toCome cfg _ _ _ _ hq
      have hdropped := produce_dropped hq
      exact ⟨hx.world,hcome ▸ hx.upstream,hx.consumers,hpassed ▸ hx.fates.passed,
        hdropped ▸ hx.fates.dropped⟩
    | consumer i l d c' sh hrun hi hc =>
      have hqueue : ∀ r ∈ x.1.shared.queue, r ∈ shells cfg 0 lines :=
        fun r hr => hx.upstream.mem (List.mem_append_left _ hr)
      obtain ⟨hway,hfates⟩ := consumes_derived hnames (fun out hout => hl i out (by rw [hout]))
        hqueue hx.fates (hmem hi) hc
      exact ⟨hx.world,(consumes_toCome hc).trans hx.upstream,set_onItsWay hx.consumers hway,hfates⟩
    | cancelled i landed d sh hdown hi hc =>
      obtain ⟨hfates,hqueue,hpulled⟩ := unwind_fates hx.fates hc
      refine ⟨hx.world,?_,set_onItsWay hx.consumers trivial,hfates⟩
      simp only [toCome, hqueue, hpulled]
      exact hx.upstream
    | flusher l p sh hc =>
      have hquiet := flushes_quiet _ _ _ _ hc
      refine ⟨hx.world,?_,hx.consumers,flushes_fates hc hx.fates⟩
      simp only [toCome, hquiet.pulled, hquiet.queue]
      exact hx.upstream
    | main l m sh hc =>
      have hquiet := runs_quiet _ _ _ _ hc
      refine ⟨hx.world,?_,hx.consumers,runs_fates hc hx.fates⟩
      simp only [toCome, hquiet.pulled, hquiet.queue]
      exact hx.upstream

theorem run_derived (hnames : cfg.stageNames = stages.map Stage.name)
    (hstateless : Stateless stages) {ls : List Label} {x : State × σ}
    (hrun : run (drivenStep cfg stages) (initial cfg lines,w) ls = some x) :
    Inv cfg lines x.1 ∧ Derived cfg stages w lines x := by
  have hinit : Inv cfg lines (initial cfg lines) := run_inv cfg lines [] _ rfl
  refine run_invariant (drivenStep cfg stages)
    (fun x => Inv cfg lines x.1 ∧ Derived cfg stages w lines x) (fun x l y hx h => ?_)
    ⟨hinit,initial_derived cfg stages w lines⟩ hrun
  obtain ⟨m,hm⟩ := drivenStep_cases cfg stages x y l h
  exact ⟨step_inv cfg lines x.1 y.1 m hx.1 (driven_step cfg stages x y m hm),
    driven_derived hnames hstateless hx.2 hm⟩

theorem mem_shells {n : ℕ} {ls : List String} {r : LogRecord} (hr : r ∈ shells cfg n ls) :
    ∃ k l, r.id = n+k ∧ ls[k]? = some l ∧ r = shell cfg r.id l := by
  induction ls generalizing n with
  | nil => cases hr
  | cons l ls ih =>
    rcases List.mem_cons.mp hr with rfl | hr
    · exact ⟨0,l,rfl,rfl,rfl⟩
    · obtain ⟨k,m,hk,hm,hshell⟩ := ih hr
      exact ⟨k+1,m,hk.trans (Nat.add_right_comm n 1 k),hm,hshell⟩

theorem shells_ids (n : ℕ) (ls : List String) :
    (shells cfg n ls).map LogRecord.id = List.range' n ls.length := by
  induction ls generalizing n with
  | nil => rfl
  | cons l ls ih =>
    rw [shells, List.map_cons, ih, List.length_cons, List.range'_succ]
    rfl

/-- A record is told by its id. -/
theorem shells_unique {r s : LogRecord} (hr : r ∈ shells cfg 0 lines) (hs : s ∈ shells cfg 0 lines)
    (hid : r.id = s.id) : r = s := by
  obtain ⟨i,l,hi,hl,hr⟩ := mem_shells hr
  obtain ⟨k,m,hk,hm,hs⟩ := mem_shells hs
  have hik : i = k := Nat.add_left_cancel (hi.symm.trans (hid.trans hk))
  rw [hik, hm] at hl
  rw [hr, hs, hid, Option.some.inj hl]

theorem becomes_unique {r r' : LogRecord} {out out' : Except PyError LogRecord}
    (hr : Becomes cfg stages w lines r out) (hr' : Becomes cfg stages w lines r' out')
    (hid : r.id = r'.id) : out = out' := by
  obtain ⟨s,hs,hsr,hout⟩ := hr
  obtain ⟨s',hs',hsr',hout'⟩ := hr'
  rw [← hout, ← hout', shells_unique hs hs' (hsr.trans (hid.trans hsr'.symm))]

/-- The stored records are among those that passed. -/
theorem stored_passed {s : State} (hs : Inv cfg lines s) {r : LogRecord}
    (hr : r ∈ s.shared.stored) : r ∈ s.shared.passed := by
  rw [hs.kept.stored] at hr
  obtain ⟨c,hc,hrc⟩ := List.mem_flatMap.mp hr
  have hsaved : r ∈ saved s.shared := List.mem_flatMap.mpr ⟨c,List.mem_of_mem_filter hc,hrc⟩
  have hsettled := hs.ledger.settled (fun q => if q = r then 1 else 0)
  rw [settled, ← tally_flatMap, tally_count, tally_count, tally_count] at hsettled
  have hone := List.count_pos_iff.mpr hsaved
  rw [saved] at hone
  exact List.count_pos_iff.mp (by rw [tally_count] at hsettled; omega)

theorem mem_survivors {r : LogRecord} :
    r ∈ (shells cfg 0 lines).filterMap (fun s => (runStages stages w s).2.1.toOption) ↔
      Becomes cfg stages w lines r (.ok r) := by
  rw [List.mem_filterMap]
  constructor
  · rintro ⟨s,hs,hr⟩
    cases hout : (runStages stages w s).2.1 with
    | error e => simp [hout, Except.toOption] at hr
    | ok q =>
      cases Option.some.inj ((congrArg Except.toOption hout).symm.trans hr)
      exact ⟨s,hs,(runStages_carries stages w s r hout).1.symm,hout⟩
  · rintro ⟨s,hs,_,hout⟩
    exact ⟨s,hs,by rw [hout]; rfl⟩

theorem survivors_ids (rs : List LogRecord) :
    ((rs.filterMap (fun s => (runStages stages w s).2.1.toOption)).map LogRecord.id).Sublist
      (rs.map LogRecord.id) := by
  induction rs with
  | nil => exact List.Sublist.slnil
  | cons r rs ih =>
    rw [List.filterMap_cons, List.map_cons]
    cases hout : (runStages stages w r).2.1 with
    | error e => exact ih.cons r.id
    | ok q =>
      have hid := (runStages_carries stages w r q hout).1
      exact hid ▸ ih.cons_cons q.id

/-- The records that pass in a whole run are those of the sequential pipeline. -/
theorem passed_perm {s : State} (hinv : Inv cfg lines s) (hret : s.main = .returned)
    (hstateless : Stateless stages) (hfates : Fates cfg stages w lines s.shared) :
    s.shared.passed.Perm (sequential stages w (shells cfg 0 lines)).2.1 := by
  have hlines := lines_perm hinv.ledger (returned_finished cfg lines s hinv hret)
  have hids : ((s.shared.passed ++ s.shared.dropped).map LogRecord.id).Nodup :=
    hlines.nodup_iff.mpr List.nodup_range
  rw [List.map_append] at hids
  have hpassed : s.shared.passed.Nodup := List.Nodup.of_map _ (List.nodup_append.mp hids).1
  have hsurvivors : ((shells cfg 0 lines).filterMap
      (fun s => (runStages stages w s).2.1.toOption)).Nodup := by
    refine List.Nodup.of_map LogRecord.id ((survivors_ids _).nodup ?_)
    rw [shells_ids]
    exact List.nodup_range'
  rw [sequential_stateless hstateless, List.perm_ext_iff_of_nodup hpassed hsurvivors]
  intro r
  rw [mem_survivors]
  refine ⟨hfates.passed r,fun hr => ?_⟩
  -- the line of a survivor passed or was dropped
  have hline : r.id ∈ (s.shared.passed ++ s.shared.dropped).map LogRecord.id := by
    obtain ⟨t,ht,hid,_⟩ := hr
    have hrange : t.id ∈ List.range' 0 lines.length :=
      @shells_ids cfg 0 lines ▸ List.mem_map_of_mem ht
    rw [hlines.mem_iff, List.mem_range, ← hid]
    simpa using hrange
  obtain ⟨q,hq,hid⟩ := List.mem_map.mp hline
  rcases List.mem_append.mp hq with hq | hq
  · cases becomes_unique (hfates.passed q hq) hr hid
    exact hq
  · obtain ⟨e,he⟩ := hfates.dropped q hq
    cases becomes_unique he hr hid

/-- A whole run whose saves all worked has stored what the sequential pipeline
lets through, and counted the rest. -/
theorem returned_stored {s : State} (hinv : Inv cfg lines s) (hret : s.main = .returned)
    (hstateless : Stateless stages) (hfates : Fates cfg stages w lines s.shared)
    (hsaves : ∀ c ∈ s.shared.saves, c.outcome = .stored) :
    s.shared.stored.Perm (sequential stages w (shells cfg 0 lines)).2.1 ∧
      s.shared.recordsProcessed = (sequential stages w (shells cfg 0 lines)).2.1.length ∧
      s.shared.recordsProcessed + s.shared.recordsFailed = lines.length := by
  have hf := returned_finished cfg lines s hinv hret
  have hpassed := passed_perm hinv hret hstateless hfates
  have hstored : s.shared.stored.Perm _ :=
    saved_stored hinv.kept hsaves ▸ (saved_perm hinv.ledger hf).trans hpassed
  have hexcess : tally excess s.shared.saves = 0 := by
    rw [tally_eq_zero]
    intro c hc
    simp [excess, hsaves c hc]
  have hun := unstored_length hinv.ledger hinv.kept hf
  have hlen := hstored.length_eq
  obtain ⟨hp,hq⟩ := counters hinv.ledger hinv.kept hf
  refine ⟨hstored,?_,?_⟩ <;> omega

end

/-- What becomes of a log does not depend on the consumers. In every run each
stored record is what the sequential pipeline makes of one line, the one with
its number. A run that returns has given to `save_batch`, once each, the
records that the sequential pipeline lets through; when every save worked they
are what is stored, and the counters are their number and that of the others. -/
theorem consumers_invisible (cfg : Config) (stages : List (Stage σ)) (w w' : σ)
    (lines : List String) (ls : List Label) (t : State)
    (hnames : cfg.stageNames = stages.map Stage.name) (hstateless : Stateless stages)
    (hrun : run (drivenStep cfg stages) (initial cfg lines,w) ls = some (t,w')) :
    (∀ r ∈ t.shared.stored, ∃ l, lines[r.id]? = some l ∧
      (runStages stages w (shell cfg r.id l)).2.1 = .ok r) ∧
    (t.main = .returned →
      (saved t.shared).Perm (sequential stages w (shells cfg 0 lines)).2.1 ∧
      ((∀ c ∈ t.shared.saves, c.outcome = .stored) →
        t.shared.stored.Perm (sequential stages w (shells cfg 0 lines)).2.1 ∧
        t.shared.recordsProcessed = (sequential stages w (shells cfg 0 lines)).2.1.length ∧
        t.shared.recordsProcessed + t.shared.recordsFailed = lines.length)) := by
  obtain ⟨hinv,hderived⟩ := run_derived hnames hstateless hrun
  have hinv : Inv cfg lines t := hinv
  refine ⟨fun r hr => ?_,fun hret => ?_⟩
  · obtain ⟨s,hs,hid,hout⟩ := hderived.fates.passed r (stored_passed hinv hr)
    obtain ⟨k,l,hk,hl,hshell⟩ := mem_shells hs
    rw [Nat.zero_add] at hk
    rw [← hid]
    exact ⟨l,hk ▸ hl,hshell ▸ hout⟩
  · have hpassed := passed_perm hinv hret hstateless hderived.fates
    have hf := returned_finished cfg lines t hinv hret
    exact ⟨(saved_perm hinv.ledger hf).trans hpassed,
      returned_stored hinv hret hstateless hderived.fates⟩

/-- Two consumers, and every record a batch of its own. -/
def twoConsumers : Config where
  stageNames := ["parse:raw"]
  numWorkers := 2
  queueSize := 2
  batchSize := 1
  runId := 7
  sourceRaises := false
  workers_pos := Nat.two_pos
  queue_pos := Nat.two_pos
  batch_pos := Nat.one_pos

/-- The second line overtakes the first. -/
def overtaken : List Label :=
  [.producer,.producer,.producer,.producer,.consumer 0 .get,.consumer 1 .get,
    .consumer 1 (.stage (.error (.other "" ""))),.consumer 1 .buffer,.consumer 1 .swap,
    .consumer 1 (.saved .stored),.consumer 0 (.stage (.error (.other "" ""))),.consumer 0 .buffer,
    .consumer 0 .swap,.consumer 0 (.saved .stored),.producer,.main .advance,.main .advance,
    .cancelled 0 false,.cancelled 1 false,.flusher .tick,.flusher .swap,.main .advance,
    .main .advance]

theorem sample_stateless : Stateless sampleStages := by
  intro st hst w r
  cases List.mem_singleton.mp hst
  rfl

theorem consumers_invisible_overtaken : ∃ t,
    run (drivenStep twoConsumers sampleStages) (initial twoConsumers ["a","b"],()) overtaken =
      some (t,()) ∧ t.shared.stored.map LogRecord.message = ["b","a"] ∧
    t.shared.stored.Perm (sequential sampleStages () (shells twoConsumers 0 ["a","b"])).2.1 := by
  have hret : (run (drivenStep twoConsumers sampleStages) (initial twoConsumers ["a","b"],())
      overtaken).map (fun x => (x.1.main,x.1.shared.stored.map LogRecord.message,
        x.1.shared.saves.map SaveCall.outcome)) =
      some (.returned,["b","a"],[.stored,.stored]) := by
    decide
  obtain ⟨⟨t,u⟩,ht,hmap⟩ := Option.map_eq_some_iff.mp hret
  simp only [Prod.mk.injEq] at hmap
  have hsaves : ∀ c ∈ t.shared.saves, c.outcome = .stored := by
    intro c hc
    have hmem := List.mem_map_of_mem (f := SaveCall.outcome) hc
    simpa [hmap.2.2] using hmem
  exact ⟨t,ht,hmap.2.1,((consumers_invisible twoConsumers sampleStages () () ["a","b"] overtaken t
    (by decide) sample_stateless ht).2 hmap.1).2 hsaves |>.1⟩

end PipelineX.StatelessStages
