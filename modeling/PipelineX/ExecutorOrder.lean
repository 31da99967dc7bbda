import PipelineX.ExecutorAccounting

/-!
# One consumer is the sequential pipeline

The executor with the answers of actual stages, which keep a state between
calls. With one consumer, what has been called and buffered, followed by what
the lines still to come would be given, is at every point of a run what the
sequential pipeline does with all lines.
-/

set_option autoImplicit false

namespace PipelineX.ExecutorOrder
open PipelineX.Records PipelineX.Stages PipelineX.TransitionSystem PipelineX.Tally
open PipelineX.Executor PipelineX.ExecutorSteps PipelineX.ExecutorLedger
open PipelineX.ExecutorPhases PipelineX.ExecutorAccounting

variable {σ : Type}

/-- The calls that the stages see, the records that pass them all, and what
the stages keep in the end. -/
abbrev Outcome (σ : Type) := List StageCall × List LogRecord × σ

def sequential (stages : List (Stage σ)) : σ → List LogRecord → Outcome σ
  | w, [] => ([],[],w)
  | w, r::rs =>
    let (calls,out,w) := runStages stages w r
    let (calls',passed,w) := sequential stages w rs
    match out with
    | .ok r' => (calls ++ calls',r'::passed,w)
    | .error _ => (calls ++ calls',passed,w)

def shells (cfg : Config) : ℕ → List String → List LogRecord
  | _, [] => []
  | n, l::ls => shell cfg n l :: shells cfg (n+1) ls

/-- A step in which a stage answers as it is: the answer in the label is
replaced by the stage's own. -/
def drivenStep (cfg : Config) (stages : List (Stage σ)) (x : State × σ) :
    Label → Option (State × σ)
  | .consumer i (.stage _) =>
    match x.1.consumers[i]? with
    | some (.staging r k) =>
      (stages[k]?).bind (fun st =>
        let (out,w) := st.process x.2 r
        (step cfg x.1 (.consumer i (.stage out))).map (fun s => (s,w)))
    | _ => none
  | l => (step cfg x.1 l).map (fun s => (s,x.2))

inductive Driven (cfg : Config) (stages : List (Stage σ)) (x : State × σ) :
    Label → State × σ → Prop where
  | stage (i : ℕ) (r : LogRecord) (k : ℕ) (st : Stage σ) (s : State)
      (hi : x.1.consumers[i]? = some (.staging r k)) (hk : stages[k]? = some st)
      (h : step cfg x.1 (.consumer i (.stage (st.process x.2 r).1)) = some s) :
      Driven cfg stages x (.consumer i (.stage (st.process x.2 r).1)) (s,(st.process x.2 r).2)
  | other (l : Label) (s : State) (hl : ∀ i out, l ≠ .consumer i (.stage out))
      (h : step cfg x.1 l = some s) : Driven cfg stages x l (s,x.2)

theorem drivenStep_cases (cfg : Config) (stages : List (Stage σ)) (x y : State × σ) (l : Label)
    (h : drivenStep cfg stages x l = some y) : ∃ m, Driven cfg stages x m y := by
  have hother (hl : ∀ i out, l ≠ .consumer i (.stage out))
      (h : (step cfg x.1 l).map (fun s => (s,x.2)) = some y) :
      ∃ m, Driven cfg stages x m y := by
    obtain ⟨s,hs,rfl⟩ := Option.map_eq_some_iff.mp h
    exact ⟨l,.other l s hl hs⟩
  cases l with
  | consumer i l =>
    cases l with
    | stage out =>
      simp only [drivenStep] at h
      split at h
      · next r k hi =>
        obtain ⟨st,hk,h⟩ := Option.bind_eq_some_iff.mp h
        obtain ⟨s,hs,rfl⟩ := Option.map_eq_some_iff.mp h
        exact ⟨_,.stage i r k st s hi hk hs⟩
      · cases h
    | _ => exact hother (by simp) h
  | _ => exact hother (by simp) h

theorem driven_step (cfg : Config) (stages : List (Stage σ)) (x y : State × σ) (l : Label)
    (h : Driven cfg stages x l y) : step cfg x.1 l = some y.1 := by
  cases h with
  | stage i r k st s hi hk h => exact h
  | other l s hl h => exact h

/-- Calls and records that came before. -/
def after (calls : List StageCall) (passed : List LogRecord) (x : Outcome σ) : Outcome σ :=
  (calls ++ x.1,passed ++ x.2.1,x.2.2)

/-- One record through the stages, and the others after it. -/
def follow (stages : List (Stage σ)) (x : List StageCall × Except PyError LogRecord × σ)
    (rs : List LogRecord) : Outcome σ :=
  after x.1 (match x.2.1 with | .ok r => [r] | .error _ => []) (sequential stages x.2.2 rs)

theorem sequential_cons (stages : List (Stage σ)) (w : σ) (r : LogRecord)
    (rs : List LogRecord) :
    sequential stages w (r::rs) = follow stages (runStages stages w r) rs := by
  simp only [sequential, follow, after]
  cases (runStages stages w r).2.1 <;> rfl

/-- What the source and the queue still hold, in order. -/
def upstream (cfg : Config) (n : ℕ) : Producer → List LogRecord
  | .streaming lines => shells cfg n lines
  | .putting r lines => r :: shells cfg n lines
  | .finished => []
  | .failed => []

def toCome (cfg : Config) (s : Shared) (p : Producer) : List LogRecord :=
  s.queue ++ upstream cfg s.pulled p

/-- The rest of the run, as the sequential pipeline goes on from here. -/
def ahead (stages : List (Stage σ)) (w : σ) (c : Consumer) (rs : List LogRecord) : Outcome σ :=
  match c with
  | .staging r k => follow stages (runStages (stages.drop k) w r) rs
  | _ => sequential stages w rs

def Tracks (cfg : Config) (stages : List (Stage σ)) (total : Outcome σ) (x : State × σ) : Prop :=
  ∃ c, x.1.consumers = [c] ∧ after x.1.shared.calls x.1.shared.passed
    (ahead stages x.2 c (toCome cfg x.1.shared x.1.producer)) = total

theorem after_after (calls calls' : List StageCall) (passed passed' : List LogRecord)
    (x : Outcome σ) :
    after calls passed (after calls' passed' x) = after (calls ++ calls') (passed ++ passed') x := by
  simp [after]

/-- A stage call of the consumer moves one call from what is ahead to what
has been. -/
theorem ahead_stage (stages : List (Stage σ)) (w : σ) (r : LogRecord) (k : ℕ) (st : Stage σ)
    (hk : stages[k]? = some st) (rs : List LogRecord) :
    ahead stages w (.staging r k) rs =
      match (st.process w r).1 with
      | .ok r' => after [⟨st.name,r⟩] []
          (ahead stages (st.process w r).2 (.staging (r'.markStage st.name) (k+1)) rs)
      | .error _ => after [⟨st.name,r⟩] [] (sequential stages (st.process w r).2 rs) := by
  have hdrop : stages.drop k = st :: stages.drop (k+1) := by
    obtain ⟨hlt,hst⟩ := List.getElem?_eq_some_iff.mp hk
    rw [← hst, List.drop_eq_getElem_cons hlt]
  rw [ahead, hdrop, runStages]
  rcases hp : st.process w r with ⟨out,w'⟩
  cases out with
  | error e => rfl
  | ok r' => simp [ahead, follow, after_after]

theorem ahead_passed (stages : List (Stage σ)) (w : σ) (r : LogRecord) (rs : List LogRecord) :
    ahead stages w (.staging r stages.length) rs = after [] [r] (sequential stages w rs) := by
  rw [ahead, List.drop_length]
  rfl

/-- What the flusher and `run` leave alone. -/
structure Quiet (s s' : Shared) : Prop where
  pulled : s'.pulled = s.pulled
  queue : s'.queue = s.queue
  calls : s'.calls = s.calls
  passed : s'.passed = s.passed

theorem saveBatch_quiet (s : Shared) (caller : Caller) (b : Batch) (o : SaveOutcome) :
    Quiet s (saveBatch s caller b o) := by
  cases o <;> exact ⟨rfl,rfl,rfl,rfl⟩

theorem flushes_quiet (s s' : Shared) (p p' : Flusher) (h : Flushes s p p' s') : Quiet s s' := by
  cases h with
  | saved toSave o ho => exact saveBatch_quiet s .flusher toSave o
  | _ => exact ⟨rfl,rfl,rfl,rfl⟩

theorem runs_quiet (s : State) (s' : Shared) (m m' : Main) (h : Runs s m m' s') :
    Quiet s.shared s' := by
  cases h with
  | saved toSave o ho => exact saveBatch_quiet s.shared .run toSave o
  | _ => exact ⟨rfl,rfl,rfl,rfl⟩

theorem produce_toCome (cfg : Config) (s s' : Shared) (p p' : Producer)
    (h : produce cfg s p = some (p',s')) :
    toCome cfg s' p' = toCome cfg s p ∧ s'.calls = s.calls ∧ s'.passed = s.passed := by
  cases p with
  | streaming lines =>
    cases lines with
    | nil =>
      cases h
      by_cases hr : cfg.sourceRaises = true <;> simp [hr, toCome, upstream, shells]
    | cons l ls =>
      cases h
      simp [toCome, upstream, shells]
  | putting r ls =>
    by_cases hroom : s.queue.length < cfg.queueSize
    · rw [produce, if_pos hroom] at h
      cases h
      simp [toCome, upstream]
    · simp [produce, hroom] at h
  | finished => simp [produce] at h
  | failed => simp [produce] at h

theorem consumes_tracks (cfg : Config) (stages : List (Stage σ)) (w : σ) (s s' : Shared)
    (p : Producer) (c c' : Consumer) (l : ConsumerLabel)
    (hnames : cfg.stageNames = stages.map Stage.name) (hl : ∀ out, l ≠ .stage out)
    (h : Consumes cfg s c l c' s') :
    after s'.calls s'.passed (ahead stages w c' (toCome cfg s' p)) =
      after s.calls s.passed (ahead stages w c (toCome cfg s p)) := by
  have hlen : cfg.stageNames.length = stages.length := by rw [hnames, List.length_map]
  cases h with
  | timeout => rfl
  | get r queue hq => simp [ahead, toCome, hq, sequential_cons]
  | raised r k name e hk => exact absurd rfl (hl _)
  | staged r r' k name hk hid => exact absurd rfl (hl _)
  | buffered r hroom =>
    rw [hlen, ahead_passed, after_after, List.append_nil]
    rfl
  | filled r hfull =>
    rw [hlen, ahead_passed, after_after, List.append_nil]
    rfl
  | nothing r hb => rfl
  | swapped r hb => rfl
  | saved r toSave o ho =>
    have hq := saveBatch_quiet s .consumer toSave o
    simp [ahead, toCome, taskDone, countProcessed, hq.pulled, hq.queue, hq.calls, hq.passed]
  | crashed r toSave => rfl

theorem stage_tracks (cfg : Config) (stages : List (Stage σ)) (w : σ) (s s' : Shared)
    (p : Producer) (c' : Consumer) (r : LogRecord) (k : ℕ) (st : Stage σ)
    (hnames : cfg.stageNames = stages.map Stage.name) (hk : stages[k]? = some st)
    (h : Consumes cfg s (.staging r k) (.stage (st.process w r).1) c' s') :
    after s'.calls s'.passed (ahead stages (st.process w r).2 c' (toCome cfg s' p)) =
      after s.calls s.passed (ahead stages w (.staging r k) (toCome cfg s p)) := by
  have hname : cfg.stageNames[k]? = some st.name := by simp [hnames, hk]
  rw [ahead_stage stages w r k st hk]
  generalize st.process w r = q at h ⊢
  rcases q with ⟨out,w'⟩
  cases h with
  | raised _ _ name e hk' =>
    have hn : name = st.name := Option.some.inj (hk'.symm.trans hname)
    simp only [after_after, List.append_nil, hn]
    rfl
  | staged _ r' _ name hk' hid =>
    have hn : name = st.name := Option.some.inj (hk'.symm.trans hname)
    simp only [after_after, List.append_nil, hn]
    rfl

theorem unwind_idle (s s' : Shared) (landed : Bool) (c : Consumer)
    (h : unwind s landed c = some s') (hbusy : (consumerHolding c).busy = 0) :
    s' = s ∧ c = .getting := by
  cases c with
  | getting => exact ⟨(Option.some.inj h).symm,rfl⟩
  | exited => simp [unwind] at h
  | _ => simp [consumerHolding] at hbusy

theorem step_tracks (cfg : Config) (stages : List (Stage σ)) (total : Outcome σ)
    (lines : List String) (x y : State × σ) (l : Label)
    (hnames : cfg.stageNames = stages.map Stage.name) (hsource : cfg.sourceRaises = false)
    (hinv : Inv cfg lines x.1) (hx : Tracks cfg stages total x) (h : Driven cfg stages x l y) :
    Tracks cfg stages total y := by
  obtain ⟨c,hc,htotal⟩ := hx
  have hone (i : ℕ) (d : Consumer) (hi : x.1.consumers[i]? = some d) : i = 0 ∧ d = c := by
    have hlt := (List.getElem?_eq_some_iff.mp hi).1
    have hi0 : i = 0 := by simpa [hc] using hlt
    subst hi0
    exact ⟨rfl,by simpa [hc] using hi.symm⟩
  cases h with
  | stage i r k st s hi hk hstep =>
    obtain ⟨rfl,hr⟩ := hone i _ hi
    cases step_moves cfg x.1 s _ hstep with
    | consumer _ _ d c' sh hrun hd h =>
      obtain ⟨_,hd'⟩ := hone 0 d hd
      rw [hd', ← hr] at h
      rw [← hr] at htotal
      exact ⟨c',by simp [hc],
        (stage_tracks cfg stages x.2 x.1.shared sh x.1.producer c' r k st hnames hk h).trans htotal⟩
  | other l s hl hstep =>
    cases step_moves cfg x.1 s l hstep with
    | producer p sh h =>
      obtain ⟨hcome,hcalls,hpassed⟩ := produce_toCome cfg _ _ _ _ h
      refine ⟨c,hc,?_⟩
      simp only [hcome, hcalls, hpassed]
      exact htotal
    | consumer i l d c' sh hrun hi h =>
      obtain ⟨rfl,hd⟩ := hone i d hi
      rw [hd] at h
      have hl' : ∀ out, l ≠ .stage out := by
        intro out hout
        exact hl 0 out (by rw [hout])
      exact ⟨c',by simp [hc],
        (consumes_tracks cfg stages x.2 x.1.shared sh x.1.producer c c' l hnames hl' h).trans htotal⟩
    | cancelled i landed d sh hdown hi h =>
      obtain ⟨rfl,hd⟩ := hone i d hi
      have hp : x.1.producer ≠ .failed := by
        intro hp
        simp [hinv.phases.raises hp] at hsource
      have hun := ((hinv.phases.joined hdown).resolve_left hp).2
      have hbusy := busy_unfinished x.1 0 d hinv.ledger hi
      obtain ⟨hsh,hget⟩ := unwind_idle _ _ landed d h (by omega)
      rw [← hd, hget] at htotal
      refine ⟨.exited,by simp [hc],?_⟩
      rw [hsh]
      exact htotal
    | flusher l p sh h =>
      have hq := flushes_quiet _ _ _ _ h
      refine ⟨c,hc,?_⟩
      simp only [toCome, hq.pulled, hq.queue, hq.calls, hq.passed]
      exact htotal
    | main l m sh h =>
      have hq := runs_quiet _ _ _ _ h
      refine ⟨c,hc,?_⟩
      simp only [toCome, hq.pulled, hq.queue, hq.calls, hq.passed]
      exact htotal

theorem run_tracks (cfg : Config) (stages : List (Stage σ)) (w : σ) (lines : List String)
    (ls : List Label) (x : State × σ) (hone : cfg.numWorkers = 1)
    (hnames : cfg.stageNames = stages.map Stage.name) (hsource : cfg.sourceRaises = false)
    (hrun : run (drivenStep cfg stages) (initial cfg lines,w) ls = some x) :
    Inv cfg lines x.1 ∧ Tracks cfg stages (sequential stages w (shells cfg 0 lines)) x := by
  have hinit : Inv cfg lines (initial cfg lines) := run_inv cfg lines [] _ rfl
  have htracks : Tracks cfg stages (sequential stages w (shells cfg 0 lines))
      (initial cfg lines,w) :=
    ⟨.getting,by simp [initial, hone],rfl⟩
  exact run_invariant (drivenStep cfg stages)
    (fun x => Inv cfg lines x.1 ∧ Tracks cfg stages (sequential stages w (shells cfg 0 lines)) x)
    (fun x l y hx h => by
      obtain ⟨m,hm⟩ := drivenStep_cases cfg stages x y l h
      exact ⟨step_inv cfg lines x.1 y.1 m hx.1 (driven_step cfg stages x y m hm),
        step_tracks cfg stages _ lines x y m hnames hsource hx.1 hx.2 hm⟩)
    ⟨hinit,htracks⟩ hrun

theorem shells_history (cfg : Config) (n : ℕ) (lines : List String) :
    ∀ r ∈ shells cfg n lines, r.stageHistory = [] := by
  induction lines generalizing n with
  | nil => simp [shells]
  | cons l lines ih =>
    intro r hr
    rcases List.mem_cons.mp hr with rfl | hr
    · rfl
    · exact ih (n+1) r hr

theorem sequential_history (stages : List (Stage σ)) (w : σ) (rs : List LogRecord)
    (hrs : ∀ r ∈ rs, r.stageHistory = []) :
    ∀ r ∈ (sequential stages w rs).2.1, r.stageHistory = stages.map Stage.name := by
  induction rs generalizing w with
  | nil => simp [sequential]
  | cons r rs ih =>
    have hrest := ih (runStages stages w r).2.2 (fun s hs => hrs s (List.mem_cons_of_mem _ hs))
    have hcarries := runStages_carries stages w r
    rw [sequential_cons, follow, after]
    generalize runStages stages w r = q at hrest hcarries
    rcases q with ⟨calls,out,w'⟩
    cases out with
    | error e => exact hrest
    | ok r' =>
      intro s hs
      rcases List.mem_cons.mp hs with rfl | hs
      · rw [(hcarries s rfl).2, hrs r List.mem_cons_self, List.nil_append]
      · exact hrest s hs

/-- Batches saved in the order of their swaps are the records that passed. -/
theorem saved_in_order {s : Shared} (hk : Kept s) (hbuffer : s.batchBuffer = [])
    (hperm : (saved s).Perm s.passed) (horder : s.saves.map SaveCall.toSave <+: s.swaps) :
    saved s = s.passed := by
  obtain ⟨rest,hrest⟩ := horder
  have hpassed := hk.passed
  rw [hbuffer, List.append_nil, ← hrest, List.flatMap_append, List.flatMap_map] at hpassed
  change s.passed = saved s ++ _ at hpassed
  have hlen := congrArg List.length hpassed
  rw [List.length_append, hperm.length_eq] at hlen
  have hnil : rest.flatMap Batch.records = [] := List.eq_nil_of_length_eq_zero (by omega)
  rw [hpassed, hnil, List.append_nil]

/-- With one consumer, and saves that take effect in the order of their swaps,
a run stores what the sequential pipeline makes of the lines, in its order,
and the stages see the calls that they see there. -/
theorem refines_sequential (cfg : Config) (stages : List (Stage σ)) (w w' : σ)
    (lines : List String) (ls : List Label) (t : State) (hone : cfg.numWorkers = 1)
    (hnames : cfg.stageNames = stages.map Stage.name) (hsource : cfg.sourceRaises = false)
    (hrun : run (drivenStep cfg stages) (initial cfg lines,w) ls = some (t,w'))
    (hret : t.main = .returned) (hsaves : ∀ c ∈ t.shared.saves, c.outcome = .stored)
    (horder : t.shared.saves.map SaveCall.toSave <+: t.shared.swaps) :
    (t.shared.calls,t.shared.stored,w') = sequential stages w (shells cfg 0 lines) ∧
    ∀ r ∈ t.shared.stored, r.stageHistory = stages.map Stage.name := by
  obtain ⟨hinv,c,hc,htotal⟩ := run_tracks cfg stages w lines ls (t,w') hone hnames hsource hrun
  have ht : Inv cfg lines t := hinv
  have hf := returned_finished cfg lines t ht hret
  have hp := ht.phases.returned hret
  have hdown : t.shared.shutdown = true := by simp [ht.phases.shutdown, hret, cancelling]
  have hfin := ((ht.phases.joined hdown).resolve_left hp).1
  have hexit : c = .exited := by
    have hg := (ht.phases.gathered (by rw [hret]; rfl)).1
    exact hg c (by rw [show t.consumers = [c] from hc]; exact List.mem_singleton_self c)
  have hsaved := saved_in_order ht.kept hf.batchBuffer (saved_perm ht.ledger hf) horder
  have hstored := (saved_stored ht.kept hsaves).symm.trans hsaved
  have hcome : toCome cfg t.shared t.producer = [] := by simp [toCome, hf.queue, hfin, upstream]
  have heq : (t.shared.calls,t.shared.stored,w') = sequential stages w (shells cfg 0 lines) := by
    rw [← htotal, hexit]
    simp [hcome, ahead, after, sequential, hstored]
  refine ⟨heq,?_⟩
  have hhist := sequential_history stages w (shells cfg 0 lines) (shells_history cfg 0 lines)
  rw [← heq] at hhist
  exact hhist

/-- A pipeline of the parser alone. -/
def sampleStages : List (Stage Unit) :=
  buildStages (parserStage ⟨"raw",fun raw => .ok { id := 0, message := raw }⟩) none none none []

def sampleEnd : State × Unit :=
  (run (drivenStep sample sampleStages) (initial sample ["a","b"],()) (twoLines .stored)).getD
    (initial sample [],())

theorem refines_sequential_sample :
    sampleEnd.1.shared.stored.map LogRecord.message = ["a","b"] ∧
    ∀ r ∈ sampleEnd.1.shared.stored, r.stageHistory = ["parse:raw"] :=
  ⟨by decide,(refines_sequential sample sampleStages () () ["a","b"] (twoLines .stored)
    sampleEnd.1 (by decide) (by decide) (by decide) (by decide) (by decide) (by decide)
    (by decide)).2⟩

end PipelineX.ExecutorOrder
