import PipelineX.Listening
import PipelineX.SessionizerStop
import PipelineX.Metrics

/-!
# The listeners of closed traces

A handler of `BlockTraceClosed` that runs to its end hears each emitted trace
once, in the order of emission, except for those that were taken out of its
hands. So whatever it computes is a fold over these traces.
-/

set_option autoImplicit false

namespace PipelineX.TraceListeners
open PipelineX.Records PipelineX.Sessionizer PipelineX.SessionizerTasks
open PipelineX.SessionizerStop PipelineX.TransitionSystem PipelineX.Listening

variable {F : Type} [Seconds F]

/-- The trace of the event that handler `k` finishes with in this step. -/
def hears (k : ℕ) (s : Tasks) : SessionizerTasks.Label → Option BlockTrace
  | .handled h => if h = k then s.sessionizer.published.getLast? else none
  | _ => none

/-- The events that handler `k` has finished with, in order. -/
def deliveredTo (k : ℕ) (s : Tasks) : List ℕ :=
  (s.delivered.filter (fun p => p.2 = k)).map Prod.fst

/-- The traces of these events. -/
def tracesFor (k : ℕ) (s : Tasks) : List (Option BlockTrace) :=
  (deliveredTo k s).map (fun e => s.sessionizer.published[e]?)

/-- The emitted traces that nobody took out of the hands of handler `k`. -/
def undisturbed (k : ℕ) (s : Tasks) : List BlockTrace :=
  (s.sessionizer.published.zipIdx.filter (fun p => (p.2,k) ∉ s.interrupted)).map Prod.fst

/-- Someone has the lock in `publish` only after a trace was emitted, and what
was delivered was emitted before. -/
structure Emitted (s : Tasks) : Prop where
  holder : ∀ p, s.holder = some p → s.sessionizer.published ≠ []
  delivered : ∀ p ∈ s.delivered, p.1 < s.sessionizer.published.length

/-- What a step does to the traces and the deliveries. -/
structure Grows (s t : Tasks) (new : List (ℕ × ℕ)) : Prop where
  published : s.sessionizer.published <+: t.sessionizer.published
  delivered : t.delivered = s.delivered ++ new
  holder : ∀ p, t.holder = some p → s.holder ≠ none ∨ t.sessionizer.published ≠ []

def deliveries (s : Tasks) : SessionizerTasks.Label → List (ℕ × ℕ)
  | .handled h => [(s.sessionizer.published.length-1,h)]
  | _ => []

theorem grows_of_eq {s t : Tasks} (hp : t.sessionizer.published = s.sessionizer.published)
    (hd : t.delivered = s.delivered) (hh : ∀ p, t.holder = some p → s.holder ≠ none) :
    Grows s t [] :=
  ⟨hp ▸ List.prefix_rfl,by rw [hd, List.append_nil],fun p h => Or.inl (hh p h)⟩

theorem emitAll_grows (cfg : Setup F) (o : Owner) (cs : List Closing) (s s₀ : Tasks)
    (hp : s₀.sessionizer.published <+: s.sessionizer.published)
    (hd : s.delivered = s₀.delivered) : Grows s₀ (emitAll cfg o cs s) [] := by
  induction cs generalizing s with
  | nil =>
    cases o <;> exact ⟨hp,by simpa [emitAll, release] using hd,by simp [emitAll, release]⟩
  | cons c cs ih =>
    have hp' : s₀.sessionizer.published <+: (close cfg.config s.sessionizer c).published := by
      rw [close_published]
      exact hp.trans (List.prefix_append _ _)
    by_cases hn : cfg.handlers = 0
    · rw [emitAll, if_pos hn]
      exact ih _ hp' hd
    · rw [emitAll, if_neg hn]
      refine ⟨hp',by simpa using hd,fun p _ => Or.inr ?_⟩
      simp

theorem acquire_grows (enter : Tasks → Tasks) (k : Waiter) (s s₀ : Tasks)
    (hs : s.sessionizer = s₀.sessionizer ∧ s.delivered = s₀.delivered ∧ s.holder = s₀.holder)
    (henter : Grows s₀ (enter s) []) : Grows s₀ (acquire enter k s) [] := by
  obtain ⟨hz,hd,hh⟩ := hs
  unfold acquire
  split
  · exact henter
  · refine grows_of_eq (congrArg State.published hz) hd (fun p hp => ?_)
    rw [← hh]
    exact Option.ne_none_iff_exists'.mpr ⟨p,hp⟩

theorem acts_grows (cfg : Setup F) (s t : Tasks) (l : SessionizerTasks.Label)
    (h : Acts cfg s l t) : Grows s t (deliveries s l) := by
  cases h with
  | ignored w r now now' hb => exact grows_of_eq rfl rfl (fun p hp => by simp [hp])
  | process w b r now now' hb =>
    exact acquire_grows _ _ s s ⟨rfl,rfl,rfl⟩
      (emitAll_grows cfg _ _ _ s List.prefix_rfl rfl)
  | grantWorker w b r ks now now' hh hw =>
    exact emitAll_grows cfg _ _ _ s List.prefix_rfl rfl
  | grantJanitor ks now now' hh hw => exact emitAll_grows cfg _ _ _ s List.prefix_rfl rfl
  | grantStop ks now now' hh hw => exact emitAll_grows cfg _ _ _ s List.prefix_rfl rfl
  | handled h p hh hm =>
    exact ⟨List.prefix_rfl,rfl,fun q _ => Or.inl (by simp [hh])⟩
  | resume p hh hp hj => exact emitAll_grows cfg _ _ s s List.prefix_rfl rfl
  | tick hj =>
    exact acquire_grows _ _ { s with janitor := .passing } s ⟨rfl,rfl,rfl⟩
      (emitAll_grows cfg _ _ _ s List.prefix_rfl rfl)
  | stopAlone hs hj =>
    exact acquire_grows _ _ { s with stop := .flushing } s ⟨rfl,rfl,rfl⟩
      (emitAll_grows cfg _ _ _ s List.prefix_rfl rfl)
  | stopJoins hs hj =>
    refine grows_of_eq rfl rfl (fun p hp => ?_)
    obtain ⟨q,hq,_⟩ := Option.map_eq_some_iff.mp hp
    simp [hq]
  | unwound hj =>
    refine grows_of_eq rfl rfl (fun p hp => ?_)
    simp [(Option.filter_eq_some_iff.mp hp).1]
  | joined hs hj =>
    exact acquire_grows _ _ { s with stop := .flushing } s ⟨rfl,rfl,rfl⟩
      (emitAll_grows cfg _ _ _ s List.prefix_rfl rfl)

theorem initial_emitted (started : Bool) : Emitted (initial started) :=
  ⟨by simp [initial],by simp [initial]⟩

theorem grows_emitted {s t : Tasks} {new : List (ℕ × ℕ)} (h : Grows s t new) (hs : Emitted s)
    (hnew : ∀ p ∈ new, p.1 < s.sessionizer.published.length) : Emitted t := by
  have hle := h.published.length_le
  constructor
  · intro p hp
    rcases h.holder p hp with hh | hh
    · obtain ⟨q,hq⟩ := Option.ne_none_iff_exists'.mp hh
      exact fun hnil => hs.holder q hq (List.prefix_nil.mp (hnil ▸ h.published))
    · exact hh
  · intro p hp
    rw [h.delivered, List.mem_append] at hp
    rcases hp with hp | hp
    · exact (hs.delivered p hp).trans_le hle
    · exact (hnew p hp).trans_le hle

theorem deliveries_emitted (cfg : Setup F) (s t : Tasks) (l : SessionizerTasks.Label)
    (hs : Emitted s) (h : Acts cfg s l t) :
    ∀ p ∈ deliveries s l, p.1 < s.sessionizer.published.length := by
  cases h with
  | handled h p hh hm =>
    intro q hq
    have hpos := List.length_pos_iff.mpr (hs.holder p hh)
    rw [List.mem_singleton.mp hq]
    exact Nat.sub_lt hpos Nat.one_pos
  | _ => intro q hq; cases hq

theorem grows_deliveredTo (k : ℕ) {s t : Tasks} {new : List (ℕ × ℕ)} (h : Grows s t new) :
    deliveredTo k t = deliveredTo k s ++ (new.filter (fun p => p.2 = k)).map Prod.fst := by
  rw [deliveredTo, h.delivered, List.filter_append, List.map_append]
  rfl

/-- What was delivered before still stands for the same traces. -/
theorem grows_traces (k : ℕ) {s t : Tasks} {new : List (ℕ × ℕ)} (h : Grows s t new)
    (hs : Emitted s) : tracesFor k t = tracesFor k s ++
      ((new.filter (fun p => p.2 = k)).map Prod.fst).map
        (fun e => t.sessionizer.published[e]?) := by
  rw [tracesFor, grows_deliveredTo k h, List.map_append]
  congr 1
  refine List.map_congr_left (fun e he => ?_)
  obtain ⟨p,hp,rfl⟩ := List.mem_map.mp he
  obtain ⟨rest,hrest⟩ := h.published
  rw [← hrest, List.getElem?_append_left (hs.delivered p (List.mem_of_mem_filter hp))]

/-- What handler `k` has heard is the traces of the events that were delivered
to it. -/
structure Heard (k : ℕ) (s : Tasks) (heard : List BlockTrace) : Prop where
  emitted : Emitted s
  traces : heard.map some = tracesFor k s

theorem initial_heard (k : ℕ) (started : Bool) : Heard k (initial started) [] :=
  ⟨initial_emitted started,rfl⟩

theorem acts_heard (cfg : Setup F) (k : ℕ) (s t : Tasks) (l : SessionizerTasks.Label)
    (heard : List BlockTrace) (hs : Heard k s heard) (h : Acts cfg s l t) :
    Heard k t (heard ++ (hears k s l).toList) := by
  have hgrows := acts_grows cfg s t l h
  have hnew := deliveries_emitted cfg s t l hs.emitted h
  refine ⟨grows_emitted hgrows hs.emitted hnew,?_⟩
  rw [List.map_append, hs.traces, grows_traces k hgrows hs.emitted]
  congr 1
  cases h with
  | handled h p hh hm =>
    by_cases hk : h = k
    · have hpos := List.length_pos_iff.mpr (hs.emitted.holder p hh)
      simp only [hears, deliveries, hk, if_true, List.getLast?_eq_getElem?]
      rw [List.getElem?_eq_getElem (Nat.sub_lt hpos Nat.one_pos)]
      simp [Nat.sub_lt hpos Nat.one_pos]
    · simp [hears, deliveries, hk]
  | _ => rfl

/-- The events come to a handler in the order of their emission. -/
structure Paced (cfg : Setup F) (k : ℕ) (s : Tasks) : Prop where
  counted : Counted cfg s
  emitted : Emitted s
  ascending : (deliveredTo k s).Pairwise (· < ·)

theorem mem_deliveredTo {k e : ℕ} {s : Tasks} : e ∈ deliveredTo k s ↔ (e,k) ∈ s.delivered := by
  simp [deliveredTo]

/-- A handler that still has the last event has finished with earlier ones only. -/
theorem delivered_before_last (cfg : Setup F) (k : ℕ) (s : Tasks) (hs : Paced cfg k s) (p : Publishing)
    (hh : s.holder = some p) (hm : k ∈ p.pending) :
    ∀ e ∈ deliveredTo k s, e < s.sessionizer.published.length-1 := by
  intro e he
  have hmem := mem_deliveredTo.mp he
  have hlt := hs.emitted.delivered _ hmem
  have hcount := hs.counted.counts e k
  have hdue : due cfg s.sessionizer e k ≤ 1 := by
    unfold due
    split <;> omega
  have hdelivered := List.count_pos_iff.mpr hmem
  have hpending := List.count_pos_iff.mpr hm
  simp only [outstanding, hh] at hcount
  by_cases hlast : e+1 = s.sessionizer.published.length
  · rw [if_pos hlast] at hcount
    omega
  · omega

theorem acts_paced (cfg : Setup F) (k : ℕ) (s t : Tasks) (l : SessionizerTasks.Label)
    (hs : Paced cfg k s) (h : Acts cfg s l t) : Paced cfg k t := by
  have hgrows := acts_grows cfg s t l h
  refine ⟨step_counted cfg s t l hs.counted h,
    grows_emitted hgrows hs.emitted (deliveries_emitted cfg s t l hs.emitted h),?_⟩
  rw [grows_deliveredTo k hgrows]
  cases h with
  | handled h p hh hm =>
    by_cases hk : h = k
    · subst hk
      rw [List.pairwise_append]
      refine ⟨hs.ascending,by simp [deliveries],fun e he f hf => ?_⟩
      simp only [deliveries, decide_true, List.filter_cons_of_pos, List.filter_nil, List.map_cons,
        List.map_nil, List.mem_singleton] at hf
      rw [hf]
      exact delivered_before_last cfg h s hs p hh hm e he
    · simpa [deliveries, hk] using hs.ascending
  | _ => simpa [deliveries] using hs.ascending

theorem run_paced (cfg : Setup F) (k : ℕ) (started : Bool) (ls : List SessionizerTasks.Label)
    (t : Tasks) (hrun : run (step cfg) (initial started) ls = some t) : Paced cfg k t :=
  run_invariant (step cfg) (Paced cfg k)
    (fun s l t hs h => acts_paced cfg k s t l hs (step_acts cfg s t l h))
    ⟨initial_counted cfg started,initial_emitted started,List.Pairwise.nil⟩ hrun

/-- Between two calls the events that a handler has finished with are the ones
that were emitted and not interrupted, in order. -/
theorem deliveredTo_eq (cfg : Setup F) (k : ℕ) (hk : k < cfg.handlers) (t : Tasks)
    (ht : Paced cfg k t) (hfree : t.holder = none) :
    deliveredTo k t = (List.range t.sessionizer.published.length).filter
      (fun e => (e,k) ∉ t.interrupted) := by
  refine ht.ascending.eq_of_mem_iff (List.pairwise_lt_range.filter _) (fun e => ?_)
  have hcount := ht.counted.counts e k
  simp only [outstanding, hfree, due, hk, and_true, Nat.add_zero] at hcount
  rw [mem_deliveredTo, List.mem_filter, List.mem_range, decide_eq_true_eq]
  have hd : (e,k) ∈ t.delivered ↔ 0 < t.delivered.count (e,k) := List.count_pos_iff.symm
  have hi : (e,k) ∈ t.interrupted ↔ 0 < t.interrupted.count (e,k) := List.count_pos_iff.symm
  rw [hd, hi]
  split at hcount <;> omega

theorem filter_zipIdx {α : Type} (xs : List α) (p : ℕ → Bool) :
    ((xs.zipIdx.filter (fun q => p q.2)).map Prod.fst).map some =
      ((List.range xs.length).filter p).map (fun i => xs[i]?) := by
  induction xs using List.reverseRecOn with
  | nil => rfl
  | append_singleton xs x ih =>
    have hold : ((List.range xs.length).filter p).map (fun i => (xs ++ [x])[i]?) =
        ((List.range xs.length).filter p).map (fun i => xs[i]?) := by
      refine List.map_congr_left (fun i hi => ?_)
      exact List.getElem?_append_left (List.mem_range.mp (List.mem_of_mem_filter hi))
    rw [List.zipIdx_append, List.length_append, List.length_singleton, List.range_succ,
      List.filter_append, List.filter_append, List.map_append, List.map_append, List.map_append,
      hold, ih]
    by_cases hp : p xs.length = true <;> simp [hp]

/-- What a handler has heard between two calls. -/
theorem heard_undisturbed (cfg : Setup F) (k : ℕ) (hk : k < cfg.handlers) (t : Tasks)
    (heard : List BlockTrace) (hh : Heard k t heard) (ht : Paced cfg k t)
    (hfree : t.holder = none) : heard = undisturbed k t := by
  have hsome : heard.map some = (undisturbed k t).map some := by
    rw [hh.traces, tracesFor, deliveredTo_eq cfg k hk t ht hfree, undisturbed,
      ← filter_zipIdx]
  exact List.map_injective_iff.mpr (Option.some_injective _) hsome

theorem undisturbed_of_nil {k : ℕ} {t : Tasks} (h : t.interrupted = []) :
    undisturbed k t = t.sessionizer.published := by
  simp [undisturbed, h]

/-- The sessionizer's tasks, and what handler `k` makes of the traces. -/
def stepHeard {S I : Type} (cfg : Setup F) (k : ℕ) (onTraceClosed : I → BlockTrace → S → S) :
    Tasks × S → SessionizerTasks.Label × I → Option (Tasks × S) :=
  listen (step cfg) (hears k) onTraceClosed

/-- A handler's state between two calls is the fold over the traces it was
given. -/
theorem folds_undisturbed {S I : Type} (cfg : Setup F) (k : ℕ) (hk : k < cfg.handlers)
    (onTraceClosed : I → BlockTrace → S → S) (started : Bool) (a b : S)
    (ls : List (SessionizerTasks.Label × I)) (t : Tasks)
    (hrun : run (stepHeard cfg k onTraceClosed) (initial started,a) ls = some (t,b))
    (hfree : t.holder = none) :
    ∃ heard : List (I × BlockTrace), heard.map Prod.snd = undisturbed k t ∧
      (∀ p ∈ heard, ∃ l ∈ ls, l.2 = p.1) ∧
      b = heard.foldl (fun s p => onTraceClosed p.1 p.2 s) a := by
  obtain ⟨htasks,hb⟩ := listen_run hrun
  have hh := heard_invariant (Heard k)
    (fun s l t es hs h => acts_heard cfg k s t l es hs (step_acts cfg s t l h))
    (initial_heard k started) htasks
  exact ⟨_,heard_undisturbed cfg k hk t _ hh (run_paced cfg k started _ t htasks) hfree,
    heard_input,hb⟩

section
variable {V : Type}
open PipelineX.Decorators

/-- The counter that `MetricsListener` keeps of a reason. -/
def counterName (reason : ClosedReason) : String := "traces.closed." ++ reason.text

theorem counterName_injective : Function.Injective counterName := by
  intro r r' h
  cases r <;> cases r' <;> first | rfl | exact absurd h (by decide)

/-- `MetricsListener.on_trace_closed`. -/
def onTraceClosed (trace : BlockTrace) (g : Registry V) : Registry V :=
  g.inc (counterName trace.closedReason)

def counter (g : Registry V) (name : String) : ℤ := (g.counters.get? name).getD 0

theorem counter_inc (g : Registry V) (name other : String) :
    counter (g.inc name) other = counter g other + if name = other then 1 else 0 := by
  unfold counter Registry.inc
  by_cases h : name = other
  · rw [← h, OrderedDict.get?_insert_self, Option.getD_some, if_pos rfl]
  · rw [OrderedDict.get?_insert_of_ne _ _ (Ne.symm h), if_neg h, add_zero]

/-- Each trace adds one to the counter of its reason, and nothing else is touched. -/
theorem counter_heard (traces : List BlockTrace) (g : Registry V) :
    (∀ name, counter (traces.foldl (fun g t => onTraceClosed t g) g) name =
      counter g name + traces.countP (fun t => counterName t.closedReason = name)) ∧
    (traces.foldl (fun g t => onTraceClosed t g) g).gauges = g.gauges ∧
    (traces.foldl (fun g t => onTraceClosed t g) g).timers = g.timers := by
  induction traces generalizing g with
  | nil => simp
  | cons t traces ih =>
    obtain ⟨hc,hg,ht⟩ := ih (onTraceClosed t g)
    refine ⟨fun name => ?_,hg,ht⟩
    rw [List.foldl_cons, hc, onTraceClosed, counter_inc, List.countP_cons]
    by_cases h : counterName t.closedReason = name <;> simp [h]
    omega

def reasons : List ClosedReason := [.terminal,.timeout,.shutdown,.evicted]

/-- Every trace has one of the reasons. -/
theorem countP_reasons (traces : List BlockTrace) :
    (reasons.map (fun r => traces.countP (fun t => t.closedReason = r))).sum = traces.length := by
  induction traces with
  | nil => rfl
  | cons t traces ih =>
    simp only [reasons, List.map_cons, List.map_nil, List.sum_cons, List.sum_nil,
      List.countP_cons, List.length_cons] at ih ⊢
    cases t.closedReason <;> simp <;> omega

/-- Whenever the lock is free, in any run of the workers, the janitor and
`stop`, the counters of `MetricsListener` have grown by the emitted traces of
each reason, except for deliveries that were interrupted. Without these they
add up to `traces_emitted`. -/
theorem closed_traces_counted (cfg : Setup F) (k : ℕ) (hk : k < cfg.handlers) (started : Bool)
    (g g' : Registry V) (ls : List (SessionizerTasks.Label × Unit)) (t : Tasks)
    (hrun : run (stepHeard cfg k (fun _ => onTraceClosed)) (initial started,g) ls = some (t,g'))
    (hfree : t.holder = none) :
    (∀ reason, counter g' (counterName reason) = counter g (counterName reason) +
      (undisturbed k t).countP (fun trace => trace.closedReason = reason)) ∧
    (∀ name, name ∉ reasons.map counterName → counter g' name = counter g name) ∧
    g'.gauges = g.gauges ∧ g'.timers = g.timers ∧
    (t.interrupted = [] →
      (reasons.map (fun r => counter g' (counterName r) - counter g (counterName r))).sum =
        t.sessionizer.tracesEmitted) := by
  obtain ⟨heard,htraces,_,hfold⟩ := folds_undisturbed cfg k hk _ started g g' ls t hrun hfree
  have hmap : heard.foldl (fun g p => onTraceClosed p.2 g) g =
      (heard.map Prod.snd).foldl (fun g t => onTraceClosed t g) g := by
    rw [List.foldl_map]
  rw [hmap, htraces] at hfold
  obtain ⟨hc,hgauges,htimers⟩ := counter_heard (undisturbed k t) g
  rw [← hfold] at hc hgauges htimers
  have hreason : ∀ reason, counter g' (counterName reason) = counter g (counterName reason) +
      (undisturbed k t).countP (fun trace => trace.closedReason = reason) := by
    intro reason
    simp only [hc, counterName_injective.eq_iff]
  refine ⟨hreason,fun name hn => ?_,hgauges,htimers,fun hnil => ?_⟩
  · rw [hc, List.countP_eq_zero.mpr, Nat.cast_zero, add_zero]
    intro trace _ h
    refine hn (List.mem_map.mpr ⟨trace.closedReason,?_,by simpa using h⟩)
    cases trace.closedReason <;> decide
  · have hcounted := (run_orderly cfg started _ t (listen_run hrun).1).partition.counted
    simp only [hreason, add_sub_cancel_left]
    rw [hcounted, ← undisturbed_of_nil (k := k) hnil, ← countP_reasons (undisturbed k t)]
    simp [reasons]

def openLine : LogRecord where
  id := 1
  timestamp := some 0
  enrichment := OrderedDict.empty.insert "block_id" (.str "blk_2")

/-- The janitor closes an ended block, and `stop` one that is still open. -/
def closedTwice : List SessionizerTasks.Label :=
  [.process 0 terminalLine 0 0,.tick,.handled 0,.resume,.process 0 openLine 0 0,.stopCall,.unwound,
    .joined,.handled 0,.resume]

def closedEnd : Tasks := (run (step sample) (initial true) closedTwice).getD (initial true)

theorem closed_traces_counted_stopped :
    let g := ((Registry.empty : Registry ℚ).inc (counterName .terminal)).inc (counterName .shutdown)
    run (stepHeard sample 0 (fun _ => onTraceClosed)) (initial true,.empty)
      (closedTwice.map (fun l => (l,()))) = some (closedEnd,g) ∧
    counter g (counterName .terminal) = 1 ∧ counter g (counterName .shutdown) = 1 ∧
    counter g (counterName .timeout) = 0 := by
  intro g
  have hrun : run (stepHeard sample 0 (fun _ => onTraceClosed)) (initial true,.empty)
      (closedTwice.map (fun l => (l,()))) = some (closedEnd,g) := by rfl
  have hcount := (closed_traces_counted sample 0 Nat.one_pos true .empty g _ closedEnd hrun
    (by decide +kernel)).1
  have hreasons : (undisturbed 0 closedEnd).map BlockTrace.closedReason =
      [.terminal,.shutdown] := by decide +kernel
  have hone (reason : ClosedReason) : counter g (counterName reason) =
      ([.terminal,.shutdown] : List ClosedReason).countP (· = reason) := by
    rw [hcount, ← hreasons, List.countP_map]
    exact zero_add _
  exact ⟨hrun,hone .terminal,hone .shutdown,hone .timeout⟩

end

end PipelineX.TraceListeners
