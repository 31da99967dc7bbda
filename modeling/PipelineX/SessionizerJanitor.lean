import PipelineX.SessionizerPartition
import Mathlib.Data.List.Induction
import Mathlib.Tactic.Linarith

/-!
# What a janitor pass closes

The pass goes by the newest timestamp of any block. With it, the traces that
are done or too old are closed and the others are left as they are, in their
order; without it the pass does nothing, and a trace that has seen a terminal
event stays. In a log that is in order no pass cuts a block off from a record
that is still to come within the idle window.
-/

set_option autoImplicit false

namespace PipelineX.SessionizerJanitor
open PipelineX.Records PipelineX.Sessionizer PipelineX.SessionizerPartition

variable {F : Type} [Seconds F]

/-- The newest timestamp of the records that belong to a block. -/
def newest (h : List (String × LogRecord)) : Option Datetime :=
  (h.filterMap (fun p => p.2.timestamp)).max?

theorem max?_snoc (ds : List Datetime) (d : Datetime) :
    (ds ++ [d]).max? = some (ds.max?.elim d (max · d)) := by
  cases ds with
  | nil => rfl
  | cons e ds => simp only [List.cons_append, List.max?_cons', List.foldl_append]; rfl

theorem newest_snoc (h : List (String × LogRecord)) (b : String) (r : LogRecord) :
    newest (h ++ [(b,r)]) = latest (newest h) r.timestamp := by
  unfold newest
  rw [List.filterMap_append]
  cases ht : r.timestamp with
  | none => simp [ht, latest]
  | some d =>
    have hone : List.filterMap (fun p : String × LogRecord => p.2.timestamp) [(b,r)] = [d] := by
      simp [ht]
    rw [hone, max?_snoc]
    cases (h.filterMap (fun p => p.2.timestamp)).max? with
    | none => rfl
    | some l =>
      simp only [Option.elim_some, latest]
      split
      · next hlt => rw [max_eq_right (le_of_lt hlt)]
      · next hlt => rw [max_eq_left (not_lt.mp hlt)]

theorem exec_latest (cfg : Config F) (ops : List Op) :
    (exec cfg ops).latestLogTs = newest (carried cfg ops) :=
  exec_invariant cfg (fun h s => s.latestLogTs = newest h) rfl
    (fun h s b r now now' _ hs => by
      rw [newest_snoc, ← hs]
      rfl)
    (fun _ _ _ hs _ => hs) ops

theorem newest_mem {h : List (String × LogRecord)} {l : Datetime} (hl : newest h = some l) :
    ∃ p ∈ h, p.2.timestamp = some l :=
  List.mem_filterMap.mp (List.max?_mem hl)

/-- The trace is older than a pass at this time keeps. -/
def expired (cfg : Config F) (l : Datetime) (trace : OpenTrace) : Bool :=
  Seconds.lt (Seconds.timestamp trace.lastTs) (Seconds.sub (Seconds.timestamp l) cfg.idleWindowS)

def closes (cfg : Config F) (l : Datetime) (trace : OpenTrace) : Bool :=
  trace.terminalSeen || expired cfg l trace

/-- The reason with which a pass closes the trace, if it does. -/
def reasonOf (trace : OpenTrace) : ClosedReason :=
  if trace.terminalSeen then .terminal else .timeout

theorem janitorReason_eq (cfg : Config F) (l : Datetime) (trace : OpenTrace) :
    janitorReason (Seconds.sub (Seconds.timestamp l) cfg.idleWindowS) trace =
      if closes cfg l trace then some (reasonOf trace) else none := by
  unfold janitorReason closes reasonOf expired
  cases trace.terminalSeen <;> simp

theorem janitorClosings_some (cfg : Config F) {s : State} {l : Datetime}
    (h : s.latestLogTs = some l) : janitorClosings cfg s =
      (s.openTraces.items.filter (fun p => closes cfg l p.2)).map
        (fun p => ⟨p.1,p.2,reasonOf p.2⟩) := by
  unfold janitorClosings
  simp only [h, janitorReason_eq]
  induction s.openTraces.items with
  | nil => rfl
  | cons p items ih =>
    rw [List.filterMap_cons, ih]
    cases hp : closes cfg l p.2 <;> simp [hp]

theorem janitorPass_none (cfg : Config F) {s : State} (h : s.latestLogTs = none) :
    janitorPass cfg s = s := by
  rw [janitorPass, janitorClosings, h]
  rfl

theorem foldl_close_published (cfg : Config F) (cs : List Closing) (s : State) :
    (cs.foldl (close cfg) s).published =
      s.published ++ cs.map (fun c => blockTrace cfg c.trace c.reason) := by
  induction cs generalizing s with
  | nil => simp
  | cons c cs ih => rw [List.foldl_cons, ih, close_published, List.map_cons, List.append_assoc]; rfl

theorem janitorPass_items (cfg : Config F) {s : State} {l : Datetime}
    (h : s.latestLogTs = some l) : (janitorPass cfg s).openTraces.items =
      s.openTraces.items.filter (fun p => !closes cfg l p.2) := by
  rw [janitorPass, foldl_close_items, janitorClosings_some cfg h, List.map_map]
  refine List.filter_congr fun p hp => ?_
  -- the keys are distinct, so a key is closed only with its own trace
  have hkey : p.1 ∈ List.map (Closing.key ∘ fun q => ⟨q.1,q.2,reasonOf q.2⟩)
      (s.openTraces.items.filter (fun q => closes cfg l q.2)) ↔ closes cfg l p.2 = true := by
    rw [List.mem_map]
    constructor
    · rintro ⟨q,hq,hqp⟩
      obtain ⟨hq,hc⟩ := List.mem_filter.mp hq
      have heq : q = p := List.inj_on_of_nodup_map s.openTraces.nodup hq hp hqp
      rwa [heq] at hc
    · exact fun hc => ⟨p,List.mem_filter.mpr ⟨hp,hc⟩,rfl⟩
  cases hc : closes cfg l p.2 <;> simp [hkey, hc]

theorem janitorPass_published (cfg : Config F) {s : State} {l : Datetime}
    (h : s.latestLogTs = some l) : (janitorPass cfg s).published =
      s.published ++ (s.openTraces.items.filter (fun p => closes cfg l p.2)).map
        (fun p => blockTrace cfg p.2 (reasonOf p.2)) := by
  rw [janitorPass, foldl_close_published, janitorClosings_some cfg h, List.map_map]
  rfl

/-- What a pass is for: of the traces that are open in `s`, those that are done
or too old are closed, once and with their reason, and the others stay. -/
structure Swept (cfg : Config F) (now : Option Datetime) (s s' : State) : Prop where
  settled : ∀ p ∈ s'.openTraces.items, p.2.terminalSeen = false
  young : ∀ p ∈ s'.openTraces.items, ∀ l, now = some l → expired cfg l p.2 = false
  due : ∀ p ∈ s.openTraces.items, p ∉ s'.openTraces.items →
    p.2.terminalSeen = true ∨ ∃ l, now = some l ∧ expired cfg l p.2 = true
  published : s'.published = s.published ++
    (s.openTraces.items.filter (fun p => p ∉ s'.openTraces.items)).map
      (fun p => blockTrace cfg p.2 (if p.2.terminalSeen then .terminal else .timeout))
  kept : s'.openTraces.items.Sublist s.openTraces.items

theorem janitorPass_swept (cfg : Config F) {s : State} {l : Datetime}
    (h : s.latestLogTs = some l) : Swept cfg (some l) s (janitorPass cfg s) := by
  have hmem (p : String × OpenTrace) (hp : p ∈ s.openTraces.items) :
      p ∉ (janitorPass cfg s).openTraces.items ↔ closes cfg l p.2 = true := by
    simp [janitorPass_items cfg h, hp]
  have hopen : ∀ p ∈ (janitorPass cfg s).openTraces.items, closes cfg l p.2 = false := by
    intro p hp
    rw [janitorPass_items cfg h] at hp
    simpa using (List.mem_filter.mp hp).2
  constructor
  · exact fun p hp => (Bool.or_eq_false_iff.mp (hopen p hp)).1
  · intro p hp l' hl
    cases hl
    exact (Bool.or_eq_false_iff.mp (hopen p hp)).2
  · intro p hp hgone
    rcases Bool.or_eq_true_iff.mp ((hmem p hp).mp hgone) with hterminal | hold
    · exact Or.inl hterminal
    · exact Or.inr ⟨l,rfl,hold⟩
  · rw [janitorPass_published cfg h]
    congr 2
    refine List.filter_congr fun p hp => ?_
    rw [Bool.eq_iff_iff, decide_eq_true_iff, hmem p hp]
  · rw [janitorPass_items cfg h]
    exact List.filter_sublist

/-- After any calls, a pass does what it is for exactly when some record of a
block had a timestamp or no open trace has seen a terminal event: without a
timestamp the pass returns before it looks at the table. -/
theorem janitor_pass_iff (cfg : Config F) (ops : List Op) :
    Swept cfg (newest (carried cfg ops)) (exec cfg ops) (janitorPass cfg (exec cfg ops)) ↔
      (∃ p ∈ carried cfg ops, p.2.timestamp ≠ none) ∨
      ∀ p ∈ (exec cfg ops).openTraces.items, p.2.terminalSeen = false := by
  have hlatest := exec_latest cfg ops
  cases hn : newest (carried cfg ops) with
  | some l =>
    obtain ⟨p,hp,ht⟩ := newest_mem hn
    have hswept := janitorPass_swept cfg (hlatest.trans hn)
    exact ⟨fun _ => Or.inl ⟨p,hp,by simp [ht]⟩,fun _ => hswept⟩
  | none =>
    have hnothing := janitorPass_none cfg (hlatest.trans hn)
    have hnone : ¬ ∃ p ∈ carried cfg ops, p.2.timestamp ≠ none := by
      rintro ⟨p,hp,ht⟩
      obtain ⟨d,hd⟩ := Option.ne_none_iff_exists'.mp ht
      have hnil := List.max?_eq_none_iff.mp hn
      exact List.ne_nil_of_mem (List.mem_filterMap.mpr ⟨p,hp,hd⟩) hnil
    rw [hnothing, or_iff_right hnone]
    constructor
    · exact fun h => h.settled
    · intro h
      refine ⟨h,fun _ _ _ => nofun,fun p hp hgone => absurd hp hgone,?_,List.Sublist.refl _⟩
      rw [List.filter_eq_nil_iff.mpr fun p hp => by simpa using hp]
      simp

/-- The last line of a block, as a parser that finds no time leaves it. -/
def untimedTerminal : LogRecord where
  id := 0
  enrichment := ⟨[("event_id",.str "E9"),("block_id",.str "blk_1")],by decide⟩

theorem untimed_terminal_stays :
    ¬ Swept (Config.default 0) (newest (carried (Config.default 0) [.process untimedTerminal 0 0]))
      (exec (Config.default 0) [.process untimedTerminal 0 0])
      (janitorPass (Config.default 0) (exec (Config.default 0) [.process untimedTerminal 0 0])) := by
  intro h
  have hsettled := h.settled
  revert hsettled
  decide

/-- A trace of block `b`: open with `P`, or with `Q` among those that were
emitted after the first `m`. -/
def Followed (b : String) (m : ℕ) (P : OpenTrace → Prop) (Q : BlockTrace → Prop) (s : State) :
    Prop :=
  m ≤ s.published.length ∧
  ((∃ trace, s.openTraces.get? b = some trace ∧ P trace) ∨ ∃ c ∈ s.published.drop m, Q c)

section
variable {cfg : Config F} {b : String} {m : ℕ} {P : OpenTrace → Prop} {Q : BlockTrace → Prop}
  {s : State}

theorem Followed.closings {cs : List Closing} (h : Followed b m P Q s)
    (ho : ∀ c ∈ cs, s.openTraces.get? c.key = some c.trace)
    (hclose : ∀ c ∈ cs, c.key = b → P c.trace → Q (blockTrace cfg c.trace c.reason)) :
    Followed b m P Q (cs.foldl (close cfg) s) := by
  obtain ⟨hm,h⟩ := h
  unfold Followed
  rw [foldl_close_published, List.length_append, List.drop_append_of_le_length hm]
  refine ⟨by omega,?_⟩
  rcases h with ⟨trace,hget,hP⟩ | ⟨c,hc,hQ⟩
  · by_cases hk : ∃ c ∈ cs, c.key = b
    · obtain ⟨c,hc,rfl⟩ := hk
      have htrace : trace = c.trace := Option.some.inj (hget.symm.trans (ho c hc))
      refine Or.inr ⟨_,?_,hclose c hc rfl (htrace ▸ hP)⟩
      exact List.mem_append_right _ (List.mem_map.mpr ⟨c,hc,rfl⟩)
    · refine Or.inl ⟨trace,OrderedDict.get?_eq_some.mpr ?_,hP⟩
      rw [foldl_close_items]
      refine List.mem_filter.mpr ⟨OrderedDict.mem_of_get? hget,decide_eq_true fun hb => hk ?_⟩
      exact List.mem_map.mp hb
  · exact Or.inr ⟨c,List.mem_append_left _ hc,hQ⟩

theorem Followed.touch {a : String} {r : LogRecord} {now now' : Datetime}
    (h : Followed b m P Q s) (hgrow : a = b → ∀ trace, s.openTraces.get? b = some trace →
      P trace → P (touch cfg s b r now now').1) :
    Followed b m P Q (touch cfg s a r now now').2 := by
  obtain ⟨hm,h⟩ := h
  refine ⟨hm,?_⟩
  rcases h with ⟨trace,hget,hP⟩ | hQ
  · rw [touch_openTraces]
    by_cases hab : a = b
    · subst hab
      exact Or.inl ⟨_,OrderedDict.get?_pushEnd_self _ _ _,hgrow rfl trace hget hP⟩
    · exact Or.inl ⟨trace,(OrderedDict.get?_pushEnd_of_ne _ _ (Ne.symm hab)).trans hget,hP⟩
  · exact Or.inr hQ

/-- `process` after it has added the record. -/
theorem Followed.evict {a : String} {r : LogRecord} {now now' : Datetime}
    (hb : blockIdOf cfg r = some a) (h : Followed b m P Q (Sessionizer.touch cfg s a r now now').2)
    (hclose : ∀ trace, P trace → Q (blockTrace cfg trace .evicted)) :
    Followed b m P Q (process cfg s r now now').2 := by
  rcases process_cases cfg s r now now' hb with ⟨_,hp⟩ | ⟨c,hc,hp⟩
  · exact hp ▸ h
  · have hopen := eviction_open cfg s hc
    have hreason : c.reason = .evicted := by
      unfold eviction at hc
      split at hc
      · cases hc
        rfl
      · obtain ⟨v,_,rfl⟩ := Option.map_eq_some_iff.mp hc
        rfl
    have hone : Followed b m P Q ([c].foldl (close cfg) (Sessionizer.touch cfg s a r now now').2) := by
      refine h.closings (List.forall_mem_singleton.mpr hopen) ?_
      refine List.forall_mem_singleton.mpr fun _ hP => ?_
      rw [hreason]
      exact hclose _ hP
    exact hp ▸ hone

theorem Followed.stop (h : Followed b m P Q s)
    (hclose : ∀ trace, P trace → Q (blockTrace cfg trace .shutdown)) :
    Followed b m P Q (stop cfg s) := by
  rw [stop_eq_closings]
  refine h.closings (stopClosings_open s) fun c hc _ hP => ?_
  obtain ⟨p,_,rfl⟩ := List.mem_map.mp hc
  exact hclose _ hP

/-- What lasts however the trace grows and is closed. -/
theorem Followed.run (ops : List Op) (h : Followed b m P Q s)
    (hgrow : ∀ s r now now' trace, s.openTraces.get? b = some trace → P trace →
      P (Sessionizer.touch cfg s b r now now').1)
    (hclose : ∀ trace reason, P trace → Q (blockTrace cfg trace reason)) :
    Followed b m P Q (ops.foldl (apply cfg) s) := by
  induction ops generalizing s with
  | nil => exact h
  | cons op ops ih =>
    refine ih ?_
    cases op with
    | process r now now' =>
      cases hb : blockIdOf cfg r with
      | none => simpa [apply, process_ignored cfg s r now now' hb] using h
      | some a =>
        exact Followed.evict hb (h.touch fun _ => hgrow s r now now') (fun _ => hclose _ _)
    | janitorPass => exact h.closings (janitorClosings_open cfg s) fun _ _ _ => hclose _ _
    | stop => exact h.stop fun _ => hclose _ _

end

/-- The records of the log that belong to a block have timestamps, and none is
older than the one before it. -/
def InLogOrder (cfg : Config F) (ops : List Op) : Prop :=
  ∃ ts : List Datetime, (carried cfg ops).map (fun p => p.2.timestamp) = ts.map some ∧
    ts.Pairwise (· ≤ ·)

section
variable {cfg : Config ℚ} {b : String} {m : ℕ} {ids : List UUID} {t t' : Datetime}

/-- The open trace of `b` holds these records, the last of them from `t`. -/
def Active (b : String) (ids : List UUID) (t : Datetime) (trace : OpenTrace) : Prop :=
  trace.blockId = b ∧ trace.recordIds = ids ∧ t ≤ trace.lastTs

/-- The trace was closed with these records, and not for its age. -/
def ClosedUnaged (b : String) (ids : List UUID) (c : BlockTrace) : Prop :=
  c.blockId = b ∧ c.recordIds = ids ∧ c.closedReason ≠ .timeout

theorem closed_active {trace : OpenTrace} {reason : ClosedReason} (h : Active b ids t trace)
    (hr : reason ≠ .timeout) : ClosedUnaged b ids (blockTrace cfg trace reason) :=
  ⟨h.1,h.2.1,hr⟩

/-- A trace is not too old for a record that comes within its idle window. -/
theorem active_not_expired {l : Datetime} {trace : OpenTrace} (hl : l ≤ t')
    (hgap : ((t'-t : ℤ) : ℚ)/1000000 ≤ cfg.idleWindowS) (ht : t ≤ trace.lastTs) :
    expired cfg l trace = false := by
  have hl' : (l : ℚ) ≤ t' := by exact_mod_cast hl
  have ht' : (t : ℚ) ≤ trace.lastTs := by exact_mod_cast ht
  rw [Int.cast_sub] at hgap
  change decide ((trace.lastTs : ℚ)/1000000 < (l : ℚ)/1000000-cfg.idleWindowS) = false
  rw [decide_eq_false_iff_not, not_lt]
  linarith

theorem active_pass {s : State} (hl : ∀ l, s.latestLogTs = some l → l ≤ t')
    (hgap : ((t'-t : ℤ) : ℚ)/1000000 ≤ cfg.idleWindowS)
    (h : Followed b m (Active b ids t) (ClosedUnaged b ids) s) :
    Followed b m (Active b ids t) (ClosedUnaged b ids) (janitorPass cfg s) := by
  refine h.closings (janitorClosings_open cfg s) fun c hc _ hactive => ?_
  cases hlatest : s.latestLogTs with
  | none =>
    unfold janitorClosings at hc
    rw [hlatest] at hc
    exact absurd hc List.not_mem_nil
  | some l =>
    rw [janitorClosings_some cfg hlatest] at hc
    obtain ⟨p,hp,rfl⟩ := List.mem_map.mp hc
    have hcloses : closes cfg l p.2 = true := by simpa using (List.mem_filter.mp hp).2
    have hyoung := active_not_expired (hl l hlatest) hgap hactive.2.2
    refine closed_active hactive ?_
    rw [closes, hyoung, Bool.or_false] at hcloses
    simp [reasonOf, hcloses]

/-- As long as the log stays before `t'`, the trace stays open or is closed for
another reason than its age. -/
theorem active_run (ops between : List Op)
    (hlate : ∀ p ∈ carried cfg (ops ++ between), ∀ d, p.2.timestamp = some d → d ≤ t')
    (hother : ∀ p ∈ carried cfg between, p.1 ≠ b)
    (hgap : ((t'-t : ℤ) : ℚ)/1000000 ≤ cfg.idleWindowS)
    (h : Followed b m (Active b ids t) (ClosedUnaged b ids) (exec cfg ops)) :
    Followed b m (Active b ids t) (ClosedUnaged b ids) (exec cfg (ops ++ between)) := by
  induction between using List.reverseRecOn with
  | nil => rwa [List.append_nil]
  | append_singleton between op ih =>
    rw [← List.append_assoc, carried_snoc] at hlate
    rw [carried_snoc] at hother
    rw [← List.append_assoc, exec_snoc]
    have h := ih (fun p hp => hlate p (List.mem_append_left _ hp))
      (fun p hp => hother p (List.mem_append_left _ hp))
    cases op with
    | process r now now' =>
      cases hb : blockIdOf cfg r with
      | none => simpa [apply, process_ignored cfg _ r now now' hb] using h
      | some a =>
        have hab : a ≠ b := hother (a,r) (List.mem_append_right _ (by simp [carriedBy, hb]))
        exact Followed.evict hb (h.touch fun hb' => absurd hb' hab)
          (fun _ ha => closed_active ha (by decide))
    | janitorPass =>
      refine active_pass (fun l hl => ?_) hgap h
      rw [exec_latest] at hl
      obtain ⟨p,hp,hd⟩ := newest_mem hl
      exact hlate p (List.mem_append_left _ hp) l hd
    | stop => exact h.stop fun _ ha => closed_active ha (by decide)

end

theorem touch_lastTs (cfg : Config F) (s : State) (b : String) {r : LogRecord} {d : Datetime}
    (now now' : Datetime) (hd : r.timestamp = some d) :
    d ≤ (touch cfg s b r now now').1.lastTs := by
  rw [touch_trace, hd]
  simp only [OpenTrace.add]
  split
  · exact le_refl d
  · next h => exact not_lt.mp h

theorem exec_keyed (cfg : Config F) (ops : List Op) :
    ∀ p ∈ (exec cfg ops).openTraces.items, p.2.blockId = p.1 :=
  (exec_partition cfg ops).keyed

/-- A log that is in order has nothing newer before a record. -/
theorem order_le {cfg : Config F} {ops after : List Op} {b : String} {r : LogRecord}
    {now now' t : Datetime} (h : InLogOrder cfg (ops ++ [.process r now now'] ++ after))
    (hb : blockIdOf cfg r = some b) (ht : r.timestamp = some t) :
    ∀ p ∈ carried cfg ops, ∀ d, p.2.timestamp = some d → d ≤ t := by
  obtain ⟨ts,hmap,hsorted⟩ := h
  have hpairs : (ts.map some).Pairwise (fun x y => ∀ d e, x = some d → y = some e → d ≤ e) := by
    refine List.pairwise_map.mpr (hsorted.imp fun hle d e hd he => ?_)
    exact Option.some.inj hd ▸ Option.some.inj he ▸ hle
  have hcarried : carried cfg (ops ++ [.process r now now'] ++ after) =
      carried cfg ops ++ [(b,r)] ++ carried cfg after := by
    simp [carried, carriedBy, hb]
  rw [← hmap, List.pairwise_map, hcarried, List.append_assoc] at hpairs
  intro p hp d hd
  exact (List.pairwise_append.mp hpairs).2.2 p hp (b,r) (by simp) d t hd ht

/-- A record is in its trace from its own call on. -/
theorem followed_from (cfg : Config F) (ops after : List Op) {b : String} {r : LogRecord}
    (now now' : Datetime) (hb : blockIdOf cfg r = some b) {ids : List UUID}
    (hids : (touch cfg (exec cfg ops) b r now now').1.recordIds = ids) :
    Followed b (exec cfg ops).published.length
      (fun trace => trace.blockId = b ∧ ids <+: trace.recordIds)
      (fun c => c.blockId = b ∧ ids <+: c.recordIds)
      (exec cfg (ops ++ [.process r now now'] ++ after)) := by
  have hkeyed := exec_keyed cfg ops
  have hcall : Followed b (exec cfg ops).published.length
      (fun trace => trace.blockId = b ∧ ids <+: trace.recordIds)
      (fun c => c.blockId = b ∧ ids <+: c.recordIds)
      (exec cfg (ops ++ [.process r now now'])) := by
    rw [exec_snoc]
    refine Followed.evict hb ⟨le_refl _,Or.inl ⟨(touch cfg (exec cfg ops) b r now now').1,?_,
      touch_blockId _ b r now now' hkeyed,?_⟩⟩ fun _ h => h
    · rw [touch_openTraces, OrderedDict.get?_pushEnd_self]
    · exact hids ▸ List.prefix_refl _
  rw [exec_append]
  refine hcall.run after ?_ fun _ _ h => h
  intro s r' now now' trace hget ⟨hblock,hpre⟩
  rw [touch_recordIds, hget, Option.elim_some]
  refine ⟨?_,hpre.trans (List.prefix_append _ _)⟩
  rw [touch_trace, found, hget]
  exact hblock

/-- In a log that is in order, a record that comes within the idle window after
the one before it in its block ends up in the same trace, open or emitted,
unless that trace was closed in between for another reason than its age. -/
theorem timeout_spares_active (cfg : Config ℚ) (before between after : List Op) {b : String}
    {r r' : LogRecord} {now₁ now₂ now₃ now₄ t t' : Datetime}
    (horder : InLogOrder cfg
      (before ++ [.process r now₁ now₂] ++ between ++ [.process r' now₃ now₄] ++ after))
    (hr : blockIdOf cfg r = some b) (hr' : blockIdOf cfg r' = some b)
    (hother : ∀ p ∈ carried cfg between, p.1 ≠ b)
    (ht : r.timestamp = some t) (ht' : r'.timestamp = some t')
    (hgap : ((t'-t : ℤ) : ℚ)/1000000 ≤ cfg.idleWindowS) :
    let s := exec cfg before
    let s' := exec cfg (before ++ [.process r now₁ now₂] ++ between)
    let final := exec cfg
      (before ++ [.process r now₁ now₂] ++ between ++ [.process r' now₃ now₄] ++ after)
    ∃ earlier, (touch cfg s b r now₁ now₂).1.recordIds = earlier ++ [r.id] ∧
      ((∃ c ∈ s'.published.drop s.published.length, c.blockId = b ∧
        c.recordIds = earlier ++ [r.id] ∧ c.closedReason ≠ .timeout) ∨
      (∃ trace, final.openTraces.get? b = some trace ∧
        earlier ++ [r.id,r'.id] <+: trace.recordIds) ∨
      ∃ c ∈ final.published.drop s'.published.length, c.blockId = b ∧
        earlier ++ [r.id,r'.id] <+: c.recordIds) := by
  intro s s' final
  have hids := touch_recordIds cfg s b r now₁ now₂
  refine ⟨(s.openTraces.get? b).elim [] OpenTrace.recordIds,hids,?_⟩
  generalize (s.openTraces.get? b).elim [] OpenTrace.recordIds = earlier at hids
  -- the trace with the first record, through the calls in between
  have hfirst : Followed b s.published.length (Active b (earlier ++ [r.id]) t)
      (ClosedUnaged b (earlier ++ [r.id])) (exec cfg (before ++ [.process r now₁ now₂])) := by
    rw [exec_snoc]
    refine Followed.evict hr ⟨le_refl _,Or.inl ⟨(touch cfg s b r now₁ now₂).1,?_,
      touch_blockId s b r now₁ now₂ (exec_keyed cfg before),hids,touch_lastTs cfg s b now₁ now₂ ht⟩⟩
      (fun _ ha => closed_active ha (by decide))
    rw [touch_openTraces, OrderedDict.get?_pushEnd_self]
  have hlate := order_le horder hr' ht'
  obtain ⟨_,⟨trace,hget,hactive⟩ | hclosed⟩ := active_run _ between hlate hother hgap hfirst
  · -- it is open when the second record comes
    have hboth : (touch cfg s' b r' now₃ now₄).1.recordIds = earlier ++ [r.id,r'.id] := by
      rw [touch_recordIds, hget, Option.elim_some, hactive.2.1, List.append_assoc]
      rfl
    obtain ⟨_,⟨trace,hopen,_,hpre⟩ | h⟩ := followed_from cfg _ after now₃ now₄ hr' hboth
    · exact Or.inr (Or.inl ⟨trace,hopen,hpre⟩)
    · exact Or.inr (Or.inr h)
  · exact Or.inl hclosed

/-- A line of a block at a time. -/
def lineAt (id : UUID) (block : String) (t : Datetime) : LogRecord where
  id := id
  timestamp := some t
  enrichment := ⟨[("block_id",.str block)],List.nodup_singleton "block_id"⟩

/-- Two lines of a block, 20 seconds apart, with a pass on each side of a line
of another block. -/
theorem twenty_seconds_apart :
    let between : List Op :=
      [.janitorPass,.process (lineAt 1 "blk_2" 10000000) 0 0,.janitorPass]
    let s' := exec (Config.default 0) ([] ++ [.process (lineAt 0 "blk_1" 0) 0 0] ++ between)
    let final := exec (Config.default 0) ([] ++ [.process (lineAt 0 "blk_1" 0) 0 0] ++ between ++
      [.process (lineAt 2 "blk_1" 20000000) 0 0] ++ [.stop])
    ∃ earlier, (touch (Config.default 0) .initial "blk_1" (lineAt 0 "blk_1" 0) 0 0).1.recordIds =
        earlier ++ [0] ∧
      ((∃ c ∈ s'.published, c.blockId = "blk_1" ∧ c.recordIds = earlier ++ [0] ∧
        c.closedReason ≠ .timeout) ∨
      (∃ trace, final.openTraces.get? "blk_1" = some trace ∧
        earlier ++ [0,2] <+: trace.recordIds) ∨
      ∃ c ∈ final.published.drop s'.published.length, c.blockId = "blk_1" ∧
        earlier ++ [0,2] <+: c.recordIds) := by
  refine timeout_spares_active (Config.default 0) [] _ [.stop]
    ⟨[0,10000000,20000000],rfl,by decide⟩ rfl rfl ?_ rfl rfl ?_
  · have hcarried : carried (Config.default 0)
        [.janitorPass,.process (lineAt 1 "blk_2" 10000000) 0 0,.janitorPass] =
        [("blk_2",lineAt 1 "blk_2" 10000000)] := rfl
    rw [hcarried]
    decide
  · norm_num [Config.default]

end PipelineX.SessionizerJanitor
