import PipelineX.SessionizerTable
import PipelineX.SessionizerBounds
import PipelineX.SessionizerJanitor

/-!
# Eviction and log time

The table is in the order in which blocks were touched, and its head is what
a capacity eviction takes. The head has the oldest last timestamp as long as
every record makes its trace the newest one.
-/

set_option autoImplicit false

namespace PipelineX.SessionizerEviction
open PipelineX.Records PipelineX.Sessionizer PipelineX.SessionizerPartition
open PipelineX.SessionizerTable PipelineX.SessionizerBounds

variable {F : Type} [Seconds F]

/-- If the call evicts a trace for capacity, none of the open ones has an
older last timestamp. -/
def EvictsOldest (cfg : Config F) (s : State) (r : LogRecord) (now now' : Datetime) : Prop :=
  ∀ b v, blockIdOf cfg r = some b → hardCapped cfg (touch cfg s b r now now').1 = false →
    lruVictim cfg (touch cfg s b r now now').2 = some v →
    ∀ p ∈ (touch cfg s b r now now').2.openTraces.items, v.2.lastTs ≤ p.2.lastTs

/-- The record fills its trace, or no trace of another block has a later last
timestamp than both the record and its own block's open trace. -/
def Leads (cfg : Config F) (s : State) (r : LogRecord) : Prop :=
  ∀ b, blockIdOf cfg r = some b →
    cfg.maxRecordsPerTrace ≤
      ((s.openTraces.get? b).elim [] OpenTrace.events).length+(newEvents cfg r).length ∨
    ∀ p ∈ s.openTraces.items, p.1 ≠ b →
      (∃ d, r.timestamp = some d ∧ p.2.lastTs ≤ d) ∨
      ∃ t, s.openTraces.get? b = some t ∧ p.2.lastTs ≤ t.lastTs

/-- The last timestamps do not decrease along the table. -/
def LogOrdered (s : State) : Prop :=
  s.openTraces.items.Pairwise (fun p q => p.2.lastTs ≤ q.2.lastTs)

theorem close_ordered {cfg : Config F} {s : State} (hs : LogOrdered s) (c : Closing) :
    LogOrdered (close cfg s c) :=
  List.Pairwise.filter _ hs

theorem closings_ordered {cfg : Config F} {s : State} (hs : LogOrdered s) (cs : List Closing) :
    LogOrdered (cs.foldl (close cfg) s) := by
  induction cs generalizing s with
  | nil => exact hs
  | cons c cs ih => exact ih (close_ordered hs c)

/-- A trace that is behind the record or behind its block's open trace is
behind the trace with the record in it. -/
theorem le_touch_lastTs (cfg : Config F) {s : State} {b : String} {r : LogRecord}
    (now now' : Datetime) {e : Datetime} (h : (∃ d, r.timestamp = some d ∧ e ≤ d) ∨
      ∃ t, s.openTraces.get? b = some t ∧ e ≤ t.lastTs) :
    e ≤ (touch cfg s b r now now').1.lastTs := by
  rw [touch_lastTs_eq]
  rcases h with ⟨d,hd,hle⟩ | ⟨t,ht,hle⟩
  · rw [hd]
    exact hle.trans (le_max_right _ d)
  · have hfound : (found s b r now now').lastTs = t.lastTs := by rw [found, ht]; rfl
    rw [hfound]
    cases r.timestamp with
    | none => exact hle
    | some d => exact hle.trans (le_max_left _ d)

theorem touch_ordered {cfg : Config F} {s : State} (hs : LogOrdered s) {b : String} {r : LogRecord}
    (now now' : Datetime) (h : ∀ p ∈ s.openTraces.items, p.1 ≠ b →
      (∃ d, r.timestamp = some d ∧ p.2.lastTs ≤ d) ∨
      ∃ t, s.openTraces.get? b = some t ∧ p.2.lastTs ≤ t.lastTs) :
    LogOrdered (touch cfg s b r now now').2 := by
  unfold LogOrdered
  rw [touch_openTraces, OrderedDict.items_pushEnd]
  refine List.pairwise_append.mpr ⟨List.Pairwise.filter _ hs,List.pairwise_singleton _ _,?_⟩
  intro p hp q hq
  obtain ⟨hp,hne⟩ := OrderedDict.mem_erase.mp hp
  rw [List.mem_singleton.mp hq]
  exact le_touch_lastTs cfg now now' (h p hp hne)

theorem hardCapped_iff (cfg : Config F) (s : State) (b : String) (r : LogRecord)
    (now now' : Datetime) : hardCapped cfg (touch cfg s b r now now').1 = true ↔
      cfg.maxRecordsPerTrace ≤
        ((s.openTraces.get? b).elim [] OpenTrace.events).length+(newEvents cfg r).length := by
  rw [hardCapped, decide_eq_true_iff, touch_events, List.length_append]

/-- In an ordered table the head is the oldest, and a record that leads keeps
the table ordered. -/
theorem process_ordered {cfg : Config F} {s : State} (hbelow : BelowCap cfg s)
    (hs : LogOrdered s) {r : LogRecord} (now now' : Datetime) (h : Leads cfg s r) :
    EvictsOldest cfg s r now now' ∧ LogOrdered (process cfg s r now now').2 := by
  constructor
  · intro b v hb hcap hv
    have hnew : LogOrdered (touch cfg s b r now now').2 := by
      refine touch_ordered hs now now' ((h b hb).resolve_left fun hfull => ?_)
      rw [(hardCapped_iff cfg s b r now now').mpr hfull] at hcap
      cases hcap
    have hhead := (lruVictim_some hv).2
    obtain ⟨rest,hrest⟩ := List.head?_eq_some_iff.mp hhead
    unfold LogOrdered at hnew
    rw [hrest] at hnew ⊢
    intro p hp
    rcases List.mem_cons.mp hp with rfl | hp
    · exact le_refl _
    · exact (List.pairwise_cons.mp hnew).1 p hp
  · cases hb : blockIdOf cfg r with
    | none => rwa [process_ignored cfg s r now now' hb]
    | some b =>
      rcases h b hb with hfull | hleads
      · -- the filled trace leaves the table, and the others stay in order
        have hcap := (hardCapped_iff cfg s b r now now').mpr hfull
        have hhash : hashError cfg r = none := by
          by_contra hne
          rw [raising_uncapped hbelow b now now' hne] at hcap
          cases hcap
        have hprocess : (process cfg s r now now').2 =
            close cfg (touch cfg s b r now now').2 ⟨b,(touch cfg s b r now now').1,.evicted⟩ := by
          simp [process, hb, closing_of_hashable hhash, eviction, hcap]
        unfold LogOrdered
        rw [hprocess, close_openTraces, touch_openTraces, OrderedDict.erase_pushEnd]
        exact List.Pairwise.filter _ hs
      · have hnew : LogOrdered (touch cfg s b r now now').2 := touch_ordered hs now now' hleads
        rcases process_cases cfg s r now now' hb with ⟨_,hp⟩ | ⟨c,_,hp⟩
        · exact hp ▸ hnew
        · exact hp ▸ close_ordered hnew c

theorem exec_ordered (cfg : Config F) (ops : List Op)
    (h : ∀ before r now now' after, ops = before ++ .process r now now' :: after →
      Leads cfg (exec cfg before) r) : LogOrdered (exec cfg ops) := by
  induction ops using List.reverseRecOn with
  | nil => exact List.Pairwise.nil
  | append_singleton ops op ih =>
    have hs := ih fun before r now now' after he =>
      h before r now now' (after ++ [op]) (by rw [he, List.append_assoc, List.cons_append])
    rw [exec_snoc]
    cases op with
    | process r now now' =>
      exact (process_ordered (exec_belowCap cfg ops) hs now now' (h ops r now now' [] rfl)).2
    | janitorPass => exact closings_ordered hs _
    | stop =>
      rw [apply, stop_eq_closings]
      exact closings_ordered hs _

/-- In a run in which every record leads, every capacity eviction takes the
trace with the oldest last timestamp. -/
theorem leading_run_evicts_oldest (cfg : Config F) (ops : List Op)
    (h : ∀ before r now now' after, ops = before ++ .process r now now' :: after →
      Leads cfg (exec cfg before) r) :
    ∀ before r now now' after, ops = before ++ .process r now now' :: after →
      EvictsOldest cfg (exec cfg before) r now now' := by
  intro before r now now' after he
  refine (process_ordered (exec_belowCap cfg before) (exec_ordered cfg before ?_) now now'
    (h before r now now' after he)).1
  intro before' r' now₁ now₂ after' he'
  refine h before' r' now₁ now₂ (after' ++ .process r now now' :: after) ?_
  rw [he, he', List.append_assoc, List.cons_append]

section
open PipelineX.SessionizerJanitor

/-- In a log with timestamps the last timestamp of an open trace is one of the
log's. -/
theorem exec_lastTs_mem (cfg : Config F) (ops : List Op)
    (h : ∀ q ∈ carried cfg ops, q.2.timestamp ≠ none) :
    ∀ p ∈ (exec cfg ops).openTraces.items,
      ∃ q ∈ carried cfg ops, q.2.timestamp = some p.2.lastTs := by
  refine exec_invariant cfg (fun h s => (∀ q ∈ h, q.2.timestamp ≠ none) →
    ∀ p ∈ s.openTraces.items, ∃ q ∈ h, q.2.timestamp = some p.2.lastTs) ?_ ?_ ?_ ops h
  · simp [State.initial, OrderedDict.empty]
  · intro h s b r now now' _ hs hstamped p hp
    have hs := hs fun q hq => hstamped q (List.mem_append_left _ hq)
    rw [touch_openTraces] at hp
    rcases OrderedDict.mem_pushEnd.mp hp with ⟨hp,_⟩ | rfl
    · obtain ⟨q,hq,ht⟩ := hs p hp
      exact ⟨q,List.mem_append_left _ hq,ht⟩
    · have hr : r.timestamp ≠ none := hstamped (b,r) (List.mem_append_right _ List.mem_cons_self)
      obtain ⟨d,hd⟩ := Option.ne_none_iff_exists'.mp hr
      have hlast := touch_lastTs_eq cfg s b r now now'
      rw [hd, Option.elim_some, found] at hlast
      change ∃ q ∈ h ++ [(b,r)], q.2.timestamp = some (touch cfg s b r now now').1.lastTs
      rw [hlast]
      cases hg : s.openTraces.get? b with
      | none => exact ⟨(b,r),by simp,by simp [hd, OpenTrace.new]⟩
      | some t =>
        obtain ⟨q,hq,ht⟩ := hs _ (OrderedDict.mem_of_get? hg)
        rw [Option.getD_some]
        rcases max_choice t.lastTs d with hmax | hmax
        · exact ⟨q,List.mem_append_left _ hq,by rw [hmax]; exact ht⟩
        · exact ⟨(b,r),by simp,by rw [hmax]; exact hd⟩
  · exact fun _ _ _ hs _ hstamped p hp => hs hstamped p (OrderedDict.mem_erase.mp hp).1

/-- In a log that is in order every record leads. -/
theorem order_leads (cfg : Config F) {ops : List Op} (h : InLogOrder cfg ops) :
    ∀ before r now now' after, ops = before ++ .process r now now' :: after →
      Leads cfg (exec cfg before) r := by
  rintro before r now now' after rfl b hb
  have hstamped : ∀ q ∈ carried cfg (before ++ .process r now now' :: after),
      q.2.timestamp ≠ none := by
    obtain ⟨ts,hmap,_⟩ := h
    intro q hq hnone
    have hmem : q.2.timestamp ∈ ts.map some := hmap ▸ List.mem_map_of_mem hq
    simp [hnone] at hmem
  have hcarried : carried cfg (before ++ .process r now now' :: after) =
      carried cfg before ++ (b,r) :: carried cfg after := by
    simp [carried, carriedBy, hb]
  rw [hcarried] at hstamped
  obtain ⟨t,ht⟩ := Option.ne_none_iff_exists'.mp
    (hstamped (b,r) (List.mem_append_right _ List.mem_cons_self))
  rw [← List.singleton_append, ← List.append_assoc] at h
  refine Or.inr fun p hp _ => Or.inl ⟨t,ht,?_⟩
  obtain ⟨q,hq,hlast⟩ := exec_lastTs_mem cfg before
    (fun q hq => hstamped q (List.mem_append_left _ hq)) p hp
  exact order_le h hb ht q hq _ hlast

/-- Three blocks in a table for two, with the log in order. -/
theorem ordered_evicts_oldest :
    EvictsOldest (capOfOne 2) (exec (capOfOne 2) [.process (lineAt 0 "blk_1" 50) 0 0,
      .process (lineAt 1 "blk_2" 100) 0 0]) (lineAt 2 "blk_3" 120) 0 0 := by
  refine leading_run_evicts_oldest (capOfOne 2) _ (order_leads _ ?_) _ _ 0 0 [] rfl
  exact ⟨[50,100,120],rfl,by decide⟩

/-- The second line is older than the first, and the third evicts the block of
the first. -/
theorem late_line_evicts_newer :
    ¬ EvictsOldest (capOfOne 2) (exec (capOfOne 2) [.process (lineAt 0 "blk_1" 100) 0 0,
      .process (lineAt 1 "blk_2" 50) 0 0]) (lineAt 2 "blk_3" 120) 0 0 := by
  intro h
  have hle := h "blk_3" ("blk_1",⟨"blk_1",[],[0],100,100,false⟩) rfl rfl rfl
    ("blk_2",⟨"blk_2",[],[1],50,50,false⟩) (by decide)
  exact absurd hle (by decide)

end

end PipelineX.SessionizerEviction
