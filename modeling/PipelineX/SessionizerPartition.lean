import PipelineX.Sessionizer
import Mathlib.Data.List.Perm.Basic

/-!
# The sessionizer partitions the log

What a block's records bring, in the order in which they were processed, is
what its emitted traces hold, in the order of emission, followed by what its
open trace holds. The argument is the same for record ids and for events, so
it is made once, for any content that records add and closing keeps.
-/

set_option autoImplicit false

namespace PipelineX.SessionizerPartition
open PipelineX.Records PipelineX.Sessionizer

variable {F : Type} [Seconds F] {α : Type}

/-- An entry of a list with one more at its end: that one, or one of the list. -/
theorem append_singleton_cases {xs pre post : List α} {x y : α}
    (h : xs ++ [y] = pre ++ x::post) : (xs = pre ∧ y = x) ∨ ∃ rest, xs = pre ++ x::rest := by
  rcases List.eq_nil_or_concat post with rfl | ⟨rest,last,rfl⟩
  · obtain ⟨hpre,hx⟩ := List.append_inj' h rfl
    exact Or.inl ⟨hpre,(List.cons.inj hx).1⟩
  · rw [List.concat_eq_append, ← List.cons_append, ← List.append_assoc] at h
    exact Or.inr ⟨rest,(List.append_inj' h rfl).1⟩

/-- One kind of content: what a record adds of it to its open trace, and
where an emitted trace keeps it. -/
structure Content (cfg : Config F) (α : Type) where
  ofRecord : LogRecord → List α
  ofOpen : OpenTrace → List α
  ofTrace : BlockTrace → List α
  touched : ∀ s b r now now', ofOpen (touch cfg s b r now now').1 =
    ((s.openTraces.get? b).elim [] ofOpen) ++ ofRecord r
  closed : ∀ t reason, ofTrace (blockTrace cfg t reason) = ofOpen t

def recordIds (cfg : Config F) : Content cfg UUID where
  ofRecord r := [r.id]
  ofOpen := OpenTrace.recordIds
  ofTrace := BlockTrace.recordIds
  touched := touch_recordIds cfg
  closed _ _ := rfl

def events (cfg : Config F) : Content cfg String where
  ofRecord := newEvents cfg
  ofOpen := OpenTrace.events
  ofTrace := BlockTrace.eventSequence
  touched := touch_events cfg
  closed _ _ := rfl

variable {cfg : Config F}

def emitted (c : Content cfg α) (s : State) (b : String) : List α :=
  (s.published.filter (fun t => t.blockId = b)).flatMap c.ofTrace

def pending (c : Content cfg α) (s : State) (b : String) : List α :=
  (s.openTraces.get? b).elim [] c.ofOpen

def arrived (c : Content cfg α) (h : List (String × LogRecord)) (b : String) : List α :=
  (h.filter (fun p => p.1 = b)).flatMap (fun p => c.ofRecord p.2)

/-- The table and the emitted traces after the records `h` were added. -/
structure Partition (cfg : Config F) (h : List (String × LogRecord)) (s : State) : Prop where
  keyed : ∀ p ∈ s.openTraces.items, p.2.blockId = p.1
  filled : ∀ p ∈ s.openTraces.items, p.2.recordIds ≠ []
  split : ∀ {α : Type} (c : Content cfg α) b, emitted c s b ++ pending c s b = arrived c h b
  total : (s.published.flatMap BlockTrace.recordIds ++
    s.openTraces.items.flatMap (fun p => p.2.recordIds)).Perm (h.map (fun p => p.2.id))
  counted : s.tracesEmitted = s.published.length
  sized : ∀ t ∈ s.published, t.recordCount = t.recordIds.length ∧ 1 ≤ t.recordCount

theorem initial_partition (cfg : Config F) : Partition cfg [] .initial where
  keyed := by simp [State.initial, OrderedDict.empty]
  filled := by simp [State.initial, OrderedDict.empty]
  split _ _ := rfl
  total := List.Perm.nil
  counted := rfl
  sized := by simp [State.initial]

theorem touch_blockId (s : State) (b : String) (r : LogRecord) (now now' : Datetime)
    (hk : ∀ p ∈ s.openTraces.items, p.2.blockId = p.1) :
    (touch cfg s b r now now').1.blockId = b := by
  rw [touch_trace]
  change (found s b r now now').blockId = b
  unfold found
  cases hg : s.openTraces.get? b with
  | none => rfl
  | some t => exact hk _ (OrderedDict.mem_of_get? hg)

/-- Adding a record extends the open content of its own block only. -/
theorem touch_pending (c : Content cfg α) (s : State) (b a : String) (r : LogRecord)
    (now now' : Datetime) :
    pending c (touch cfg s b r now now').2 a =
      pending c s a ++ (if b = a then c.ofRecord r else []) := by
  unfold pending
  rw [touch_openTraces]
  by_cases h : b = a
  · subst h
    rw [OrderedDict.get?_pushEnd_self, if_pos rfl]
    exact c.touched s b r now now'
  · rw [OrderedDict.get?_pushEnd_of_ne _ _ (Ne.symm h), if_neg h, List.append_nil]

theorem arrived_snoc (c : Content cfg α) (h : List (String × LogRecord)) (b a : String)
    (r : LogRecord) :
    arrived c (h ++ [(b,r)]) a = arrived c h a ++ (if b = a then c.ofRecord r else []) := by
  by_cases hb : b = a <;> simp [arrived, hb]

theorem touch_total {h : List (String × LogRecord)} {s : State} (hs : Partition cfg h s)
    (b : String) (r : LogRecord) (now now' : Datetime) :
    ((touch cfg s b r now now').2.published.flatMap BlockTrace.recordIds ++
      (touch cfg s b r now now').2.openTraces.items.flatMap (fun p => p.2.recordIds)).Perm
      ((h ++ [(b,r)]).map (fun p => p.2.id)) := by
  have hopen : ((s.openTraces.get? b).elim [] (fun t => [(b,t)])).flatMap
      (fun p => p.2.recordIds) = (s.openTraces.get? b).elim [] OpenTrace.recordIds := by
    cases s.openTraces.get? b <;> simp
  have hold := (OrderedDict.items_perm s.openTraces b).flatMap_right (fun p => p.2.recordIds)
  rw [List.flatMap_append, hopen] at hold
  rw [touch_openTraces, touch_published, OrderedDict.pushEnd, List.flatMap_append]
  simp only [List.flatMap_cons, List.flatMap_nil, List.append_nil, touch_recordIds, List.map_append,
    List.map_cons, List.map_nil]
  rw [← List.append_assoc, ← List.append_assoc]
  refine List.Perm.append_right _ (List.Perm.trans ?_ hs.total)
  rw [List.append_assoc]
  exact List.Perm.append_left _ (List.perm_append_comm.trans hold)

theorem touch_partition {h : List (String × LogRecord)} {s : State} (hs : Partition cfg h s)
    (b : String) (r : LogRecord) (now now' : Datetime) :
    Partition cfg (h ++ [(b,r)]) (touch cfg s b r now now').2 where
  keyed := by
    intro p hp
    rw [touch_openTraces] at hp
    rcases OrderedDict.mem_pushEnd.mp hp with ⟨hp,_⟩ | rfl
    · exact hs.keyed p hp
    · exact touch_blockId s b r now now' hs.keyed
  filled := by
    intro p hp
    rw [touch_openTraces] at hp
    rcases OrderedDict.mem_pushEnd.mp hp with ⟨hp,_⟩ | rfl
    · exact hs.filled p hp
    · simp [touch_recordIds]
  split c a := by
    rw [touch_pending, arrived_snoc, ← hs.split c a, List.append_assoc]
    rfl
  total := touch_total hs b r now now'
  counted := hs.counted
  sized := hs.sized

/-- Closing moves one block's open content to the end of what it has emitted,
and touches no other block. -/
theorem close_split (c : Content cfg α) (s : State) (d : Closing) (a : String)
    (ho : s.openTraces.get? d.key = some d.trace) (hk : d.trace.blockId = d.key) :
    emitted c (close cfg s d) a ++ pending c (close cfg s d) a =
      emitted c s a ++ pending c s a := by
  have hb : (blockTrace cfg d.trace d.reason).blockId = d.key := hk
  by_cases h : d.key = a
  · subst h
    simp [emitted, pending, hb, c.closed, ho]
  · simp [emitted, pending, hb, h, OrderedDict.get?_erase_of_ne _ (Ne.symm h)]

theorem close_partition {h : List (String × LogRecord)} {s : State} (hs : Partition cfg h s)
    (d : Closing) (ho : s.openTraces.get? d.key = some d.trace) :
    Partition cfg h (close cfg s d) where
  keyed p hp := hs.keyed p (OrderedDict.mem_erase.mp hp).1
  filled p hp := hs.filled p (OrderedDict.mem_erase.mp hp).1
  split c a := by
    rw [close_split c s d a ho (hs.keyed _ (OrderedDict.mem_of_get? ho))]
    exact hs.split c a
  total := by
    have hold := (OrderedDict.items_perm s.openTraces d.key).flatMap_right (fun p => p.2.recordIds)
    rw [ho, Option.elim_some, List.flatMap_append, List.flatMap_singleton] at hold
    refine List.Perm.trans ?_ hs.total
    rw [close_published, close_openTraces, List.flatMap_append, List.flatMap_singleton,
      List.append_assoc]
    exact List.Perm.append_left _ hold
  counted := by simp [hs.counted]
  sized := by
    intro t ht
    rw [close_published] at ht
    rcases List.mem_append.mp ht with ht | ht
    · exact hs.sized t ht
    · rw [List.mem_singleton.mp ht]
      exact ⟨rfl,List.length_pos_iff.mpr (hs.filled _ (OrderedDict.mem_of_get? ho))⟩

theorem exec_partition (cfg : Config F) (ops : List Op) :
    Partition cfg (carried cfg ops) (exec cfg ops) :=
  exec_invariant cfg (Partition cfg) (initial_partition cfg)
    (fun _ _ b r now now' _ hs => touch_partition hs b r now now')
    (fun _ _ c hs ho => close_partition hs c ho) ops

theorem foldl_close_items (cfg : Config F) (cs : List Closing) (s : State) :
    (cs.foldl (close cfg) s).openTraces.items =
      s.openTraces.items.filter (fun p => p.1 ∉ cs.map Closing.key) := by
  induction cs generalizing s with
  | nil => simp
  | cons c cs ih =>
    rw [List.foldl_cons, ih, close_openTraces]
    simp only [OrderedDict.erase, List.filter_filter, List.map_cons, List.mem_cons, not_or]
    congr 1
    funext p
    by_cases hp : p.1 = c.key <;> simp [hp]

theorem stop_closes_all (cfg : Config F) (s : State) : (stop cfg s).openTraces.items = [] := by
  rw [stop_eq_closings, foldl_close_items, stopClosings_keys]
  refine List.filter_eq_nil_iff.mpr fun p hp => ?_
  simpa using OrderedDict.fst_mem_keys hp

theorem exec_append (cfg : Config F) (ops rest : List Op) :
    exec cfg (ops ++ rest) = rest.foldl (apply cfg) (exec cfg ops) :=
  List.foldl_append

theorem exec_snoc (cfg : Config F) (ops : List Op) (op : Op) :
    exec cfg (ops ++ [op]) = apply cfg (exec cfg ops) op := by
  simp [exec]

/-- The records of block `b`, in the order in which they were processed. -/
def blockRecords (cfg : Config F) (ops : List Op) (b : String) : List LogRecord :=
  ((carried cfg ops).filter (fun p => p.1 = b)).map Prod.snd

theorem arrived_carried (c : Content cfg α) (ops : List Op) (b : String) :
    arrived c (carried cfg ops) b = (blockRecords cfg ops b).flatMap c.ofRecord := by
  rw [arrived, blockRecords, List.flatMap_map]

theorem countP_eq_one {β : Type} (l : List β) (f : β → List UUID) (x : UUID)
    (h : (l.flatMap f).count x = 1) : l.countP (fun t => x ∈ f t) = 1 := by
  induction l with
  | nil => simp at h
  | cons t l ih =>
    rw [List.flatMap_cons, List.count_append] at h
    have hmem : x ∈ f t ↔ 0 < (f t).count x := List.count_pos_iff.symm
    by_cases ht : x ∈ f t
    · have hrest : ∀ u ∈ l, x ∉ f u := by
        intro u hu hx
        have : 0 < (l.flatMap f).count x :=
          List.count_pos_iff.mpr (List.mem_flatMap.mpr ⟨u,hu,hx⟩)
        have := hmem.mp ht
        omega
      have hzero : l.countP (fun t => x ∈ f t) = 0 :=
        List.countP_eq_zero.mpr (by simpa using hrest)
      simp [ht, hzero]
    · have hl : (l.flatMap f).count x = 1 := by
        have := List.count_eq_zero.mpr ht
        omega
      simp [ht, ih hl]

/-- The record ids that have left the table, after a `stop` all of them. -/
theorem stopped_total (cfg : Config F) (ops : List Op) :
    ((exec cfg (ops ++ [.stop])).published.flatMap BlockTrace.recordIds).Perm
      ((carried cfg ops).map (fun p => p.2.id)) := by
  have h := (exec_partition cfg (ops ++ [.stop])).total
  have hc : carried cfg (ops ++ [.stop]) = carried cfg ops := by simp [carried, carriedBy]
  rw [hc, exec_snoc, apply, stop_closes_all, List.flatMap_nil, List.append_nil] at h
  rwa [exec_snoc, apply]

/-- Every processed record that carries a block id is in exactly one place,
in order: a trace that was emitted for its block, or the block's open trace. -/
theorem lossless_ordered_partition (cfg : Config F) (ops : List Op) :
    (∀ b, emitted (recordIds cfg) (exec cfg ops) b ++ pending (recordIds cfg) (exec cfg ops) b =
      (blockRecords cfg ops b).map LogRecord.id) ∧
    (∀ b, emitted (events cfg) (exec cfg ops) b ++ pending (events cfg) (exec cfg ops) b =
      (blockRecords cfg ops b).flatMap (newEvents cfg)) ∧
    (∀ t ∈ (exec cfg ops).published,
      t.recordCount = t.recordIds.length ∧ 1 ≤ t.recordCount) ∧
    (exec cfg ops).tracesEmitted = (exec cfg ops).published.length ∧
    (exec cfg (ops ++ [.stop])).openTraces.items = [] ∧
    ((exec cfg (ops ++ [.stop])).published.flatMap BlockTrace.recordIds).Perm
      ((carried cfg ops).map (fun p => p.2.id)) ∧
    ∀ p ∈ carried cfg ops, ((carried cfg ops).map (fun q => q.2.id)).count p.2.id = 1 →
      (∃ t ∈ (exec cfg (ops ++ [.stop])).published, t.blockId = p.1 ∧ p.2.id ∈ t.recordIds) ∧
      (exec cfg (ops ++ [.stop])).published.countP (fun t => p.2.id ∈ t.recordIds) = 1 := by
  have hp := exec_partition cfg ops
  have hstop : (exec cfg (ops ++ [.stop])).openTraces.items = [] := by
    rw [exec_snoc, apply, stop_closes_all]
  refine ⟨fun b => ?_,fun b => ?_,hp.sized,hp.counted,hstop,stopped_total cfg ops,?_⟩
  · rw [hp.split, arrived_carried]
    exact List.map_eq_flatMap.symm
  · rw [hp.split, arrived_carried]
    rfl
  · intro p hmem hone
    refine ⟨?_,countP_eq_one _ _ _ ((stopped_total cfg ops).count_eq _ ▸ hone)⟩
    have hsplit := (exec_partition cfg (ops ++ [.stop])).split (recordIds cfg) p.1
    have hnone : (exec cfg (ops ++ [.stop])).openTraces.get? p.1 = none :=
      OrderedDict.get?_eq_none.mpr (by simp [OrderedDict.keys, hstop])
    have harr : p.2.id ∈ arrived (recordIds cfg) (carried cfg (ops ++ [.stop])) p.1 := by
      refine List.mem_flatMap.mpr ⟨p,?_,by simp [recordIds]⟩
      simp [carried, carriedBy] at hmem ⊢
      exact hmem
    rw [← hsplit, pending, hnone, Option.elim_none, List.append_nil] at harr
    obtain ⟨t,ht,hid⟩ := List.mem_flatMap.mp harr
    obtain ⟨htm,htb⟩ := List.mem_filter.mp ht
    exact ⟨t,htm,by simpa using htb,hid⟩

end PipelineX.SessionizerPartition
