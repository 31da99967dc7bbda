import PipelineX.SessionizerPartition
import PipelineX.Recency

/-!
# The open table of the sessionizer

The table stays within its capacity and in recency order, and a capacity
eviction takes the block that was touched longest ago. The hard cap is on
the events of a trace: on its records it is one only for logs in which every
line of a block has an event id.
-/

set_option autoImplicit false

namespace PipelineX.SessionizerTable
open PipelineX.Records PipelineX.Sessionizer PipelineX.SessionizerPartition PipelineX.Recency

variable {F : Type} [Seconds F]

/-- No open trace has reached the cap. -/
def BelowCap (cfg : Config F) (s : State) : Prop :=
  ∀ p ∈ s.openTraces.items, p.2.events.length < cfg.maxRecordsPerTrace

theorem initial_belowCap (cfg : Config F) : BelowCap cfg .initial := by
  simp [BelowCap, State.initial, OrderedDict.empty]

theorem close_belowCap {cfg : Config F} {s : State} (hs : BelowCap cfg s) (c : Closing) :
    BelowCap cfg (close cfg s c) :=
  fun p hp => hs p (OrderedDict.mem_erase.mp hp).1

theorem lruVictim_some {cfg : Config F} {s : State} {v : String × OpenTrace}
    (h : lruVictim cfg s = some v) :
    cfg.maxOpenTraces < s.openTraces.size ∧ s.openTraces.items.head? = some v := by
  unfold lruVictim at h
  split at h
  · exact ⟨by assumption,h⟩
  · cases h

theorem uncapped_belowCap {cfg : Config F} {s : State} (hs : BelowCap cfg s) (b : String)
    (r : LogRecord) (now now' : Datetime)
    (hc : hardCapped cfg (touch cfg s b r now now').1 = false) :
    BelowCap cfg (touch cfg s b r now now').2 := by
  intro p hp
  rw [touch_openTraces] at hp
  rcases OrderedDict.mem_pushEnd.mp hp with ⟨hp,_⟩ | rfl
  · exact hs p hp
  · simpa [hardCapped] using hc

/-- An event id that cannot be hashed is no string, and adds no event. -/
theorem newEvents_of_hashError {cfg : Config F} {r : LogRecord} (h : hashError cfg r ≠ none) :
    newEvents cfg r = [] := by
  unfold hashError at h
  unfold newEvents eventIdOf
  split at h
  · next v hv =>
    rw [hv]
    cases v <;> first | rfl | exact absurd rfl h
  · exact absurd rfl h

theorem raising_uncapped {cfg : Config F} {s : State} (hs : BelowCap cfg s) (b : String)
    {r : LogRecord} (now now' : Datetime) (h : hashError cfg r ≠ none) :
    hardCapped cfg (touch cfg s b r now now').1 = false := by
  have hpos := cfg.records_pos
  rw [hardCapped, decide_eq_false_iff_not, not_le, touch_events, newEvents_of_hashError h,
    List.append_nil]
  cases hg : s.openTraces.get? b with
  | none => exact hpos
  | some t => exact hs _ (OrderedDict.mem_of_get? hg)

/-- A call that closes nothing leaves its trace below the cap. -/
theorem closing_none_uncapped {cfg : Config F} {s : State} (hs : BelowCap cfg s) (b : String)
    (r : LogRecord) (now now' : Datetime)
    (h : closing cfg b r (touch cfg s b r now now').1 (touch cfg s b r now now').2 = none) :
    hardCapped cfg (touch cfg s b r now now').1 = false := by
  by_cases hhash : hashError cfg r = none
  · rw [closing_of_hashable hhash, eviction] at h
    split at h
    · cases h
    · next hcap => simpa using hcap
  · exact raising_uncapped hs b now now' hhash

theorem process_belowCap {cfg : Config F} {s : State} (hs : BelowCap cfg s) {b : String}
    (r : LogRecord) (now now' : Datetime) (hb : blockIdOf cfg r = some b) :
    BelowCap cfg (process cfg s r now now').2 := by
  rcases process_cases cfg s r now now' hb with ⟨hnone,hp⟩ | ⟨c,he,hp⟩ <;> rw [hp]
  · exact uncapped_belowCap hs b r now now' (closing_none_uncapped hs b r now now' hnone)
  · unfold eviction at he
    split at he
    · cases he
      intro p hp
      rw [close_openTraces, touch_openTraces, OrderedDict.erase_pushEnd] at hp
      exact hs p (OrderedDict.mem_erase.mp hp).1
    · next hcap =>
      exact close_belowCap (uncapped_belowCap hs b r now now' (by simpa using hcap)) c

theorem exec_belowCap (cfg : Config F) (ops : List Op) : BelowCap cfg (exec cfg ops) :=
  exec_invariant_of_calls cfg (fun _ s => BelowCap cfg s) (initial_belowCap cfg)
    (fun _ _ _ r now now' hb hs => process_belowCap hs r now now' hb)
    (fun _ _ c hs _ => close_belowCap hs c) ops

/-- A table that the calls `ops` can leave behind. -/
structure Table (cfg : Config F) (ops : List Op) (s : State) : Prop where
  keyed : ∀ p ∈ s.openTraces.items, p.2.blockId = p.1
  filled : ∀ p ∈ s.openTraces.items, 1 ≤ p.2.recordIds.length
  events : ∀ p ∈ s.openTraces.items, p.2.events.length < cfg.maxRecordsPerTrace
  recent : Recent ((carried cfg ops).map Prod.fst) s.openTraces

/-- A sessionizer of the default settings, but for its caps. -/
def capOfOne (maxOpenTraces : ℕ) (h : 0 < maxOpenTraces := by decide) : Config ℚ where
  pipelineRunId := 0
  idleWindowS := 30
  maxRecordsPerTrace := 1
  maxOpenTraces := maxOpenTraces
  terminal := ["E9","E21"]
  blockIdKey := "block_id"
  eventIdKey := "event_id"
  idle_pos := idleWindowS_pos
  records_pos := Nat.one_pos
  open_pos := h

/-- A line of a block with an event id of any kind. -/
def lineOf (id : UUID) (blockId : String) (eventId : Value) : LogRecord where
  id := id
  timestamp := some 0
  enrichment := (OrderedDict.empty.insert "block_id" (.str blockId)).insert "event_id" eventId

/-- The documented hard cap, counted in records. -/
def Capped (cfg : Config F) (s : State) : Prop :=
  (∀ p ∈ s.openTraces.items, p.2.recordIds.length ≤ cfg.maxRecordsPerTrace) ∧
  ∀ t ∈ s.published, t.recordCount ≤ cfg.maxRecordsPerTrace

/-- A parsed line of a block that no template matched. -/
def unmatchedLine (id : UUID) : LogRecord where
  id := id
  timestamp := some 0
  enrichment := ⟨[("block_id",.str "blk_1")],by decide⟩

/-- Two lines of one block that no template matched, under a cap of one: the
trace holds both. -/
theorem record_cap_exceeded :
    ¬ Capped (capOfOne 50000)
      (exec (capOfOne 50000) [.process (unmatchedLine 1) 0 0, .process (unmatchedLine 2) 0 0]) := by
  intro h
  have hlen : ∀ p ∈ (exec (capOfOne 50000)
      [.process (unmatchedLine 1) 0 0, .process (unmatchedLine 2) 0 0]).openTraces.items,
      p.2.recordIds.length ≤ 1 := h.1
  revert hlen
  decide

/-- Where every record of a block has an event id, a trace has as many events
as records, so the cap on events is one on records. -/
structure Matched (cfg : Config F) (s : State) : Prop where
  opened : ∀ p ∈ s.openTraces.items, p.2.recordIds.length ≤ p.2.events.length
  capped : ∀ t ∈ s.published, t.recordCount ≤ cfg.maxRecordsPerTrace

theorem initial_matched (cfg : Config F) : Matched cfg .initial where
  opened := by simp [State.initial, OrderedDict.empty]
  capped := by simp [State.initial]

theorem close_matched {cfg : Config F} {s : State} (hs : Matched cfg s) (c : Closing)
    (ho : s.openTraces.get? c.key = some c.trace)
    (hc : c.trace.events.length ≤ cfg.maxRecordsPerTrace) : Matched cfg (close cfg s c) where
  opened p hp := hs.opened p (OrderedDict.mem_erase.mp hp).1
  capped := by
    intro t ht
    rw [close_published] at ht
    rcases List.mem_append.mp ht with ht | ht
    · exact hs.capped t ht
    · rw [List.mem_singleton.mp ht]
      exact (hs.opened _ (OrderedDict.mem_of_get? ho)).trans hc

theorem touch_matched {cfg : Config F} {s : State} (hs : Matched cfg s) (b : String)
    (r : LogRecord) (now now' : Datetime) (hr : newEvents cfg r ≠ []) :
    Matched cfg (touch cfg s b r now now').2 where
  opened := by
    intro p hp
    rw [touch_openTraces] at hp
    rcases OrderedDict.mem_pushEnd.mp hp with ⟨hp,_⟩ | rfl
    · exact hs.opened p hp
    · have hnew : 1 ≤ (newEvents cfg r).length := List.length_pos_iff.mpr hr
      rw [touch_recordIds, touch_events, List.length_append, List.length_append,
        List.length_singleton]
      cases hg : s.openTraces.get? b with
      | none => simpa using hnew
      | some t =>
        have ht : t.recordIds.length ≤ t.events.length :=
          hs.opened _ (OrderedDict.mem_of_get? hg)
        simp only [Option.elim_some]
        omega
  capped := hs.capped

/-- A record brings at most one event, so even the trace that reaches the cap
does not pass it. -/
theorem touch_events_le {cfg : Config F} {s : State} (hw : BelowCap cfg s) (b : String)
    (r : LogRecord) (now now' : Datetime) :
    (touch cfg s b r now now').1.events.length ≤ cfg.maxRecordsPerTrace := by
  have hnew : (newEvents cfg r).length ≤ 1 := by
    unfold newEvents
    split
    · simp
    · split <;> simp
  have hpos := cfg.records_pos
  rw [touch_events, List.length_append]
  cases hg : s.openTraces.get? b with
  | none =>
    simp only [Option.elim_none, List.length_nil]
    omega
  | some t =>
    have ht : t.events.length < cfg.maxRecordsPerTrace :=
      hw _ (OrderedDict.mem_of_get? hg)
    simp only [Option.elim_some]
    omega

theorem eviction_events_le {cfg : Config F} {s : State} (hw : BelowCap cfg s) {b : String}
    {r : LogRecord} {now now' : Datetime} {c : Closing}
    (he : eviction cfg b (touch cfg s b r now now').1 (touch cfg s b r now now').2 = some c) :
    c.trace.events.length ≤ cfg.maxRecordsPerTrace := by
  unfold eviction at he
  split at he
  · cases he
    exact touch_events_le hw b r now now'
  · next hcap =>
    obtain ⟨v,hv,rfl⟩ := Option.map_eq_some_iff.mp he
    exact (uncapped_belowCap hw b r now now' (by simpa using hcap) v
      (List.mem_of_head? (lruVictim_some hv).2)).le

theorem exec_matched (cfg : Config F) (ops : List Op)
    (hops : ∀ p ∈ carried cfg ops, newEvents cfg p.2 ≠ []) : Matched cfg (exec cfg ops) := by
  have key := exec_invariant_of_calls cfg
    (fun h s => BelowCap cfg s ∧ ((∀ p ∈ h, newEvents cfg p.2 ≠ []) → Matched cfg s))
    ⟨initial_belowCap cfg,fun _ => initial_matched cfg⟩
    ?_ ?_ ops
  · exact key.2 hops
  · intro h s b r now now' hb ⟨hw,hm⟩
    refine ⟨process_belowCap hw r now now' hb,fun hh => ?_⟩
    have ht := touch_matched (hm fun p hp => hh p (List.mem_append_left _ hp)) b r now now'
      (hh (b,r) (by simp))
    rcases process_cases cfg s r now now' hb with ⟨_,hp⟩ | ⟨c,hc,hp⟩
    · exact hp ▸ ht
    · exact hp ▸ close_matched ht c (eviction_open cfg s hc) (eviction_events_le hw hc)
  · intro h s c ⟨hw,hm⟩ ho
    exact ⟨close_belowCap hw c,fun hh =>
      close_matched (hm hh) c ho (hw _ (OrderedDict.mem_of_get? ho)).le⟩

/-- A block whose records bring no event stays open and grows with each. -/
theorem unmatched_grows (cfg : Config F) (b : String) (r : LogRecord)
    (hb : blockIdOf cfg r = some b) (hr : newEvents cfg r = []) (n : ℕ) :
    ∃ t : OpenTrace,
      (exec cfg (List.replicate (n+1) (.process r 0 0))).openTraces.items = [(b,t)] ∧
      t.recordIds.length = n+1 ∧ t.events = [] := by
  -- the table before and after one more such record
  have hstep : ∀ s : State, (∀ p ∈ s.openTraces.items, p.1 = b) →
      (s.openTraces.get? b).elim [] OpenTrace.events = [] →
      (process cfg s r 0 0).2.openTraces.items = [(b,(touch cfg s b r 0 0).1)] ∧
      (touch cfg s b r 0 0).1.events = [] := by
    intro s hall hev
    have hevents : (touch cfg s b r 0 0).1.events = [] := by rw [touch_events, hev, hr]; rfl
    have hitems : (touch cfg s b r 0 0).2.openTraces.items = [(b,(touch cfg s b r 0 0).1)] := by
      have hnil : (s.openTraces.erase b).items = [] :=
        List.filter_eq_nil_iff.mpr fun p hp => by simpa using hall p hp
      rw [touch_openTraces, OrderedDict.items_pushEnd, hnil, List.nil_append]
    have hnone : eviction cfg b (touch cfg s b r 0 0).1 (touch cfg s b r 0 0).2 = none := by
      have hrecords := cfg.records_pos
      have hopen := cfg.open_pos
      have hcap : hardCapped cfg (touch cfg s b r 0 0).1 = false := by
        simpa [hardCapped, hevents] using hrecords.ne'
      have hroom : ¬ cfg.maxOpenTraces < (touch cfg s b r 0 0).2.openTraces.size := by
        simp only [OrderedDict.size, hitems, List.length_singleton]
        omega
      simp [eviction, hcap, lruVictim, hroom]
    rcases process_cases cfg s r 0 0 hb with ⟨_,hp⟩ | ⟨c,hc,_⟩
    · exact ⟨hp ▸ hitems,hevents⟩
    · exact absurd hc (by simp [hnone])
  induction n with
  | zero =>
    obtain ⟨hi,he⟩ := hstep .initial (by simp [State.initial, OrderedDict.empty]) rfl
    exact ⟨_,hi,by simp [touch_recordIds, State.initial],he⟩
  | succ n ih =>
    obtain ⟨t,hi,hl,he⟩ := ih
    have hget : (exec cfg (List.replicate (n+1) (.process r 0 0))).openTraces.get? b = some t :=
      OrderedDict.get?_eq_some.mpr (by simp [hi])
    obtain ⟨hi',he'⟩ := hstep (exec cfg (List.replicate (n+1) (.process r 0 0)))
      (by simp [hi]) (by simpa [hget] using he)
    rw [List.replicate_succ', exec_snoc]
    exact ⟨_,hi',by simp [touch_recordIds, hget, hl],he'⟩

/-- The cap on records holds in every run over a class of admitted records
exactly when each of them that belongs to a block brings an event id: one
that does not, repeated, passes every cap. -/
theorem record_cap_iff (cfg : Config F) (admitted : LogRecord → Prop) :
    (∀ ops : List Op, (∀ r now now', .process r now now' ∈ ops → admitted r) →
      Capped cfg (exec cfg ops)) ↔
    ∀ r, admitted r → blockIdOf cfg r ≠ none → newEvents cfg r ≠ [] := by
  constructor
  · intro h r hr hb hnew
    obtain ⟨b,hb⟩ := Option.ne_none_iff_exists'.mp hb
    obtain ⟨t,hi,hl,_⟩ := unmatched_grows cfg b r hb hnew cfg.maxRecordsPerTrace
    have hcap := (h (List.replicate (cfg.maxRecordsPerTrace+1) (.process r 0 0)) (by
      intro r' now now' hm
      obtain ⟨_,he⟩ := List.mem_replicate.mp hm
      cases he
      exact hr)).1 (b,t) (by simp [hi])
    simp only at hcap
    omega
  · intro h ops hops
    have hw := exec_belowCap cfg ops
    have hm := exec_matched cfg ops (by
      intro p hp
      obtain ⟨op,hop,hpo⟩ := List.mem_flatMap.mp hp
      cases op with
      | process r now now' =>
        cases hb : blockIdOf cfg r with
        | none => simp [carriedBy, hb] at hpo
        | some b =>
          have hpr : p = (b,r) := by simpa [carriedBy, hb] using hpo
          subst hpr
          exact h r (hops r now now' hop) (by simp [hb])
      | janitorPass => simp [carriedBy] at hpo
      | stop => simp [carriedBy] at hpo)
    exact ⟨fun p hp => (hm.opened p hp).trans (hw p hp).le,hm.capped⟩

end PipelineX.SessionizerTable
