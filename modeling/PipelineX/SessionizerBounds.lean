import PipelineX.SessionizerPartition
import Mathlib.Data.Int.Order.Basic
import Mathlib.Algebra.GroupWithZero.Nat
import Mathlib.Order.MinMax

/-!
# The time bounds of a trace

A trace begins with bounds that are those of its first record, or readings of
the wall clock when that record has no timestamp, and every timestamp widens
them. So what an emitted trace says of its time is right about its own records
or stretched to the clock.
-/

set_option autoImplicit false

namespace PipelineX.SessionizerBounds
open PipelineX.Records PipelineX.Sessionizer PipelineX.SessionizerPartition

variable {F : Type} [Seconds F]

/-- A record of a block, with the two readings of the clock at its call. -/
structure Arrival where
  record : LogRecord
  now : Datetime
  now' : Datetime
  deriving DecidableEq

def arrivalBy (cfg : Config F) (b : String) : Op → List Arrival
  | .process r now now' => if blockIdOf cfg r = some b then [⟨r,now,now'⟩] else []
  | .janitorPass => []
  | .stop => []

/-- The records of block `b`, in the order in which they were processed. -/
def arrivals (cfg : Config F) (ops : List Op) (b : String) : List Arrival :=
  ops.flatMap (arrivalBy cfg b)

/-- How many records of block `b` these traces hold. -/
def held (traces : List BlockTrace) (b : String) : ℕ :=
  ((traces.filter (fun t => t.blockId = b)).map BlockTrace.recordCount).sum

/-- The records of a trace that was emitted after `earlier`: those of its block
that come next, as many as it counts. -/
def members (cfg : Config F) (ops : List Op) (earlier : List BlockTrace) (t : BlockTrace) :
    List Arrival :=
  ((arrivals cfg ops t.blockId).drop (held earlier t.blockId)).take t.recordCount

def stamps (g : List Arrival) : List Datetime := g.filterMap (fun a => a.record.timestamp)

/-- The trace's bounds are those of its records' timestamps, if they have any. -/
def OwnBounds (t : BlockTrace) (g : List Arrival) : Prop :=
  stamps g ≠ [] → some t.firstTimestamp = (stamps g).min? ∧ some t.lastTimestamp = (stamps g).max?

/-- The first record has a timestamp, or none has, or the readings of the clock
that stand in for it fall between two that the others have. -/
def Anchored (g : List Arrival) : Prop :=
  ∀ a ∈ g.head?, a.record.timestamp = none → stamps g ≠ [] →
    (∃ d ∈ stamps g, d ≤ a.now) ∧ ∃ d ∈ stamps g, a.now' ≤ d

/-- A bound as the trace keeps it: from what the first record set, through the
timestamps. -/
def bound (f : Datetime → Datetime → Datetime) (reading : Arrival → Datetime) :
    List Arrival → Option Datetime
  | [] => none
  | a::g => some ((stamps (a::g)).foldl f (a.record.timestamp.getD (reading a)))

structure Spans (first last : Datetime) (ids : List UUID) (g : List Arrival) : Prop where
  ids : g.map (fun a => a.record.id) = ids
  first : bound min Arrival.now g = some first
  last : bound max Arrival.now' g = some last

section
variable {f : Datetime → Datetime → Datetime} {reading : Arrival → Datetime}

theorem bound_singleton (hf : ∀ d, f d d = d) (a : Arrival) :
    bound f reading [a] = some (a.record.timestamp.getD (reading a)) := by
  cases ht : a.record.timestamp <;> simp [bound, stamps, ht, hf]

theorem bound_snoc {g : List Arrival} {d : Datetime} (hg : bound f reading g = some d)
    (a : Arrival) : bound f reading (g ++ [a]) = some (a.record.timestamp.elim d (f d)) := by
  cases g with
  | nil => cases hg
  | cons b g =>
    obtain rfl := Option.some.inj hg
    rw [List.cons_append, bound, ← List.cons_append, stamps, List.filterMap_append,
      List.foldl_append]
    cases ht : a.record.timestamp <;> simp [ht, stamps]

end

theorem add_firstTs (t : OpenTrace) (e : Option String) (rid : UUID) (ts : Option Datetime) :
    (t.add e rid ts).firstTs = ts.elim t.firstTs (min t.firstTs) := by
  cases ts with
  | none => rfl
  | some d =>
    simp only [OpenTrace.add, Option.elim_some]
    split
    · next h => exact (min_eq_right (le_of_lt h)).symm
    · next h => exact (min_eq_left (not_lt.mp h)).symm

theorem add_lastTs (t : OpenTrace) (e : Option String) (rid : UUID) (ts : Option Datetime) :
    (t.add e rid ts).lastTs = ts.elim t.lastTs (max t.lastTs) := by
  cases ts with
  | none => rfl
  | some d =>
    simp only [OpenTrace.add, Option.elim_some]
    split
    · next h => exact (max_eq_right (le_of_lt h)).symm
    · next h => exact (max_eq_left (not_lt.mp h)).symm

theorem touch_firstTs_eq (cfg : Config F) (s : State) (b : String) (r : LogRecord)
    (now now' : Datetime) : (touch cfg s b r now now').1.firstTs =
      r.timestamp.elim (found s b r now now').firstTs (min (found s b r now now').firstTs) := by
  rw [touch_trace, ← add_firstTs _ (eventIdOf cfg r) r.id]

theorem touch_lastTs_eq (cfg : Config F) (s : State) (b : String) (r : LogRecord)
    (now now' : Datetime) : (touch cfg s b r now now').1.lastTs =
      r.timestamp.elim (found s b r now now').lastTs (max (found s b r now now').lastTs) := by
  rw [touch_trace, ← add_lastTs _ (eventIdOf cfg r) r.id]

/-- A record widens the bounds of the trace that it is added to. -/
theorem touch_spans (cfg : Config F) (s : State) (b : String) (r : LogRecord)
    (now now' : Datetime) {g : List Arrival} (hnew : s.openTraces.get? b = none → g = [])
    (hold : ∀ trace, s.openTraces.get? b = some trace →
      Spans trace.firstTs trace.lastTs trace.recordIds g) :
    Spans (touch cfg s b r now now').1.firstTs (touch cfg s b r now now').1.lastTs
      (touch cfg s b r now now').1.recordIds (g ++ [⟨r,now,now'⟩]) := by
  rw [touch_firstTs_eq, touch_lastTs_eq, touch_recordIds]
  cases hg : s.openTraces.get? b with
  | none =>
    obtain rfl := hnew hg
    have hfound : found s b r now now' =
        .new b (r.timestamp.getD now) (r.timestamp.getD now') := by rw [found, hg]; rfl
    rw [List.nil_append, hfound]
    refine ⟨rfl,(bound_singleton min_self _).trans ?_,(bound_singleton max_self _).trans ?_⟩
    · cases ht : r.timestamp <;> simp [OpenTrace.new]
    · cases ht : r.timestamp <;> simp [OpenTrace.new]
  | some trace =>
    have hs := hold trace hg
    have hfound : found s b r now now' = trace := by rw [found, hg]; rfl
    rw [hfound]
    exact ⟨by rw [List.map_append, hs.ids]; rfl,bound_snoc hs.first _,bound_snoc hs.last _⟩

section
variable {cfg : Config F} {ops : List Op}

theorem arrivals_snoc (op : Op) (b : String) :
    arrivals cfg (ops ++ [op]) b = arrivals cfg ops b ++ arrivalBy cfg b op := by
  simp [arrivals]

theorem arrivalBy_other {op : Op} (h : carriedBy cfg op = []) (b : String) :
    arrivalBy cfg b op = [] := by
  cases op with
  | process r now now' =>
    cases hb : blockIdOf cfg r with
    | none => simp [arrivalBy, hb]
    | some a => simp [carriedBy, hb] at h
  | janitorPass => rfl
  | stop => rfl

theorem held_snoc (traces : List BlockTrace) (t : BlockTrace) (b : String) :
    held (traces ++ [t]) b = held traces b + if t.blockId = b then t.recordCount else 0 := by
  by_cases h : t.blockId = b <;> simp [held, h]

theorem take_drop_append {α : Type} {xs : List α} (ys : List α) {m n : ℕ}
    (h : ((xs.drop m).take n).length = n) :
    ((xs ++ ys).drop m).take n = (xs.drop m).take n := by
  rw [List.length_take] at h
  rw [List.drop_append, List.take_append_of_le_length (by omega)]

/-- The emitted traces take the records of their blocks from the front, and an
open trace has those that are left. -/
structure Bounded (cfg : Config F) (ops : List Op) (s : State) : Prop where
  keyed : ∀ p ∈ s.openTraces.items, p.2.blockId = p.1
  counted : ∀ t ∈ s.published, t.recordCount = t.recordIds.length
  closed : ∀ earlier t later, s.published = earlier ++ t::later →
    Spans t.firstTimestamp t.lastTimestamp t.recordIds (members cfg ops earlier t)
  within : ∀ b, held s.published b ≤ (arrivals cfg ops b).length
  opened : ∀ b trace, s.openTraces.get? b = some trace →
    Spans trace.firstTs trace.lastTs trace.recordIds
      ((arrivals cfg ops b).drop (held s.published b))
  idle : ∀ b, s.openTraces.get? b = none → (arrivals cfg ops b).drop (held s.published b) = []

theorem initial_bounded (cfg : Config F) : Bounded cfg [] .initial where
  keyed := by simp [State.initial, OrderedDict.empty]
  counted := by simp [State.initial]
  closed := by simp [State.initial]
  within _ := Nat.le_refl 0
  opened := by simp [State.initial]
  idle _ _ := rfl

theorem other_bounded {s : State} (hs : Bounded cfg ops s) {op : Op}
    (h : carriedBy cfg op = []) : Bounded cfg (ops ++ [op]) s := by
  have harrivals (b : String) : arrivals cfg (ops ++ [op]) b = arrivals cfg ops b := by
    rw [arrivals_snoc, arrivalBy_other h, List.append_nil]
  constructor
  · exact hs.keyed
  · exact hs.counted
  · intro earlier t later hp
    rw [members, harrivals]
    exact hs.closed earlier t later hp
  · intro b
    rw [harrivals]
    exact hs.within b
  · intro b trace hg
    rw [harrivals]
    exact hs.opened b trace hg
  · intro b hg
    rw [harrivals]
    exact hs.idle b hg

theorem arrivals_process {b : String} {r : LogRecord} (now now' : Datetime)
    (hb : blockIdOf cfg r = some b) (a : String) :
    arrivals cfg (ops ++ [.process r now now']) a =
      arrivals cfg ops a ++ if b = a then [⟨r,now,now'⟩] else [] := by
  rw [arrivals_snoc]
  simp [arrivalBy, hb]

theorem held_close {s : State} {c : Closing} (hkey : c.trace.blockId = c.key) (b : String) :
    held (close cfg s c).published b =
      held s.published b + if c.key = b then c.trace.recordIds.length else 0 := by
  rw [close_published, held_snoc]
  simp only [blockTrace, hkey]

theorem touch_bounded {s : State} (hs : Bounded cfg ops s) {b : String} {r : LogRecord}
    (now now' : Datetime) (hb : blockIdOf cfg r = some b) :
    Bounded cfg (ops ++ [.process r now now']) (touch cfg s b r now now').2 where
  keyed p hp := by
    rw [touch_openTraces] at hp
    rcases OrderedDict.mem_pushEnd.mp hp with ⟨hp,_⟩ | rfl
    · exact hs.keyed p hp
    · exact touch_blockId s b r now now' hs.keyed
  counted := hs.counted
  closed earlier t later hp := by
    have hspans := hs.closed earlier t later hp
    have hcount : (members cfg ops earlier t).length = t.recordCount := by
      rw [hs.counted t (hp ▸ by simp), ← hspans.ids, List.length_map]
    rw [members, arrivals_process now now' hb, take_drop_append _ hcount]
    exact hspans
  within a := by
    rw [arrivals_process now now' hb, List.length_append]
    exact (hs.within a).trans (Nat.le_add_right _ _)
  opened a trace hg := by
    rw [arrivals_process now now' hb, touch_published, List.drop_append_of_le_length (hs.within a)]
    rw [touch_openTraces] at hg
    by_cases hba : b = a
    · subst hba
      rw [OrderedDict.get?_pushEnd_self] at hg
      rw [if_pos rfl, ← Option.some.inj hg]
      exact touch_spans cfg s b r now now' (hs.idle b) (hs.opened b)
    · rw [OrderedDict.get?_pushEnd_of_ne _ _ (Ne.symm hba)] at hg
      rw [if_neg hba, List.append_nil]
      exact hs.opened a trace hg
  idle a hg := by
    rw [touch_openTraces] at hg
    have hba : b ≠ a := by
      rintro rfl
      rw [OrderedDict.get?_pushEnd_self] at hg
      cases hg
    rw [OrderedDict.get?_pushEnd_of_ne _ _ (Ne.symm hba)] at hg
    rw [arrivals_process now now' hb, if_neg hba, List.append_nil]
    exact hs.idle a hg

theorem close_bounded {s : State} (hs : Bounded cfg ops s) {c : Closing}
    (ho : s.openTraces.get? c.key = some c.trace) : Bounded cfg ops (close cfg s c) := by
  have hkey : c.trace.blockId = c.key := hs.keyed _ (OrderedDict.mem_of_get? ho)
  have hspans := hs.opened c.key c.trace ho
  have hlen : ((arrivals cfg ops c.key).drop (held s.published c.key)).length =
      c.trace.recordIds.length := by
    rw [← hspans.ids, List.length_map]
  have hother {b : String} (h : b ≠ c.key) : held (close cfg s c).published b =
      held s.published b := by rw [held_close hkey, if_neg (Ne.symm h), Nat.add_zero]
  refine ⟨fun p hp => hs.keyed p (OrderedDict.mem_erase.mp hp).1,?counted,?closed,?within,
    ?opened,?idle⟩
  case counted =>
    intro t ht
    rw [close_published] at ht
    rcases List.mem_append.mp ht with ht | ht
    · exact hs.counted t ht
    · rw [List.mem_singleton.mp ht]
      rfl
  case closed =>
    intro earlier t later hp
    rw [close_published] at hp
    rcases append_singleton_cases hp with ⟨rfl,rfl⟩ | ⟨rest,hrest⟩
    · rw [members]
      simp only [blockTrace, hkey]
      rwa [List.take_of_length_le (le_of_eq hlen)]
    · exact hs.closed earlier t rest hrest
  case within =>
    intro b
    rw [held_close hkey]
    split
    · next h =>
      subst h
      rw [List.length_drop] at hlen
      have hle := hs.within c.key
      omega
    · exact hs.within b
  case opened =>
    intro b trace hg
    rw [close_openTraces] at hg
    have hb : b ≠ c.key := by
      rintro rfl
      rw [OrderedDict.get?_erase_self] at hg
      cases hg
    rw [OrderedDict.get?_erase_of_ne _ hb] at hg
    rw [hother hb]
    exact hs.opened b trace hg
  case idle =>
    intro b hg
    by_cases hb : b = c.key
    · subst hb
      rw [held_close hkey, if_pos rfl, ← List.drop_drop, List.drop_of_length_le (le_of_eq hlen)]
    · rw [close_openTraces, OrderedDict.get?_erase_of_ne _ hb] at hg
      rw [hother hb]
      exact hs.idle b hg

end

theorem exec_bounded (cfg : Config F) (ops : List Op) : Bounded cfg ops (exec cfg ops) := by
  refine exec_invariant_of_ops cfg (Bounded cfg) (initial_bounded cfg) ?_
    (fun _ _ _ h hs => other_bounded hs h) (fun _ _ _ hs ho => close_bounded hs ho) ops
  intro ops s b r now now' hb hs
  have ht := touch_bounded hs now now' hb
  rcases process_cases cfg s r now now' hb with ⟨_,hp⟩ | ⟨c,hc,hp⟩
  · exact hp ▸ ht
  · exact hp ▸ close_bounded ht (eviction_open cfg s hc)

/-- The bounds are the records' own exactly when what the first record set was
not outside of their timestamps. -/
theorem Spans.own_iff {t : BlockTrace} {g : List Arrival}
    (h : Spans t.firstTimestamp t.lastTimestamp t.recordIds g) : OwnBounds t g ↔ Anchored g := by
  cases g with
  | nil => cases h.first
  | cons a g =>
    have hfirst := Option.some.inj h.first
    have hlast := Option.some.inj h.last
    rw [List.foldl_min] at hfirst
    rw [List.foldl_max] at hlast
    cases hmin : (stamps (a::g)).min? with
    | none =>
      have hnil := List.min?_eq_none_iff.mp hmin
      exact ⟨fun _ _ _ _ hne => absurd hnil hne,fun _ hne => absurd hnil hne⟩
    | some low =>
      have hne : stamps (a::g) ≠ [] := by
        intro hnil
        rw [hnil] at hmin
        cases hmin
      obtain ⟨high,hmax⟩ := Option.isSome_iff_exists.mp
        (Option.isSome_iff_ne_none.mpr (mt List.max?_eq_none_iff.mp hne))
      obtain ⟨hlow,hlow_le⟩ := List.min?_eq_some_iff.mp hmin
      obtain ⟨hhigh,hhigh_le⟩ := List.max?_eq_some_iff.mp hmax
      rw [hmin, Option.getD_some] at hfirst
      rw [hmax, Option.getD_some] at hlast
      unfold OwnBounds Anchored
      rw [hmin, hmax, ← hfirst, ← hlast]
      simp only [Option.some.injEq, min_eq_right_iff, max_eq_right_iff, List.head?_cons,
        Option.mem_def, forall_eq', forall_const, hne, ne_eq, not_false_eq_true]
      cases ht : a.record.timestamp with
      | some d =>
        have hd : d ∈ stamps (a::g) := by simp [stamps, ht]
        simp [hlow_le d hd, hhigh_le d hd]
      | none =>
        constructor
        · rintro ⟨hfirst,hlast⟩ _
          exact ⟨⟨low,hlow,hfirst⟩,high,hhigh,hlast⟩
        · intro h
          obtain ⟨⟨d,hd,hnow⟩,e,he,hnow'⟩ := h rfl
          exact ⟨(hlow_le d hd).trans hnow,hnow'.trans (hhigh_le e he)⟩

/-- Of every trace that a run emits: its records are the next ones of its
block, and its bounds are theirs exactly when the first has a timestamp, or
none has, or the readings of the clock taken for the first fall between two
that the others have. -/
theorem own_bounds_iff (cfg : Config F) (ops : List Op) (earlier later : List BlockTrace)
    {t : BlockTrace} (h : (exec cfg ops).published = earlier ++ t::later) :
    (members cfg ops earlier t).map (fun a => a.record.id) = t.recordIds ∧
    (OwnBounds t (members cfg ops earlier t) ↔ Anchored (members cfg ops earlier t)) := by
  have hspans := (exec_bounded cfg ops).closed earlier t later h
  exact ⟨hspans.ids,hspans.own_iff⟩

def line (id : UUID) (t : Option Datetime) : LogRecord where
  id := id
  timestamp := t
  enrichment := ⟨[("block_id",.str "blk_1")],List.nodup_singleton "block_id"⟩

/-- Two lines out of order, both with a timestamp. -/
theorem own_bounds_of_two_lines :
    let ops : List Op := [.process (line 0 (some 7)) 90 91,.process (line 1 (some 3)) 92 93,.stop]
    let t : BlockTrace := ⟨"blk_1",[],[0,1],3,7,2,0,.shutdown⟩
    (members (Config.default 0) ops [] t).map (fun a => a.record.id) = [0,1] ∧
    (OwnBounds t (members (Config.default 0) ops [] t) ↔
      Anchored (members (Config.default 0) ops [] t)) :=
  own_bounds_iff (Config.default 0) _ [] [] rfl

/-- A line without a timestamp opens the trace at 90 on the wall clock, and the
only timestamp is 3. -/
theorem clock_bounds_of_untimed_line :
    let ops : List Op := [.process (line 0 none) 90 91,.process (line 1 (some 3)) 92 93,.stop]
    ¬ ∀ earlier t later, (exec (Config.default 0) ops).published = earlier ++ t::later →
      OwnBounds t (members (Config.default 0) ops earlier t) := by
  intro ops h
  have hbounds := h [] ⟨"blk_1",[],[0,1],3,91,2,0,.shutdown⟩ [] rfl (by decide)
  exact absurd hbounds.2 (by decide)

end PipelineX.SessionizerBounds
