import PipelineX.Repositories
import PipelineX.SessionizerPartition

/-!
# Storing what the sessionizer emits

A row of `block_traces` is keyed by the block, and a block can be traced more
than once. How often it is traced is read off the table of open traces and
the emitted ones together: closing a trace changes nothing, and a record adds
a trace exactly if its block is not open.
-/

set_option autoImplicit false

namespace PipelineX.TraceStore
open PipelineX.Records PipelineX.Sql PipelineX.Repositories
open PipelineX.Sessionizer PipelineX.SessionizerPartition
open PipelineX.Repositories.PostgresLogRepository

/-- A trace without its record ids, which are not persisted. -/
def persisted (t : BlockTrace) : BlockTrace := { t with recordIds := [] }

/-- `save_trace` for each trace in turn. -/
def saveTraces (describe : Violation → String) (db : PostgresLogRepository)
    (traces : List BlockTrace) : Except PyError PostgresLogRepository :=
  traces.foldlM (saveTrace describe) db

/-- Both repositories take the traces one by one and return each once. -/
def Stored (describe : Violation → String) (clock clock' : String → Datetime)
    (traces : List BlockTrace) : Prop :=
  (traces.foldl InMemoryLogRepository.saveTrace .empty).allTraces = traces ∧
  ∃ db, saveTraces describe .empty traces = .ok db ∧ ∀ scan, scan.Perm db.traces.rows →
    (allTraces clock clock' scan).Perm (traces.map persisted)

theorem memory_saveTraces (m : InMemoryLogRepository) (traces : List BlockTrace) :
    (traces.foldl InMemoryLogRepository.saveTrace m).allTraces = m.traces ++ traces := by
  induction traces generalizing m with
  | nil => simp [InMemoryLogRepository.allTraces]
  | cons t traces ih =>
    rw [List.foldl_cons, ih, InMemoryLogRepository.saveTrace, List.append_assoc,
      List.singleton_append]

/-- The statements of `saveTraces` are inserts of one row each. -/
theorem saveTraces_eq (describe : Violation → String) (db : PostgresLogRepository)
    (traces : List BlockTrace) : saveTraces describe db traces =
      (inserted describe "save_trace_batch" (db.traces.insertEach (traces.map traceToRow))).map
        (fun table => { db with traces := table }) := by
  induction traces generalizing db with
  | nil => rfl
  | cons t traces ih =>
    have hcons : db.traces.insertEach ((t::traces).map traceToRow) =
        (db.traces.insert [traceToRow t]).bind (fun table =>
          table.insertEach (traces.map traceToRow)) := rfl
    have hsave : saveTraces describe db (t::traces) =
        (saveTrace describe db t).bind (fun db => saveTraces describe db traces) := rfl
    rw [hcons, hsave]
    cases hi : db.traces.insert [traceToRow t] with
    | error e =>
      have hone : saveTrace describe db t =
          .error (.repositoryError ("save_trace_batch failed: " ++ describe e)) := by
        simp only [saveTrace, saveTraceBatch, List.map_cons, List.map_nil, hi]
        rfl
      rw [hone]
      rfl
    | ok table =>
      have hone : saveTrace describe db t = .ok { db with traces := table } := by
        simp only [saveTrace, saveTraceBatch, List.map_cons, List.map_nil, hi]
        rfl
      rw [hone]
      exact ih { db with traces := table }

theorem rowToTrace_traceToRow (now now' : Datetime) (t : BlockTrace) :
    rowToTrace now now' (traceToRow t) = persisted t :=
  rowToTrace_eq now now' (traceToRow t)

theorem reason_length (r : ClosedReason) : r.text.length ≤ 20 := by
  cases r <;> decide

/-- The traces that fit into the empty table. -/
theorem fits_iff (traces : List BlockTrace) :
    (Table.empty : Table blockTraces).Fits (traces.map traceToRow) ↔
      (traces.map BlockTrace.blockId).Nodup ∧ ∀ t ∈ traces, t.blockId.length ≤ 64 := by
  have hkeys : (traces.map traceToRow).map blockTraces.key = traces.map BlockTrace.blockId := by
    rw [List.map_map]
    rfl
  have hadmits (t : BlockTrace) :
      blockTraces.admits (traceToRow t) = true ↔ t.blockId.length ≤ 64 := by
    simp [blockTraces, traceToRow, reason_length]
  rw [Table.Fits, Table.rows_empty, List.nil_append, hkeys, List.forall_mem_map, and_comm]
  exact and_congr_right fun _ => forall₂_congr fun t _ => hadmits t

theorem stored_iff (describe : Violation → String) (clock clock' : String → Datetime)
    (traces : List BlockTrace) : Stored describe clock clock' traces ↔
      (traces.map BlockTrace.blockId).Nodup ∧ ∀ t ∈ traces, t.blockId.length ≤ 64 := by
  rw [← fits_iff]
  constructor
  · rintro ⟨_,db,hdb,_⟩
    rw [saveTraces_eq] at hdb
    cases hi : (Table.empty : Table blockTraces).insertEach (traces.map traceToRow) with
    | error e =>
      rw [show PostgresLogRepository.empty.traces = .empty from rfl, hi] at hdb
      cases hdb
    | ok table => exact ((Table.insertEach_eq_ok _ _ _).mp hi).1
  · intro hfits
    obtain ⟨table,hrows⟩ := hfits.extends
    have hi := (Table.insertEach_eq_ok _ table _).mpr ⟨hfits,hrows⟩
    refine ⟨memory_saveTraces .empty traces,{ PostgresLogRepository.empty with traces := table },
      ?_,fun scan hscan => ?_⟩
    · rw [saveTraces_eq, show PostgresLogRepository.empty.traces = .empty from rfl, hi]
      rfl
    · have hread := hscan.map (fun row => rowToTrace (clock row.blockId) (clock' row.blockId) row)
      rw [hrows, Table.rows_empty, List.nil_append, List.map_map] at hread
      exact hread.trans (List.Perm.of_eq (List.map_congr_left fun t _ =>
        rowToTrace_traceToRow _ _ t))

variable {F : Type} [Seconds F]

/-- The block of each trace so far, emitted or open. -/
def traced (s : State) : List String := s.published.map BlockTrace.blockId ++ s.openTraces.keys

/-- The traces that a call opens. -/
def opened (cfg : Config F) (s : State) : Op → List String
  | .process r _ _ => (blockIdOf cfg r).elim [] (fun b => if b ∈ s.openTraces.keys then [] else [b])
  | .janitorPass => []
  | .stop => []

def Keyed (s : State) : Prop := ∀ p ∈ s.openTraces.items, p.2.blockId = p.1

theorem keys_perm (d : OrderedDict String OpenTrace) (b : String) :
    ((if b ∈ d.keys then [b] else []) ++ (d.erase b).keys).Perm d.keys := by
  have h := (d.items_perm b).map Prod.fst
  rw [List.map_append] at h
  cases hg : d.get? b with
  | none =>
    rw [if_neg (OrderedDict.get?_eq_none.mp hg)]
    rw [hg] at h
    exact h
  | some t =>
    rw [if_pos (OrderedDict.fst_mem_keys (OrderedDict.mem_of_get? hg))]
    rw [hg] at h
    exact h

theorem close_keyed (cfg : Config F) {s : State} (hs : Keyed s) (c : Closing) :
    Keyed (close cfg s c) :=
  fun p hp => hs p (OrderedDict.mem_erase.mp hp).1

theorem close_traced (cfg : Config F) {s : State} (hs : Keyed s) (c : Closing)
    (ho : s.openTraces.get? c.key = some c.trace) :
    (traced (close cfg s c)).Perm (traced s) := by
  have hmem := OrderedDict.mem_of_get? ho
  have hperm := keys_perm s.openTraces c.key
  rw [if_pos (OrderedDict.fst_mem_keys hmem)] at hperm
  have hblock : (blockTrace cfg c.trace c.reason).blockId = c.key := hs _ hmem
  rw [traced, close_published, close_openTraces, List.map_append, List.append_assoc,
    List.map_singleton, hblock]
  exact hperm.append_left _

theorem closings_traced (cfg : Config F) {s : State} (hs : Keyed s) (cs : List Closing)
    (ho : ∀ c ∈ cs, s.openTraces.get? c.key = some c.trace) (hn : (cs.map Closing.key).Nodup) :
    (traced (cs.foldl (close cfg) s)).Perm (traced s) :=
  (foldl_close_invariant cfg (fun u => Keyed u ∧ (traced u).Perm (traced s))
    (fun _ c hu ho => ⟨close_keyed cfg hu.1 c,(close_traced cfg hu.1 c ho).trans hu.2⟩)
    cs s ⟨hs,List.Perm.refl _⟩ ho hn).2

theorem touch_traced (cfg : Config F) (s : State) (b : String) (r : LogRecord)
    (now now' : Datetime) : (traced (touch cfg s b r now now').2).Perm
      ((if b ∈ s.openTraces.keys then [] else [b]) ++ traced s) := by
  have hperm := keys_perm s.openTraces b
  rw [traced, touch_published, touch_openTraces, OrderedDict.keys_pushEnd, traced]
  by_cases hb : b ∈ s.openTraces.keys
  · rw [if_pos hb] at hperm ⊢
    exact (List.perm_append_comm.trans hperm).append_left _
  · rw [if_neg hb] at hperm ⊢
    rw [← List.append_assoc]
    exact List.perm_append_comm.trans ((hperm.append_left _).append_left [b])

/-- Only a record of a block that is not open adds a trace. -/
theorem apply_traced (cfg : Config F) {h : List (String × LogRecord)} {s : State}
    (hs : Partition cfg h s) (op : Op) :
    (traced (apply cfg s op)).Perm (opened cfg s op ++ traced s) := by
  cases op with
  | process r now now' =>
    cases hb : blockIdOf cfg r with
    | none => simp [apply, process_ignored cfg s r now now' hb, opened, hb]
    | some b =>
      have htouch := touch_traced cfg s b r now now'
      simp only [apply, opened, hb, Option.elim_some]
      rcases process_cases cfg s r now now' hb with ⟨_,hp⟩ | ⟨c,hc,hp⟩
      · rw [hp]
        exact htouch
      · rw [hp]
        have hkeyed := (touch_partition hs b r now now').keyed
        exact (close_traced cfg hkeyed c (eviction_open cfg s hc)).trans htouch
  | janitorPass =>
    exact closings_traced cfg hs.keyed _ (janitorClosings_open cfg s)
      (janitorClosings_nodup cfg s)
  | stop =>
    rw [apply, stop_eq_closings]
    exact closings_traced cfg hs.keyed _ (stopClosings_open s) (stopClosings_nodup s)

/-- The block id fits its column and no trace of the block was emitted before. -/
def Admitted (cfg : Config F) (s : State) : Op → Prop
  | .process r _ _ => ∀ b, blockIdOf cfg r = some b →
      b.length ≤ 64 ∧ ∀ t ∈ s.published, t.blockId ≠ b
  | .janitorPass => True
  | .stop => True

/-- Every call of the run meets the condition in the state that it finds. -/
def AllAdmitted (cfg : Config F) (ops : List Op) : Prop :=
  ∀ pre op post, ops = pre ++ op::post → Admitted cfg (exec cfg pre) op

/-- No block has two traces, and their ids fit the column. -/
structure Storable (s : State) : Prop where
  once : (traced s).Nodup
  short : ∀ b ∈ traced s, b.length ≤ 64

theorem Storable.stored {s : State} (hs : Storable s) (describe : Violation → String)
    (clock clock' : String → Datetime) : Stored describe clock clock' s.published :=
  (stored_iff describe clock clock' s.published).mpr
    ⟨(List.nodup_append.mp hs.once).1,fun _ ht => hs.short _
      (List.mem_append_left _ (List.mem_map_of_mem ht))⟩

theorem opened_storable (cfg : Config F) {s : State} (hs : Storable s) (op : Op)
    (hop : Admitted cfg s op) :
    (opened cfg s op ++ traced s).Nodup ∧ ∀ b ∈ opened cfg s op, b.length ≤ 64 := by
  cases op with
  | process r now now' =>
    cases hb : blockIdOf cfg r with
    | none => simpa [opened, hb] using hs.once
    | some b =>
      obtain ⟨hlen,hnew⟩ := hop b hb
      simp only [opened, hb, Option.elim_some]
      by_cases hopen : b ∈ s.openTraces.keys
      · simpa [hopen] using hs.once
      · rw [if_neg hopen, List.singleton_append]
        refine ⟨List.nodup_cons.mpr ⟨fun hm => ?_,hs.once⟩,by simpa using hlen⟩
        rcases List.mem_append.mp hm with hm | hm
        · obtain ⟨t,ht,hid⟩ := List.mem_map.mp hm
          exact hnew t ht hid
        · exact hopen hm
  | janitorPass => simpa [opened] using hs.once
  | stop => simpa [opened] using hs.once

theorem AllAdmitted.append_left {cfg : Config F} {ops rest : List Op}
    (h : AllAdmitted cfg (ops ++ rest)) : AllAdmitted cfg ops := by
  intro pre op post he
  exact h pre op (post ++ rest) (by rw [he, List.append_assoc, List.cons_append])

theorem AllAdmitted.snoc {cfg : Config F} {ops : List Op} {op : Op} (h : AllAdmitted cfg ops)
    (hop : Admitted cfg (exec cfg ops) op) : AllAdmitted cfg (ops ++ [op]) := by
  intro pre x post he
  rcases append_singleton_cases he with ⟨rfl,rfl⟩ | ⟨rest,hrest⟩
  · exact hop
  · exact h pre x rest hrest

theorem exec_storable (cfg : Config F) (ops : List Op) (h : AllAdmitted cfg ops) :
    Storable (exec cfg ops) := by
  induction ops using List.reverseRecOn with
  | nil => exact ⟨List.nodup_nil,fun b hb => absurd hb List.not_mem_nil⟩
  | append_singleton ops op ih =>
    have hs := ih h.append_left
    have hop := h ops op [] rfl
    have hperm := apply_traced cfg (exec_partition cfg ops) op
    obtain ⟨hnodup,hshort⟩ := opened_storable cfg hs op hop
    rw [exec_snoc]
    refine ⟨hperm.nodup_iff.mpr hnodup,fun b hb => ?_⟩
    rcases List.mem_append.mp (hperm.mem_iff.mp hb) with hb | hb
    · exact hshort b hb
    · exact hs.short b hb

/-- A block once traced stays traced. -/
theorem exec_traced (cfg : Config F) (pre post : List Op) :
    (traced (exec cfg pre)).Subperm (traced (exec cfg (pre ++ post))) := by
  induction post using List.reverseRecOn with
  | nil => rw [List.append_nil]
  | append_singleton post op ih =>
    rw [← List.append_assoc, exec_snoc]
    have hperm := apply_traced cfg (exec_partition cfg (pre ++ post)) op
    exact ih.trans ((List.sublist_append_right _ _).subperm.trans hperm.symm.subperm)

/-- A call that does not meet the condition gives a block a second trace or a
trace with too long an id. -/
theorem admitted_of_storable (cfg : Config F) {h : List (String × LogRecord)} {s : State}
    (hs : Partition cfg h s) (op : Op) (hnext : Storable (apply cfg s op)) :
    Admitted cfg s op := by
  cases op with
  | process r now now' =>
    intro b hb
    have hperm := apply_traced cfg hs (.process r now now')
    have honce := hperm.nodup_iff.mp hnext.once
    simp only [opened, hb, Option.elim_some] at hperm honce
    have hmem : b ∈ (if b ∈ s.openTraces.keys then [] else [b]) ++ traced s := by
      by_cases hopen : b ∈ s.openTraces.keys
      · exact List.mem_append_right _ (List.mem_append_right _ hopen)
      · rw [if_neg hopen]
        exact List.mem_cons_self
    refine ⟨hnext.short b (hperm.mem_iff.mpr hmem),fun t ht hid => ?_⟩
    have hpub : b ∈ s.published.map BlockTrace.blockId := hid ▸ List.mem_map_of_mem ht
    by_cases hopen : b ∈ s.openTraces.keys
    · rw [if_pos hopen, List.nil_append] at honce
      exact (List.nodup_append.mp honce).2.2 b hpub b hopen rfl
    · rw [if_neg hopen, List.singleton_append] at honce
      exact (List.nodup_cons.mp honce).1 (List.mem_append_left _ hpub)
  | janitorPass => trivial
  | stop => trivial

theorem nodup_of_subperm {α : Type*} {xs ys : List α} (h : xs.Subperm ys) (hy : ys.Nodup) :
    xs.Nodup := by
  obtain ⟨zs,hperm,hsub⟩ := h
  exact hperm.nodup_iff.mp (hy.sublist hsub)

theorem Storable.of_subperm {s t : State} (ht : Storable t)
    (h : (traced s).Subperm (traced t)) : Storable s :=
  ⟨nodup_of_subperm h ht.once,fun b hb => ht.short b (h.subset hb)⟩

/-- After `stop` what was traced is what was emitted. -/
theorem stopped_storable (describe : Violation → String) (clock clock' : String → Datetime)
    (cfg : Config F) (ops : List Op)
    (h : Stored describe clock clock' (exec cfg (ops ++ [.stop])).published) :
    Storable (exec cfg (ops ++ [.stop])) := by
  have hempty : (exec cfg (ops ++ [.stop])).openTraces.items = [] := by
    rw [exec_snoc, apply, stop_closes_all]
  have htraced : traced (exec cfg (ops ++ [.stop])) =
      (exec cfg (ops ++ [.stop])).published.map BlockTrace.blockId := by
    simp [traced, OrderedDict.keys, hempty]
  obtain ⟨honce,hshort⟩ := (stored_iff describe clock clock' _).mp h
  exact ⟨htraced ▸ honce,htraced ▸ List.forall_mem_map.mpr hshort⟩

/-- In a run that ends with `stop` the traces emitted up to any moment are
stored by both repositories exactly if no call brought a record whose block id
is too long or whose block had a trace emitted already. -/
theorem traces_stored_iff (describe : Violation → String) (clock clock' : String → Datetime)
    (cfg : Config F) (ops : List Op) :
    (∀ pre, pre <+: ops ++ [.stop] →
      Stored describe clock clock' (exec cfg pre).published) ↔ AllAdmitted cfg ops := by
  constructor
  · intro hall pre op post he
    have hend := stopped_storable describe clock clock' cfg ops (hall _ (List.prefix_refl _))
    have hsub := exec_traced cfg (pre ++ [op]) (post ++ [.stop])
    have hsplit : pre ++ [op] ++ (post ++ [.stop]) = ops ++ [.stop] := by simp [he]
    rw [hsplit] at hsub
    have hnext := hend.of_subperm hsub
    rw [exec_snoc] at hnext
    exact admitted_of_storable cfg (exec_partition cfg pre) op hnext
  · intro hall pre hpre
    have hstop : AllAdmitted cfg (ops ++ [.stop]) := hall.snoc trivial
    obtain ⟨rest,hrest⟩ := hpre
    exact (exec_storable cfg pre (hrest ▸ hstop).append_left).stored describe clock clock'

/-- A line that ends its block. -/
def deletedLine : LogRecord where
  id := 0
  timestamp := some 0
  enrichment := ⟨[("block_id",.str "blk_1"),("event_id",.str "E21")],by decide⟩

/-- The block's trace is closed, and one more line of the block comes. -/
def reopened : List Op :=
  [.process deletedLine 0 0,.janitorPass,.process deletedLine 0 0,.stop]

theorem reopened_not_stored : ¬ Stored (fun _ => "duplicate key") (fun _ => 0) (fun _ => 0)
    (exec (Config.default 0) reopened).published := by
  rw [stored_iff]
  intro h
  have hids : (exec (Config.default 0) reopened).published.map BlockTrace.blockId =
      ["blk_1","blk_1"] := by decide
  rw [hids] at h
  exact absurd h.1 (by decide)

end PipelineX.TraceStore
