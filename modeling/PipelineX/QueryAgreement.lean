import PipelineX.Repositories
import Mathlib.Data.Set.List
import Mathlib.Data.List.Nodup

/-!
# The two repositories under one query

The conditions of the in-memory loop and of the SQL statement are brought to
one form, field by field. They part in two places: a run id is compared as a
text by one and as a UUID by the other, and a row without a timestamp is read
back with one.
-/

set_option autoImplicit false

namespace PipelineX.QueryAgreement
open PipelineX.Records PipelineX.Sql PipelineX.Repositories
open PipelineX.Repositories.InMemoryLogRepository PipelineX.Repositories.PostgresLogRepository

/-- The filters that both repositories read alike. -/
structure Common (f : QueryFilters) (r : LogRecord) : Prop where
  severity : ∀ s, f.severity = some s → r.severity.text = s
  source : ∀ s, f.source = some s → r.source = s
  after : ∀ d, f.after = some d → ∃ t, r.timestamp = some t ∧ d ≤ t
  before : ∀ d, f.before = some d → ∃ t, r.timestamp = some t ∧ t ≤ d

/-- The record meets the filters, with the run id compared as a UUID. -/
structure Meets (chars : CharTable) (f : QueryFilters) (r : LogRecord) : Prop where
  common : Common f r
  run : ∀ t, f.pipelineRunId = some t → ∃ u, Uuid.parse chars t = .ok u ∧
    r.pipelineRunId = some u

/-- The run id filter is written as `str` writes UUIDs. -/
def Canonical (chars : CharTable) (f : QueryFilters) : Prop :=
  ∀ t u, f.pipelineRunId = some t → Uuid.parse chars t = .ok u → Uuid.str u = t

/-- `query` returns the same set of records from both. -/
def Agree (chars : CharTable) (clock : UUID → Datetime) (f : QueryFilters)
    (m : InMemoryLogRepository) (scan : List RecordRow) : Prop :=
  ∃ out, PostgresLogRepository.query chars clock f scan = .ok out ∧
    ∀ r, r ∈ out ↔ r ∈ InMemoryLogRepository.query m f

theorem elim_false_eq_false {α : Type*} (o : Option α) (p : α → Bool) :
    o.elim false p = false ↔ ∀ x, o = some x → p x = false := by
  cases o <;> simp

theorem elim_true_eq_false {α : Type*} (o : Option α) (p : α → Bool) :
    o.elim true p = false ↔ ∃ x, o = some x ∧ p x = false := by
  cases o <;> simp

theorem skipped_eq_false (f : QueryFilters) (r : LogRecord) :
    skipped f r = false ↔ Common f r ∧ ∀ t, f.pipelineRunId = some t → runText r = t := by
  simp only [skipped, Bool.or_eq_false_iff, elim_false_eq_false, elim_true_eq_false,
    bne_eq_false_iff_eq, decide_eq_false_iff_not, not_lt]
  constructor
  · rintro ⟨⟨⟨⟨hsev,hsrc⟩,hrun⟩,hafter⟩,hbefore⟩
    exact ⟨⟨hsev,hsrc,hafter,hbefore⟩,hrun⟩
  · rintro ⟨⟨hsev,hsrc,hafter,hbefore⟩,hrun⟩
    exact ⟨⟨⟨⟨hsev,hsrc⟩,hrun⟩,hafter⟩,hbefore⟩

/-- While the limit is out of reach the loop is a filter. -/
theorem queryLoop_eq_filter (f : QueryFilters) (rs results : List LogRecord)
    (h : (results.length+rs.length : ℕ) ≤ f.limit) :
    queryLoop f results rs = results ++ rs.filter (fun r => !skipped f r) := by
  induction rs generalizing results with
  | nil => simp [queryLoop]
  | cons r rs ih =>
    rw [List.length_cons] at h
    rw [queryLoop]
    by_cases hs : skipped f r = true
    · rw [if_pos hs, ih results (by omega), List.filter_cons_of_neg (by simp [hs])]
    · rw [if_neg hs, List.filter_cons_of_pos (by simp [hs])]
      have hlen : (results ++ [r]).length = results.length+1 := by simp
      by_cases hl : f.limit ≤ (results ++ [r]).length
      · have hnil : rs = [] := List.eq_nil_of_length_eq_zero (by omega)
        rw [if_pos hl, hnil, List.filter_nil]
      · rw [if_neg hl, ih _ (by omega), List.append_assoc, List.singleton_append]

theorem mem_query (m : InMemoryLogRepository) (f : QueryFilters)
    (h : (m.records.length : ℤ) ≤ f.limit) (r : LogRecord) :
    r ∈ InMemoryLogRepository.query m f ↔
      r ∈ m.records ∧ Common f r ∧ ∀ t, f.pipelineRunId = some t → runText r = t := by
  rw [InMemoryLogRepository.query, queryLoop_eq_filter f m.records [] (by simpa using h),
    List.nil_append, List.mem_filter, Bool.not_eq_true', skipped_eq_false]

/-- One clause for an optional filter. -/
theorem forall_mem_toList_map {α β : Type*} (o : Option α) (g : α → β) (P : β → Prop) :
    (∀ c ∈ o.toList.map g, P c) ↔ ∀ x, o = some x → P (g x) := by
  cases o <;> simp

section
variable (r : LogRecord)

theorem severityIs_row (s : String) :
    severityIs s (recordToRow r) = some true ↔ r.severity.text = s := by
  simp [severityIs, recordToRow, Sql.compare]

theorem sourceIs_row (s : String) : sourceIs s (recordToRow r) = some true ↔ r.source = s := by
  simp [sourceIs, recordToRow, Sql.compare]

theorem runIs_row (u : UUID) :
    runIs u (recordToRow r) = some true ↔ r.pipelineRunId = some u := by
  simp [runIs, recordToRow, Sql.compare]

theorem compare_stamp (p : Datetime → Prop) [DecidablePred p] (t : Option Datetime) :
    Sql.compare (fun s : Stamp => decide (p s.instant)) (t.map .aware) = some true ↔
      ∃ d, t = some d ∧ p d := by
  cases t with
  | none => simp [Sql.compare]
  | some d =>
    simp only [Sql.compare, Option.map_some, Option.some.injEq, exists_eq_left']
    exact decide_eq_true_iff

theorem notBefore_row (d : Datetime) :
    notBefore d (recordToRow r) = some true ↔ ∃ t, r.timestamp = some t ∧ d ≤ t :=
  compare_stamp (fun t => d ≤ t) r.timestamp

theorem notAfter_row (d : Datetime) :
    notAfter d (recordToRow r) = some true ↔ ∃ t, r.timestamp = some t ∧ t ≤ d :=
  compare_stamp (fun t => t ≤ d) r.timestamp

end

/-- On a stored record the clauses say what the filters say. -/
theorem clauses_meet (chars : CharTable) (f : QueryFilters)
    (haccepted : ∀ t, f.pipelineRunId = some t → ∃ u, Uuid.parse chars t = .ok u) :
    ∃ cs, clauses chars f = .ok cs ∧
      ∀ r, (∀ c ∈ cs, c (recordToRow r) = some true) ↔ Meets chars f r := by
  cases hrun : f.pipelineRunId with
  | none =>
    refine ⟨_,by rw [clauses, hrun]; rfl,fun r => ?_⟩
    simp only [List.forall_mem_append, forall_mem_toList_map, severityIs_row, sourceIs_row,
      notBefore_row, notAfter_row]
    constructor
    · rintro ⟨⟨⟨⟨hsev,hsrc⟩,_⟩,hafter⟩,hbefore⟩
      exact ⟨⟨hsev,hsrc,hafter,hbefore⟩,by simp [hrun]⟩
    · rintro ⟨⟨hsev,hsrc,hafter,hbefore⟩,_⟩
      exact ⟨⟨⟨⟨hsev,hsrc⟩,by simp⟩,hafter⟩,hbefore⟩
  | some t =>
    obtain ⟨u,hu⟩ := haccepted t hrun
    refine ⟨_,by rw [clauses, hrun]; simp only [hu]; rfl,fun r => ?_⟩
    simp only [List.forall_mem_append, forall_mem_toList_map, severityIs_row, sourceIs_row,
      notBefore_row, notAfter_row]
    constructor
    · rintro ⟨⟨⟨⟨hsev,hsrc⟩,hone⟩,hafter⟩,hbefore⟩
      have hid := (runIs_row r u).mp (hone _ List.mem_cons_self)
      refine ⟨⟨hsev,hsrc,hafter,hbefore⟩,fun t' ht' => ⟨u,?_,hid⟩⟩
      rw [← Option.some.inj (hrun.symm.trans ht'), hu]
    · rintro ⟨⟨hsev,hsrc,hafter,hbefore⟩,hid⟩
      obtain ⟨v,hv,hid⟩ := hid t hrun
      obtain rfl : u = v := Except.ok.inj (hu.symm.trans hv)
      refine ⟨⟨⟨⟨hsev,hsrc⟩,fun c hc => ?_⟩,hafter⟩,hbefore⟩
      rw [List.mem_singleton.mp hc]
      exact (runIs_row r u).mpr hid

/-- What `query` of PostgreSQL returns for a stored record. -/
def asRead (clock : UUID → Datetime) (r : LogRecord) : LogRecord :=
  { r with timestamp := some (r.timestamp.getD (clock r.id)) }

theorem asRead_eq_self (clock : UUID → Datetime) {r : LogRecord} (h : r.timestamp ≠ none) :
    asRead clock r = r := by
  obtain ⟨t,ht⟩ := Option.ne_none_iff_exists'.mp h
  cases r
  cases ht
  rfl

theorem recordToRow_injective : Function.Injective recordToRow := by
  intro r q h
  have hsome (r : LogRecord) : rowToRecord 0 (recordToRow r) =
      .ok { r with timestamp := some (r.timestamp.getD 0) } := rowToRecord_recordToRow 0 r
  have heq := Except.ok.inj ((hsome r).symm.trans ((congrArg (rowToRecord 0) h).trans (hsome q)))
  have ht : r.timestamp = q.timestamp :=
    Option.map_injective (fun a b hab => Stamp.aware.inj hab) (congrArg RecordRow.timestamp h)
  cases r
  cases q
  simp only [LogRecord.mk.injEq] at heq ht ⊢
  exact ⟨heq.1,heq.2.1,ht,heq.2.2.2⟩

theorem mapM_map_ok {α β γ ε : Type} (f : β → Except ε γ) (h : α → β) (g : α → γ)
    (hf : ∀ x, f (h x) = .ok (g x)) (xs : List α) : (xs.map h).mapM f = .ok (xs.map g) := by
  induction xs with
  | nil => rfl
  | cons x xs ih =>
    rw [List.map_cons, List.mapM_cons, hf, ih]
    rfl

/-- The rows that the server returns are those of the stored records. -/
theorem scan_eq_map {records : List LogRecord} {scan : List RecordRow}
    (h : scan.Perm (records.map recordToRow)) :
    ∃ rs : List LogRecord, rs.Perm records ∧ scan = rs.map recordToRow := by
  have hrange : scan ∈ Set.range (List.map recordToRow) := by
    rw [Set.range_list_map]
    intro row hrow
    obtain ⟨r,_,hr⟩ := List.mem_map.mp (h.mem_iff.mp hrow)
    exact ⟨r,hr⟩
  obtain ⟨rs,rfl⟩ := hrange
  exact ⟨rs,(List.map_perm_map_iff recordToRow_injective).mp h,rfl⟩

theorem query_of_clauses (chars : CharTable) (clock : UUID → Datetime) (f : QueryFilters)
    (scan : List RecordRow) {cs : List (RecordRow → Truth)} (hcs : clauses chars f = .ok cs)
    (hlimit : 0 ≤ f.limit) : PostgresLogRepository.query chars clock f scan =
      ((select cs scan).take f.limit.toNat).mapM (fun row => rowToRecord (clock row.id) row) := by
  have hneg : ¬ f.limit < 0 := not_lt.mpr hlimit
  rw [PostgresLogRepository.query, hcs]
  simp only [bind, Except.bind, if_neg hneg]

open Classical in
/-- The answer of PostgreSQL, when the limit is out of reach. -/
theorem postgres_query (chars : CharTable) (clock : UUID → Datetime) (f : QueryFilters)
    (records : List LogRecord) (scan : List RecordRow)
    (hscan : scan.Perm (records.map recordToRow)) (hlimit : (records.length : ℤ) ≤ f.limit)
    (haccepted : ∀ t, f.pipelineRunId = some t → ∃ u, Uuid.parse chars t = .ok u) :
    ∃ out, PostgresLogRepository.query chars clock f scan = .ok out ∧
      ∀ q, q ∈ out ↔ ∃ r ∈ records, Meets chars f r ∧ q = asRead clock r := by
  obtain ⟨cs,hcs,hmeets⟩ := clauses_meet chars f haccepted
  obtain ⟨rs,hrs,rfl⟩ := scan_eq_map hscan
  have hselect : select cs (rs.map recordToRow) =
      (rs.filter (fun r => decide (Meets chars f r))).map recordToRow := by
    rw [select, List.filter_map]
    refine congrArg _ (List.filter_congr fun r _ => ?_)
    rw [Function.comp_apply, decide_eq_decide, conjunction_eq_true, List.forall_mem_map]
    exact hmeets r
  have hlen : (select cs (rs.map recordToRow)).length ≤ f.limit.toNat := by
    have hle := List.length_filter_le (fun r => decide (Meets chars f r)) rs
    rw [hselect, List.length_map]
    have hrecords := hrs.length_eq
    omega
  refine ⟨(rs.filter (fun r => decide (Meets chars f r))).map (asRead clock),?_,fun q => ?_⟩
  · rw [query_of_clauses chars clock f _ hcs (by omega), List.take_of_length_le hlen, hselect]
    exact mapM_map_ok (fun row => rowToRecord (clock row.id) row) recordToRow (asRead clock)
      (fun r => rowToRecord_recordToRow (clock r.id) r) _
  · constructor
    · intro hq
      obtain ⟨r,hr,rfl⟩ := List.mem_map.mp hq
      obtain ⟨hr,hm⟩ := List.mem_filter.mp hr
      exact ⟨r,hrs.mem_iff.mp hr,of_decide_eq_true hm,rfl⟩
    · rintro ⟨r,hr,hm,rfl⟩
      exact List.mem_map_of_mem (List.mem_filter.mpr ⟨hrs.mem_iff.mpr hr,decide_eq_true hm⟩)

/-- A text that `UUID` accepts and that is the run id's own is canonical. -/
theorem run_of_runText (chars : CharTable) (r : LogRecord) {t : String} {u : UUID}
    (hu : Uuid.parse chars t = .ok u) (ht : runText r = t) :
    r.pipelineRunId = some u ∧ Uuid.str u = t := by
  unfold runText at ht
  cases hr : r.pipelineRunId with
  | none =>
    rw [hr, Option.elim_none] at ht
    subst ht
    cases hu
  | some v =>
    rw [hr, Option.elim_some] at ht
    subst ht
    have huv := Uuid.parse_str chars v u hu
    exact ⟨congrArg some huv.symm,congrArg Uuid.str huv⟩

/-- The records that a table's keys tell apart. -/
theorem ids_nodup (db : PostgresLogRepository) {records : List LogRecord}
    (hstored : db.records.rows.Perm (records.map recordToRow)) :
    (records.map LogRecord.id).Nodup := by
  have hkeys := (hstored.map RecordRow.id).nodup_iff.mp db.records.distinct
  rw [List.map_map] at hkeys
  exact hkeys

/-- Saving the same batch in both keeps the same records in both. -/
theorem saveBatch_stored (describe : Violation → String) (m : InMemoryLogRepository)
    (db db' : PostgresLogRepository) (records : List LogRecord)
    (hstored : db.records.rows.Perm (m.records.map recordToRow))
    (h : PostgresLogRepository.saveBatch describe db records = .ok db') :
    db'.records.rows.Perm
      ((InMemoryLogRepository.saveBatch m records).records.map recordToRow) := by
  rw [InMemoryLogRepository.saveBatch, List.map_append]
  unfold PostgresLogRepository.saveBatch at h
  split at h
  · next hnil =>
    cases h
    simpa [hnil] using hstored
  · cases ht : db.records.insert (records.map recordToRow) with
    | error e =>
      rw [ht] at h
      cases h
    | ok table =>
      rw [ht] at h
      cases h
      rw [((Table.insert_eq_ok _ _ _).mp ht).2]
      exact hstored.append_right _

/-- The two repositories give the same set of records for a query exactly if
every stored record that it selects has a timestamp and, as soon as one is
selected, a run id in the filter is spelt as `str` spells it. -/
theorem query_agree_iff (chars : CharTable) (clock : UUID → Datetime) (f : QueryFilters)
    (m : InMemoryLogRepository) (db : PostgresLogRepository)
    (hstored : db.records.rows.Perm (m.records.map recordToRow)) (scan : List RecordRow)
    (hscan : scan.Perm db.records.rows) (hlimit : (m.records.length : ℤ) ≤ f.limit)
    (haccepted : ∀ t, f.pipelineRunId = some t → ∃ u, Uuid.parse chars t = .ok u) :
    Agree chars clock f m scan ↔
      ∀ r ∈ m.records, Meets chars f r → r.timestamp ≠ none ∧ Canonical chars f := by
  obtain ⟨out,hout,hmem⟩ := postgres_query chars clock f m.records scan (hscan.trans hstored)
    hlimit haccepted
  constructor
  · rintro ⟨out',hout',hagree⟩ r hr hm
    obtain rfl : out = out' := Except.ok.inj (hout.symm.trans hout')
    have hread := (hagree _).mp ((hmem _).mpr ⟨r,hr,hm,rfl⟩)
    obtain ⟨hstill,_,htext⟩ := (mem_query m f hlimit _).mp hread
    -- ids are distinct, so the record that came back is the stored one
    have heq : asRead clock r = r :=
      List.inj_on_of_nodup_map (ids_nodup db hstored) hstill hr rfl
    refine ⟨fun hn => ?_,fun t u ht hu => ?_⟩
    · have hts := congrArg LogRecord.timestamp heq
      rw [hn] at hts
      cases hts
    · exact (run_of_runText chars _ hu (htext t ht)).2
  · intro hall
    refine ⟨out,hout,fun q => ?_⟩
    rw [hmem, mem_query m f hlimit]
    constructor
    · rintro ⟨r,hr,hm,rfl⟩
      obtain ⟨hts,hcanon⟩ := hall r hr hm
      rw [asRead_eq_self clock hts]
      refine ⟨hr,hm.common,fun t ht => ?_⟩
      obtain ⟨u,hu,hrun⟩ := hm.run t ht
      rw [runText, hrun, Option.elim_some]
      exact hcanon t u ht hu
    · rintro ⟨hq,hcommon,htext⟩
      have hm : Meets chars f q := by
        refine ⟨hcommon,fun t ht => ?_⟩
        obtain ⟨u,hu⟩ := haccepted t ht
        exact ⟨u,hu,(run_of_runText chars q hu (htext t ht)).1⟩
      exact ⟨q,hq,hm,(asRead_eq_self clock (hall q hq hm).1).symm⟩

/-- A record of run 10. -/
def ofRunTen : LogRecord where
  id := 1
  pipelineRunId := some 10
  timestamp := some 0

def oneRow : PostgresLogRepository where
  records := ⟨[recordToRow ofRunTen],List.nodup_singleton _,by decide⟩
  traces := .empty
  anomalies := .empty

def oneRecord : InMemoryLogRepository where
  records := [ofRunTen]
  traces := []
  anomalies := []

/-- The id of run 10, as `str` writes it or without hyphens. -/
def ofRun (hyphens : Bool) : QueryFilters where
  pipelineRunId := some (if hyphens then "00000000-0000-0000-0000-00000000000a"
    else "0000000000000000000000000000000a")

theorem ofRun_accepted (hyphens : Bool) (t : String) (ht : (ofRun hyphens).pipelineRunId = some t) :
    ∃ u, Uuid.parse .ascii t = .ok u := by
  cases ht
  cases hyphens
  · exact ⟨10,by decide⟩
  · exact ⟨10,by decide⟩

/-- Without the hyphens only PostgreSQL finds the record. -/
theorem unhyphenated_disagree : ¬ Agree .ascii (fun _ => 0) (ofRun false) oneRecord
    oneRow.records.rows := by
  rintro ⟨out,hout,hagree⟩
  have hnone : InMemoryLogRepository.query oneRecord (ofRun false) = [] := by decide
  have hout' : out = [ofRunTen] := by
    refine (Except.ok.inj (hout.symm.trans ?_))
    decide
  have hmem := (hagree ofRunTen).mp (hout' ▸ List.mem_cons_self)
  rw [hnone] at hmem
  cases hmem

/-- Two records of run 10, and one of another run that has no timestamp. -/
def threeRecords : InMemoryLogRepository where
  records := [ofRunTen,{ id := 2, pipelineRunId := some 11 },
    { id := 3, pipelineRunId := some 10, timestamp := some 5 }]
  traces := []
  anomalies := []

def threeRows : PostgresLogRepository where
  records := ⟨threeRecords.records.map recordToRow,by decide,by decide⟩
  traces := .empty
  anomalies := .empty

theorem query_agree_iff_hyphenated : Agree .ascii (fun _ => 0) (ofRun true) threeRecords
    threeRows.records.rows.reverse := by
  have hparse : Uuid.parse .ascii "00000000-0000-0000-0000-00000000000a" = .ok 10 := by decide
  refine (query_agree_iff .ascii (fun _ => 0) (ofRun true) threeRecords threeRows
    (List.Perm.refl _) _ (List.reverse_perm _) (by decide) (ofRun_accepted true)).mpr ?_
  intro r hr hm
  have hcanonical : Canonical .ascii (ofRun true) := by
    intro t u ht hu
    cases ht
    cases Except.ok.inj (hparse.symm.trans hu)
    decide
  simp only [threeRecords, List.mem_cons, List.not_mem_nil, or_false] at hr
  rcases hr with rfl | rfl | rfl
  · exact ⟨Option.some_ne_none _,hcanonical⟩
  · obtain ⟨u,hu,hrun⟩ := hm.run _ rfl
    cases Except.ok.inj (hparse.symm.trans hu)
    exact absurd hrun (by decide)
  · exact ⟨Option.some_ne_none _,hcanonical⟩

end PipelineX.QueryAgreement
