import PipelineX.QueryAgreement
import PipelineX.Counter

/-!
# What `InMemoryLogRepository` answers

The records that calls leave in the repository, `query` as a filter and a
prefix, and `aggregate` as a count of the stored records. The loop of `query`
tests its limit after it has appended, so no limit keeps it from returning one
record.
-/

set_option autoImplicit false

namespace PipelineX.Repositories.InMemoryLogRepository
open PipelineX.Records

def save (m : InMemoryLogRepository) (record : LogRecord) : InMemoryLogRepository :=
  { m with records := m.records ++ [record] }

def saveTraceBatch (m : InMemoryLogRepository) (traces : List BlockTrace) :
    InMemoryLogRepository :=
  { m with traces := m.traces ++ traces }

def clear (_ : InMemoryLogRepository) : InMemoryLogRepository := ⟨[],[],[]⟩

structure Aggregation where
  groupBy : String
  metric : String := "count"
  deriving DecidableEq, Repr

/-- `{agg.group_by: key, "count": count}`. -/
def row (groupBy key : String) (count : ℕ) : OrderedDict String Value :=
  (OrderedDict.empty.insert groupBy (.str key)).insert "count" (.int count)

/-- The key of a record's bucket. -/
def keyOf (groupBy : String) (r : LogRecord) : String :=
  if groupBy = "severity" then r.severity.text else r.source

/-- `aggregate`: the rows of its result. -/
def aggregate (m : InMemoryLogRepository) (agg : Aggregation) :
    Except PyError (List (OrderedDict String Value)) :=
  if agg.metric ≠ "count" then
    .error (.other "NotImplementedError" ("unsupported metric: " ++ agg.metric))
  else if agg.groupBy ∉ ["severity","source"] then
    .error (.other "NotImplementedError" ("unsupported group_by: " ++ agg.groupBy))
  else
    let buckets := Counter.count (m.records.map (keyOf agg.groupBy))
    .ok ((Counter.mostCommon buckets).map (fun p => row agg.groupBy p.1 p.2))

end PipelineX.Repositories.InMemoryLogRepository

namespace PipelineX.MemoryQueries
open PipelineX.Records PipelineX.Repositories PipelineX.Repositories.InMemoryLogRepository
open PipelineX.QueryAgreement

inductive Call where
  | save (record : LogRecord)
  | saveBatch (records : List LogRecord)
  | saveTrace (trace : BlockTrace)
  | saveTraceBatch (traces : List BlockTrace)
  | saveAnomaly (anomaly : AnomalyEvent)
  | clear

def apply (m : InMemoryLogRepository) : Call → InMemoryLogRepository
  | .save record => m.save record
  | .saveBatch records => m.saveBatch records
  | .saveTrace trace => m.saveTrace trace
  | .saveTraceBatch traces => m.saveTraceBatch traces
  | .saveAnomaly anomaly => m.saveAnomaly anomaly
  | .clear => m.clear

def exec (calls : List Call) : InMemoryLogRepository := calls.foldl apply .empty

def Call.isClear : Call → Bool
  | .clear => true
  | _ => false

def Call.records : Call → List LogRecord
  | .save record => [record]
  | .saveBatch records => records
  | _ => []

/-- The records that the calls since the last `clear` have saved, in order. -/
def stored (calls : List Call) : List LogRecord :=
  ((calls.reverse.takeWhile (fun c => !c.isClear)).reverse).flatMap Call.records

theorem apply_records (m : InMemoryLogRepository) (c : Call) :
    (apply m c).records = if c.isClear then [] else m.records ++ c.records := by
  cases c <;> simp [apply, Call.isClear, Call.records, InMemoryLogRepository.save,
    InMemoryLogRepository.saveBatch, InMemoryLogRepository.saveTrace,
    InMemoryLogRepository.saveTraceBatch, InMemoryLogRepository.saveAnomaly,
    InMemoryLogRepository.clear]

theorem stored_snoc (calls : List Call) (c : Call) :
    stored (calls ++ [c]) = if c.isClear then [] else stored calls ++ c.records := by
  cases hc : c.isClear <;> simp [stored, hc]

theorem exec_records (calls : List Call) : (exec calls).records = stored calls := by
  induction calls using List.reverseRecOn with
  | nil => rfl
  | append_singleton calls c ih =>
    have hexec : exec (calls ++ [c]) = apply (exec calls) c := by
      rw [exec, List.foldl_append]
      rfl
    rw [hexec, apply_records, ih, stored_snoc]

/-- The record satisfies all filters that are given. -/
def Satisfies (f : QueryFilters) (r : LogRecord) : Prop :=
  Common f r ∧ ∀ t, f.pipelineRunId = some t → runText r = t

instance (f : QueryFilters) : DecidablePred (Satisfies f) := fun r =>
  decidable_of_iff (skipped f r = false) (skipped_eq_false f r)

theorem skipped_eq (f : QueryFilters) (r : LogRecord) : skipped f r = !decide (Satisfies f r) := by
  cases hs : skipped f r with
  | false =>
    have hyes : Satisfies f r := (skipped_eq_false f r).mp hs
    simp [hyes]
  | true =>
    have hno : ¬ Satisfies f r := fun h => by
      rw [(skipped_eq_false f r).mpr h] at hs
      cases hs
    simp [hno]

/-- The loop returns the first records that satisfy the filters, as many as the
limit leaves room for and at least one. -/
theorem queryLoop_eq_take (f : QueryFilters) (results rs : List LogRecord) :
    queryLoop f results rs = results ++
      (rs.filter (Satisfies f)).take (max 1 (f.limit-results.length)).toNat := by
  induction rs generalizing results with
  | nil => simp [queryLoop]
  | cons r rs ih =>
    rw [queryLoop, skipped_eq]
    by_cases hr : Satisfies f r
    · have hlen : ((results ++ [r]).length : ℤ) = results.length+1 := by simp
      rw [List.filter_cons_of_pos (by simpa using hr)]
      simp only [hr, decide_true, Bool.not_true, Bool.false_eq_true, if_false, hlen]
      split
      · next hl =>
        -- the limit is reached with this record, or had been before it
        have hone : (max 1 (f.limit-results.length)).toNat = 1 := by omega
        rw [hone]
        rfl
      · next hl =>
        have hmore : (max 1 (f.limit-results.length)).toNat =
            (max 1 (f.limit-(results ++ [r]).length)).toNat+1 := by omega
        rw [ih, hmore, List.take_succ_cons, List.append_assoc]
        rfl
    · rw [List.filter_cons_of_neg (by simpa using hr)]
      simp only [hr, decide_false, Bool.not_false, if_true]
      exact ih results

theorem query_eq_take (m : InMemoryLogRepository) (f : QueryFilters) :
    m.query f = (m.records.filter (Satisfies f)).take (max 1 f.limit).toNat := by
  rw [query, queryLoop_eq_take, List.nil_append, List.length_nil, Nat.cast_zero, sub_zero]

/-- `query` after these calls is the first `limit` of the stored records that
satisfy the filters, and so no more than the limit. -/
structure FilterThenTake (calls : List Call) (f : QueryFilters) : Prop where
  result : (exec calls).query f = ((stored calls).filter (Satisfies f)).take f.limit.toNat
  bounded : (((exec calls).query f).length : ℤ) ≤ f.limit

/-- With a limit that is not negative, `query` is filter-then-take exactly when
the limit is at least one or no stored record satisfies the filters. -/
theorem query_filter_then_take_iff (calls : List Call) (f : QueryFilters) (hf : 0 ≤ f.limit) :
    FilterThenTake calls f ↔
      1 ≤ f.limit ∨ ∀ r ∈ stored calls, ¬ Satisfies f r := by
  have hquery := query_eq_take (exec calls) f
  rw [exec_records] at hquery
  constructor
  · intro h
    by_contra hno
    rw [not_or, not_le] at hno
    have hnone : (stored calls).filter (Satisfies f) = [] := by
      have hzero : f.limit.toNat = 0 := by omega
      have hempty := h.result
      rw [hquery, hzero, List.take_zero] at hempty
      have hone : (max 1 f.limit).toNat = 1 := by omega
      rw [hone] at hempty
      cases hm : (stored calls).filter (Satisfies f) with
      | nil => rfl
      | cons r rs =>
        rw [hm] at hempty
        cases hempty
    exact hno.2 fun r hr hs => by
      have hmem : r ∈ (stored calls).filter (Satisfies f) :=
        List.mem_filter.mpr ⟨hr,by simpa using hs⟩
      rw [hnone] at hmem
      cases hmem
  · rintro (hpos | hnone)
    · have hmax : max 1 f.limit = f.limit := by omega
      rw [hmax] at hquery
      refine ⟨hquery,?_⟩
      rw [hquery, List.length_take]
      omega
    · have hnil : (stored calls).filter (Satisfies f) = [] :=
        List.filter_eq_nil_iff.mpr fun r hr => by simpa using hnone r hr
      rw [hnil, List.take_nil] at hquery
      exact ⟨by rw [hquery, hnil, List.take_nil],by rw [hquery]; exact hf⟩

/-- Three of four records are of one source, one of them saved in a batch. -/
def fourSaved : List Call :=
  [.save { id := 0, source := "a" },.save { id := 1, source := "b" },
    .saveBatch [{ id := 2, source := "a" },{ id := 3, source := "a" }]]

theorem query_four_saved : FilterThenTake fourSaved { source := some "a", limit := 2 } :=
  (query_filter_then_take_iff fourSaved { source := some "a", limit := 2 } (by decide)).mpr
    (Or.inl (by decide))

/-- A repository with one record. -/
def oneSaved : List Call := [.save { id := 0 }]

/-- A limit of zero returns the record. -/
theorem limit_zero_returns_one : ¬ FilterThenTake oneSaved { limit := 0 } := by
  intro h
  exact absurd h.bounded (by decide)

/-- The filter on the value of a bucket. -/
def filterOn (groupBy value : String) (limit : ℤ) : QueryFilters :=
  if groupBy = "severity" then { severity := some value, limit := limit }
  else { source := some value, limit := limit }

theorem filterOn_limit (groupBy value : String) (limit : ℤ) :
    (filterOn groupBy value limit).limit = limit := by
  unfold filterOn
  split <;> rfl

theorem satisfies_filterOn (groupBy value : String) (limit : ℤ) (r : LogRecord) :
    Satisfies (filterOn groupBy value limit) r ↔ keyOf groupBy r = value := by
  unfold filterOn keyOf
  split
  · constructor
    · exact fun h => h.1.severity value rfl
    · intro h
      exact ⟨⟨fun s hs => h.trans (Option.some.inj hs),nofun,nofun,nofun⟩,nofun⟩
  · constructor
    · exact fun h => h.1.source value rfl
    · intro h
      exact ⟨⟨nofun,fun s hs => h.trans (Option.some.inj hs),nofun,nofun⟩,nofun⟩

/-- A query for a bucket that may return the whole store counts the bucket. -/
theorem query_filterOn_length (calls : List Call) (groupBy value : String) {limit : ℤ}
    (hl : (stored calls).length ≤ limit) :
    ((exec calls).query (filterOn groupBy value limit)).length =
      ((stored calls).map (keyOf groupBy)).count value := by
  have hkeys : (stored calls).filter (Satisfies (filterOn groupBy value limit)) =
      (stored calls).filter (fun r => keyOf groupBy r == value) := by
    refine List.filter_congr fun r _ => ?_
    rw [Bool.eq_iff_iff, decide_eq_true_iff, satisfies_filterOn, beq_iff_eq]
  have hle : ((stored calls).filter (fun r => keyOf groupBy r == value)).length ≤
      (stored calls).length := List.length_filter_le _ _
  rw [query_eq_take, exec_records, filterOn_limit, hkeys, List.take_of_length_le (by omega),
    List.count, List.countP_map, List.countP_eq_length_filter]
  rfl

/-- `aggregate` counts the stored records by their keys, and `query` on the key
of a row returns as many. -/
theorem aggregate_agrees (calls : List Call) {groupBy : String}
    (hg : groupBy = "severity" ∨ groupBy = "source") :
    ∃ rows : List (String × ℕ),
      (exec calls).aggregate { groupBy := groupBy } =
        .ok (rows.map (fun p => row groupBy p.1 p.2)) ∧
      (rows.map Prod.fst).Nodup ∧
      (∀ key, key ∈ rows.map Prod.fst ↔ ∃ r ∈ stored calls, keyOf groupBy r = key) ∧
      (∀ p ∈ rows, 0 < p.2) ∧
      rows.Pairwise (fun p q => q.2 ≤ p.2) ∧
      (rows.map Prod.snd).sum = (stored calls).length ∧
      ∀ p ∈ rows, ∀ limit : ℤ, (stored calls).length ≤ limit →
        ((exec calls).query (filterOn groupBy p.1 limit)).length = p.2 := by
  have hcounts := Counter.mostCommon_counts ((stored calls).map (keyOf groupBy))
  refine ⟨_,?_,hcounts.nodup,fun key => ?_,hcounts.pos,hcounts.sorted,?_,fun p hp limit hl => ?_⟩
  · have hsupported : groupBy ∈ ["severity","source"] := by simpa using hg
    simp [aggregate, hsupported, exec_records]
  · rw [hcounts.mem, List.mem_map]
  · rw [hcounts.sum, List.length_map]
  · rw [query_filterOn_length calls groupBy p.1 hl, hcounts.count p hp]

/-- Three records, two of them from one source, after an earlier one was
cleared. -/
theorem aggregate_two_sources :
    let calls : List Call := [.save { id := 0 },.clear,.save { id := 1, source := "api" },
      .saveBatch [{ id := 2, source := "db" },{ id := 3, source := "api" }]]
    ∃ rows : List (String × ℕ),
      (exec calls).aggregate { groupBy := "source" } =
        .ok (rows.map (fun p => row "source" p.1 p.2)) ∧
      (rows.map Prod.fst).Nodup ∧
      (∀ key, key ∈ rows.map Prod.fst ↔ ∃ r ∈ stored calls, keyOf "source" r = key) ∧
      (∀ p ∈ rows, 0 < p.2) ∧
      rows.Pairwise (fun p q => q.2 ≤ p.2) ∧
      (rows.map Prod.snd).sum = (stored calls).length ∧
      ∀ p ∈ rows, ∀ limit : ℤ, (stored calls).length ≤ limit →
        ((exec calls).query (filterOn "source" p.1 limit)).length = p.2 :=
  aggregate_agrees _ (Or.inr rfl)

end PipelineX.MemoryQueries
