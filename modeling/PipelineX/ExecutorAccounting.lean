import PipelineX.ExecutorPhases
import Mathlib.Data.List.Flatten
import Mathlib.Data.List.Nodup

/-!
# What `run` returns

Every line becomes one record that is dropped or passes, and every record that
passes is in exactly one batch. The counters say so when every failed save is
a `RepositoryError`; the records of a batch that fails in another way are
counted as processed, save for the one whose consumer made the call.
-/

set_option autoImplicit false

namespace PipelineX.ExecutorAccounting
open PipelineX.Records PipelineX.Stages PipelineX.TransitionSystem PipelineX.Tally
open PipelineX.Executor PipelineX.ExecutorSteps PipelineX.ExecutorLedger
open PipelineX.ExecutorPhases

def saved (s : Shared) : List LogRecord := s.saves.flatMap (fun c => c.toSave.records)

/-- The lines whose record the repository does not have. -/
def unstored (s : Shared) (lines : ℕ) : List ℕ :=
  (List.range lines).filter (fun i => i ∉ s.stored.map LogRecord.id)

/-- The records of a save that are counted as processed and are not stored. -/
def excess (c : SaveCall) : ℕ :=
  if c.outcome = .unexpected then c.toSave.records.length - crash c else 0

theorem idle_tasks (cfg : Config) (lines : List String) (t : State) (ht : Phases cfg lines t)
    (hg : gathered t.main = true) (hmain : mainHolding t.main = {})
    (hp : producerHolding t.producer = {}) : ∀ h ∈ tasks t, h = {} := by
  obtain ⟨hc,hf⟩ := ht.gathered hg
  intro h hh
  simp only [tasks, List.mem_cons, List.mem_map, hmain, hp, hf] at hh
  rcases hh with hh | hh | hh | ⟨c,hmem,hh⟩
  · exact hh
  · exact hh
  · exact hh
  · rw [← hh, hc c hmem]
    rfl

/-- The state that `run` returns in: the tasks hold nothing, and neither do
the queue and the buffer. -/
structure Finished (t : State) (lines : ℕ) : Prop where
  idle : ∀ h ∈ tasks t, h = {}
  pulled : t.shared.pulled = lines
  queue : t.shared.queue = []
  batchBuffer : t.shared.batchBuffer = []
  lost : t.shared.lost = []
  uncounted : t.shared.uncounted = []
  interrupted : t.shared.interrupted = []

theorem returned_finished (cfg : Config) (lines : List String) (t : State)
    (ht : Inv cfg lines t) (hret : t.main = .returned) : Finished t lines.length := by
  have hp : t.producer ≠ .failed := ht.phases.returned hret
  have hdown : t.shared.shutdown = true := by simp [ht.phases.shutdown, hret, cancelling]
  obtain ⟨hfin,hun⟩ := (ht.phases.joined hdown).resolve_left hp
  obtain ⟨hl,hu,hi⟩ := ht.phases.unharmed (Or.inr hp)
  have hidle := idle_tasks cfg lines t ht.phases (by rw [hret]; rfl) (by rw [hret]; rfl)
    (by rw [hfin]; rfl)
  have hqueue := ht.ledger.unfinished
  have hsource := ht.phases.source
  rw [hfin, remaining, List.length_nil] at hsource
  exact ⟨hidle,hsource,List.eq_nil_of_length_eq_zero (by omega),
    ht.phases.emptied (by rw [hret]; rfl),hl,hu,hi⟩

theorem idle_tally {t : State} (h : ∀ h ∈ tasks t, h = {}) (g : Holding → ℕ) (hg : g {} = 0) :
    tally g (tasks t) = 0 := by
  rw [tally_eq_zero]
  intro a ha
  rw [h a ha, hg]

/-- Each record that passed is in one batch whose save is over. -/
theorem saved_perm {t : State} {n : ℕ} (ht : Ledger t) (hf : Finished t n) :
    (saved t.shared).Perm t.shared.passed := by
  apply perm_of_tally
  intro g
  have h := ht.settled g
  rw [idle_tally hf.idle _ rfl, settled, hf.batchBuffer, hf.interrupted] at h
  rw [saved, tally_flatMap, h]
  simp

/-- Each line's record passed or was dropped, and only once. -/
theorem lines_perm {t : State} {n : ℕ} (ht : Ledger t) (hf : Finished t n) :
    ((t.shared.passed ++ t.shared.dropped).map LogRecord.id).Perm (List.range n) := by
  apply perm_of_tally
  intro f
  have h := ht.placed f
  rw [idle_tally hf.idle _ rfl, placed, hf.queue, hf.lost, hf.pulled] at h
  rw [tally_map, tally_append, h]
  simp only [weigh, tally_nil]
  omega

theorem stored_nodup {t : State} {n : ℕ} (ht : Ledger t) (hk : Kept t.shared)
    (hf : Finished t n) :
    (t.shared.stored.map LogRecord.id).Nodup ∧
    ∀ i ∈ t.shared.stored.map LogRecord.id, i ∈ List.range n := by
  have hlines := lines_perm ht hf
  have hsub : (t.shared.stored.map LogRecord.id).Sublist
      ((saved t.shared).map LogRecord.id) := by
    rw [hk.stored]
    exact (List.filter_sublist.flatMap _).map _
  have hsaved := (saved_perm ht hf).map LogRecord.id
  have hpassed : (t.shared.passed.map LogRecord.id).Nodup := by
    have hall := hlines.nodup_iff.mpr List.nodup_range
    rw [List.map_append] at hall
    exact hall.sublist (List.sublist_append_left _ _)
  constructor
  · exact (hsaved.nodup_iff.mpr hpassed).sublist hsub
  · intro i hi
    have hmem := hsaved.mem_iff.mp (hsub.mem hi)
    apply hlines.mem_iff.mp
    rw [List.map_append]
    exact List.mem_append_left _ hmem

theorem unstored_length {t : State} {n : ℕ} (ht : Ledger t) (hk : Kept t.shared)
    (hf : Finished t n) : (unstored t.shared n).length + t.shared.stored.length = n := by
  obtain ⟨hnodup,hmem⟩ := stored_nodup ht hk hf
  have hperm : ((List.range n).filter (fun i => i ∈ t.shared.stored.map LogRecord.id)).Perm
      (t.shared.stored.map LogRecord.id) := by
    rw [List.perm_ext_iff_of_nodup (List.nodup_range.filter _) hnodup]
    intro i
    simp only [List.mem_filter, decide_eq_true_eq, and_iff_right_iff_imp]
    exact hmem i
  have hlen := List.length_eq_length_filter_add (l := List.range n)
    (fun i => decide (i ∈ t.shared.stored.map LogRecord.id))
  have hp := hperm.length_eq
  rw [List.length_map] at hp
  rw [List.length_range, hp] at hlen
  simp only [unstored, decide_not]
  omega

theorem saved_stored {s : Shared} (hk : Kept s) (hsaves : ∀ c ∈ s.saves, c.outcome = .stored) :
    saved s = s.stored := by
  rw [hk.stored, List.filter_eq_self.mpr (fun c hc => by simp [hsaves c hc]), saved]

/-- How each save's batch is split between the repository and the counters. -/
theorem save_split (c : SaveCall) : c.toSave.records.length =
    (if c.outcome = .stored then c.toSave.records.length else 0) + rejected c + crash c +
      excess c := by
  have hpos := List.length_pos_of_ne_nil c.toSave.nonempty
  cases ho : c.outcome <;> simp [rejected, crash, excess, ho]
  split <;> omega

theorem stored_length {s : Shared} (hk : Kept s) : s.stored.length =
    tally (fun c => if c.outcome = .stored then c.toSave.records.length else 0) s.saves := by
  rw [hk.stored]
  induction s.saves with
  | nil => rfl
  | cons c saves ih => by_cases ho : c.outcome = .stored <;> simp [ho, ih]

theorem saves_split {s : Shared} (hk : Kept s) : (saved s).length =
    s.stored.length + tally rejected s.saves + tally crash s.saves + tally excess s.saves := by
  rw [stored_length hk, saved]
  induction s.saves with
  | nil => rfl
  | cons c saves ih =>
    have hc := save_split c
    simp only [List.flatMap_cons, List.length_append, tally_cons]
    omega

/-- What the counters say of a finished run. -/
theorem counters {t : State} {n : ℕ} (ht : Ledger t) (hk : Kept t.shared) (hf : Finished t n) :
    t.shared.recordsProcessed = t.shared.stored.length + tally excess t.shared.saves ∧
    t.shared.recordsFailed + tally excess t.shared.saves = (unstored t.shared n).length := by
  have hcredit := ht.credit
  have hdebit := ht.debit
  rw [idle_tally hf.idle _ rfl, credit, hf.uncounted, List.length_nil] at hcredit
  rw [debit] at hdebit
  have hlines := (lines_perm ht hf).length_eq
  rw [List.length_map, List.length_append, List.length_range] at hlines
  have hsaved := (saved_perm ht hf).length_eq
  have hsplit := saves_split hk
  have hun := unstored_length ht hk hf
  constructor <;> omega

theorem result_returned {cfg : Config} {t : State} {res : PipelineRunResult}
    (h : result cfg t = some res) : t.main = .returned ∧
      res.recordsProcessed = t.shared.recordsProcessed ∧
      res.recordsFailed = t.shared.recordsFailed := by
  unfold result at h
  split at h
  · cases h
    exact ⟨by assumption,rfl,rfl⟩
  · cases h

/-- One consumer, one stage, and batches of two. -/
def sample : Config where
  stageNames := ["parse:raw"]
  numWorkers := 1
  queueSize := 2
  batchSize := 2
  runId := 7
  sourceRaises := false
  workers_pos := Nat.one_pos
  queue_pos := Nat.two_pos
  batch_pos := Nat.two_pos

/-- Line `n` is put, taken and passed by the stage, and buffered. -/
def passes (cfg : Config) (n : ℕ) (rawLine : String) : List Label :=
  [.producer,.producer,.consumer 0 .get,.consumer 0 (.stage (.ok (shell cfg n rawLine))),
    .consumer 0 .buffer]

/-- The source ends and `run` winds down with nothing left to flush. -/
def windDown : List Label :=
  [.producer,.main .advance,.main .advance,.cancelled 0 false,.flusher .tick,.flusher .swap,
    .main .advance,.main .advance]

/-- Two lines in one batch, whose save ends as it does. -/
def twoLines (outcome : SaveOutcome) : List Label :=
  passes sample 0 "a" ++ passes sample 1 "b" ++
    [.consumer 0 .swap,.consumer 0 (.saved outcome)] ++ windDown

def twoLinesEnd (outcome : SaveOutcome) : State :=
  (run (step sample) (initial sample ["a","b"]) (twoLines outcome)).getD (initial sample [])

/-- Exactly-once accounting, for every run in which a save stores its batch
or raises a `RepositoryError`. -/
theorem exactly_once (cfg : Config) (lines : List String) (ls : List Label) (t : State)
    (res : PipelineRunResult) (hrun : run (step cfg) (initial cfg lines) ls = some t)
    (hres : result cfg t = some res)
    (hsaves : ∀ c ∈ t.shared.saves, c.outcome ≠ .unexpected) :
    (t.shared.stored.map LogRecord.id).Nodup ∧
    (∀ r, r ∈ t.shared.stored ↔ r ∈ t.shared.passed ∧
      ∃ c ∈ t.shared.saves, r ∈ c.toSave.records ∧ c.outcome = .stored) ∧
    (saved t.shared).Perm t.shared.passed ∧
    ((t.shared.passed ++ t.shared.dropped).map LogRecord.id).Perm (List.range lines.length) ∧
    res.recordsProcessed = t.shared.stored.length ∧
    res.recordsFailed = (unstored t.shared lines.length).length ∧
    res.recordsProcessed + res.recordsFailed = lines.length ∧
    t.shared.queue = [] ∧ t.shared.batchBuffer = [] := by
  have ht := run_inv cfg lines ls t hrun
  obtain ⟨hret,hprocessed,hfailed⟩ := result_returned hres
  have hf := returned_finished cfg lines t ht hret
  have hperm := saved_perm ht.ledger hf
  have hun := unstored_length ht.ledger ht.kept hf
  obtain ⟨hp,hq⟩ := counters ht.ledger ht.kept hf
  have hexcess : tally excess t.shared.saves = 0 := by
    rw [tally_eq_zero]
    intro c hc
    simp [excess, hsaves c hc]
  rw [hexcess] at hp hq
  have hstored : ∀ r, r ∈ t.shared.stored ↔ r ∈ t.shared.passed ∧
      ∃ c ∈ t.shared.saves, r ∈ c.toSave.records ∧ c.outcome = .stored := by
    intro r
    rw [ht.kept.stored, ← hperm.mem_iff, saved]
    simp only [List.mem_flatMap, List.mem_filter, decide_eq_true_eq]
    constructor
    · rintro ⟨c,⟨hc,ho⟩,hr⟩
      exact ⟨⟨c,hc,hr⟩,c,hc,hr,ho⟩
    · rintro ⟨_,c,hc,hr,ho⟩
      exact ⟨c,⟨hc,ho⟩,hr⟩
  refine ⟨(stored_nodup ht.ledger ht.kept hf).1,hstored,hperm,lines_perm ht.ledger hf,?_,?_,?_,
    hf.queue,hf.batchBuffer⟩ <;> omega

theorem exactly_once_twoLines :
    (twoLinesEnd .repositoryError).shared.recordsProcessed +
      (twoLinesEnd .repositoryError).shared.recordsFailed = 2 :=
  (exactly_once sample ["a","b"] (twoLines .repositoryError) (twoLinesEnd .repositoryError)
    ⟨7,0,2,0⟩ (by decide) (by decide) (by decide)).2.2.2.2.2.2.1

/-- The counters are right exactly when every save that failed in another way
was made by a consumer with a batch of one record. -/
theorem counters_truthful_iff (cfg : Config) (lines : List String) (ls : List Label) (t : State)
    (res : PipelineRunResult) (hrun : run (step cfg) (initial cfg lines) ls = some t)
    (hres : result cfg t = some res) :
    (res.recordsProcessed = t.shared.stored.length ∧
      res.recordsFailed = (unstored t.shared lines.length).length) ↔
    ∀ c ∈ t.shared.saves, c.outcome = .unexpected →
      c.caller = .consumer ∧ c.toSave.records.length = 1 := by
  have ht := run_inv cfg lines ls t hrun
  obtain ⟨hret,hprocessed,hfailed⟩ := result_returned hres
  obtain ⟨hp,hq⟩ := counters ht.ledger ht.kept (returned_finished cfg lines t ht hret)
  have hcounters : (res.recordsProcessed = t.shared.stored.length ∧
      res.recordsFailed = (unstored t.shared lines.length).length) ↔
      tally excess t.shared.saves = 0 := by
    constructor
    · rintro ⟨h,_⟩
      omega
    · intro h
      constructor <;> omega
  rw [hcounters, tally_eq_zero]
  apply forall₂_congr
  intro c _
  have hpos := List.length_pos_of_ne_nil c.toSave.nonempty
  by_cases ho : c.outcome = .unexpected
  · by_cases hc : c.caller = .consumer
    · simp only [excess, crash, ho, hc, and_self, if_true, true_and, forall_const]
      omega
    · simp only [excess, crash, ho, hc, and_false, if_true, if_false, false_and, forall_const,
        iff_false]
      omega
  · simp [excess, ho]

/-- Batches of one record. -/
def singly : Config := { sample with batchSize := 1, batch_pos := Nat.one_pos }

/-- The save of the first line raises what is no `RepositoryError`. -/
def singlySaved : List Label :=
  passes singly 0 "a" ++ [.consumer 0 .swap,.consumer 0 (.saved .unexpected)] ++
    passes singly 1 "b" ++ [.consumer 0 .swap,.consumer 0 (.saved .stored)] ++ windDown

def singlyEnd : State :=
  (run (step singly) (initial singly ["a","b"]) singlySaved).getD (initial singly [])

theorem counters_truthful_twoLines :
    singlyEnd.shared.saves.map SaveCall.outcome = [.unexpected,.stored] ∧
    result singly singlyEnd = some ⟨7,1,1,0⟩ ∧
    (1 : ℤ) = singlyEnd.shared.stored.length ∧
    (1 : ℤ) = (unstored singlyEnd.shared 2).length := by
  have hres : result singly singlyEnd = some ⟨7,1,1,0⟩ := by decide
  exact ⟨by decide,hres,(counters_truthful_iff singly ["a","b"] singlySaved singlyEnd _
    (by decide) hres).mpr (by decide)⟩

/-- A consumer's save of two records fails with another error: `run` reports
one record processed and one failed, and the repository has none. -/
theorem unexpected_save_miscounts :
    run (step sample) (initial sample ["a","b"]) (twoLines .unexpected) =
      some (twoLinesEnd .unexpected) ∧
    result sample (twoLinesEnd .unexpected) = some ⟨7,1,1,0⟩ ∧
    ¬ ((1 : ℤ) = (twoLinesEnd .unexpected).shared.stored.length ∧
      (1 : ℤ) = (unstored (twoLinesEnd .unexpected).shared 2).length) := by
  decide

end PipelineX.ExecutorAccounting
