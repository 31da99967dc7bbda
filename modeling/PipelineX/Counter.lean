import PipelineX.OrderedDict
import Mathlib.Algebra.BigOperators.Group.List.Lemmas
import Mathlib.Algebra.GroupWithZero.Nat
import Mathlib.Data.List.Induction

/-!
# Counters

Python's `Counter` on a list of keys. What `most_common` lists is one row for
each key with the number of times that it occurs, the largest first; keys that
occur equally often come in the order in which they were first seen.
-/

set_option autoImplicit false

namespace PipelineX.Counter

variable {K : Type*} [DecidableEq K]

/-- `counter[k] += 1`. -/
def add (d : OrderedDict K ℕ) (k : K) : OrderedDict K ℕ := d.insert k ((d.get? k).getD 0+1)

def count (ks : List K) : OrderedDict K ℕ := ks.foldl add .empty

/-- `counter.most_common()`. -/
def mostCommon (d : OrderedDict K ℕ) : List (K × ℕ) :=
  d.items.mergeSort (fun p q => q.2 ≤ p.2)

theorem count_snoc (ks : List K) (a : K) : count (ks ++ [a]) = add (count ks) a := by
  rw [count, List.foldl_append]
  rfl

theorem get?_count (ks : List K) (k : K) :
    (count ks).get? k = if k ∈ ks then some (ks.count k) else none := by
  induction ks using List.reverseRecOn with
  | nil => rfl
  | append_singleton ks a ih =>
    rw [count_snoc, add]
    by_cases h : k = a
    · subst h
      rw [OrderedDict.get?_insert_self, if_pos (List.mem_append_right ks List.mem_cons_self), ih,
        List.count_append, List.count_singleton_self]
      split
      · rfl
      · next hk => rw [List.count_eq_zero_of_not_mem hk, Option.getD_none]
    · have hcount : (ks ++ [a]).count k = ks.count k := by
        simp [List.count_append, Ne.symm h]
      have hmem : k ∈ ks ++ [a] ↔ k ∈ ks := by simp [h]
      rw [OrderedDict.get?_insert_of_ne _ _ h, ih]
      simp only [hcount, hmem]

theorem mem_count {ks : List K} {p : K × ℕ} :
    p ∈ (count ks).items ↔ p.1 ∈ ks ∧ p.2 = ks.count p.1 := by
  rw [← OrderedDict.get?_eq_some (k := p.1) (v := p.2), get?_count]
  split
  · next h => simp [h, eq_comm]
  · next h => simp [h]

/-- The rows are a count of the keys, in order of frequency. -/
structure Counts (ks : List K) (rows : List (K × ℕ)) : Prop where
  nodup : (rows.map Prod.fst).Nodup
  mem : ∀ k, k ∈ rows.map Prod.fst ↔ k ∈ ks
  count : ∀ p ∈ rows, p.2 = ks.count p.1
  sorted : rows.Pairwise (fun p q => q.2 ≤ p.2)

omit [DecidableEq K] in
theorem mostCommon_perm (d : OrderedDict K ℕ) : (mostCommon d).Perm d.items :=
  List.mergeSort_perm _ _

theorem mostCommon_counts (ks : List K) : Counts ks (mostCommon (count ks)) where
  nodup := ((mostCommon_perm _).map Prod.fst).nodup_iff.mpr (count ks).nodup
  mem k := by
    rw [((mostCommon_perm (count ks)).map Prod.fst).mem_iff, List.mem_map]
    constructor
    · rintro ⟨p,hp,rfl⟩
      exact (mem_count.mp hp).1
    · exact fun hk => ⟨(k,ks.count k),mem_count.mpr ⟨hk,rfl⟩,rfl⟩
  count p hp := (mem_count.mp ((mostCommon_perm _).mem_iff.mp hp)).2
  sorted := by
    refine (List.pairwise_mergeSort ?_ ?_ (count ks).items).imp of_decide_eq_true
    · intro a b c hab hbc
      exact decide_eq_true ((of_decide_eq_true hbc).trans (of_decide_eq_true hab))
    · intro a b
      rw [Bool.or_eq_true, decide_eq_true_iff, decide_eq_true_iff]
      exact Nat.le_total b.2 a.2

section
variable {ks : List K} {rows : List (K × ℕ)}

theorem Counts.pos (h : Counts ks rows) : ∀ p ∈ rows, 0 < p.2 := by
  intro p hp
  rw [h.count p hp, List.count_pos_iff, ← h.mem]
  exact List.mem_map_of_mem hp

theorem Counts.sum (h : Counts ks rows) : (rows.map Prod.snd).sum = ks.length := by
  have hperm : (rows.map Prod.fst).Perm ks.dedup :=
    (List.perm_ext_iff_of_nodup h.nodup ks.nodup_dedup).mpr fun k => by
      rw [h.mem, List.mem_dedup]
  calc (rows.map Prod.snd).sum
      = ((rows.map Prod.fst).map (fun k => ks.count k)).sum := by
        rw [List.map_map]
        exact congrArg List.sum (List.map_congr_left h.count)
    _ = (ks.dedup.map (fun k => ks.count k)).sum := (hperm.map _).sum_eq
    _ = ks.length := List.sum_map_count_dedup_eq_length ks

end
end PipelineX.Counter
