import Mathlib.Algebra.Order.Field.Basic
import Mathlib.Algebra.BigOperators.Group.List.Basic
import Mathlib.Data.List.Induction
import Mathlib.Order.Bounds.Basic
import Mathlib.Tactic.Linarith

/-!
# Clamped sums

A sum that starts over whenever it falls below zero is the greatest sum over the
runs that end where it does.
-/

set_option autoImplicit false

namespace PipelineX.ClampedSum
variable {α K : Type} [Field K] [LinearOrder K] (f : α → K)

/-- The sum of `f`, never below zero. -/
def clamped (xs : List α) : K := xs.foldl (fun s x => max 0 (s+f x)) 0

/-- The sum of `f` over a run. -/
def total (run : List α) : K := (run.map f).sum

/-- The sums over the runs that end here. -/
def runSums (xs : List α) : Set K := {x | ∃ run, run ≠ [] ∧ run <:+ xs ∧ total f run = x}

theorem clamped_append (xs : List α) (x : α) :
    clamped f (xs ++ [x]) = max 0 (clamped f xs+f x) :=
  List.foldl_append

omit [LinearOrder K] in
theorem total_append (run : List α) (x : α) : total f (run ++ [x]) = total f run+f x := by
  simp [total]

theorem clamped_nonneg (xs : List α) : 0 ≤ clamped f xs := by
  induction xs using List.reverseRecOn with
  | nil => exact le_refl 0
  | append_singleton xs x _ =>
    rw [clamped_append]
    exact le_max_left _ _

variable [IsStrictOrderedRing K]

/-- No run that ends here has a greater sum. -/
theorem total_le {xs run : List α} (h : run <:+ xs) : total f run ≤ clamped f xs := by
  induction xs using List.reverseRecOn generalizing run with
  | nil =>
    rw [List.suffix_nil.mp h]
    exact le_refl 0
  | append_singleton xs x ih =>
    rw [clamped_append]
    rcases List.suffix_concat_iff.mp h with rfl | ⟨front,rfl,hfront⟩
    · exact le_max_left _ _
    · rw [total_append]
      exact (add_le_add_left (ih hfront) (f x)).trans (le_max_right _ _)

omit [IsStrictOrderedRing K] in
theorem exists_total (xs : List α) :
    clamped f xs = 0 ∨ ∃ run, run ≠ [] ∧ run <:+ xs ∧ total f run = clamped f xs := by
  induction xs using List.reverseRecOn with
  | nil => exact Or.inl rfl
  | append_singleton xs x ih =>
    rw [clamped_append]
    rcases max_choice 0 (clamped f xs+f x) with hmax | hmax
    · exact Or.inl hmax
    · rw [hmax]
      right
      rcases ih with hzero | ⟨run,_,hrun,hsum⟩
      · refine ⟨[x],List.cons_ne_nil _ _,⟨xs,rfl⟩,?_⟩
        rw [hzero, zero_add]
        exact List.sum_singleton
      · refine ⟨run ++ [x],List.append_ne_nil_of_right_ne_nil _ (List.cons_ne_nil _ _),?_,?_⟩
        · exact List.suffix_concat_iff.mpr (Or.inr ⟨run,rfl,hrun⟩)
        · rw [total_append, hsum]

/-- Zero, or the greatest sum over a run that ends here. -/
theorem clamped_isGreatest (xs : List α) :
    IsGreatest (insert 0 (runSums f xs)) (clamped f xs) := by
  constructor
  · rcases exists_total f xs with hzero | hrun
    · exact Or.inl hzero
    · exact Or.inr hrun
  · rintro x (rfl | ⟨run,_,hrun,rfl⟩)
    · exact clamped_nonneg f xs
    · exact total_le f hrun

theorem lt_clamped_iff {h : K} (h0 : 0 ≤ h) (xs : List α) :
    h < clamped f xs ↔ ∃ run, run ≠ [] ∧ run <:+ xs ∧ h < total f run := by
  constructor
  · intro hlt
    rcases exists_total f xs with hzero | ⟨run,hne,hrun,hsum⟩
    · rw [hzero] at hlt
      exact absurd hlt (not_lt.mpr h0)
    · exact ⟨run,hne,hrun,hsum ▸ hlt⟩
  · rintro ⟨run,_,hrun,hlt⟩
    exact hlt.trans_le (total_le f hrun)

end PipelineX.ClampedSum
