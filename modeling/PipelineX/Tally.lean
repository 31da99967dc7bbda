import Mathlib.Algebra.BigOperators.Group.List.Basic
import Mathlib.Algebra.Ring.Nat
import Mathlib.Algebra.Order.BigOperators.Group.List
import Mathlib.Data.List.Count
import Mathlib.Tactic.Common

/-!
# Weighing a list

The sum of a weight over a list. A conservation law for a list of tasks is a
law about one task and the rule that replaces one entry of the list; a law
for every weight is a law about multiplicities.
-/

set_option autoImplicit false

namespace PipelineX.Tally

variable {α β : Type*}

def tally (g : α → ℕ) (xs : List α) : ℕ := (xs.map g).sum

@[simp] theorem tally_nil (g : α → ℕ) : tally g [] = 0 := rfl

@[simp] theorem tally_cons (g : α → ℕ) (x : α) (xs : List α) :
    tally g (x::xs) = g x + tally g xs := by
  simp [tally]

@[simp] theorem tally_append (g : α → ℕ) (xs ys : List α) :
    tally g (xs++ys) = tally g xs + tally g ys := by
  simp [tally]

theorem tally_set (g : α → ℕ) (xs : List α) (i : ℕ) (x y : α) (h : xs[i]? = some x) :
    tally g (xs.set i y) + g x = tally g xs + g y := by
  induction xs generalizing i with
  | nil => simp at h
  | cons z xs ih =>
    cases i with
    | zero =>
      have hz : z = x := by simpa using h
      simp [hz]
      omega
    | succ i =>
      have ht := ih i (by simpa using h)
      simp only [List.set_cons_succ, tally_cons]
      omega

theorem tally_eq_zero (g : α → ℕ) (xs : List α) : tally g xs = 0 ↔ ∀ x ∈ xs, g x = 0 := by
  induction xs with
  | nil => simp
  | cons x xs ih => simp [ih]

theorem le_tally (g : α → ℕ) (xs : List α) (x : α) (hx : x ∈ xs) : g x ≤ tally g xs := by
  induction xs with
  | nil => simp at hx
  | cons y xs ih =>
    rcases List.mem_cons.mp hx with rfl | hx
    · simp
    · have hle := ih hx
      simp only [tally_cons]
      omega

theorem tally_add (g h : α → ℕ) (xs : List α) :
    tally (fun x => g x + h x) xs = tally g xs + tally h xs := by
  induction xs with
  | nil => rfl
  | cons x xs ih =>
    simp only [tally_cons, ih]
    omega

theorem tally_perm (g : α → ℕ) {xs ys : List α} (h : xs.Perm ys) : tally g xs = tally g ys :=
  (h.map g).sum_eq

theorem tally_flatMap (g : β → ℕ) (f : α → List β) (xs : List α) :
    tally g (xs.flatMap f) = tally (fun x => tally g (f x)) xs := by
  induction xs with
  | nil => rfl
  | cons x xs ih => simp [ih]

theorem length_flatMap (f : α → List β) (xs : List α) :
    (xs.flatMap f).length = tally (fun x => (f x).length) xs := by
  induction xs with
  | nil => rfl
  | cons x xs ih => simp [ih]

theorem tally_map (g : β → ℕ) (f : α → β) (xs : List α) :
    tally g (xs.map f) = tally (fun x => g (f x)) xs := by
  simp [tally, Function.comp_def]

theorem tally_count [DecidableEq α] (x : α) (xs : List α) :
    tally (fun y => if y = x then 1 else 0) xs = xs.count x := by
  induction xs with
  | nil => rfl
  | cons y ys ih =>
    by_cases h : y = x
    · simp [h, ih, Nat.add_comm]
    · simp [h, ih]

/-- Lists that weigh the same under every weight have the same entries. -/
theorem perm_of_tally [DecidableEq α] (xs ys : List α)
    (h : ∀ g : α → ℕ, tally g xs = tally g ys) : xs.Perm ys := by
  rw [List.perm_iff_count]
  intro x
  rw [← tally_count, ← tally_count, h]

end PipelineX.Tally
