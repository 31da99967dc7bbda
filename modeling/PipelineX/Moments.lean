import Mathlib.Algebra.Order.Field.Basic
import Mathlib.Algebra.Order.BigOperators.Group.List
import Mathlib.Algebra.BigOperators.Ring.List
import Mathlib.Tactic.FieldSimp
import Mathlib.Tactic.Linarith
import Mathlib.Tactic.Ring

/-!
# Mean and variance

Of a list, and what a change of unit does to them.
-/

set_option autoImplicit false

namespace PipelineX.Moments
variable {K : Type} [Field K]

def mean (xs : List K) : K := xs.sum/xs.length

/-- The squared deviations from a number. -/
def spreads (xs : List K) (m : K) : List K := xs.map (fun x => (x-m)*(x-m))

def variance (xs : List K) : K := (spreads xs (mean xs)).sum/xs.length

theorem sum_affine (a b : K) (xs : List K) :
    (xs.map (fun x => a*x+b)).sum = a*xs.sum+xs.length*b := by
  induction xs with
  | nil => simp
  | cons x xs ih =>
    rw [List.map_cons, List.sum_cons, List.sum_cons, List.length_cons, ih]
    push_cast
    ring

theorem spreads_affine (a b m : K) (xs : List K) :
    (spreads (xs.map (fun x => a*x+b)) (a*m+b)).sum = a*a*(spreads xs m).sum := by
  induction xs with
  | nil => simp [spreads]
  | cons x xs ih =>
    simp only [spreads, List.map_cons, List.sum_cons] at *
    rw [ih]
    ring

theorem mean_affine [CharZero K] {xs : List K} (hxs : xs ≠ []) (a b : K) :
    mean (xs.map (fun x => a*x+b)) = a*mean xs+b := by
  have hlength : (xs.length : K) ≠ 0 := Nat.cast_ne_zero.mpr (List.length_pos_iff.mpr hxs).ne'
  rw [mean, mean, sum_affine, List.length_map]
  field_simp

theorem variance_affine [CharZero K] {xs : List K} (hxs : xs ≠ []) (a b : K) :
    variance (xs.map (fun x => a*x+b)) = a*a*variance xs := by
  rw [variance, variance, mean_affine hxs, spreads_affine, List.length_map, mul_div_assoc]

section
variable [LinearOrder K] [IsStrictOrderedRing K]

theorem spreads_nonneg (xs : List K) (m : K) : 0 ≤ (spreads xs m).sum := by
  apply List.sum_nonneg
  intro y hy
  obtain ⟨x,_,rfl⟩ := List.mem_map.mp hy
  exact mul_self_nonneg (x-m)

theorem variance_nonneg (xs : List K) : 0 ≤ variance xs :=
  div_nonneg (spreads_nonneg xs _) (Nat.cast_nonneg _)

/-- Two elements that differ spread the list. -/
theorem variance_pos {xs : List K} {x y : K} (hx : x ∈ xs) (hy : y ∈ xs) (hxy : x ≠ y) :
    0 < variance xs := by
  have hoff : ∃ z ∈ xs, z-mean xs ≠ 0 := by
    by_cases h : x = mean xs
    · exact ⟨y,hy,fun h' => hxy (h.trans (sub_eq_zero.mp h').symm)⟩
    · exact ⟨x,hx,sub_ne_zero.mpr h⟩
  obtain ⟨z,hz,hne⟩ := hoff
  have hall : ∀ s ∈ spreads xs (mean xs), 0 ≤ s := by
    intro s hs
    obtain ⟨w,_,rfl⟩ := List.mem_map.mp hs
    exact mul_self_nonneg _
  have hle := List.single_le_sum hall _ (List.mem_map_of_mem hz)
  have hlength : 0 < (xs.length : K) := Nat.cast_pos.mpr (List.length_pos_of_mem hz)
  exact div_pos ((mul_self_pos.mpr hne).trans_le hle) hlength

end
end PipelineX.Moments
