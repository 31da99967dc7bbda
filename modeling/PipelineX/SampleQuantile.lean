import Mathlib.Algebra.Order.Field.Basic
import Mathlib.Data.List.Count
import Mathlib.Data.List.Sort
import Mathlib.Tactic.Linarith

/-!
# Quantiles among the elements

An element of a list is a quantile at a part of the way when at least that part
of the elements are no greater and at least the rest are no less. In a list in
order such an element is at the place that is that part of the length.
-/

set_option autoImplicit false

namespace PipelineX.SampleQuantile
variable {α K : Type} [LinearOrder α]

section
variable {xs : List α} {i : ℕ}

/-- The elements up to a place are no greater than the one at it. -/
theorem lt_countP_le (hxs : xs.Pairwise (· ≤ ·)) (hi : i < xs.length) :
    i < xs.countP (fun x => x ≤ xs[i]) := by
  have hfront : (xs.take (i+1)).countP (fun x => x ≤ xs[i]) = (xs.take (i+1)).length := by
    refine List.countP_eq_length.mpr fun a ha => ?_
    obtain ⟨j,hj,rfl⟩ := List.mem_take_iff_getElem.mp ha
    rcases Nat.lt_or_eq_of_le (Nat.le_of_lt_succ (lt_min_iff.mp hj).1) with hlt | rfl
    · exact decide_eq_true (List.pairwise_iff_getElem.mp hxs j i _ hi hlt)
    · exact decide_eq_true le_rfl
  have hle := (List.take_sublist (i+1) xs).countP_le (p := fun x => x ≤ xs[i])
  rw [hfront, List.length_take] at hle
  omega

/-- The elements from a place on are no less than the one at it. -/
theorem length_sub_le_countP (hxs : xs.Pairwise (· ≤ ·)) (hi : i < xs.length) :
    xs.length-i ≤ xs.countP (fun x => xs[i] ≤ x) := by
  have hback : (xs.drop i).countP (fun x => xs[i] ≤ x) = (xs.drop i).length := by
    refine List.countP_eq_length.mpr fun a ha => ?_
    obtain ⟨j,hj,rfl⟩ := List.mem_drop_iff_getElem.mp ha
    rcases Nat.eq_zero_or_pos j with rfl | hpos
    · exact decide_eq_true le_rfl
    · exact decide_eq_true (List.pairwise_iff_getElem.mp hxs i _ hi _ (by omega))
  have hle := (List.drop_sublist i xs).countP_le (p := fun x => xs[i] ≤ x)
  rw [hback, List.length_drop] at hle
  exact hle

/-- No element is both at most `w` and at least a greater `v`. -/
theorem countP_disjoint {v w : α} (h : w < v) :
    xs.countP (fun x => x ≤ w)+xs.countP (fun x => v ≤ x) ≤ xs.length := by
  rw [List.length_eq_countP_add_countP (fun x => x ≤ w)]
  refine Nat.add_le_add_left (List.countP_mono_left fun x _ hx => ?_) _
  have hv : v ≤ x := of_decide_eq_true hx
  simpa using h.trans_le hv

end

section
variable [Field K] [LinearOrder K]

structure IsQuantile (p : K) (xs : List α) (v : α) : Prop where
  mem : v ∈ xs
  below : p*xs.length ≤ xs.countP (fun x => x ≤ v)
  above : (1-p)*xs.length ≤ xs.countP (fun x => v ≤ x)

variable {p q : K} {xs ys : List α} {v w : α}

theorem IsQuantile.perm (h : IsQuantile p xs v) (hperm : xs.Perm ys) : IsQuantile p ys v where
  mem := hperm.subset h.mem
  below := by
    rw [← hperm.length_eq, ← hperm.countP_eq]
    exact h.below
  above := by
    rw [← hperm.length_eq, ← hperm.countP_eq]
    exact h.above

variable [IsStrictOrderedRing K]

/-- Quantiles are in the order of their parts. -/
theorem IsQuantile.le (hv : IsQuantile p xs v) (hw : IsQuantile q xs w) (hpq : p < q) :
    v ≤ w := by
  by_contra hlt
  have hdisjoint : xs.countP (fun x => x ≤ w)+xs.countP (fun x => v ≤ x) ≤ xs.length :=
    countP_disjoint (not_le.mp hlt)
  have hcount : ((xs.countP (fun x => x ≤ w) : ℕ) : K)+xs.countP (fun x => v ≤ x) ≤
      xs.length := by exact_mod_cast hdisjoint
  have hpos : (0 : K) < xs.length := Nat.cast_pos.mpr (List.length_pos_of_mem hv.mem)
  have hsum : q*xs.length+(1-p)*xs.length ≤ xs.length :=
    (add_le_add hw.below hv.above).trans hcount
  have hmore : (0 : K) < (q-p)*xs.length := mul_pos (sub_pos.mpr hpq) hpos
  linarith

/-- The element at a place is a quantile at every part that the place covers. -/
theorem isQuantile_place (hxs : xs.Pairwise (· ≤ ·)) {i : ℕ} (hi : i < xs.length)
    (hlow : i ≤ p*xs.length) (hhigh : p*xs.length ≤ i+1) : IsQuantile p xs xs[i] where
  mem := List.getElem_mem hi
  below := by
    have hcount : ((i+1 : ℕ) : K) ≤ xs.countP (fun x => x ≤ xs[i]) :=
      Nat.cast_le.mpr (lt_countP_le hxs hi)
    rw [Nat.cast_succ] at hcount
    exact hhigh.trans hcount
  above := by
    have hcount : ((xs.length-i : ℕ) : K) ≤ xs.countP (fun x => xs[i] ≤ x) :=
      Nat.cast_le.mpr (length_sub_le_countP hxs hi)
    rw [Nat.cast_sub hi.le] at hcount
    linarith

end
end PipelineX.SampleQuantile
