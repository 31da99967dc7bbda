import Mathlib.Algebra.Order.Floor.Ring
import Mathlib.Algebra.Order.Field.Basic
import Mathlib.Data.List.Sort
import Mathlib.Tactic.Linarith
import Mathlib.Tactic.Ring

/-!
# Quantiles

A list in ascending order as a broken line through its elements, one place
apart. The quantile of a list is the point of the line of its sorted elements at
that part of the way.
-/

set_option autoImplicit false

namespace PipelineX.Quantile
/-- A list that is not empty, in order. -/
theorem exists_sorted {α : Type} [LinearOrder α] {xs : List α} (hxs : xs ≠ []) :
    ∃ ys : List α, ys ≠ [] ∧ ys.Pairwise (· ≤ ·) ∧ ys.Perm xs := by
  have hperm := List.perm_insertionSort (· ≤ ·) xs
  refine ⟨_,fun h => ?_,List.pairwise_insertionSort (· ≤ ·) xs,hperm⟩
  rw [h] at hperm
  exact hxs hperm.symm.eq_nil

variable {K : Type} [Field K]

/-- The element at a place. There is none past the end. -/
def place (xs : List K) (i : ℕ) : K := xs.getD i 0

theorem place_eq {xs : List K} {i : ℕ} (h : i < xs.length) : place xs i = xs[i] := by
  rw [place, List.getD_eq_getElem?_getD, List.getElem?_eq_getElem h]
  rfl

theorem place_mem {xs : List K} {i : ℕ} (h : i < xs.length) : place xs i ∈ xs := by
  rw [place_eq h]
  exact List.getElem_mem h

variable [LinearOrder K]

def interpolate [FloorRing K] (xs : List K) (rank : K) : K :=
  let i := ⌊rank⌋.toNat
  place xs i+(rank-i)*(place xs (min (i+1) (xs.length-1))-place xs i)

def quantile [FloorRing K] (xs : List K) (p : K) : K :=
  interpolate (xs.insertionSort (· ≤ ·)) (p*(xs.length-1))

theorem place_mono {xs : List K} (hxs : xs.Pairwise (· ≤ ·)) {i j : ℕ} (hij : i ≤ j)
    (hj : j < xs.length) : place xs i ≤ place xs j := by
  rcases Nat.lt_or_eq_of_le hij with hlt | rfl
  · rw [place_eq (hlt.trans hj), place_eq hj]
    exact List.pairwise_iff_getElem.mp hxs i j (hlt.trans hj) hj hlt
  · exact le_refl _

/-- A rank is between two neighbouring places of the list. -/
structure InRange (xs : List K) (rank : K) : Prop where
  nonneg : 0 ≤ rank
  last : rank ≤ xs.length-1
  nonempty : xs ≠ []

theorem InRange.next_lt {xs : List K} {rank : K} (h : InRange xs rank) (i : ℕ) :
    min (i+1) (xs.length-1) < xs.length := by
  have hpos := List.length_pos_iff.mpr h.nonempty
  omega

section
variable [FloorRing K] {xs : List K} {rank : K}

theorem InRange.floor_eq (h : InRange xs rank) : ((⌊rank⌋.toNat : ℕ) : K) = ⌊rank⌋ := by
  rw [← Int.cast_natCast, Int.toNat_of_nonneg (Int.floor_nonneg.mpr h.nonneg)]

theorem InRange.floor_le (h : InRange xs rank) : ((⌊rank⌋.toNat : ℕ) : K) ≤ rank :=
  h.floor_eq.trans_le (Int.floor_le rank)

/-- The quantile, for the list put in order by whatever means. -/
theorem quantile_eq {ys : List K} (hys : ys.Pairwise (· ≤ ·)) (hperm : ys.Perm xs) (p : K) :
    quantile xs p = interpolate ys (p*(ys.length-1)) := by
  have hsort : xs.insertionSort (· ≤ ·) = ys :=
    ((List.perm_insertionSort _ xs).trans hperm.symm).eq_of_pairwise'
      (List.pairwise_insertionSort _ xs) hys
  rw [quantile, hsort, hperm.length_eq]

theorem InRange.lt_floor (h : InRange xs rank) : rank < ((⌊rank⌋.toNat : ℕ) : K)+1 := by
  rw [h.floor_eq]
  exact Int.lt_floor_add_one rank

variable [IsStrictOrderedRing K]

theorem InRange.floor_lt (h : InRange xs rank) : ⌊rank⌋.toNat < xs.length := by
  have hlast : (⌊rank⌋ : K) ≤ (xs.length : ℤ)-1 := by
    rw [Int.cast_natCast]
    exact (Int.floor_le rank).trans h.last
  have hlt : ⌊rank⌋ ≤ (xs.length : ℤ)-1 := by exact_mod_cast hlast
  have hpos := List.length_pos_iff.mpr h.nonempty
  omega

/-- The two places around a rank are in order. -/
theorem places_le (hxs : xs.Pairwise (· ≤ ·)) (h : InRange xs rank) :
    place xs ⌊rank⌋.toNat ≤ place xs (min (⌊rank⌋.toNat+1) (xs.length-1)) := by
  have hlt := h.floor_lt
  exact place_mono hxs (by omega) (h.next_lt _)

theorem place_le_interpolate (hxs : xs.Pairwise (· ≤ ·)) (h : InRange xs rank) :
    place xs ⌊rank⌋.toNat ≤ interpolate xs rank :=
  le_add_of_nonneg_right
    (mul_nonneg (sub_nonneg.mpr h.floor_le) (sub_nonneg.mpr (places_le hxs h)))

theorem interpolate_le_place (hxs : xs.Pairwise (· ≤ ·)) (h : InRange xs rank) :
    interpolate xs rank ≤ place xs (min (⌊rank⌋.toNat+1) (xs.length-1)) := by
  have hpart : rank-⌊rank⌋.toNat ≤ 1 := by linarith [h.lt_floor]
  have hstep := mul_le_mul_of_nonneg_right hpart (sub_nonneg.mpr (places_le hxs h))
  rw [interpolate]
  linarith

/-- The line ascends. -/
theorem interpolate_mono (hxs : xs.Pairwise (· ≤ ·)) {rank' : K} (h : InRange xs rank)
    (h' : InRange xs rank') (hle : rank ≤ rank') : interpolate xs rank ≤ interpolate xs rank' := by
  have hfloor : ⌊rank⌋.toNat ≤ ⌊rank'⌋.toNat := Int.toNat_le_toNat (Int.floor_mono hle)
  rcases Nat.lt_or_eq_of_le hfloor with hlt | heq
  · have hnext : min (⌊rank⌋.toNat+1) (xs.length-1) ≤ ⌊rank'⌋.toNat := by omega
    calc interpolate xs rank
        ≤ place xs (min (⌊rank⌋.toNat+1) (xs.length-1)) := interpolate_le_place hxs h
      _ ≤ place xs ⌊rank'⌋.toNat := place_mono hxs hnext h'.floor_lt
      _ ≤ interpolate xs rank' := place_le_interpolate hxs h'
  · have hstep := mul_le_mul_of_nonneg_right hle (sub_nonneg.mpr (places_le hxs h))
    rw [interpolate, interpolate, ← heq]
    linarith

/-- The line through the images is the image of the line. -/
theorem interpolate_affine (h : InRange xs rank) (a b : K) :
    interpolate (xs.map (fun x => a*x+b)) rank = a*interpolate xs rank+b := by
  have hplace : ∀ i, i < xs.length →
      place (xs.map (fun x => a*x+b)) i = a*place xs i+b := by
    intro i hi
    rw [place_eq (by rw [List.length_map]; exact hi), place_eq hi, List.getElem_map]
  simp only [interpolate, List.length_map]
  rw [hplace _ h.floor_lt, hplace _ (h.next_lt _)]
  ring

theorem inRange_part (hxs : xs ≠ []) {p : K} (h0 : 0 ≤ p) (h1 : p ≤ 1) :
    InRange xs (p*(xs.length-1)) := by
  have hpos : (1 : K) ≤ xs.length := Nat.one_le_cast.mpr (List.length_pos_iff.mpr hxs)
  refine ⟨mul_nonneg h0 (sub_nonneg.mpr hpos),?_,hxs⟩
  exact mul_le_of_le_one_left (sub_nonneg.mpr hpos) h1

theorem quantile_mono (hxs : xs ≠ []) {p q : K} (h0 : 0 ≤ p) (hpq : p ≤ q) (h1 : q ≤ 1) :
    quantile xs p ≤ quantile xs q := by
  obtain ⟨ys,hne,hys,hperm⟩ := exists_sorted hxs
  have hp := inRange_part hne h0 (hpq.trans h1)
  have hq := inRange_part hne (h0.trans hpq) h1
  have hpos : (1 : K) ≤ ys.length := Nat.one_le_cast.mpr (List.length_pos_iff.mpr hne)
  rw [quantile_eq hys hperm, quantile_eq hys hperm]
  exact interpolate_mono hys hp hq (mul_le_mul_of_nonneg_right hpq (sub_nonneg.mpr hpos))

/-- A quantile is between the least and the greatest element. -/
theorem quantile_between (hxs : xs ≠ []) {p : K} (h0 : 0 ≤ p) (h1 : p ≤ 1) :
    (∃ x ∈ xs, x ≤ quantile xs p) ∧ ∃ x ∈ xs, quantile xs p ≤ x := by
  obtain ⟨ys,hne,hys,hperm⟩ := exists_sorted hxs
  have hp := inRange_part hne h0 h1
  rw [quantile_eq hys hperm]
  constructor
  · exact ⟨_,hperm.subset (place_mem hp.floor_lt),place_le_interpolate hys hp⟩
  · exact ⟨_,hperm.subset (place_mem (hp.next_lt _)),interpolate_le_place hys hp⟩

theorem quantile_affine (hxs : xs ≠ []) {p : K} (h0 : 0 ≤ p) (h1 : p ≤ 1) {a : K} (ha : 0 < a)
    (b : K) : quantile (xs.map (fun x => a*x+b)) p = a*quantile xs p+b := by
  obtain ⟨ys,hne,hys,hperm⟩ := exists_sorted hxs
  have hmap : (ys.map (fun x => a*x+b)).Pairwise (· ≤ ·) :=
    hys.map _ fun x y hxy => add_le_add_left (mul_le_mul_of_nonneg_left hxy ha.le) b
  rw [quantile_eq hmap (hperm.map _), quantile_eq hys hperm, List.length_map,
    interpolate_affine (inRange_part hne h0 h1)]

end
end PipelineX.Quantile
