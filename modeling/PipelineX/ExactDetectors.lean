import PipelineX.DetectorRuns
import PipelineX.ExactArithmetic
import PipelineX.Moments

/-!
# The detectors' steps in exact arithmetic

No step raises but a division by zero and the root of a negative number.
-/

set_option autoImplicit false

namespace PipelineX.Detectors
open PipelineX.Records PipelineX.Moments

theorem fired_iff {F : Type} {e : AnomalyEvent F} {d : F} :
    (∃ e' : AnomalyEvent F, some e = some e' ∧ e'.severityScore = d) ↔ e.severityScore = d := by
  constructor
  · rintro ⟨_,h,hd⟩
    cases h
    exact hd
  · exact fun hd => ⟨e,rfl,hd⟩

variable {K : Type} [Field K] [LinearOrder K] [FloorRing K] (root : K → K)

/-- No number is too large. -/
theorem readMetric_exact (sourceDict metricKey : String) (r : Sample K) :
    readMetric (exact root) sourceDict metricKey r = none ∨
      ∃ v, readMetric (exact root) sourceDict metricKey r = some (.ok v) := by
  unfold readMetric
  dsimp only
  split
  · exact Or.inr ⟨_,rfl⟩
  · exact Or.inr ⟨_,rfl⟩
  · exact Or.inl rfl

/-- A relation of the state to the numbers admitted, where every number is. -/
theorem after_relates_exact {sourceDict metricKey : String} {S : Type}
    {detect : Draw → S → Sample K → Except PyError (Option (AnomalyEvent K)) × S}
    {reset : S → S} {R : S → List K → Prop} (hreset : ∀ s, R (reset s) [])
    (hskip : ∀ draw s r, readMetric (exact root) sourceDict metricKey r = none →
      (detect draw s r).2 = s)
    (hnumber : ∀ draw s r xs v, R s xs →
      readMetric (exact root) sourceDict metricKey r = some (.ok v) →
        R (detect draw s r).2 (xs ++ [v]))
    {s : S} (hs : R s []) (ops : List (Op K)) :
    R (after detect reset s ops) (admitted (exact root) sourceDict metricKey [] ops) := by
  apply after_relates (exact root) sourceDict metricKey hreset _ hnumber hs
  intro draw s r xs hs hnot
  rcases readMetric_exact root sourceDict metricKey r with h | ⟨v,h⟩
  · rw [hskip draw s r h]
    exact hs
  · exact absurd h (hnot v)

theorem squares_exact (xs : List K) (m : K) : squares (exact root) xs m = .ok (spreads xs m) := by
  unfold squares spreads
  induction xs with
  | nil => rfl
  | cons x xs ih =>
    rw [List.mapM_cons, ih]
    rfl

theorem div_exact {x y : K} (hy : y ≠ 0) : (exact root).div x y = .ok (x/y) := if_neg hy

theorem literal_zero : (exact root).literal 0 = 0 := Rat.cast_zero

theorem max_exact (a b : K) : (exact root).max a b = max a b := by
  show (if decide (a < b) = true then b else a) = max a b
  rcases lt_or_ge a b with h | h
  · rw [if_pos (decide_eq_true h), max_eq_right h.le]
  · rw [if_neg (fun hlt => absurd (of_decide_eq_true hlt) (not_lt.mpr h)), max_eq_left h]

theorem length_ne_zero {xs : List K} (h : xs ≠ []) : (xs.length : K) ≠ 0 :=
  Nat.cast_ne_zero.mpr (List.length_pos_iff.mpr h).ne'

end PipelineX.Detectors
