import PipelineX.OrderedDict
import Mathlib.Data.List.Pairwise

/-!
# Recency order

A dictionary whose touched keys go to the end lists its keys from the one
touched longest ago to the one touched last, and keeps doing so when keys are
removed anywhere. The history of touches is a list, newest last.
-/

set_option autoImplicit false

namespace PipelineX.Recency

variable {K V : Type*} [DecidableEq K]

/-- The position of the last touch of `k`, counted from one; zero if it was
never touched. -/
def lastTouch (h : List K) (k : K) : ℕ := h.length-h.reverse.idxOf k

/-- The keys are in the order of their last touches. -/
def Recent (h : List K) (d : OrderedDict K V) : Prop :=
  d.keys.Pairwise (fun k l => lastTouch h k < lastTouch h l)

end PipelineX.Recency
