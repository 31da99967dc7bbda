import PipelineX.TransitionSystem
import PipelineX.Tally

/-!
# Potentials

A potential that pays for the work of each step pays for the work of a run.
Where some step lowers it as long as the goal is not reached, the goal is
reached in as many steps.
-/

set_option autoImplicit false

namespace PipelineX.Potential
open PipelineX.TransitionSystem PipelineX.Tally

variable {S L : Type*}

/-- What the labels cost is paid by the potential at the start and by what
they add to it. -/
theorem run_paid (step : S → L → Option S) (I : S → Prop) (potential : S → ℕ)
    (cost gain : L → ℕ) (hkeep : ∀ s l t, I s → step s l = some t → I t)
    (hpay : ∀ s l t, I s → step s l = some t → potential t + cost l ≤ potential s + gain l)
    {ls : List L} {s t : S} (hs : I s) (hrun : run step s ls = some t) :
    potential t + tally cost ls ≤ potential s + tally gain ls := by
  induction ls generalizing s with
  | nil =>
    cases hrun
    rfl
  | cons l ls ih =>
    obtain ⟨u,hu,ht⟩ := run_cons_some.mp hrun
    have hrest := ih (hkeep s l u hs hu) ht
    have hfirst := hpay s l u hs hu
    simp only [tally_cons]
    omega

/-- The length of the run that reaches the goal is bounded by the potential. -/
theorem reaches (step : S → L → Option S) (I : S → Prop) (potential : S → ℕ) (goal : S → Prop)
    (hgo : ∀ s, I s → ¬ goal s → ∃ l t, step s l = some t ∧ I t ∧ potential t < potential s)
    {s : S} (hs : I s) :
    ∃ ls t, run step s ls = some t ∧ goal t ∧ ls.length ≤ potential s := by
  induction hn : potential s using Nat.strong_induction_on generalizing s with
  | _ n ih =>
    by_cases hg : goal s
    · exact ⟨[],s,rfl,hg,Nat.zero_le _⟩
    · obtain ⟨l,t,hl,ht,hlt⟩ := hgo s hs hg
      obtain ⟨ls,u,hu,hgu,hlen⟩ := ih (potential t) (hn ▸ hlt) ht rfl
      refine ⟨l::ls,u,run_cons_some.mpr ⟨t,hl,hu⟩,hgu,?_⟩
      rw [List.length_cons]
      omega

end PipelineX.Potential
