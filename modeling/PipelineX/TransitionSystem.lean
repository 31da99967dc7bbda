import Mathlib.Data.List.Basic

/-!
# Runs of a partial step function

A system is a partial function from a state and a label to the next state.
The label carries every choice that the system does not make itself, so a
run is a list of labels and nothing else. The rules here are the ones a
safety proof needs: runs compose, and a step lemma becomes a run lemma.
-/

set_option autoImplicit false

namespace PipelineX.TransitionSystem

variable {S L : Type*}

def run (step : S → L → Option S) : S → List L → Option S
  | s, [] => some s
  | s, l::ls => (step s l).bind (fun t => run step t ls)

theorem run_cons_some {step : S → L → Option S} {s u : S} {l : L} {ls : List L} :
    run step s (l::ls) = some u ↔ ∃ t, step s l = some t ∧ run step t ls = some u :=
  Option.bind_eq_some_iff

theorem run_append (step : S → L → Option S) (s : S) (ls ms : List L) :
    run step s (ls++ms) = (run step s ls).bind (fun t => run step t ms) := by
  induction ls generalizing s with
  | nil => rfl
  | cons l ls ih =>
    rw [List.cons_append, run, run, Option.bind_assoc]
    exact congrArg _ (funext fun t => ih t)

theorem run_append_some {step : S → L → Option S} {s u : S} {ls ms : List L} :
    run step s (ls++ms) = some u ↔ ∃ t, run step s ls = some t ∧ run step t ms = some u := by
  rw [run_append]
  exact Option.bind_eq_some_iff

/-- A property that every step with an admitted label keeps is kept by every
run over admitted labels. -/
theorem run_invariant_of (step : S → L → Option S) (P : L → Prop) (I : S → Prop)
    (hstep : ∀ s l t, P l → I s → step s l = some t → I t)
    {ls : List L} {s t : S} (hls : ∀ l ∈ ls, P l) (hs : I s)
    (hrun : run step s ls = some t) : I t := by
  induction ls generalizing s with
  | nil => exact Option.some.inj hrun ▸ hs
  | cons l ls ih =>
    obtain ⟨u, hu, ht⟩ := run_cons_some.mp hrun
    exact ih (fun m hm => hls m (List.mem_cons_of_mem _ hm))
      (hstep s l u (hls l List.mem_cons_self) hs hu) ht

theorem run_invariant (step : S → L → Option S) (I : S → Prop)
    (hstep : ∀ s l t, I s → step s l = some t → I t)
    {ls : List L} {s t : S} (hs : I s) (hrun : run step s ls = some t) : I t :=
  run_invariant_of step (fun _ => True) I (fun s l t _ => hstep s l t)
    (fun _ _ => trivial) hs hrun

end PipelineX.TransitionSystem
