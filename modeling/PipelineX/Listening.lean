import PipelineX.TransitionSystem

/-!
# A listener beside a system

A listener hears of some of the steps and changes its own state, never the
system's. So a run with the listener is a run without it, and the listener's
state is the fold of what it has heard.
-/

set_option autoImplicit false

namespace PipelineX.Listening
open PipelineX.TransitionSystem

variable {S L E A I : Type*}

section
variable (step : S → L → Option S) (hears : S → L → Option E)

/-- A label carries an input for the listener, which it uses when it hears
something. -/
def listen (effect : I → E → A → A) (s : S × A) (l : L × I) : Option (S × A) :=
  (step s.1 l.1).map (fun t => (t,(hears s.1 l.1).elim s.2 (fun e => effect l.2 e s.2)))

/-- What is heard in a run, with the inputs of these steps. -/
def heard : S → List (L × I) → List (I × E)
  | _, [] => []
  | s, l::ls =>
    match step s l.1 with
    | none => []
    | some t => ((hears s l.1).map (fun e => (l.2,e))).toList ++ heard t ls

end

section
variable {step : S → L → Option S} {hears : S → L → Option E}

theorem listen_some {effect : I → E → A → A} {s t : S} {a b : A} {l : L × I} :
    listen step hears effect (s,a) l = some (t,b) ↔
      step s l.1 = some t ∧ b = (hears s l.1).elim a (fun e => effect l.2 e a) := by
  simp only [listen, Option.map_eq_some_iff, Prod.mk.injEq]
  constructor
  · rintro ⟨u,hu,rfl,rfl⟩
    exact ⟨hu,rfl⟩
  · rintro ⟨ht,rfl⟩
    exact ⟨t,ht,rfl,rfl⟩

/-- The listener does not disturb the system, and its state is the fold of what
it has heard. -/
theorem listen_run {effect : I → E → A → A} {ls : List (L × I)} {s t : S} {a b : A}
    (h : run (listen step hears effect) (s,a) ls = some (t,b)) :
    run step s (ls.map Prod.fst) = some t ∧
      b = (heard step hears s ls).foldl (fun a p => effect p.1 p.2 a) a := by
  induction ls generalizing s a with
  | nil =>
    cases h
    exact ⟨rfl,rfl⟩
  | cons l ls ih =>
    obtain ⟨⟨u,c⟩,hu,ht⟩ := run_cons_some.mp h
    obtain ⟨hstep,rfl⟩ := listen_some.mp hu
    obtain ⟨hrun,rfl⟩ := ih ht
    refine ⟨run_cons_some.mpr ⟨u,hstep,hrun⟩,?_⟩
    rw [heard, hstep]
    cases hears s l.1 <;> rfl

/-- The inputs of what was heard are inputs of the run. -/
theorem heard_input {ls : List (L × I)} {s : S} :
    ∀ p ∈ heard step hears s ls, ∃ l ∈ ls, l.2 = p.1 := by
  induction ls generalizing s with
  | nil => simp [heard]
  | cons l ls ih =>
    intro p hp
    rw [heard] at hp
    split at hp
    · cases hp
    · next t ht =>
      rcases List.mem_append.mp hp with h | h
      · obtain ⟨e,_,rfl⟩ := Option.map_eq_some_iff.mp (Option.mem_toList.mp h)
        exact ⟨l,List.mem_cons_self,rfl⟩
      · obtain ⟨m,hm,he⟩ := ih p h
        exact ⟨m,List.mem_cons_of_mem _ hm,he⟩

/-- A relation between the state and what was heard up to it, kept by every
step, holds after every run. -/
theorem heard_invariant (R : S → List E → Prop)
    (hstep : ∀ s l t es, R s es → step s l = some t → R t (es ++ (hears s l).toList))
    {ls : List (L × I)} {s t : S} {es : List E} (hs : R s es)
    (hrun : run step s (ls.map Prod.fst) = some t) :
    R t (es ++ (heard step hears s ls).map Prod.snd) := by
  induction ls generalizing s es with
  | nil =>
    cases hrun
    rw [heard, List.map_nil, List.append_nil]
    exact hs
  | cons l ls ih =>
    obtain ⟨u,hu,ht⟩ := run_cons_some.mp hrun
    have h := ih (hstep s l.1 u es hs hu) ht
    rw [List.append_assoc] at h
    have hmap : (heard step hears s (l::ls)).map Prod.snd =
        (hears s l.1).toList ++ (heard step hears u ls).map Prod.snd := by
      rw [heard, hu]
      cases hears s l.1 <;> rfl
    rwa [hmap]

end
end PipelineX.Listening
