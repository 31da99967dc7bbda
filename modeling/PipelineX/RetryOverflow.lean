import PipelineX.DecoratorStacks

/-!
# The arithmetic of the retry decorator

The wait is capped, but the power that it is computed from is not: each retry
raises the backoff factor to the number of failures before it. Over an outage
the decorator does what it promises as long as no such power overflows.
-/

set_option autoImplicit false

namespace PipelineX.Decorators
open PipelineX.Records

variable {F : Type}

/-- How many calls in a row end in a transient failure, from the first on. -/
noncomputable def failures (outcome : ℕ → Outcome) : ℕ∞ :=
  sInf {k | ∃ i : ℕ, (outcome i).transient = false ∧ k = i}

theorem lt_failures {outcome : ℕ → Outcome} {n : ℕ} :
    (n : ℕ∞) < failures outcome ↔ ∀ i ≤ n, (outcome i).transient = true := by
  constructor
  · intro h i hi
    by_contra hne
    have hle : failures outcome ≤ i := sInf_le ⟨i,by simpa using hne,rfl⟩
    exact absurd (h.trans_le hle) (not_lt.mpr (Nat.cast_le.mpr hi))
  · intro h
    have hle : ((n+1 : ℕ) : ℕ∞) ≤ failures outcome := by
      refine le_sInf ?_
      rintro k ⟨i,hi,rfl⟩
      refine Nat.cast_le.mpr (Nat.succ_le_of_lt (not_le.mp fun hle => ?_))
      rw [h i hle] at hi
      cases hi
    exact lt_of_lt_of_le (Nat.cast_lt.mpr (Nat.lt_succ_self n)) hle

def Event.isLog : Event F → Bool
  | .log _ => true
  | _ => false

/-- What happened, without the log. -/
def World.steps (w : World F) : List (Event F) := w.events.filter (fun e => !e.isLog)

/-- Calls of the inner stage with these waits between them. -/
def attempts (delays : List F) : List (Event F) :=
  .enter 1 :: delays.flatMap (fun d => [.sleep 0 d,.enter 1])

theorem attempts_cons (d : F) (delays : List F) :
    attempts (d::delays) = .enter 1 :: .sleep 0 d :: attempts delays := rfl

theorem attempts_length (delays : List F) :
    (attempts delays).length = 1+2*delays.length := by
  induction delays with
  | nil => rfl
  | cons d delays ih =>
    rw [attempts_cons, List.length_cons, List.length_cons, ih, List.length_cons]
    omega

theorem steps_emit (w : World F) {e : Event F} (h : e.isLog = false) :
    (w.emit e).steps = w.steps ++ [e] := by
  simp [World.steps, World.emit, h]

theorem steps_log (w : World F) (line : Line F) : (w.emit (.log line)).steps = w.steps := by
  simp [World.steps, World.emit, Event.isLog]

variable [LinearOrder F] [Zero F] [Mul F] [Sub F]

/-- Each transient failure is retried, as long as retries are left, after a
wait within the cap, and the outcome is that of the last call. -/
def Faithful (env : Env F) (r : Retry F) (result : Outcome × World F) : Prop :=
  ∃ (n : ℕ) (delays : List F), (n : ℕ∞) = min (failures env.outcome) r.maxRetries ∧
    delays.length = n ∧ (∀ d ∈ delays, d ≤ r.cap) ∧
    result.2.steps = .enter 0 :: attempts delays ∧ result.1 = env.outcome n

/-- The loop made `m` retries and is at its end, or cannot compute the next
wait. -/
structure Rounds (env : Env F) (r : Retry F) (left failures : ℕ) (w : World F)
    (result : Outcome × World F) (m : ℕ) (delays : List F) : Prop where
  le_left : m ≤ left
  length : delays.length = m
  capped : ∀ d ∈ delays, d ≤ r.cap
  steps : result.2.steps = w.steps ++ attempts delays
  transient : ∀ i < m, (env.outcome (w.calls+i)).transient = true
  inRange : ∀ i < m, env.power r.factor (failures+i) ≠ none
  ends : (result.1 = env.outcome (w.calls+m) ∧
      (m < left → (env.outcome (w.calls+m)).transient = false)) ∨
    (m < left ∧ (env.outcome (w.calls+m)).transient = true ∧
      env.power r.factor (failures+m) = none)

/-- A call of the inner stage. -/
theorem inner_call (env : Env F) (w : World F) :
    (process env [] 1 w).1 = env.outcome w.calls ∧
    (process env [] 1 w).2.calls = w.calls+1 ∧
    (process env [] 1 w).2.steps = w.steps ++ attempts [] := by
  refine ⟨rfl,rfl,?_⟩
  change (w.emit (.enter 1)).steps = _
  exact steps_emit w rfl

omit [Sub F] in
theorem delay_none {env : Env F} {r : Retry F} {k : ℕ} :
    r.delay env k = none ↔ env.power r.factor k = none :=
  Option.map_eq_none_iff

omit [Mul F] [Sub F] in
/-- The loop is over after its first call, or cannot compute the wait after it. -/
theorem rounds_stop {env : Env F} {r : Retry F} {left failures : ℕ} {w : World F}
    {result : Outcome × World F} (hsteps : result.2.steps = w.steps ++ attempts [])
    (hends : (result.1 = env.outcome w.calls ∧
        (0 < left → (env.outcome w.calls).transient = false)) ∨
      (0 < left ∧ (env.outcome w.calls).transient = true ∧
        env.power r.factor failures = none)) :
    Rounds env r left failures w result 0 [] :=
  ⟨Nat.zero_le left,rfl,nofun,hsteps,nofun,nofun,hends⟩

omit [Sub F] in
/-- One more call and one more wait before the rounds of what is left. -/
theorem rounds_retry {env : Env F} {r : Retry F} {left failures m : ℕ} {w w' : World F}
    {result : Outcome × World F} {delay : F} {delays : List F}
    (htransient : (env.outcome w.calls).transient = true)
    (hd : r.delay env failures = some delay) (hcalls : w'.calls = w.calls+1)
    (hsteps : w'.steps = w.steps ++ [.enter 1,.sleep 0 delay])
    (h : Rounds env r left (failures+1) w' result m delays) :
    Rounds env r (left+1) failures w result (m+1) (delay::delays) := by
  have hcall (i : ℕ) : w'.calls+i = w.calls+(i+1) := by omega
  have hpower (i : ℕ) : failures+1+i = failures+(i+1) := by omega
  refine ⟨Nat.succ_le_succ h.le_left,congrArg Nat.succ h.length,
    List.forall_mem_cons.mpr ⟨delay_le hd,h.capped⟩,?_,fun i hi => ?_,fun i hi => ?_,?_⟩
  · rw [h.steps, hsteps, attempts_cons, List.append_assoc]
    rfl
  · cases i with
    | zero => exact htransient
    | succ i =>
      rw [← hcall]
      exact h.transient i (by omega)
  · cases i with
    | zero =>
      intro hnone
      rw [Nat.add_zero, ← delay_none, hd] at hnone
      cases hnone
    | succ i =>
      rw [← hpower]
      exact h.inRange i (by omega)
  · have hends := h.ends
    rw [hcall, hpower] at hends
    rcases hends with ⟨hres,hlast⟩ | ⟨hlt,hmore,hnone⟩
    · exact Or.inl ⟨hres,fun hlt => hlast (by omega)⟩
    · exact Or.inr ⟨by omega,hmore,hnone⟩

theorem retryLoop_rounds (env : Env F) (r : Retry F) (left failures : ℕ) (w : World F) :
    ∃ m delays, Rounds env r left failures w
      (retryLoop env r 0 (process env [] 1) left failures w) m delays := by
  induction left generalizing failures w with
  | zero =>
    obtain ⟨hout,_,hsteps⟩ := inner_call env w
    obtain hs | ⟨e,w',hw⟩ := settled_or_transient (process env [] 1) w
    · rw [retryLoop_settled hs]
      exact ⟨0,[],rounds_stop hsteps (Or.inl ⟨hout,nofun⟩)⟩
    · rw [hw] at hout hsteps
      rw [retryLoop_zero hw]
      refine ⟨0,[],rounds_stop ?_ (Or.inl ⟨hout,nofun⟩)⟩
      rw [steps_log, hsteps]
  | succ left ih =>
    obtain ⟨hout,hcalls,hsteps⟩ := inner_call env w
    obtain hs | ⟨e,w',hw⟩ := settled_or_transient (process env [] 1) w
    · rw [retryLoop_settled hs]
      refine ⟨0,[],rounds_stop hsteps (Or.inl ⟨hout,fun _ => ?_⟩)⟩
      rw [← hout]
      exact hs
    · rw [hw] at hout hcalls hsteps
      have htransient : (env.outcome w.calls).transient = true := by
        rw [← hout]
        rfl
      cases hd : r.delay env failures with
      | none =>
        rw [retryLoop_overflow hw hd]
        exact ⟨0,[],rounds_stop hsteps
          (Or.inr ⟨Nat.succ_pos left,htransient,delay_none.mp hd⟩)⟩
      | some delay =>
        rw [retryLoop_succ hw hd]
        obtain ⟨m,delays,h⟩ := ih (failures+1)
          ((w'.emit (.log (.retrying env.name (failures+1) r.maxRetries delay))).emit
            (.sleep 0 delay))
        refine ⟨m+1,delay::delays,rounds_retry htransient hd ?_ ?_ h⟩
        · exact hcalls
        · rw [steps_emit _ rfl, steps_log, hsteps, List.append_assoc]
          rfl

/-- The decorator around a stage, from the first call on. -/
theorem process_rounds (env : Env F) (r : Retry F) (registries : ℕ → Registry F) :
    ∃ m delays, Rounds env r r.maxRetries 0 ((World.initial registries).emit (.enter 0))
      (process env [.retry r] 0 (World.initial registries)) m delays :=
  retryLoop_rounds env r r.maxRetries 0 _

/-- No power that a retry needs overflows. -/
def InRange (env : Env F) (r : Retry F) : Prop :=
  ∀ i : ℕ, (i : ℕ∞) < min (failures env.outcome) r.maxRetries → env.power r.factor i ≠ none

variable {env : Env F} {r : Retry F} {registries : ℕ → Registry F}

/-- The decorator gave up computing one of the retries that it owes. -/
theorem not_faithful {i : ℕ} (hi : (i : ℕ∞) < min (failures env.outcome) r.maxRetries)
    (hpower : env.power r.factor i = none) :
    ¬Faithful env r (process env [.retry r] 0 (World.initial registries)) := by
  rintro ⟨n,delays,hn,hlen,_,hsteps,_⟩
  obtain ⟨m,made,h⟩ := process_rounds env r registries
  have hmn : m = n := by
    have hboth := h.steps.symm.trans hsteps
    have hlength : (attempts made).length = (attempts delays).length :=
      congrArg List.length (List.cons.inj hboth).2
    rw [attempts_length, attempts_length, h.length, hlen] at hlength
    omega
  have hin : i < m := by
    rw [hmn]
    exact Nat.cast_lt.mp (hn ▸ hi)
  have hrange := h.inRange i hin
  rw [Nat.zero_add] at hrange
  exact hrange hpower

theorem faithful_of_inRange (h : InRange env r) :
    Faithful env r (process env [.retry r] 0 (World.initial registries)) := by
  obtain ⟨m,delays,hrounds⟩ := process_rounds env r registries
  have hcalls : ((World.initial registries).emit (.enter 0)).calls = 0 := rfl
  have htransient := hrounds.transient
  have hends := hrounds.ends
  simp only [hcalls, Nat.zero_add] at htransient hends
  have hmore (hm : m < r.maxRetries) (hlast : (env.outcome m).transient = true) :
      (m : ℕ∞) < min (failures env.outcome) r.maxRetries := by
    refine lt_min (lt_failures.mpr fun i hi => ?_) (Nat.cast_lt.mpr hm)
    rcases Nat.lt_or_eq_of_le hi with hi | rfl
    · exact htransient i hi
    · exact hlast
  rcases hends with ⟨hres,hlast⟩ | ⟨hlt,htrans,hnone⟩
  · refine ⟨m,delays,le_antisymm (le_min ?_ (Nat.cast_le.mpr hrounds.le_left)) ?_,
      hrounds.length,hrounds.capped,hrounds.steps,hres⟩
    · cases m with
      | zero => exact zero_le
      | succ m =>
        have hlt := lt_failures.mpr fun i hi => htransient i (Nat.lt_succ_of_le hi)
        rw [Nat.cast_succ]
        exact Order.add_one_le_of_lt hlt
    · -- another failure would have been retried
      refine le_of_not_gt fun hgt => ?_
      have hm := Nat.cast_lt.mp (hgt.trans_le (min_le_right _ _))
      have htrue := lt_failures.mp (hgt.trans_le (min_le_left _ _)) m (Nat.le_refl m)
      rw [hlast hm] at htrue
      cases htrue
  · exact absurd hnone (h m (hmore hlt htrans))

/-- The decorator keeps its promise exactly when none of the powers overflows. -/
theorem retries_faithful_iff (env : Env F) (r : Retry F) (registries : ℕ → Registry F) :
    Faithful env r (process env [.retry r] 0 (World.initial registries)) ↔ InRange env r := by
  constructor
  · intro h i hi hpower
    exact not_faithful hi hpower h
  · exact faithful_of_inRange

/-- A stage that stays busy, with powers up to the largest double. -/
def outage : Env ℚ where
  name := "parser"
  outcome := fun _ => .raised (.transientStageError "busy")
  record := fun _ => ⟨0,none,none,"",.info,"",.empty,.empty,[]⟩
  power := fun x n => if x^n < 2^1024 then some (x^n) else none
  perfCounter := fun reading => reading

theorem outage_power {x : ℚ} {n : ℕ} (h : 2^1024 ≤ x^n) : outage.power x n = none :=
  if_neg (not_lt.mpr h)

/-- The 1025th retry of a long outage overflows. -/
theorem long_outage_overflows : ∃ r, Retry.init 2000 (1/20 : ℚ) 1 2 = .ok r ∧
    ¬Faithful outage r (process outage [.retry r] 0 (World.initial fun _ => .empty)) := by
  refine ⟨⟨2000,1/20,1,2,default_base_nonneg⟩,?_,?_⟩
  · unfold Retry.init
    rw [if_neg (by decide), dif_neg (not_lt.mpr default_base_nonneg)]
    rfl
  · refine not_faithful (i := 1024) (lt_min (lt_failures.mpr fun _ _ => rfl) ?_) ?_
    · exact Nat.cast_lt.mpr (by norm_num)
    · exact outage_power (le_refl _)

end PipelineX.Decorators
