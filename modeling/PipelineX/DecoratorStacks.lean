import PipelineX.Decorators
import PipelineX.Tally
import Mathlib.Data.ENat.Lattice

/-!
# Stacks of decorators

However retries, timings and logs are nested, the stack behaves as its inner
stage called again after each transient failure, up to the product of the
attempts of its retry layers.
-/

set_option autoImplicit false

namespace PipelineX.Decorators
open PipelineX.Records PipelineX.Tally

variable {F : Type}

@[simp] theorem emit_calls (w : World F) (e : Event F) : (w.emit e).calls = w.calls := rfl

@[simp] theorem emit_registries (w : World F) (e : Event F) :
    (w.emit e).registries = w.registries := rfl

@[simp] theorem emit_events (w : World F) (e : Event F) :
    (w.emit e).events = w.events ++ [e] := rfl

theorem transient_iff {o : Outcome} :
    o.transient = true ↔ ∃ e, o = .raised (.transientStageError e) := by
  constructor
  · intro h
    unfold Outcome.transient at h
    split at h
    · exact ⟨_,rfl⟩
    · cases h
  · rintro ⟨e,rfl⟩
    rfl

theorem logOutcome_calls (env : Env F) (level : ℤ) (w : World F) (o : Outcome) :
    (logOutcome env level w o).calls = w.calls := by
  cases o <;> rfl

/-- From `w` on the inner stage was called up to the first outcome that is not
transient, or `limit` times when there was none before, and the last outcome
is the result. -/
def Settles (env : Env F) (limit : ℕ) (w : World F) (result : Outcome × World F) : Prop :=
  ∃ n < limit, result.2.calls = w.calls+n+1 ∧ result.1 = env.outcome (w.calls+n) ∧
    (∀ i < n, (env.outcome (w.calls+i)).transient = true) ∧
    (n+1 < limit → (env.outcome (w.calls+n)).transient = false)

theorem Settles.congr {env : Env F} {limit : ℕ} {w v : World F} {a b : Outcome × World F}
    (h : Settles env limit v a) (hw : w.calls = v.calls) (ho : b.1 = a.1)
    (hc : b.2.calls = a.2.calls) : Settles env limit w b := by
  unfold Settles
  rw [hw, ho, hc]
  exact h

/-- The next round begins where the transient failures of this one end. -/
theorem Settles.again {env : Env F} {limit more : ℕ} {w v w' : World F} {o : Outcome}
    {result : Outcome × World F} (hfirst : Settles env limit w (o,w'))
    (ho : o.transient = true) (hv : v.calls = w'.calls) (hnext : Settles env more v result) :
    Settles env (limit+more) w result := by
  obtain ⟨n,hn,hcalls,hout,htransient,hlast⟩ := hfirst
  obtain ⟨m,hm,hcalls',hout',htransient',hlast'⟩ := hnext
  have hout : o = env.outcome (w.calls+n) := hout
  have hall : n+1 = limit := by
    by_contra hne
    rw [hout, hlast (by omega)] at ho
    cases ho
  have hstart : v.calls = w.calls+limit := by
    rw [hv, hcalls, ← hall, Nat.add_assoc]
  rw [hstart, Nat.add_assoc] at hcalls' hout'
  rw [hstart, Nat.add_assoc] at hlast'
  refine ⟨limit+m,by omega,by omega,hout',fun i hi => ?_,fun hlt => hlast' (by omega)⟩
  by_cases hin : i < n
  · exact htransient i hin
  · by_cases hi' : i = n
    · rw [hi', ← hout]
      exact ho
    · have h := htransient' (i-limit) (by omega)
      rwa [hstart, Nat.add_assoc, show limit+(i-limit) = i by omega] at h

variable [LinearOrder F] [Zero F]

/-- How often a layer may call what is inside it. -/
def Layer.attempts : Layer F → ℕ
  | .retry r => r.maxRetries+1
  | .timing _ => 1
  | .logging _ => 1

def budget (stack : List (Layer F)) : ℕ := (stack.map Layer.attempts).prod

/-- The number of the first call that does not end in a transient failure. -/
noncomputable def firstSettled (outcome : ℕ → Outcome) : ℕ∞ :=
  sInf {k | ∃ i : ℕ, (outcome i).transient = false ∧ k = (i+1 : ℕ)}

section
variable [Mul F] {env : Env F} {r : Retry F} {depth : ℕ} {inner : World F → Outcome × World F}

omit [LinearOrder F] [Zero F] [Mul F] in
theorem settled_or_transient (inner : World F → Outcome × World F) (w : World F) :
    (inner w).1.transient = false ∨
      ∃ e w', inner w = (.raised (.transientStageError e),w') := by
  cases h : (inner w).1.transient with
  | false => exact Or.inl rfl
  | true =>
    obtain ⟨e,he⟩ := transient_iff.mp h
    exact Or.inr ⟨e,(inner w).2,Prod.ext he rfl⟩

theorem retryLoop_settled {w : World F} (h : (inner w).1.transient = false) (left failures : ℕ) :
    retryLoop env r depth inner left failures w = inner w := by
  unfold retryLoop
  split
  · next e w' he =>
    rw [he] at h
    cases h
  · rfl

theorem retryLoop_zero {w w' : World F} {e : String}
    (h : inner w = (.raised (.transientStageError e),w')) (failures : ℕ) :
    retryLoop env r depth inner 0 failures w =
      (.raised (.transientStageError e),w'.emit (.log (.gaveUp env.name (failures+1) e))) := by
  unfold retryLoop
  simp only [h]

theorem retryLoop_succ {w w' : World F} {e : String} {delay : F} {failures : ℕ}
    (h : inner w = (.raised (.transientStageError e),w'))
    (hd : r.delay env failures = some delay) (left : ℕ) :
    retryLoop env r depth inner (left+1) failures w =
      retryLoop env r depth inner left (failures+1)
        ((w'.emit (.log (.retrying env.name (failures+1) r.maxRetries delay))).emit
          (.sleep depth delay)) := by
  conv_lhs => unfold retryLoop
  simp only [h, hd]

theorem retryLoop_overflow {w w' : World F} {e : String} {failures : ℕ}
    (h : inner w = (.raised (.transientStageError e),w')) (hd : r.delay env failures = none)
    (left : ℕ) : retryLoop env r depth inner (left+1) failures w =
      (.raised (.other "OverflowError" "(34, 'Numerical result out of range')"),w') := by
  unfold retryLoop
  simp only [h, hd]

theorem delay_some (r : Retry F) {failures : ℕ} (h : env.power r.factor failures ≠ none) :
    ∃ delay, r.delay env failures = some delay := by
  obtain ⟨p,hp⟩ := Option.ne_none_iff_exists'.mp h
  exact ⟨min r.cap (r.base*p),by rw [Retry.delay, hp]; rfl⟩

theorem delay_le {failures : ℕ} {delay : F} (h : r.delay env failures = some delay) :
    delay ≤ r.cap := by
  obtain ⟨p,_,rfl⟩ := Option.map_eq_some_iff.mp h
  exact min_le_left _ _

theorem retryLoop_settles {limit : ℕ} (hinner : ∀ w, Settles env limit w (inner w))
    (left failures : ℕ) (w : World F)
    (hpower : ∀ i, i < left → env.power r.factor (failures+i) ≠ none) :
    Settles env ((left+1)*limit) w (retryLoop env r depth inner left failures w) := by
  induction left generalizing failures w with
  | zero =>
    rw [Nat.zero_add, Nat.one_mul]
    obtain hs | ⟨e,w',hw⟩ := settled_or_transient inner w
    · rw [retryLoop_settled hs]
      exact hinner w
    · have h := hinner w
      rw [hw] at h
      rw [retryLoop_zero hw]
      exact h
  | succ left ih =>
    obtain hs | ⟨e,w',hw⟩ := settled_or_transient inner w
    · obtain ⟨n,hn,hcalls,hout,htransient,_⟩ := hinner w
      have hle : limit ≤ (left+1+1)*limit := Nat.le_mul_of_pos_left _ (Nat.succ_pos _)
      rw [retryLoop_settled hs]
      exact ⟨n,hn.trans_le hle,hcalls,hout,htransient,fun _ => hout ▸ hs⟩
    · have hzero := hpower 0 (Nat.succ_pos left)
      rw [Nat.add_zero] at hzero
      obtain ⟨delay,hd⟩ := delay_some r hzero
      have hfirst := hinner w
      rw [hw] at hfirst
      rw [retryLoop_succ hw hd, Nat.succ_mul, Nat.add_comm]
      refine hfirst.again rfl rfl (ih (failures+1) _ fun i hi => ?_)
      rw [Nat.add_assoc, Nat.add_comm 1]
      exact hpower (i+1) (Nat.succ_lt_succ hi)

/-- No power of a backoff factor overflows within the retries of its layer. -/
def PowersInRange (env : Env F) (stack : List (Layer F)) : Prop :=
  ∀ r : Retry F, .retry r ∈ stack → ∀ i < r.maxRetries, env.power r.factor i ≠ none

variable [Sub F]

theorem process_timing (registry : ℕ) (stack : List (Layer F)) (depth : ℕ) (w : World F) :
    process env (.timing registry::stack) depth w =
      let result := process env stack (depth+1) (w.emit (.enter depth)).tick
      (result.1,record env registry
        (env.perfCounter result.2.readings-env.perfCounter w.readings) result.2.tick) := rfl

theorem process_logging (level : ℤ) (stack : List (Layer F)) (depth : ℕ) (w : World F) :
    process env (.logging level::stack) depth w =
      let result := process env stack (depth+1) (logEnter env level (w.emit (.enter depth)))
      (result.1,logOutcome env level result.2 result.1) := rfl

theorem process_settles (stack : List (Layer F)) (hpower : PowersInRange env stack) (depth : ℕ)
    (w : World F) : Settles env (budget stack) w (process env stack depth w) := by
  induction stack generalizing depth w with
  | nil => exact ⟨0,Nat.one_pos,rfl,rfl,fun i hi => absurd hi (Nat.not_lt_zero i),by simp [budget]⟩
  | cons layer stack ih =>
    have ih := ih fun r hr => hpower r (List.mem_cons_of_mem _ hr)
    have hbudget : budget (layer::stack) = layer.attempts*budget stack := by simp [budget]
    rw [hbudget]
    cases layer with
    | retry r =>
      refine retryLoop_settles (fun w => ih (depth+1) w) r.maxRetries 0 (w.emit (.enter depth))
        fun i hi => ?_
      rw [Nat.zero_add]
      exact hpower r List.mem_cons_self i hi
    | timing registry =>
      rw [Layer.attempts, Nat.one_mul]
      have h := ih (depth+1) (w.emit (.enter depth)).tick
      rw [process_timing]
      exact h.congr rfl rfl rfl
    | logging level =>
      rw [Layer.attempts, Nat.one_mul]
      have h := ih (depth+1) (logEnter env level (w.emit (.enter depth)))
      rw [process_logging]
      exact h.congr rfl rfl (logOutcome_calls env level _ _)

end

def Event.entersAt (depth : ℕ) : Event F → Bool
  | .enter d => d = depth
  | _ => false

/-- How often `process` was called at this depth. -/
def World.reached (w : World F) (depth : ℕ) : ℕ := w.events.countP (Event.entersAt depth)

/-- How many samples the stage's timer has. -/
def samples (env : Env F) (g : Registry F) : ℕ :=
  ((g.timers.get? ("stage." ++ env.name ++ ".duration_s")).getD []).length

/-- The stage's counter of invocations. -/
def invocations (env : Env F) (g : Registry F) : ℤ :=
  (g.counters.get? ("stage." ++ env.name ++ ".invocations")).getD 0

/-- The layer at this depth is a timing with this registry. -/
def timesAt (stack : List (Layer F)) (registry depth : ℕ) : Bool :=
  match stack[depth]? with
  | some (.timing g) => g = registry
  | _ => false

/-- The event is a call of a timing with this registry. -/
def weight (stack : List (Layer F)) (registry : ℕ) : Event F → ℕ
  | .enter depth => if timesAt stack registry depth then 1 else 0
  | _ => 0

theorem timesAt_iff {stack : List (Layer F)} {registry depth : ℕ} :
    timesAt stack registry depth = true ↔ stack[depth]? = some (.timing registry) := by
  unfold timesAt
  split
  · next g hg => simp [hg]
  · next h =>
    constructor
    · nofun
    · intro ht
      exact absurd ht (h registry)

theorem weight_enter {stack : List (Layer F)} {registry depth : ℕ}
    (h : stack[depth]? ≠ some (.timing registry)) : weight stack registry (.enter depth) = 0 :=
  if_neg fun ht => h (timesAt_iff.mp ht)

theorem weight_timing {stack : List (Layer F)} {registry depth : ℕ}
    (h : stack[depth]? = some (.timing registry)) (g : ℕ) :
    weight stack g (.enter depth) = if registry = g then 1 else 0 := by
  simp [weight, timesAt, h]

/-- The sleep is that of a retry layer and within its cap. -/
def Bounded (stack : List (Layer F)) : Event F → Prop
  | .sleep depth delay => ∃ r : Retry F, stack[depth]? = some (.retry r) ∧ delay ≤ r.cap
  | _ => True

/-- What happened from `w` to `w'` in this stack: no sleep was too long, and
every registry has a sample and an invocation more for each call of a timing
that it belongs to. -/
structure Accounts (env : Env F) (stack : List (Layer F)) (w w' : World F) (new : List (Event F)) :
    Prop where
  events : w'.events = w.events ++ new
  bounded : ∀ e ∈ new, Bounded stack e
  samples : ∀ g, samples env (w'.registries g) =
    samples env (w.registries g)+tally (weight stack g) new
  invocations : ∀ g, invocations env (w'.registries g) =
    invocations env (w.registries g)+(tally (weight stack g) new : ℕ)

section
variable {env : Env F} {stack : List (Layer F)} {w w' w'' : World F} {new more : List (Event F)}

theorem Accounts.refl (env : Env F) (stack : List (Layer F)) (w : World F) :
    Accounts env stack w w [] where
  events := (List.append_nil _).symm
  bounded := nofun
  samples _ := rfl
  invocations _ := (Int.add_zero _).symm

theorem Accounts.trans (h : Accounts env stack w w' new) (h' : Accounts env stack w' w'' more) :
    Accounts env stack w w'' (new ++ more) where
  events := by rw [h'.events, h.events, List.append_assoc]
  bounded e he := (List.mem_append.mp he).elim (h.bounded e) (h'.bounded e)
  samples g := by rw [h'.samples, h.samples, tally_append, Nat.add_assoc]
  invocations g := by
    rw [h'.invocations, h.invocations, tally_append]
    omega

theorem Accounts.congr (h : Accounts env stack w w' new) (he : w''.events = w'.events)
    (hg : w''.registries = w'.registries) : Accounts env stack w w'' new where
  events := he.trans h.events
  bounded := h.bounded
  samples g := by rw [hg, h.samples]
  invocations g := by rw [hg, h.invocations]

/-- An event that is no call of a timing. -/
theorem Accounts.emit (h : Accounts env stack w w' new) {e : Event F} (hb : Bounded stack e)
    (hw : ∀ g, weight stack g e = 0) : Accounts env stack w (w'.emit e) (new ++ [e]) where
  events := by rw [emit_events, h.events, List.append_assoc]
  bounded d hd := (List.mem_append.mp hd).elim (h.bounded d)
    fun he => List.mem_singleton.mp he ▸ hb
  samples g := by simp [h.samples, hw]
  invocations g := by simp [h.invocations, hw]

theorem Accounts.log (h : Accounts env stack w w' new) (line : Line F) :
    Accounts env stack w (w'.emit (.log line)) (new ++ [.log line]) :=
  h.emit trivial fun _ => rfl

theorem Accounts.logOutcome (h : Accounts env stack w w' new) (level : ℤ) (o : Outcome) :
    ∃ more, Accounts env stack w (Decorators.logOutcome env level w' o) more := by
  cases o with
  | returned result => exact ⟨_,h.log _⟩
  | raised e => exact ⟨_,h.log _⟩
  | interrupted type => exact ⟨_,h⟩

/-- A call of what is no timing. -/
theorem Accounts.enter {depth : ℕ} (h : ∀ g, stack[depth]? ≠ some (.timing g)) (w : World F) :
    Accounts env stack w (w.emit (.enter depth)) [.enter depth] :=
  (Accounts.refl env stack w).emit trivial fun g => weight_enter (h g)

end

section
variable [Mul F] {env : Env F} {stack : List (Layer F)} {r : Retry F} {depth : ℕ}
  {inner : World F → Outcome × World F}

theorem retryLoop_accounts (hr : stack[depth]? = some (.retry r))
    (hinner : ∀ w, ∃ new, Accounts env stack w (inner w).2 new) (left failures : ℕ)
    (w : World F) :
    ∃ new, Accounts env stack w (retryLoop env r depth inner left failures w).2 new := by
  induction left generalizing failures w with
  | zero =>
    obtain ⟨new,h⟩ := hinner w
    obtain hs | ⟨e,w',hw⟩ := settled_or_transient inner w
    · exact ⟨new,retryLoop_settled hs 0 failures ▸ h⟩
    · rw [hw] at h
      rw [retryLoop_zero hw]
      exact ⟨_,h.log _⟩
  | succ left ih =>
    obtain ⟨new,h⟩ := hinner w
    obtain hs | ⟨e,w',hw⟩ := settled_or_transient inner w
    · exact ⟨new,retryLoop_settled hs (left+1) failures ▸ h⟩
    · rw [hw] at h
      cases hd : r.delay env failures with
      | none => exact ⟨new,retryLoop_overflow hw hd left ▸ h⟩
      | some delay =>
        have hsleep : Bounded stack (.sleep depth delay) := ⟨r,hr,delay_le hd⟩
        have hround := (h.log (.retrying env.name (failures+1) r.maxRetries delay)).emit hsleep
          fun _ => rfl
        obtain ⟨more,hmore⟩ := ih (failures+1) _
        rw [retryLoop_succ hw hd]
        exact ⟨_,hround.trans hmore⟩

end

section
variable {env : Env F}

omit [Zero F] in
theorem timing_samples (g : Registry F) (seconds : F) :
    samples env (g.timing ("stage." ++ env.name ++ ".duration_s") seconds) = samples env g+1 := by
  unfold samples Registry.timing
  generalize "stage." ++ env.name ++ ".duration_s" = key
  dsimp only
  rw [OrderedDict.get?_insert_self, Option.getD_some, (Bisect.insort_perm _ _ _).length_eq,
    List.length_cons, OrderedDict.get?_setDefault_self, Option.getD_some]

omit [LinearOrder F] [Zero F] in
theorem inc_invocations (g : Registry F) :
    invocations env (g.inc ("stage." ++ env.name ++ ".invocations")) = invocations env g+1 := by
  unfold invocations Registry.inc
  rw [OrderedDict.get?_insert_self, Option.getD_some]

omit [Zero F] in
/-- One call of a timing adds to its own registry and to no other. -/
theorem record_registries (env : Env F) (registry : ℕ) (elapsed : F) (w : World F) (g : ℕ) :
    samples env ((record env registry elapsed w).registries g) =
      samples env (w.registries g)+(if registry = g then 1 else 0) ∧
    invocations env ((record env registry elapsed w).registries g) =
      invocations env (w.registries g)+(if registry = g then 1 else 0) := by
  unfold record
  by_cases h : registry = g
  · subst h
    simp only [Function.update_self, if_true]
    exact ⟨timing_samples (w.registries registry) elapsed,inc_invocations _⟩
  · simp [Function.update_of_ne (Ne.symm h), h]

/-- A call of a timing: what the layers inside it did, and its own sample. -/
theorem timing_accounts {stack : List (Layer F)} {w w' : World F} {new : List (Event F)}
    {depth registry : ℕ} (hat : stack[depth]? = some (.timing registry))
    (h : Accounts env stack (w.emit (.enter depth)).tick w' new) (elapsed : F) :
    Accounts env stack w (record env registry elapsed w'.tick) (.enter depth::new) where
  events := by
    have hinner := h.events
    change w'.events = (w.events ++ [.enter depth]) ++ new at hinner
    rwa [List.append_assoc] at hinner
  bounded e he := (List.mem_cons.mp he).elim (fun he => he ▸ trivial) (h.bounded e)
  samples g := by
    have hinner := h.samples g
    change _ = samples env (w.registries g)+_ at hinner
    rw [(record_registries env registry elapsed w'.tick g).1, tally_cons, weight_timing hat]
    change samples env (w'.registries g)+_ = _
    omega
  invocations g := by
    have hinner := h.invocations g
    change _ = invocations env (w.registries g)+_ at hinner
    rw [(record_registries env registry elapsed w'.tick g).2, tally_cons, weight_timing hat]
    change invocations env (w'.registries g)+_ = _
    split <;> push_cast <;> omega

variable [Mul F] [Sub F]

theorem process_accounts {stack : List (Layer F)} (layers : List (Layer F)) {depth : ℕ}
    (hstack : stack.drop depth = layers) (w : World F) :
    ∃ new, Accounts env stack w (process env layers depth w).2 new := by
  induction layers generalizing depth w with
  | nil =>
    have hat : stack[depth]? = none := List.getElem?_eq_none (List.drop_eq_nil_iff.mp hstack)
    have henter : Accounts env stack w (w.emit (.enter depth)) _ := .enter (by simp [hat]) w
    exact ⟨_,henter.congr rfl rfl⟩
  | cons layer layers ih =>
    have hat : stack[depth]? = some layer := by
      rw [← Nat.add_zero depth, ← List.getElem?_drop, hstack, List.getElem?_cons_zero]
    have hdrop : stack.drop (depth+1) = layers := by
      rw [← List.drop_drop, hstack, List.drop_succ_cons, List.drop_zero]
    cases layer with
    | retry r =>
      have henter : Accounts env stack w (w.emit (.enter depth)) _ := .enter (by simp [hat]) w
      obtain ⟨new,h⟩ := retryLoop_accounts hat (fun w => ih hdrop w) r.maxRetries 0
        (w.emit (.enter depth))
      exact ⟨_,henter.trans h⟩
    | timing registry =>
      obtain ⟨new,h⟩ := ih hdrop (w.emit (.enter depth)).tick
      rw [process_timing]
      exact ⟨_,timing_accounts hat h _⟩
    | logging level =>
      have henter : Accounts env stack w (w.emit (.enter depth)) _ := .enter (by simp [hat]) w
      obtain ⟨new,h⟩ := ih hdrop (logEnter env level (w.emit (.enter depth)))
      rw [process_logging]
      exact ((henter.log _).trans h).logOutcome level _

end

omit [LinearOrder F] [Zero F] in
theorem Settles.calls_eq {env : Env F} {limit : ℕ} {w : World F} {result : Outcome × World F}
    (h : Settles env limit w result) (hw : w.calls = 0) :
    (result.2.calls : ℕ∞) = min (firstSettled env.outcome) limit := by
  obtain ⟨n,hn,hcalls,_,htransient,hlast⟩ := h
  rw [hw, Nat.zero_add] at hcalls hlast
  have hbefore : ∀ i, (env.outcome i).transient = false → n ≤ i := by
    intro i hi
    by_contra hlt
    have ht := htransient i (by omega)
    rw [hw, Nat.zero_add, hi] at ht
    cases ht
  rw [hcalls]
  cases ht : (env.outcome n).transient with
  | false =>
    -- the call after which it stops is the first that is not transient
    have hfirst : firstSettled env.outcome = (n+1 : ℕ) := by
      refine le_antisymm (sInf_le ⟨n,ht,rfl⟩) (le_sInf ?_)
      rintro k ⟨i,hi,rfl⟩
      exact Nat.cast_le.mpr (Nat.succ_le_succ (hbefore i hi))
    rw [hfirst, min_eq_left (Nat.cast_le.mpr hn)]
  | true =>
    -- it gave up, so no call so far was anything else
    have hall : n+1 = limit := by
      by_contra hne
      rw [hlast (by omega)] at ht
      cases ht
    rw [hall, min_eq_right]
    refine le_sInf ?_
    rintro k ⟨i,hi,rfl⟩
    have hne : i ≠ n := fun he => by rw [he, ht] at hi; cases hi
    have hle := hbefore i hi
    exact Nat.cast_le.mpr (by omega)

/-- The layer at this depth is the only timing of the stack with this registry. -/
def OwnRegistry (stack : List (Layer F)) (depth registry : ℕ) : Prop :=
  ∀ d, stack[d]? = some (.timing registry) ↔ d = depth

theorem tally_reached {stack : List (Layer F)} {depth registry : ℕ}
    (h : OwnRegistry stack depth registry) (events : List (Event F)) :
    tally (weight stack registry) events = events.countP (Event.entersAt depth) := by
  induction events with
  | nil => rfl
  | cons e events ih =>
    rw [tally_cons, ih, List.countP_cons, Nat.add_comm]
    congr 1
    cases e with
    | enter d =>
      by_cases hd : d = depth
      · subst hd
        simp [weight, Event.entersAt, timesAt_iff.mpr ((h d).mpr rfl)]
      · simp [weight_enter (mt (h d).mp hd), Event.entersAt, hd]
    | sleep d delay => rfl
    | log line => rfl

section
variable [Mul F] [Sub F]

/-- Every stack of decorators calls its inner stage up to the first outcome
that is not transient, but no more often than its retries allow, and ends as
the last call does. No sleep is over the cap of its layer, and a timing with a
registry of its own adds a sample and an invocation for each call of it. -/
theorem stack_transparent (env : Env F) (stack : List (Layer F)) (registries : ℕ → Registry F)
    (hpower : PowersInRange env stack) :
    let run := process env stack 0 (World.initial registries)
    (run.2.calls : ℕ∞) = min (firstSettled env.outcome) (budget stack) ∧
    (∃ last, run.2.calls = last+1 ∧ run.1 = env.outcome last) ∧
    (∀ depth delay, .sleep depth delay ∈ run.2.events →
      ∃ r : Retry F, stack[depth]? = some (.retry r) ∧ delay ≤ r.cap) ∧
    ∀ depth registry, OwnRegistry stack depth registry →
      samples env (run.2.registries registry) =
        samples env (registries registry)+run.2.reached depth ∧
      invocations env (run.2.registries registry) =
        invocations env (registries registry)+run.2.reached depth := by
  intro run
  have hsettles : Settles env (budget stack) (World.initial registries) run :=
    process_settles stack hpower 0 _
  obtain ⟨new,haccounts⟩ : ∃ new, Accounts env stack (World.initial registries) run.2 new :=
    process_accounts stack rfl _
  have hevents : run.2.events = new := haccounts.events
  refine ⟨hsettles.calls_eq rfl,?_,?_,?_⟩
  · obtain ⟨n,_,hcalls,hout,_⟩ := hsettles
    rw [show (World.initial registries).calls = 0 from rfl, Nat.zero_add] at hcalls hout
    exact ⟨n,hcalls,hout⟩
  · intro depth delay hsleep
    exact haccounts.bounded _ (hevents ▸ hsleep)
  · intro depth registry hown
    have hreached : run.2.reached depth = tally (weight stack registry) new := by
      rw [World.reached, hevents, tally_reached hown]
    rw [hreached]
    exact ⟨haccounts.samples registry,haccounts.invocations registry⟩

/-- A stage that is busy at its first call. -/
def flaky : Env ℚ where
  name := "flaky"
  outcome := fun call => if call = 0 then .raised (.transientStageError "busy") else
    .returned ⟨0,none,none,"",.info,"",.empty,.empty,[]⟩
  record := fun _ => ⟨0,none,none,"",.info,"",.empty,.empty,[]⟩
  power := fun x n => some (x^n)
  perfCounter := fun reading => reading

/-- The second attempt of the stage counts once in the timing around the retry. -/
theorem flaky_once :
    let stack := [.timing 0,.retry .default,.logging 10]
    let run := process flaky stack 0 (World.initial fun _ => .empty)
    (2 : ℕ∞) = min (firstSettled flaky.outcome) 4 ∧
      invocations flaky (run.2.registries 0) = 1 := by
  have h := stack_transparent flaky [.timing 0,.retry .default,.logging 10] (fun _ => .empty)
    (fun r _ i _ => Option.some_ne_none _)
  refine ⟨h.1,(h.2.2.2 0 0 fun d => ?_).2⟩
  match d with
  | 0 => simp
  | 1 => simp
  | 2 => simp
  | d+3 => simp

end
end PipelineX.Decorators
