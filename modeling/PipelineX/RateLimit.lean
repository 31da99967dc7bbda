import PipelineX.Stages
import PipelineX.TokenBucket
import Mathlib.Data.Rat.Cast.Order

/-!
# The rate limit

`RateLimitValidator` in exact arithmetic. The injected clock is a stream: its
value at `i` is what the call of it numbered `i` returns. A source that is new
has the clock read twice, first for the call and then for its bucket. The calls
of one source run through a token bucket of its own.
-/

set_option autoImplicit false

namespace PipelineX.RateLimit
open PipelineX.Records PipelineX.Stages

/-- A call: the key of its bucket, what it read from the clock and its result. -/
structure Call (K : Type) where
  key : String
  now : K
  result : ValidationResult

/-- The calls for one bucket: the clock and whether the record passed. -/
def callsOf {K : Type} (key : String) (calls : List (Call K)) : List (K × Bool) :=
  (calls.filter (fun call => call.key = key)).map (fun call => (call.now,call.result.valid))

def readingsOf {K : Type} (key : String) (calls : List (Call K)) : List K :=
  (callsOf key calls).map Prod.fst

theorem callsOf_cons_self {K : Type} {k : String} {call : Call K} (h : call.key = k)
    (calls : List (Call K)) :
    callsOf k (call::calls) = (call.now,call.result.valid)::callsOf k calls := by
  rw [callsOf, List.filter_cons_of_pos (by simpa using h), List.map_cons]
  rfl

theorem callsOf_cons_other {K : Type} {k : String} {call : Call K} (h : call.key ≠ k)
    (calls : List (Call K)) : callsOf k (call::calls) = callsOf k calls := by
  rw [callsOf, List.filter_cons_of_neg (by simpa using h)]
  rfl

section
variable {K : Type} [Field K] [LinearOrder K]

/-- The arguments that `__init__` accepts. -/
structure Config (K : Type) [Field K] [LinearOrder K] where
  capacity : ℤ
  refillPerSec : K
  capacity_pos : 0 < capacity
  refill_pos : 0 < refillPerSec

def init (capacity : ℤ := 1000) (refillPerSec : K := 1000) : Except PyError (Config K) :=
  if hcapacity : capacity ≤ 0 then .error (.other "ValueError" "capacity must be > 0")
  else if hrefill : refillPerSec ≤ 0 then
    .error (.other "ValueError" "refill_per_sec must be > 0")
  else .ok ⟨capacity,refillPerSec,not_le.mp hcapacity,not_le.mp hrefill⟩

theorem init_ok (c : Config K) : init c.capacity c.refillPerSec = .ok c := by
  rw [init, dif_neg (not_le.mpr c.capacity_pos), dif_neg (not_le.mpr c.refill_pos)]

/-- The buckets, each its tokens and its stamp, and how often the clock was read. -/
structure State (K : Type) where
  buckets : OrderedDict String (K × K)
  readings : ℕ

def start : State K := ⟨.empty,0⟩

def key (record : LogRecord) : String :=
  if record.source = "" then "<unknown>" else record.source

/-- `self._buckets[key]` of the `defaultdict`. -/
def bucket (c : Config K) (clock : ℕ → K) (w : State K) (key : String) : (K × K) × State K :=
  match w.buckets.get? key with
  | some entry => (entry,w)
  | none =>
    let entry := ((c.capacity : K),clock w.readings)
    (entry,⟨w.buckets.insert key entry,w.readings+1⟩)

def validate (c : Config K) (clock : ℕ → K) (w : State K) (record : LogRecord) :
    ValidationResult × State K :=
  let key := key record
  let now := clock w.readings
  let ((tokens,last),w) := bucket c clock { w with readings := w.readings+1 } key
  let elapsed := max 0 (now-last)
  let tokens := min (c.capacity : K) (tokens+elapsed*c.refillPerSec)
  if 1 ≤ tokens then
    ({ valid := true, validatorName := "rate_limit" },
      { w with buckets := w.buckets.insert key (tokens-1,now) })
  else
    ({ valid := false, reason := "rate limit exceeded for " ++ key, validatorName := "rate_limit" },
      { w with buckets := w.buckets.insert key (tokens,now) })

def rateLimitValidator (c : Config K) (clock : ℕ → K) : Validator (State K) where
  name := "rate_limit"
  validate := validate c clock

def run (c : Config K) (clock : ℕ → K) : State K → List LogRecord → List (Call K)
  | _, [] => []
  | w, r::rs => ⟨key r,clock w.readings,(validate c clock w r).1⟩::
      run c clock (validate c clock w r).2 rs

def after (c : Config K) (clock : ℕ → K) : State K → List LogRecord → State K
  | w, [] => w
  | w, r::rs => after c clock (validate c clock w r).2 rs

/-- A bucket as the library sees it. One that is not there yet is full. -/
def Holds (c : Config K) (w : State K) (key : String) (b : TokenBucket K) : Prop :=
  w.buckets.get? key = some (b.tokens,b.last) ∨
    (w.buckets.get? key = none ∧ b.tokens = c.capacity)

theorem rate_nonneg (c : Config K) : 0 ≤ c.refillPerSec := c.refill_pos.le

def take (c : Config K) (b : TokenBucket K) (now : K) : Bool × TokenBucket K :=
  TokenBucket.take (c.capacity : K) c.refillPerSec b now

theorem bucket_holds (c : Config K) (clock : ℕ → K) (w : State K) (key : String) :
    Holds c w key ⟨(bucket c clock w key).1.1,(bucket c clock w key).1.2⟩ := by
  unfold bucket
  cases hentry : w.buckets.get? key with
  | some entry => exact Or.inl hentry
  | none => exact Or.inr ⟨hentry,rfl⟩

theorem bucket_other (c : Config K) (clock : ℕ → K) (w : State K) {key k : String} (hk : k ≠ key) :
    (bucket c clock w key).2.buckets.get? k = w.buckets.get? k := by
  unfold bucket
  cases w.buckets.get? key with
  | some entry => rfl
  | none => exact OrderedDict.get?_insert_of_ne _ _ hk

theorem bucket_readings (c : Config K) (clock : ℕ → K) (w : State K) (key : String) :
    w.readings ≤ (bucket c clock w key).2.readings := by
  unfold bucket
  cases w.buckets.get? key with
  | some entry => exact le_refl _
  | none => exact Nat.le_succ _

/-- What a call does, in terms of the bucket it found. -/
theorem validate_eq (c : Config K) (clock : ℕ → K) (w : State K) (r : LogRecord) :
    ∃ (b : TokenBucket K) (w' : State K), Holds c w (key r) b ∧
      (∀ k, k ≠ key r → w'.buckets.get? k = w.buckets.get? k) ∧
      w.readings < w'.readings ∧
      (validate c clock w r).1.valid = (take c b (clock w.readings)).1 ∧
      (validate c clock w r).2 = ⟨w'.buckets.insert (key r)
        ((take c b (clock w.readings)).2.tokens,clock w.readings),w'.readings⟩ := by
  refine ⟨_,_,bucket_holds c clock ⟨w.buckets,w.readings+1⟩ (key r),
    fun k hk => bucket_other c clock ⟨w.buckets,w.readings+1⟩ hk,
    bucket_readings c clock ⟨w.buckets,w.readings+1⟩ (key r),?_⟩
  set found := bucket c clock ⟨w.buckets,w.readings+1⟩ (key r)
  rw [take, TokenBucket.take]
  by_cases h : 1 ≤ TokenBucket.refill (c.capacity : K) c.refillPerSec ⟨found.1.1,found.1.2⟩
      (clock w.readings)
  · have hvalidate : validate c clock w r =
        ({ valid := true, validatorName := "rate_limit" },_) := if_pos h
    rw [if_pos h, hvalidate]
    exact ⟨rfl,rfl⟩
  · have hvalidate : validate c clock w r =
        ({ valid := false, reason := "rate limit exceeded for " ++ key r,
           validatorName := "rate_limit" },_) := if_neg h
    rw [if_neg h, hvalidate]
    exact ⟨rfl,rfl⟩

theorem validate_readings (c : Config K) (clock : ℕ → K) (w : State K) (r : LogRecord) :
    w.readings < (validate c clock w r).2.readings := by
  obtain ⟨b,w',_,_,hlt,_,hafter⟩ := validate_eq c clock w r
  rw [hafter]
  exact hlt

theorem validate_other (c : Config K) (clock : ℕ → K) (w : State K) {r : LogRecord} {k : String}
    (hk : k ≠ key r) : (validate c clock w r).2.buckets.get? k = w.buckets.get? k := by
  obtain ⟨b,w',_,hother,_,_,hafter⟩ := validate_eq c clock w r
  rw [hafter, OrderedDict.get?_insert_of_ne _ _ hk, hother k hk]

/-- Two buckets for one entry are the same, or both are full. -/
theorem holds_cases {c : Config K} {w : State K} {key : String} {b b' : TokenBucket K}
    (h : Holds c w key b) (h' : Holds c w key b') :
    b = b' ∨ (b.tokens = c.capacity ∧ b'.tokens = c.capacity) := by
  rcases h with h | ⟨hnew,hfull⟩
  · rcases h' with h' | ⟨hnew,_⟩
    · rw [h] at h'
      cases b
      cases b'
      cases h'
      exact Or.inl rfl
    · rw [h] at hnew
      cases hnew
  · rcases h' with h' | ⟨_,hfull'⟩
    · rw [h'] at hnew
      cases hnew
    · exact Or.inr ⟨hfull,hfull'⟩

theorem holds_tokens {c : Config K} {w : State K} {key : String} {b b' : TokenBucket K}
    (h : Holds c w key b) (h' : Holds c w key b') : b.tokens = b'.tokens := by
  rcases holds_cases h h' with rfl | ⟨hfull,hfull'⟩
  · rfl
  · rw [hfull, hfull']

theorem run_now (c : Config K) (clock : ℕ → K) (w : State K) (rs : List LogRecord) :
    ∀ call ∈ run c clock w rs, ∃ i, w.readings ≤ i ∧ call.now = clock i := by
  induction rs generalizing w with
  | nil => exact fun call hcall => absurd hcall List.not_mem_nil
  | cons r rs ih =>
    intro call hcall
    rcases List.mem_cons.mp hcall with rfl | hcall
    · exact ⟨w.readings,le_refl _,rfl⟩
    · obtain ⟨i,hi,hnow⟩ := ih (validate c clock w r).2 call hcall
      exact ⟨i,(validate_readings c clock w r).le.trans hi,hnow⟩

theorem run_ascends (c : Config K) {clock : ℕ → K} (hclock : Monotone clock) (w : State K)
    (rs : List LogRecord) : (run c clock w rs).Pairwise (fun x y => x.now ≤ y.now) := by
  induction rs generalizing w with
  | nil => exact List.Pairwise.nil
  | cons r rs ih =>
    refine List.pairwise_cons.mpr ⟨fun call hcall => ?_,ih _⟩
    obtain ⟨i,hi,hnow⟩ := run_now c clock (validate c clock w r).2 rs call hcall
    rw [hnow]
    exact hclock ((validate_readings c clock w r).le.trans hi)

theorem readingsOf_ascends (c : Config K) {clock : ℕ → K} (hclock : Monotone clock) (w : State K)
    (rs : List LogRecord) (k : String) :
    (readingsOf k (run c clock w rs)).Pairwise (· ≤ ·) := by
  rw [readingsOf, callsOf, List.map_map]
  exact ((run_ascends c hclock w rs).sublist List.filter_sublist).map _ fun _ _ h => h

theorem start_holds (c : Config K) (k : String) : Holds c start k ⟨c.capacity,0⟩ :=
  Or.inr ⟨rfl,rfl⟩

end

/-- One token a second. -/
def slow : Config ℚ := ⟨1,1,by decide,by decide⟩

/-- Calls of one source with these readings: the first and the one for its
bucket, then one a call. -/
def calls (ts : List ℚ) : List (Call ℚ) :=
  run slow (fun i => ts.getD i 0) start (List.replicate (ts.length-1) { id := 0, source := "app" })

section
variable {K : Type} [Field K] [LinearOrder K] [IsStrictOrderedRing K]

theorem capacity_nonneg (c : Config K) : (0 : K) ≤ c.capacity := Int.cast_nonneg c.capacity_pos.le

/-- Whichever bucket stands for an entry, a call takes the same from it. -/
theorem take_holds {c : Config K} {w : State K} {key : String} {b b' : TokenBucket K}
    (h : Holds c w key b) (h' : Holds c w key b') (now : K) : take c b now = take c b' now := by
  rcases holds_cases h h' with rfl | ⟨hfull,hfull'⟩
  · rfl
  · cases b
    cases b'
    subst hfull
    subst hfull'
    simp only [take, TokenBucket.take, TokenBucket.refill_full (rate_nonneg c)]

theorem validate_takes {c : Config K} (clock : ℕ → K) {w : State K} {r : LogRecord}
    {b : TokenBucket K} (hb : Holds c w (key r) b) :
    (validate c clock w r).1.valid = (take c b (clock w.readings)).1 ∧
      Holds c (validate c clock w r).2 (key r) (take c b (clock w.readings)).2 := by
  obtain ⟨b',w',hb',_,_,hvalid,hafter⟩ := validate_eq c clock w r
  rw [hvalid, hafter, take_holds hb hb']
  refine ⟨rfl,Or.inl ?_⟩
  rw [take, TokenBucket.take_last]
  exact OrderedDict.get?_insert_self _ _ _

/-- The calls of one source are a run of a token bucket on their own. -/
theorem callsOf_run (c : Config K) (clock : ℕ → K) {w : State K} {k : String} {b : TokenBucket K}
    (hb : Holds c w k b) (rs : List LogRecord) :
    callsOf k (run c clock w rs) =
      TokenBucket.run (c.capacity : K) c.refillPerSec b (readingsOf k (run c clock w rs)) := by
  induction rs generalizing w b with
  | nil => rfl
  | cons r rs ih =>
    by_cases hk : key r = k
    · subst hk
      obtain ⟨hvalid,hholds⟩ := validate_takes clock hb
      have hcall : callsOf (key r) (run c clock w (r::rs)) =
          (clock w.readings,(validate c clock w r).1.valid)::
            callsOf (key r) (run c clock (validate c clock w r).2 rs) :=
        callsOf_cons_self rfl _
      rw [readingsOf, hcall, List.map_cons, TokenBucket.run, hvalid, ih hholds,
        TokenBucket.run_times]
      rfl
    · have hholds : Holds c (validate c clock w r).2 k b := by
        rw [Holds, validate_other c clock w (Ne.symm hk)]
        exact hb
      have hcall : callsOf k (run c clock w (r::rs)) =
          callsOf k (run c clock (validate c clock w r).2 rs) :=
        callsOf_cons_other hk _
      rw [readingsOf, hcall]
      exact ih hholds

/-- Every bucket holds between nothing and the capacity. -/
def Bounded (c : Config K) (w : State K) : Prop :=
  ∀ k b, Holds c w k b → 0 ≤ b.tokens ∧ b.tokens ≤ c.capacity

theorem start_bounded (c : Config K) : Bounded c (start : State K) := by
  rintro k b (h | ⟨_,hfull⟩)
  · cases h
  · rw [hfull]
    exact ⟨capacity_nonneg c,le_refl _⟩

theorem validate_bounded {c : Config K} {clock : ℕ → K} {w : State K} (hw : Bounded c w)
    (r : LogRecord) : Bounded c (validate c clock w r).2 := by
  intro k b hb
  by_cases hk : k = key r
  · subst hk
    obtain ⟨b',_,hb',_⟩ := validate_eq c clock w r
    have htaken := (validate_takes clock hb').2
    have hnonneg := TokenBucket.take_nonneg (capacity_nonneg c) (rate_nonneg c) (hw _ b' hb').1
      (clock w.readings)
    have hle := TokenBucket.take_le (c.capacity : K) c.refillPerSec b' (clock w.readings)
    rw [holds_tokens hb htaken]
    exact ⟨hnonneg,hle⟩
  · rw [Holds, validate_other c clock w hk] at hb
    exact hw k b hb

theorem after_bounded {c : Config K} {clock : ℕ → K} {w : State K} (hw : Bounded c w)
    (rs : List LogRecord) : Bounded c (after c clock w rs) := by
  induction rs generalizing w with
  | nil => exact hw
  | cons r rs ih => exact ih (validate_bounded hw r)

/-- A record passes exactly when no window that ends with it is over its
allowance. So no window is, whatever the other sources do meanwhile. -/
theorem passes_iff_room (c : Config K) {clock : ℕ → K} (hclock : Monotone clock)
    (records : List LogRecord) (k : String) :
    (∀ n t p, (callsOf k (run c clock start records))[n]? = some (t,p) →
      (p = true ↔ ∀ j call, j ≤ n → (callsOf k (run c clock start records))[j]? = some call →
        TokenBucket.passed (((callsOf k (run c clock start records)).take n).drop j)+1 ≤
          (c.capacity : K)+c.refillPerSec*(t-call.1))) ∧
    (∀ s t, s ≤ t → TokenBucket.passedIn s t (callsOf k (run c clock start records)) ≤
      (c.capacity : K)+c.refillPerSec*(t-s)) ∧
    (∀ clock' records', readingsOf k (run c clock' start records') =
        readingsOf k (run c clock start records) →
      callsOf k (run c clock' start records') = callsOf k (run c clock start records)) ∧
    ∀ tokens last, (after c clock start records).buckets.get? k = some (tokens,last) →
      0 ≤ tokens ∧ tokens ≤ c.capacity := by
  have hsorted := readingsOf_ascends c hclock start records k
  refine ⟨?_,?_,?_,?_⟩
  · intro n t p hn
    rw [callsOf_run c clock (start_holds c k)] at hn ⊢
    exact TokenBucket.run_passes (rate_nonneg c) 0 hsorted hn
  · intro s t hst
    rw [callsOf_run c clock (start_holds c k)]
    exact TokenBucket.window_le (capacity_nonneg c) (rate_nonneg c) (capacity_nonneg c) hst hsorted
  · intro clock' records' hreadings
    rw [callsOf_run c clock' (start_holds c k), callsOf_run c clock (start_holds c k), hreadings]
  · intro tokens last hbucket
    exact after_bounded (start_bounded c) records k ⟨tokens,last⟩ (Or.inl hbucket)

/-- The room is that of a monotone clock. -/
theorem passes_iff_room_steady : TokenBucket.passedIn 0 2 (callsOf "app" (run slow (fun i => (i : ℚ))
    start (List.replicate 3 { id := 0, source := "app" }))) ≤
      (slow.capacity : ℚ)+slow.refillPerSec*(2-0) := by
  have hclock : Monotone (fun i : ℕ => (i : ℚ)) := Nat.mono_cast
  exact (passes_iff_room slow hclock (List.replicate 3 { id := 0, source := "app" }) "app").2.1
    0 2 (by decide)

/-- A source whose clock only ever rises from its top gets no more than the
time from its first call has filled in. -/
theorem passed_le_of_rises (c : Config K) (clock : ℕ → K) (records : List LogRecord) (k : String)
    (hrises : TokenBucket.RisesFromTop (readingsOf k (run c clock start records))) {first u : K}
    (hfirst : (readingsOf k (run c clock start records)).head? = some first)
    (hu : ∀ t ∈ readingsOf k (run c clock start records), t ≤ u) :
    TokenBucket.passed (callsOf k (run c clock start records)) ≤
      (c.capacity : K)+c.refillPerSec*(u-first) := by
  rw [callsOf_run c clock (start_holds c k)]
  generalize readingsOf k (run c clock start records) = ts at *
  cases ts with
  | nil => cases hfirst
  | cons t ts =>
    cases hfirst
    exact TokenBucket.passed_le (capacity_nonneg c) (rate_nonneg c) 0 hrises hu

theorem passed_le_after_peak : TokenBucket.passed (callsOf "app" (calls [0,0,3,2])) ≤
    (slow.capacity : ℚ)+slow.refillPerSec*(3-0) := by
  have hreadings : readingsOf "app" (calls [0,0,3,2]) = [0,3,2] := by decide +kernel
  have hrises : TokenBucket.RisesFromTop (readingsOf "app" (calls [0,0,3,2])) := by
    rw [hreadings]
    intro before s t rest h hlt u hu
    match before, h with
    | [], _ => cases hu
    | [x], h =>
      simp only [List.singleton_append, List.cons.injEq] at h
      rw [← h.2.1, ← h.2.2.1] at hlt
      exact absurd hlt (by decide)
    | x::y::z, h =>
      have hlength := congrArg List.length h
      simp only [List.length_append, List.length_cons, List.length_nil] at hlength
      omega
  have hfirst : (readingsOf "app" (calls [0,0,3,2])).head? = some 0 := by rw [hreadings]; rfl
  have hu : ∀ t ∈ readingsOf "app" (calls [0,0,3,2]), t ≤ 3 := by decide +kernel
  exact passed_le_of_rises slow (fun i => [0,0,3,2].getD i 0)
    (List.replicate 3 { id := 0, source := "app" }) "app" hrises hfirst hu

/-- The second the clock lost is filled in once more. -/
theorem backward_step_mints : readingsOf "app" (calls [10,10,0,10]) = [10,0,10] ∧
    ¬(TokenBucket.passed (callsOf "app" (calls [10,10,0,10])) ≤
      (slow.capacity : ℚ)+slow.refillPerSec*(10-10)) := by
  decide +kernel

end
end PipelineX.RateLimit
