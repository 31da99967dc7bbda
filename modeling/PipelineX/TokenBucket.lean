import Mathlib.Algebra.Order.Field.Basic
import Mathlib.Tactic.Linarith
import Mathlib.Tactic.Ring

/-!
# Token buckets

A bucket is filled up at a steady rate to a capacity, and a call passes when it
can take a whole token. A call passes exactly when none of the windows that end
with it is over its allowance.
-/

set_option autoImplicit false

namespace PipelineX

/-- What is left, and the clock when it was counted. -/
structure TokenBucket (K : Type) where
  tokens : K
  last : K

namespace TokenBucket

/-- How many of the calls passed. -/
def passed {α : Type} (calls : List (α × Bool)) : ℕ := calls.countP Prod.snd

theorem passed_append {α : Type} (calls calls' : List (α × Bool)) :
    passed (calls ++ calls') = passed calls+passed calls' :=
  List.countP_append

section
variable {K : Type} [Field K] [LinearOrder K]

/-- Time that runs backwards fills nothing. -/
def refill (capacity rate : K) (b : TokenBucket K) (now : K) : K :=
  min capacity (b.tokens+max 0 (now-b.last)*rate)

def take (capacity rate : K) (b : TokenBucket K) (now : K) : Bool × TokenBucket K :=
  if 1 ≤ refill capacity rate b now then (true,⟨refill capacity rate b now-1,now⟩)
  else (false,⟨refill capacity rate b now,now⟩)

/-- Calls at these times, each with whether it passed. -/
def run (capacity rate : K) : TokenBucket K → List K → List (K × Bool)
  | _, [] => []
  | b, t::ts =>
    (t,(take capacity rate b t).1)::run capacity rate (take capacity rate b t).2 ts

variable {capacity rate : K}

theorem refill_le (capacity rate : K) (b : TokenBucket K) (now : K) :
    refill capacity rate b now ≤ capacity :=
  min_le_left _ _

theorem take_last (b : TokenBucket K) (now : K) : (take capacity rate b now).2.last = now := by
  unfold take
  split <;> rfl

theorem take_passes (b : TokenBucket K) (now : K) :
    (take capacity rate b now).1 = true ↔ 1 ≤ refill capacity rate b now := by
  unfold take
  split
  · next h => exact ⟨fun _ => h,fun _ => rfl⟩
  · next h => exact ⟨fun h' => absurd h' (by simp),fun h' => absurd h' h⟩

/-- A call takes a token when it passes and none when it does not. -/
theorem take_tokens (capacity rate : K) (b : TokenBucket K) (now : K) :
    (take capacity rate b now).2.tokens+passed [(now,(take capacity rate b now).1)] =
      refill capacity rate b now := by
  unfold take
  split <;> simp [passed]

theorem run_times (capacity rate : K) (b : TokenBucket K) (ts : List K) :
    (run capacity rate b ts).map Prod.fst = ts := by
  induction ts generalizing b with
  | nil => rfl
  | cons t ts ih => rw [run, List.map_cons, ih]

end

section
variable {K : Type} [Field K] [LinearOrder K] [IsStrictOrderedRing K] {capacity rate : K}

/-- A full bucket stays full, whenever it was counted. -/
theorem refill_full (hrate : 0 ≤ rate) (last now : K) :
    refill capacity rate ⟨capacity,last⟩ now = capacity :=
  min_eq_left (le_add_of_nonneg_right (mul_nonneg (le_max_left _ _) hrate))

theorem refill_nonneg {b : TokenBucket K} (hcapacity : 0 ≤ capacity) (hrate : 0 ≤ rate)
    (hb : 0 ≤ b.tokens) (now : K) : 0 ≤ refill capacity rate b now :=
  le_min hcapacity (add_nonneg hb (mul_nonneg (le_max_left _ _) hrate))

theorem take_nonneg {b : TokenBucket K} (hcapacity : 0 ≤ capacity) (hrate : 0 ≤ rate)
    (hb : 0 ≤ b.tokens) (now : K) : 0 ≤ (take capacity rate b now).2.tokens := by
  unfold take
  split
  · next h => exact sub_nonneg.mpr h
  · exact refill_nonneg hcapacity hrate hb now

theorem take_le (capacity rate : K) (b : TokenBucket K) (now : K) :
    (take capacity rate b now).2.tokens ≤ capacity := by
  have htokens := take_tokens capacity rate b now
  have hpassed : (0 : K) ≤ passed [(now,(take capacity rate b now).1)] := Nat.cast_nonneg _
  linarith [refill_le capacity rate b now]

/-- What the windows from each earlier call on leave room for: as much as there
is in the bucket. -/
def Matches (capacity rate : K) (calls : List (K × Bool)) (b : TokenBucket K) : Prop :=
  ∀ t x, (∀ c ∈ calls, c.1 ≤ t) → (x ≤ refill capacity rate b t ↔ x ≤ capacity ∧
    ∀ j c, calls[j]? = some c → x+passed (calls.drop j) ≤ capacity+rate*(t-c.1))

theorem matches_full (hrate : 0 ≤ rate) (last : K) : Matches capacity rate [] ⟨capacity,last⟩ := by
  intro t x _
  rw [refill_full hrate]
  exact ⟨fun h => ⟨h,fun j c hj => by simp at hj⟩,And.left⟩

/-- One more call is one more window. -/
theorem take_matches {calls : List (K × Bool)} {b : TokenBucket K} {now : K}
    (hb : Matches capacity rate calls b) (hnow : ∀ c ∈ calls, c.1 ≤ now) :
    Matches capacity rate (calls ++ [(now,(take capacity rate b now).1)])
      (take capacity rate b now).2 := by
  intro t x ht
  have hlast : now ≤ t := ht _ (List.mem_append_right _ List.mem_cons_self)
  have htokens := take_tokens capacity rate b now
  rw [refill, take_last, max_eq_right (sub_nonneg.mpr hlast), le_min_iff]
  generalize (take capacity rate b now).1 = p at *
  generalize (take capacity rate b now).2.tokens = left at *
  have hroom : x ≤ left+(t-now)*rate ↔
      x+passed [(now,p)]-(t-now)*rate ≤ refill capacity rate b now := by
    rw [← htokens]
    constructor <;> intro h <;> linarith
  rw [hroom, hb now _ hnow]
  apply and_congr_right
  intro _
  constructor
  · rintro ⟨hnew,hold⟩ j c hj
    rcases Nat.lt_or_ge j calls.length with hlt | hge
    · rw [List.getElem?_append_left hlt] at hj
      have h := hold j c hj
      rw [List.drop_append_of_le_length hlt.le, passed_append]
      push_cast
      linarith
    · rw [List.getElem?_append_right hge, List.getElem?_singleton] at hj
      split at hj
      · next h0 =>
        have hj' : j = calls.length := by omega
        rw [hj', List.drop_left, ← Option.some.inj hj]
        linarith
      · cases hj
  · intro h
    constructor
    · have hnew := h calls.length (now,p) (by simp)
      rw [List.drop_left] at hnew
      linarith
    · intro j c hj
      have hlt := (List.getElem?_eq_some_iff.mp hj).1
      have hold := h j c (by rw [List.getElem?_append_left hlt, hj])
      rw [List.drop_append_of_le_length hlt.le, passed_append] at hold
      push_cast at hold
      linarith

/-- Each call passes when the windows that end with it have room for one more. -/
theorem run_passes_from {calls : List (K × Bool)} {b : TokenBucket K} {ts : List K}
    (hb : Matches capacity rate calls b) (hsorted : ts.Pairwise (· ≤ ·))
    (hcalls : ∀ c ∈ calls, ∀ t ∈ ts, c.1 ≤ t) {n : ℕ} {t : K} {p : Bool}
    (hn : (run capacity rate b ts)[n]? = some (t,p)) :
    p = true ↔ 1 ≤ capacity ∧ ∀ j c, (calls ++ (run capacity rate b ts).take n)[j]? = some c →
      1+passed ((calls ++ (run capacity rate b ts).take n).drop j) ≤ capacity+rate*(t-c.1) := by
  induction ts generalizing calls b n with
  | nil => simp [run] at hn
  | cons s ts ih =>
    obtain ⟨hs,hts⟩ := List.pairwise_cons.mp hsorted
    have hnow : ∀ c ∈ calls, c.1 ≤ s := fun c hc => hcalls c hc s List.mem_cons_self
    cases n with
    | zero =>
      rw [run, List.getElem?_cons_zero] at hn
      obtain ⟨rfl,rfl⟩ := Prod.mk.inj (Option.some.inj hn)
      rw [take_passes, hb s 1 hnow, List.take_zero, List.append_nil]
    | succ n =>
      rw [run, List.getElem?_cons_succ] at hn
      have hlater : ∀ c ∈ calls ++ [(s,(take capacity rate b s).1)], ∀ u ∈ ts, c.1 ≤ u := by
        intro c hc u hu
        rcases List.mem_append.mp hc with hc | hc
        · exact hcalls c hc u (List.mem_cons_of_mem _ hu)
        · rw [List.mem_singleton.mp hc]
          exact hs u hu
      rw [ih (take_matches hb hnow) hts hlater hn, run, List.take_succ_cons, List.append_assoc,
        List.singleton_append]

/-- From a full bucket on. -/
theorem run_passes (hrate : 0 ≤ rate) (last : K) {ts : List K} (hsorted : ts.Pairwise (· ≤ ·))
    {n : ℕ} {t : K} {p : Bool} (hn : (run capacity rate ⟨capacity,last⟩ ts)[n]? = some (t,p)) :
    p = true ↔ ∀ j c, j ≤ n → (run capacity rate ⟨capacity,last⟩ ts)[j]? = some c →
      passed (((run capacity rate ⟨capacity,last⟩ ts).take n).drop j)+1 ≤
        capacity+rate*(t-c.1) := by
  rw [run_passes_from (matches_full hrate last) hsorted (by simp) hn, List.nil_append]
  generalize run capacity rate ⟨capacity,last⟩ ts = r at *
  have hlength : n < r.length := (List.getElem?_eq_some_iff.mp hn).1
  constructor
  · rintro ⟨hone,hold⟩ j c hj hc
    rcases hj.lt_or_eq with hlt | rfl
    · have h := hold j c (by rw [List.getElem?_take_of_lt hlt, hc])
      linarith
    · rw [List.drop_of_length_le (by rw [List.length_take]; exact min_le_left _ _)]
      rw [hn] at hc
      rw [← Option.some.inj hc]
      simpa [passed] using hone
  · intro h
    constructor
    · have hnew := h n (t,p) (le_refl n) hn
      rw [List.drop_of_length_le (by rw [List.length_take]; exact min_le_left _ _)] at hnew
      simpa [passed] using hnew
    · intro j c hc
      have hlt : j < n := by
        have hlt := (List.getElem?_eq_some_iff.mp hc).1
        rw [List.length_take] at hlt
        omega
      rw [List.getElem?_take_of_lt hlt] at hc
      have hold := h j c hlt.le hc
      linarith

/-- How many calls passed from `s` to `u`. -/
def passedIn (s u : K) (calls : List (K × Bool)) : ℕ :=
  calls.countP (fun c => c.2 && s ≤ c.1 && c.1 ≤ u)

omit [IsStrictOrderedRing K] in
/-- Nothing passes before the clock gets there. -/
theorem passedIn_later {s u : K} {b : TokenBucket K} {t : K} {ts : List K}
    (hsorted : (t::ts).Pairwise (· ≤ ·)) (h : u < t) :
    passedIn s u (run capacity rate b (t::ts)) = 0 := by
  refine List.countP_eq_zero.mpr fun c hc => ?_
  have hmem : c.1 ∈ t::ts := by
    rw [← run_times capacity rate b (t::ts)]
    exact List.mem_map_of_mem hc
  have hlater : u < c.1 := by
    rcases List.mem_cons.mp hmem with hfirst | hmem
    · exact h.trans_eq hfirst.symm
    · exact h.trans_le ((List.pairwise_cons.mp hsorted).1 c.1 hmem)
  simp [not_le.mpr hlater]

/-- The first call takes its token out of what it found. -/
theorem passedIn_cons_le (capacity rate s u : K) (b : TokenBucket K) (t : K) (ts : List K) :
    (passedIn s u (run capacity rate b (t::ts)) : K)+(take capacity rate b t).2.tokens ≤
      refill capacity rate b t+passedIn s u (run capacity rate (take capacity rate b t).2 ts) := by
  have hfirst : passedIn s u [(t,(take capacity rate b t).1)] ≤
      passed [(t,(take capacity rate b t).1)] := by
    refine List.countP_mono_left fun c _ hc => ?_
    simp only [Bool.and_eq_true] at hc
    exact hc.1.1
  have hsplit : passedIn s u (run capacity rate b (t::ts)) =
      passedIn s u [(t,(take capacity rate b t).1)] +
        passedIn s u (run capacity rate (take capacity rate b t).2 ts) := by
    rw [run, ← List.singleton_append]
    exact List.countP_append
  have hfirst' : (passedIn s u [(t,(take capacity rate b t).1)] : K) ≤
      passed [(t,(take capacity rate b t).1)] := Nat.cast_le.mpr hfirst
  rw [hsplit, Nat.cast_add]
  linarith [take_tokens capacity rate b t]

/-- What passes up to a time was there or has been filled in by then. -/
theorem passedIn_le {s u : K} {b : TokenBucket K} {ts : List K} (hcapacity : 0 ≤ capacity)
    (hrate : 0 ≤ rate) (hb : 0 ≤ b.tokens) (hu : b.last ≤ u) (hsorted : (b.last::ts).Pairwise (· ≤ ·)) :
    (passedIn s u (run capacity rate b ts) : K) ≤ b.tokens+rate*(u-b.last) := by
  induction ts generalizing b with
  | nil =>
    have hfilled := mul_nonneg hrate (sub_nonneg.mpr hu)
    simpa [run, passedIn] using add_nonneg hb hfilled
  | cons t ts ih =>
    obtain ⟨hlast,hts⟩ := List.pairwise_cons.mp hsorted
    have ht := hlast t List.mem_cons_self
    rcases lt_or_ge u t with hout | hin
    · rw [passedIn_later hts hout, Nat.cast_zero]
      exact add_nonneg hb (mul_nonneg hrate (sub_nonneg.mpr hu))
    · have hrest := ih (b := (take capacity rate b t).2) (take_nonneg hcapacity hrate hb t)
        (by rw [take_last]; exact hin) (by rw [take_last]; exact hts)
      have hrefill : refill capacity rate b t ≤ b.tokens+(t-b.last)*rate := by
        rw [refill, max_eq_right (sub_nonneg.mpr ht)]
        exact min_le_right _ _
      have hsplit := passedIn_cons_le capacity rate s u b t ts
      rw [take_last] at hrest
      linarith

/-- No window is over its allowance. -/
theorem window_le {s u : K} {b : TokenBucket K} {ts : List K} (hcapacity : 0 ≤ capacity)
    (hrate : 0 ≤ rate) (hb : 0 ≤ b.tokens) (hsu : s ≤ u) (hsorted : ts.Pairwise (· ≤ ·)) :
    (passedIn s u (run capacity rate b ts) : K) ≤ capacity+rate*(u-s) := by
  induction ts generalizing b with
  | nil =>
    have hfilled := mul_nonneg hrate (sub_nonneg.mpr hsu)
    simpa [run, passedIn] using add_nonneg hcapacity hfilled
  | cons t ts ih =>
    obtain ⟨ht,hts⟩ := List.pairwise_cons.mp hsorted
    rcases lt_or_ge t s with hbefore | hafter
    · have hout : passedIn s u (run capacity rate b (t::ts)) =
          passedIn s u (run capacity rate (take capacity rate b t).2 ts) := by
        rw [run, passedIn, List.countP_cons_of_neg (by simp [not_le.mpr hbefore])]
        rfl
      rw [hout]
      exact ih (take_nonneg hcapacity hrate hb t) hts
    · have hsplit := passedIn_cons_le capacity rate s u b t ts
      have hfull := refill_le capacity rate b t
      rcases lt_or_ge u t with hout | hin
      · rw [passedIn_later hsorted hout, Nat.cast_zero]
        exact add_nonneg hcapacity (mul_nonneg hrate (sub_nonneg.mpr hsu))
      · have hrest := passedIn_le (s := s) (u := u) (b := (take capacity rate b t).2)
          hcapacity hrate (take_nonneg hcapacity hrate hb t)
          (by rw [take_last]; exact hin)
          (by rw [take_last]; exact List.pairwise_cons.mpr ⟨ht,hts⟩)
        rw [take_last] at hrest
        have hgrow := mul_le_mul_of_nonneg_left (sub_le_sub_left hafter u) hrate
        linarith

/-- How far the clock moved forwards in all. -/
def forward : K → List K → K
  | _, [] => 0
  | last, t::ts => max 0 (t-last)+forward t ts

omit [IsStrictOrderedRing K] in
theorem forward_cons (last t : K) (ts : List K) :
    forward last (t::ts) = max 0 (t-last)+forward t ts := rfl

/-- Every step forwards fills the bucket, whatever clock it starts from. -/
theorem passed_le_forward {b : TokenBucket K} (hcapacity : 0 ≤ capacity) (hrate : 0 ≤ rate)
    (hb : 0 ≤ b.tokens) (ts : List K) :
    (passed (run capacity rate b ts) : K) ≤ b.tokens+rate*forward b.last ts := by
  induction ts generalizing b with
  | nil => simpa [run, passed, forward] using hb
  | cons t ts ih =>
    have hrest := ih (take_nonneg hcapacity hrate hb t)
    have hrefill : refill capacity rate b t ≤ b.tokens+max 0 (t-b.last)*rate := min_le_right _ _
    rw [take_last] at hrest
    rw [run, ← List.singleton_append, passed_append, forward_cons, Nat.cast_add]
    linarith [take_tokens capacity rate b t]

/-- Wherever the clock rises, it rises from the highest it has been. -/
def RisesFromTop (ts : List K) : Prop :=
  ∀ before s t rest, ts = before ++ s::t::rest → s < t → ∀ u ∈ before, u ≤ s

theorem forward_le {top last : K} {before ts : List K} (hlast : last ≤ top)
    (htop : top ∈ before ++ [last])
    (h : RisesFromTop (before ++ last::ts)) {u : K} (hu : top ≤ u) (hts : ∀ t ∈ ts, t ≤ u) :
    forward last ts ≤ u-top := by
  induction ts generalizing top last before with
  | nil => exact sub_nonneg.mpr hu
  | cons t ts ih =>
    have hmore : RisesFromTop ((before ++ [last]) ++ t::ts) := by
      rw [List.append_assoc, List.singleton_append]
      exact h
    have hlater : ∀ v ∈ ts, v ≤ u := fun v hv => hts v (List.mem_cons_of_mem _ hv)
    rw [forward_cons]
    rcases lt_or_ge last t with hup | hdown
    · have hpeak : top ≤ last := by
        rcases List.mem_append.mp htop with hmem | hmem
        · exact h before last t ts rfl hup top hmem
        · exact (List.mem_singleton.mp hmem).le
      have hrest := ih (le_refl t) (List.mem_append_right _ List.mem_cons_self) hmore
        (hts t List.mem_cons_self) hlater
      rw [max_eq_right (sub_nonneg.mpr hup.le)]
      linarith
    · have hrest := ih (hdown.trans hlast) (List.mem_append_left _ htop) hmore hu hlater
      rw [max_eq_left (sub_nonpos.mpr hdown), zero_add]
      exact hrest

/-- A clock that rises from its top alone mints nothing. -/
theorem passed_le (hcapacity : 0 ≤ capacity) (hrate : 0 ≤ rate) (last : K) {first : K}
    {ts : List K} (h : RisesFromTop (first::ts)) {u : K} (hu : ∀ t ∈ first::ts, t ≤ u) :
    (passed (run capacity rate ⟨capacity,last⟩ (first::ts)) : K) ≤
      capacity+rate*(u-first) := by
  have hfull : (take capacity rate ⟨capacity,last⟩ first).2.tokens+
      passed [(first,(take capacity rate ⟨capacity,last⟩ first).1)] = capacity := by
    rw [take_tokens, refill_full hrate]
  have hrest := passed_le_forward hcapacity hrate
    (take_nonneg (b := ⟨capacity,last⟩) hcapacity hrate hcapacity first) ts
  have hrises : RisesFromTop ([] ++ first::ts) := h
  have hforward := forward_le (le_refl first) List.mem_cons_self hrises
    (hu first List.mem_cons_self) (fun t ht => hu t (List.mem_cons_of_mem _ ht))
  have hgrow := mul_le_mul_of_nonneg_left hforward hrate
  rw [take_last] at hrest
  rw [run, ← List.singleton_append, passed_append, Nat.cast_add]
  linarith

end
end TokenBucket
end PipelineX
