import PipelineX.Decorators
import PipelineX.Detectors
import PipelineX.ExactArithmetic
import PipelineX.SampleQuantile

/-!
# The metrics registry

The calls of `MetricsRegistry` and its snapshot. A call awaits the lock only
before it reads anything, so the calls of all tasks are one sequence. In exact
arithmetic the percentiles of a timer are quantiles of what was timed.
-/

set_option autoImplicit false

namespace PipelineX.Decorators
open PipelineX.Records PipelineX.SampleQuantile

section
variable {F : Type}

/-- `inc(name, by)`. -/
def Registry.incBy (g : Registry F) (name : String) (n : ℤ) : Registry F :=
  { g with counters := g.counters.insert name ((g.counters.get? name).getD 0+n) }

def Registry.gauge (g : Registry F) (name : String) (value : F) : Registry F :=
  { g with gauges := g.gauges.insert name value }

/-- The calls that change the registry. -/
inductive Call (F : Type) where
  | inc (name : String) (n : ℤ)
  | gauge (name : String) (value : F)
  | timing (name : String) (seconds : F)
  | reset

def Registry.call [LinearOrder F] (g : Registry F) : Call F → Registry F
  | .inc name n => g.incBy name n
  | .gauge name value => g.gauge name value
  | .timing name seconds => g.timing name seconds
  | .reset => .empty

/-- `finally` of `TimingDecorator.process` makes two of these calls. -/
theorem record_calls [LinearOrder F] [Zero F] [Mul F] [Sub F] (env : Env F) (registry : ℕ)
    (elapsed : F) (w : World F) : (record env registry elapsed w).registries registry =
      ((w.registries registry).call (.timing ("stage." ++ env.name ++ ".duration_s") elapsed)).call
        (.inc ("stage." ++ env.name ++ ".invocations") 1) :=
  Function.update_self registry _ w.registries

/-- The registry after these calls. -/
def Registry.after [LinearOrder F] (calls : List (Call F)) : Registry F :=
  calls.foldl Registry.call .empty

/-- What was timed under the name, after one more call. -/
def Call.timed (name : String) (values : List F) : Call F → List F
  | .timing other seconds => if other = name then values ++ [seconds] else values
  | .reset => []
  | _ => values

/-- What was timed under the name since the last `reset`. -/
def timed (name : String) (calls : List (Call F)) : List F := calls.foldl (Call.timed name) []

/-- The entry of a timer in the snapshot. -/
structure TimerStats (F : Type) where
  count : F
  totalS : F
  p50S : F
  p95S : F
  p99S : F

structure Snapshot (F : Type) where
  counters : OrderedDict String ℤ
  gauges : OrderedDict String F
  timers : OrderedDict String (TimerStats F)

variable (py : PyFloat F)

/-- `sorted(xs)`, for numbers that can be put in order. -/
def sorted (xs : List F) : List F := xs.insertionSort (fun x y => py.lt y x = false)

namespace Timer

def percentile (samples : List F) (p : F) : Except PyError F :=
  if samples.isEmpty then .ok (py.literal 0)
  else do
    let sortedSamples := sorted py samples
    let n ← py.ofInt sortedSamples.length
    let whole ← py.toInt (py.mul p n)
    let idx := max 0 (min ((sortedSamples.length : ℤ)-1) whole)
    Detectors.Iqr.index sortedSamples idx

def stats (samples : List F) : Except PyError (TimerStats F) := do
  let count ← py.ofInt samples.length
  let p50 ← percentile py samples (py.literal (1/2))
  let p95 ← percentile py samples (py.literal (19/20))
  let p99 ← percentile py samples (py.literal (99/100))
  return ⟨count,py.sum samples,p50,p95,p99⟩

end Timer

def Registry.snapshot (g : Registry F) : Except PyError (Snapshot F) := do
  let timers ← g.timers.items.foldlM
    (fun timers (p : String × List F) => (Timer.stats py p.2).map (timers.insert p.1)) .empty
  return ⟨g.counters,g.gauges,timers⟩

end

section
variable {F : Type} [LinearOrder F]

/-- The samples of a timer, none when there is no such timer. -/
def Registry.samples (g : Registry F) (name : String) : List F := (g.timers.get? name).getD []

omit [LinearOrder F] in
theorem samples_eq {g : Registry F} {name : String} {xs : List F}
    (h : g.timers.get? name = some xs) : g.samples name = xs := by
  rw [Registry.samples, h, Option.getD_some]

theorem timing_get?_self (g : Registry F) (name : String) (seconds : F) :
    (g.timing name seconds).timers.get? name =
      some (Bisect.insort (fun x y => x < y) (g.samples name) seconds) := by
  unfold Registry.timing Registry.samples
  dsimp only
  rw [OrderedDict.get?_insert_self, OrderedDict.get?_setDefault_self, Option.getD_some]

theorem timing_get?_of_ne (g : Registry F) {name other : String} (seconds : F)
    (h : other ≠ name) : (g.timing name seconds).timers.get? other = g.timers.get? other := by
  unfold Registry.timing
  dsimp only
  rw [OrderedDict.get?_insert_of_ne _ _ h, OrderedDict.get?_setDefault_of_ne _ _ h]

/-- The timer under the name has what was timed, in order, and there is one as
soon as something was. -/
structure Keeps (g : Registry F) (name : String) (values : List F) : Prop where
  absent : g.timers.get? name = none ↔ values = []
  ascending : (g.samples name).Pairwise (· ≤ ·)
  perm : (g.samples name).Perm values

theorem empty_keeps (name : String) : Keeps (.empty : Registry F) name [] where
  absent := ⟨fun _ => rfl,fun _ => rfl⟩
  ascending := List.Pairwise.nil
  perm := .refl []

theorem call_keeps {g : Registry F} {name : String} {values : List F} (h : Keeps g name values)
    (c : Call F) : Keeps (g.call c) name (c.timed name values) := by
  cases c with
  | inc other n => exact ⟨h.absent,h.ascending,h.perm⟩
  | gauge other value => exact ⟨h.absent,h.ascending,h.perm⟩
  | reset => exact empty_keeps name
  | timing other seconds =>
    rw [Registry.call, Call.timed]
    split
    · next heq =>
      subst heq
      have hget := timing_get?_self g other seconds
      have hsamples := samples_eq hget
      constructor
      · simp [hget]
      · rw [hsamples]
        exact Bisect.ascending_lt.mp (Bisect.insort_ascending Bisect.linear_lt
          (fun _ _ => trivial) trivial (Bisect.ascending_lt.mpr h.ascending))
      · rw [hsamples]
        exact (Bisect.insort_perm _ _ _).trans
          ((h.perm.cons seconds).trans (List.perm_append_singleton seconds values).symm)
    · next hne =>
      have hget := timing_get?_of_ne g seconds (Ne.symm hne)
      have hsamples : (g.timing other seconds).samples name = g.samples name := by
        rw [Registry.samples, hget, Registry.samples]
      exact ⟨hget ▸ h.absent,hsamples ▸ h.ascending,hsamples ▸ h.perm⟩

theorem calls_keep {g : Registry F} {name : String} {values : List F} (h : Keeps g name values)
    (calls : List (Call F)) :
    Keeps (calls.foldl Registry.call g) name (calls.foldl (Call.timed name) values) := by
  induction calls generalizing g values with
  | nil => exact h
  | cons c calls ih => exact ih (call_keeps h c)

theorem after_keeps (calls : List (Call F)) (name : String) :
    Keeps (Registry.after calls) name (timed name calls) :=
  calls_keep (empty_keeps name) calls

end

section
variable {K : Type} [Field K] [LinearOrder K] [FloorRing K] (root : K → K)

/-- `x` may stand before `y`. -/
theorem before_exact {x y : K} : (exact root).lt y x = false ↔ x ≤ y :=
  decide_eq_false_iff_not.trans not_lt

theorem sorted_exact (xs : List K) : (sorted (exact root) xs).Pairwise (· ≤ ·) := by
  have htotal : Std.Total (fun x y : K => (exact root).lt y x = false) :=
    ⟨fun x y => (le_total x y).imp (before_exact root).mpr (before_exact root).mpr⟩
  have htrans : IsTrans K (fun x y => (exact root).lt y x = false) :=
    ⟨fun x y z hxy hyz => (before_exact root).mpr
      (((before_exact root).mp hxy).trans ((before_exact root).mp hyz))⟩
  exact (List.pairwise_insertionSort _ xs).imp (before_exact root).mp

theorem sorted_perm (xs : List K) : (sorted (exact root) xs).Perm xs :=
  List.perm_insertionSort _ xs

variable [IsStrictOrderedRing K]

/-- The truncated product, kept inside the list, is the place of its part. -/
theorem rank_place {n : ℕ} (hn : 0 < n) {p : K} (h0 : 0 ≤ p) (h1 : p ≤ 1) :
    ∃ i < n, max 0 (min ((n : ℤ)-1) ⌊p*n⌋) = i ∧ (i : K) ≤ p*n ∧ p*n ≤ i+1 := by
  have hproduct : 0 ≤ p*n := mul_nonneg h0 (Nat.cast_nonneg n)
  have hfloor := Int.floor_nonneg.mpr hproduct
  rcases le_or_gt ⌊p*n⌋ ((n : ℤ)-1) with hle | hgt
  · have hcast : ((⌊p*n⌋.toNat : ℕ) : K) = ⌊p*n⌋ := by
      rw [← Int.cast_natCast, Int.toNat_of_nonneg hfloor]
    refine ⟨⌊p*n⌋.toNat,by omega,by omega,?_,?_⟩
    · rw [hcast]
      exact Int.floor_le _
    · rw [hcast]
      exact (Int.lt_floor_add_one _).le
  · -- only the whole product, of the part 1, is past the last place
    have hcast : ((n-1 : ℕ) : K) = n-1 := by rw [Nat.cast_sub hn, Nat.cast_one]
    have hwhole : (n : K) ≤ p*n := by
      have hn' : (n : ℤ) ≤ ⌊p*n⌋ := by omega
      simpa using Int.le_floor.mp hn'
    refine ⟨n-1,by omega,by omega,?_,?_⟩
    · rw [hcast]
      linarith
    · rw [hcast, sub_add_cancel]
      exact mul_le_of_le_one_left (Nat.cast_nonneg n) h1

theorem percentile_exact {samples : List K} (hne : samples ≠ []) {p : K} (h0 : 0 ≤ p) :
    Timer.percentile (exact root) samples p = Detectors.Iqr.index (sorted (exact root) samples)
      (max 0 (min (((sorted (exact root) samples).length : ℤ)-1)
        ⌊p*(sorted (exact root) samples).length⌋)) := by
  rw [Timer.percentile, if_neg (by simpa using hne)]
  generalize sorted (exact root) samples = xs
  have hproduct : ¬p*(xs.length : K) < 0 := not_lt.mpr (mul_nonneg h0 (Nat.cast_nonneg _))
  simp only [exact, bind, Except.bind, Int.cast_natCast]
  rw [if_neg hproduct]

/-- A percentile of samples in any order is a quantile of them. -/
theorem percentile_isQuantile {samples : List K} (hne : samples ≠ []) {p : K} (h0 : 0 ≤ p)
    (h1 : p ≤ 1) : ∃ v, Timer.percentile (exact root) samples p = .ok v ∧
      IsQuantile p samples v := by
  have hperm := sorted_perm root samples
  have hpos : 0 < (sorted (exact root) samples).length := by
    rw [hperm.length_eq]
    exact List.length_pos_iff.mpr hne
  obtain ⟨i,hi,hidx,hlow,hhigh⟩ := rank_place hpos h0 h1
  refine ⟨_,?_,(isQuantile_place (sorted_exact root samples) hi hlow hhigh).perm hperm⟩
  rw [percentile_exact root hne h0, hidx]
  exact Detectors.Iqr.index_getElem hi

theorem percentile_mono {samples : List K} (hne : samples ≠ []) {p q : K} (h0 : 0 ≤ p)
    (hpq : p ≤ q) (h1 : q ≤ 1) {v w : K} (hv : Timer.percentile (exact root) samples p = .ok v)
    (hw : Timer.percentile (exact root) samples q = .ok w) : v ≤ w := by
  rcases eq_or_lt_of_le hpq with rfl | hlt
  · rw [hv] at hw
    exact (Except.ok.inj hw).le
  · obtain ⟨v',hv',hquantile⟩ := percentile_isQuantile root hne h0 (hpq.trans h1)
    obtain ⟨w',hw',hquantile'⟩ := percentile_isQuantile root hne (h0.trans hpq) h1
    rw [hv] at hv'
    rw [hw] at hw'
    obtain rfl := Except.ok.inj hv'
    obtain rfl := Except.ok.inj hw'
    exact hquantile.le hquantile' hlt

/-- An entry has the number, the sum and the percentiles of these samples. -/
structure Shows (samples : List K) (t : TimerStats K) : Prop where
  count : t.count = samples.length
  total : t.totalS = samples.sum
  p50 : Timer.percentile (exact root) samples (1/2) = .ok t.p50S
  p95 : Timer.percentile (exact root) samples (19/20) = .ok t.p95S
  p99 : Timer.percentile (exact root) samples (99/100) = .ok t.p99S

theorem percentile_ok (samples : List K) {p : K} (h0 : 0 ≤ p) (h1 : p ≤ 1) :
    ∃ v, Timer.percentile (exact root) samples p = .ok v := by
  cases samples with
  | nil => exact ⟨_,rfl⟩
  | cons x xs =>
    obtain ⟨v,hv,_⟩ := percentile_isQuantile root (List.cons_ne_nil x xs) h0 h1
    exact ⟨v,hv⟩

theorem stats_exact (samples : List K) :
    ∃ t, Timer.stats (exact root) samples = .ok t ∧ Shows root samples t := by
  have h50 : (exact root).literal (1/2) = 1/2 := by
    simp [exact]
  have h95 : (exact root).literal (19/20) = 19/20 := by
    simp [exact]
  have h99 : (exact root).literal (99/100) = 99/100 := by
    simp [exact]
  obtain ⟨p50,hp50⟩ := percentile_ok root samples (p := (1/2 : K)) (by norm_num) (by norm_num)
  obtain ⟨p95,hp95⟩ := percentile_ok root samples (p := (19/20 : K)) (by norm_num) (by norm_num)
  obtain ⟨p99,hp99⟩ := percentile_ok root samples (p := (99/100 : K)) (by norm_num) (by norm_num)
  refine ⟨⟨samples.length,samples.sum,p50,p95,p99⟩,?_,rfl,rfl,hp50,hp95,hp99⟩
  rw [Timer.stats, h50, h95, h99, hp50, hp95, hp99]
  simp [exact, bind, Except.bind, pure, Except.pure]

theorem snapshot_exact (g : Registry K) : ∃ s, g.snapshot (exact root) = .ok s ∧
    s.counters = g.counters ∧ s.gauges = g.gauges ∧
    (∀ name samples, g.timers.get? name = some samples →
      ∃ t, s.timers.get? name = some t ∧ Shows root samples t) ∧
    ∀ name, g.timers.get? name = none → s.timers.get? name = none := by
  have hstats (samples : List K) : ∃ t, Timer.stats (exact root) samples = .ok t := by
    obtain ⟨t,ht,_⟩ := stats_exact root samples
    exact ⟨t,ht⟩
  obtain ⟨timers,htimers,hshown,hother⟩ :=
    OrderedDict.foldlM_insert hstats g.timers.items g.timers.nodup .empty
  refine ⟨⟨g.counters,g.gauges,timers⟩,?_,rfl,rfl,fun name samples hget => ?_,fun name hget => ?_⟩
  · rw [Registry.snapshot, htimers]
    rfl
  · obtain ⟨t,ht,hentry⟩ := hshown _ (OrderedDict.mem_of_get? hget)
    obtain ⟨t',ht',hshows⟩ := stats_exact root samples
    rw [ht'] at ht
    obtain rfl := Except.ok.inj ht
    exact ⟨t',hentry,hshows⟩
  · exact hother name (OrderedDict.get?_eq_none.mp hget)

/-- The percentiles of a timer with these samples are quantiles of what was
timed, in order, and the snapshot shows them so. -/
structure TrueQuantiles (g : Registry K) (name : String) (values samples : List K) : Prop where
  nonempty : samples ≠ []
  ascending : samples.Pairwise (· ≤ ·)
  perm : samples.Perm values
  quantile : ∀ p : K, 0 ≤ p → p ≤ 1 → ∃ v, Timer.percentile (exact root) samples p = .ok v ∧
    IsQuantile p samples v
  mono : ∀ p q v w : K, 0 ≤ p → p ≤ q → q ≤ 1 →
    Timer.percentile (exact root) samples p = .ok v →
    Timer.percentile (exact root) samples q = .ok w → v ≤ w
  snapshot : ∃ s t, g.snapshot (exact root) = .ok s ∧ s.timers.get? name = some t ∧
    Shows root samples t ∧ t.p50S ≤ t.p95S ∧ t.p95S ≤ t.p99S

/-- After any calls a name has a timer when something was timed under it since
the last `reset`, and its percentiles are quantiles of that. -/
theorem timers_true_quantiles (calls : List (Call K)) (name : String) :
    ((Registry.after calls).timers.get? name = none ↔ timed name calls = []) ∧
    ∀ samples, (Registry.after calls).timers.get? name = some samples →
      TrueQuantiles root (Registry.after calls) name (timed name calls) samples := by
  have hkeeps := after_keeps calls name
  refine ⟨hkeeps.absent,fun samples hget => ?_⟩
  have hperm := hkeeps.perm
  have hascending := hkeeps.ascending
  rw [samples_eq hget] at hperm hascending
  have hne : samples ≠ [] := by
    rintro rfl
    have hnone := hkeeps.absent.mpr hperm.symm.eq_nil
    rw [hget] at hnone
    cases hnone
  obtain ⟨s,hs,_,_,hshown,_⟩ := snapshot_exact root (Registry.after calls)
  obtain ⟨t,ht,hshows⟩ := hshown name samples hget
  refine ⟨hne,hascending,hperm,fun p h0 h1 => percentile_isQuantile root hne h0 h1,
    fun p q v w h0 hpq h1 => percentile_mono root hne h0 hpq h1,s,t,hs,ht,hshows,?_,?_⟩
  · exact percentile_mono root hne (by norm_num) (by norm_num) (by norm_num) hshows.p50 hshows.p95
  · exact percentile_mono root hne (by norm_num) (by norm_num) (by norm_num) hshows.p95 hshows.p99

/-- Two stages are timed, the first of them twice. -/
theorem timers_true_quantiles_sample : TrueQuantiles (id : ℚ → ℚ)
    (Registry.after [.timing "a" 3,.timing "b" 2,.timing "a" 1]) "a" [3,1] [1,3] :=
  (timers_true_quantiles id [.timing "a" 3,.timing "b" 2,.timing "a" 1] "a").2 [1,3] (by decide)

/-- Half of four samples are at most the second, the percentile is the third. -/
example : Timer.percentile (exact id) [4,2,1,3] (1/2 : ℚ) = .ok 3 := by decide +kernel

end
end PipelineX.Decorators
