import PipelineX.PyFloat
import PipelineX.Bisect
import PipelineX.OrderedDict

/-!
# The metric detectors

`ZScoreDetector`, `CUSUMDetector` and `IQRDetector` over any type of numbers. A
call of `detect` gives the event or the exception, and the state that it
leaves, which is the one that an exception leaves too. What `AnomalyEvent()`
draws by default is an input.
-/

set_option autoImplicit false

namespace PipelineX.Detectors
open PipelineX.Records

theorem bind_ok {α β : Type} {x : Except PyError α} {f : α → Except PyError β} {b : β}
    (h : x >>= f = .ok b) : ∃ a, x = .ok a ∧ f a = .ok b := by
  cases x with
  | error e => cases h
  | ok a => exact ⟨a,rfl,h⟩

/-- A value of a record's dictionary, as far as a detector looks at it. -/
inductive Metric (F : Type) where
  | bool (b : Bool)
  | int (n : ℤ)
  | float (x : F)
  | other (type : String)

/-- What a detector reads of a record. -/
structure Sample (F : Type) where
  id : UUID
  enrichment : OrderedDict String (Metric F)
  rawPayload : OrderedDict String (Metric F)

/-- A value in the metadata of an event. -/
inductive Datum (F : Type) where
  | str (s : String)
  | int (n : ℤ)
  | float (x : F)
  deriving DecidableEq

structure AnomalyEvent (F : Type) where
  id : UUID
  logRecordId : UUID
  detectorName : String
  severityScore : F
  detectedAt : Datetime
  metadata : List (String × Datum F)

/-- The defaults of an event. -/
structure Draw where
  id : UUID
  detectedAt : Datetime

def valueError (message : String) : PyError := .other "ValueError" message

/-- `sys.maxsize`, the most that `deque(maxlen=...)` takes. -/
def maxsize : ℤ := 2^63-1

def checkSourceDict (sourceDict : String) : Except PyError Unit :=
  if sourceDict ≠ "enrichment" ∧ sourceDict ≠ "raw_payload" then
    .error (valueError "source_dict must be 'enrichment' or 'raw_payload'")
  else .ok ()

def checkMaxlen (maxlen : ℤ) : Except PyError Unit :=
  if maxsize < maxlen then
    .error (.other "OverflowError" "Python int too large to convert to C ssize_t")
  else .ok ()

theorem checkMaxlen_ok {maxlen : ℤ} (h : checkMaxlen maxlen = .ok ()) : maxlen ≤ maxsize := by
  unfold checkMaxlen at h
  split at h
  · cases h
  · next hle => exact not_lt.mp hle

/-- `deque(maxlen=n).append(v)`. -/
def push {F : Type} (n : ℤ) (w : List F) (v : F) : List F :=
  (w ++ [v]).drop ((w ++ [v]).length-n.toNat)

theorem push_room {F : Type} {n : ℤ} {w : List F} (v : F) (h : w.length < n) :
    push n w v = w ++ [v] := by
  have hdrop : (w ++ [v]).length-n.toNat = 0 := by
    rw [List.length_append, List.length_singleton]
    omega
  rw [push, hdrop, List.drop_zero]

theorem push_full {F : Type} {n : ℤ} {old : F} {w : List F} (v : F) (h : (old::w).length = n) :
    push n (old::w) v = w ++ [v] := by
  have hdrop : (old::w ++ [v]).length-n.toNat = 1 := by
    rw [List.length_append, List.length_singleton]
    omega
  rw [push, hdrop]
  rfl

theorem push_length {F : Type} {n : ℤ} {w : List F} (v : F) (hn : 0 < n) (h : w.length ≤ n) :
    ((push n w v).length : ℤ) ≤ n := by
  rw [push, List.length_drop]
  omega

section
variable {F : Type} (py : PyFloat F)

/-- The number under the key, if there is one: a boolean is none. -/
def readMetric (sourceDict metricKey : String) (r : Sample F) : Option (Except PyError F) :=
  let bag := if sourceDict = "enrichment" then r.enrichment else r.rawPayload
  match bag.get? metricKey with
  | some (.int n) => some (py.ofInt n)
  | some (.float x) => some (.ok x)
  | _ => none

/-- The squared deviations from the mean. -/
def squares (xs : List F) (mean : F) : Except PyError (List F) :=
  xs.mapM (fun x => py.square (py.sub x mean))

theorem squares_cons (x : F) (xs : List F) (mean : F) : squares py (x::xs) mean = (do
    let z ← py.square (py.sub x mean)
    let zs ← squares py xs mean
    pure (z::zs)) :=
  List.mapM_cons

namespace ZScore

structure Config (F : Type) where
  metricKey : String
  threshold : F
  windowSize : ℤ
  minSamples : ℤ
  sourceDict : String

def init (cfg : Config F) : Except PyError Unit :=
  if cfg.windowSize ≤ 1 then .error (valueError "window_size must be > 1")
  else if py.le cfg.threshold (py.literal 0) then .error (valueError "threshold must be > 0")
  else if cfg.minSamples < 2 then .error (valueError "min_samples must be >= 2")
  else do
    checkSourceDict cfg.sourceDict
    checkMaxlen cfg.windowSize

theorem init_ok {py : PyFloat F} {cfg : Config F} (h : init py cfg = .ok ()) :
    1 < cfg.windowSize ∧ 2 ≤ cfg.minSamples ∧ cfg.windowSize ≤ maxsize := by
  unfold init at h
  split at h
  · cases h
  split at h
  · cases h
  split at h
  · cases h
  obtain ⟨_,_,hmaxlen⟩ := bind_ok h
  have hle := checkMaxlen_ok hmaxlen
  omega

/-- `sum(self._window) / n`. -/
def mean (window : List F) : Except PyError F := do
  let n ← py.ofInt window.length
  py.div (py.sum window) n

def zScore (cfg : Config F) (window : List F) (value : F) : Except PyError (Option F) :=
  if window.length < cfg.minSamples then .ok none
  else do
    let n ← py.ofInt window.length
    let mean ← mean py window
    let squares ← squares py window mean
    let variance ← py.div (py.sum squares) n
    let sigma ← py.sqrt variance
    if py.eq sigma (py.literal 0) then .ok none
    else
      let z ← py.div (py.sub value mean) sigma
      .ok (some z)

def event (cfg : Config F) (draw : Draw) (r : Sample F) (window : List F) (value z : F) :
    AnomalyEvent F where
  id := draw.id
  logRecordId := r.id
  detectorName := "z_score"
  severityScore := py.abs z
  detectedAt := draw.detectedAt
  metadata :=
    [("metric_key",.str cfg.metricKey),("value",.float value),("z_score",.float z),
     ("window_size",.int window.length),("threshold",.float cfg.threshold)]

def detect (cfg : Config F) (draw : Draw) (window : List F) (r : Sample F) :
    Except PyError (Option (AnomalyEvent F)) × List F :=
  match readMetric py cfg.sourceDict cfg.metricKey r with
  | none => (.ok none,window)
  | some (.error e) => (.error e,window)
  | some (.ok value) =>
    match zScore py cfg window value with
    | .error e => (.error e,window)
    | .ok none => (.ok none,push cfg.windowSize window value)
    | .ok (some z) =>
      let window := push cfg.windowSize window value
      if py.le (py.abs z) cfg.threshold then (.ok none,window)
      else (.ok (some (event py cfg draw r window value z)),window)

end ZScore

namespace Cusum

structure Config (F : Type) where
  metricKey : String
  threshold : F
  slack : F
  warmupSamples : ℤ
  sourceDict : String

def init (cfg : Config F) : Except PyError Unit :=
  if py.le cfg.threshold (py.literal 0) then .error (valueError "threshold must be > 0")
  else if py.lt cfg.slack (py.literal 0) then .error (valueError "slack must be >= 0")
  else if cfg.warmupSamples < 2 then .error (valueError "warmup_samples must be >= 2")
  else do
    checkSourceDict cfg.sourceDict
    checkMaxlen cfg.warmupSamples

theorem init_ok {py : PyFloat F} {cfg : Config F} (h : init py cfg = .ok ()) :
    2 ≤ cfg.warmupSamples ∧ cfg.warmupSamples ≤ maxsize := by
  unfold init at h
  split at h
  · cases h
  split at h
  · cases h
  split at h
  · cases h
  obtain ⟨_,_,hmaxlen⟩ := bind_ok h
  have hle := checkMaxlen_ok hmaxlen
  omega

structure State (F : Type) where
  warmup : List F
  target : Option F
  sigma : Option F
  sHigh : F
  sLow : F

def start : State F := ⟨[],none,none,py.literal 0,py.literal 0⟩

/-- `max(variance**0.5, 1e-12)`. -/
def sigmaOf (warmup : List F) (n mean : F) : Except PyError F := do
  let squares ← squares py warmup mean
  let variance ← py.div (py.sum squares) n
  let root ← py.root variance
  .ok (py.max root (py.literal (1/10^12)))

/-- The end of the warm-up. The target is kept when sigma cannot be had. -/
def calibrate (s : State F) : Except PyError (Option (AnomalyEvent F)) × State F :=
  match py.ofInt s.warmup.length with
  | .error e => (.error e,s)
  | .ok n =>
    match py.div (py.sum s.warmup) n with
    | .error e => (.error e,s)
    | .ok mean =>
      let s := { s with target := some mean }
      match sigmaOf py s.warmup n mean with
      | .error e => (.error e,s)
      | .ok sigma => (.ok none,{ s with sigma := some sigma })

def event (cfg : Config F) (draw : Draw) (r : Sample F) (s : State F) (value target sigma : F) :
    AnomalyEvent F where
  id := draw.id
  logRecordId := r.id
  detectorName := "cusum"
  severityScore := py.max s.sHigh s.sLow
  detectedAt := draw.detectedAt
  metadata :=
    [("metric_key",.str cfg.metricKey),("value",.float value),("target",.float target),
     ("sigma",.float sigma),("s_high",.float s.sHigh),("s_low",.float s.sLow),
     ("direction",.str (if py.lt cfg.threshold s.sHigh then "up" else "down")),
     ("threshold",.float cfg.threshold)]

/-- The sums with one more deviation. -/
def accumulate (cfg : Config F) (s : State F) (deviation : F) : State F :=
  { s with
    sHigh := py.max (py.literal 0) (py.sub (py.add s.sHigh deviation) cfg.slack)
    sLow := py.max (py.literal 0) (py.sub (py.sub s.sLow deviation) cfg.slack) }

def detect (cfg : Config F) (draw : Draw) (s : State F) (r : Sample F) :
    Except PyError (Option (AnomalyEvent F)) × State F :=
  match readMetric py cfg.sourceDict cfg.metricKey r with
  | none => (.ok none,s)
  | some (.error e) => (.error e,s)
  | some (.ok value) =>
    match s.target, s.sigma with
    | some target, some sigma =>
      match py.div (py.sub value target) sigma with
      | .error e => (.error e,s)
      | .ok deviation =>
        let s := accumulate py cfg s deviation
        if py.lt cfg.threshold s.sHigh || py.lt cfg.threshold s.sLow then
          (.ok (some (event py cfg draw r s value target sigma)),
            { s with sHigh := py.literal 0, sLow := py.literal 0 })
        else (.ok none,s)
    | _, _ =>
      let s := { s with warmup := push cfg.warmupSamples s.warmup value }
      if s.warmup.length < cfg.warmupSamples then (.ok none,s) else calibrate py s

end Cusum

namespace Iqr

structure Config (F : Type) where
  metricKey : String
  k : F
  windowSize : ℤ
  minSamples : ℤ
  sourceDict : String

def init (cfg : Config F) : Except PyError Unit :=
  if cfg.windowSize ≤ 1 then .error (valueError "window_size must be > 1")
  else if py.le cfg.k (py.literal 0) then .error (valueError "k must be > 0")
  else if cfg.minSamples < 4 then
    .error (valueError "min_samples must be >= 4 (need quartiles)")
  else do
    checkSourceDict cfg.sourceDict
    checkMaxlen cfg.windowSize

theorem init_ok {py : PyFloat F} {cfg : Config F} (h : init py cfg = .ok ()) :
    1 < cfg.windowSize ∧ 4 ≤ cfg.minSamples ∧ cfg.windowSize ≤ maxsize := by
  unfold init at h
  split at h
  · cases h
  split at h
  · cases h
  split at h
  · cases h
  obtain ⟨_,_,hmaxlen⟩ := bind_ok h
  have hle := checkMaxlen_ok hmaxlen
  omega

theorem init_k {py : PyFloat F} {cfg : Config F} (h : init py cfg = .ok ()) :
    py.le cfg.k (py.literal 0) = false := by
  unfold init at h
  split at h
  · cases h
  split at h
  · cases h
  · next hk => exact Bool.eq_false_of_not_eq_true hk

structure State (F : Type) where
  window : List F
  sorted : List F

/-- `xs[i]`, where a negative index counts from the end. -/
def index (xs : List F) (i : ℤ) : Except PyError F :=
  match (if i < 0 then if i+xs.length < 0 then none else xs[(i+xs.length).toNat]?
    else xs[i.toNat]?) with
  | some x => .ok x
  | none => .error (.other "IndexError" "list index out of range")

theorem index_getElem {xs : List F} {i : ℕ} (h : i < xs.length) : index xs i = .ok xs[i] := by
  rw [index, if_neg (by omega), Int.toNat_natCast, List.getElem?_eq_getElem h]

def percentile (sorted : List F) (p : F) : Except PyError F :=
  let n : ℤ := sorted.length
  if n = 1 then index sorted 0
  else do
    let last ← py.ofInt (n-1)
    let rank := py.mul p last
    let lo ← py.toInt rank
    let hi := min (lo+1) (n-1)
    let whole ← py.ofInt lo
    let frac := py.sub rank whole
    let low ← index sorted lo
    let high ← index sorted hi
    .ok (py.add low (py.mul frac (py.sub high low)))

def bounds (cfg : Config F) (sorted : List F) : Except PyError (Option (F × F)) :=
  if sorted.length < cfg.minSamples then .ok none
  else do
    let q1 ← percentile py sorted (py.literal (1/4))
    let q3 ← percentile py sorted (py.literal (3/4))
    let iqr := py.sub q3 q1
    if py.eq iqr (py.literal 0) then .ok none
    else .ok (some (py.sub q1 (py.mul cfg.k iqr),py.add q3 (py.mul cfg.k iqr)))

/-- The sorted view without the oldest sample, where it is found. -/
def evict (sorted : List F) (old : F) : List F :=
  let idx := Bisect.bisectLeft py.lt sorted old
  match sorted[idx]? with
  | some x => if py.eq x old then sorted.eraseIdx idx else sorted
  | none => sorted

def add (cfg : Config F) (s : State F) (value : F) : State F :=
  let sorted :=
    if (s.window.length : ℤ) = cfg.windowSize then
      match s.window.head? with
      | some old => evict py s.sorted old
      | none => s.sorted
    else s.sorted
  ⟨push cfg.windowSize s.window value,Bisect.insort py.lt sorted value⟩

def event (cfg : Config F) (draw : Draw) (r : Sample F) (s : State F) (value lower upper : F) :
    AnomalyEvent F where
  id := draw.id
  logRecordId := r.id
  detectorName := "iqr"
  severityScore := if py.lt value lower then py.sub lower value else py.sub value upper
  detectedAt := draw.detectedAt
  metadata :=
    [("metric_key",.str cfg.metricKey),("value",.float value),("lower_fence",.float lower),
     ("upper_fence",.float upper),("side",.str (if py.lt value lower then "below" else "above")),
     ("window_size",.int s.window.length)]

def detect (cfg : Config F) (draw : Draw) (s : State F) (r : Sample F) :
    Except PyError (Option (AnomalyEvent F)) × State F :=
  match readMetric py cfg.sourceDict cfg.metricKey r with
  | none => (.ok none,s)
  | some (.error e) => (.error e,s)
  | some (.ok value) =>
    match bounds py cfg s.sorted with
    | .error e => (.error e,s)
    | .ok none => (.ok none,add py cfg s value)
    | .ok (some (lower,upper)) =>
      let s := add py cfg s value
      if py.le lower value && py.le value upper then (.ok none,s)
      else (.ok (some (event py cfg draw r s value lower upper)),s)

end Iqr
end

/-- One call of a run: the state before it and what it did. -/
structure Call (S F : Type) where
  before : S
  sample : Sample F
  outcome : Except PyError (Option (AnomalyEvent F))
  after : S

/-- The calls of `detect` on the samples in turn. The run goes on after an
exception, with the state that it left. -/
def calls {S F : Type}
    (detect : Draw → S → Sample F → Except PyError (Option (AnomalyEvent F)) × S) :
    S → List (Draw × Sample F) → List (Call S F)
  | _, [] => []
  | s, (draw,r)::rest =>
    let (outcome,after) := detect draw s r
    ⟨s,r,outcome,after⟩ :: calls detect after rest

theorem calls_cons {S F : Type}
    (detect : Draw → S → Sample F → Except PyError (Option (AnomalyEvent F)) × S) (s : S)
    (call : Draw × Sample F) (rest : List (Draw × Sample F)) :
    calls detect s (call::rest) =
      ⟨s,call.2,(detect call.1 s call.2).1,(detect call.1 s call.2).2⟩ ::
        calls detect (detect call.1 s call.2).2 rest := rfl

end PipelineX.Detectors
