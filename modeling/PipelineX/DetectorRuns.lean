import PipelineX.Detectors

/-!
# Runs of a detector

Calls of `detect` and of `reset` in any order. A reset leaves a detector as its
constructor did.
-/

set_option autoImplicit false

namespace PipelineX.Detectors
open PipelineX.Records

def ZScore.reset {F : Type} (_ : List F) : List F := []

def Cusum.reset {F : Type} (py : PyFloat F) (_ : Cusum.State F) : Cusum.State F :=
  ⟨[],none,none,py.literal 0,py.literal 0⟩

def Iqr.reset {F : Type} (_ : Iqr.State F) : Iqr.State F := ⟨[],[]⟩

/-- The last `n` of them. -/
def recent {F : Type} (n : ℤ) (xs : List F) : List F := xs.drop (xs.length-n.toNat)

theorem recent_nil {F : Type} (n : ℤ) : recent n ([] : List F) = [] := List.drop_nil

theorem recent_length {F : Type} (n : ℤ) (xs : List F) :
    (recent n xs).length = min xs.length n.toNat := by
  rw [recent, List.length_drop]
  omega

theorem recent_all {F : Type} {n : ℤ} {xs : List F} (h : xs.length ≤ n) : recent n xs = xs := by
  have hdrop : xs.length-n.toNat = 0 := by omega
  rw [recent, hdrop, List.drop_zero]

theorem recent_append {F : Type} {n : ℤ} (xs : List F) {vs : List F} (h : n ≤ vs.length) :
    recent n (xs ++ vs) = recent n vs := by
  have hdrop : (xs ++ vs).length-n.toNat = xs.length+(vs.length-n.toNat) := by
    rw [List.length_append]
    omega
  rw [recent, hdrop, List.drop_length_add_append, recent]

theorem push_recent {F : Type} {n : ℤ} (hn : 0 < n) (xs : List F) (v : F) :
    push n (recent n xs) v = recent n (xs ++ [v]) := by
  have hdrop : recent n xs ++ [v] = (xs ++ [v]).drop (xs.length-n.toNat) := by
    rw [recent, List.drop_append_of_le_length (Nat.sub_le _ _)]
  rw [push, List.length_append, recent_length, hdrop, List.drop_drop, recent, List.length_append,
    List.length_singleton]
  congr 1
  omega

inductive Op (F : Type) where
  | detect (draw : Draw) (r : Sample F)
  | reset

/-- A record with this number under the key, in both dictionaries. -/
def sample {F : Type} (metricKey : String) (v : F) : Sample F :=
  ⟨0,OrderedDict.empty.insert metricKey (.float v),OrderedDict.empty.insert metricKey (.float v)⟩

def feed {F : Type} (metricKey : String) (vs : List F) : List (Op F) :=
  vs.map fun v => .detect ⟨0,0⟩ (sample metricKey v)

theorem feed_append {F : Type} (metricKey : String) (vs ws : List F) :
    feed metricKey (vs ++ ws) = feed metricKey vs ++ feed metricKey ws :=
  List.map_append

theorem readMetric_sample {F : Type} (py : PyFloat F) (sourceDict metricKey : String) (v : F) :
    readMetric py sourceDict metricKey (sample metricKey v) = some (.ok v) := by
  have hget : (OrderedDict.empty.insert metricKey (Metric.float v)).get? metricKey =
      some (.float v) := OrderedDict.get?_insert_self _ _ _
  unfold readMetric sample
  dsimp only
  rw [ite_self, hget]

/-- The severity of the event, if there is one. -/
def severity {F : Type} : Except PyError (Option (AnomalyEvent F)) → Option F
  | .ok (some e) => some e.severityScore
  | _ => none

theorem severity_isSome {F : Type} {x : Except PyError (Option (AnomalyEvent F))}
    (h : (severity x).isSome = true) : ∃ e, x = .ok (some e) := by
  unfold severity at h
  split at h
  · next e => exact ⟨e,rfl⟩
  · cases h

theorem severity_iff {F : Type} {x : Except PyError (Option (AnomalyEvent F))}
    {outcome : Option (AnomalyEvent F)} (h : x = .ok outcome) (d : F) :
    severity x = some d ↔ ∃ e, outcome = some e ∧ e.severityScore = d := by
  rw [h]
  cases outcome with
  | none => exact ⟨(fun h => by cases h),fun ⟨_,h,_⟩ => by cases h⟩
  | some e =>
    constructor
    · exact fun h => ⟨e,rfl,Option.some.inj h⟩
    · rintro ⟨_,h,rfl⟩
      cases h
      rfl

section
variable {S F : Type}
variable (detect : Draw → S → Sample F → Except PyError (Option (AnomalyEvent F)) × S)
variable (reset : S → S)

/-- What the calls leave, an exception or not. -/
def after : S → List (Op F) → S
  | s, [] => s
  | s, .detect draw r :: ops => after (detect draw s r).2 ops
  | s, .reset :: ops => after (reset s) ops

/-- Of every call, the severity when it fires. -/
def severities : S → List (Op F) → List (Option F)
  | _, [] => []
  | s, .detect draw r :: ops =>
    severity (detect draw s r).1 :: severities (detect draw s r).2 ops
  | s, .reset :: ops => none :: severities (reset s) ops

theorem after_append (s : S) (ops ops' : List (Op F)) :
    after detect reset s (ops ++ ops') = after detect reset (after detect reset s ops) ops' := by
  induction ops generalizing s with
  | nil => rfl
  | cons op ops ih => cases op <;> exact ih _

/-- The same calls on other records. -/
def Op.onSample (g : Sample F → Sample F) : Op F → Op F
  | .detect draw r => .detect draw (g r)
  | .reset => .reset

variable {detect reset}

theorem severities_append (s : S) (ops ops' : List (Op F)) :
    severities detect reset s (ops ++ ops') = severities detect reset s ops ++
      severities detect reset (after detect reset s ops) ops' := by
  induction ops generalizing s with
  | nil => rfl
  | cons op ops ih => cases op <;> exact congrArg (_::·) (ih _)

/-- A number that the detector fires on, after others. -/
theorem severity_mem {metricKey : String} {s : S} {vs : List F} {v d : F}
    (h : severity (detect ⟨0,0⟩ (after detect reset s (feed metricKey vs)) (sample metricKey v)).1 =
      some d) : some d ∈ severities detect reset s (feed metricKey (vs ++ [v])) := by
  rw [feed_append, severities_append, ← h]
  exact List.mem_append_right _ List.mem_cons_self

/-- A severity is that of a call of the run. -/
theorem mem_severities {s : S} {ops : List (Op F)} {d : F}
    (h : some d ∈ severities detect reset s ops) :
    ∃ front draw r, severity (detect draw (after detect reset s front) r).1 = some d := by
  induction ops generalizing s with
  | nil => cases h
  | cons op ops ih =>
    cases op with
    | reset =>
      rcases List.mem_cons.mp h with h | h
      · cases h
      · obtain ⟨front,draw,r,hd⟩ := ih h
        exact ⟨.reset::front,draw,r,hd⟩
    | detect draw r =>
      rcases List.mem_cons.mp h with h | h
      · exact ⟨[],draw,r,h.symm⟩
      · obtain ⟨front,draw',r',hd⟩ := ih h
        exact ⟨.detect draw r::front,draw',r',hd⟩

/-- Two runs whose states stay related fire in the same calls, with related
severities. -/
theorem severities_onSample {R : S → S → Prop} {g : Sample F → Sample F} {scale : F → F}
    (hreset : ∀ s s', R s s' → R (reset s) (reset s'))
    (hdetect : ∀ draw s s' r, R s s' →
      severity (detect draw s' (g r)).1 = (severity (detect draw s r).1).map scale ∧
        R (detect draw s r).2 (detect draw s' (g r)).2)
    {s s' : S} (hs : R s s') (ops : List (Op F)) :
    severities detect reset s' (ops.map (Op.onSample g)) =
      (severities detect reset s ops).map (Option.map scale) := by
  induction ops generalizing s s' with
  | nil => rfl
  | cons op ops ih =>
    rw [List.map_cons]
    cases op with
    | reset => exact congrArg (none::·) (ih (hreset s s' hs))
    | detect draw r =>
      obtain ⟨hsame,hnext⟩ := hdetect draw s s' r hs
      rw [Op.onSample, severities, severities, List.map_cons, hsame, ih hnext]

end

section
variable {F : Type} (py : PyFloat F) (sourceDict metricKey : String)

/-- The numbers that were admitted since the last reset. -/
def admitted : List F → List (Op F) → List F
  | xs, [] => xs
  | xs, .detect _ r :: ops =>
    match readMetric py sourceDict metricKey r with
    | some (.ok v) => admitted (xs ++ [v]) ops
    | _ => admitted xs ops
  | _, .reset :: ops => admitted [] ops

theorem admitted_append (xs : List F) (ops ops' : List (Op F)) :
    admitted py sourceDict metricKey xs (ops ++ ops') =
      admitted py sourceDict metricKey (admitted py sourceDict metricKey xs ops) ops' := by
  induction ops generalizing xs with
  | nil => rfl
  | cons op ops ih =>
    cases op with
    | reset => exact ih []
    | detect draw r =>
      rw [List.cons_append, admitted, admitted]
      split
      · exact ih _
      · exact ih _

theorem admitted_feed (xs vs : List F) :
    admitted py sourceDict metricKey xs (feed metricKey vs) = xs ++ vs := by
  induction vs generalizing xs with
  | nil => exact (List.append_nil xs).symm
  | cons v vs ih =>
    rw [feed, List.map_cons, admitted, readMetric_sample]
    exact (ih _).trans (by rw [List.append_assoc]; rfl)

/-- A relation of the state to the numbers admitted holds after every run when
a start establishes it and a call keeps it. -/
theorem after_relates {S : Type}
    {detect : Draw → S → Sample F → Except PyError (Option (AnomalyEvent F)) × S}
    {reset : S → S} {R : S → List F → Prop} (hreset : ∀ s, R (reset s) [])
    (hskip : ∀ draw s r xs, R s xs → (∀ v, readMetric py sourceDict metricKey r ≠ some (.ok v)) →
      R (detect draw s r).2 xs)
    (hnumber : ∀ draw s r xs v, R s xs → readMetric py sourceDict metricKey r = some (.ok v) →
      R (detect draw s r).2 (xs ++ [v]))
    {s : S} {xs : List F} (hs : R s xs) (ops : List (Op F)) :
    R (after detect reset s ops) (admitted py sourceDict metricKey xs ops) := by
  induction ops generalizing s xs with
  | nil => exact hs
  | cons op ops ih =>
    cases op with
    | reset => exact ih (hreset s)
    | detect draw r =>
      rw [after, admitted]
      split
      · next v hv => exact ih (hnumber draw s r xs v hs hv)
      · next hv => exact ih (hskip draw s r xs hs fun v h => hv v h)

end

end PipelineX.Detectors
