import PipelineX.Stages
import PipelineX.Detectors
import PipelineX.CharTable

/-!
# The marks that detectors leave on a record

A detector stage writes the score of its anomaly into the enrichment of the
record under a key made of the detector's name, which is the kind that the
factory has it under. A list of detectors on one record is a list of such
insertions, and the last one for a key is the one that stays.
-/

set_option autoImplicit false

namespace PipelineX.OrderedDict
variable {K V : Type*} [DecidableEq K]

/-- The pairs inserted one after the other. -/
def insertAll (d : OrderedDict K V) (ps : List (K × V)) : OrderedDict K V :=
  ps.foldl (fun d p => d.insert p.1 p.2) d

theorem insertAll_append (d : OrderedDict K V) (ps qs : List (K × V)) :
    d.insertAll (ps ++ qs) = (d.insertAll ps).insertAll qs := List.foldl_append

theorem get?_insertAll_of_ne (d : OrderedDict K V) {ps : List (K × V)} {k : K}
    (h : ∀ p ∈ ps, k ≠ p.1) : (d.insertAll ps).get? k = d.get? k := by
  induction ps generalizing d with
  | nil => rfl
  | cons p ps ih =>
    calc (d.insertAll (p::ps)).get? k = (d.insert p.1 p.2).get? k :=
          ih _ fun q hq => h q (List.mem_cons_of_mem _ hq)
      _ = d.get? k := get?_insert_of_ne d p.2 (h p List.mem_cons_self)

/-- A key that is inserted has one of the values inserted for it. -/
theorem get?_insertAll_of_mem (d : OrderedDict K V) {ps : List (K × V)} {k : K}
    (h : ∃ p ∈ ps, k = p.1) : ∃ p ∈ ps, k = p.1 ∧ (d.insertAll ps).get? k = some p.2 := by
  induction ps generalizing d with
  | nil =>
    obtain ⟨p,hp,_⟩ := h
    cases hp
  | cons p ps ih =>
    by_cases hrest : ∃ q ∈ ps, k = q.1
    · obtain ⟨q,hq,hk,hget⟩ := ih (d.insert p.1 p.2) hrest
      exact ⟨q,List.mem_cons_of_mem _ hq,hk,hget⟩
    · obtain ⟨q,hq,hk⟩ := h
      obtain rfl : q = p := by
        rcases List.mem_cons.mp hq with hq | hq
        · exact hq
        · exact absurd ⟨q,hq,hk⟩ hrest
      refine ⟨q,List.mem_cons_self,hk,?_⟩
      calc (d.insertAll (q::ps)).get? k = (d.insert q.1 q.2).get? k :=
            get?_insertAll_of_ne _ fun p hp hkp => hrest ⟨p,hp,hkp⟩
        _ = some q.2 := by rw [hk, get?_insert_self]

/-- All the insertions can be seen exactly when no two for one key differ. -/
theorem insertAll_complete_iff (d : OrderedDict K V) (ps : List (K × V)) :
    (∀ p ∈ ps, (d.insertAll ps).get? p.1 = some p.2) ↔
      ∀ p ∈ ps, ∀ q ∈ ps, p.1 = q.1 → p.2 = q.2 := by
  constructor
  · intro h p hp q hq hkey
    have hp' := h p hp
    rw [hkey, h q hq] at hp'
    exact (Option.some.inj hp').symm
  · intro h p hp
    obtain ⟨q,hq,hkey,hget⟩ := get?_insertAll_of_mem d ⟨p,hp,rfl⟩
    rw [hget, h p hp q hq hkey]

end PipelineX.OrderedDict

namespace PipelineX.DetectorMarks
open PipelineX.Records PipelineX.Stages

variable {σ K : Type}

/-- `DetectorConfig`: what `model_dump` leaves when the kind is taken out are
keyword arguments. -/
structure DetectorConfig (K : Type) where
  kind : String
  kwargs : K

/-- A detector class and the kind that it is registered under, which is the
name that its detectors have. A detector keeps its state at its place. -/
structure Registered (σ K : Type) where
  kind : String
  create : ℕ → K → Except PyError (Detecting σ)
  named : ∀ place kwargs d, create place kwargs = .ok d → d.name = kind

/-- `sorted` on the kinds, as `repr` shows the list. -/
def reprKinds (chars : CharTable) (kinds : List String) : String :=
  "[" ++ ", ".intercalate ((kinds.mergeSort (fun a b => decide (a ≤ b))).map
    (fun kind => String.ofList (chars.repr kind.toList))) ++ "]"

/-- `self._numeric[kind](**kwargs)`. -/
def construct (registry : List (Registered σ K)) (place : ℕ) (dc : DetectorConfig K) :
    Except PyError (Detecting σ) :=
  match registry.find? (fun c => c.kind = dc.kind) with
  | some c => c.create place dc.kwargs
  | none => .error (.other "KeyError" dc.kind)

def createNumeric (chars : CharTable) (registry : List (Registered σ K)) (place : ℕ)
    (dc : DetectorConfig K) : Except PyError (Detecting σ) :=
  match construct registry place dc with
  | .error (.other "KeyError" _) =>
    .error (.other "ConfigurationError" ("unknown numeric detector: " ++
      String.ofList (chars.repr dc.kind.toList) ++ " (registered: " ++
      reprKinds chars (registry.map Registered.kind) ++ ")"))
  | x => x

/-- The detectors of `_build_detector_stages`, from this place on. -/
def buildDetectors (chars : CharTable) (registry : List (Registered σ K)) :
    ℕ → List (DetectorConfig K) → Except PyError (List (Detecting σ))
  | _, [] => .ok []
  | place, dc::configs => do
    let detector ← createNumeric chars registry place dc
    let detectors ← buildDetectors chars registry (place+1) configs
    .ok (detector::detectors)

theorem createNumeric_name {chars : CharTable} {registry : List (Registered σ K)} {place : ℕ}
    {dc : DetectorConfig K} {d : Detecting σ}
    (h : createNumeric chars registry place dc = .ok d) : d.name = dc.kind := by
  unfold createNumeric at h
  split at h
  · cases h
  · unfold construct at h
    split at h
    · next c hc =>
      have hkind : c.kind = dc.kind := by simpa using List.find?_some hc
      exact (c.named place dc.kwargs d h).trans hkind
    · cases h

theorem buildDetectors_names {chars : CharTable} {registry : List (Registered σ K)} {place : ℕ}
    {configs : List (DetectorConfig K)} {ds : List (Detecting σ)}
    (h : buildDetectors chars registry place configs = .ok ds) :
    ds.map Detecting.name = configs.map DetectorConfig.kind := by
  induction configs generalizing place ds with
  | nil =>
    cases h
    rfl
  | cons dc configs ih =>
    obtain ⟨d,hd,h⟩ := Detectors.bind_ok h
    obtain ⟨rest,hrest,h⟩ := Detectors.bind_ok h
    cases h
    rw [List.map_cons, List.map_cons, createNumeric_name hd, ih hrest]

/-- Whether the detector at the front fired, and its score. -/
def score : Except PyError (Option AnomalyEvent) → List (ℕ × ℚ)
  | .ok (some anomaly) => [(0,anomaly.severityScore)]
  | .ok none => []
  | .error _ => []

/-- The detectors that fire on the record when it passes through their stages,
by their places, and their scores. -/
def fired : List (Detecting σ) → σ → LogRecord → List (ℕ × ℚ)
  | [], _, _ => []
  | d::ds, w, r =>
    score (d.detect w r).1 ++ match detectRecord d w r with
      | (.ok r',w) => (fired ds w (r'.markStage (detectorStage d).name)).map
          (fun f => (f.1+1,f.2))
      | (.error _,_) => []

theorem fired_cons {d : Detecting σ} {w w' : σ} {r r' : LogRecord} (ds : List (Detecting σ))
    (h : detectRecord d w r = (.ok r',w')) : fired (d::ds) w r = score (d.detect w r).1 ++
      (fired ds w' (r'.markStage (detectorStage d).name)).map (fun f => (f.1+1,f.2)) := by
  rw [fired, h]

theorem score_fst (answer : Except PyError (Option AnomalyEvent)) :
    ∀ f ∈ score answer, f.1 = 0 := by
  intro f hf
  unfold score at hf
  split at hf
  · rw [List.mem_singleton.mp hf]
  · cases hf
  · cases hf

/-- A detector fires once, if it does. -/
theorem fired_increasing (ds : List (Detecting σ)) (w : σ) (r : LogRecord) :
    (fired ds w r).Pairwise (fun f g => f.1 < g.1) := by
  induction ds generalizing w r with
  | nil => exact List.Pairwise.nil
  | cons d ds ih =>
    have hscore : (score (d.detect w r).1).Pairwise (fun f g => f.1 < g.1) := by
      unfold score
      split
      · exact List.pairwise_singleton _ _
      · exact List.Pairwise.nil
      · exact List.Pairwise.nil
    cases hrec : detectRecord d w r with
    | mk out w' =>
      cases out with
      | error e =>
        rw [fired, hrec, List.append_nil]
        exact hscore
      | ok r' =>
        rw [fired_cons ds hrec, List.pairwise_append, List.pairwise_map]
        refine ⟨hscore,(ih w' _).imp fun h => Nat.succ_lt_succ h,fun f hf g hg => ?_⟩
        obtain ⟨g',_,rfl⟩ := List.mem_map.mp hg
        rw [score_fst _ f hf]
        exact Nat.succ_pos _

theorem fired_unique {ds : List (Detecting σ)} {w : σ} {r : LogRecord} {f g : ℕ × ℚ}
    (hf : f ∈ fired ds w r) (hg : g ∈ fired ds w r) (h : f.1 = g.1) : f = g := by
  have hnodup : ((fired ds w r).map Prod.fst).Nodup :=
    List.pairwise_map.mpr ((fired_increasing ds w r).imp fun hlt => hlt.ne)
  exact List.inj_on_of_nodup_map hnodup hf hg h

/-- What a detector that fired inserts. -/
def mark (ds : List (Detecting σ)) (f : ℕ × ℚ) : String × Value :=
  ("anomaly:" ++ (ds[f.1]?).elim "" Detecting.name,.float f.2)

theorem detectRecord_enrichment {d : Detecting σ} {w : σ} {r r' : LogRecord}
    (h : (detectRecord d w r).1 = .ok r') :
    ((d.detect w r).1 = .ok none ∧ r'.enrichment = r.enrichment) ∨
    ∃ a, (d.detect w r).1 = .ok (some a) ∧
      r'.enrichment = r.enrichment.insert ("anomaly:" ++ d.name) (.float a.severityScore) := by
  unfold detectRecord at h
  split at h
  · cases h
  · next hdetect =>
    cases h
    exact Or.inl ⟨by rw [hdetect],rfl⟩
  · next a w' hdetect =>
    split at h
    · cases h
    · cases h
      exact Or.inr ⟨a,by rw [hdetect],rfl⟩

/-- A record that has passed the stages has the marks of those that fired,
one inserted after the other. -/
theorem runStages_enrichment (ds : List (Detecting σ)) (w : σ) (r r' : LogRecord)
    (h : (runStages (ds.map detectorStage) w r).2.1 = .ok r') :
    r'.enrichment = r.enrichment.insertAll ((fired ds w r).map (mark ds)) := by
  induction ds generalizing w r with
  | nil =>
    cases h
    rfl
  | cons d ds ih =>
    simp only [List.map_cons, runStages] at h
    split at h
    · cases h
    · next r₁ w₁ hfirst =>
      change detectRecord d w r = (.ok r₁,w₁) at hfirst
      have hrest := ih w₁ _ h
      have hshift : ((fired ds w₁ (r₁.markStage (detectorStage d).name)).map
          (fun f => (f.1+1,f.2))).map (mark (d::ds)) =
          (fired ds w₁ (r₁.markStage (detectorStage d).name)).map (mark ds) := by
        rw [List.map_map]
        exact List.map_congr_left fun f _ => by simp [mark]
      rcases detectRecord_enrichment (congrArg Prod.fst hfirst) with ⟨hdetect,hr₁⟩ | ⟨a,hdetect,hr₁⟩
      · rw [hrest, fired_cons ds hfirst, hdetect, score, List.nil_append, hshift, ← hr₁]
        rfl
      · rw [hrest, fired_cons ds hfirst, hdetect, List.map_append, hshift,
          OrderedDict.insertAll_append]
        change (r₁.enrichment).insertAll _ = _
        rw [hr₁]
        rfl

theorem fired_lt (ds : List (Detecting σ)) (w : σ) (r : LogRecord) :
    ∀ f ∈ fired ds w r, f.1 < ds.length := by
  induction ds generalizing w r with
  | nil => nofun
  | cons d ds ih =>
    intro f hf
    rcases List.mem_append.mp hf with hf | hf
    · rw [score_fst _ f hf]
      exact Nat.succ_pos _
    · split at hf
      · obtain ⟨g,hg,rfl⟩ := List.mem_map.mp hf
        exact Nat.succ_lt_succ (ih _ _ g hg)
      · cases hf

/-- Every detector that fired has its score on the record, and nothing else
has changed in the enrichment. -/
structure Marked (ds : List (Detecting σ)) (marks : List (ℕ × ℚ)) (r r' : LogRecord) : Prop where
  scores : ∀ f ∈ marks, ∀ d, ds[f.1]? = some d →
    r'.enrichment.get? ("anomaly:" ++ d.name) = some (.float f.2)
  others : ∀ key, (∀ f ∈ marks, ∀ d, ds[f.1]? = some d → key ≠ "anomaly:" ++ d.name) →
    r'.enrichment.get? key = r.enrichment.get? key

theorem Marked.named {ds : List (Detecting σ)} {marks : List (ℕ × ℚ)} {r r' : LogRecord}
    (h : Marked ds marks r r') (name : String) {f : ℕ × ℚ} (hf : f ∈ marks)
    (hname : (ds.map Detecting.name)[f.1]? = some name) :
    r'.enrichment.get? ("anomaly:" ++ name) = some (.float f.2) := by
  rw [List.getElem?_map] at hname
  obtain ⟨d,hd,rfl⟩ := Option.map_eq_some_iff.mp hname
  exact h.scores f hf d hd

theorem mark_of {ds : List (Detecting σ)} {f : ℕ × ℚ} {d : Detecting σ}
    (h : ds[f.1]? = some d) : mark ds f = ("anomaly:" ++ d.name,.float f.2) := by
  rw [mark, h]
  rfl

theorem marked_iff {ds : List (Detecting σ)} {w : σ} {r r' : LogRecord}
    (h : (runStages (ds.map detectorStage) w r).2.1 = .ok r') :
    Marked ds (fired ds w r) r r' ↔
      ∀ f ∈ fired ds w r, ∀ g ∈ fired ds w r, (mark ds f).1 = (mark ds g).1 → f.2 = g.2 := by
  have hinserted := runStages_enrichment ds w r r' h
  have hcomplete := OrderedDict.insertAll_complete_iff r.enrichment ((fired ds w r).map (mark ds))
  simp only [List.forall_mem_map, ← hinserted] at hcomplete
  constructor
  · intro hm f hf g hg hkey
    refine Value.float.inj (hcomplete.mp (fun f hf => ?_) f hf g hg hkey)
    have hd := List.getElem?_eq_getElem (fired_lt ds w r f hf)
    rw [mark_of hd]
    exact hm.scores f hf _ hd
  · intro hsame
    constructor
    · intro f hf d hd
      have hget := hcomplete.mpr (fun f hf g hg hkey => congrArg Value.float
        (hsame f hf g hg hkey)) f hf
      rw [mark_of hd] at hget
      exact hget
    · intro key hkey
      rw [hinserted]
      refine OrderedDict.get?_insertAll_of_ne _ fun p hp => ?_
      obtain ⟨f,hf,rfl⟩ := List.mem_map.mp hp
      have hd := List.getElem?_eq_getElem (fired_lt ds w r f hf)
      rw [mark_of hd]
      exact hkey f hf _ hd

theorem anomaly_key {a b : String} : "anomaly:" ++ a = "anomaly:" ++ b ↔ a = b :=
  String.append_right_inj _

/-- The kind of the detector that fired. -/
def kindOf (configs : List (DetectorConfig K)) (f : ℕ × ℚ) : Option String :=
  (configs[f.1]?).map DetectorConfig.kind

theorem mark_eq_iff {chars : CharTable} {registry : List (Registered σ K)}
    {configs : List (DetectorConfig K)} {ds : List (Detecting σ)}
    (hbuild : buildDetectors chars registry 0 configs = .ok ds) {f g : ℕ × ℚ}
    (hf : f.1 < ds.length) (hg : g.1 < ds.length) :
    (mark ds f).1 = (mark ds g).1 ↔ kindOf configs f = kindOf configs g := by
  have hnames := buildDetectors_names hbuild
  have hkind (f : ℕ × ℚ) : kindOf configs f = (ds[f.1]?).map Detecting.name := by
    rw [kindOf, ← List.getElem?_map, ← List.getElem?_map, hnames]
  have hf' := List.getElem?_eq_getElem hf
  have hg' := List.getElem?_eq_getElem hg
  rw [mark_of hf', mark_of hg', hkind, hkind, hf', hg', anomaly_key]
  simp

/-- The marks of the detectors all stay exactly when no two of one kind fire on
the record with different scores. Where the kinds are all different, they
always do. -/
theorem marks_kept_iff (chars : CharTable) (registry : List (Registered σ K))
    (configs : List (DetectorConfig K)) (ds : List (Detecting σ)) (w : σ) (r r' : LogRecord)
    (hbuild : buildDetectors chars registry 0 configs = .ok ds)
    (hpass : (runStages (ds.map detectorStage) w r).2.1 = .ok r') :
    (Marked ds (fired ds w r) r r' ↔ ∀ f ∈ fired ds w r, ∀ g ∈ fired ds w r,
      kindOf configs f = kindOf configs g → f.2 = g.2) ∧
    ((configs.map DetectorConfig.kind).Nodup → Marked ds (fired ds w r) r r') := by
  have hiff : Marked ds (fired ds w r) r r' ↔ ∀ f ∈ fired ds w r, ∀ g ∈ fired ds w r,
      kindOf configs f = kindOf configs g → f.2 = g.2 := by
    rw [marked_iff hpass]
    refine forall₂_congr fun f hf => forall₂_congr fun g hg => ?_
    rw [mark_eq_iff hbuild (fired_lt ds w r f hf) (fired_lt ds w r g hg)]
  refine ⟨hiff,fun hnodup => hiff.mpr fun f hf g hg hkind => ?_⟩
  have hlength : (configs.map DetectorConfig.kind).length = ds.length := by
    rw [← buildDetectors_names hbuild, List.length_map]
  rw [kindOf, kindOf, ← List.getElem?_map, ← List.getElem?_map] at hkind
  have hplace := (List.getElem?_inj (hlength ▸ fired_lt ds w r f hf) hnodup).mp hkind
  rw [fired_unique hf hg hplace]

section
variable {F : Type}

/-- The detectors' own states, each at its place, and the repository. `drawn`
counts the calls, of which each draws its own defaults. -/
structure Memory (F : Type) where
  zScore : ℕ → List F
  cusum : ℕ → Detectors.Cusum.State F
  iqr : ℕ → Detectors.Iqr.State F
  drawn : ℕ
  saved : List AnomalyEvent

inductive Kwargs (F : Type) where
  | zScore (cfg : Detectors.ZScore.Config F)
  | cusum (cfg : Detectors.Cusum.Config F)
  | iqr (cfg : Detectors.Iqr.Config F)

variable (py : PyFloat F) (number : ℚ → F) (rational : F → ℚ) (draw : ℕ → Detectors.Draw)

def metric : Value → Detectors.Metric F
  | .bool b => .bool b
  | .int n => .int n
  | .float x => .float (number x)
  | v => .other v.typeName

def sampleOf (r : LogRecord) : Detectors.Sample F :=
  ⟨r.id,r.enrichment.mapValues (metric number),r.rawPayload.mapValues (metric number)⟩

def datum : Detectors.Datum F → Value
  | .str s => .str s
  | .int n => .int n
  | .float x => .float (rational x)

def eventOf (e : Detectors.AnomalyEvent F) : AnomalyEvent :=
  ⟨e.id,e.logRecordId,e.detectorName,rational e.severityScore,e.detectedAt,
    OrderedDict.empty.insertAll (e.metadata.map (fun m => (m.1,datum rational m.2)))⟩

/-- A detector whose state is kept there. -/
def detecting {S : Type} (name : String)
    (detect : Detectors.Draw → S → Detectors.Sample F →
      Except PyError (Option (Detectors.AnomalyEvent F)) × S)
    (get : Memory F → S) (put : Memory F → S → Memory F) : Detecting (Memory F) where
  name
  detect m r :=
    let (found,s) := detect (draw m.drawn) (get m) (sampleOf number r)
    (found.map (Option.map (eventOf rational)),{ put m s with drawn := m.drawn+1 })
  saveAnomaly m a := (.ok (),{ m with saved := m.saved ++ [a] })
  countAnomaly m := m

def unexpectedKwargs : PyError := .other "TypeError" "got an unexpected keyword argument"

def zScoreDetector : Registered (Memory F) (Kwargs F) where
  kind := "z_score"
  create place
    | .zScore cfg => (Detectors.ZScore.init py cfg).map (fun _ =>
      detecting number rational draw "z_score" (Detectors.ZScore.detect py cfg)
        (fun m => m.zScore place) (fun m s => { m with zScore := Function.update m.zScore place s }))
    | _ => .error unexpectedKwargs
  named place kwargs d h := by
    cases kwargs with
    | zScore cfg =>
      obtain ⟨_,_,hd⟩ := Detectors.bind_ok h
      cases hd
      rfl
    | _ => cases h

def iqrDetector : Registered (Memory F) (Kwargs F) where
  kind := "iqr"
  create place
    | .iqr cfg => (Detectors.Iqr.init py cfg).map (fun _ =>
      detecting number rational draw "iqr" (Detectors.Iqr.detect py cfg)
        (fun m => m.iqr place) (fun m s => { m with iqr := Function.update m.iqr place s }))
    | _ => .error unexpectedKwargs
  named place kwargs d h := by
    cases kwargs with
    | iqr cfg =>
      obtain ⟨_,_,hd⟩ := Detectors.bind_ok h
      cases hd
      rfl
    | _ => cases h

def cusumDetector : Registered (Memory F) (Kwargs F) where
  kind := "cusum"
  create place
    | .cusum cfg => (Detectors.Cusum.init py cfg).map (fun _ =>
      detecting number rational draw "cusum" (Detectors.Cusum.detect py cfg)
        (fun m => m.cusum place) (fun m s => { m with cusum := Function.update m.cusum place s }))
    | _ => .error unexpectedKwargs
  named place kwargs d h := by
    cases kwargs with
    | cusum cfg =>
      obtain ⟨_,_,hd⟩ := Detectors.bind_ok h
      cases hd
      rfl
    | _ => cases h

/-- The numeric detectors of `default_factory`. -/
def defaultFactory : List (Registered (Memory F) (Kwargs F)) :=
  [zScoreDetector py number rational draw,iqrDetector py number rational draw,
    cusumDetector py number rational draw]

end

section

/-- The finite floats; a score that is not one has no `Value`. -/
def rational : Float64 → ℚ
  | .finite x _ => x
  | _ => 0

def builtIn : List (Registered (Memory Float64) (Kwargs Float64)) :=
  defaultFactory (float64 true) (Double.ofRat binary64) rational (fun _ => ⟨0,0⟩)

def zScoreOf (metricKey : String) : DetectorConfig (Kwargs Float64) :=
  ⟨"z_score",.zScore ⟨metricKey,Double.ofRat binary64 3,4,2,"enrichment"⟩⟩

def cusumOf (metricKey : String) : DetectorConfig (Kwargs Float64) :=
  ⟨"cusum",.cusum ⟨metricKey,Double.ofRat binary64 3,Double.zero,2,"enrichment"⟩⟩

def built (configs : List (DetectorConfig (Kwargs Float64))) : List (Detecting (Memory Float64)) :=
  (buildDetectors .ascii builtIn 0 configs).toOption.getD []

def reading (cpu latency : ℤ) : LogRecord where
  id := 0
  enrichment := (OrderedDict.empty.insert "cpu" (.int cpu)).insert "latency" (.int latency)

/-- The detectors after two readings. -/
def warm (configs : List (DetectorConfig (Kwargs Float64))) : Memory Float64 :=
  let start : Memory Float64 := ⟨fun _ => [],fun _ => Detectors.Cusum.start (float64 true),
    fun _ => ⟨[],[]⟩,0,[]⟩
  let stages := (built configs).map detectorStage
  (runStages stages (runStages stages start (reading 0 0)).2.2 (reading 2 2)).2.2

def passed (configs : List (DetectorConfig (Kwargs Float64))) : LogRecord :=
  ((runStages ((built configs).map detectorStage) (warm configs) (reading 5 6)).2.1).toOption.getD
    (reading 0 0)

theorem ok_getD {α : Type} {x : Except PyError α} {a : α} (h : x.toOption.isSome = true) :
    x = .ok (x.toOption.getD a) := by
  cases x with
  | error e => cases h
  | ok b => rfl

/-- Both fire on the last reading, and both marks stay. -/
theorem marks_kept_sample :
    (passed [zScoreOf "cpu",cusumOf "latency"]).enrichment.get? "anomaly:z_score" =
      some (.float 4) ∧
    (passed [zScoreOf "cpu",cusumOf "latency"]).enrichment.get? "anomaly:cusum" =
      some (.float 5) := by
  have hmarked := (marks_kept_iff .ascii builtIn [zScoreOf "cpu",cusumOf "latency"]
    (built [zScoreOf "cpu",cusumOf "latency"]) (warm [zScoreOf "cpu",cusumOf "latency"])
    (reading 5 6) (passed [zScoreOf "cpu",cusumOf "latency"]) (ok_getD (by decide +kernel))
    (ok_getD (by decide +kernel))).2 (by decide)
  have hfired : fired (built [zScoreOf "cpu",cusumOf "latency"])
      (warm [zScoreOf "cpu",cusumOf "latency"]) (reading 5 6) = [(0,4),(1,5)] := by decide +kernel
  rw [hfired] at hmarked
  constructor
  · exact hmarked.named "z_score" List.mem_cons_self (by decide +kernel)
  · exact hmarked.named "cusum" (List.mem_cons_of_mem _ List.mem_cons_self) (by decide +kernel)

/-- Two detectors of one kind fire on the last reading, and the score of the
first is gone. -/
theorem second_mark_overwrites :
    buildDetectors .ascii builtIn 0 [zScoreOf "cpu",zScoreOf "latency"] =
      .ok (built [zScoreOf "cpu",zScoreOf "latency"]) ∧
    (runStages ((built [zScoreOf "cpu",zScoreOf "latency"]).map detectorStage)
      (warm [zScoreOf "cpu",zScoreOf "latency"]) (reading 5 6)).2.1 =
      .ok (passed [zScoreOf "cpu",zScoreOf "latency"]) ∧
    fired (built [zScoreOf "cpu",zScoreOf "latency"]) (warm [zScoreOf "cpu",zScoreOf "latency"])
      (reading 5 6) = [(0,4),(1,5)] ∧
    (passed [zScoreOf "cpu",zScoreOf "latency"]).enrichment.get? "anomaly:z_score" =
      some (.float 5) ∧
    ¬ Marked (built [zScoreOf "cpu",zScoreOf "latency"]) [(0,4),(1,5)]
      (reading 5 6) (passed [zScoreOf "cpu",zScoreOf "latency"]) := by
  have hlast : (passed [zScoreOf "cpu",zScoreOf "latency"]).enrichment.get? "anomaly:z_score" =
      some (.float 5) := by decide +kernel
  refine ⟨ok_getD (by decide +kernel),ok_getD (by decide +kernel),by decide +kernel,hlast,
    fun hmarked => ?_⟩
  have hfirst : (passed [zScoreOf "cpu",zScoreOf "latency"]).enrichment.get? "anomaly:z_score" =
      some (.float 4) := hmarked.named "z_score" List.mem_cons_self (by decide +kernel)
  rw [hlast] at hfirst
  exact absurd hfirst (by decide)

end

end PipelineX.DetectorMarks
