import PipelineX.Config

/-!
# The command line over the configuration

`pipelinex run` validates the file and then assigns the options to the
validated object. The other way to set them is in the dictionary, before the
validation; the two agree on the options that the validation accepts.
-/

set_option autoImplicit false

namespace PipelineX.Config
open PipelineX.Records Validation

/-- The items of a section, if it is there. -/
def sectionOf (d : Items) (name : String) : Items :=
  match lookup d name with
  | some (.dict items) => items
  | _ => []

def writePath (sourcePath : Option String) (d : Items) : Items :=
  match sourcePath with
  | some path => store d "source" (.dict
      (store (store (sectionOf d "source") "path" (.str path)) "kind" (.str "file")))
  | none => d

def writeWorkers (workers : Option ℤ) (d : Items) : Items :=
  match workers with
  | some n => store d "runtime" (.dict (store (sectionOf d "runtime") "num_workers" (.int n)))
  | none => d

/-- The dictionary with the options written into it. -/
def written (o : Overrides) (d : Items) : Items := writeWorkers o.workers (writePath o.sourcePath d)

theorem isStr_iff {k : Data} {key : String} : k.isStr key = true ↔ k = .str key := by
  cases k <;> simp [Data.isStr]

theorem lookup_store_self (d : Items) (key : String) (v : Data) :
    lookup (store d key v) key = some v := by
  induction d with
  | nil => simp [store, lookup, Data.isStr]
  | cons p rest ih =>
    rw [store]
    by_cases hk : p.1.isStr key
    · rw [if_pos hk, lookup, if_pos hk]
    · rw [if_neg hk, lookup, if_neg hk, ih]

theorem lookup_store_other (d : Items) {key other : String} (v : Data) (h : other ≠ key) :
    lookup (store d key v) other = lookup d other := by
  have hne (k : Data) (hk : k.isStr key = true) : ¬ k.isStr other = true := by
    rw [isStr_iff.mp hk]
    simpa [Data.isStr] using h.symm
  induction d with
  | nil => simp [store, lookup, hne (.str key) (isStr_iff.mpr rfl)]
  | cons p rest ih =>
    rw [store]
    by_cases hk : p.1.isStr key
    · rw [if_pos hk, lookup, lookup, if_neg (hne p.1 hk), if_neg (hne p.1 hk)]
    · rw [if_neg hk, lookup, lookup, ih]

section
variable {α : Type}

theorem field_store_self (d : Items) (key : String) (v : Data) (default : Option α)
    (read : Data → Validation α) :
    field (store d key v) key default read = (read v).within key := by
  simp only [field, lookup_store_self]

theorem field_store_other (d : Items) {key other : String} (v : Data) (h : other ≠ key)
    (default : Option α) (read : Data → Validation α) :
    field (store d key v) other default read = field d other default read := by
  simp only [field, lookup_store_other d v h]

/-- What is no field is so after a field is written. -/
theorem extras_store (py : Pydantic) (allowExtra : Bool) {fields : List String} (d : Items)
    {key : String} (v : Data) (h : key ∈ fields) :
    extras py allowExtra fields (store d key v) = extras py allowExtra fields d := by
  have hfield : isField fields (.str key) = true := by
    simp only [isField, Data.isStr, List.any_eq_true, beq_iff_eq]
    exact ⟨key,h,rfl⟩
  have hfilter : (store d key v).filter (fun p => !isField fields p.1) =
      d.filter (fun p => !isField fields p.1) := by
    induction d with
    | nil => simp [store, hfield]
    | cons p rest ih =>
      rw [store]
      by_cases hk : p.1.isStr key
      · rw [if_pos hk, List.filter_cons, List.filter_cons, isStr_iff.mp hk, hfield]
        rfl
      · rw [if_neg hk, List.filter_cons, List.filter_cons, ih]
  rw [extras, extras, hfilter]

theorem closed_eq_valid {py : Pydantic} {fields : List String} {items : Items}
    {model : Validation α} {a : α} : closed py fields items model = valid a ↔
      model = valid a ∧ ∃ extra, extras py false fields items = valid extra := by
  cases model with
  | invalid errors => simp [closed, also_eq_valid, Validation.map]
  | valid b =>
    simp only [closed, also_eq_valid, Validation.map, valid.injEq]
    constructor
    · rintro ⟨g,extra,rfl,hextra,rfl⟩
      exact ⟨rfl,extra,hextra⟩
    · rintro ⟨rfl,extra,hextra⟩
      exact ⟨_,extra,rfl,hextra,rfl⟩

end

section
variable (py : Pydantic)

theorem sourceFields_iff {items : Items} {c : SourceConfig} :
    SourceConfig.fields py items = valid c ↔
      field items "kind" (some .file) sourceKind = valid c.kind ∧
      field items "path" (some none) (nullable (str py)) = valid c.path ∧
      field items "encoding" (some "utf-8") (str py) = valid c.encoding ∧
      field items "throttle_rps" (some none) (nullable (float py)) = valid c.throttleRps ∧
      ∃ extra, extras py false ["kind","path","encoding","throttle_rps"] items = valid extra := by
  rw [SourceConfig.fields, closed_eq_valid]
  simp only [also_eq_valid, valid.injEq]
  constructor
  · rintro ⟨⟨_,_,⟨_,_,⟨_,_,⟨_,_,rfl,hkind,rfl⟩,hpath,rfl⟩,hencoding,rfl⟩,hrate,rfl⟩,hextra⟩
    exact ⟨hkind,hpath,hencoding,hrate,hextra⟩
  · rintro ⟨hkind,hpath,hencoding,hrate,hextra⟩
    exact ⟨⟨_,_,⟨_,_,⟨_,_,⟨_,_,rfl,hkind,rfl⟩,hpath,rfl⟩,hencoding,rfl⟩,hrate,rfl⟩,hextra⟩

theorem runtimeFields_iff {items : Items} {c : RuntimeConfig} :
    RuntimeConfig.fields py items = valid c ↔
      field items "num_workers" (some 4) (bounded py 1 (some 64)) = valid c.numWorkers ∧
      field items "queue_size" (some 1000) (bounded py 1 none) = valid c.queueSize ∧
      field items "batch_size" (some 100) (bounded py 1 none) = valid c.batchSize ∧
      field items "flush_interval_s" (some (Double.ofRat binary64 1)) (positive py) =
        valid c.flushIntervalS ∧
      ∃ extra, extras py false ["num_workers","queue_size","batch_size","flush_interval_s"]
        items = valid extra := by
  rw [RuntimeConfig.fields, closed_eq_valid]
  simp only [also_eq_valid, valid.injEq]
  constructor
  · rintro ⟨⟨_,_,⟨_,_,⟨_,_,⟨_,_,rfl,hworkers,rfl⟩,hqueue,rfl⟩,hbatch,rfl⟩,hflush,rfl⟩,hextra⟩
    exact ⟨hworkers,hqueue,hbatch,hflush,hextra⟩
  · rintro ⟨hworkers,hqueue,hbatch,hflush,hextra⟩
    exact ⟨⟨_,_,⟨_,_,⟨_,_,⟨_,_,rfl,hworkers,rfl⟩,hqueue,rfl⟩,hbatch,rfl⟩,hflush,rfl⟩,hextra⟩

/-- The sections that no option writes. -/
structure Rest (d : Items) (c : PipelineConfig) : Prop where
  parser : field d "parser" (some {}) (ParserConfig.validate py) = valid c.parser
  validation : field d "validation" (some []) (listOf py (ValidatorConfig.validate py)) =
    valid c.validation
  templateMatcher : field d "template_matcher" (some {}) (TemplateMatcherConfig.validate py) =
    valid c.templateMatcher
  sessionizer : field d "sessionizer" (some {}) (SessionizerConfig.validate py) =
    valid c.sessionizer
  detectors : field d "detectors" (some []) (listOf py (DetectorConfig.validate py)) =
    valid c.detectors
  sequenceDetector : field d "sequence_detector" (some none)
    (nullable (SequenceDetectorConfig.validate py)) = valid c.sequenceDetector
  repository : field d "repository" (some {}) (RepositoryConfig.validate py) = valid c.repository
  extra : ∃ extra, extras py false PipelineConfig.sections d = valid extra

theorem validate_iff {d : Items} {c : PipelineConfig} : PipelineConfig.validate py d = valid c ↔
    field d "source" none (SourceConfig.validate py) = valid c.source ∧
    field d "runtime" (some {}) (RuntimeConfig.validate py) = valid c.runtime ∧ Rest py d c := by
  rw [PipelineConfig.validate, closed_eq_valid]
  simp only [also_eq_valid, valid.injEq]
  constructor
  · rintro ⟨⟨_,_,⟨_,_,⟨_,_,⟨_,_,⟨_,_,⟨_,_,⟨_,_,⟨_,_,⟨_,_,rfl,h₁,rfl⟩,h₂,rfl⟩,h₃,rfl⟩,h₄,rfl⟩,
      h₅,rfl⟩,h₆,rfl⟩,h₇,rfl⟩,h₈,rfl⟩,h₉,rfl⟩,hextra⟩
    exact ⟨h₁,h₉,h₂,h₃,h₄,h₅,h₆,h₇,h₈,hextra⟩
  · rintro ⟨h₁,h₉,h⟩
    exact ⟨⟨_,_,⟨_,_,⟨_,_,⟨_,_,⟨_,_,⟨_,_,⟨_,_,⟨_,_,⟨_,_,rfl,h₁,rfl⟩,h.parser,rfl⟩,
      h.validation,rfl⟩,h.templateMatcher,rfl⟩,h.sessionizer,rfl⟩,h.detectors,rfl⟩,
      h.sequenceDetector,rfl⟩,h.repository,rfl⟩,h₉,rfl⟩,h.extra⟩

theorem itemsOf_eq_valid {model : String} {v : Data} {items : Items} :
    itemsOf model v = valid items ↔ v = .dict items := by
  cases v <;> simp [itemsOf, fail]

theorem source_section {d : Items} {c : SourceConfig}
    (h : field d "source" none (SourceConfig.validate py) = valid c) :
    SourceConfig.fields py (sectionOf d "source") = valid c := by
  unfold field at h
  split at h
  · next v hv =>
    obtain ⟨items,hitems,hfields⟩ := bind_eq_valid.mp (within_eq_valid.mp h)
    obtain rfl := itemsOf_eq_valid.mp hitems
    obtain ⟨c',hc',hpath⟩ := bind_eq_valid.mp hfields
    unfold SourceConfig.pathRequiredForFile at hpath
    split at hpath
    · cases hpath
    · obtain rfl := valid.inj hpath
      rw [sectionOf, hv]
      exact hc'
  · cases h

theorem runtime_section {d : Items} {c : RuntimeConfig}
    (h : field d "runtime" (some {}) (RuntimeConfig.validate py) = valid c) :
    RuntimeConfig.fields py (sectionOf d "runtime") = valid c := by
  unfold field at h
  split at h
  · next v hv =>
    obtain ⟨items,hitems,hfields⟩ := bind_eq_valid.mp (within_eq_valid.mp h)
    obtain rfl := itemsOf_eq_valid.mp hitems
    rw [sectionOf, hv]
    exact hfields
  · next hnone =>
    rw [sectionOf, hnone]
    exact h

theorem str_str (s : String) : str py (.str s) = valid s := by
  rw [str, py.str_str]
  rfl

theorem bounded_workers (n : ℤ) (m : ℤ) :
    bounded py 1 (some 64) (.int n) = valid m ↔ m = n ∧ 1 ≤ n ∧ n ≤ 64 := by
  have hint : int py (.int n) = valid n := by
    rw [int, py.int_int]
    rfl
  rw [bounded, hint, bind_eq_valid]
  simp only [Option.any_some, decide_eq_true_eq, valid.injEq, exists_eq_left']
  split
  · next h =>
    simp only [fail, reduceCtorEq, false_iff]
    omega
  · split
    · simp only [fail, reduceCtorEq, false_iff]
      omega
    · simp only [valid.injEq]
      omega

/-- The source with the path in it is valid unless the path is empty. -/
theorem source_path_iff {d : Items} {c c' : SourceConfig} (path : String)
    (h : field d "source" none (SourceConfig.validate py) = valid c) :
    field (writePath (some path) d) "source" none (SourceConfig.validate py) = valid c' ↔
      c' = { c with path := some path, kind := .file } ∧ path ≠ "" := by
  obtain ⟨_,_,hencoding,hrate,extra,hextra⟩ := (sourceFields_iff py).mp (source_section py h)
  have hfields : SourceConfig.fields py
      (store (store (sectionOf d "source") "path" (.str path)) "kind" (.str "file")) =
      valid { c with path := some path, kind := .file } := by
    rw [sourceFields_iff]
    refine ⟨?_,?_,?_,?_,extra,?_⟩
    · rw [field_store_self]
      rfl
    · rw [field_store_other _ _ (by decide), field_store_self, nullable, str_str]
      · rfl
      · nofun
    · rw [field_store_other _ _ (by decide), field_store_other _ _ (by decide)]
      exact hencoding
    · rw [field_store_other _ _ (by decide), field_store_other _ _ (by decide)]
      exact hrate
    · rw [extras_store _ _ _ _ (by decide), extras_store _ _ _ _ (by decide)]
      exact hextra
  rw [writePath, field_store_self, within_eq_valid, SourceConfig.validate, itemsOf,
    Validation.bind, hfields, Validation.bind, SourceConfig.pathRequiredForFile]
  by_cases hpath : path = ""
  · simp [hpath, fail]
  · simp [hpath, eq_comm]

/-- The runtime with the workers in it is valid when the number is. -/
theorem runtime_workers_iff {d : Items} {c c' : RuntimeConfig} (n : ℤ)
    (h : field d "runtime" (some {}) (RuntimeConfig.validate py) = valid c) :
    field (writeWorkers (some n) d) "runtime" (some {}) (RuntimeConfig.validate py) = valid c' ↔
      c' = { c with numWorkers := n } ∧ 1 ≤ n ∧ n ≤ 64 := by
  obtain ⟨_,hqueue,hbatch,hflush,hextra⟩ := (runtimeFields_iff py).mp (runtime_section py h)
  rw [writeWorkers, field_store_self, within_eq_valid, RuntimeConfig.validate, itemsOf,
    Validation.bind, runtimeFields_iff, field_store_self, within_eq_valid, bounded_workers,
    field_store_other _ _ (by decide), field_store_other _ _ (by decide),
    field_store_other _ _ (by decide), extras_store _ _ _ _ (by decide), hqueue, hbatch, hflush]
  constructor
  · rintro ⟨⟨hn,hrange⟩,hq,hb,hf,_⟩
    obtain ⟨numWorkers,queueSize,batchSize,flushIntervalS⟩ := c'
    simp only [valid.injEq] at hn hq hb hf
    subst hn hq hb hf
    exact ⟨rfl,hrange⟩
  · rintro ⟨rfl,hrange⟩
    exact ⟨⟨rfl,hrange⟩,rfl,rfl,rfl,hextra⟩

theorem Rest.store {d : Items} {c : PipelineConfig} {key : String} (v : Data)
    (hkey : key = "source" ∨ key = "runtime") : Rest py (store d key v) c ↔ Rest py d c := by
  have hextra : extras py false PipelineConfig.sections (Config.store d key v) =
      extras py false PipelineConfig.sections d := by
    rcases hkey with rfl | rfl <;> exact extras_store _ _ _ _ (by decide)
  have hother {α : Type} (name : String) (default : Option α) (read : Data → Validation α)
      (hs : name ≠ "source") (hr : name ≠ "runtime") :
      field (Config.store d key v) name default read = field d name default read := by
    refine field_store_other d v ?_ default read
    rcases hkey with rfl | rfl
    · exact hs
    · exact hr
  constructor
  · rintro ⟨h₁,h₂,h₃,h₄,h₅,h₆,h₇,h₈⟩
    rw [hother _ _ _ (by decide) (by decide)] at h₁ h₂ h₃ h₄ h₅ h₆ h₇
    exact ⟨h₁,h₂,h₃,h₄,h₅,h₆,h₇,hextra ▸ h₈⟩
  · rintro ⟨h₁,h₂,h₃,h₄,h₅,h₆,h₇,h₈⟩
    rw [← hother _ _ _ (by decide) (by decide)] at h₁ h₂ h₃ h₄ h₅ h₆ h₇
    exact ⟨h₁,h₂,h₃,h₄,h₅,h₆,h₇,hextra ▸ h₈⟩

/-- The rest of two configurations for one dictionary is the same. -/
theorem Rest.ext {d : Items} {c c' : PipelineConfig} (h : Rest py d c) (h' : Rest py d c')
    (hsource : c'.source = c.source) (hruntime : c'.runtime = c.runtime) : c' = c := by
  have hparser := Validation.valid.inj (h'.parser.symm.trans h.parser)
  have hvalidation := Validation.valid.inj (h'.validation.symm.trans h.validation)
  have hmatcher := Validation.valid.inj (h'.templateMatcher.symm.trans h.templateMatcher)
  have hsessionizer := Validation.valid.inj (h'.sessionizer.symm.trans h.sessionizer)
  have hdetectors := Validation.valid.inj (h'.detectors.symm.trans h.detectors)
  have hsequence := Validation.valid.inj (h'.sequenceDetector.symm.trans h.sequenceDetector)
  have hrepository := Validation.valid.inj (h'.repository.symm.trans h.repository)
  cases c
  cases c'
  dsimp only at *
  rw [hsource, hparser, hvalidation, hmatcher, hsessionizer, hdetectors, hsequence, hrepository,
    hruntime]

theorem source_written_iff {d : Items} {c : PipelineConfig} {s : SourceConfig}
    (sourcePath : Option String)
    (h : field d "source" none (SourceConfig.validate py) = valid c.source) :
    field (writePath sourcePath d) "source" none (SourceConfig.validate py) = valid s ↔
      s = (applySourcePath sourcePath c).source ∧ ∀ path, sourcePath = some path → path ≠ "" := by
  cases sourcePath with
  | none =>
    rw [writePath, h, valid.injEq]
    exact ⟨fun hs => ⟨hs.symm,nofun⟩,fun hs => hs.1.symm⟩
  | some path =>
    rw [source_path_iff py path h]
    exact and_congr_right fun _ => ⟨fun hne _ hp => Option.some.inj hp ▸ hne,fun hp => hp path rfl⟩

theorem runtime_written_iff {d : Items} {c : PipelineConfig} {r : RuntimeConfig}
    (workers : Option ℤ)
    (h : field d "runtime" (some {}) (RuntimeConfig.validate py) = valid c.runtime) :
    field (writeWorkers workers d) "runtime" (some {}) (RuntimeConfig.validate py) = valid r ↔
      r = (applyWorkers workers c).runtime ∧ ∀ n, workers = some n → 1 ≤ n ∧ n ≤ 64 := by
  cases workers with
  | none =>
    rw [writeWorkers, h, valid.injEq]
    exact ⟨fun hr => ⟨hr.symm,nofun⟩,fun hr => hr.1.symm⟩
  | some n =>
    rw [runtime_workers_iff py n h]
    exact and_congr_right fun _ => ⟨fun hn _ hm => Option.some.inj hm ▸ hn,fun hm => hm n rfl⟩

/-- The options are ones that the validation accepts. -/
structure Overrides.Accepted (o : Overrides) : Prop where
  workers : ∀ n, o.workers = some n → 1 ≤ n ∧ n ≤ 64
  sourcePath : ∀ path, o.sourcePath = some path → path ≠ ""

/-- What `_run` makes of a validated configuration. -/
def Overrides.apply (o : Overrides) (c : PipelineConfig) : PipelineConfig :=
  applyWorkers o.workers (applySourcePath o.sourcePath c)

theorem rest_written {d : Items} {c : PipelineConfig} (o : Overrides) :
    Rest py (written o d) c ↔ Rest py d c := by
  obtain ⟨workers,sourcePath⟩ := o
  have hpath : Rest py (writePath sourcePath d) c ↔ Rest py d c := by
    cases sourcePath with
    | none => exact Iff.rfl
    | some path => exact Rest.store py _ (Or.inl rfl)
  cases workers with
  | none => exact hpath
  | some n => exact (Rest.store py _ (Or.inr rfl)).trans hpath

theorem rest_apply {d : Items} {c : PipelineConfig} (o : Overrides) (h : Rest py d c) :
    Rest py d (o.apply c) := by
  obtain ⟨workers,sourcePath⟩ := o
  cases workers <;> cases sourcePath <;>
    exact ⟨h.parser,h.validation,h.templateMatcher,h.sessionizer,h.detectors,h.sequenceDetector,
      h.repository,h.extra⟩

/-- A valid dictionary with accepted options in it gives the configuration
with the options assigned; with others it is not valid. -/
theorem validate_written {d : Items} {c c' : PipelineConfig} (o : Overrides)
    (h : PipelineConfig.validate py d = valid c) :
    PipelineConfig.validate py (written o d) = valid c' ↔ c' = o.apply c ∧ o.Accepted := by
  obtain ⟨hsource,hruntime,hrest⟩ := (validate_iff py).mp h
  have hkept : field (writePath o.sourcePath d) "runtime" (some {}) (RuntimeConfig.validate py) =
      valid c.runtime := by
    cases o.sourcePath with
    | none => exact hruntime
    | some path => exact (field_store_other d _ (by decide) _ _).trans hruntime
  have hsource' : field (written o d) "source" none (SourceConfig.validate py) =
      field (writePath o.sourcePath d) "source" none (SourceConfig.validate py) := by
    rw [written]
    cases o.workers with
    | none => rfl
    | some n => exact field_store_other _ _ (by decide) _ _
  rw [validate_iff, hsource', source_written_iff py o.sourcePath hsource, written,
    runtime_written_iff py o.workers hkept, ← written, rest_written]
  have happlied : (o.apply c).source = (applySourcePath o.sourcePath c).source ∧
      (o.apply c).runtime = (applyWorkers o.workers c).runtime := by
    obtain ⟨workers,sourcePath⟩ := o
    cases workers <;> cases sourcePath <;> exact ⟨rfl,rfl⟩
  constructor
  · rintro ⟨⟨hs,hpath⟩,⟨hr,hworkers⟩,hrest'⟩
    exact ⟨Rest.ext py (rest_apply py o hrest) hrest' (hs.trans happlied.1.symm)
      (hr.trans happlied.2.symm),hworkers,hpath⟩
  · rintro ⟨rfl,haccepted⟩
    exact ⟨⟨happlied.1,haccepted.sourcePath⟩,⟨happlied.2,haccepted.workers⟩,rest_apply py o hrest⟩

theorem parseConfig_ok_iff {d : Items} {c : PipelineConfig} :
    parseConfig py d = .ok c ↔ PipelineConfig.validate py d = valid c := by
  unfold parseConfig
  split
  · next c' hc' => simp [hc']
  · next errors herrors => simp [herrors]

/-- A number of workers that was validated is positive. -/
theorem workers_pos {d : Items} {c : PipelineConfig} (h : parseConfig py d = .ok c) :
    1 ≤ c.runtime.numWorkers := by
  have hruntime := ((validate_iff py).mp ((parseConfig_ok_iff py).mp h)).2.1
  have hworkers := ((runtimeFields_iff py).mp (runtime_section py hruntime)).1
  unfold field at hworkers
  split at hworkers
  · obtain ⟨n,-,hn⟩ := bind_eq_valid.mp (within_eq_valid.mp hworkers)
    split at hn
    · cases hn
    · split at hn
      · cases hn
      · next hge =>
        obtain rfl := valid.inj hn
        omega
  · rw [← valid.inj hworkers]
    decide

/-- What is handed to `build_pipeline` is what `parse_config` makes of the
dictionary with the options in it, so that there are workers; and where it
makes nothing, nothing is handed. -/
structure Respects (d : Items) (o : Overrides) : Prop where
  parsed : ∀ c, handed py d o = .ok c →
    parseConfig py (written o d) = .ok c ∧ 1 ≤ c.runtime.numWorkers
  rejected : ∀ e, parseConfig py (written o d) = .error e → ∃ e', handed py d o = .error e'

theorem handed_eq {d : Items} {c : PipelineConfig} (o : Overrides) (h : parseConfig py d = .ok c) :
    handed py d o = .ok (o.apply c) := by
  rw [handed, h]
  rfl

/-- The run respects the constraints of the configuration exactly when it has
none to run, or the options are ones that the validation accepts. A dictionary
that only the options make valid is not run. -/
theorem overrides_respected_iff (d : Items) (o : Overrides) :
    (Respects py d o ↔ (∀ c, parseConfig py d ≠ .ok c) ∨ o.Accepted) ∧
    ∀ c, parseConfig py (written o d) = .ok c →
      (handed py d o = .ok c ↔ ∃ c', parseConfig py d = .ok c') := by
  cases hd : parseConfig py d with
  | error e =>
    have hhanded : handed py d o = .error e := by
      rw [handed, hd]
      rfl
    constructor
    · have hnone (c : PipelineConfig) : (Except.error e : Except PyError PipelineConfig) ≠ .ok c := by
        simp
      refine ⟨fun _ => Or.inl hnone,fun _ => ⟨fun c hc => ?_,fun _ _ => ⟨e,hhanded⟩⟩⟩
      rw [hhanded] at hc
      cases hc
    · intro c _
      simp [hhanded]
  | ok c =>
    have hhanded := handed_eq py o hd
    have hwritten (c' : PipelineConfig) :
        parseConfig py (written o d) = .ok c' ↔ c' = o.apply c ∧ o.Accepted := by
      rw [parseConfig_ok_iff, validate_written py o ((parseConfig_ok_iff py).mp hd)]
    constructor
    · constructor
      · intro h
        exact Or.inr ((hwritten _).mp (h.parsed _ hhanded).1).2
      · rintro (hnone | haccepted)
        · exact absurd rfl (hnone c)
        · have hparsed := (hwritten _).mpr ⟨rfl,haccepted⟩
          constructor
          · intro c' hc'
            obtain rfl := Except.ok.inj (hhanded.symm.trans hc')
            exact ⟨hparsed,workers_pos py hparsed⟩
          · intro e he
            rw [hparsed] at he
            cases he
    · intro c' hc'
      rw [hhanded, ((hwritten c').mp hc').1]
      exact ⟨fun _ => ⟨c,rfl⟩,fun _ => rfl⟩

end

/-- The conversions of values that have the type already. -/
def exactly : Pydantic where
  str v := match v with
    | .str s => .ok s
    | _ => .error "Input should be a valid string"
  int v := match v with
    | .int n => .ok n
    | _ => .error "Input should be a valid integer"
  float v := match v with
    | .float x => .ok x
    | _ => .error "Input should be a valid number"
  bool v := match v with
    | .bool b => .ok b
    | _ => .error "Input should be a valid boolean"
  list v := match v with
    | .list xs => .ok xs
    | _ => .error "Input should be a valid list"
  key _ := "key"
  render errors := "\n".intercalate (errors.map (fun e => ".".intercalate e.loc ++ ": " ++ e.message))
  str_str _ := rfl
  int_int _ := rfl

/-- A file to read, and everything else by default. -/
def fileConfig : Items := [(.str "source",.dict [(.str "path",.str "app.log")])]

/-- `--workers 0` and `--source-path ""` are handed on; in the dictionary they
are refused. -/
theorem refused_options_handed :
    (∃ c e, handed exactly fileConfig ⟨some 0,none⟩ = .ok c ∧ c.runtime.numWorkers = 0 ∧
      parseConfig exactly (written ⟨some 0,none⟩ fileConfig) = .error e) ∧
    ∃ c e, handed exactly fileConfig ⟨none,some ""⟩ = .ok c ∧ c.source.path = some "" ∧
      parseConfig exactly (written ⟨none,some ""⟩ fileConfig) = .error e :=
  ⟨⟨_,_,rfl,rfl,rfl⟩,_,_,rfl,rfl,rfl⟩

end PipelineX.Config
