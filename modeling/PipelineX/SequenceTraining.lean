import PipelineX.SequenceScripts
import PipelineX.SequenceScoring

/-!
# What the trainer and the evaluator depend on

Both scripts see a log only as the events of each block in the order of their
lines. How the lines of the blocks are interleaved makes no difference, and a
model that was trained on more of a log knows more.
-/

set_option autoImplicit false

namespace PipelineX.SequenceScripts
open PipelineX.Records PipelineX.SequenceDetector PipelineX.BlockScoring PipelineX.SequenceFile

/-- The events of block `b` in these lines. -/
def eventsIn (chars : CharTable) (patterns : List (String × Regex))
    (lines : List (List Char × ℕ)) (b : String) : List String :=
  lines.filterMap (fun line => (lineEvent chars patterns line.1).bind
    (fun p => if p.1 = b then some p.2 else none))

def eventsOf (chars : CharTable) (patterns : List (String × Regex)) (inputs : Inputs)
    (b : String) : List String := eventsIn chars patterns (numberedLines inputs) b

/-- What the evaluator assembles from a log. -/
def assembled (chars : CharTable) (ids : ℕ → UUID) (patterns : List (String × Regex))
    (inputs : Inputs) : OrderedDict String (List String) :=
  (numberedLines inputs).foldl (evaluateLine chars ids patterns) .empty

section
variable (chars : CharTable) (ids : ℕ → UUID) (patterns : List (String × Regex))

theorem addEvent_get (d : OrderedDict String (List String)) (e : Option (String × String))
    (b : String) : ((addEvent d e).get? b).getD [] = (d.get? b).getD [] ++
      (e.bind (fun p => if p.1 = b then some p.2 else none)).toList := by
  cases e with
  | none => simp [addEvent]
  | some p =>
    by_cases hb : p.1 = b
    · subst hb
      simp [addEvent, append, OrderedDict.get?_insert_self]
    · simp [addEvent, append, OrderedDict.get?_insert_of_ne _ _ (Ne.symm hb), hb]

theorem evaluated_get (lines : List (List Char × ℕ)) (d : OrderedDict String (List String))
    (b : String) : ((lines.foldl (evaluateLine chars ids patterns) d).get? b).getD [] =
      (d.get? b).getD [] ++ eventsIn chars patterns lines b := by
  induction lines generalizing d with
  | nil => simp [eventsIn]
  | cons line lines ih =>
    rw [List.foldl_cons, ih, evaluateLine_events, addEvent_get, eventsIn, eventsIn,
      List.filterMap_cons, List.append_assoc]
    cases (lineEvent chars patterns line.1).bind _ <;> rfl

/-- A block is assembled when it has an event. -/
theorem mem_assembled (inputs : Inputs) (b : String) :
    b ∈ (assembled chars ids patterns inputs).keys ↔ eventsOf chars patterns inputs b ≠ [] := by
  rw [assembled, mem_keys_evaluated, or_iff_right (by simp [OrderedDict.keys, OrderedDict.empty]),
    eventsOf, eventsIn, Ne, List.filterMap_eq_nil_iff]
  simp only [List.mem_filterMap, Option.map_eq_some_iff, Option.bind_eq_none_iff]
  push Not
  constructor
  · rintro ⟨line,hline,p,hp,rfl⟩
    exact ⟨line,hline,p,hp,by simp⟩
  · rintro ⟨line,hline,p,hp,hb⟩
    refine ⟨line,hline,p,hp,?_⟩
    by_contra hne
    simp [hne] at hb

theorem assembled_items (inputs : Inputs) (b : String) (events : List String) :
    (b,events) ∈ (assembled chars ids patterns inputs).items ↔
      events = eventsOf chars patterns inputs b ∧ events ≠ [] := by
  have hget := evaluated_get chars ids patterns (numberedLines inputs) .empty b
  have hmem := mem_assembled chars ids patterns inputs b
  rw [OrderedDict.get?_empty, Option.getD_none, List.nil_append] at hget
  rw [← OrderedDict.get?_eq_some]
  constructor
  · intro h
    have hevents : events = eventsOf chars patterns inputs b := by
      rw [eventsOf, ← hget]
      exact (congrArg (Option.getD · []) h).symm
    refine ⟨hevents,?_⟩
    rw [hevents]
    exact hmem.mp (OrderedDict.fst_mem_keys (OrderedDict.mem_of_get? h))
  · rintro ⟨rfl,hne⟩
    obtain ⟨events,h⟩ := Option.ne_none_iff_exists'.mp
      (mt OrderedDict.get?_eq_none.mp (not_not.mpr (hmem.mpr hne)))
    rw [h]
    change ((assembled chars ids patterns inputs).get? b).getD [] = _ at hget
    rw [h] at hget
    exact congrArg some hget

end

theorem mem_vocabulary {labels : OrderedDict String String} {n : ℤ} {e : String}
    {items : List (String × List String)} {s : Collected} :
    e ∈ (items.foldl (collectBlock labels n) s).vocabulary ↔ e ∈ s.vocabulary ∨
      ∃ p ∈ items, p.1 ∈ labels.keys ∧ e ∈ p.2 := by
  induction items generalizing s with
  | nil => simp
  | cons p items ih =>
    rw [List.foldl_cons, ih]
    simp only [List.mem_cons, exists_eq_or_imp, ← or_assoc]
    apply or_congr_left
    unfold collectBlock
    cases hl : labels.get? p.1 with
    | none => simp [OrderedDict.get?_eq_none.mp hl]
    | some label =>
      have hk : p.1 ∈ labels.keys := by
        by_contra hk
        rw [OrderedDict.get?_eq_none.mpr hk] at hl
        cases hl
      by_cases hn : label = "Normal" <;> simp [hn, hk]

/-- The labels and the patterns that both scripts read first. -/
def prepare (inputs : Inputs) :
    Except PyError (OrderedDict String String × List (String × Regex)) :=
  match loadLabels inputs.labels with
  | .error e => .error e
  | .ok labels =>
    match csvError (TemplateMatcher.compileTemplates inputs.templates) with
    | .error e => .error e
    | .ok patterns => .ok (labels,patterns)

/-- The model that is trained on these events of the blocks. -/
structure TrainedOn (labels : OrderedDict String String) (n : ℤ) (events : String → List String)
    (m : SequenceModel) : Prop where
  n_eq : m.n = n
  normal : ∀ g, g ∈ m.normalNgrams ↔
    ∃ b, labels.get? b = some "Normal" ∧ g ∈ ngrams (events b) n
  vocabulary : ∀ e, e ∈ m.vocabulary ↔ ∃ b ∈ labels.keys, e ∈ events b

theorem TrainedOn.unique {labels : OrderedDict String String} {n : ℤ}
    {events : String → List String} {m m' : SequenceModel} (h : TrainedOn labels n events m)
    (h' : TrainedOn labels n events m') : m = m' := by
  cases m
  cases m'
  simp only [SequenceModel.mk.injEq]
  exact ⟨h.n_eq.trans h'.n_eq.symm,Finset.ext fun g => (h.normal g).trans (h'.normal g).symm,
    Finset.ext fun e => (h.vocabulary e).trans (h'.vocabulary e).symm⟩

theorem ngrams_nil (n : ℤ) : ngrams ([] : List String) n = [] := by
  unfold ngrams
  split
  · rfl
  · next h =>
    simp only [List.length_nil, Nat.cast_zero, not_or, not_le, not_lt] at h
    omega

section
variable (chars : CharTable) (ids : ℕ → UUID)

theorem train_prepared (inputs : Inputs) (n : ℤ) :
    train chars ids inputs n = (prepare inputs).map (fun p =>
      let collected := (assembled chars ids p.2 inputs).items.foldl (collectBlock p.1 n) ⟨∅,∅⟩
      ⟨n,collected.normalGrams,collected.vocabulary⟩) := by
  unfold train prepare
  cases loadLabels inputs.labels with
  | error e => rfl
  | ok labels =>
    cases csvError (TemplateMatcher.compileTemplates inputs.templates) with
    | error e => rfl
    | ok patterns =>
      simp only [Except.map, loops_agree chars ids patterns ids]
      rfl

/-- The trainer's model is told by the labels and the events of the blocks. -/
theorem train_trainedOn {inputs : Inputs} {n : ℤ} {labels : OrderedDict String String}
    {patterns : List (String × Regex)} (h : prepare inputs = .ok (labels,patterns)) :
    ∃ m, train chars ids inputs n = .ok m ∧
      TrainedOn labels n (eventsOf chars patterns inputs) m := by
  refine ⟨_,by rw [train_prepared, h]; rfl,rfl,fun g => ?_,fun e => ?_⟩
  · rw [mem_normalGrams, or_iff_right (Finset.notMem_empty g)]
    constructor
    · rintro ⟨⟨b,events⟩,hmem,hl,hg⟩
      exact ⟨b,hl,((assembled_items chars ids patterns inputs b events).mp hmem).1 ▸ hg⟩
    · rintro ⟨b,hl,hg⟩
      refine ⟨(b,_),(assembled_items chars ids patterns inputs b _).mpr ⟨rfl,fun hnil => ?_⟩,hl,hg⟩
      rw [hnil, ngrams_nil] at hg
      cases hg
  · rw [mem_vocabulary, or_iff_right (Finset.notMem_empty e)]
    constructor
    · rintro ⟨⟨b,events⟩,hmem,hl,he⟩
      exact ⟨b,hl,((assembled_items chars ids patterns inputs b events).mp hmem).1 ▸ he⟩
    · rintro ⟨b,hl,he⟩
      exact ⟨(b,_),(assembled_items chars ids patterns inputs b _).mpr
        ⟨rfl,List.ne_nil_of_mem he⟩,hl,he⟩

end

/-- The share of a block's distinct n-grams that the model does not know. -/
def novelty (m : SequenceModel) (events : List String) : ℚ :=
  ((ngrams events m.n).toFinset \ m.normalNgrams).card/(ngrams events m.n).toFinset.card

/-- The evaluator predicts that a block with these events is an anomaly. -/
def predicts (m : SequenceModel) (threshold : ℚ) (events : List String) : Prop :=
  1 ≤ m.n ∧ m.n ≤ events.length ∧ threshold < novelty m events

section
variable {detector : SequenceAnomalyDetector} {labels : OrderedDict String String}
variable {draws : String → Draws}

theorem scoreBlock_predicted (s : Scored) (p : String × List String) (b : String) :
    b ∈ (scoreBlock detector labels draws s p).predicted ↔ b ∈ s.predicted ∨
      b = p.1 ∧ p.1 ∈ labels.keys ∧ predicts detector.model detector.threshold p.2 := by
  have hfires := detectTrace_isSome_iff detector
    (offlineTrace p.1 p.2 (draws p.1).runId (draws p.1).first (draws p.1).last) (draws p.1).id
    (draws p.1).anchor (draws p.1).detectedAt
  change _ ↔ predicts detector.model detector.threshold p.2 at hfires
  unfold scoreBlock
  by_cases hk : p.1 ∈ labels.keys
  · simp only [hk, not_true_eq_false, if_false, true_and]
    by_cases hd : predicts detector.model detector.threshold p.2
    · rw [if_pos (hfires.mpr hd), Finset.mem_insert, or_comm]
      simp [hd]
    · rw [if_neg (mt hfires.mp hd)]
      simp [hd]
  · simp [hk]

theorem mem_predicted {items : List (String × List String)} {s : Scored} {b : String} :
    b ∈ (items.foldl (scoreBlock detector labels draws) s).predicted ↔ b ∈ s.predicted ∨
      ∃ p ∈ items, b = p.1 ∧ p.1 ∈ labels.keys ∧
        predicts detector.model detector.threshold p.2 := by
  induction items generalizing s with
  | nil => simp
  | cons p items ih =>
    rw [List.foldl_cons, ih, scoreBlock_predicted]
    simp only [List.mem_cons, exists_eq_or_imp, or_assoc]

end

/-- The blocks that the evaluator scores and those that it predicts. -/
structure ScoredOn (labels : OrderedDict String String) (m : SequenceModel) (threshold : ℚ)
    (events : String → List String) (s : Scored) : Prop where
  scored : ∀ b, b ∈ s.universeSet ↔ b ∈ labels.keys ∧ events b ≠ []
  predicted : ∀ b, b ∈ s.predicted ↔ b ∈ s.universeSet ∧ predicts m threshold (events b)

theorem ScoredOn.unique {labels : OrderedDict String String} {m : SequenceModel} {threshold : ℚ}
    {events : String → List String} {s s' : Scored} (h : ScoredOn labels m threshold events s)
    (h' : ScoredOn labels m threshold events s') : s = s' := by
  have hu : s.universeSet = s'.universeSet :=
    Finset.ext fun b => (h.scored b).trans (h'.scored b).symm
  have hp : s.predicted = s'.predicted := by
    ext b
    rw [h.predicted, h'.predicted, hu]
  cases s
  cases s'
  simp only [Scored.mk.injEq]
  exact ⟨hp,hu⟩

theorem scored_on (chars : CharTable) (ids : ℕ → UUID) (draws : String → Draws) (inputs : Inputs)
    (labels : OrderedDict String String) (patterns : List (String × Regex)) (m : SequenceModel)
    (threshold : ℚ) (h : 0 ≤ threshold) :
    ScoredOn labels m threshold (eventsOf chars patterns inputs)
      ((assembled chars ids patterns inputs).items.foldl
        (scoreBlock ⟨m,threshold,h⟩ labels draws) ⟨∅,∅⟩) := by
  have huniverse : ∀ b, b ∈ ((assembled chars ids patterns inputs).items.foldl
      (scoreBlock ⟨m,threshold,h⟩ labels draws) ⟨∅,∅⟩).universeSet ↔
      b ∈ labels.keys ∧ eventsOf chars patterns inputs b ≠ [] := by
    intro b
    rw [mem_universe, or_iff_right (Finset.notMem_empty b), ← mem_assembled chars ids]
    rfl
  refine ⟨huniverse,fun b => ?_⟩
  rw [mem_predicted, or_iff_right (Finset.notMem_empty b), huniverse]
  constructor
  · rintro ⟨⟨b',events⟩,hmem,rfl,hk,hp⟩
    obtain ⟨rfl,hne⟩ := (assembled_items chars ids patterns inputs b events).mp hmem
    exact ⟨⟨hk,hne⟩,hp⟩
  · rintro ⟨⟨hk,hne⟩,hp⟩
    exact ⟨(b,_),(assembled_items chars ids patterns inputs b _).mpr ⟨rfl,hne⟩,rfl,hk,hp⟩

theorem evaluate_prepared (chars : CharTable) (py : Text) (ids : ℕ → UUID)
    (draws : String → Draws) (inputs : Inputs) (model : List (String × Json)) (threshold : ℚ) :
    evaluate chars py ids draws inputs model threshold =
      (fromDict py model).bind (fun m =>
        if h : 0 ≤ threshold then
          (prepare inputs).map (fun p =>
            let s := (assembled chars ids p.2 inputs).items.foldl
              (scoreBlock ⟨m,threshold,h⟩ p.1 draws) ⟨∅,∅⟩
            confusion s.predicted (actual p.1 s.universeSet) s.universeSet)
        else .error (.other "ValueError" "threshold must be >= 0")) := by
  unfold evaluate prepare
  cases fromDict py model with
  | error e => rfl
  | ok m =>
    by_cases h : 0 ≤ threshold
    · simp only [Except.bind, dif_pos h]
      cases loadLabels inputs.labels with
      | error e => rfl
      | ok labels =>
        cases csvError (TemplateMatcher.compileTemplates inputs.templates) <;> rfl
    · simp only [Except.bind, dif_neg h]

/-- The two inputs differ at most in their logs, and not in what the blocks'
events are. -/
structure SameBlocks (chars : CharTable) (inputs inputs' : Inputs) : Prop where
  labels : inputs.labels = inputs'.labels
  templates : inputs.templates = inputs'.templates
  events : ∀ labels patterns, prepare inputs = .ok (labels,patterns) →
    ∀ b, eventsOf chars patterns inputs b = eventsOf chars patterns inputs' b

theorem prepare_congr {inputs inputs' : Inputs} (hlabels : inputs.labels = inputs'.labels)
    (htemplates : inputs.templates = inputs'.templates) : prepare inputs = prepare inputs' := by
  rw [prepare, prepare, hlabels, htemplates]

theorem SameBlocks.prepare_eq {chars : CharTable} {inputs inputs' : Inputs}
    (h : SameBlocks chars inputs inputs') : prepare inputs = prepare inputs' :=
  prepare_congr h.labels h.templates

theorem train_congr {chars : CharTable} {inputs inputs' : Inputs}
    (h : SameBlocks chars inputs inputs') (ids ids' : ℕ → UUID) (n : ℤ) :
    train chars ids inputs n = train chars ids' inputs' n := by
  cases hp : prepare inputs with
  | error e =>
    rw [train_prepared, train_prepared, ← h.prepare_eq, hp]
    simp only [Except.map]
  | ok p =>
    obtain ⟨m,hm,ht⟩ := train_trainedOn chars ids hp (n := n)
    obtain ⟨m',hm',ht'⟩ := train_trainedOn chars ids' (h.prepare_eq.symm.trans hp) (n := n)
    rw [← funext (h.events p.1 p.2 hp)] at ht'
    rw [hm, hm', ht.unique ht']

theorem evaluate_congr {chars : CharTable} {inputs inputs' : Inputs}
    (h : SameBlocks chars inputs inputs') (py : Text) (ids ids' : ℕ → UUID)
    (draws draws' : String → Draws) (model : List (String × Json)) (threshold : ℚ) :
    evaluate chars py ids draws inputs model threshold =
      evaluate chars py ids' draws' inputs' model threshold := by
  rw [evaluate_prepared, evaluate_prepared, ← h.prepare_eq]
  refine congrArg _ (funext fun m => ?_)
  by_cases ht : 0 ≤ threshold
  · rw [dif_pos ht, dif_pos ht]
    cases hp : prepare inputs with
    | error e => simp only [Except.map]
    | ok p =>
      have hs := scored_on chars ids draws inputs p.1 p.2 m threshold ht
      have hs' := scored_on chars ids' draws' inputs' p.1 p.2 m threshold ht
      rw [← funext (h.events p.1 p.2 hp)] at hs'
      simp only [Except.map]
      rw [hs.unique hs']
  · rw [dif_neg ht, dif_neg ht]

/-- Training and evaluation see a log only as the events of each block in the
order of their lines: how these lines are interleaved, the lines that say
nothing and the ids that are drawn make no difference to the model or to the
confusion matrix. -/
theorem interleaving_irrelevant (chars : CharTable) (py : Text) (ids ids' : ℕ → UUID)
    (inputs inputs' : Inputs) (h : SameBlocks chars inputs inputs') :
    (∀ n, train chars ids inputs n = train chars ids' inputs' n) ∧
    ∀ (draws draws' : String → Draws) (model : List (String × Json)) (threshold : ℚ),
      evaluate chars py ids draws inputs model threshold =
        evaluate chars py ids' draws' inputs' model threshold :=
  ⟨train_congr h ids ids',fun draws draws' => evaluate_congr h py ids ids' draws draws'⟩

/-- Two lines of one block, with a line of another after or between them. -/
def blockInputs (swapped : Bool) : Inputs where
  log := (if swapped then
      "081109 000001 1 I A: a blk_1\n081109 000003 1 I A: b blk_2\n081109 000002 1 I A: b blk_1\n"
    else
      "081109 000001 1 I A: a blk_1\n081109 000002 1 I A: b blk_1\n081109 000003 1 I A: b blk_2\n"
    ).toList
  labels := "BlockId,Label\nblk_1,Normal\n".toList
  templates := "EventId,EventTemplate\nE1,a <*>\nE2,b <*>\n".toList
  maxLines := none

/-- The events of all blocks in a log. -/
def pairsOf (chars : CharTable) (patterns : List (String × Regex)) (inputs : Inputs) :
    List (String × String) :=
  (numberedLines inputs).filterMap (fun line => lineEvent chars patterns line.1)

theorem eventsOf_pairs (chars : CharTable) (patterns : List (String × Regex)) (inputs : Inputs)
    (b : String) : eventsOf chars patterns inputs b = (pairsOf chars patterns inputs).filterMap
      (fun p => if p.1 = b then some p.2 else none) := by
  rw [pairsOf, List.filterMap_filterMap]
  rfl

theorem sample_pairs : ∃ p, prepare (blockInputs false) = .ok p ∧
    pairsOf .ascii p.2 (blockInputs false) = [("blk_1","E1"),("blk_1","E2"),("blk_2","E2")] ∧
    pairsOf .ascii p.2 (blockInputs true) = [("blk_1","E1"),("blk_2","E2"),("blk_1","E2")] := by
  have h : (prepare (blockInputs false)).toOption.map
      (fun p => (pairsOf .ascii p.2 (blockInputs false),pairsOf .ascii p.2 (blockInputs true))) =
      some ([("blk_1","E1"),("blk_1","E2"),("blk_2","E2")],
        [("blk_1","E1"),("blk_2","E2"),("blk_1","E2")]) := by
    decide +kernel
  cases hp : prepare (blockInputs false) with
  | error e =>
    rw [hp] at h
    cases h
  | ok p =>
    rw [hp] at h
    obtain ⟨hsample,hswapped⟩ := Prod.mk.inj (Option.some.inj h)
    exact ⟨p,rfl,hsample,hswapped⟩

theorem swapped_same : SameBlocks .ascii (blockInputs false) (blockInputs true) := by
  refine ⟨rfl,rfl,fun labels patterns h b => ?_⟩
  obtain ⟨p,hp,hsample,hswapped⟩ := sample_pairs
  have hpatterns : patterns = p.2 := congrArg Prod.snd (Except.ok.inj (h.symm.trans hp))
  rw [eventsOf_pairs, eventsOf_pairs, hpatterns, hsample, hswapped]
  by_cases h1 : "blk_1" = b
  · subst h1
    rfl
  · by_cases h2 : "blk_2" = b <;> simp [h1, h2]

theorem interleaving_irrelevant_swapped :
    train .ascii id (blockInputs false) 2 = train .ascii (· + 7) (blockInputs true) 2 :=
  (interleaving_irrelevant .ascii sampleText id (· + 7) _ _ swapped_same).1 2

/-- `recall`. -/
def ConfusionMatrix.recall (cm : ConfusionMatrix) : ℚ :=
  if cm.tp+cm.fn = 0 then 0 else (cm.tp : ℚ)/((cm.tp+cm.fn : ℕ) : ℚ)

theorem confusion_actual (predicted actual universeSet : Finset String) :
    (confusion predicted actual universeSet).tp + (confusion predicted actual universeSet).fn =
      actual.card := by
  rw [confusion, Finset.inter_comm]
  exact Finset.card_inter_add_card_sdiff actual predicted

theorem confusion_rest {predicted universeSet : Finset String} (actual : Finset String)
    (hp : predicted ⊆ universeSet) :
    (confusion predicted actual universeSet).fp + (confusion predicted actual universeSet).tn =
      (universeSet \ actual).card := by
  have hfp : predicted \ actual = (universeSet \ actual) ∩ predicted := by
    ext b
    have hb := @hp b
    simp only [Finset.mem_sdiff, Finset.mem_inter]
    tauto
  rw [confusion, hfp, sdiff_right_comm]
  exact Finset.card_inter_add_card_sdiff _ _

theorem novelty_anti {m m' : SequenceModel} (hn : m.n = m'.n)
    (hM : m.normalNgrams ⊆ m'.normalNgrams) (events : List String) :
    novelty m' events ≤ novelty m events :=
  ratio_anti hn hM (offlineTrace "" events 0 0 0)

theorem predicts_anti {m m' : SequenceModel} (hn : m.n = m'.n)
    (hM : m.normalNgrams ⊆ m'.normalNgrams) {t t' : ℚ} (ht : t ≤ t') {events : List String}
    (h : predicts m' t' events) : predicts m t events :=
  ⟨hn ▸ h.1,hn ▸ h.2.1,(ht.trans_lt h.2.2).trans_le (novelty_anti hn hM events)⟩

theorem eventsIn_lines (chars : CharTable) (patterns : List (String × Regex))
    (lines : List (List Char × ℕ)) (b : String) : eventsIn chars patterns lines b =
      (lines.map Prod.fst).filterMap (fun raw => (lineEvent chars patterns raw).bind
        (fun p => if p.1 = b then some p.2 else none)) := by
  rw [List.filterMap_map]
  rfl

theorem eventsOf_prefix (chars : CharTable) (patterns : List (String × Regex))
    {inputs inputs' : Inputs}
    (hlog : (numberedLines inputs).map Prod.fst <+: (numberedLines inputs').map Prod.fst)
    (b : String) : eventsOf chars patterns inputs b <+: eventsOf chars patterns inputs' b := by
  rw [eventsOf, eventsOf, eventsIn_lines, eventsIn_lines]
  exact hlog.filterMap _

/-- The matrix of an evaluation that succeeds. -/
theorem evaluate_scored {chars : CharTable} {py : Text} {ids : ℕ → UUID} {draws : String → Draws}
    {inputs : Inputs} {m : SequenceModel} {grams : List (List String)} {threshold : ℚ}
    {cm : ConfusionMatrix} (hgrams : grams.toFinset = m.normalNgrams)
    (h : evaluate chars py ids draws inputs (toDict m grams) threshold = .ok cm) :
    ∃ labels patterns s, prepare inputs = .ok (labels,patterns) ∧
      ScoredOn labels m threshold (eventsOf chars patterns inputs) s ∧
      cm = confusion s.predicted (actual labels s.universeSet) s.universeSet := by
  rw [evaluate_prepared, fromDict_toDict py m grams hgrams, Except.bind] at h
  split at h
  · next hthreshold =>
    cases hp : prepare inputs with
    | error e =>
      rw [hp] at h
      cases h
    | ok p =>
      obtain ⟨labels,patterns⟩ := p
      rw [hp] at h
      cases h
      exact ⟨labels,patterns,_,rfl,
        scored_on chars ids draws inputs labels patterns m threshold hthreshold,rfl⟩
  · cases h

/-- A model that was trained on more lines of a log knows every normal n-gram
and every event that the other one knows. Over the same evaluation data, with
the same threshold or a higher one, it predicts no further block: both kinds of
positives and the recall can only fall, and the anomalies and the normal blocks
stay as many. -/
theorem longer_log_knows_more (chars : CharTable) (py : Text) (ids ids' : ℕ → UUID)
    (inputs inputs' : Inputs) (n : ℤ) (m m' : SequenceModel)
    (hlabels : inputs.labels = inputs'.labels) (htemplates : inputs.templates = inputs'.templates)
    (hlog : (numberedLines inputs).map Prod.fst <+: (numberedLines inputs').map Prod.fst)
    (htrain : train chars ids inputs n = .ok m) (htrain' : train chars ids' inputs' n = .ok m') :
    m.normalNgrams ⊆ m'.normalNgrams ∧ m.vocabulary ⊆ m'.vocabulary ∧
    ∀ (data : Inputs) (draws draws' : String → Draws) (grams grams' : List (List String))
      (t t' : ℚ) (cm cm' : ConfusionMatrix), grams.toFinset = m.normalNgrams →
      grams'.toFinset = m'.normalNgrams → t ≤ t' →
      evaluate chars py ids draws data (toDict m grams) t = .ok cm →
      evaluate chars py ids' draws' data (toDict m' grams') t' = .ok cm' →
      cm'.tp ≤ cm.tp ∧ cm'.fp ≤ cm.fp ∧ cm'.tp+cm'.fn = cm.tp+cm.fn ∧
        cm'.fp+cm'.tn = cm.fp+cm.tn ∧ cm'.recall ≤ cm.recall := by
  have hprepare := prepare_congr hlabels htemplates
  obtain ⟨labels,patterns,hp⟩ : ∃ labels patterns, prepare inputs = .ok (labels,patterns) := by
    cases hp : prepare inputs with
    | error e =>
      rw [train_prepared, hp] at htrain
      cases htrain
    | ok p => exact ⟨p.1,p.2,rfl⟩
  have hm : TrainedOn labels n (eventsOf chars patterns inputs) m := by
    obtain ⟨u,hu,ht⟩ := train_trainedOn chars ids hp (n := n)
    rwa [Except.ok.inj (htrain.symm.trans hu)]
  have hm' : TrainedOn labels n (eventsOf chars patterns inputs') m' := by
    obtain ⟨u,hu,ht⟩ := train_trainedOn chars ids' (hprepare.symm.trans hp) (n := n)
    rwa [Except.ok.inj (htrain'.symm.trans hu)]
  have hinitial := eventsOf_prefix chars patterns hlog
  have hM : m.normalNgrams ⊆ m'.normalNgrams := by
    intro g hg
    obtain ⟨b,hl,hb⟩ := (hm.normal g).mp hg
    exact (hm'.normal g).mpr ⟨b,hl,ngrams_of_piece (hinitial b).isInfix hb⟩
  have hn : m.n = m'.n := hm.n_eq.trans hm'.n_eq.symm
  refine ⟨hM,fun e he => ?_,fun data draws draws' grams grams' t t' cm cm' hg hg' ht hcm hcm' => ?_⟩
  · obtain ⟨b,hl,hb⟩ := (hm.vocabulary e).mp he
    exact (hm'.vocabulary e).mpr ⟨b,hl,(hinitial b).mem hb⟩
  · obtain ⟨l,q,s,hq,hs,rfl⟩ := evaluate_scored hg hcm
    obtain ⟨l',q',s',hq',hs',rfl⟩ := evaluate_scored hg' hcm'
    obtain ⟨rfl,rfl⟩ := Prod.mk.inj (Except.ok.inj (hq.symm.trans hq'))
    have hu : s'.universeSet = s.universeSet :=
      Finset.ext fun b => (hs'.scored b).trans (hs.scored b).symm
    have hsub : s'.predicted ⊆ s.predicted := by
      intro b hb
      obtain ⟨hb,hpred⟩ := (hs'.predicted b).mp hb
      exact (hs.predicted b).mpr ⟨hu ▸ hb,predicts_anti hn hM ht hpred⟩
    have hin : s.predicted ⊆ s.universeSet := fun b hb => ((hs.predicted b).mp hb).1
    rw [hu]
    have hactual := confusion_actual s'.predicted (actual l s.universeSet) s.universeSet
    have hactual' := confusion_actual s.predicted (actual l s.universeSet) s.universeSet
    have hrest := confusion_rest (actual l s.universeSet) (hsub.trans hin)
    have hrest' := confusion_rest (actual l s.universeSet) hin
    have htp : (confusion s'.predicted (actual l s.universeSet) s.universeSet).tp ≤
        (confusion s.predicted (actual l s.universeSet) s.universeSet).tp :=
      Finset.card_le_card (Finset.inter_subset_inter_right hsub)
    have hfp : (confusion s'.predicted (actual l s.universeSet) s.universeSet).fp ≤
        (confusion s.predicted (actual l s.universeSet) s.universeSet).fp :=
      Finset.card_le_card (Finset.sdiff_subset_sdiff hsub subset_rfl)
    refine ⟨htp,hfp,hactual.trans hactual'.symm,hrest.trans hrest'.symm,?_⟩
    rw [ConfusionMatrix.recall, ConfusionMatrix.recall, hactual, hactual']
    split
    · exact le_refl 0
    · exact div_le_div_of_nonneg_right (by exact_mod_cast htp) (Nat.cast_nonneg _)

/-- `--max-lines` cuts the log short. -/
theorem capped_initial (inputs : Inputs) (h : inputs.maxLines = none) (k : Option ℤ) :
    numberedLines { inputs with maxLines := k } <+: numberedLines inputs := by
  have hall : numberedLines inputs = (TextFile.lines inputs.log).zipIdx := by
    rw [numberedLines, h, List.takeWhile_eq_self_iff]
    exact fun _ _ => rfl
  rw [hall]
  exact List.takeWhile_prefix _

def firstLine : Inputs := { blockInputs false with maxLines := some 1 }

/-- The first line alone, against the whole sample. -/
theorem longer_log_first_line : ∃ m m', train .ascii id firstLine 2 = .ok m ∧
    train .ascii id (blockInputs false) 2 = .ok m' ∧ m.normalNgrams ⊆ m'.normalNgrams := by
  obtain ⟨p,hp,_⟩ := sample_pairs
  have hsame : prepare firstLine = prepare (blockInputs false) := prepare_congr rfl rfl
  have hfirst : prepare firstLine = .ok (p.1,p.2) := hsame.trans hp
  obtain ⟨m,hm,_⟩ := train_trainedOn .ascii id (n := 2) hfirst
  obtain ⟨m',hm',_⟩ := train_trainedOn .ascii id (n := 2) (hsame.symm.trans hfirst)
  have hlog := (capped_initial (blockInputs false) rfl (some 1)).map Prod.fst
  have hmore := longer_log_knows_more .ascii sampleText id id firstLine (blockInputs false) 2 m m'
    rfl rfl hlog hm hm'
  exact ⟨m,m',hm,hm',hmore.1⟩

end PipelineX.SequenceScripts
