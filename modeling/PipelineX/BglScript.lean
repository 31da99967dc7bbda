import PipelineX.BglBins
import PipelineX.Detectors
import PipelineX.SequenceTraining

/-!
# The BGL evaluation

`amain` of `evaluate_bgl_point.py`: the bins in order of time are fed to each of
the three detectors, and what fires is compared with the bins that have an
alert. `str(t.timestamp())`, and what `uuid4()` and `AnomalyEvent()` draw, are
inputs.
-/

set_option autoImplicit false

namespace PipelineX.BglEvaluation
open PipelineX.Records PipelineX.Parsers PipelineX.Detectors
open PipelineX.SequenceScripts (ConfusionMatrix confusion)

/-- `--window-seconds` and `--max-lines`, for widths of at least a second. -/
structure Args where
  windowSeconds : ℤ
  maxLines : Option ℤ
  positive : 1 ≤ windowSeconds

/-- `sorted(bins.keys())`. -/
def sortedKeys (s : Bins) : List Datetime := s.bins.keys.insertionSort (· ≤ ·)

def rateSeries (s : Bins) : List (Datetime × ℕ) :=
  (sortedKeys s).map (fun k => (k,(s.bins.get? k).getD 0))

/-- What is drawn for the record and the event of a bin. -/
structure RecordDraw where
  id : UUID
  event : Detectors.Draw

section
variable {F : Type} (py : PyFloat F)

/-- A detector, by its `detect`, from its state at the start. -/
structure Runnable (F : Type) where
  State : Type
  start : State
  detect : Detectors.Draw → State → Sample F →
    Except PyError (Option (Detectors.AnomalyEvent F)) × State

/-- The record of a bin. -/
def rateSample (id : UUID) (rate : F) : Sample F :=
  ⟨id,⟨[("metric",.float rate)],by simp⟩,.empty⟩

/-- The loop over the series. -/
def scan (det : Runnable F) (draws : Datetime → RecordDraw) (s : det.State)
    (predicted : Finset Datetime) : List (Datetime × ℕ) → Except PyError (Finset Datetime)
  | [] => .ok predicted
  | (ts,rate)::series =>
    match py.ofInt rate with
    | .error e => .error e
    | .ok x =>
      match det.detect (draws ts).event s (rateSample (draws ts).id x) with
      | (.error e,_) => .error e
      | (.ok anomaly,s) =>
        scan det draws s (if anomaly.isSome then insert ts predicted else predicted) series

def zScore : Runnable F where
  State := List F
  start := []
  detect := ZScore.detect py ⟨"metric",py.literal 3,200,50,"enrichment"⟩

def iqr : Runnable F where
  State := Iqr.State F
  start := ⟨[],[]⟩
  detect := Iqr.detect py ⟨"metric",py.literal 3,200,50,"enrichment"⟩

def cusum : Runnable F where
  State := Cusum.State F
  start := Cusum.start py
  detect := Cusum.detect py ⟨"metric",py.literal 5,py.literal (1/2),50,"enrichment"⟩

/-- The bins with an alert. -/
def actualWindows (s : Bins) : Finset Datetime :=
  ((sortedKeys s).filter (fun ts => (s.labels.get? ts).getD false)).toFinset

/-- One detector's row, with the number of bins. -/
def row (stamp : Datetime → String) (draws : Datetime → RecordDraw) (s : Bins)
    (det : Runnable F) : Except PyError (ℕ × ConfusionMatrix) :=
  (scan py det draws det.start ∅ (rateSeries s)).map (fun predicted =>
    ((sortedKeys s).toFinset.card,confusion (predicted.image stamp)
      ((actualWindows s).image stamp) ((sortedKeys s).toFinset.image stamp)))

def rowsOf (stamp : Datetime → String) (draws : String → Datetime → RecordDraw) (s : Bins) :
    Except PyError (List (String × ℕ × ConfusionMatrix)) := do
  let z ← row py stamp (draws "z_score") s (zScore py)
  let i ← row py stamp (draws "iqr") s (iqr py)
  let c ← row py stamp (draws "cusum") s (cusum py)
  pure [("z_score",z),("iqr",i),("cusum",c)]

/-- `amain`, up to the rows that it prints. -/
def evaluate (chars : CharTable) (ids : ℕ → UUID) (stamp : Datetime → String)
    (draws : String → Datetime → RecordDraw) (args : Args) (log : List Char) :
    Except PyError (List (String × ℕ × ConfusionMatrix)) :=
  rowsOf py stamp draws (aggregate chars ids log args.windowSeconds args.maxLines)

/-- What the detector answers and keeps does not depend on the ids and the
times that are drawn. -/
def Runnable.Blind (det : Runnable F) : Prop :=
  ∀ draw draw' s id id' x,
    (det.detect draw s (rateSample id x)).2 = (det.detect draw' s (rateSample id' x)).2 ∧
    (det.detect draw s (rateSample id x)).1.map Option.isSome =
      (det.detect draw' s (rateSample id' x)).1.map Option.isSome

theorem zScore_blind : (zScore py).Blind := by
  intro draw draw' s id id' x
  simp only [zScore, ZScore.detect, readMetric, rateSample]
  repeat' split
  all_goals exact ⟨rfl,rfl⟩

theorem iqr_blind : (iqr py).Blind := by
  intro draw draw' s id id' x
  simp only [iqr, Iqr.detect, readMetric, rateSample]
  repeat' split
  all_goals exact ⟨rfl,rfl⟩

theorem cusum_blind : (cusum py).Blind := by
  intro draw draw' s id id' x
  simp only [cusum, Cusum.detect, readMetric, rateSample]
  repeat' split
  all_goals exact ⟨rfl,rfl⟩

theorem scan_blind {det : Runnable F} (hdet : det.Blind) (draws draws' : Datetime → RecordDraw)
    (series : List (Datetime × ℕ)) (s : det.State) (predicted : Finset Datetime) :
    scan py det draws s predicted series = scan py det draws' s predicted series := by
  induction series generalizing s predicted with
  | nil => rfl
  | cons p series ih =>
    obtain ⟨ts,rate⟩ := p
    simp only [scan]
    cases py.ofInt rate with
    | error e => rfl
    | ok x =>
      dsimp only
      obtain ⟨hstate,hfires⟩ := hdet (draws ts).event (draws' ts).event s (draws ts).id
        (draws' ts).id x
      rcases hd : det.detect (draws ts).event s (rateSample (draws ts).id x) with ⟨out,t⟩
      rcases hd' : det.detect (draws' ts).event s (rateSample (draws' ts).id x) with ⟨out',t'⟩
      rw [hd, hd'] at hstate hfires
      obtain rfl : t = t' := hstate
      cases out with
      | error e =>
        cases out' with
        | error e' => exact congrArg _ (Except.error.inj hfires)
        | ok a' => cases hfires
      | ok a =>
        cases out' with
        | error e' => cases hfires
        | ok a' =>
          have hsome : a.isSome = a'.isSome := Except.ok.inj hfires
          dsimp only
          rw [hsome]
          exact ih t _

/-- Two tables of bins that say the same, in whatever order. -/
structure SameBins (s s' : Bins) : Prop where
  bins : ∀ w, s.bins.get? w = s'.bins.get? w
  labels : ∀ w, (s.labels.get? w).getD false = (s'.labels.get? w).getD false

theorem sortedKeys_congr {s s' : Bins} (h : SameBins s s') : sortedKeys s = sortedKeys s' := by
  have hmem : ∀ k, k ∈ s.bins.keys ↔ k ∈ s'.bins.keys := fun k => by
    rw [← not_iff_not, ← OrderedDict.get?_eq_none, ← OrderedDict.get?_eq_none, h.bins]
  have hperm : s.bins.keys.Perm s'.bins.keys :=
    (List.perm_ext_iff_of_nodup s.bins.nodup s'.bins.nodup).mpr hmem
  have hsorted := (List.perm_insertionSort (· ≤ ·) s.bins.keys).trans
    (hperm.trans (List.perm_insertionSort (· ≤ ·) s'.bins.keys).symm)
  exact hsorted.eq_of_pairwise' (List.pairwise_insertionSort _ _) (List.pairwise_insertionSort _ _)

theorem row_congr (stamp : Datetime → String) {det : Runnable F} (hdet : det.Blind)
    (draws draws' : Datetime → RecordDraw) {s s' : Bins} (h : SameBins s s') :
    row py stamp draws s det = row py stamp draws' s' det := by
  have hkeys := sortedKeys_congr h
  have hseries : rateSeries s = rateSeries s' := by
    simp only [rateSeries, hkeys, h.bins]
  have hactual : actualWindows s = actualWindows s' := by
    simp only [actualWindows, hkeys, h.labels]
  rw [row, row, hseries, hactual, hkeys, scan_blind py hdet draws draws']

end

/-- The id that a record gets is all that depends on it. -/
theorem parse_id (chars : CharTable) (id id' : UUID) (raw : String) :
    BglParser.parse chars id raw =
      (BglParser.parse chars id' raw).map (fun r => { r with id := id }) := by
  unfold BglParser.parse
  split
  · split
    · rfl
    · simp only [Except.map, BglParser.record]
      split <;> rfl
  · rfl

theorem parsedLine_raw (chars : CharTable) (ids ids' : ℕ → UUID) (line : List Char × ℕ) :
    parsedLine chars ids line = parsedLine chars ids' (TextFile.rstripNewline line.1,0) := by
  have hself : TextFile.rstripNewline (TextFile.rstripNewline line.1) =
      TextFile.rstripNewline line.1 := List.rdropWhile_idempotent _ _
  simp only [parsedLine, hself]
  rw [parse_id chars (ids line.2) (ids' 0)]
  split
  · rfl
  · cases BglParser.parse chars (ids' 0) (String.ofList (TextFile.rstripNewline line.1)) <;> rfl

/-- The lines that `_aggregate` reads, without their newlines. -/
def rawLines (log : List Char) (maxLines : Option ℤ) : List (List Char) :=
  (numberedLines log maxLines).map (fun line => TextFile.rstripNewline line.1)

theorem parsedLines_eq (chars : CharTable) (ids : ℕ → UUID) (log : List Char)
    (maxLines : Option ℤ) : parsedLines chars ids log maxLines =
      (rawLines log maxLines).filterMap (fun raw => parsedLine chars (fun _ => 0) (raw,0)) := by
  rw [parsedLines, rawLines, List.filterMap_map]
  exact List.filterMap_congr (fun line _ => parsedLine_raw chars ids (fun _ => 0) line)

theorem aggregate_perm (chars : CharTable) (ids ids' : ℕ → UUID) (w : ℤ) {log log' : List Char}
    {maxLines : Option ℤ} (h : (rawLines log maxLines).Perm (rawLines log' maxLines)) :
    SameBins (aggregate chars ids log w maxLines) (aggregate chars ids' log' w maxLines) := by
  obtain ⟨hbins,_,hlabels⟩ := @aggregate_spec chars ids w log maxLines
  obtain ⟨hbins',_,hlabels'⟩ := @aggregate_spec chars ids' w log' maxLines
  have hperm : (parsedLines chars ids log maxLines).Perm
      (parsedLines chars ids' log' maxLines) := by
    rw [parsedLines_eq, parsedLines_eq]
    exact h.filterMap _
  constructor
  · intro v
    simp only [hbins, hbins', hperm.mem_iff, hperm.countP_eq]
  · intro v
    rw [Bool.eq_iff_iff, hlabels, hlabels']
    simp only [hperm.mem_iff]

/-- The evaluation does not depend on the order of the log's lines, nor on any
id or time that is drawn: the same rows, or the same exception. -/
theorem line_order_irrelevant {F : Type} (py : PyFloat F) (chars : CharTable)
    (ids ids' : ℕ → UUID) (stamp : Datetime → String)
    (draws redraws : String → Datetime → RecordDraw) (args : Args) (log log' : List Char)
    (h : (rawLines log args.maxLines).Perm (rawLines log' args.maxLines)) :
    evaluate py chars ids stamp draws args log = evaluate py chars ids' stamp redraws args log' := by
  have hsame := aggregate_perm chars ids ids' args.windowSeconds h
  rw [evaluate, evaluate, rowsOf, rowsOf,
    row_congr py stamp (zScore_blind py) (draws "z_score") (redraws "z_score") hsame,
    row_congr py stamp (iqr_blind py) (draws "iqr") (redraws "iqr") hsame,
    row_congr py stamp (cusum_blind py) (draws "cusum") (redraws "cusum") hsame]

theorem rawLines_two {x y : List Char} (hx : '\n' ∉ x) (hy : '\n' ∉ y) (hx' : '\r' ∉ x)
    (hy' : '\r' ∉ y) (hne : y ≠ []) : rawLines (x ++ '\n'::y) none = [x,y] := by
  have htranslate : TextFile.translate (x ++ '\n'::y) = x ++ '\n'::y :=
    TextFile.translate_self (by simp [hx', hy'])
  have hlines : TextFile.lines (x ++ '\n'::y) = [x ++ ['\n'],y] := by
    rw [TextFile.lines, htranslate, TextFile.linesFrom_line hx,
      TextFile.linesFrom_last hy (by simpa using hne)]
    rfl
  have hnumbered : numberedLines (x ++ '\n'::y) none = [(x ++ ['\n'],0),(y,1)] := by
    rw [numberedLines, hlines]
    rfl
  simp [rawLines, hnumbered, TextFile.rstripNewline_line hx, TextFile.rstripNewline_line hy]

def sampleArgs : Args := ⟨60,none,by decide⟩

def sampleDraws (id : UUID) (_ : String) (_ : Datetime) : RecordDraw := ⟨id,⟨id,0⟩⟩

/-- The lines of two hours, one way round and the other. -/
theorem line_order_irrelevant_clock :
    evaluate (float64 true) .ascii id (fun ts => toString ts) (sampleDraws 0) sampleArgs
        (clockLine 0 0 0 ++ '\n'::clockLine 1 0 0) =
      evaluate (float64 true) .ascii (· + 7) (fun ts => toString ts) (sampleDraws 1) sampleArgs
        (clockLine 1 0 0 ++ '\n'::clockLine 0 0 0) := by
  have hnewline : ('\n' : Char).toNat < 32 := by decide
  have hreturn : ('\r' : Char).toNat < 32 := by decide
  have hlines {a b : ℕ} (ha : a ≤ 23) (hb : b ≤ 23) :
      rawLines (clockLine a 0 0 ++ '\n'::clockLine b 0 0) none = [clockLine a 0 0,clockLine b 0 0] :=
    rawLines_two (clockLine_notMem ha (by decide) (by decide) hnewline)
      (clockLine_notMem hb (by decide) (by decide) hnewline)
      (clockLine_notMem ha (by decide) (by decide) hreturn)
      (clockLine_notMem hb (by decide) (by decide) hreturn) (clockLine_ne_nil _ _ _)
  have hperm : (rawLines (clockLine 0 0 0 ++ '\n'::clockLine 1 0 0) sampleArgs.maxLines).Perm
      (rawLines (clockLine 1 0 0 ++ '\n'::clockLine 0 0 0) sampleArgs.maxLines) := by
    change (rawLines _ none).Perm (rawLines _ none)
    rw [hlines (by decide) (by decide), hlines (by decide) (by decide)]
    exact List.Perm.swap _ _ []
  exact line_order_irrelevant (float64 true) .ascii id (· + 7) _ (sampleDraws 0) (sampleDraws 1)
    sampleArgs _ _ hperm

end PipelineX.BglEvaluation
