import PipelineX.SyntheticFiles
import PipelineX.BglBins
import PipelineX.ParserDetection

/-!
# The BGL lines of `generate_synthetic_logs.py`

What the generator writes of a moment and an alert is what the BGL parser reads,
and what the evaluation puts into its bins.
-/

set_option autoImplicit false

namespace PipelineX.SyntheticBgl
open PipelineX.Records PipelineX.Strptime PipelineX.Words PipelineX.Parsers PipelineX.CivilDate
open PipelineX.Interleaving PipelineX.SyntheticLogs PipelineX.SyntheticFiles
open PipelineX.BglEvaluation PipelineX.BglFormat

/-- `_BGL_ALERT_CODES`. -/
def bglAlertCodes : List (List Char) :=
  ["KERNDTLB".toList,"KERNSTOR".toList,"KERNRTSP".toList,"APPSEV".toList,"APPCHILD".toList]

/-- What is drawn for a line. -/
structure BglDraw where
  seconds : ℕ
  rack : ℕ
  midplane : ℕ
  node : ℕ
  card : ℕ
  unit : ℕ
  random : ℚ
  code : ℕ
  microsecond : ℕ
  deriving DecidableEq, Repr

/-- `base_ts` of the BGL lines. -/
def bglBase : Date := ⟨2005,6,3,by decide,by decide,by decide⟩

def bglSeconds (d : BglDraw) : ℕ := randint 0 (30*24*3600) d.seconds

def bglMicrosecond (d : BglDraw) : ℕ := randint 0 999999 d.microsecond

def bglTs (d : BglDraw) : Moment := secondsAfter bglBase (bglSeconds d)

def bglNode (d : BglDraw) : List Char :=
  ['R'] ++ padded 2 (randint 0 31 d.rack) ++ ['-','M'] ++ decimal (randint 0 1 d.midplane) ++
    ['-','N'] ++ decimal (randint 0 9 d.node) ++ ['-','C',':','J'] ++
    padded 2 (randint 0 18 d.card) ++ ['-','U'] ++ padded 2 (randint 0 11 d.unit)

/-- The label, the level and the message, by whether an alert was drawn. -/
def bglKind (anomalyRate : ℚ) (d : BglDraw) : List Char × List Char × List Char :=
  if d.random < anomalyRate then
    ((choice bglAlertCodes d.code).getD [],"FATAL".toList,"data TLB error interrupt".toList)
  else (['-'],"INFO".toList,"instruction cache parity error corrected".toList)

/-- `time_full`, in its parts. -/
def stampOf (ts : Moment) (microsecond : ℕ) : Stamp where
  year := padded 4 ts.date.year
  month := padded 2 ts.date.month
  day := padded 2 ts.date.day
  hour := padded 2 ts.hour
  minute := padded 2 ts.minute
  second := padded 2 ts.second
  fraction := padded 6 microsecond

def bglFields (anomalyRate : ℚ) (d : BglDraw) : List (List Char) :=
  let ts := bglTs d
  let (label,level,_) := bglKind anomalyRate d
  let date := padded 4 ts.date.year ++ ['.'] ++ padded 2 ts.date.month ++ ['.'] ++
    padded 2 ts.date.day
  [label,integer (ts.instant 0/1000000),date,bglNode d,(stampOf ts (bglMicrosecond d)).render,
    bglNode d,"RAS".toList,"KERNEL".toList,level]

def bglLine (anomalyRate : ℚ) (d : BglDraw) : List Char :=
  [' '].intercalate (bglFields anomalyRate d ++ [(bglKind anomalyRate d).2.2])

/-- `_bgl_stream`, as far as lines are asked for. -/
def bglStream (anomalyRate : ℚ) (draws : List BglDraw) : List (List Char) :=
  draws.map (bglLine anomalyRate)

/-- The instant of a line. -/
def bglInstant (d : BglDraw) : Datetime :=
  midnight bglBase + bglSeconds d*1000000 + bglMicrosecond d

section
variable (chars : CharTable)

theorem intOf_append (s : List Char) (n : ℕ) (hn : n < 10) :
    intOf chars (s ++ [Nat.digitChar n]) = intOf chars s*10+n := by
  obtain ⟨hascii,hvalue⟩ := digitChar_ascii hn
  rw [intOf, List.foldl_append, List.foldl_cons, List.foldl_nil, decimal_of_ascii chars hascii,
    Option.elim_some, hvalue]
  rfl

/-- A padded number is read as it is. -/
theorem intOf_padded (width n : ℕ) (hn : n < 10^width) : intOf chars (padded width n) = n := by
  induction width generalizing n with
  | zero =>
    obtain rfl : n = 0 := by omega
    rfl
  | succ width ih =>
    rw [padded, intOf_append chars _ _ (Nat.mod_lt n (by decide)), ih (n/10) (by omega)]
    omega

theorem padded_fits {it : Item} {n : ℕ} (hn : n < 100) (h : it.Admits n) :
    it.Fits chars (padded 2 n) := by
  rw [padded_two]
  exact fits_two chars (digitChar_ascii (Nat.mod_lt _ (by decide))).1
    (digitChar_ascii (Nat.mod_lt _ (by decide))).1 ((value_two hn).symm ▸ h)

theorem padded_between (width n : ℕ) : ∀ c ∈ padded width n, between 0 9 c = true :=
  fun c hc => between_iff.mpr (padded_ascii width n c hc)

theorem year_fits {n : ℕ} : Item.Y.Fits chars (padded 4 n) := by
  refine ⟨_,List.mem_cons_self,?_⟩
  have hdigit (k : ℕ) : digit chars (Nat.digitChar (k%10)) = true := by
    rw [digit, decimal_of_ascii chars (digitChar_ascii (Nat.mod_lt k (by decide))).1]
    rfl
  simp [padded, hdigit]

/-- The stamp of a moment is read as that moment and its microseconds. -/
theorem stampOf_isStamp (ts : Moment) (hyear : ts.date.year ≤ 9999) {microsecond : ℕ}
    (hmicro : microsecond ≤ 999999) :
    IsStamp chars (stampOf ts microsecond).render (ts.instant microsecond) := by
  have hmonth := ts.date.month_mem
  have hday := ts.date.day_mem
  have hlong := daysInMonth_le ts.date.year ts.date.month
  have hh := ts.hour_le
  have hm := ts.minute_le
  have hs := ts.second_le
  have hvalue (n : ℕ) (hn : n < 100) : intOf chars (padded 2 n) = n := intOf_padded chars 2 n hn
  refine ⟨stampOf ts microsecond,rfl,?_,?_⟩
  · constructor
    · exact year_fits chars
    · exact padded_fits chars (by omega) hmonth
    · exact padded_fits chars (by omega) ⟨hday.1,by omega⟩
    · exact padded_fits chars (by omega) hh
    · exact padded_fits chars (by omega) hm
    · exact padded_fits chars (by omega) (show ts.second ≤ 61 by omega)
    · exact ⟨padded_between 6 microsecond,by simp [stampOf, padded_length],
        by simp [stampOf, padded_length]⟩
  · have hyearOf : intOf chars (padded 4 ts.date.year) = ts.date.year :=
      intOf_padded chars 4 _ (by omega)
    have hmicroOf : intOf chars (padded 6 microsecond) = microsecond :=
      intOf_padded chars 6 _ (by omega)
    constructor
    · simp only [stampOf, hyearOf]
      rw [hvalue _ (by omega), hvalue _ (by omega)]
      exact ts.date.isDate hyear
    · simp only [stampOf]
      rw [hvalue _ (by omega), hvalue _ (by omega), hvalue _ (by omega)]
      exact ⟨hh,hm,hs⟩
    · refine ⟨microsecond,by simp [stampOf, hmicroOf, padded_length],?_⟩
      simp only [stampOf, hyearOf]
      rw [hvalue _ (by omega), hvalue _ (by omega), hvalue _ (by omega), hvalue _ (by omega),
        hvalue _ (by omega)]
      rfl

theorem bglTs_year (d : BglDraw) : (bglTs d).date.year ≤ 9999 := by
  have hseconds := (randint_mem (Nat.zero_le (30*24*3600)) d.seconds).2
  have hyear := bglBase.addDays_year (bglSeconds d/86400)
  have hbase : bglBase.year = 2005 := rfl
  have hdays : bglSeconds d/86400 ≤ 30 := by
    unfold bglSeconds
    omega
  simp only [bglTs, secondsAfter]
  omega

theorem bglTs_instant (d : BglDraw) : (bglTs d).instant (bglMicrosecond d) = bglInstant d :=
  secondsAfter_instant _ _ _

end

/-- The label is a dash, or one of the codes where an alert was drawn. -/
theorem bglKind_cases (anomalyRate : ℚ) (d : BglDraw) :
    (d.random < anomalyRate ∧ ∃ code ∈ bglAlertCodes, bglKind anomalyRate d =
      (code,"FATAL".toList,"data TLB error interrupt".toList)) ∨
    (¬d.random < anomalyRate ∧ bglKind anomalyRate d =
      (['-'],"INFO".toList,"instruction cache parity error corrected".toList)) := by
  unfold bglKind
  by_cases h : d.random < anomalyRate
  · rw [if_pos h]
    cases hcode : choice bglAlertCodes d.code with
    | none => exact absurd (choice_eq_none.mp hcode) (by decide)
    | some code => exact Or.inl ⟨h,code,choice_mem hcode,rfl⟩
  · rw [if_neg h]
    exact Or.inr ⟨h,rfl⟩

theorem digit_visible {c : Char} (h : c.isDigit = true) : Visible c := by
  have := CharTable.toNat_of_isDigit h
  exact ⟨by omega,by omega⟩

theorem decimal_visible (n : ℕ) : ∀ c ∈ decimal n, Visible c :=
  fun c hc => digit_visible ((decimal_digits n).2 c hc)

theorem padded_visible (width n : ℕ) : ∀ c ∈ padded width n, Visible c :=
  fun c hc => digit_visible (isDigit_of_ascii (padded_ascii width n c hc))

theorem integer_visible (n : ℤ) : integer n ≠ [] ∧ ∀ c ∈ integer n, Visible c := by
  obtain ⟨sign,number,h,hsign,hne,hdigits⟩ := integer_digits n
  rw [h]
  refine ⟨List.append_ne_nil_of_right_ne_nil _ hne,fun c hc => ?_⟩
  rcases List.mem_append.mp hc with hc | hc
  · rcases hsign with rfl | rfl
    · cases hc
    · rw [List.mem_singleton.mp hc]
      decide
  · exact digit_visible (hdigits c hc)

theorem bglNode_visible (d : BglDraw) : ∀ c ∈ bglNode d, Visible c := by
  have hdecimal (n : ℕ) := decimal_visible n
  have hpadded (n : ℕ) := padded_visible 2 n
  have hfixed : ∀ c ∈ ['R','-','M','N','C',':','J','U'], Visible c := CharTable.forall_of_all rfl
  intro c hc
  simp only [bglNode, List.mem_append, List.mem_cons, List.not_mem_nil, or_false] at hc hfixed
  grind

theorem stampOf_visible (ts : Moment) (microsecond : ℕ) :
    ∀ c ∈ (stampOf ts microsecond).render, Visible c := by
  have hpadded := padded_visible
  have hfixed : ∀ c ∈ ['-','.'], Visible c := CharTable.forall_of_all rfl
  intro c hc
  simp only [stampOf, Stamp.render, List.mem_append, List.mem_cons, List.not_mem_nil, or_false]
    at hc hfixed
  grind

/-- The codes are words of capital letters. -/
theorem bglAlertCodes_capitals : ∀ code ∈ bglAlertCodes, code ≠ [] ∧
    ∀ c ∈ code, Visible c ∧ c.isUpper = true ∧ c.isLower = false := by
  intro code hcode
  simp only [bglAlertCodes, List.mem_cons, List.not_mem_nil, or_false] at hcode
  rcases hcode with rfl | rfl | rfl | rfl | rfl
  all_goals exact ⟨List.cons_ne_nil _ _,CharTable.forall_of_all rfl⟩

theorem bglKind_visible (anomalyRate : ℚ) (d : BglDraw) :
    ((bglKind anomalyRate d).1 ≠ [] ∧ ∀ c ∈ (bglKind anomalyRate d).1, Visible c) ∧
    ((bglKind anomalyRate d).2.1 ≠ [] ∧ ∀ c ∈ (bglKind anomalyRate d).2.1, Visible c) := by
  rcases bglKind_cases anomalyRate d with ⟨_,code,hcode,hkind⟩ | ⟨_,hkind⟩
  · obtain ⟨hne,hcapitals⟩ := bglAlertCodes_capitals code hcode
    rw [hkind]
    exact ⟨⟨hne,fun c hc => (hcapitals c hc).1⟩,List.cons_ne_nil _ _,CharTable.forall_of_all rfl⟩
  · rw [hkind]
    exact ⟨⟨List.cons_ne_nil _ _,CharTable.forall_of_all rfl⟩,List.cons_ne_nil _ _,
      CharTable.forall_of_all rfl⟩

/-- The fields of a line are words. -/
theorem bglFields_visible (anomalyRate : ℚ) (d : BglDraw) :
    ∀ w ∈ bglFields anomalyRate d, w ≠ [] ∧ ∀ c ∈ w, Visible c := by
  obtain ⟨hlabel,hlevel⟩ := bglKind_visible anomalyRate d
  have hnode : bglNode d ≠ [] ∧ ∀ c ∈ bglNode d, Visible c :=
    ⟨by simp [bglNode],bglNode_visible d⟩
  intro w hw
  simp only [bglFields, List.mem_cons, List.not_mem_nil, or_false] at hw
  rcases hw with rfl | rfl | rfl | rfl | rfl | rfl | rfl | rfl | rfl
  · exact hlabel
  · exact integer_visible _
  · refine ⟨by simp,fun c hc => ?_⟩
    have hpadded := padded_visible
    have hdot : Visible '.' := by decide
    simp only [List.mem_append, List.mem_singleton] at hc
    grind
  · exact hnode
  · exact ⟨by simp [stampOf, Stamp.render],stampOf_visible _ _⟩
  · exact hnode
  · exact ⟨by decide,CharTable.forall_of_all rfl⟩
  · exact ⟨by decide,CharTable.forall_of_all rfl⟩
  · exact hlevel

theorem bglMessage_printable (anomalyRate : ℚ) (d : BglDraw) :
    (∃ c, (bglKind anomalyRate d).2.2.head? = some c ∧ Visible c) ∧
      ∀ c ∈ (bglKind anomalyRate d).2.2, Printable c := by
  rcases bglKind_cases anomalyRate d with ⟨_,code,_,hkind⟩ | ⟨_,hkind⟩
  · rw [hkind]
    exact ⟨⟨'d',rfl,by decide⟩,CharTable.forall_of_all rfl⟩
  · rw [hkind]
    exact ⟨⟨'i',rfl,by decide⟩,CharTable.forall_of_all rfl⟩

theorem bglLine_isLine (anomalyRate : ℚ) (d : BglDraw) : IsLine (bglLine anomalyRate d) := by
  rw [bglLine, intercalate_eq]
  refine ⟨by simp [bglFields],fun c hc => ?_⟩
  rcases List.mem_append.mp hc with hc | hc
  · obtain ⟨w,hw,hc⟩ := List.mem_flatMap.mp hc
    rcases List.mem_append.mp hc with hc | hc
    · have hvisible := (bglFields_visible anomalyRate d w hw).2 c hc
      exact ⟨by have := hvisible.1; omega,hvisible.2⟩
    · rw [List.mem_singleton.mp hc]
      decide
  · exact (bglMessage_printable anomalyRate d).2 c hc

section
variable {chars : CharTable}

/-- What `BGLParser` finds in a line of the generator. -/
structure BglReadBack (anomalyRate : ℚ) (d : BglDraw) (r : LogRecord) : Prop where
  timestamp : r.timestamp = some (bglInstant d)
  label : r.enrichment.get? "bgl_label" = some (str (bglKind anomalyRate d).1)
  node : r.enrichment.get? "node" = some (str (bglNode d))
  source : r.source = "KERNEL"
  severity : r.severity = if d.random < anomalyRate then .critical else .info
  noWarning : r.enrichment.get? "parse_warning" = none
  message : r.message = String.ofList (bglKind anomalyRate d).2.2

theorem str_inj {v w : List Char} (h : str v = str w) : v = w :=
  String.ofList_injective (Value.str.inj h)

/-- The level of a line decides the severity of its record. -/
theorem graded_level {id : UUID} {raw : String} {r : LogRecord} {level : List Char}
    (hr : BglParser.parse chars id raw = .ok r)
    (hlevel : r.rawPayload.get? "level_raw" = some (str level)) : Graded level r := by
  obtain ⟨_,_,_,level',_,_,_,_,hlevel',hholds,hgraded⟩ := parse_ok hr
  have hsame := hholds.levelRaw
  rw [hlevel, hlevel'] at hsame
  exact str_inj (Option.some.inj hsame) ▸ hgraded

variable (chars)

theorem parse_bglLine (id : UUID) (anomalyRate : ℚ) (d : BglDraw) :
    ∃ r, BglParser.parse chars id (String.ofList (bglLine anomalyRate d)) = .ok r ∧
      BglReadBack anomalyRate d r := by
  have hwords : ∀ w ∈ bglFields anomalyRate d, IsWord chars.space w := fun w hw =>
    ⟨(bglFields_visible anomalyRate d w hw).1,fun c hc =>
      not_space chars ((bglFields_visible anomalyRate d w hw).2 c hc)⟩
  obtain ⟨c,hc,hvisible⟩ := (bglMessage_printable anomalyRate d).1
  have hstamp := stampOf_isStamp chars (bglTs d) (bglTs_year d)
    (randint_mem (Nat.zero_le 999999) d.microsecond).2
  obtain ⟨r,hr,hholds⟩ := parse_joined id rfl hwords ⟨c,hc,not_space chars hvisible⟩ rfl hstamp
  have hgraded : Graded (bglKind anomalyRate d).2.1 r := graded_level hr hholds.levelRaw
  refine ⟨r,hr,?_⟩
  have htime : r.timestamp = some (bglInstant d) := bglTs_instant d ▸ hholds.timestamp
  have hsource : r.source = "KERNEL" := Option.some.inj hholds.source
  refine ⟨htime,hholds.label,hholds.node,hsource,?_,?_,hholds.message⟩
  · rw [hgraded.severity]
    rcases bglKind_cases anomalyRate d with ⟨hdrawn,code,_,hkind⟩ | ⟨hdrawn,hkind⟩
    · rw [hkind, if_pos hdrawn]
      rfl
    · rw [hkind, if_neg hdrawn]
      rfl
  · rw [hgraded.parseWarning]
    rcases bglKind_cases anomalyRate d with ⟨_,code,_,hkind⟩ | ⟨_,hkind⟩
    · rw [hkind]
      rfl
    · rw [hkind]
      rfl

theorem bglKind_label (anomalyRate : ℚ) (d : BglDraw) :
    String.ofList (bglKind anomalyRate d).1 ≠ "-" ↔ d.random < anomalyRate := by
  have hcodes : ∀ code ∈ bglAlertCodes, String.ofList code ≠ "-" := by decide
  rcases bglKind_cases anomalyRate d with ⟨hdrawn,code,hcode,hkind⟩ | ⟨hdrawn,hkind⟩
  · rw [hkind]
    exact iff_of_true (hcodes code hcode) hdrawn
  · rw [hkind]
    exact iff_of_false (fun h => h rfl) hdrawn

/-- A line of the log as the evaluation reads it. -/
theorem parsedLine_bgl (ids : ℕ → UUID) (anomalyRate : ℚ) (d : BglDraw) (i : ℕ) :
    parsedLine chars ids (bglLine anomalyRate d ++ ['\n'],i) =
      some (bglInstant d,String.ofList (bglKind anomalyRate d).1) := by
  have hline := bglLine_isLine anomalyRate d
  obtain ⟨r,hr,hread⟩ := parse_bglLine chars (ids i) anomalyRate d
  have hstrip := (TextFile.rstripNewline_line hline.newline).2
  simp [parsedLine, hstrip, hline.1, hr, hread.timestamp, hread.label, str]

theorem filterMap_bgl (ids : ℕ → UUID) (anomalyRate : ℚ) (draws : List BglDraw) (i : ℕ) :
    (((bglStream anomalyRate draws).map (fun l => l ++ ['\n'])).zipIdx i).filterMap
        (parsedLine chars ids) =
      draws.map (fun d => (bglInstant d,String.ofList (bglKind anomalyRate d).1)) := by
  induction draws generalizing i with
  | nil => rfl
  | cons d draws ih =>
    rw [bglStream, List.map_cons, List.map_cons, List.zipIdx_cons,
      List.filterMap_cons_some (parsedLine_bgl chars ids anomalyRate d i), List.map_cons]
    exact congrArg _ (ih (i+1))

theorem numberedLines_bgl (anomalyRate : ℚ) (draws : List BglDraw) :
    numberedLines (written (bglStream anomalyRate draws)) none =
      ((bglStream anomalyRate draws).map (fun l => l ++ ['\n'])).zipIdx := by
  have hlines : ∀ l ∈ bglStream anomalyRate draws, IsLine l := by
    intro l hl
    obtain ⟨d,_,rfl⟩ := List.mem_map.mp hl
    exact bglLine_isLine anomalyRate d
  rw [numberedLines, lines_written hlines]
  exact List.takeWhile_eq_self_iff.mpr fun _ _ => rfl

theorem parsedLines_bgl (ids : ℕ → UUID) (anomalyRate : ℚ) (draws : List BglDraw) :
    parsedLines chars ids (written (bglStream anomalyRate draws)) none =
      draws.map (fun d => (bglInstant d,String.ofList (bglKind anomalyRate d).1)) := by
  rw [parsedLines, numberedLines_bgl, filterMap_bgl]

variable {chars} in
/-- A line that is parsed is not skipped. -/
theorem foldl_nSkipped {ids : ℕ → UUID} {w : ℤ} {lines : List (List Char × ℕ)} (s : Bins)
    (h : ∀ line ∈ lines, parsedLine chars ids line ≠ none) :
    (lines.foldl (aggregateLine chars ids w) s).nSkipped = s.nSkipped := by
  induction lines generalizing s with
  | nil => rfl
  | cons line lines ih =>
    have hstep : (aggregateLine chars ids w s line).nSkipped = s.nSkipped := by
      have hline := h line List.mem_cons_self
      by_cases hraw : TextFile.rstripNewline line.1 = []
      · simp [aggregateLine, hraw]
      · cases hparse : BglParser.parse chars (ids line.2)
            (String.ofList (TextFile.rstripNewline line.1)) with
        | error e => simp [parsedLine, hraw, hparse] at hline
        | ok r =>
          obtain ⟨ts,label,hts,hlabel⟩ := parse_stamped hparse
          by_cases hdash : label = "-" <;>
            simp [aggregateLine, hraw, hparse, hts, hlabel, hdash]
    rw [List.foldl_cons, ih _ fun l hl => h l (List.mem_cons_of_mem _ hl), hstep]

/-- The evaluation reads a generated log as it was drawn. No line is skipped and
each is counted once, in the bin of its moment, which for a width that cuts the
minute or the hour evenly is the moment's interval of that width. A bin is
marked exactly when an alert was drawn for one of its lines. -/
theorem bgl_evaluated (ids : ℕ → UUID) (anomalyRate : ℚ) (draws : List BglDraw)
    (total : Option ℕ) (late : ℕ → Bool) {windowSeconds : ℤ} (hwidth : 1 ≤ windowSeconds) :
    let out := aggregate chars ids (writeStream total late (bglStream anomalyRate draws))
      windowSeconds none
    ∃ n, (∀ k, total = some k → (∀ i, late i = false) → n = k) ∧
      writeStream total late (bglStream anomalyRate draws) =
        written ((bglStream anomalyRate draws).take n) ∧
      out.nSkipped = 0 ∧ (out.bins.items.map Prod.snd).sum = (draws.take n).length ∧
      (∀ v, out.bins.get? v =
        if ∃ d ∈ draws.take n, window windowSeconds (bglInstant d) = v then
          some ((draws.take n).countP (fun d => window windowSeconds (bglInstant d) = v))
        else none) ∧
      (∀ v, (out.labels.get? v).getD false = true ↔
        ∃ d ∈ draws.take n, window windowSeconds (bglInstant d) = v ∧ d.random < anomalyRate) ∧
      (Divides windowSeconds → ∀ d, window windowSeconds (bglInstant d) =
        bglInstant d/1000000/windowSeconds*windowSeconds*1000000) := by
  intro out
  obtain ⟨n,hn,hcount⟩ := writeFrom_take total late 0 (bglStream anomalyRate draws)
  have hwritten : writeStream total late (bglStream anomalyRate draws) =
      written (bglStream anomalyRate (draws.take n)) := by
    rw [writeStream, hn, bglStream, bglStream, List.map_take]
  obtain ⟨hcounted,hsum,hlabelled⟩ := @aggregate_spec chars ids windowSeconds
    (writeStream total late (bglStream anomalyRate draws)) none
  rw [hwritten, parsedLines_bgl, ← hwritten] at hcounted hsum hlabelled
  refine ⟨n,hcount,hn,?_,by rw [hsum, List.length_map],fun v => ?_,fun v => ?_,
    fun hdivides d => window_of_divides hwidth hdivides (bglInstant d)⟩
  · have hnone : ∀ line ∈ numberedLines (writeStream total late (bglStream anomalyRate draws))
        none, parsedLine chars ids line ≠ none := by
      rw [hwritten, numberedLines_bgl]
      rintro ⟨l,i⟩ hl
      obtain ⟨l',hl',rfl⟩ := List.mem_map.mp (List.fst_mem_of_mem_zipIdx hl)
      obtain ⟨d,_,rfl⟩ := List.mem_map.mp hl'
      rw [parsedLine_bgl]
      exact Option.some_ne_none _
    exact foldl_nSkipped {} hnone
  · refine (hcounted v).trans ?_
    simp only [List.mem_map, exists_exists_and_eq_and, List.countP_map]
    rfl
  · refine (hlabelled v).trans ?_
    simp only [List.mem_map, exists_exists_and_eq_and, bglKind_label]

def drawnAlert : BglDraw := ⟨30,0,0,0,0,0,0,0,0⟩

def drawnCalm : BglDraw := ⟨90,1,0,0,0,0,1,0,0⟩

/-- The minute of the alert is marked, and the next is not. -/
theorem bgl_evaluated_minutes :
    let out := aggregate .ascii id (writeStream (some 2) (fun _ => false)
      (bglStream (1/2) [drawnAlert,drawnCalm])) 60 none
    (out.bins.items.map Prod.snd).sum = 2 ∧
      (out.labels.get? (bglInstant drawnAlert-30000000)).getD false = true ∧
      ¬(out.labels.get? (bglInstant drawnCalm-30000000)).getD false = true := by
  obtain ⟨n,hn,_,_,hsum,_,hlabels,hwindow⟩ := bgl_evaluated .ascii id (1/2)
    [drawnAlert,drawnCalm] (some 2) (fun _ => false) (show (1:ℤ) ≤ 60 by decide)
  obtain rfl := hn 2 rfl (fun _ => rfl)
  have hminute := hwindow (Or.inl (by decide))
  refine ⟨hsum,(hlabels _).mpr ⟨drawnAlert,by simp,?_,by decide +kernel⟩,fun h => ?_⟩
  · rw [hminute]
    decide
  · obtain ⟨d,hd,hw,hdrawn⟩ := (hlabels _).mp h
    rw [hminute] at hw
    rcases List.mem_pair.mp hd with rfl | rfl
    · exact absurd hw (by decide)
    · exact absurd hdrawn (by decide +kernel)

open PipelineX.ParserDetection

/-- A code of capital letters is one for every table. -/
theorem capitals {chars : CharTable} (letters : LetterTable chars) {code : List Char}
    (hne : code ≠ []) (hcode : ∀ c ∈ code, Visible c ∧ c.isUpper = true ∧ c.isLower = false) :
    letters.isUpper code = true ∧ letters.isAlpha code = true := by
  have hascii : ∀ c ∈ code, c.toNat < 128 := fun c hc => (hcode c hc).1.2.trans (by decide)
  obtain ⟨c,cs,rfl⟩ := List.exists_cons_of_ne_nil hne
  have halpha : ∀ e ∈ c::cs, letters.alpha e = true := fun e he => by
    rw [letters.alpha_ascii e (hascii e he)]
    change (e.isUpper || e.isLower) = true
    rw [(hcode e he).2.1]
    rfl
  have hlower : ∀ e ∈ c::cs, letters.lower e = false := fun e he => by
    rw [letters.lower_ascii e (hascii e he), (hcode e he).2.2]
  have hfirst : letters.upper c = true := by
    rw [letters.upper_ascii c (hascii c List.mem_cons_self), (hcode c List.mem_cons_self).2.1]
  constructor
  · simp only [LetterTable.isUpper, Bool.and_eq_true, List.any_eq_true, List.all_eq_true,
      Bool.not_eq_true']
    exact ⟨⟨c,List.mem_cons_self,hfirst⟩,hlower⟩
  · simp only [LetterTable.isAlpha, List.isEmpty_cons, Bool.not_false, Bool.true_and,
      List.all_eq_true]
    exact halpha

theorem bglLine_labelled (letters : LetterTable chars) (anomalyRate : ℚ) (d : BglDraw) :
    Labelled letters (String.ofList (bglLine anomalyRate d)) := by
  obtain ⟨⟨hne,hvisible⟩,_⟩ := bglKind_visible anomalyRate d
  have hword : IsWord chars.space (bglKind anomalyRate d).1 :=
    ⟨hne,fun c hc => not_space chars (hvisible c hc)⟩
  obtain ⟨fields,hfields⟩ : ∃ fields, bglFields anomalyRate d =
      (bglKind anomalyRate d).1::fields := ⟨_,rfl⟩
  obtain ⟨rest,hrest⟩ : ∃ rest, bglLine anomalyRate d =
      (bglKind anomalyRate d).1 ++ ' '::rest := by
    rw [bglLine, intercalate_eq, hfields, List.flatMap_cons, List.append_assoc, List.append_assoc]
    exact ⟨_,rfl⟩
  have hparted : Parted chars.space (' '::rest) := by
    intro c hc
    rw [← Option.some.inj hc]
    exact chars.space_ascii ' ' (by decide)
  refine ⟨(bglKind anomalyRate d).1,?_,?_⟩
  · rw [String.toList_ofList, hrest, words_word hword hparted]
    rfl
  · rcases bglKind_cases anomalyRate d with ⟨_,code,hcode,hkind⟩ | ⟨_,hkind⟩
    · obtain ⟨hne,hcapitals⟩ := bglAlertCodes_capitals code hcode
      rw [hkind]
      exact Or.inr (capitals letters hne hcapitals)
    · rw [hkind]
      exact Or.inl rfl

/-- The default factory finds for every line of the generator the parser of its
format, which accepts it. A BGL line is read as it was drawn. -/
theorem generated_detected (letters : LetterTable chars) (id : UUID) (anomalyRate : ℚ)
    (blocks : List BlockDraw) (draws : List LineDraw) (bglDraws : List BglDraw) :
    ∃ f, defaultFactory letters = .ok f ∧
      (∀ line ∈ hdfsStream anomalyRate blocks draws,
        f.detect chars (String.ofList line) = .ok (hdfsParser chars) ∧
        (hdfsParser chars).Accepts id (String.ofList line)) ∧
      ∀ (k : ℕ) line, (bglStream anomalyRate bglDraws)[k]? = some line →
        f.detect chars (String.ofList line) = .ok (bglParser letters) ∧
        ∃ d r, bglDraws[k]? = some d ∧
          (bglParser letters).parse id (String.ofList line) = .ok r ∧
          BglReadBack anomalyRate d r := by
  obtain ⟨f,hf,hparsers⟩ := defaultFactory_parsers letters
  refine ⟨f,hf,fun line hline => ?_,fun k line hline => ?_⟩
  · obtain ⟨k,hk⟩ := List.mem_iff_getElem?.mp hline
    obtain ⟨_,event,blk,d,_,_,hformat⟩ := hdfsStream_line hk
    obtain ⟨r,hr,_⟩ := parse_formatHdfsLine chars id (hdfsTs_year d) (100+k) event blk d
    rw [← hformat] at hr
    have haccepts : (hdfsParser chars).Accepts id (String.ofList line) := by
      simp only [IParser.Accepts, hdfsParser]
      exact ⟨r,hr⟩
    have hclaimed := isLine_claimed ((hdfs_accepts id).mp haccepts)
    exact ⟨(detect_ok_iff hparsers _).mpr ⟨by simp [hparsers],hclaimed⟩,haccepts⟩
  · rw [bglStream, List.getElem?_map, Option.map_eq_some_iff] at hline
    obtain ⟨d,hd,hformat⟩ := hline
    obtain ⟨r,hr,hread⟩ := parse_bglLine chars id anomalyRate d
    have hlabelled := bglLine_labelled chars letters anomalyRate d
    rw [hformat] at hr hlabelled
    have hclaimed := (bgl_claims letters).mpr hlabelled
    exact ⟨(detect_ok_iff hparsers _).mpr ⟨by simp [hparsers],hclaimed⟩,d,r,hd,hr,hread⟩

end
end PipelineX.SyntheticBgl
