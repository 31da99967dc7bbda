import PipelineX.HdfsFormat

/-!
# The structured parser as an oracle

The parts of a line that `HDFSParser` accepts, written as a row of the
structured file, give `HDFSStructuredCSVParser` the same record. The reader of
the row takes no field over its limit.
-/

set_option autoImplicit false

namespace PipelineX.CsvOracle
open PipelineX.Records PipelineX.Regex PipelineX.Strptime PipelineX.Parsers PipelineX.HdfsFormat

/-- The row of a line in the structured file. -/
def row (lineId : String) (l : Line) (eventId template : String) : List (List Char) :=
  [lineId.toList,l.date,l.time,l.pid,l.level,l.component,l.content,eventId.toList,
    template.toList]

def csvLine (lineId : String) (l : Line) (eventId template : String) : String :=
  String.ofList (Csv.encode (row lineId l eventId template))

/-- What the oracle compares, and what only the structured parser sets. -/
structure Agree (raw eventId : String) (r r' : LogRecord) : Prop where
  timestamp : r'.timestamp = r.timestamp
  severity : r'.severity = r.severity
  source : r'.source = r.source
  message : r'.message = r.message
  pid : r'.rawPayload.get? "pid" = r.rawPayload.get? "pid"
  levelRaw : r'.rawPayload.get? "level_raw" = r.rawPayload.get? "level_raw"
  blockId : r'.enrichment.get? "block_id" = r.enrichment.get? "block_id"
  parseWarning : r'.enrichment.get? "parse_warning" = r.enrichment.get? "parse_warning"
  raw : r'.rawPayload.get? "raw" = some (.str raw)
  eventId : r'.enrichment.get? "event_id" = if eventId = "" then none else some (.str eventId)

section
variable (chars : CharTable) (id : UUID) (timestamp : Datetime)
variable (lineId date time pid level component content eventId : List Char)

theorem record_bare : ∃ enrichment,
    HdfsStructuredCsvParser.record chars id timestamp lineId date time pid level component content
      eventId =
    { HdfsStructuredCsvParser.bare id timestamp lineId date time pid level component content with
      enrichment := enrichment } := by
  unfold HdfsStructuredCsvParser.record
  cases HdfsStructuredCsvParser.blockId chars content <;> dsimp only <;> split <;> split <;>
    exact ⟨_,rfl⟩

/-- The three entries that the parser adds to the enrichment. -/
theorem record_enrichment :
    let r := HdfsStructuredCsvParser.record chars id timestamp lineId date time pid level component
      content eventId
    r.enrichment.get? "block_id" =
      (HdfsStructuredCsvParser.blockId chars content).map Value.str ∧
    r.enrichment.get? "event_id" =
      (if eventId = [] then none else some (.str (String.ofList eventId))) ∧
    r.enrichment.get? "parse_warning" =
      if (HdfsStructuredCsvParser.levelMap.lookup (String.ofList level)).isNone then
        some (.str ("unknown level: " ++ String.ofList level))
      else none := by
  unfold HdfsStructuredCsvParser.record
  have hbare (key : String) : (HdfsStructuredCsvParser.bare id timestamp lineId date time pid level
      component content).enrichment.get? key = none := rfl
  cases HdfsStructuredCsvParser.blockId chars content <;> by_cases he : eventId = [] <;>
    dsimp only <;> split <;>
    simp [he, LogRecord.addEnrichment, OrderedDict.get?_insert_self,
      OrderedDict.get?_insert_of_ne, hbare]

end

/-- A text that was accepted is a line, and its record is made of the line. -/
theorem parse_line {chars : CharTable} {id : UUID} {raw : String} {r : LogRecord}
    (h : HdfsParser.parse chars id raw = .ok r) (hline : '\n' ∉ raw.toList) :
    ∃ (l : Line) (a : Found) (timestamp : Datetime), l.Shaped (digit chars) chars.word ∧
      raw.toList = l.render ∧ a.groups = l.groups ∧
      strptime chars (l.date ++ l.time) short = .ok timestamp ∧
      r = HdfsParser.record chars id raw timestamp a := by
  unfold HdfsParser.parse at h
  cases ha : (HdfsParser.lineRe chars).match raw.toList with
  | none =>
    rw [ha] at h
    cases h
  | some a =>
    obtain ⟨l,hl,hs,_,hg,hrest⟩ := match_lineRe.mp ha
    obtain ⟨hdate,htime,_⟩ := group_of_groups hg
    have hnil : a.rest = [] := by
      rcases hrest with hr | hr
      · exact hr
      · rw [hs, hr] at hline
        exact absurd (List.mem_append_right _ List.mem_cons_self) hline
    rw [hnil, List.append_nil] at hs
    simp only [ha, hdate, htime] at h
    cases ht : strptime chars (l.date ++ l.time) short with
    | error e =>
      rw [ht] at h
      cases h
    | ok timestamp =>
      rw [ht] at h
      exact ⟨l,a,timestamp,hl,hs,hg,ht,(Except.ok.inj h).symm⟩

/-- A row whose fields are within the limit is read as it was written. -/
theorem next_csvLine {lineId eventId template : String} {l : Line}
    (hlen : ∀ w ∈ row lineId l eventId template, w.length ≤ Csv.fieldLimit) :
    Csv.next (csvLine lineId l eventId template).toList = .ok (some (row lineId l eventId template))
    := by
  rw [csvLine, String.toList_ofList]
  exact Csv.next_encode lineId.toList template.toList
    [l.date,l.time,l.pid,l.level,l.component,l.content,eventId.toList] hlen

theorem records_agree {chars : CharTable} {raw : String} {l : Line} {a : Found}
    (hg : a.groups = l.groups) (htext : raw.toList = l.render) (id id' : UUID)
    (timestamp : Datetime) (lineId eventId : String) :
    Agree raw eventId (HdfsParser.record chars id raw timestamp a)
      (HdfsStructuredCsvParser.record chars id' timestamp lineId.toList l.date l.time l.pid l.level
        l.component l.content eventId.toList) := by
  obtain ⟨_,_,hpid,hlevel,hcomponent,hcontent⟩ := group_of_groups hg
  obtain ⟨e,hbare⟩ := HdfsFormat.record_bare chars id raw timestamp a
  obtain ⟨e',hbare'⟩ := record_bare chars id' timestamp lineId.toList l.date l.time l.pid l.level
    l.component l.content eventId.toList
  obtain ⟨hblock,hevent,hwarning⟩ := record_enrichment chars id' timestamp lineId.toList l.date
    l.time l.pid l.level l.component l.content eventId.toList
  constructor
  · rw [hbare, hbare']
    rfl
  · rw [hbare, hbare', HdfsParser.bare, hlevel]
    rfl
  · rw [hbare, hbare', HdfsParser.bare, hcomponent]
    rfl
  · rw [hbare, hbare', HdfsParser.bare, hcontent]
    rfl
  · rw [hbare, hbare', HdfsParser.bare, hpid]
    rfl
  · rw [hbare, hbare', HdfsParser.bare, hlevel]
    rfl
  · rw [hblock, record_blockId, hcontent]
    rfl
  · rw [hwarning, record_parseWarning, hlevel]
    rfl
  · rw [hbare']
    show some (Value.str (String.ofList l.render)) = _
    rw [← htext, String.ofList_toList]
  · rw [hevent, String.ofList_toList]
    simp only [String.toList_eq_nil_iff]

/-- On every text without a newline that `HDFSParser` accepts, the structured
parser makes the same of the parts, as long as no field of the row is longer
than the reader takes. -/
theorem csv_oracle (chars : CharTable) (id id' : UUID) (raw : String) (r : LogRecord)
    (hline : '\n' ∉ raw.toList) (h : HdfsParser.parse chars id raw = .ok r) :
    ∃ l : Line, l.Shaped (digit chars) chars.word ∧ raw.toList = l.render ∧
      ∀ lineId eventId template : String,
        (∀ w ∈ row lineId l eventId template, w.length ≤ Csv.fieldLimit) →
        ∃ r', HdfsStructuredCsvParser.parse chars id' (csvLine lineId l eventId template) = .ok r' ∧
          Agree raw eventId r r' := by
  obtain ⟨l,a,timestamp,hl,htext,hg,ht,rfl⟩ := parse_line h hline
  refine ⟨l,hl,htext,fun lineId eventId template hlen => ?_⟩
  refine ⟨_,?_,records_agree hg htext id id' timestamp lineId eventId⟩
  rw [HdfsStructuredCsvParser.parse, next_csvLine hlen]
  simp only [row, ht]

theorem sample_line : '\n' ∉ sampleRaw.toList := by
  decide +kernel

/-- The fields of a line are no longer than the line. -/
theorem row_length {l : Line} {lineId eventId template : String} {n : ℕ}
    (hline : l.render.length ≤ n) (hid : lineId.toList.length ≤ n)
    (hevent : eventId.toList.length ≤ n) (htemplate : template.toList.length ≤ n) :
    ∀ w ∈ row lineId l eventId template, w.length ≤ n := by
  simp only [Line.render, HdfsStructuredCsvParser.reconstructRaw, List.length_append] at hline
  intro w hw
  simp only [row, List.mem_cons, List.not_mem_nil, or_false] at hw
  rcases hw with rfl | rfl | rfl | rfl | rfl | rfl | rfl | rfl | rfl <;> omega

theorem csv_oracle_sample : ∃ r, HdfsParser.parse .ascii 0 sampleRaw = .ok r ∧
    ∃ l : Line, sampleRaw.toList = l.render ∧
      ∃ r', HdfsStructuredCsvParser.parse .ascii 1
          (csvLine "1" l "E7" "PacketResponder <*> for block <*> terminating") = .ok r' ∧
        Agree sampleRaw "E7" r r' := by
  obtain ⟨r,hr,_⟩ := parse_accepted .ascii 0 sample_ascii sample_accepted
  obtain ⟨l,_,htext,hagree⟩ := csv_oracle .ascii 0 1 sampleRaw r sample_line hr
  have hshort : l.render.length ≤ Csv.fieldLimit := htext ▸ (by decide +kernel)
  exact ⟨r,hr,l,htext,hagree "1" "E7" "PacketResponder <*> for block <*> terminating"
    (row_length hshort (by decide) (by decide) (by decide))⟩

/-- A template one character longer than the limit. -/
def longTemplate : String := String.ofList (List.replicate (Csv.fieldLimit+1) 'a')

theorem long_template_refused : '\n' ∉ sampleRaw.toList ∧ sampleRaw.toList = sampleLine.render ∧
    sampleLine.content.length ≤ Csv.fieldLimit ∧
    (∃ r, HdfsParser.parse .ascii 0 sampleRaw = .ok r) ∧
    HdfsStructuredCsvParser.parse .ascii 1 (csvLine "1" sampleLine "E1" longTemplate) =
      .error (.other "Error" "field larger than field limit (131072)") := by
  obtain ⟨r,hr,_⟩ := parse_accepted .ascii 0 sample_ascii sample_accepted
  refine ⟨sample_line,by decide,by decide,⟨r,hr⟩,?_⟩
  have hshort : ∀ w ∈ ["1".toList,sampleLine.date,sampleLine.time,sampleLine.pid,sampleLine.level,
      sampleLine.component,sampleLine.content,"E1".toList], w.length ≤ Csv.fieldLimit := by decide
  have hplain : Csv.special longTemplate.toList = false := by
    rw [longTemplate, String.toList_ofList, Csv.special_eq_false]
    intro c hc
    rw [List.eq_of_mem_replicate hc]
    decide
  have hlong : Csv.fieldLimit < longTemplate.toList.length := by
    rw [longTemplate, String.toList_ofList, List.length_replicate]
    exact Nat.lt_succ_self _
  have hnext : Csv.next (Csv.encode (row "1" sampleLine "E1" longTemplate)) =
      .error "field larger than field limit (131072)" := Csv.next_long "1".toList longTemplate.toList
    [sampleLine.date,sampleLine.time,sampleLine.pid,sampleLine.level,sampleLine.component,
      sampleLine.content,"E1".toList] hshort hplain hlong
  rw [HdfsStructuredCsvParser.parse, csvLine, String.toList_ofList, hnext]

end PipelineX.CsvOracle
