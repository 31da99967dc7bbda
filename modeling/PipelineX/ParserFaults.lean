import PipelineX.CsvGrammar
import PipelineX.Parsers
import PipelineX.Stages

/-!
# What the structured parser raises

A parser returns a record or raises `ParserError`, which `ParserStage` turns
into `FatalStageError`. It lets every other exception through, as the parser
lets that of the row's reader through.
-/

set_option autoImplicit false

namespace PipelineX.ParserFaults
open PipelineX.Records PipelineX.Stages PipelineX.Regex PipelineX.Parsers

/-- A record, or the exception of a parser. -/
def Parses (x : Except PyError LogRecord) : Prop :=
  (∃ r, x = .ok r) ∨ ∃ e, x = .error (.parserError e)

/-- A record, or the exception of a stage that gives the record up. -/
def Settles (x : Except PyError LogRecord) : Prop :=
  (∃ r, x = .ok r) ∨ ∃ e, x = .error (.fatalStageError e)

theorem not_parses_other (type message : String) : ¬Parses (.error (.other type message)) := by
  rintro (⟨r,hr⟩ | ⟨e,he⟩)
  · cases hr
  · cases he

theorem not_settles_other (type message : String) : ¬Settles (.error (.other type message)) := by
  rintro (⟨r,hr⟩ | ⟨e,he⟩)
  · cases hr
  · cases he

theorem parseRecord_settles {parser : Parser} {record : LogRecord} {raw : String}
    (h : rawOf record = .str raw) (hparser : ∀ e, parser.parse raw ≠ .error (.fatalStageError e)) :
    Settles (parseRecord parser record) ↔ Parses (parser.parse raw) := by
  unfold parseRecord
  rw [h]
  dsimp only
  split
  · next r hr =>
    rw [hr]
    exact ⟨fun _ => Or.inl ⟨r,rfl⟩,fun _ => Or.inl ⟨_,rfl⟩⟩
  · next e he =>
    rw [he]
    exact ⟨fun _ => Or.inr ⟨e,rfl⟩,fun _ => Or.inr ⟨_,rfl⟩⟩
  · next e hother he =>
    rw [he]
    constructor
    · rintro (⟨r,hr⟩ | ⟨m,hm⟩)
      · cases hr
      · cases hm
        exact absurd he (hparser m)
    · rintro (⟨r,hr⟩ | ⟨m,hm⟩)
      · cases hr
      · cases hm
        exact absurd rfl (hother m)

theorem parseRecord_noText {parser : Parser} {record : LogRecord}
    (h : ∀ raw, rawOf record ≠ .str raw) : Settles (parseRecord parser record) := by
  unfold parseRecord
  split
  · next raw hraw => exact absurd hraw (h raw)
  · exact Or.inr ⟨_,rfl⟩

/-- The exception of the reader is the one that the parser lets through. -/
theorem parse_parses (chars : CharTable) (id : UUID) (raw : String) :
    Parses (HdfsStructuredCsvParser.parse chars id raw) ↔ ∃ x, Csv.next raw.toList = .ok x := by
  unfold HdfsStructuredCsvParser.parse
  split
  · next e he =>
    rw [he]
    refine ⟨fun h => absurd h (not_parses_other _ _),?_⟩
    rintro ⟨x,hx⟩
    cases hx
  · next he => exact ⟨fun _ => ⟨_,he⟩,fun _ => Or.inr ⟨_,rfl⟩⟩
  · next he =>
    refine ⟨fun _ => ⟨_,he⟩,fun _ => ?_⟩
    split
    · exact Or.inr ⟨_,rfl⟩
    · exact Or.inl ⟨_,rfl⟩
  · next he => exact ⟨fun _ => ⟨_,he⟩,fun _ => Or.inr ⟨_,rfl⟩⟩

theorem parse_not_fatal (chars : CharTable) (id : UUID) (raw e : String) :
    HdfsStructuredCsvParser.parse chars id raw ≠ .error (.fatalStageError e) := by
  unfold HdfsStructuredCsvParser.parse
  split
  · exact fun h => by cases h
  · exact fun h => by cases h
  · split <;> exact fun h => by cases h
  · exact fun h => by cases h

def structuredParser (chars : CharTable) (id : UUID) : Parser where
  name := "hdfs_structured_csv"
  parse := HdfsStructuredCsvParser.parse chars id

/-- The parser keeps to its exceptions, and the stage to its own, exactly on
the texts that begin with a row. -/
theorem structured_parses_iff (chars : CharTable) (id : UUID) :
    (∀ raw, Parses (HdfsStructuredCsvParser.parse chars id raw) ↔ Csv.Row raw.toList) ∧
    ∀ record, Settles (parseRecord (structuredParser chars id) record) ↔
      ∀ raw, rawOf record = .str raw → Csv.Row raw.toList := by
  have hparse : ∀ raw, Parses (HdfsStructuredCsvParser.parse chars id raw) ↔
      Csv.Row raw.toList := by
    intro raw
    rw [parse_parses, Csv.next_ok_iff]
  refine ⟨hparse,fun record => ?_⟩
  constructor
  · intro h raw hraw
    exact (hparse raw).mp ((parseRecord_settles hraw (parse_not_fatal chars id raw)).mp h)
  · intro h
    by_cases htext : ∃ raw, rawOf record = .str raw
    · obtain ⟨raw,hraw⟩ := htext
      exact (parseRecord_settles hraw (parse_not_fatal chars id raw)).mpr
        ((hparse raw).mpr (h raw hraw))
    · exact parseRecord_noText (not_exists.mp htext)

/-- A carriage return in the middle of a row. -/
theorem carriage_return_escapes :
    ¬Parses (HdfsStructuredCsvParser.parse .ascii 0 "a\rb") ∧
    ¬Settles (parseRecord (structuredParser .ascii 0)
      { id := 1, rawPayload := OrderedDict.empty.insert "raw" (.str "a\rb") }) := by
  have hparse : HdfsStructuredCsvParser.parse .ascii 0 "a\rb" = .error (.other "Error"
      ("new-line character seen in unquoted field - " ++
        "do you need to open the file with newline=''?")) := by decide
  have hstage : parseRecord (structuredParser .ascii 0)
      { id := 1, rawPayload := OrderedDict.empty.insert "raw" (.str "a\rb") } =
      .error (.other "Error" ("new-line character seen in unquoted field - " ++
        "do you need to open the file with newline=''?")) := by decide
  rw [hparse, hstage]
  exact ⟨not_parses_other _ _,not_settles_other _ _⟩

end PipelineX.ParserFaults
