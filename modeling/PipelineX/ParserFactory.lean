import PipelineX.BglFormat

/-!
# The factory of parsers

The registry of `default_factory()` and the choice of a parser for a line by
the parsers' shape checks.
-/

set_option autoImplicit false

namespace PipelineX.ParserDetection
open PipelineX.Records PipelineX.Parsers

structure IParser where
  name : String
  canParse : String → Bool
  parse : UUID → String → Except PyError LogRecord

def hdfsParser (chars : CharTable) : IParser where
  name := "hdfs"
  canParse := HdfsParser.canParse chars
  parse := HdfsParser.parse chars

def hdfsStructuredCsvParser {chars : CharTable} (letters : LetterTable chars) : IParser where
  name := "hdfs_structured_csv"
  canParse := HdfsStructuredCsvParser.canParse letters
  parse := HdfsStructuredCsvParser.parse chars

def bglParser {chars : CharTable} (letters : LetterTable chars) : IParser where
  name := "bgl"
  canParse := BglParser.canParse letters
  parse := BglParser.parse chars

structure ParserFactory where
  registry : OrderedDict String IParser := .empty

namespace ParserFactory

def register (f : ParserFactory) (kind : String) (parser : IParser) :
    Except PyError ParserFactory :=
  if kind ∈ f.registry.keys then
    .error (.other "ConfigurationError" ("parser already registered: " ++ kind))
  else .ok { f with registry := f.registry.insert kind parser }

/-- The parsers in the order in which they were registered. -/
def parsers (f : ParserFactory) : List IParser := f.registry.items.map Prod.snd

def detect (f : ParserFactory) (chars : CharTable) (raw : String) : Except PyError IParser :=
  match f.parsers.find? (fun p => p.canParse raw) with
  | some p => .ok p
  | none => .error (.parserError ("no registered parser claims line: " ++
      String.ofList (chars.repr (raw.toList.take 80))))

end ParserFactory

def defaultFactory {chars : CharTable} (letters : LetterTable chars) :
    Except PyError ParserFactory := do
  let f : ParserFactory := {}
  let f ← f.register "hdfs" (hdfsParser chars)
  let f ← f.register "hdfs_structured_csv" (hdfsStructuredCsvParser letters)
  f.register "bgl" (bglParser letters)

theorem defaultFactory_parsers {chars : CharTable} (letters : LetterTable chars) :
    ∃ f, defaultFactory letters = .ok f ∧
      f.parsers = [hdfsParser chars,hdfsStructuredCsvParser letters,bglParser letters] :=
  ⟨_,rfl,rfl⟩

/-- The parser takes the line. -/
def IParser.Accepts (p : IParser) (id : UUID) (raw : String) : Prop :=
  ∃ r, p.parse id raw = .ok r

/-- On this line detection agrees with parsing. -/
structure Agrees (f : ParserFactory) (chars : CharTable) (id : UUID) (raw : String) : Prop where
  accepted : ∀ p ∈ f.parsers, p.Accepts id raw →
    ∃ q ∈ f.parsers, f.detect chars raw = .ok q ∧ q.Accepts id raw
  raised : ∀ message, f.detect chars raw = .error (.parserError message) →
    ∀ p ∈ f.parsers, ¬p.Accepts id raw

end PipelineX.ParserDetection
