import PipelineX.Records
import PipelineX.Strptime
import PipelineX.Csv

/-!
# The two HDFS parsers

`HDFSParser` reads a raw line with one regular expression.
`HDFSStructuredCSVParser` reads a row that already has the parts of the line,
and puts the line together again. What `uuid4()` draws for the record is an
input.
-/

set_option autoImplicit false

namespace PipelineX.Parsers
open PipelineX.Records PipelineX.Regex PipelineX.Strptime

/-- `match.group(name)` of a group that always takes part. -/
def group (a : Found) (name : String) : List Char := (a.group? name).getD []

/-- `[\w$.]`. -/
def componentChar (chars : CharTable) (c : Char) : Bool := chars.word c || c = '$' || c = '.'

/-- `.`, without `re.DOTALL`. -/
def notNewline (c : Char) : Bool := c ≠ '\n'

/-- `-`. -/
def minus (c : Char) : Bool := c = '-'

namespace HdfsParser

def lineRe (chars : CharTable) : Regex := cat
  [.start,.group "date" (.many true 6 (some 6) (digit chars)),text " ",
    .group "time" (.many true 6 (some 6) (digit chars)),text " ",
    .group "pid" (.many true 1 none (digit chars)),text " ",
    .group "level" (.many true 1 none chars.word),text " ",
    .group "component" (.many true 1 none (componentChar chars)),text ": ",
    .group "content" (.many true 0 none notNewline),.finish]

def blockRe (chars : CharTable) : Regex := cat
  [text "blk_",.group "1" (cat [.many true 0 (some 1) minus,.many true 1 none (digit chars)])]

def shapeRe (chars : CharTable) : Regex := cat
  [.start,.many true 6 (some 6) (digit chars),text " ",.many true 6 (some 6) (digit chars),
    text " ",.many true 1 none (digit chars),text " "]

def levelMap : List (String × Severity) :=
  [("DEBUG",.debug),("INFO",.info),("WARN",.warning),("WARNING",.warning),("ERROR",.error),
    ("FATAL",.critical)]

def canParse (chars : CharTable) (raw : String) : Bool :=
  ((shapeRe chars).match raw.toList).isSome

/-- `"blk_" + block_match.group(1)`. -/
def blockId (chars : CharTable) (content : List Char) : Option String :=
  ((blockRe chars).search 0 content).map
    (fun b => String.ofList ("blk_".toList ++ group b "1"))

/-- The record before anything is added to its enrichment. -/
def bare (id : UUID) (raw : String) (timestamp : Datetime) (a : Found) : LogRecord where
  id := id
  timestamp := some timestamp
  source := String.ofList (group a "component")
  severity := (levelMap.lookup (String.ofList (group a "level"))).getD .info
  message := String.ofList (group a "content")
  rawPayload :=
    { items :=
        [("pid",.str (String.ofList (group a "pid"))),
         ("level_raw",.str (String.ofList (group a "level"))),
         ("raw",.str raw)]
      nodup := by simp }

def record (chars : CharTable) (id : UUID) (raw : String) (timestamp : Datetime) (a : Found) :
    LogRecord :=
  let level := String.ofList (group a "level")
  let bare := bare id raw timestamp a
  let located := match blockId chars (group a "content") with
    | some b => bare.addEnrichment "block_id" (.str b)
    | none => bare
  if (levelMap.lookup level).isNone then
    located.addEnrichment "parse_warning" (.str ("unknown level: " ++ level))
  else located

def parse (chars : CharTable) (id : UUID) (raw : String) : Except PyError LogRecord :=
  match (lineRe chars).match raw.toList with
  | none => .error (.parserError ("line does not match HDFS format: " ++
      String.ofList (chars.repr (raw.toList.take 80))))
  | some a =>
    match strptime chars (group a "date" ++ group a "time") short with
    | .error e => .error (.parserError ("invalid HDFS timestamp " ++
        String.ofList (group a "date" ++ group a "time") ++ ": " ++ e))
    | .ok timestamp => .ok (record chars id raw timestamp a)

end HdfsParser

namespace HdfsStructuredCsvParser

def blockRe (chars : CharTable) : Regex := cat
  [text "blk_",.group "1" (cat [.many true 0 (some 1) minus,.many true 1 none (digit chars)])]

def levelMap : List (String × Severity) :=
  [("DEBUG",.debug),("INFO",.info),("WARN",.warning),("WARNING",.warning),("ERROR",.error),
    ("FATAL",.critical)]

def reconstructRaw (date time pid level component content : List Char) : List Char :=
  date ++ [' '] ++ time ++ [' '] ++ pid ++ [' '] ++ level ++ [' '] ++ component ++ [':',' '] ++
    content

def blockId (chars : CharTable) (content : List Char) : Option String :=
  ((blockRe chars).search 0 content).map
    (fun b => String.ofList ("blk_".toList ++ group b "1"))

def bare (id : UUID) (timestamp : Datetime)
    (lineId date time pid level component content : List Char) : LogRecord where
  id := id
  timestamp := some timestamp
  source := String.ofList component
  severity := (levelMap.lookup (String.ofList level)).getD .info
  message := String.ofList content
  rawPayload :=
    { items :=
        [("pid",.str (String.ofList pid)),
         ("level_raw",.str (String.ofList level)),
         ("line_id",.str (String.ofList lineId)),
         ("raw",.str (String.ofList (reconstructRaw date time pid level component content)))]
      nodup := by simp }

def record (chars : CharTable) (id : UUID) (timestamp : Datetime)
    (lineId date time pid level component content eventId : List Char) : LogRecord :=
  let bare := bare id timestamp lineId date time pid level component content
  let located := match blockId chars content with
    | some b => bare.addEnrichment "block_id" (.str b)
    | none => bare
  let matched := if eventId ≠ [] then
      located.addEnrichment "event_id" (.str (String.ofList eventId))
    else located
  if (levelMap.lookup (String.ofList level)).isNone then
    matched.addEnrichment "parse_warning" (.str ("unknown level: " ++ String.ofList level))
  else matched

def canParse {chars : CharTable} (letters : LetterTable chars) (raw : String) : Bool :=
  -- The first field is a numeric LineId.
  letters.isDigit (raw.toList.takeWhile (· ≠ ','))

def parse (chars : CharTable) (id : UUID) (raw : String) : Except PyError LogRecord :=
  match Csv.next raw.toList with
  | .error e => .error (.other "Error" e)
  | .ok none => .error (.parserError "empty CSV row")
  | .ok (some (lineId::date::time::pid::level::component::content::eventId::_::_)) =>
    match strptime chars (date ++ time) short with
    | .error e => .error (.parserError ("invalid HDFS timestamp " ++
        String.ofList (date ++ time) ++ ": " ++ e))
    | .ok timestamp => .ok (record chars id timestamp lineId date time pid level component
        content eventId)
  | .ok (some row) => .error (.parserError ("expected >=9 CSV fields, got " ++
      toString row.length ++ ": " ++ String.ofList (chars.repr (raw.toList.take 80))))

end HdfsStructuredCsvParser
end PipelineX.Parsers
