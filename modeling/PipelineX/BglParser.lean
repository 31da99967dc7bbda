import PipelineX.Parsers
import PipelineX.Words

/-!
# The BGL parser

A line is split at its blanks into nine fields and a free text. The fifth field
is the timestamp.
-/

set_option autoImplicit false

namespace PipelineX.Parsers.BglParser
open PipelineX.Records PipelineX.Strptime PipelineX.Words

def levelMap : List (String × Severity) :=
  [("DEBUG",.debug),("INFO",.info),("WARN",.warning),("WARNING",.warning),("ERROR",.error),
    ("FATAL",.critical),("SEVERE",.critical),("FAILURE",.critical)]

/-- `"%Y-%m-%d-%H.%M.%S.%f"`. -/
def timeFormat : List Item :=
  [.Y,.char '-',.m,.char '-',.d,.char '-',.H,.char '.',.M,.char '.',.S,.char '.',.f]

def canParse {chars : CharTable} (letters : LetterTable chars) (raw : String) : Bool :=
  match split chars.space 1 raw.toList with
  | [] => false
  -- Either `-` or an alert code of capital letters.
  | first::_ => first = ['-'] || (letters.isUpper first && letters.isAlpha first)

def bare (id : UUID) (raw : String) (timestamp : Datetime)
    (label node nodeRepeat logType component level content : List Char) : LogRecord where
  id := id
  timestamp := some timestamp
  source := String.ofList component
  severity := (levelMap.lookup (String.ofList level)).getD .info
  message := String.ofList content
  rawPayload :=
    { items :=
        [("type",.str (String.ofList logType)),
         ("level_raw",.str (String.ofList level)),
         ("node_repeat",.str (String.ofList nodeRepeat)),
         ("raw",.str raw)]
      nodup := by simp }
  enrichment := (OrderedDict.empty.insert "bgl_label" (.str (String.ofList label))).insert "node"
    (.str (String.ofList node))

def record (id : UUID) (raw : String) (timestamp : Datetime)
    (label node nodeRepeat logType component level content : List Char) : LogRecord :=
  let bare := bare id raw timestamp label node nodeRepeat logType component level content
  if (levelMap.lookup (String.ofList level)).isNone then
    bare.addEnrichment "parse_warning" (.str ("unknown level: " ++ String.ofList level))
  else bare

def parse (chars : CharTable) (id : UUID) (raw : String) : Except PyError LogRecord :=
  match split chars.space 9 raw.toList with
  | [label,_,_,node,time,nodeRepeat,logType,component,level,content] =>
    match strptime chars time timeFormat with
    | .error e => .error (.parserError ("invalid BGL timestamp " ++
        String.ofList (chars.repr time) ++ ": " ++ e))
    | .ok timestamp => .ok (record id raw timestamp label node nodeRepeat logType component level
        content)
  | parts => .error (.parserError ("BGL line has only " ++ toString parts.length ++ " fields: " ++
      String.ofList (chars.repr (raw.toList.take 80))))

end PipelineX.Parsers.BglParser
