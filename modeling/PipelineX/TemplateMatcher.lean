import PipelineX.Regex
import PipelineX.Csv
import PipelineX.TextFile

/-!
# `TemplateMatcherStage`

The templates of a file as patterns. A template is cut at its wildcards; the
pieces stand for themselves and anything may stand between them.
-/

set_option autoImplicit false

namespace PipelineX.TemplateMatcher
open PipelineX.Regex

/-- `_WILDCARD.split(template)`, from what the current piece has so far. -/
def splitFrom : List Char → List Char → List (List Char)
  | piece, [] => [piece]
  | piece, '<' :: '*' :: '>' :: cs => piece :: splitFrom [] cs
  | piece, '[' :: '*' :: ']' :: cs => piece :: splitFrom [] cs
  | piece, c::cs => splitFrom (piece ++ [c]) cs

def split (template : List Char) : List (List Char) := splitFrom [] template

/-- `.*?` with `re.DOTALL`. -/
def anything : Regex := .many false 0 none (fun _ => true)

/-- `re.escape(piece)`. -/
def escape (piece : List Char) : Regex := cat (piece.map (fun c => .one (· = c)))

def join : List (List Char) → List Regex
  | [] => []
  | [piece] => [escape piece]
  | piece::pieces => escape piece :: anything :: join pieces

def pattern (template : List Char) : Regex := cat (.start :: join (split template))

/-- The row's event id and pattern, if it has both an id and a template. -/
def compileRow (row : OrderedDict String (Option String)) : Option (String × Regex) :=
  let eid := (Csv.column row "EventId").getD ""
  let template := (Csv.column row "EventTemplate").getD ""
  if eid = "" ∨ template = "" then none else some (eid,pattern template.toList)

/-- `_compile_templates` on the text of the file. -/
def compileTemplates (text : List Char) : Except String (List (String × Regex)) :=
  (Csv.dictRows (TextFile.translate text)).map (List.filterMap compileRow)

/-- The patterns as predicates: `pat.match(message)`. -/
def matchers (patterns : List (String × Regex)) : List (String × (String → Bool)) :=
  patterns.map (fun p => (p.1,fun message => (p.2.match message.toList).isSome))

end PipelineX.TemplateMatcher
