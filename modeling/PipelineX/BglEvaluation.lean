import PipelineX.BglFormat
import PipelineX.Counter
import PipelineX.TextFile

/-!
# The bins of the BGL evaluation

`_aggregate` counts the lines of a log in bins of time and marks the bins with
an alert. The start of a bin is found by setting the second and the minute of
the timestamp, each for itself.
-/

set_option autoImplicit false

namespace PipelineX.BglEvaluation
open PipelineX.Records PipelineX.Parsers

def second (ts : Datetime) : ℤ := ts/1000000%60

def minute (ts : Datetime) : ℤ := ts/60000000%60

def microsecond (ts : Datetime) : ℤ := ts%1000000

/-- They are the fields that the instant was made of. -/
theorem instant_fields (year month day hour : ℕ) {m s us : ℕ} (hm : m < 60) (hs : s < 60)
    (hus : us < 1000000) :
    minute (Calendar.instant year month day hour m s us) = m ∧
      second (Calendar.instant year month day hour m s us) = s ∧
      microsecond (Calendar.instant year month day hour m s us) = us := by
  rw [minute, second, microsecond, Calendar.instant]
  generalize (Calendar.toordinal year month day - Calendar.epoch : ℤ) = days
  omega

/-- `ts.replace(second=value)`, and so on. -/
def replaceSecond (ts : Datetime) (value : ℤ) : Datetime := ts+(value-second ts)*1000000

def replaceMinute (ts : Datetime) (value : ℤ) : Datetime := ts+(value-minute ts)*60000000

def replaceMicrosecond (ts : Datetime) (value : ℤ) : Datetime := ts+(value-microsecond ts)

/-- The start of the bin that a timestamp is counted in, for widths of at least
a second. For others, which the script does not check, `//` or `replace` may
raise. -/
def window (windowSeconds : ℤ) (ts : Datetime) : Datetime :=
  let window := replaceMicrosecond
    (replaceSecond ts ((second ts).fdiv windowSeconds*windowSeconds)) 0
  if 60 ≤ windowSeconds then
    replaceMinute (replaceSecond window 0)
      ((minute ts).fdiv (windowSeconds.fdiv 60)*(windowSeconds.fdiv 60))
  else window

structure Bins where
  bins : OrderedDict Datetime ℕ := .empty
  labels : OrderedDict Datetime Bool := .empty
  nSkipped : ℕ := 0

section
variable (chars : CharTable) (ids : ℕ → UUID)

def aggregateLine (windowSeconds : ℤ) (s : Bins) (line : List Char × ℕ) : Bins :=
  let raw := TextFile.rstripNewline line.1
  if raw = [] then s
  else
    match BglParser.parse chars (ids line.2) (String.ofList raw) with
    | .error _ => { s with nSkipped := s.nSkipped+1 }
    | .ok rec =>
      match rec.timestamp with
      | none => s
      | some ts =>
        let window := window windowSeconds ts
        let s := { s with bins := Counter.add s.bins window }
        match rec.enrichment.get? "bgl_label" with
        | some (.str label) =>
          if label ≠ "-" then { s with labels := s.labels.insert window true } else s
        | _ => s

/-- The lines before `break`, with their numbers. -/
def numberedLines (log : List Char) (maxLines : Option ℤ) : List (List Char × ℕ) :=
  (TextFile.lines log).zipIdx.takeWhile (fun p => maxLines.all ((p.2 : ℤ) < ·))

/-- `_aggregate`, of the decoded text of the log. -/
def aggregate (log : List Char) (windowSeconds : ℤ) (maxLines : Option ℤ) : Bins :=
  (numberedLines log maxLines).foldl (aggregateLine chars ids windowSeconds) {}

/-- The timestamp and the label of a line that is parsed. -/
def parsedLine (line : List Char × ℕ) : Option (Datetime × String) :=
  let raw := TextFile.rstripNewline line.1
  if raw = [] then none
  else
    match BglParser.parse chars (ids line.2) (String.ofList raw) with
    | .error _ => none
    | .ok rec =>
      match rec.timestamp, rec.enrichment.get? "bgl_label" with
      | some ts, some (.str label) => some (ts,label)
      | _, _ => none

def parsedLines (log : List Char) (maxLines : Option ℤ) : List (Datetime × String) :=
  (numberedLines log maxLines).filterMap (parsedLine chars ids)

end

/-- The bins are even: two lines are in one bin when their seconds are in one
interval of the width, each line is counted once, and the marks say where an
alert is. -/
structure BinsEven (windowSeconds : ℤ) (parsed : List (Datetime × String)) (out : Bins) : Prop where
  sameBin : ∀ p ∈ parsed, ∀ q ∈ parsed, window windowSeconds p.1 = window windowSeconds q.1 ↔
    p.1/1000000/windowSeconds = q.1/1000000/windowSeconds
  counted : ∀ w, out.bins.get? w =
    if ∃ p ∈ parsed, window windowSeconds p.1 = w then
      some (parsed.countP (fun p => window windowSeconds p.1 = w))
    else none
  total : (out.bins.items.map Prod.snd).sum = parsed.length
  labelled : ∀ w, (out.labels.get? w).getD false = true ↔
    ∃ p ∈ parsed, window windowSeconds p.1 = w ∧ p.2 ≠ "-"

end PipelineX.BglEvaluation
