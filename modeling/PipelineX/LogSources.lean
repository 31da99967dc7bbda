import PipelineX.Records
import PipelineX.TextFile

/-!
# The log sources

`FileLogSource` reads a file in blocks of bytes, decodes them and forms lines;
`StdinLogSource` asks for one line after the other. How a file or an archive is
read in blocks, and the codec, are inputs. Throttling only delays.
-/

set_option autoImplicit false

namespace PipelineX.LogSources
open PipelineX.Records PipelineX.TextFile

/-- `sys.stdin.readline()`: the next line with its newline and what is left. At
the end there is nothing. -/
def readline : List Char → List Char × List Char
  | [] => ([],[])
  | c::cs => if c = '\n' then ([c],cs) else (c :: (readline cs).1,(readline cs).2)

theorem readline_rest_lt (s : List Char) (h : (readline s).1 ≠ []) :
    (readline s).2.length < s.length := by
  induction s with
  | nil => exact absurd rfl h
  | cons c cs ih =>
    by_cases hc : c = '\n'
    · simp [readline, hc]
    · rw [readline, if_neg hc, List.length_cons]
      by_cases hcs : (readline cs).1 = []
      · cases cs with
        | nil => simp [readline]
        | cons d ds =>
          by_cases hd : d = '\n' <;> simp [readline, hd] at hcs
      · exact (ih hcs).trans (Nat.lt_succ_self _)

namespace StdinLogSource

/-- The loop of `stream`, on what is left of the text. -/
def streamFrom (s : List Char) : List (List Char) :=
  if _h : (readline s).1 ≠ [] then rstripNewline (readline s).1 :: streamFrom (readline s).2
  else []
termination_by s.length
decreasing_by exact readline_rest_lt s _h

/-- The newlines of the handle are translated, as those of a file are. That is
an assumption on `sys.stdin`: CPython on Linux opens it with `newline="\n"` and
leaves a carriage return in the line. -/
def stream (text : List Char) : List (List Char) := streamFrom (TextFile.translate text)

end StdinLogSource

/-- What can be raised while a file is read. `zlib` is `zlib.error`. -/
inductive ReadError where
  | os (message : String)
  | eof (message : String)
  | zlib (message : String)
  | unicodeDecode (message : String)
  deriving DecidableEq, Repr

/-- A strict incremental decoder. It may only stop where no character is cut. -/
structure Decoder (σ : Type) where
  start : σ
  next : σ → UInt8 → Except String (σ × List Char)
  stop : σ → Except String Unit

/-- The bytes of a character that are still to come, what was read of it, and
between which bounds the next of them is. -/
structure Utf8State where
  need : ℕ := 0
  value : ℕ := 0
  low : ℕ := 0x80
  high : ℕ := 0xBF
  deriving DecidableEq, Repr

/-- The default encoding. -/
def utf8 : Decoder Utf8State where
  start := {}
  next s byte :=
    let b := byte.toNat
    if s.need = 0 then
      if b < 0x80 then .ok ({},[Char.ofNat b])
      else if 0xC2 ≤ b ∧ b ≤ 0xDF then .ok ({ need := 1, value := b-0xC0 },[])
      -- no overlong forms, no surrogates, nothing above the last character
      else if b = 0xE0 then .ok ({ need := 2, value := 0, low := 0xA0 },[])
      else if b = 0xED then .ok ({ need := 2, value := 0xD, high := 0x9F },[])
      else if 0xE0 ≤ b ∧ b ≤ 0xEF then .ok ({ need := 2, value := b-0xE0 },[])
      else if b = 0xF0 then .ok ({ need := 3, value := 0, low := 0x90 },[])
      else if b = 0xF4 then .ok ({ need := 3, value := 4, high := 0x8F },[])
      else if 0xF0 ≤ b ∧ b ≤ 0xF4 then .ok ({ need := 3, value := b-0xF0 },[])
      else .error "invalid start byte"
    else if s.low ≤ b ∧ b ≤ s.high then
      if s.need = 1 then .ok ({},[Char.ofNat (s.value*64+(b-0x80))])
      else .ok ({ need := s.need-1, value := s.value*64+(b-0x80) },[])
    else .error "invalid continuation byte"
  stop s := if s.need = 0 then .ok () else .error "unexpected end of data"

/-- What reading a file gives: blocks of bytes, up to the end or an exception. -/
structure Reading where
  blocks : List (List UInt8)
  fault : Option ReadError := none

/-- How files are read: as they are, and through `gzip`. -/
structure Files where
  plain : List UInt8 → Reading
  gzip : List UInt8 → Reading

section
variable {σ : Type} (d : Decoder σ)

/-- Decoding a block, all of it or nothing. -/
def Decoder.decode : σ → List UInt8 → Except String (σ × List Char)
  | s, [] => .ok (s,[])
  | s, b::bs =>
    match d.next s b with
    | .error e => .error e
    | .ok (s',cs) => (Decoder.decode s' bs).map (fun p => (p.1,cs ++ p.2))

/-- The newline decoder: a carriage return is held back until it is known what
comes after it. -/
def newline (pendingCr : Bool) (c : Char) : Bool × List Char :=
  if c = '\r' then (true,if pendingCr then ['\n'] else [])
  else if c = '\n' then (false,['\n'])
  else (false,if pendingCr then ['\n',c] else [c])

/-- A text handle between two blocks: a carriage return that is held back and
the line that has no newline yet. -/
structure Handle where
  pendingCr : Bool := false
  line : List Char := []
  deriving DecidableEq, Repr

/-- The lines that characters complete, and the line after them. -/
def complete : List Char → List Char → List Char × List (List Char)
  | line, [] => (line,[])
  | line, c::cs =>
    if c = '\n' then ((complete [] cs).1,(line ++ [c]) :: (complete [] cs).2)
    else complete (line ++ [c]) cs

def Handle.put : Handle → List Char → Handle × List (List Char)
  | h, [] => (h,[])
  | h, c::cs =>
    let (pendingCr,emitted) := newline h.pendingCr c
    let (line,lines) := complete h.line emitted
    let (h',rest) := Handle.put ⟨pendingCr,line⟩ cs
    (h',lines ++ rest)

/-- At the end of the file the last line may lack a newline. -/
def Handle.finish (h : Handle) : List (List Char) :=
  let (line,lines) := complete h.line (if h.pendingCr then ['\n'] else [])
  lines ++ (if line = [] then [] else [line])

/-- Iterating over the handle: the lines it gives and what it raises. -/
def Decoder.iterate : σ → Handle → List (List UInt8) → Option ReadError →
    List (List Char) × Option ReadError
  | _, _, [], some e => ([],some e)
  | s, h, [], none =>
    match d.stop s with
    | .error e => ([],some (.unicodeDecode e))
    | .ok () => (h.finish,none)
  | s, h, b::bs, fault =>
    match d.decode s b with
    | .error e => ([],some (.unicodeDecode e))
    | .ok (s',cs) =>
      let (h',lines) := h.put cs
      let (rest,raised) := Decoder.iterate s' h' bs fault
      (lines ++ rest,raised)

end

namespace FileLogSource

/-- `_iter_lines`. -/
def iterLines : List (List Char) → List (List Char)
  | [] => []
  | raw::rest =>
    let line := rstripNewline raw
    if line = [] then iterLines rest else line :: iterLines rest

/-- The lines that were yielded and the exception after them. -/
structure Run where
  yielded : List (List Char)
  raised : Option PyError := none
  deriving DecidableEq, Repr

/-- `except OSError`. -/
def raisedAs (path : String) : ReadError → PyError
  | .os e => .other "SourceError" ("failed reading " ++ path ++ ": " ++ e)
  | .eof e => .other "EOFError" e
  | .zlib e => .other "zlib.error" e
  | .unicodeDecode e => .other "UnicodeDecodeError" e

def reading (files : Files) (suffix : String) (content : List UInt8) : Reading :=
  if suffix = ".gz" then files.gzip content else files.plain content

def stream {σ : Type} (d : Decoder σ) (files : Files) (path suffix : String)
    (content : List UInt8) : Run :=
  let reading := reading files suffix content
  let (lines,raised) := d.iterate d.start {} reading.blocks reading.fault
  { yielded := iterLines lines
    raised := raised.map (raisedAs path) }

/-- The stream of a plain file that can be read and decoded, from its text. -/
def streamText (text : List Char) : List (List Char) := iterLines (lines text)

end FileLogSource
end PipelineX.LogSources
