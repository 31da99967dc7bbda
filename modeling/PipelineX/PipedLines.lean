import PipelineX.SourceReading
import Mathlib.Data.List.Infix

/-!
# Piping a file against reading it

The two loops give the lines of the text, one of them without the blank ones.
-/

set_option autoImplicit false

namespace PipelineX.LogSources
open PipelineX.TextFile

theorem linesFrom_readline (line s : List Char) : linesFrom line s =
    if line ++ (readline s).1 = [] then []
    else (line ++ (readline s).1) :: linesFrom [] (readline s).2 := by
  induction s generalizing line with
  | nil => simp [linesFrom, readline]
  | cons c cs ih =>
    by_cases hc : c = '\n'
    · simp [linesFrom, readline, hc]
    · rw [linesFrom, if_neg hc, ih (line ++ [c])]
      simp [readline, hc]

/-- Asking for lines until there is none gives all of them. -/
theorem streamFrom_eq (s : List Char) :
    StdinLogSource.streamFrom s = (linesFrom [] s).map rstripNewline := by
  induction s using StdinLogSource.streamFrom.induct with
  | case1 s h ih =>
    rw [StdinLogSource.streamFrom, dif_pos h, ih, linesFrom_readline [] s, List.nil_append, if_neg h]
    rfl
  | case2 s h =>
    rw [StdinLogSource.streamFrom, dif_neg h, linesFrom_readline, List.nil_append,
      if_pos (not_not.mp h)]
    rfl

/-- A file gives what a pipe gives, without the empty lines. -/
theorem streamText_eq (text : List Char) : FileLogSource.streamText text =
    (StdinLogSource.stream text).filter (fun line => decide (line ≠ [])) := by
  rw [FileLogSource.streamText, FileLogSource.iterLines_eq, StdinLogSource.stream, streamFrom_eq]
  rfl

/-- Two newlines in a row. -/
def Blank (s : List Char) : Prop := ['\n','\n'] <:+: s

theorem blank_cons {p c : Char} {cs : List Char} :
    Blank (p::c::cs) ↔ (p = '\n' ∧ c = '\n') ∨ Blank (c::cs) := by
  rw [Blank, List.infix_cons_iff, List.cons_prefix_cons, List.cons_prefix_cons]
  simp [Blank, eq_comm]

/-- An empty line is a newline at the front or after another one. `prev` stands
for what is before the text. -/
theorem empty_line_iff {line s : List Char} {prev : Char} (hline : '\n' ∉ line)
    (hprev : line = [] ↔ prev = '\n') :
    (∀ l ∈ linesFrom line s, rstripNewline l ≠ []) ↔ ¬Blank (prev::s) := by
  induction s generalizing line prev with
  | nil =>
    have hshort : ¬Blank [prev] := fun h => absurd h.length_le (by simp)
    rw [linesFrom]
    by_cases hnil : line = []
    · simp [hnil, hshort]
    · simp [hnil, hshort, (rstripNewline_line hline).1]
  | cons c cs ih =>
    rw [blank_cons, not_or, not_and_or, ← hprev]
    by_cases hc : c = '\n'
    · rw [linesFrom, if_pos hc, List.forall_mem_cons, hc, (rstripNewline_line hline).2,
        ih List.not_mem_nil (iff_of_true rfl rfl : _ ↔ '\n' = '\n')]
      simp
    · have hmem : '\n' ∉ line ++ [c] := by simp [hline, Ne.symm hc]
      rw [linesFrom, if_neg hc, ih hmem (by simp [hc] : line ++ [c] = [] ↔ c = '\n')]
      simp [hc]

/-- A file that can be read and decoded, with this text. -/
def HasText {σ : Type} (d : Decoder σ) (r : Reading) (text : List Char) : Prop :=
  r.fault = none ∧ d.Decodes r.blocks.flatten text

theorem stream_text {σ : Type} {d : Decoder σ} {files : Files} {path suffix : String}
    {content : List UInt8} {text : List Char}
    (h : HasText d (FileLogSource.reading files suffix content) text) :
    FileLogSource.stream d files path suffix content = ⟨FileLogSource.streamText text,none⟩ := by
  obtain ⟨hfault,s,hdecode,hstop⟩ := h
  rw [FileLogSource.stream]
  dsimp only
  rw [hfault, d.iterate_whole {} hdecode hstop]
  rfl

/-- Piping a text gives what reading a file with it gives when no line of it is
empty. -/
theorem piped_eq_file_iff {σ : Type} (d : Decoder σ) (files : Files) (path suffix : String)
    (content : List UInt8) (text : List Char)
    (h : HasText d (FileLogSource.reading files suffix content) text) :
    StdinLogSource.stream text = (FileLogSource.stream d files path suffix content).yielded ↔
      ¬Blank ('\n'::TextFile.translate text) := by
  rw [stream_text h, ← empty_line_iff List.not_mem_nil (iff_of_true rfl rfl), streamText_eq,
    eq_comm, List.filter_eq_self, StdinLogSource.stream, streamFrom_eq, List.forall_mem_map]
  simp only [decide_eq_true_eq]

theorem piped_eq_file_sample : StdinLogSource.stream "a\nb c\n".toList =
    (FileLogSource.stream utf8 FileLogSource.sampleFiles "app.log" ".log"
      [97,10,98,32,99,10]).yielded := by
  refine (piped_eq_file_iff utf8 FileLogSource.sampleFiles "app.log" ".log" [97,10,98,32,99,10]
    "a\nb c\n".toList ⟨rfl,_,rfl,rfl⟩).mpr ?_
  change ¬['\n','\n'] <:+: ['\n','a','\n','b',' ','c','\n']
  decide

/-- A file with an empty line in it. -/
theorem empty_line_piped : HasText utf8 (FileLogSource.reading FileLogSource.sampleFiles ".log"
      [97,10,10,98]) "a\n\nb".toList ∧
    StdinLogSource.stream "a\n\nb".toList ≠ (FileLogSource.stream utf8
      FileLogSource.sampleFiles "app.log" ".log" [97,10,10,98]).yielded := by
  refine ⟨⟨rfl,_,rfl,rfl⟩,?_⟩
  rw [StdinLogSource.stream, streamFrom_eq]
  decide

end PipelineX.LogSources
