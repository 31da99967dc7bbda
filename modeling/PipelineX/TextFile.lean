import Mathlib.Data.List.DropRight
import Mathlib.Tactic.Common

/-!
# Text files

What a file opened in text mode gives after decoding: carriage returns become
newlines, and the file is iterated by lines that keep their newline.
-/

set_option autoImplicit false

namespace PipelineX.TextFile

/-- Newline translation: a carriage return, with or without a newline after it. -/
def translate : List Char → List Char
  | [] => []
  | '\r' :: '\n' :: cs => '\n' :: translate cs
  | '\r'::cs => '\n' :: translate cs
  | c::cs => c :: translate cs

/-- The lines of a text, from what the current line has so far. -/
def linesFrom : List Char → List Char → List (List Char)
  | line, [] => if line = [] then [] else [line]
  | line, c::cs => if c = '\n' then (line ++ [c]) :: linesFrom [] cs else linesFrom (line ++ [c]) cs

def lines (text : List Char) : List (List Char) := linesFrom [] (translate text)

/-- `line.rstrip("\n")`. -/
def rstripNewline (line : List Char) : List Char := line.rdropWhile (· = '\n')

/-- A line before its newline. -/
theorem rstripNewline_line {line : List Char} (h : '\n' ∉ line) :
    rstripNewline line = line ∧ rstripNewline (line ++ ['\n']) = line := by
  have hself : rstripNewline line = line := by
    refine List.rdropWhile_eq_self_iff.mpr fun hne hlast => ?_
    have hmem := List.getLast_mem hne
    rw [of_decide_eq_true hlast] at hmem
    exact h hmem
  have hdrop := List.rdropWhile_concat_pos (fun c : Char => decide (c = '\n')) line '\n' rfl
  exact ⟨hself,hdrop.trans hself⟩

/-- A text without carriage returns stays as it is. -/
theorem translate_self {s : List Char} (h : '\r' ∉ s) : translate s = s := by
  induction s with
  | nil => rfl
  | cons c cs ih =>
    have hc : c ≠ '\r' := fun hr => h (hr ▸ List.mem_cons_self)
    rw [translate, ih fun hmem => h (List.mem_cons_of_mem _ hmem)]
    · intro _ hr
      exact absurd hr hc
    · exact hc

theorem linesFrom_line {line a : List Char} (h : '\n' ∉ a) (s : List Char) :
    linesFrom line (a ++ '\n'::s) = (line ++ a ++ ['\n']) :: linesFrom [] s := by
  induction a generalizing line with
  | nil => simp [linesFrom]
  | cons c a ih =>
    have hc : c ≠ '\n' := fun hn => h (hn ▸ List.mem_cons_self)
    rw [List.cons_append, linesFrom, if_neg hc, ih fun hmem => h (List.mem_cons_of_mem _ hmem)]
    simp

theorem linesFrom_last {line a : List Char} (h : '\n' ∉ a) (hne : line ++ a ≠ []) :
    linesFrom line a = [line ++ a] := by
  induction a generalizing line with
  | nil =>
    rw [List.append_nil] at hne ⊢
    rw [linesFrom, if_neg hne]
  | cons c a ih =>
    have hc : c ≠ '\n' := fun hn => h (hn ▸ List.mem_cons_self)
    rw [linesFrom, if_neg hc, ih (fun hmem => h (List.mem_cons_of_mem _ hmem)) (by simp)]
    simp

end PipelineX.TextFile
