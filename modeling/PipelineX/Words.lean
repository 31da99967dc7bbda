import Mathlib.Data.List.Basic
import Mathlib.Data.List.TakeWhile
import Mathlib.Tactic.Common

/-!
# Splitting a text at its blanks

The words of a text are what lies between its blanks. A split that is bounded
takes words off the front, as many as it may, and leaves the rest as it is
from the next word on.
-/

set_option autoImplicit false

namespace PipelineX.Words

variable {α : Type*} (blank : α → Bool)

/-- The pieces between the blanks, without the empty ones. -/
def words (s : List α) : List (List α) := (s.splitOnP blank).filter (fun w => !w.isEmpty)

/-- `str.split(maxsplit=n)`. -/
def split : ℕ → List α → List (List α)
  | 0, s => if (s.dropWhile blank).isEmpty then [] else [s.dropWhile blank]
  | n+1, s =>
    if (s.dropWhile blank).isEmpty then []
    else (s.dropWhile blank).takeWhile (fun c => !blank c) ::
      split n ((s.dropWhile blank).dropWhile (fun c => !blank c))

/-- A word: it is not empty and has no blank. -/
def IsWord (w : List α) : Prop := w ≠ [] ∧ ∀ c ∈ w, blank c = false

/-- A text whose first character, if it has one, is a blank. -/
def Parted (s : List α) : Prop := ∀ c, s.head? = some c → blank c = true

variable {blank}

@[simp] theorem words_nil : words blank ([] : List α) = [] := rfl

theorem words_blank {c : α} {s : List α} (hc : blank c = true) :
    words blank (c::s) = words blank s := by
  rw [words, List.splitOnP_cons_eq_if_modifyHead, if_pos hc]
  rfl

theorem words_dropWhile (s : List α) : words blank (s.dropWhile blank) = words blank s := by
  induction s with
  | nil => rfl
  | cons c s ih =>
    by_cases hc : blank c = true
    · rw [List.dropWhile_cons_of_pos hc, ih, words_blank hc]
    · rw [List.dropWhile_cons_of_neg hc]

/-- A word in front of a blank, or of nothing. -/
theorem words_word {w s : List α} (hw : IsWord blank w) (hs : Parted blank s) :
    words blank (w ++ s) = w :: words blank s := by
  have hkept : (!w.isEmpty) = true := by simp [hw.1]
  cases s with
  | nil =>
    rw [List.append_nil, words, List.splitOnP_eq_singleton hw.2]
    simp [hw.1]
  | cons c s =>
    have hc := hs c rfl
    rw [words_blank hc, words, List.splitOnP_append_cons_of_forall_mem hw.2 c hc, List.filter_cons,
      if_pos hkept]
    rfl

theorem words_eq_nil {s : List α} (h : s.dropWhile blank = []) : words blank s = [] := by
  rw [← words_dropWhile, h, words_nil]

/-- The first word of a text that does not start with a blank. -/
theorem takeWhile_isWord {s : List α} (h : s.dropWhile blank ≠ []) :
    IsWord blank ((s.dropWhile blank).takeWhile (fun c => !blank c)) := by
  constructor
  · intro hnil
    obtain ⟨c,rest,hcons⟩ := List.exists_cons_of_ne_nil h
    have hc : blank c = false := by
      have hhead := List.head_dropWhile_not blank h
      simpa [hcons] using hhead
    rw [hcons, List.takeWhile_cons_of_pos (by simp [hc])] at hnil
    cases hnil
  · intro c hc
    simpa using List.mem_takeWhile_imp hc

theorem dropWhile_parted (s : List α) : Parted blank (s.dropWhile (fun c => !blank c)) := by
  intro c hc
  have hhead := List.head?_dropWhile_not (fun c => !blank c) s
  rw [hc] at hhead
  simpa using hhead

theorem words_cons {s : List α} (h : s.dropWhile blank ≠ []) : words blank s =
    (s.dropWhile blank).takeWhile (fun c => !blank c) ::
      words blank ((s.dropWhile blank).dropWhile (fun c => !blank c)) := by
  calc words blank s = words blank (s.dropWhile blank) := (words_dropWhile s).symm
    _ = words blank ((s.dropWhile blank).takeWhile (fun c => !blank c) ++
          (s.dropWhile blank).dropWhile (fun c => !blank c)) := by
        rw [List.takeWhile_append_dropWhile]
    _ = _ := words_word (takeWhile_isWord h) (dropWhile_parted _)

theorem words_blanks {g : List α} (hg : ∀ c ∈ g, blank c = true) (s : List α) :
    words blank (g ++ s) = words blank s := by
  induction g with
  | nil => rfl
  | cons c g ih =>
    rw [List.cons_append, words_blank (hg c List.mem_cons_self)]
    exact ih fun d hd => hg d (List.mem_cons_of_mem _ hd)

theorem dropWhile_ne_nil {s : List α} (h : words blank s ≠ []) : s.dropWhile blank ≠ [] :=
  fun hnil => h (words_eq_nil hnil)

theorem split_nil (n : ℕ) {s : List α} (h : s.dropWhile blank = []) : split blank n s = [] := by
  cases n <;> simp [split, h]

theorem split_succ (n : ℕ) {s : List α} (h : s.dropWhile blank ≠ []) : split blank (n+1) s =
    (s.dropWhile blank).takeWhile (fun c => !blank c) ::
      split blank n ((s.dropWhile blank).dropWhile (fun c => !blank c)) := by
  rw [split, if_neg (by simp [h])]

/-- Words that are no more than the splits are all taken off. -/
theorem split_few (n : ℕ) {s : List α} (h : (words blank s).length ≤ n) :
    split blank n s = words blank s := by
  induction n generalizing s with
  | zero =>
    have hnil := List.eq_nil_of_length_eq_zero (Nat.le_zero.mp h)
    have hdrop : s.dropWhile blank = [] := by
      by_contra hne
      rw [words_cons hne] at hnil
      cases hnil
    rw [split_nil 0 hdrop, hnil]
  | succ n ih =>
    by_cases hdrop : s.dropWhile blank = []
    · rw [split_nil _ hdrop, words_eq_nil hdrop]
    · rw [words_cons hdrop, List.length_cons] at h
      rw [split_succ n hdrop, words_cons hdrop, ih (by omega)]

/-- The text `m` is `s` from its word number `n` on, to the end. -/
structure From (blank : α → Bool) (n : ℕ) (s m : List α) : Prop where
  before : ∃ front, s = front ++ m ∧ words blank front = (words blank s).take n
  words : words blank m = (words blank s).drop n
  head : ∃ c, m.head? = some c ∧ blank c = false

/-- Of more words than splits, as many as the splits are taken off. -/
theorem split_many (n : ℕ) {s : List α} (h : n < (words blank s).length) :
    ∃ m, From blank n s m ∧ split blank n s = (words blank s).take n ++ [m] := by
  have hdrop : s.dropWhile blank ≠ [] := dropWhile_ne_nil (List.ne_nil_of_length_pos (by omega))
  have hgap : ∀ c ∈ s.takeWhile blank, blank c = true := fun c hc => List.mem_takeWhile_imp hc
  induction n generalizing s with
  | zero =>
    obtain ⟨c,rest,hcons⟩ := List.exists_cons_of_ne_nil hdrop
    have hc : blank c = false := by
      have hhead := List.head_dropWhile_not blank hdrop
      simpa [hcons] using hhead
    refine ⟨s.dropWhile blank,⟨⟨s.takeWhile blank,List.takeWhile_append_dropWhile.symm,?_⟩,
      words_dropWhile s,c,by rw [hcons]; rfl,hc⟩,by simp [split, hdrop]⟩
    have hall := words_blanks hgap []
    rw [List.append_nil] at hall
    exact hall
  | succ n ih =>
    have hword := takeWhile_isWord hdrop
    have hparted : Parted blank ((s.dropWhile blank).dropWhile (fun c => !blank c)) :=
      dropWhile_parted _
    have hcons := words_cons hdrop
    have hsplit := split_succ n hdrop
    have hs : s = s.takeWhile blank ++ ((s.dropWhile blank).takeWhile (fun c => !blank c) ++
        (s.dropWhile blank).dropWhile (fun c => !blank c)) := by
      rw [List.takeWhile_append_dropWhile, List.takeWhile_append_dropWhile]
    generalize (s.dropWhile blank).takeWhile (fun c => !blank c) = w at *
    generalize (s.dropWhile blank).dropWhile (fun c => !blank c) = rest at *
    rw [hcons, List.length_cons] at h
    have hrest : rest.dropWhile blank ≠ [] :=
      dropWhile_ne_nil (List.ne_nil_of_length_pos (by omega))
    obtain ⟨m,⟨⟨front,hfront,hwords⟩,hdropped,hhead⟩,hm⟩ :=
      ih (by omega) hrest fun c hc => List.mem_takeWhile_imp hc
    -- the front of the rest starts with the blank after the word
    have hfrontParted : Parted blank front := by
      intro c hc
      cases front with
      | nil => cases hc
      | cons d front =>
        refine hparted c ?_
        rw [hfront]
        exact hc
    refine ⟨m,⟨⟨s.takeWhile blank ++ (w ++ front),?_,?_⟩,?_,hhead⟩,?_⟩
    · rw [List.append_assoc, List.append_assoc, ← hfront]
      exact hs
    · rw [words_blanks hgap, words_word hword hfrontParted, hwords, hcons, List.take_succ_cons]
    · rw [hdropped, hcons, List.drop_succ_cons]
    · rw [hsplit, hm, hcons, List.take_succ_cons, List.cons_append]

theorem split_length (n : ℕ) (s : List α) :
    (split blank n s).length = min (n+1) (words blank s).length := by
  by_cases h : (words blank s).length ≤ n
  · rw [split_few n h]
    omega
  · obtain ⟨m,_,hm⟩ := split_many n (not_le.mp h)
    rw [hm, List.length_append, List.length_take, List.length_singleton]
    omega

/-- Words put together with one blank each, before a text that starts with
none, come apart again. -/
theorem split_join {sep : α} (hsep : blank sep = true) {ws : List (List α)}
    (hws : ∀ w ∈ ws, IsWord blank w) {m : List α} (hm : m.dropWhile blank = m) (hne : m ≠ []) :
    split blank ws.length (ws.flatMap (fun w => w ++ [sep]) ++ m) = ws ++ [m] := by
  have hdrop (w s : List α) (hw : IsWord blank w) : (w ++ s).dropWhile blank = w ++ s := by
    obtain ⟨c,w,rfl⟩ := List.exists_cons_of_ne_nil hw.1
    exact List.dropWhile_cons_of_neg (by simp [hw.2 c List.mem_cons_self])
  have hblank (n : ℕ) (s : List α) : split blank n (sep::s) = split blank n s := by
    cases n <;> simp [split, List.dropWhile_cons_of_pos hsep]
  induction ws with
  | nil => simp [split, hm, hne]
  | cons w ws ih =>
    have hw := hws w List.mem_cons_self
    have hcons : (w::ws).flatMap (fun w => w ++ [sep]) ++ m =
        w ++ sep::(ws.flatMap (fun w => w ++ [sep]) ++ m) := by simp
    have hnonempty : (w ++ sep::(ws.flatMap (fun w => w ++ [sep]) ++ m)).dropWhile blank ≠ [] := by
      rw [hdrop w _ hw]
      simp
    have htake : (w ++ sep::(ws.flatMap (fun w => w ++ [sep]) ++ m)).takeWhile (fun c => !blank c) =
        w := by
      rw [List.takeWhile_append_of_pos (by simpa using hw.2),
        List.takeWhile_cons_of_neg (by simp [hsep]), List.append_nil]
    have hrest : (w ++ sep::(ws.flatMap (fun w => w ++ [sep]) ++ m)).dropWhile (fun c => !blank c) =
        sep::(ws.flatMap (fun w => w ++ [sep]) ++ m) := by
      rw [List.dropWhile_append_of_pos (by simpa using hw.2),
        List.dropWhile_cons_of_neg (by simp [hsep])]
    rw [hcons, List.length_cons, split_succ _ hnonempty, hdrop w _ hw, htake, hrest, hblank,
      ih fun v hv => hws v (List.mem_cons_of_mem _ hv)]
    rfl

end PipelineX.Words
