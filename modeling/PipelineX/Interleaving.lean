import Mathlib

/-!
# Interleaving sequences

One item after the other is taken from sequences that are not used up, in an
order that picks decide. A sequence is given in its own order, and the taking
ends when nothing is left, not before.
-/

set_option autoImplicit false

namespace PipelineX.Interleaving

/-- A choice from a list, if there is anything in it. -/
def choice {α : Type} (xs : List α) (draw : ℕ) : Option α := xs[draw%xs.length]?

theorem choice_mem {α : Type} {xs : List α} {draw : ℕ} {x : α} (h : choice xs draw = some x) :
    x ∈ xs := List.mem_of_getElem? h

theorem choice_eq_none {α : Type} {xs : List α} {draw : ℕ} : choice xs draw = none ↔ xs = [] := by
  rw [choice, List.getElem?_eq_none_iff]
  constructor
  · intro h
    by_contra hne
    exact absurd (Nat.mod_lt draw (List.length_pos_of_ne_nil hne)) (Nat.not_lt.mpr h)
  · rintro rfl
    exact Nat.zero_le _

variable {α : Type} (sequences : List (List α))

/-- The sequences in which something is left, and how far each has been taken. -/
def active (cursors : List ℕ) : List ℕ :=
  (List.range cursors.length).filter
    (fun i => cursors.getD i 0 < (sequences.getD i []).length)

/-- The next item, and whose it is. -/
def advance (cursors : List ℕ) (draw : ℕ) : Option ((ℕ × α) × List ℕ) := do
  let idx ← choice (active sequences cursors) draw
  let item ← (sequences.getD idx [])[cursors.getD idx 0]?
  pure ((idx,item),cursors.set idx (cursors.getD idx 0+1))

/-- The items that are taken, up to the last pick or until nothing is left. -/
def interleave : List ℕ → List ℕ → List (ℕ × α) × List ℕ
  | cursors, [] => ([],cursors)
  | cursors, draw::draws =>
    match advance sequences cursors draw with
    | none => ([],cursors)
    | some (taken,cursors') =>
      let (rest,final) := interleave cursors' draws
      (taken::rest,final)

/-- What was taken from a sequence. -/
def share (taken : List (ℕ × α)) (j : ℕ) : List α :=
  (taken.filter (fun p => p.1 = j)).map Prod.snd

/-- How many items are left. -/
def left (cursors : List ℕ) : ℕ :=
  ∑ i ∈ Finset.range cursors.length, ((sequences.getD i []).length - cursors.getD i 0)

section
variable {sequences : List (List α)} {cursors : List ℕ}

theorem mem_active {i : ℕ} : i ∈ active sequences cursors ↔
    i < cursors.length ∧ cursors.getD i 0 < (sequences.getD i []).length := by
  simp [active]

theorem advance_some {draw : ℕ} {taken : ℕ × α} {cursors' : List ℕ}
    (h : advance sequences cursors draw = some (taken,cursors')) :
    taken.1 < cursors.length ∧
      (sequences.getD taken.1 [])[cursors.getD taken.1 0]? = some taken.2 ∧
      cursors' = cursors.set taken.1 (cursors.getD taken.1 0+1) := by
  obtain ⟨idx,hidx,h⟩ := Option.bind_eq_some_iff.mp h
  obtain ⟨item,hitem,h⟩ := Option.bind_eq_some_iff.mp h
  cases h
  exact ⟨(mem_active.mp (choice_mem hidx)).1,hitem,rfl⟩

/-- There is a next item as long as something is left. -/
theorem advance_none {draw : ℕ} : advance sequences cursors draw = none ↔
    active sequences cursors = [] := by
  constructor
  · intro h
    cases hidx : choice (active sequences cursors) draw with
    | none => exact choice_eq_none.mp hidx
    | some idx =>
      have hlt := (mem_active.mp (choice_mem hidx)).2
      rw [advance, hidx, Option.bind_eq_bind, Option.bind_some,
        List.getElem?_eq_getElem hlt] at h
      cases h
  · intro h
    rw [advance, choice_eq_none.mpr h]
    rfl

theorem active_nil : active sequences cursors = [] ↔ left sequences cursors = 0 := by
  rw [left, Finset.sum_eq_zero_iff, List.eq_nil_iff_forall_not_mem]
  simp only [mem_active, Finset.mem_range]
  constructor
  · intro h i hi
    have := h i
    omega
  · rintro h i ⟨hi,hlt⟩
    have := h i hi
    omega

theorem getD_set (i j v : ℕ) (hi : i < cursors.length) :
    (cursors.set i v).getD j 0 = if i = j then v else cursors.getD j 0 := by
  by_cases hij : i = j
  · subst hij
    simp [hi]
  · simp [List.getElem?_set_ne hij, hij]

theorem left_advance {draw : ℕ} {taken : ℕ × α} {cursors' : List ℕ}
    (h : advance sequences cursors draw = some (taken,cursors')) :
    left sequences cursors = left sequences cursors'+1 := by
  obtain ⟨hlt,hitem,rfl⟩ := advance_some h
  obtain ⟨hin,_⟩ := List.getElem?_eq_some_iff.mp hitem
  have hmem := Finset.mem_range.mpr hlt
  rw [left, left, List.length_set, ← Finset.add_sum_erase _ _ hmem,
    ← Finset.add_sum_erase (Finset.range cursors.length) (fun i =>
      (sequences.getD i []).length - (cursors.set taken.1 _).getD i 0) hmem]
  have hothers : ∀ i ∈ (Finset.range cursors.length).erase taken.1,
      (sequences.getD i []).length - (cursors.set taken.1 (cursors.getD taken.1 0+1)).getD i 0 =
        (sequences.getD i []).length - cursors.getD i 0 := by
    intro i hi
    rw [getD_set _ _ _ hlt, if_neg (Finset.ne_of_mem_erase hi).symm]
  rw [Finset.sum_congr rfl hothers, getD_set _ _ _ hlt, if_pos rfl]
  omega

theorem start_getD (n i : ℕ) : (List.replicate n 0).getD i 0 = 0 := by
  rw [List.getD_eq_getElem?_getD, List.getElem?_replicate]
  split <;> rfl

/-- Before anything is taken, everything is left. -/
theorem left_start (sequences : List (List α)) :
    left sequences (List.replicate sequences.length 0) = (sequences.map List.length).sum := by
  simp only [left, List.length_replicate, start_getD, Nat.sub_zero]
  induction sequences with
  | nil => rfl
  | cons s rest ih => simp [Finset.sum_range_succ', ← ih, Nat.add_comm]

/-- The picks are used up, or nothing is left. -/
theorem interleave_length (cursors draws : List ℕ) :
    (interleave sequences cursors draws).1.length =
      min draws.length (left sequences cursors) := by
  induction draws generalizing cursors with
  | nil => simp [interleave]
  | cons draw draws ih =>
    rw [interleave]
    cases hadv : advance sequences cursors draw with
    | none => simp [active_nil.mp (advance_none.mp hadv)]
    | some p => simp [ih, left_advance hadv]

theorem share_cons (p : ℕ × α) (taken : List (ℕ × α)) (j : ℕ) :
    share (p::taken) j = if p.1 = j then p.2::share taken j else share taken j := by
  by_cases hj : p.1 = j <;> simp [share, hj]

theorem take_next {s : List α} {n : ℕ} {x : α} (h : s[n]? = some x) :
    s.take n ++ [x] = s.take (n+1) := by
  rw [List.take_add_one, h]
  rfl

variable (sequences) in
/-- A sequence is taken in its order. -/
theorem interleave_share (cursors draws : List ℕ) (j : ℕ) :
    (sequences.getD j []).take (cursors.getD j 0) ++
        share (interleave sequences cursors draws).1 j =
      (sequences.getD j []).take ((interleave sequences cursors draws).2.getD j 0) := by
  induction draws generalizing cursors with
  | nil => simp [interleave, share]
  | cons draw draws ih =>
    rw [interleave]
    cases hadv : advance sequences cursors draw with
    | none => simp [share]
    | some p =>
      obtain ⟨hlt,hitem,hcursors⟩ := advance_some hadv
      dsimp only
      rw [← ih p.2, share_cons, hcursors, getD_set _ _ _ hlt]
      by_cases hj : p.1.1 = j
      · subst hj
        rw [if_pos rfl, if_pos rfl, ← take_next hitem, List.append_assoc]
        rfl
      · rw [if_neg hj, if_neg hj]

variable (sequences) in
theorem interleave_left (cursors draws : List ℕ) :
    left sequences cursors = (interleave sequences cursors draws).1.length +
      left sequences (interleave sequences cursors draws).2 := by
  induction draws generalizing cursors with
  | nil => simp [interleave]
  | cons draw draws ih =>
    rw [interleave]
    cases hadv : advance sequences cursors draw with
    | none => simp
    | some p =>
      dsimp only
      rw [left_advance hadv, ih p.2, List.length_cons, Nat.add_right_comm]

theorem interleave_cursors (cursors draws : List ℕ) :
    (interleave sequences cursors draws).2.length = cursors.length := by
  induction draws generalizing cursors with
  | nil => rfl
  | cons draw draws ih =>
    rw [interleave]
    cases hadv : advance sequences cursors draw with
    | none => rfl
    | some p =>
      obtain ⟨_,_,hcursors⟩ := advance_some hadv
      rw [ih p.2, hcursors, List.length_set]

variable (sequences) in
/-- With a pick for every item, each sequence is taken to its end. -/
theorem interleave_complete {draws : List ℕ} (h : left sequences cursors ≤ draws.length)
    {j : ℕ} (hj : j < cursors.length) : (sequences.getD j []).take
      ((interleave sequences cursors draws).2.getD j 0) = sequences.getD j [] := by
  have hleft := interleave_left sequences cursors draws
  have hzero : left sequences (interleave sequences cursors draws).2 = 0 := by
    rw [interleave_length, Nat.min_eq_right h] at hleft
    omega
  rw [left, Finset.sum_eq_zero_iff] at hzero
  have := hzero j (Finset.mem_range.mpr (by rw [interleave_cursors]; exact hj))
  exact List.take_of_length_le (by omega)

end
end PipelineX.Interleaving
