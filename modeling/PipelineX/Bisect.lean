import Mathlib.Data.List.Basic
import Mathlib.Data.List.InsertIdx
import Mathlib.Data.List.Perm.Basic
import Mathlib.Order.Lattice
import Mathlib.Tactic.Common

/-!
# Bisection

The functions of Python's `bisect` module on a list, over any comparison. The
loop halves what lies between two places until nothing does. On a list in
ascending order it finds the border between the smaller elements and the rest.
-/

set_option autoImplicit false

namespace PipelineX.Bisect
variable {α : Type}

/-- The loop between `lo` and `hi`: the place is in the left part when `goLeft`
says so of the element in the middle. The first argument bounds the rounds. -/
def search (goLeft : α → Bool) (xs : List α) : ℕ → ℕ → ℕ → ℕ
  | 0, lo, _ => lo
  | rounds+1, lo, hi =>
    if lo < hi then
      match xs[(lo+hi)/2]? with
      | none => lo
      | some a =>
        if goLeft a then search goLeft xs rounds lo ((lo+hi)/2)
        else search goLeft xs rounds ((lo+hi)/2+1) hi
    else lo

def bisectLeft (lt : α → α → Bool) (xs : List α) (x : α) : ℕ :=
  search (fun a => !lt a x) xs xs.length 0 xs.length

def bisectRight (lt : α → α → Bool) (xs : List α) (x : α) : ℕ :=
  search (fun a => lt x a) xs xs.length 0 xs.length

/-- `bisect.insort`. -/
def insort (lt : α → α → Bool) (xs : List α) (x : α) : List α :=
  xs.insertIdx (bisectRight lt xs x) x

/-- The border: what is before it is not in the left part, the rest is. -/
structure Border (goLeft : α → Bool) (xs : List α) (p : ℕ) : Prop where
  le : p ≤ xs.length
  before : ∀ i a, i < p → xs[i]? = some a → goLeft a = false
  after : ∀ i a, p ≤ i → xs[i]? = some a → goLeft a = true

/-- Once an element is in the left part all after it are. -/
def Monotone (goLeft : α → Bool) (xs : List α) : Prop :=
  ∀ (i j : ℕ) (a b : α), i ≤ j → xs[i]? = some a → xs[j]? = some b → goLeft a = true →
    goLeft b = true

theorem search_border {goLeft : α → Bool} {xs : List α} (hmono : Monotone goLeft xs)
    (rounds lo hi : ℕ) (hlo : lo ≤ hi) (hhi : hi ≤ xs.length) (hrounds : hi-lo ≤ rounds)
    (hbefore : ∀ i a, i < lo → xs[i]? = some a → goLeft a = false)
    (hafter : ∀ i a, hi ≤ i → xs[i]? = some a → goLeft a = true) :
    Border goLeft xs (search goLeft xs rounds lo hi) := by
  induction rounds generalizing lo hi with
  | zero =>
    have heq : lo = hi := by omega
    subst heq
    exact ⟨hhi,hbefore,hafter⟩
  | succ rounds ih =>
    rw [search]
    split
    · next hlt =>
      have hmid : (lo+hi)/2 < xs.length := by omega
      rw [List.getElem?_eq_getElem hmid]
      dsimp only
      split
      · next hleft =>
        refine ih lo _ (by omega) (by omega) (by omega) hbefore fun i a hi' ha => ?_
        exact hmono _ i _ a hi' (List.getElem?_eq_getElem hmid) ha hleft
      · next hright =>
        refine ih _ hi (by omega) hhi (by omega) (fun i a hi' ha => ?_) hafter
        by_contra hleft
        rw [Bool.not_eq_false] at hleft
        exact hright (hmono i _ a _ (by omega) ha (List.getElem?_eq_getElem hmid) hleft)
    · next hge =>
      have heq : lo = hi := by omega
      subst heq
      exact ⟨hhi,hbefore,hafter⟩

/-- No later element is smaller. -/
def Ascending (lt : α → α → Bool) (xs : List α) : Prop := xs.Pairwise (fun a b => lt b a = false)

theorem Ascending.le {lt : α → α → Bool} {xs : List α} (h : Ascending lt xs) {i j : ℕ} {a b : α}
    (hij : i < j) (ha : xs[i]? = some a) (hb : xs[j]? = some b) : lt b a = false := by
  obtain ⟨hi,rfl⟩ := List.getElem?_eq_some_iff.mp ha
  obtain ⟨hj,rfl⟩ := List.getElem?_eq_some_iff.mp hb
  exact List.pairwise_iff_getElem.mp h i j hi hj hij

/-- The comparison is a linear order on the elements that `p` holds of. -/
structure Linear (lt : α → α → Bool) (p : α → Prop) : Prop where
  asymm : ∀ a b, p a → p b → lt a b = true → lt b a = false
  trans : ∀ a b c, p a → p b → p c → lt a b = false → lt b c = false → lt a c = false
  antisymm : ∀ a b, p a → p b → lt a b = false → lt b a = false → a = b

theorem Linear.imp {lt : α → α → Bool} {p q : α → Prop} (h : Linear lt p) (hq : ∀ a, q a → p a) :
    Linear lt q where
  asymm a b ha hb := h.asymm a b (hq a ha) (hq b hb)
  trans a b c ha hb hc := h.trans a b c (hq a ha) (hq b hb) (hq c hc)
  antisymm a b ha hb := h.antisymm a b (hq a ha) (hq b hb)

section
variable {lt : α → α → Bool} {p : α → Prop} {xs : List α} {x : α}

theorem Linear.irrefl (h : Linear lt p) {a : α} (ha : p a) : lt a a = false := by
  by_contra hlt
  rw [Bool.not_eq_false] at hlt
  exact absurd (h.asymm a a ha ha hlt) (by simp [hlt])

theorem border_left (h : Linear lt p) (hxs : ∀ a ∈ xs, p a) (hx : p x) (hasc : Ascending lt xs) :
    Border (fun a => !lt a x) xs (bisectLeft lt xs x) := by
  refine search_border ?_ _ 0 _ (Nat.zero_le _) (Nat.le_refl _) (by omega)
    (fun i a hi => absurd hi (Nat.not_lt_zero i)) (fun i a hi ha => ?_)
  · intro i j a b hij ha hb hax
    simp only [Bool.not_eq_true'] at hax ⊢
    rcases Nat.lt_or_eq_of_le hij with hlt | rfl
    · exact h.trans b a x (hxs b (List.mem_of_getElem? hb)) (hxs a (List.mem_of_getElem? ha)) hx
        (hasc.le hlt ha hb) hax
    · rw [ha] at hb
      exact Option.some.inj hb ▸ hax
  · rw [List.getElem?_eq_none hi] at ha
    cases ha

theorem border_right (h : Linear lt p) (hxs : ∀ a ∈ xs, p a) (hx : p x) (hasc : Ascending lt xs) :
    Border (fun a => lt x a) xs (bisectRight lt xs x) := by
  refine search_border ?_ _ 0 _ (Nat.zero_le _) (Nat.le_refl _) (by omega)
    (fun i a hi => absurd hi (Nat.not_lt_zero i)) (fun i a hi ha => ?_)
  · intro i j a b hij ha hb hax
    rcases Nat.lt_or_eq_of_le hij with hlt | rfl
    · by_contra hxb
      rw [Bool.not_eq_true] at hxb
      have hxa := h.trans x b a hx (hxs b (List.mem_of_getElem? hb))
        (hxs a (List.mem_of_getElem? ha)) hxb (hasc.le hlt ha hb)
      exact absurd hax (by simp [hxa])
    · rw [ha] at hb
      exact Option.some.inj hb ▸ hax
  · rw [List.getElem?_eq_none hi] at ha
    cases ha

/-- Bisection finds an element that is there. -/
theorem bisectLeft_mem (h : Linear lt p) (hxs : ∀ a ∈ xs, p a) (hasc : Ascending lt xs)
    (hmem : x ∈ xs) : xs[bisectLeft lt xs x]? = some x := by
  have hx := hxs x hmem
  have hborder := border_left h hxs hx hasc
  obtain ⟨i,hi⟩ := List.mem_iff_getElem?.mp hmem
  have hle : bisectLeft lt xs x ≤ i := by
    by_contra hlt
    have hfalse := hborder.before i x (Nat.lt_of_not_le hlt) hi
    simp [h.irrefl hx] at hfalse
  have hlen : i < xs.length := (List.getElem?_eq_some_iff.mp hi).1
  have hget := List.getElem?_eq_getElem (l := xs) (Nat.lt_of_le_of_lt hle hlen)
  have hleft := hborder.after _ _ (Nat.le_refl _) hget
  simp only [Bool.not_eq_true'] at hleft
  rcases Nat.lt_or_eq_of_le hle with hlt | heq
  · rw [hget, h.antisymm _ x (hxs _ (List.getElem_mem _)) hx hleft (hasc.le hlt hget hi)]
  · rw [heq]
    exact hi

theorem insertIdx_split {k : ℕ} (hk : k ≤ xs.length) :
    xs.insertIdx k x = xs.take k ++ x::xs.drop k := by
  induction k generalizing xs with
  | zero => simp
  | succ k ih =>
    cases xs with
    | nil => simp at hk
    | cons a xs =>
      rw [List.insertIdx_succ_cons, ih (by simpa using hk)]
      rfl

/-- The loop ends where it may, in whatever order the elements are. -/
theorem search_le (goLeft : α → Bool) (rounds : ℕ) {lo hi : ℕ} (h : lo ≤ hi) :
    search goLeft xs rounds lo hi ≤ hi := by
  induction rounds generalizing lo hi with
  | zero => exact h
  | succ rounds ih =>
    rw [search]
    split
    · next hlt =>
      split
      · exact h
      · split
        · exact Nat.le_trans (ih (by omega)) (by omega)
        · exact ih (by omega)
    · exact h

theorem insort_perm (lt : α → α → Bool) (xs : List α) (x : α) : (insort lt xs x).Perm (x::xs) :=
  List.perm_insertIdx x xs (search_le _ _ (Nat.zero_le _))

/-- Inserting keeps the order. -/
theorem insort_ascending (h : Linear lt p) (hxs : ∀ a ∈ xs, p a) (hx : p x)
    (hasc : Ascending lt xs) : Ascending lt (insort lt xs x) := by
  have hborder := border_right h hxs hx hasc
  have hbefore : ∀ a ∈ xs.take (bisectRight lt xs x), lt x a = false := by
    intro a ha
    obtain ⟨i,hi,rfl⟩ := List.mem_take_iff_getElem.mp ha
    exact hborder.before i _ (by omega) (List.getElem?_eq_getElem _)
  have hafter : ∀ b ∈ xs.drop (bisectRight lt xs x), lt b x = false := by
    intro b hb
    obtain ⟨i,hi,rfl⟩ := List.mem_drop_iff_getElem.mp hb
    have hlt := hborder.after _ _ (Nat.le_add_right _ i) (List.getElem?_eq_getElem (by omega))
    exact h.asymm x _ hx (hxs _ (List.getElem_mem _)) hlt
  unfold Ascending at hasc
  rw [← List.take_append_drop (bisectRight lt xs x) xs, List.pairwise_append] at hasc
  obtain ⟨hfront,hback,hcross⟩ := hasc
  unfold Ascending insort
  rw [insertIdx_split hborder.le, List.pairwise_append, List.pairwise_cons]
  refine ⟨hfront,⟨hafter,hback⟩,fun a ha b hb => ?_⟩
  rcases List.mem_cons.mp hb with rfl | hb
  · exact hbefore a ha
  · exact hcross a ha b hb

end

section
variable [LinearOrder α]

theorem linear_lt : Linear (fun x y : α => x < y) (fun _ => True) where
  asymm _ _ _ _ h := decide_eq_false (lt_asymm (of_decide_eq_true h))
  trans _ _ _ _ _ _ h h' := decide_eq_false
    (not_lt.mpr (le_trans (not_lt.mp (of_decide_eq_false h')) (not_lt.mp (of_decide_eq_false h))))
  antisymm _ _ _ _ h h' := le_antisymm (not_lt.mp (of_decide_eq_false h'))
    (not_lt.mp (of_decide_eq_false h))

theorem ascending_lt {xs : List α} :
    Ascending (fun x y => x < y) xs ↔ xs.Pairwise (· ≤ ·) := by
  apply List.Pairwise.iff
  intro a b
  exact decide_eq_false_iff_not.trans not_lt

end
end PipelineX.Bisect
