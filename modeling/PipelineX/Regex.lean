import Mathlib.Data.List.TakeWhile
import Mathlib.Data.List.Forall2
import Mathlib.Data.List.Basic
import Mathlib.Tactic.Common

/-!
# Backtracking regular expressions

Patterns in which only character classes are repeated. Running a pattern
lists what it can match from a place on, in the order in which a backtracking
engine tries it, so the match it reports is the first of the list. What is in
the list is read off the pattern without regard to that order.
-/

set_option autoImplicit false

namespace PipelineX

inductive Regex where
  | empty
  | one (p : Char → Bool)
  | many (greedy : Bool) (least : ℕ) (most : Option ℕ) (p : Char → Bool)
  | seq (r t : Regex)
  | alt (r t : Regex)
  | group (name : String) (r : Regex)
  | start
  | finish

namespace Regex

/-- A match: what it consumed, the groups in it and what comes after it. -/
structure Found where
  word : List Char
  groups : List (String × List Char)
  rest : List Char
  deriving DecidableEq, Repr

/-- The last assignment of a group counts. -/
def Found.group? (a : Found) (name : String) : Option (List Char) :=
  (a.groups.reverse.find? (fun g => g.1 = name)).map Prod.snd

/-- How often a class can be repeated, from the least to the most. -/
def counts (least : ℕ) (most : Option ℕ) (p : Char → Bool) (s : List Char) : List ℕ :=
  let run := (s.takeWhile p).length
  List.range' least (most.elim run (min run)+1-least)

/-- The matches of a pattern from a place `n` characters into the text on,
with `s` ahead. `finish` also stands before one newline at the end. -/
def run : Regex → ℕ → List Char → List Found
  | .empty, _, s => [⟨[],[],s⟩]
  | .one _, _, [] => []
  | .one p, _, c::s => if p c then [⟨[c],[],s⟩] else []
  | .many greedy least most p, _, s =>
    let counts := counts least most p s
    (if greedy then counts.reverse else counts).map (fun k => ⟨s.take k,[],s.drop k⟩)
  | .seq r t, n, s => (r.run n s).flatMap (fun a => (t.run (n+a.word.length) a.rest).map
      (fun b => ⟨a.word ++ b.word,a.groups ++ b.groups,b.rest⟩))
  | .alt r t, n, s => r.run n s ++ t.run n s
  | .group name r, n, s => (r.run n s).map
      (fun a => { a with groups := a.groups ++ [(name,a.word)] })
  | .start, n, s => if n = 0 then [⟨[],[],s⟩] else []
  | .finish, _, s => if s = [] ∨ s = ['\n'] then [⟨[],[],s⟩] else []

/-- `re.match`. -/
def «match» (r : Regex) (s : List Char) : Option Found := (r.run 0 s).head?

/-- `re.search`, from `n` characters into the text on. -/
def search (r : Regex) : ℕ → List Char → Option Found
  | n, [] => (r.run n []).head?
  | n, c::s =>
    match (r.run n (c::s)).head? with
    | some a => some a
    | none => search r (n+1) s

/-- Patterns one after the other. -/
def cat (rs : List Regex) : Regex := rs.foldr .seq .empty

/-- A text that stands for itself. -/
def text (s : String) : Regex := cat (s.toList.map (fun c => .one (· = c)))

/-- One character of each class in turn. -/
def classes (ps : List (Char → Bool)) : Regex := cat (ps.map .one)

/-- Alternatives that are made of classes. -/
def anyOf : List (Char → Bool) → List (List (Char → Bool)) → Regex
  | ps, [] => classes ps
  | ps, qs::rest => .alt (classes ps) (anyOf qs rest)

/-- The pattern can match `w` when `rest` comes after it. -/
def Yields (r : Regex) (n : ℕ) (w : List Char) (g : List (String × List Char))
    (rest : List Char) : Prop := ⟨w,g,rest⟩ ∈ r.run n (w ++ rest)

theorem run_split (r : Regex) (n : ℕ) (s : List Char) :
    ∀ a ∈ r.run n s, a.word ++ a.rest = s := by
  induction r generalizing n s with
  | empty => simp [run]
  | one p =>
    intro a ha
    cases s with
    | nil => simp [run] at ha
    | cons c s =>
      rw [run, List.mem_ite_nil_right, List.mem_singleton] at ha
      rw [ha.2]
      rfl
  | many greedy least most p =>
    intro a ha
    rw [run] at ha
    obtain ⟨k,_,rfl⟩ := List.mem_map.mp ha
    exact List.take_append_drop k s
  | seq r t ihr iht =>
    intro a ha
    obtain ⟨b,hb,ha⟩ := List.mem_flatMap.mp ha
    obtain ⟨c,hc,rfl⟩ := List.mem_map.mp ha
    rw [List.append_assoc, iht _ _ c hc, ihr _ _ b hb]
  | alt r t ihr iht =>
    intro a ha
    rcases List.mem_append.mp ha with ha | ha
    · exact ihr n s a ha
    · exact iht n s a ha
  | group name r ih =>
    intro a ha
    obtain ⟨b,hb,rfl⟩ := List.mem_map.mp ha
    exact ih n s b hb
  | start =>
    intro a ha
    rw [run, List.mem_ite_nil_right, List.mem_singleton] at ha
    rw [ha.2]
    rfl
  | finish =>
    intro a ha
    rw [run, List.mem_ite_nil_right, List.mem_singleton] at ha
    rw [ha.2]
    rfl

theorem mem_run {r : Regex} {n : ℕ} {s : List Char} {a : Found} :
    a ∈ r.run n s ↔ s = a.word ++ a.rest ∧ r.Yields n a.word a.groups a.rest := by
  constructor
  · intro h
    have hs := run_split r n s a h
    refine ⟨hs.symm,?_⟩
    unfold Yields
    rw [hs]
    exact h
  · rintro ⟨rfl,h⟩
    exact h

theorem match_isSome {r : Regex} {s : List Char} :
    (r.match s).isSome = true ↔ ∃ w g rest, s = w ++ rest ∧ r.Yields 0 w g rest := by
  rw [Regex.match, List.isSome_head?]
  constructor
  · intro hne
    obtain ⟨a,ha⟩ := List.exists_mem_of_ne_nil _ hne
    obtain ⟨hs,hy⟩ := mem_run.mp ha
    exact ⟨a.word,a.groups,a.rest,hs,hy⟩
  · rintro ⟨w,g,rest,hs,hy⟩
    have ha : (⟨w,g,rest⟩ : Found) ∈ r.run 0 s := mem_run.mpr ⟨hs,hy⟩
    exact List.ne_nil_of_mem ha

section
variable {n : ℕ} {w rest : List Char} {g : List (String × List Char)}

/-- Nothing was consumed. -/
theorem mem_here : (⟨w,g,rest⟩ : Found) ∈ [⟨[],[],w ++ rest⟩] ↔ w = [] ∧ g = [] := by
  rw [List.mem_singleton, Found.mk.injEq]
  constructor
  · rintro ⟨hw,hg,_⟩
    exact ⟨hw,hg⟩
  · rintro ⟨rfl,rfl⟩
    exact ⟨rfl,rfl,rfl⟩

@[simp] theorem yields_empty : Regex.empty.Yields n w g rest ↔ w = [] ∧ g = [] := mem_here

@[simp] theorem yields_one {p : Char → Bool} :
    (one p).Yields n w g rest ↔ g = [] ∧ ∃ c, w = [c] ∧ p c = true := by
  cases w with
  | nil =>
    cases rest with
    | nil => simp [Yields, run]
    | cons c s => by_cases hc : p c = true <;> simp [Yields, run, hc]
  | cons c w =>
    by_cases hc : p c = true
    · simp only [Yields, run, List.cons_append, hc, if_true, List.mem_singleton, Found.mk.injEq,
        List.cons.injEq, true_and]
      constructor
      · rintro ⟨rfl,rfl,_⟩
        exact ⟨rfl,c,⟨rfl,rfl⟩,hc⟩
      · rintro ⟨rfl,d,⟨rfl,rfl⟩,_⟩
        exact ⟨rfl,rfl,rfl⟩
    · simp only [Yields, run, List.cons_append, hc, Bool.false_eq_true, if_false,
        List.not_mem_nil, false_iff]
      rintro ⟨_,d,hd,hp⟩
      exact hc ((List.cons.inj hd).1 ▸ hp)

/-- How far a class reaches into a text. -/
theorem le_takeWhile_length {p : Char → Bool} {k : ℕ} {s : List Char} :
    k ≤ (s.takeWhile p).length ↔ k ≤ s.length ∧ ∀ c ∈ s.take k, p c = true := by
  constructor
  · intro h
    have hpre := List.takeWhile_prefix (l := s) p
    refine ⟨h.trans hpre.length_le,fun c hc => ?_⟩
    obtain ⟨t,ht⟩ := hpre
    rw [← ht, List.take_append_of_le_length h] at hc
    exact List.mem_takeWhile_imp (List.mem_of_mem_take hc)
  · rintro ⟨hk,hp⟩
    conv_rhs => rw [← List.take_append_drop k s, List.takeWhile_append_of_pos hp]
    rw [List.length_append, List.length_take]
    omega

@[simp] theorem yields_many {greedy : Bool} {least : ℕ} {most : Option ℕ} {p : Char → Bool} :
    (many greedy least most p).Yields n w g rest ↔
      g = [] ∧ (∀ c ∈ w, p c = true) ∧ least ≤ w.length ∧ ∀ m, most = some m → w.length ≤ m := by
  have hmem (k : ℕ) : k ∈ counts least most p (w ++ rest) ↔
      least ≤ k ∧ k ≤ ((w ++ rest).takeWhile p).length ∧ ∀ m, most = some m → k ≤ m := by
    rw [counts, List.mem_range'_1]
    cases most with
    | none => simp; omega
    | some m => simp; omega
  have hrun : (many greedy least most p).Yields n w g rest ↔
      ∃ k ∈ counts least most p (w ++ rest),
        (⟨(w ++ rest).take k,[],(w ++ rest).drop k⟩ : Found) = ⟨w,g,rest⟩ := by
    simp only [Yields, run, List.mem_map]
    cases greedy <;> simp
  rw [hrun]
  constructor
  · rintro ⟨k,hk,he⟩
    obtain ⟨hlow,hrun,hhigh⟩ := (hmem k).mp hk
    obtain ⟨hw,hg,_⟩ := Found.mk.inj he
    obtain ⟨hlen,hp⟩ := le_takeWhile_length.mp hrun
    have hkw : w.length = k := by
      rw [← hw, List.length_take]
      omega
    rw [hw] at hp
    exact ⟨hg.symm,hp,by omega,fun m hm => by have := hhigh m hm; omega⟩
  · rintro ⟨rfl,hp,hlow,hhigh⟩
    refine ⟨w.length,(hmem _).mpr ⟨hlow,?_,hhigh⟩,by simp⟩
    exact le_takeWhile_length.mpr ⟨by simp,by simpa using hp⟩

theorem yields_seq {r t : Regex} : (seq r t).Yields n w g rest ↔
    ∃ w₁ w₂ g₁ g₂, w = w₁ ++ w₂ ∧ g = g₁ ++ g₂ ∧ r.Yields n w₁ g₁ (w₂ ++ rest) ∧
      t.Yields (n+w₁.length) w₂ g₂ rest := by
  constructor
  · intro h
    obtain ⟨a,ha,h⟩ := List.mem_flatMap.mp h
    obtain ⟨b,hb,he⟩ := List.mem_map.mp h
    obtain ⟨hw,hg,hrest⟩ := Found.mk.inj he
    obtain ⟨_,hr⟩ := mem_run.mp ha
    obtain ⟨hsplit,ht⟩ := mem_run.mp hb
    rw [hsplit, hrest] at hr
    rw [hrest] at ht
    exact ⟨a.word,b.word,a.groups,b.groups,hw.symm,hg.symm,hr,ht⟩
  · rintro ⟨w₁,w₂,g₁,g₂,rfl,rfl,hr,ht⟩
    refine List.mem_flatMap.mpr ⟨⟨w₁,g₁,w₂ ++ rest⟩,?_,?_⟩
    · rw [List.append_assoc]
      exact hr
    · exact List.mem_map.mpr ⟨⟨w₂,g₂,rest⟩,ht,rfl⟩

@[simp] theorem yields_alt {r t : Regex} :
    (alt r t).Yields n w g rest ↔ r.Yields n w g rest ∨ t.Yields n w g rest :=
  List.mem_append

@[simp] theorem yields_group {name : String} {r : Regex} : (group name r).Yields n w g rest ↔
    ∃ g', g = g' ++ [(name,w)] ∧ r.Yields n w g' rest := by
  constructor
  · intro h
    obtain ⟨⟨w',g',rest'⟩,ha,he⟩ := List.mem_map.mp h
    obtain ⟨rfl,rfl,rfl⟩ := Found.mk.inj he
    exact ⟨g',rfl,ha⟩
  · rintro ⟨g',rfl,h⟩
    exact List.mem_map.mpr ⟨⟨w,g',rest⟩,h,rfl⟩

@[simp] theorem yields_start : start.Yields n w g rest ↔ w = [] ∧ g = [] ∧ n = 0 := by
  by_cases hn : n = 0
  · simp only [Yields, run, hn, if_true, and_true]
    exact mem_here
  · simp [Yields, run, hn]

@[simp] theorem yields_finish : finish.Yields n w g rest ↔
    w = [] ∧ g = [] ∧ (rest = [] ∨ rest = ['\n']) := by
  by_cases hs : w ++ rest = [] ∨ w ++ rest = ['\n']
  · simp only [Yields, run, hs, if_true]
    refine mem_here.trans ⟨?_,fun h => ⟨h.1,h.2.1⟩⟩
    rintro ⟨rfl,rfl⟩
    exact ⟨rfl,rfl,hs⟩
  · simp only [Yields, run, hs, if_false, List.not_mem_nil, false_iff]
    rintro ⟨rfl,_,h⟩
    exact hs h

end

theorem yields_cat_cons {r : Regex} {rs : List Regex} {n : ℕ} {w rest : List Char}
    {g : List (String × List Char)} : (cat (r::rs)).Yields n w g rest ↔
    ∃ w₁ w₂ g₁ g₂, w = w₁ ++ w₂ ∧ g = g₁ ++ g₂ ∧ r.Yields n w₁ g₁ (w₂ ++ rest) ∧
      (cat rs).Yields (n+w₁.length) w₂ g₂ rest :=
  yields_seq

@[simp] theorem yields_classes {ps : List (Char → Bool)} {n : ℕ} {w rest : List Char}
    {g : List (String × List Char)} :
    (classes ps).Yields n w g rest ↔ g = [] ∧ List.Forall₂ (fun p c => p c = true) ps w := by
  induction ps generalizing n w g with
  | nil =>
    rw [List.forall₂_nil_left_iff, and_comm]
    exact yields_empty
  | cons p ps ih =>
    rw [classes, List.map_cons, yields_cat_cons]
    constructor
    · rintro ⟨w₁,w₂,g₁,g₂,rfl,rfl,h₁,h₂⟩
      obtain ⟨rfl,c,rfl,hc⟩ := yields_one.mp h₁
      obtain ⟨rfl,hps⟩ := ih.mp h₂
      exact ⟨rfl,.cons hc hps⟩
    · rintro ⟨rfl,h⟩
      cases h with
      | cons hc hps =>
        exact ⟨_,_,[],[],rfl,rfl,yields_one.mpr ⟨rfl,_,rfl,hc⟩,ih.mpr ⟨rfl,hps⟩⟩

theorem run_anyOf (ps : List (Char → Bool)) (rest : List (List (Char → Bool))) (n : ℕ)
    (s : List Char) :
    (anyOf ps rest).run n s = (ps::rest).flatMap (fun qs => (classes qs).run n s) := by
  induction rest generalizing ps with
  | nil => simp [anyOf]
  | cons qs rest ih =>
    rw [anyOf, run, ih]
    rfl

@[simp] theorem yields_anyOf {ps : List (Char → Bool)} {qss : List (List (Char → Bool))} {n : ℕ}
    {w rest : List Char} {g : List (String × List Char)} : (anyOf ps qss).Yields n w g rest ↔
      g = [] ∧ ∃ qs ∈ ps::qss, List.Forall₂ (fun p c => p c = true) qs w := by
  rw [Yields, run_anyOf, List.mem_flatMap]
  constructor
  · rintro ⟨qs,hqs,h⟩
    obtain ⟨hg,hw⟩ := yields_classes.mp h
    exact ⟨hg,qs,hqs,hw⟩
  · rintro ⟨hg,qs,hqs,hw⟩
    exact ⟨qs,hqs,yields_classes.mpr ⟨hg,hw⟩⟩

theorem yields_literal (cs : List Char) {n : ℕ} {w rest : List Char}
    {g : List (String × List Char)} :
    (cat (cs.map (fun c => one (· = c)))).Yields n w g rest ↔ w = cs ∧ g = [] := by
  induction cs generalizing n w g with
  | nil => exact yields_empty
  | cons c cs ih =>
    rw [List.map_cons, yields_cat_cons]
    constructor
    · rintro ⟨w₁,w₂,g₁,g₂,rfl,rfl,h₁,h₂⟩
      obtain ⟨rfl,d,rfl,hd⟩ := yields_one.mp h₁
      obtain ⟨rfl,rfl⟩ := ih.mp h₂
      exact ⟨by rw [of_decide_eq_true hd]; rfl,rfl⟩
    · rintro ⟨rfl,rfl⟩
      exact ⟨[c],cs,[],[],rfl,rfl,yields_one.mpr ⟨rfl,c,rfl,decide_eq_true rfl⟩,
        ih.mpr ⟨rfl,rfl⟩⟩

@[simp] theorem yields_text {s : String} {n : ℕ} {w rest : List Char}
    {g : List (String × List Char)} : (text s).Yields n w g rest ↔ w = s.toList ∧ g = [] :=
  yields_literal s.toList

/-- The match that is tried before all others. -/
def First (r : Regex) (n : ℕ) (s : List Char) (a : Found) : Prop := (r.run n s).head? = some a

theorem First.mem {r : Regex} {n : ℕ} {s : List Char} {a : Found} (h : First r n s a) :
    a ∈ r.run n s :=
  List.mem_of_head? h

/-- When there is but one match it is the first. -/
theorem first_of_unique {r : Regex} {n : ℕ} {s : List Char} {a : Found} (ha : a ∈ r.run n s)
    (h : ∀ b ∈ r.run n s, b = a) : First r n s a := by
  unfold First
  cases hr : r.run n s with
  | nil =>
    rw [hr] at ha
    cases ha
  | cons b bs => rw [List.head?_cons, h b (hr ▸ List.mem_cons_self)]

theorem first_empty (n : ℕ) (s : List Char) : First .empty n s ⟨[],[],s⟩ := rfl

theorem First.seq {r t : Regex} {n : ℕ} {s : List Char} {a b : Found} (ha : First r n s a)
    (hb : First t (n+a.word.length) a.rest b) :
    First (.seq r t) n s ⟨a.word ++ b.word,a.groups ++ b.groups,b.rest⟩ := by
  unfold First at *
  obtain ⟨as,has⟩ := List.head?_eq_some_iff.mp ha
  obtain ⟨bs,hbs⟩ := List.head?_eq_some_iff.mp hb
  rw [run, has, List.flatMap_cons, hbs]
  rfl

theorem First.group {r : Regex} {n : ℕ} {s : List Char} {a : Found} (ha : First r n s a)
    (name : String) :
    First (.group name r) n s { a with groups := a.groups ++ [(name,a.word)] } := by
  unfold First at *
  rw [run, List.head?_map, ha]
  rfl

/-- A greedy class takes as much as it can. -/
theorem first_most {p : Char → Bool} {least : ℕ} {most : Option ℕ} {k : ℕ} (n : ℕ) (s : List Char)
    (hk : most.elim (s.takeWhile p).length (min (s.takeWhile p).length) = k) (h : least ≤ k) :
    First (many true least most p) n s ⟨s.take k,[],s.drop k⟩ := by
  have hlast : (counts least most p s).reverse.head? = some k := by
    rw [List.head?_reverse, counts, hk, List.getLast?_range', if_neg (by omega)]
    congr 1
    omega
  rw [First, run, if_pos rfl, List.head?_map, hlast]
  rfl

theorem take_takeWhile_length (p : Char → Bool) (s : List Char) :
    s.take (s.takeWhile p).length = s.takeWhile p :=
  (List.prefix_iff_eq_take.mp (List.takeWhile_prefix p)).symm

theorem drop_takeWhile_length (p : Char → Bool) (s : List Char) :
    s.drop (s.takeWhile p).length = s.dropWhile p := by
  calc s.drop (s.takeWhile p).length
      = (s.takeWhile p ++ s.dropWhile p).drop (s.takeWhile p).length := by
        rw [List.takeWhile_append_dropWhile]
    _ = s.dropWhile p := List.drop_left

theorem first_many {p : Char → Bool} {least : ℕ} (n : ℕ) (s : List Char)
    (h : least ≤ (s.takeWhile p).length) :
    First (many true least none p) n s ⟨s.takeWhile p,[],s.dropWhile p⟩ := by
  have hfirst : First (many true least none p) n s
      ⟨s.take (s.takeWhile p).length,[],s.drop (s.takeWhile p).length⟩ := first_most n s rfl h
  rwa [take_takeWhile_length, drop_takeWhile_length] at hfirst

/-- What may be there once is taken if it is there. -/
theorem first_present {p : Char → Bool} (n : ℕ) {c : Char} (s : List Char) (hc : p c = true) :
    First (many true 0 (some 1) p) n (c::s) ⟨[c],[],s⟩ := by
  have hk : (some 1).elim ((c::s).takeWhile p).length (min ((c::s).takeWhile p).length) = 1 := by
    rw [List.takeWhile_cons_of_pos hc, List.length_cons, Option.elim_some]
    omega
  exact first_most n (c::s) hk (Nat.zero_le 1)

theorem first_absent {p : Char → Bool} (n : ℕ) {c : Char} (s : List Char) (hc : p c = false) :
    First (many true 0 (some 1) p) n (c::s) ⟨[],[],c::s⟩ := by
  have hk : (some 1).elim ((c::s).takeWhile p).length (min ((c::s).takeWhile p).length) = 0 := by
    rw [List.takeWhile_cons_of_neg (by simp [hc]), List.length_nil, Option.elim_some]
    rfl
  exact first_most n (c::s) hk (Nat.le_refl 0)

/-- The alternatives at the front are tried first. When they are of one length
there is only one way for them to match. -/
theorem first_anyOf {ps : List (Char → Bool)} {qss front : List (List (Char → Bool))}
    (back : List (List (Char → Bool))) (n : ℕ) {w s : List Char} (hsplit : ps::qss = front ++ back)
    (hlen : ∀ qs ∈ front, qs.length = w.length)
    (hfits : ∃ qs ∈ front, List.Forall₂ (fun p c => p c = true) qs w) :
    First (anyOf ps qss) n (w ++ s) ⟨w,[],s⟩ := by
  have hmem : (⟨w,[],s⟩ : Found) ∈ front.flatMap (fun qs => (classes qs).run n (w ++ s)) := by
    obtain ⟨qs,hqs,hw⟩ := hfits
    exact List.mem_flatMap.mpr ⟨qs,hqs,yields_classes.mpr ⟨rfl,hw⟩⟩
  have honly : ∀ b ∈ front.flatMap (fun qs => (classes qs).run n (w ++ s)), b = ⟨w,[],s⟩ := by
    intro b hb
    obtain ⟨qs,hqs,hb⟩ := List.mem_flatMap.mp hb
    obtain ⟨hs,hy⟩ := mem_run.mp hb
    obtain ⟨hg,hw⟩ := yields_classes.mp hy
    have hl : w.length = b.word.length := by rw [← hlen qs hqs, hw.length_eq]
    obtain ⟨hword,hrest⟩ := List.append_inj hs hl
    cases b
    subst hword hrest
    exact congrArg (Found.mk _ · _) hg
  unfold First
  rw [run_anyOf, hsplit, List.flatMap_append]
  cases hfront : front.flatMap (fun qs => (classes qs).run n (w ++ s)) with
  | nil =>
    rw [hfront] at hmem
    cases hmem
  | cons b bs =>
    rw [List.cons_append, List.head?_cons, honly b (hfront ▸ List.mem_cons_self)]

/-- Nothing matches at the first places when nothing does here nor at the ones
after. -/
theorem no_match_cons {r : Regex} {n m : ℕ} {c : Char} {s : List Char} :
    (∀ k < m+1, r.run (n+k) ((c::s).drop k) = []) ↔
      r.run n (c::s) = [] ∧ ∀ k < m, r.run (n+1+k) (s.drop k) = [] := by
  constructor
  · intro h
    refine ⟨h 0 (Nat.succ_pos m),fun k hk => ?_⟩
    have hk' := h (k+1) (Nat.succ_lt_succ hk)
    rwa [List.drop_succ_cons, ← Nat.add_assoc, Nat.add_right_comm] at hk'
  · rintro ⟨h0,h⟩ k hk
    cases k with
    | zero => exact h0
    | succ k =>
      have hk' := h k (Nat.lt_of_succ_lt_succ hk)
      rwa [Nat.add_assoc, Nat.add_comm 1] at hk'

/-- The place that `search` reports is the first at which there is a match. -/
theorem search_eq_some {r : Regex} {n : ℕ} {s : List Char} {a : Found} :
    search r n s = some a ↔ ∃ before after, s = before ++ after ∧
      First r (n+before.length) after a ∧
      ∀ k < before.length, r.run (n+k) (s.drop k) = [] := by
  induction s generalizing n with
  | nil =>
    rw [search]
    constructor
    · exact fun h => ⟨[],[],rfl,h,by simp⟩
    · rintro ⟨before,after,hs,h,_⟩
      obtain ⟨rfl,rfl⟩ := List.append_eq_nil_iff.mp hs.symm
      exact h
  | cons c s ih =>
    rw [search]
    cases hr : (r.run n (c::s)).head? with
    | some b =>
      simp only [Option.some.injEq]
      constructor
      · rintro rfl
        exact ⟨[],c::s,rfl,hr,by simp⟩
      · rintro ⟨before,after,hs,h,hno⟩
        cases before with
        | nil =>
          rw [List.nil_append] at hs
          rw [← hs] at h
          exact Option.some.inj (hr.symm.trans h)
        | cons d before =>
          have hnone := hno 0 (by simp)
          rw [Nat.add_zero, List.drop_zero] at hnone
          rw [hnone] at hr
          cases hr
    | none =>
      have hnone := List.head?_eq_none_iff.mp hr
      simp only [ih]
      constructor
      · rintro ⟨before,after,rfl,h,hno⟩
        refine ⟨c::before,after,rfl,?_,no_match_cons.mpr ⟨hnone,hno⟩⟩
        rwa [List.length_cons, Nat.add_comm before.length, ← Nat.add_assoc]
      · rintro ⟨before,after,hs,h,hno⟩
        cases before with
        | nil =>
          rw [List.nil_append] at hs
          rw [← hs, List.length_nil, Nat.add_zero, First, hnone] at h
          cases h
        | cons d before =>
          obtain ⟨rfl,rfl⟩ := List.cons.inj hs
          refine ⟨before,after,rfl,?_,(no_match_cons.mp hno).2⟩
          rwa [List.length_cons, Nat.add_comm before.length, ← Nat.add_assoc] at h

theorem search_eq_none {r : Regex} {n : ℕ} {s : List Char} :
    search r n s = none ↔ ∀ k ≤ s.length, r.run (n+k) (s.drop k) = [] := by
  induction s generalizing n with
  | nil => simp [search]
  | cons c s ih =>
    rw [search]
    cases hr : (r.run n (c::s)).head? with
    | some b =>
      simp only [reduceCtorEq, false_iff, not_forall]
      refine ⟨0,Nat.zero_le _,fun h => ?_⟩
      rw [Nat.add_zero, List.drop_zero] at h
      rw [h] at hr
      cases hr
    | none =>
      have hnone := List.head?_eq_none_iff.mp hr
      simp only [ih, ← Nat.lt_succ_iff, List.length_cons]
      rw [no_match_cons, and_iff_right hnone]

end Regex
end PipelineX
