import PipelineX.CharTable
import PipelineX.Regex
import PipelineX.Calendar

/-!
# `datetime.strptime`

The directives are regular expressions, most of which also take one digit
where two are meant. The match must use up the text, and only then do the
numbers have to make a date and a time.
-/

set_option autoImplicit false

namespace PipelineX.Strptime
open PipelineX.Regex PipelineX.Calendar

/-- A part of a format. -/
inductive Item where
  | y
  | Y
  | m
  | d
  | H
  | M
  | S
  | f
  | char (c : Char)
  deriving DecidableEq, Repr

def Item.text : Item → List Char
  | .y => ['%','y']
  | .Y => ['%','Y']
  | .m => ['%','m']
  | .d => ['%','d']
  | .H => ['%','H']
  | .M => ['%','M']
  | .S => ['%','S']
  | .f => ['%','f']
  | .char c => [c]

/-- `\d`. -/
def digit (chars : CharTable) (c : Char) : Bool := (chars.decimal c).isSome

/-- `[lo-hi]` for two digits. -/
def between (lo hi : ℕ) (c : Char) : Bool := 48+lo ≤ c.toNat && c.toNat ≤ 48+hi

def blank (c : Char) : Bool := c = ' '

def Item.regex (chars : CharTable) : Item → Regex
  | .y => .group "y" (anyOf [digit chars,digit chars] [])
  | .Y => .group "Y" (classes [digit chars,digit chars,digit chars,digit chars])
  | .m => .group "m" (anyOf [between 1 1,between 0 2] [[between 0 0,between 1 9],[between 1 9]])
  | .d => .group "d" (anyOf [between 3 3,between 0 1]
      [[between 1 2,digit chars],[between 0 0,between 1 9],[between 1 9],[blank,between 1 9]])
  | .H => .group "H" (anyOf [between 2 2,between 0 3] [[between 0 1,digit chars],[digit chars]])
  | .M => .group "M" (anyOf [between 0 5,digit chars] [[digit chars]])
  | .S => .group "S" (anyOf [between 6 6,between 0 1] [[between 0 5,digit chars],[digit chars]])
  | .f => .group "f" (.many true 1 (some 6) (between 0 9))
  | .char c => .one (· = c)

/-- `int(text)` of decimal digits, which may come after a space. -/
def intOf (chars : CharTable) (text : List Char) : ℕ :=
  text.foldl (fun n c => (chars.decimal c).elim n (fun d => n*10+d)) 0

def field (chars : CharTable) (a : Found) (name : String) (default : ℕ) : ℕ :=
  (a.group? name).elim default (intOf chars)

/-- Two digits of a year are of this century up to 68. -/
def year (chars : CharTable) (a : Found) : ℕ :=
  match a.group? "Y", a.group? "y" with
  | some w, _ => intOf chars w
  | none, some w => if intOf chars w ≤ 68 then 2000+intOf chars w else 1900+intOf chars w
  | none, none => 1900

def fraction (chars : CharTable) (a : Found) : ℕ :=
  (a.group? "f").elim 0 (fun w => intOf chars (w ++ List.replicate (6-w.length) '0'))

/-- The instant, taken to be in UTC, or the message of the `ValueError`. -/
def strptime (chars : CharTable) (text : List Char) (format : List Item) : Except String ℤ :=
  match (cat (format.map (Item.regex chars))).match text with
  | none => .error ("time data " ++ String.ofList (chars.repr text) ++ " does not match format " ++
      String.ofList (chars.repr (format.flatMap Item.text)))
  | some a =>
    let year := year chars a
    let month := field chars a "m" 1
    let day := field chars a "d" 1
    let second := field chars a "S" 0
    if a.rest ≠ [] then .error ("unconverted data remains: " ++ String.ofList a.rest)
    else if year = 0 then .error "year 0 is out of range"
    else if daysInMonth year month < day then .error "day is out of range for month"
    else if 59 < second then .error "second must be in 0..59"
    else .ok (instant year month day (field chars a "H" 0) (field chars a "M" 0) second
      (fraction chars a))

/-- The value of two digits. -/
def value (c e : Char) : ℕ := (c.toNat-48)*10+(e.toNat-48)

/-- What two digits may say for a directive. -/
def Item.Admits : Item → ℕ → Prop
  | .y, _ => True
  | .m, v => 1 ≤ v ∧ v ≤ 12
  | .d, v => 1 ≤ v ∧ v ≤ 31
  | .H, v => v ≤ 23
  | .M, v => v ≤ 59
  | .S, v => v ≤ 61
  | _, _ => False

def Item.name : Item → String
  | .y => "y"
  | .Y => "Y"
  | .m => "m"
  | .d => "d"
  | .H => "H"
  | .M => "M"
  | .S => "S"
  | .f => "f"
  | .char _ => ""

/-- An ASCII digit. -/
def Ascii (c : Char) : Prop := 48 ≤ c.toNat ∧ c.toNat ≤ 57

theorem decimal_of_ascii (chars : CharTable) {c : Char} (h : Ascii c) :
    chars.decimal c = some (c.toNat-48) := by
  have hd : c.isDigit = true := by
    simp only [Char.isDigit, Bool.and_eq_true, decide_eq_true_eq]
    exact ⟨h.1,h.2⟩
  rw [chars.decimal_ascii c (by have := h.2; omega), if_pos hd]

theorem digit_of_ascii (chars : CharTable) {c : Char} (h : Ascii c) : digit chars c = true := by
  rw [digit, decimal_of_ascii chars h]
  rfl

theorem intOf_two (chars : CharTable) {c e : Char} (hc : Ascii c) (he : Ascii e) :
    intOf chars [c,e] = value c e := by
  simp [intOf, decimal_of_ascii chars hc, decimal_of_ascii chars he, value]

theorem between_iff {lo hi : ℕ} {c : Char} :
    between lo hi c = true ↔ 48+lo ≤ c.toNat ∧ c.toNat ≤ 48+hi := by
  simp [between]

/-- Two classes fit two characters. -/
theorem two_iff {p q : Char → Bool} {c e : Char} :
    List.Forall₂ (fun p c => p c = true) [p,q] [c,e] ↔ p c = true ∧ q e = true := by
  simp

/-- The alternatives of a directive that take two digits. -/
def Item.twos (chars : CharTable) : Item → List (List (Char → Bool))
  | .y => [[digit chars,digit chars]]
  | .m => [[between 1 1,between 0 2],[between 0 0,between 1 9]]
  | .d => [[between 3 3,between 0 1],[between 1 2,digit chars],[between 0 0,between 1 9]]
  | .H => [[between 2 2,between 0 3],[between 0 1,digit chars]]
  | .M => [[between 0 5,digit chars]]
  | .S => [[between 6 6,between 0 1],[between 0 5,digit chars]]
  | _ => []

theorem twos_length (chars : CharTable) (it : Item) : ∀ qs ∈ it.twos chars, qs.length = 2 := by
  cases it <;> simp [Item.twos]

/-- They take the values that the directive admits. -/
theorem twos_iff (chars : CharTable) (it : Item) {c e : Char} (hc : Ascii c) (he : Ascii e) :
    (∃ qs ∈ it.twos chars, List.Forall₂ (fun p c => p c = true) qs [c,e]) ↔
      it.Admits (value c e) := by
  have hdc := digit_of_ascii chars hc
  have hde := digit_of_ascii chars he
  obtain ⟨hc₁,hc₂⟩ := hc
  obtain ⟨he₁,he₂⟩ := he
  cases it <;>
    simp only [Item.twos, Item.Admits, List.exists_mem_cons_iff, List.not_mem_nil, false_and,
      exists_false, or_false, two_iff, between_iff, hdc, hde, and_true, value] <;> omega

/-- Two digits that a directive admits are matched as such before anything
shorter is tried. -/
theorem first_item (chars : CharTable) (it : Item) (n : ℕ) {c e : Char} (s : List Char)
    (hc : Ascii c) (he : Ascii e) (h : it.Admits (value c e)) :
    First (it.regex chars) n (c::e::s) ⟨[c,e],[(it.name,[c,e])],s⟩ := by
  have hfits := (twos_iff chars it hc he).mpr h
  have hlen : ∀ qs ∈ it.twos chars, qs.length = [c,e].length := twos_length chars it
  cases it with
  | y => exact (first_anyOf [] n rfl hlen hfits).group "y"
  | m => exact (first_anyOf [_] n rfl hlen hfits).group "m"
  | d => exact (first_anyOf [_,_] n rfl hlen hfits).group "d"
  | H => exact (first_anyOf [_] n rfl hlen hfits).group "H"
  | M => exact (first_anyOf [_] n rfl hlen hfits).group "M"
  | S => exact (first_anyOf [_] n rfl hlen hfits).group "S"
  | Y => exact h.elim
  | f => exact h.elim
  | char c => exact h.elim

/-- The directives of one or two digits. -/
def short : List Item := [.y,.m,.d,.H,.M,.S]

/-- Whatever is matched is one or two digits long, and two digits are what the
directive admits. -/
theorem yields_item (chars : CharTable) {it : Item} (hit : it ∈ short) {n : ℕ}
    {w rest : List Char} {g : List (String × List Char)} (hw : ∀ c ∈ w, Ascii c)
    (h : (it.regex chars).Yields n w g rest) : g = [(it.name,w)] ∧ w.length ≤ 2 ∧
      ∀ c e, w = [c,e] → it.Admits (value c e) := by
  have key {ps : List (Char → Bool)} {qss : List (List (Char → Bool))}
      (hreg : it.regex chars = .group it.name (anyOf ps qss))
      (halts : ∀ qs ∈ ps::qss, qs.length = 1 ∨ qs ∈ it.twos chars ∨ ∃ q, qs = [blank,q]) :
      g = [(it.name,w)] ∧ w.length ≤ 2 ∧ ∀ c e, w = [c,e] → it.Admits (value c e) := by
    rw [hreg] at h
    obtain ⟨g',rfl,hany⟩ := yields_group.mp h
    obtain ⟨rfl,qs,hqs,hfit⟩ := yields_anyOf.mp hany
    have hlen := hfit.length_eq
    refine ⟨rfl,?_,fun c e he => ?_⟩
    · rcases halts qs hqs with h | h | ⟨q,rfl⟩
      · omega
      · have htwo := twos_length chars it qs h
        omega
      · rw [← hlen]
        rfl
    · subst he
      have hc := hw c List.mem_cons_self
      have he := hw e (List.mem_cons_of_mem _ List.mem_cons_self)
      rcases halts qs hqs with h | h | ⟨q,rfl⟩
      · rw [h] at hlen
        cases hlen
      · exact (twos_iff chars it hc he).mp ⟨qs,h,hfit⟩
      · have hspace : c = ' ' := of_decide_eq_true (two_iff.mp hfit).1
        have hlow := hc.1
        rw [hspace] at hlow
        exact absurd hlow (by decide)
  simp only [short, List.mem_cons, List.not_mem_nil, or_false] at hit
  rcases hit with rfl | rfl | rfl | rfl | rfl | rfl
  all_goals exact key rfl (by simp [Item.twos])

/-- The text of two digits for each directive. -/
def flat (ps : List (Char × Char)) : List Char := ps.flatMap (fun p => [p.1,p.2])

/-- The groups that the directives set when each takes two digits. -/
def groups (items : List Item) (ps : List (Char × Char)) : List (String × List Char) :=
  List.zipWith (fun it p => (it.name,[p.1,p.2])) items ps

/-- The pairs of digits are what the directives admit. -/
def AllAdmit (items : List Item) (ps : List (Char × Char)) : Prop :=
  List.Forall₂ (fun it p => it.Admits (value p.1 p.2)) items ps

theorem first_items (chars : CharTable) {items : List Item} {ps : List (Char × Char)} (n : ℕ)
    (s : List Char) (hps : ∀ p ∈ ps, Ascii p.1 ∧ Ascii p.2) (h : AllAdmit items ps) :
    First (cat (items.map (Item.regex chars))) n (flat ps ++ s)
      ⟨flat ps,groups items ps,s⟩ := by
  induction h generalizing n with
  | nil => exact first_empty n s
  | @cons it p items ps hp _ ih =>
    obtain ⟨hc,he⟩ := hps p List.mem_cons_self
    exact (first_item chars it n (flat ps ++ s) hc he hp).seq
      (ih _ (fun q hq => hps q (List.mem_cons_of_mem _ hq)))

theorem yields_items (chars : CharTable) {items : List Item} (hitems : ∀ it ∈ items, it ∈ short)
    {n : ℕ} {w rest : List Char} {g : List (String × List Char)} (hw : ∀ c ∈ w, Ascii c)
    (h : (cat (items.map (Item.regex chars))).Yields n w g rest) :
    w.length ≤ 2*items.length ∧ (w.length = 2*items.length →
      ∃ ps, w = flat ps ∧ AllAdmit items ps) := by
  induction items generalizing n w g with
  | nil =>
    obtain ⟨rfl,_⟩ := yields_empty.mp h
    exact ⟨Nat.le_refl _,fun _ => ⟨[],rfl,.nil⟩⟩
  | cons it items ih =>
    obtain ⟨w₁,w₂,g₁,g₂,rfl,rfl,h₁,h₂⟩ := yields_cat_cons.mp h
    obtain ⟨_,hlen,hadmits⟩ := yields_item chars (hitems it List.mem_cons_self)
      (fun c hc => hw c (List.mem_append_left _ hc)) h₁
    obtain ⟨hle,hrest⟩ := ih (fun i hi => hitems i (List.mem_cons_of_mem _ hi))
      (fun c hc => hw c (List.mem_append_right _ hc)) h₂
    rw [List.length_append, List.length_cons]
    refine ⟨by omega,fun hall => ?_⟩
    obtain ⟨c,e,rfl⟩ := List.length_eq_two.mp (show w₁.length = 2 by omega)
    obtain ⟨ps,rfl,hps⟩ := hrest (by omega)
    exact ⟨(c,e)::ps,rfl,.cons (hadmits c e rfl) hps⟩

/-- The instant of twelve digits YYMMDDHHMMSS, if they are a real date and a
time of day. -/
def moment : List Char → Option ℤ
  | [y₁,y₂,m₁,m₂,d₁,d₂,h₁,h₂,i₁,i₂,s₁,s₂] =>
    let year := if value y₁ y₂ ≤ 68 then 2000+value y₁ y₂ else 1900+value y₁ y₂
    if IsDate year (value m₁ m₂) (value d₁ d₂) ∧ value h₁ h₂ ≤ 23 ∧ value i₁ i₂ ≤ 59 ∧
        value s₁ s₂ ≤ 59 then
      some (instant year (value m₁ m₂) (value d₁ d₂) (value h₁ h₂) (value i₁ i₂) (value s₁ s₂) 0)
    else none
  | _ => none

theorem value_lt {c e : Char} (hc : Ascii c) (he : Ascii e) : value c e < 100 := by
  obtain ⟨_,hc⟩ := hc
  obtain ⟨_,he⟩ := he
  unfold value
  omega

theorem daysInMonth_le (year month : ℕ) : daysInMonth year month ≤ 31 := by
  unfold daysInMonth
  split
  · split <;> omega
  · split <;> omega

theorem allAdmit_iff {y₁ y₂ m₁ m₂ d₁ d₂ h₁ h₂ i₁ i₂ s₁ s₂ : Char} :
    AllAdmit short [(y₁,y₂),(m₁,m₂),(d₁,d₂),(h₁,h₂),(i₁,i₂),(s₁,s₂)] ↔
      (1 ≤ value m₁ m₂ ∧ value m₁ m₂ ≤ 12) ∧ (1 ≤ value d₁ d₂ ∧ value d₁ d₂ ≤ 31) ∧
        value h₁ h₂ ≤ 23 ∧ value i₁ i₂ ≤ 59 ∧ value s₁ s₂ ≤ 61 := by
  simp [AllAdmit, short, Item.Admits]

theorem flat_injective {ps qs : List (Char × Char)} (h : flat ps = flat qs) : ps = qs := by
  induction ps generalizing qs with
  | nil =>
    cases qs with
    | nil => rfl
    | cons q qs => simp [flat] at h
  | cons p ps ih =>
    cases qs with
    | nil => simp [flat] at h
    | cons q qs =>
      simp only [flat, List.flatMap_cons, List.cons_append, List.nil_append,
        List.cons.injEq] at h
      obtain ⟨h₁,h₂,hrest⟩ := h
      rw [ih hrest, Prod.ext h₁ h₂]

/-- Digits that some directive does not admit are refused, with a match that
falls short or without one. -/
theorem strptime_refused (chars : CharTable) (ps : List (Char × Char)) (hlen : ps.length = 6)
    (hps : ∀ p ∈ ps, Ascii p.1 ∧ Ascii p.2) (h : ¬ AllAdmit short ps) :
    ∃ message, strptime chars (flat ps) short = .error message := by
  have hflat : ∀ c ∈ flat ps, Ascii c := by
    intro c hc
    obtain ⟨p,hp,hc⟩ := List.mem_flatMap.mp hc
    simp only [List.mem_cons, List.not_mem_nil, or_false] at hc
    rcases hc with rfl | rfl
    · exact (hps p hp).1
    · exact (hps p hp).2
  have htotal : (flat ps).length = 2*short.length := by
    simp [flat, List.length_flatMap, hlen, short]
  unfold strptime
  cases hm : (cat (short.map (Item.regex chars))).match (flat ps) with
  | none => exact ⟨_,rfl⟩
  | some a =>
    obtain ⟨hs,hy⟩ := mem_run.mp (First.mem hm)
    have hrest : a.rest ≠ [] := by
      intro hnil
      rw [hnil, List.append_nil] at hs
      have hword := yields_items chars (fun _ hi => hi) (fun c hc => hflat c (hs ▸ hc)) hy
      obtain ⟨qs,hqs,hadm⟩ := hword.2 (hs ▸ htotal)
      rw [flat_injective (hs.trans hqs)] at h
      exact h hadm
    exact ⟨_,if_pos hrest⟩

/-- Digits that the directives admit are read as they stand. -/
theorem match_admitted (chars : CharTable) (ps : List (Char × Char))
    (hps : ∀ p ∈ ps, Ascii p.1 ∧ Ascii p.2) (h : AllAdmit short ps) :
    (cat (short.map (Item.regex chars))).match (flat ps) = some ⟨flat ps,groups short ps,[]⟩ := by
  have hfirst := first_items chars 0 [] hps h
  rw [List.append_nil] at hfirst
  exact hfirst

/-- The groups that six pairs of digits set. -/
theorem group?_six (y m d h i s : Char × Char) (w rest : List Char) :
    let a : Found := ⟨w,groups short [y,m,d,h,i,s],rest⟩
    a.group? "Y" = none ∧ a.group? "y" = some [y.1,y.2] ∧ a.group? "m" = some [m.1,m.2] ∧
      a.group? "d" = some [d.1,d.2] ∧ a.group? "H" = some [h.1,h.2] ∧
      a.group? "M" = some [i.1,i.2] ∧ a.group? "S" = some [s.1,s.2] ∧ a.group? "f" = none := by
  simp [Found.group?, groups, short, Item.name]

/-- On twelve digits `strptime` finds the instant that they mean, or fails. -/
theorem strptime_moment (chars : CharTable) (w : List Char) (hlen : w.length = 12)
    (hw : ∀ c ∈ w, Ascii c) :
    (∃ message, strptime chars w short = .error message ∧ moment w = none) ∨
    ∃ t, strptime chars w short = .ok t ∧ moment w = some t := by
  match w, hlen with
  | [y₁,y₂,m₁,m₂,d₁,d₂,h₁,h₂,i₁,i₂,s₁,s₂], _ =>
    simp only [List.forall_mem_cons, List.not_mem_nil, false_implies, implies_true, and_true] at hw
    obtain ⟨hy₁,hy₂,hm₁,hm₂,hd₁,hd₂,hh₁,hh₂,hi₁,hi₂,hs₁,hs₂⟩ := hw
    have hps : ∀ p ∈ [(y₁,y₂),(m₁,m₂),(d₁,d₂),(h₁,h₂),(i₁,i₂),(s₁,s₂)],
        Ascii p.1 ∧ Ascii p.2 := by
      simp [hy₁, hy₂, hm₁, hm₂, hd₁, hd₂, hh₁, hh₂, hi₁, hi₂, hs₁, hs₂]
    change (∃ message, strptime chars (flat [(y₁,y₂),(m₁,m₂),(d₁,d₂),(h₁,h₂),(i₁,i₂),(s₁,s₂)])
      short = .error message ∧ _) ∨ ∃ t, strptime chars (flat [(y₁,y₂),(m₁,m₂),(d₁,d₂),(h₁,h₂),
      (i₁,i₂),(s₁,s₂)]) short = .ok t ∧ _
    by_cases hadm : AllAdmit short [(y₁,y₂),(m₁,m₂),(d₁,d₂),(h₁,h₂),(i₁,i₂),(s₁,s₂)]
    · have hmatch := match_admitted chars _ hps hadm
      obtain ⟨hm,hd,hh,hi,hs⟩ := allAdmit_iff.mp hadm
      have hyear : (if value y₁ y₂ ≤ 68 then 2000+value y₁ y₂ else 1900+value y₁ y₂) ≠ 0 ∧
          (if value y₁ y₂ ≤ 68 then 2000+value y₁ y₂ else 1900+value y₁ y₂) ≤ 9999 := by
        have hlt := value_lt hy₁ hy₂
        constructor <;> split <;> omega
      simp only [strptime, hmatch, year, field, fraction, group?_six, Option.elim_some,
        Option.elim_none, intOf_two chars hy₁ hy₂, intOf_two chars hm₁ hm₂,
        intOf_two chars hd₁ hd₂, intOf_two chars hh₁ hh₂, intOf_two chars hi₁ hi₂,
        intOf_two chars hs₁ hs₂, ne_eq, not_true_eq_false, if_false, moment]
      generalize (if value y₁ y₂ ≤ 68 then 2000+value y₁ y₂ else 1900+value y₁ y₂) = year at hyear
      rw [if_neg hyear.1]
      by_cases hday : daysInMonth year (value m₁ m₂) < value d₁ d₂
      · exact Or.inl ⟨_,if_pos hday,if_neg (fun h => absurd h.1.2.2.2 (by omega))⟩
      · by_cases hsecond : 59 < value s₁ s₂
        · exact Or.inl ⟨_,(if_neg hday).trans (if_pos hsecond),
            if_neg (fun h => absurd h.2.2.2 (by omega))⟩
        · refine Or.inr ⟨_,?_,if_pos ⟨⟨⟨by omega,hyear.2⟩,hm,hd.1,by omega⟩,hh,hi,by omega⟩⟩
          rw [if_neg hday, if_neg hsecond]
    · obtain ⟨message,hmessage⟩ := strptime_refused chars _ rfl hps hadm
      refine Or.inl ⟨message,hmessage,?_⟩
      rw [allAdmit_iff] at hadm
      simp only [moment]
      rw [if_neg]
      rintro ⟨⟨_,hm,hd⟩,hh,hi,hs⟩
      have := daysInMonth_le (if value y₁ y₂ ≤ 68 then 2000+value y₁ y₂ else 1900+value y₁ y₂)
        (value m₁ m₂)
      exact hadm ⟨hm,⟨hd.1,by omega⟩,hh,hi,by omega⟩

end PipelineX.Strptime
