import PipelineX.BglParser
import PipelineX.HdfsFormat

/-!
# The timestamp of a BGL line

Between the directives of the format stand characters that no directive takes,
so that a text is matched in one way up to the fraction, which takes all that
is left.
-/

set_option autoImplicit false

namespace PipelineX.Strptime
open PipelineX.Regex PipelineX.Calendar PipelineX.HdfsFormat PipelineX.Parsers

/-- What a directive of digits takes, in the order in which it is tried. -/
def Item.forms (chars : CharTable) : Item → List (List (Char → Bool))
  | .y => [[digit chars,digit chars]]
  | .Y => [[digit chars,digit chars,digit chars,digit chars]]
  | .m => [[between 1 1,between 0 2],[between 0 0,between 1 9],[between 1 9]]
  | .d => [[between 3 3,between 0 1],[between 1 2,digit chars],[between 0 0,between 1 9],
      [between 1 9],[blank,between 1 9]]
  | .H => [[between 2 2,between 0 3],[between 0 1,digit chars],[digit chars]]
  | .M => [[between 0 5,digit chars],[digit chars]]
  | .S => [[between 6 6,between 0 1],[between 0 5,digit chars],[digit chars]]
  | _ => []

/-- The text is one of the forms of the directive. -/
def Item.Fits (chars : CharTable) (it : Item) (v : List Char) : Prop :=
  ∃ qs ∈ it.forms chars, List.Forall₂ (fun p c => p c = true) qs v

/-- The directives of the format before the fraction. -/
def counted : List Item := [.Y,.m,.d,.H,.M,.S]

/-- A character that no directive takes. -/
def Separator (c : Char) : Prop := c = '-' ∨ c = '.'

section
variable {chars : CharTable} {it : Item} {sep : Char}

theorem not_digit_separator (hsep : Separator sep) : digit chars sep = false := by
  rcases hsep with rfl | rfl
  · rw [digit, chars.decimal_ascii '-' (by decide)]
    rfl
  · rw [digit, chars.decimal_ascii '.' (by decide)]
    rfl

theorem forms_separator (hsep : Separator sep) :
    ∀ qs ∈ it.forms chars, ∀ q ∈ qs, q sep = false := by
  have hd : digit chars sep = false := not_digit_separator hsep
  have hbetween (lo hi : ℕ) : between lo hi sep = false := by
    rw [Bool.eq_false_iff, Ne, between_iff]
    rcases hsep with rfl | rfl
    · rintro ⟨hlow,_⟩
      exact absurd hlow (by simp; omega)
    · rintro ⟨hlow,_⟩
      exact absurd hlow (by simp; omega)
  have hblank : blank sep = false := by
    rcases hsep with rfl | rfl <;> rfl
  cases it <;> simp [Item.forms, hd, hbetween, hblank]

theorem fits_separator {v : List Char} (hsep : Separator sep) (h : it.Fits chars v) : sep ∉ v := by
  obtain ⟨qs,hqs,hv⟩ := h
  have hno := forms_separator hsep qs hqs
  clear hqs
  induction hv with
  | nil => exact List.not_mem_nil
  | cons hc _ ih =>
    rw [List.mem_cons, not_or]
    refine ⟨?_,ih fun q hq => hno q (List.mem_cons_of_mem _ hq)⟩
    rintro rfl
    rw [hno _ List.mem_cons_self] at hc
    cases hc

theorem yields_form (hit : it ∈ counted) {n : ℕ} {w rest : List Char}
    {g : List (String × List Char)} :
    (it.regex chars).Yields n w g rest ↔ g = [(it.name,w)] ∧ it.Fits chars w := by
  have key {ps : List (Char → Bool)} {qss : List (List (Char → Bool))}
      (hreg : it.regex chars = .group it.name (anyOf ps qss)) (hforms : it.forms chars = ps::qss) :
      (it.regex chars).Yields n w g rest ↔ g = [(it.name,w)] ∧ it.Fits chars w := by
    rw [hreg, yields_group, Item.Fits, hforms]
    constructor
    · rintro ⟨g',rfl,hany⟩
      obtain ⟨rfl,hfits⟩ := yields_anyOf.mp hany
      exact ⟨rfl,hfits⟩
    · rintro ⟨rfl,hfits⟩
      exact ⟨[],rfl,yields_anyOf.mpr ⟨rfl,hfits⟩⟩
  simp only [counted, List.mem_cons, List.not_mem_nil, or_false] at hit
  rcases hit with rfl | rfl | rfl | rfl | rfl | rfl
  all_goals exact key rfl rfl

/-- A match of which the rest goes on in one way only. -/
theorem first_seq_unique {r t : Regex} {n : ℕ} {s : List Char} {a b : Found} (ha : a ∈ r.run n s)
    (honly : ∀ a' ∈ r.run n s, t.run (n+a'.word.length) a'.rest ≠ [] → a' = a)
    (hb : First t (n+a.word.length) a.rest b) :
    First (.seq r t) n s ⟨a.word ++ b.word,a.groups ++ b.groups,b.rest⟩ := by
  rw [First, run]
  generalize r.run n s = found at ha honly ⊢
  induction found with
  | nil => cases ha
  | cons x xs ih =>
    rw [List.flatMap_cons]
    by_cases hx : t.run (n+x.word.length) x.rest = []
    · have hne : a ≠ x := by
        rintro rfl
        rw [First, hx] at hb
        cases hb
      rw [hx, List.map_nil, List.nil_append]
      exact ih ((List.mem_cons.mp ha).resolve_left hne) fun a' ha' =>
        honly a' (List.mem_cons_of_mem _ ha')
    · rw [honly x List.mem_cons_self hx]
      obtain ⟨bs,hbs⟩ := List.head?_eq_some_iff.mp hb
      rw [hbs]
      rfl

theorem run_separator {n : ℕ} {s : List Char} {rs : List Regex}
    (h : (cat ((Item.char sep).regex chars::rs)).run n s ≠ []) : ∃ s', s = sep::s' := by
  obtain ⟨a,ha⟩ := List.exists_mem_of_ne_nil _ h
  obtain ⟨hs,hy⟩ := mem_run.mp ha
  obtain ⟨w₁,w₂,_,_,hw,_,hone,_⟩ := yields_cat_cons.mp hy
  obtain ⟨_,c,rfl,hc⟩ := yields_one.mp hone
  rw [hs, hw, of_decide_eq_true hc]
  exact ⟨_,rfl⟩

/-- A directive and the separator after it take what is there before the
separator. -/
theorem first_separated (hit : it ∈ counted) (hsep : Separator sep) {n : ℕ} {v s : List Char}
    (hv : it.Fits chars v) {rs : List Regex} {c : Found}
    (h : First (cat rs) (n+v.length+1) s c) :
    First (cat (it.regex chars::(Item.char sep).regex chars::rs)) n (v ++ sep::s)
      ⟨v ++ sep::c.word,(it.name,v)::c.groups,c.rest⟩ := by
  have hmem : (⟨v,[(it.name,v)],sep::s⟩ : Found) ∈ (it.regex chars).run n (v ++ sep::s) :=
    mem_run.mpr ⟨rfl,(yields_form hit).mpr ⟨rfl,hv⟩⟩
  have hone : First ((Item.char sep).regex chars) (n+v.length) (sep::s) ⟨[sep],[],s⟩ := by
    simp [First, Item.regex, run]
  refine first_seq_unique hmem (fun a ha hrun => ?_) (hone.seq h)
  obtain ⟨hs,hy⟩ := mem_run.mp ha
  obtain ⟨hg,hfits⟩ := (yields_form hit).mp hy
  obtain ⟨s',hrest⟩ := run_separator hrun
  rw [hrest] at hs
  obtain ⟨hword,hs'⟩ := part_inj (fits_separator hsep hv) (fits_separator hsep hfits) hs
  obtain ⟨word,groups,rest⟩ := a
  dsimp only at hword hrest hg
  rw [hg, hrest, ← hword, ← hs']

theorem yields_separated (hit : it ∈ counted) {n : ℕ} {w rest : List Char}
    {g : List (String × List Char)} {rs : List Regex} :
    (cat (it.regex chars::(Item.char sep).regex chars::rs)).Yields n w g rest ↔
      ∃ v w' g', w = v ++ sep::w' ∧ g = (it.name,v)::g' ∧ it.Fits chars v ∧
        (cat rs).Yields (n+v.length+1) w' g' rest := by
  constructor
  · intro h
    obtain ⟨v,w₁,g₁,g₂,rfl,rfl,hform,hafter⟩ := yields_cat_cons.mp h
    obtain ⟨w₂,w',g₃,g',rfl,rfl,hone,hrest⟩ := yields_cat_cons.mp hafter
    obtain ⟨rfl,hv⟩ := (yields_form hit).mp hform
    obtain ⟨rfl,c,rfl,hc⟩ := yields_one.mp hone
    obtain rfl := of_decide_eq_true hc
    exact ⟨v,w',g',rfl,rfl,hv,hrest⟩
  · rintro ⟨v,w',g',rfl,rfl,hv,h⟩
    refine yields_cat_cons.mpr ⟨v,sep::w',[(it.name,v)],g',rfl,rfl,?_,?_⟩
    · exact (yields_form hit).mpr ⟨rfl,hv⟩
    · exact yields_cat_cons.mpr ⟨[sep],w',[],g',rfl,rfl,
        yields_one.mpr ⟨rfl,sep,rfl,decide_eq_true rfl⟩,h⟩

/-- The digits of a fraction. -/
def IsFraction (w : List Char) : Prop :=
  (∀ c ∈ w, between 0 9 c = true) ∧ 1 ≤ w.length ∧ w.length ≤ 6

theorem yields_fraction {n : ℕ} {w rest : List Char} {g : List (String × List Char)} :
    (cat [Item.f.regex chars]).Yields n w g rest ↔ g = [("f",w)] ∧ IsFraction w := by
  constructor
  · intro h
    obtain ⟨v,w₁,g₁,g₂,rfl,rfl,hgroup,hnone⟩ := yields_cat_cons.mp h
    obtain ⟨rfl,rfl⟩ := yields_empty.mp hnone
    obtain ⟨g₃,rfl,hmany⟩ := yields_group.mp hgroup
    obtain ⟨rfl,hd,hlow,hhigh⟩ := yields_many.mp hmany
    rw [List.append_nil, List.append_nil]
    exact ⟨rfl,hd,hlow,hhigh 6 rfl⟩
  · rintro ⟨rfl,hd,hlow,hhigh⟩
    refine yields_cat_cons.mpr ⟨w,[],[("f",w)],[],(List.append_nil w).symm,rfl,?_,
      yields_empty.mpr ⟨rfl,rfl⟩⟩
    refine yields_group.mpr ⟨[],rfl,yields_many.mpr ⟨rfl,hd,hlow,fun m hm => ?_⟩⟩
    cases hm
    exact hhigh

/-- A fraction at the end is taken whole. -/
theorem first_fraction {n : ℕ} {w : List Char} (h : IsFraction w) :
    First (cat [Item.f.regex chars]) n w ⟨w,[("f",w)],[]⟩ := by
  obtain ⟨hd,hlow,hhigh⟩ := h
  have htake : w.takeWhile (between 0 9) = w := List.takeWhile_eq_self_iff.mpr hd
  have hmost : First (many true 1 (some 6) (between 0 9)) n w ⟨w,[],[]⟩ := by
    have hk : (some 6).elim (w.takeWhile (between 0 9)).length
        (min (w.takeWhile (between 0 9)).length) = w.length := by
      rw [htake, Option.elim_some]
      omega
    have hfirst := first_most n w hk hlow
    rwa [List.take_length, List.drop_length] at hfirst
  have hseq := (hmost.group "f").seq (first_empty (n+w.length) [])
  rw [List.append_nil] at hseq
  exact hseq

end

/-- The parts of a timestamp. -/
structure Stamp where
  year : List Char
  month : List Char
  day : List Char
  hour : List Char
  minute : List Char
  second : List Char
  fraction : List Char
  deriving DecidableEq, Repr

namespace Stamp

def render (p : Stamp) : List Char :=
  p.year ++ '-'::(p.month ++ '-'::(p.day ++ '-'::(p.hour ++ '.'::(p.minute ++
    '.'::(p.second ++ '.'::p.fraction)))))

def groups (p : Stamp) : List (String × List Char) :=
  [("Y",p.year),("m",p.month),("d",p.day),("H",p.hour),("M",p.minute),("S",p.second),
    ("f",p.fraction)]

/-- Each part is what its directive takes. -/
structure Shaped (chars : CharTable) (p : Stamp) : Prop where
  year : Item.Y.Fits chars p.year
  month : Item.m.Fits chars p.month
  day : Item.d.Fits chars p.day
  hour : Item.H.Fits chars p.hour
  minute : Item.M.Fits chars p.minute
  second : Item.S.Fits chars p.second
  fraction : IsFraction p.fraction

/-- The parts are a real date and a time of day, and `t` is that instant. The
fraction counts as one of a second. -/
structure Means (chars : CharTable) (p : Stamp) (t : ℤ) : Prop where
  date : IsDate (intOf chars p.year) (intOf chars p.month) (intOf chars p.day)
  time : intOf chars p.hour ≤ 23 ∧ intOf chars p.minute ≤ 59 ∧ intOf chars p.second ≤ 59
  instant : ∃ us, us*10^p.fraction.length = intOf chars p.fraction*10^6 ∧
    t = Calendar.instant (intOf chars p.year) (intOf chars p.month) (intOf chars p.day)
      (intOf chars p.hour) (intOf chars p.minute) (intOf chars p.second) us

end Stamp

section
variable {chars : CharTable}

/-- What the format can match is a timestamp. -/
theorem yields_stamp {n : ℕ} {w rest : List Char} {g : List (String × List Char)} :
    (cat (BglParser.timeFormat.map (Item.regex chars))).Yields n w g rest ↔
      ∃ p : Stamp, p.Shaped chars ∧ w = p.render ∧ g = p.groups := by
  have hY : Item.Y ∈ counted := by decide
  have hm : Item.m ∈ counted := by decide
  have hd : Item.d ∈ counted := by decide
  have hH : Item.H ∈ counted := by decide
  have hM : Item.M ∈ counted := by decide
  have hS : Item.S ∈ counted := by decide
  simp only [BglParser.timeFormat, List.map_cons, List.map_nil, yields_separated hY,
    yields_separated hm, yields_separated hd, yields_separated hH, yields_separated hM,
    yields_separated hS, yields_fraction]
  constructor
  · rintro ⟨year,_,_,rfl,rfl,hyear,month,_,_,rfl,rfl,hmonth,day,_,_,rfl,rfl,hday,
      hour,_,_,rfl,rfl,hhour,minute,_,_,rfl,rfl,hminute,second,fraction,_,rfl,rfl,hsecond,
      rfl,hfraction⟩
    exact ⟨⟨year,month,day,hour,minute,second,fraction⟩,
      ⟨hyear,hmonth,hday,hhour,hminute,hsecond,hfraction⟩,rfl,rfl⟩
  · rintro ⟨p,h,rfl,rfl⟩
    exact ⟨p.year,_,_,rfl,rfl,h.year,p.month,_,_,rfl,rfl,h.month,p.day,_,_,rfl,rfl,h.day,
      p.hour,_,_,rfl,rfl,h.hour,p.minute,_,_,rfl,rfl,h.minute,p.second,_,_,rfl,rfl,h.second,
      rfl,h.fraction⟩

/-- A timestamp is matched as a whole and in its parts. -/
theorem match_stamp {p : Stamp} (h : p.Shaped chars) :
    (cat (BglParser.timeFormat.map (Item.regex chars))).match p.render =
      some ⟨p.render,p.groups,[]⟩ := by
  have hminus : Separator '-' := Or.inl rfl
  have hdot : Separator '.' := Or.inr rfl
  have hsecond := fun n => first_separated (by decide) hdot h.second
    (@first_fraction chars (n+p.second.length+1) _ h.fraction)
  have hminute := fun n => first_separated (by decide) hdot h.minute
    (hsecond (n+p.minute.length+1))
  have hhour := fun n => first_separated (by decide) hdot h.hour
    (hminute (n+p.hour.length+1))
  have hday := fun n => first_separated (by decide) hminus h.day
    (hhour (n+p.day.length+1))
  have hmonth := fun n => first_separated (by decide) hminus h.month
    (hday (n+p.month.length+1))
  exact first_separated (by decide) hminus h.year (hmonth (0+p.year.length+1))

/-- The characters of the class are digits between two values. -/
def Within (chars : CharTable) (lo hi : ℕ) (q : Char → Bool) : Prop :=
  ∀ c, q c = true → ∃ d, chars.decimal c = some d ∧ lo ≤ d ∧ d ≤ hi

theorem within_digit : Within chars 0 9 (digit chars) := by
  intro c hc
  obtain ⟨d,hd⟩ := Option.isSome_iff_exists.mp hc
  have := chars.decimal_lt c d hd
  exact ⟨d,hd,Nat.zero_le d,by omega⟩

theorem within_between {lo hi : ℕ} (h : hi ≤ 9) : Within chars lo hi (between lo hi) := by
  intro c hc
  obtain ⟨hlow,hhigh⟩ := between_iff.mp hc
  exact ⟨c.toNat-48,decimal_of_ascii chars ⟨by omega,by omega⟩,by omega,by omega⟩

variable (chars) in
theorem intOf_one_within {lo hi : ℕ} {q : Char → Bool} {v : List Char} (hq : Within chars lo hi q)
    (hv : List.Forall₂ (fun p c => p c = true) [q] v) :
    lo ≤ intOf chars v ∧ intOf chars v ≤ hi := by
  obtain ⟨c,_,hc,hnil,rfl⟩ := List.forall₂_cons_left_iff.mp hv
  obtain rfl := List.forall₂_nil_left_iff.mp hnil
  obtain ⟨d,hd,hlow,hhigh⟩ := hq c hc
  simp only [intOf, List.foldl_cons, List.foldl_nil, hd, Option.elim_some]
  omega

variable (chars) in
theorem intOf_two_within {lo hi lo' hi' : ℕ} {q q' : Char → Bool} {v : List Char}
    (hq : Within chars lo hi q) (hq' : Within chars lo' hi' q')
    (hv : List.Forall₂ (fun p c => p c = true) [q,q'] v) :
    lo*10+lo' ≤ intOf chars v ∧ intOf chars v ≤ hi*10+hi' := by
  obtain ⟨c,_,hc,hrest,rfl⟩ := List.forall₂_cons_left_iff.mp hv
  obtain ⟨e,_,he,hnil,rfl⟩ := List.forall₂_cons_left_iff.mp hrest
  obtain rfl := List.forall₂_nil_left_iff.mp hnil
  obtain ⟨d,hd,hlow,hhigh⟩ := hq c hc
  obtain ⟨d',hd',hlow',hhigh'⟩ := hq' e he
  simp only [intOf, List.foldl_cons, List.foldl_nil, hd, hd', Option.elim_some]
  omega

theorem fits_year {v : List Char} (h : Item.Y.Fits chars v) : intOf chars v ≤ 9999 := by
  obtain ⟨qs,hqs,hv⟩ := h
  obtain rfl := List.mem_singleton.mp hqs
  obtain ⟨c₁,_,h₁,hv₁,rfl⟩ := List.forall₂_cons_left_iff.mp hv
  obtain ⟨c₂,_,h₂,hv₂,rfl⟩ := List.forall₂_cons_left_iff.mp hv₁
  obtain ⟨c₃,_,h₃,hv₃,rfl⟩ := List.forall₂_cons_left_iff.mp hv₂
  obtain ⟨c₄,_,h₄,hv₄,rfl⟩ := List.forall₂_cons_left_iff.mp hv₃
  obtain rfl := List.forall₂_nil_left_iff.mp hv₄
  obtain ⟨d₁,hd₁,_,_⟩ := within_digit c₁ h₁
  obtain ⟨d₂,hd₂,_,_⟩ := within_digit c₂ h₂
  obtain ⟨d₃,hd₃,_,_⟩ := within_digit c₃ h₃
  obtain ⟨d₄,hd₄,_,_⟩ := within_digit c₄ h₄
  simp only [intOf, List.foldl_cons, List.foldl_nil, hd₁, hd₂, hd₃, hd₄, Option.elim_some]
  omega

theorem fits_month {v : List Char} (h : Item.m.Fits chars v) :
    1 ≤ intOf chars v ∧ intOf chars v ≤ 12 := by
  obtain ⟨qs,hqs,hv⟩ := h
  simp only [Item.forms, List.mem_cons, List.not_mem_nil, or_false] at hqs
  rcases hqs with rfl | rfl | rfl
  · have := intOf_two_within chars (within_between (by decide)) (within_between (by decide)) hv
    omega
  · have := intOf_two_within chars (within_between (by decide)) (within_between (by decide)) hv
    omega
  · have := intOf_one_within chars (within_between (by decide)) hv
    omega

theorem fits_day {v : List Char} (h : Item.d.Fits chars v) : 1 ≤ intOf chars v := by
  obtain ⟨qs,hqs,hv⟩ := h
  simp only [Item.forms, List.mem_cons, List.not_mem_nil, or_false] at hqs
  rcases hqs with rfl | rfl | rfl | rfl | rfl
  · have := intOf_two_within chars (within_between (by decide)) (within_between (by decide)) hv
    omega
  · have := intOf_two_within chars (within_between (by decide)) within_digit hv
    omega
  · have := intOf_two_within chars (within_between (by decide)) (within_between (by decide)) hv
    omega
  · exact (intOf_one_within chars (within_between (by decide)) hv).1
  · -- a blank and a digit: `int` leaves the blank out
    obtain ⟨c,w,hc,hw,rfl⟩ := List.forall₂_cons_left_iff.mp hv
    obtain rfl := of_decide_eq_true hc
    have hspace : chars.decimal ' ' = none := chars.decimal_ascii ' ' (by decide)
    have hone := (intOf_one_within chars (within_between (by decide)) hw).1
    rwa [intOf, List.foldl_cons, hspace, Option.elim_none]

theorem fits_hour {v : List Char} (h : Item.H.Fits chars v) : intOf chars v ≤ 23 := by
  obtain ⟨qs,hqs,hv⟩ := h
  simp only [Item.forms, List.mem_cons, List.not_mem_nil, or_false] at hqs
  rcases hqs with rfl | rfl | rfl
  · have := intOf_two_within chars (within_between (by decide)) (within_between (by decide)) hv
    omega
  · have := intOf_two_within chars (within_between (by decide)) within_digit hv
    omega
  · have := intOf_one_within chars within_digit hv
    omega

theorem fits_minute {v : List Char} (h : Item.M.Fits chars v) : intOf chars v ≤ 59 := by
  obtain ⟨qs,hqs,hv⟩ := h
  simp only [Item.forms, List.mem_cons, List.not_mem_nil, or_false] at hqs
  rcases hqs with rfl | rfl
  · exact (intOf_two_within chars (within_between (by decide)) within_digit hv).2
  · have := intOf_one_within chars within_digit hv
    omega

theorem intOf_zeros (v : List Char) (k : ℕ) :
    intOf chars (v ++ List.replicate k '0') = intOf chars v*10^k := by
  have hzero : chars.decimal '0' = some 0 := chars.decimal_ascii '0' (by decide)
  induction k with
  | zero => simp
  | succ k ih =>
    rw [List.replicate_succ', ← List.append_assoc, intOf, List.foldl_append, List.foldl_cons,
      List.foldl_nil, hzero, Option.elim_some]
    rw [intOf] at ih
    rw [ih, Nat.pow_succ, Nat.add_zero, Nat.mul_assoc]

/-- The microseconds of a fraction are its value in parts of a second. -/
theorem micros_iff {v : List Char} (hv : v.length ≤ 6) {us : ℕ} :
    us*10^v.length = intOf chars v*10^6 ↔
      us = intOf chars (v ++ List.replicate (6-v.length) '0') := by
  have hpow : 10^6 = 10^(6-v.length)*10^v.length := by
    rw [← Nat.pow_add, Nat.sub_add_cancel hv]
  rw [intOf_zeros, hpow, ← Nat.mul_assoc]
  exact Nat.mul_left_inj (Nat.pos_iff_ne_zero.mp (Nat.pow_pos (by decide)))

theorem group?_stamp (p : Stamp) (w rest : List Char) :
    let a : Found := ⟨w,p.groups,rest⟩
    a.group? "Y" = some p.year ∧ a.group? "m" = some p.month ∧ a.group? "d" = some p.day ∧
      a.group? "H" = some p.hour ∧ a.group? "M" = some p.minute ∧ a.group? "S" = some p.second ∧
      a.group? "f" = some p.fraction := by
  simp [Found.group?, Stamp.groups]

/-- What `strptime` makes of a timestamp. -/
theorem strptime_parts {p : Stamp} (h : p.Shaped chars) {t : ℤ} :
    strptime chars p.render BglParser.timeFormat = .ok t ↔ p.Means chars t := by
  have hyear := fits_year h.year
  have hmonth := fits_month h.month
  have hday := fits_day h.day
  have hhour := fits_hour h.hour
  have hminute := fits_minute h.minute
  have hmicros := @micros_iff chars p.fraction h.fraction.2.2
  simp only [strptime, match_stamp h, year, field, fraction, group?_stamp, Option.elim_some,
    ne_eq, not_true_eq_false, if_false]
  constructor
  · intro ht
    split at ht
    · cases ht
    · split at ht
      · cases ht
      · split at ht
        · cases ht
        · obtain rfl := Except.ok.inj ht
          exact ⟨⟨⟨by omega,hyear⟩,hmonth,hday,by omega⟩,⟨hhour,hminute,by omega⟩,_,
            hmicros.mpr rfl,rfl⟩
  · rintro ⟨⟨⟨hpos,_⟩,_,_,hlast⟩,⟨_,_,hsecond⟩,us,hus,rfl⟩
    rw [if_neg (by omega), if_neg (by omega), if_neg (by omega), hmicros.mp hus]

/-- A text of the format `%Y-%m-%d-%H.%M.%S.%f` and the instant it means. -/
def IsStamp (chars : CharTable) (w : List Char) (t : ℤ) : Prop :=
  ∃ p : Stamp, w = p.render ∧ p.Shaped chars ∧ p.Means chars t

/-- The texts that `strptime` takes are the timestamps of real instants. -/
theorem strptime_stamp {w : List Char} {t : ℤ} :
    strptime chars w BglParser.timeFormat = .ok t ↔ IsStamp chars w t := by
  constructor
  · intro ht
    obtain ⟨a,ha⟩ : ∃ a, (cat (BglParser.timeFormat.map (Item.regex chars))).match w = some a := by
      unfold strptime at ht
      split at ht
      · cases ht
      · exact ⟨_,‹_›⟩
    obtain ⟨hw,hy⟩ := mem_run.mp (First.mem ha)
    obtain ⟨p,hp,hword,_⟩ := yields_stamp.mp hy
    have hrest : a.rest = [] := by
      by_contra hne
      rw [strptime, ha] at ht
      dsimp only at ht
      rw [if_pos hne] at ht
      cases ht
    rw [hrest, List.append_nil, hword] at hw
    exact ⟨p,hw,hp,(strptime_parts hp).mp (hw ▸ ht)⟩
  · rintro ⟨p,rfl,hp,hmeans⟩
    exact (strptime_parts hp).mpr hmeans

end

end PipelineX.Strptime
