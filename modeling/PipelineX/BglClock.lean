import PipelineX.BglEvaluation

/-!
# Lines of a log at given times

A BGL line for each second of the first day of the epoch.
-/

set_option autoImplicit false

namespace PipelineX.BglEvaluation
open PipelineX.Records PipelineX.Parsers PipelineX.Strptime PipelineX.Words

section
variable (chars : CharTable)

/-- Two digits. -/
def two (n : ℕ) : List Char := [Char.ofNat (48+n/10),Char.ofNat (48+n%10)]

/-- A moment of the first day of the epoch. -/
def clock (hour minute second : ℕ) : Stamp :=
  ⟨['1','9','7','0'],['0','1'],['0','1'],two hour,two minute,two second,['0']⟩

theorem two_spec {n : ℕ} (hn : n < 60) :
    Ascii (Char.ofNat (48+n/10)) ∧ Ascii (Char.ofNat (48+n%10)) ∧
      value (Char.ofNat (48+n/10)) (Char.ofNat (48+n%10)) = n := by
  have hdigit : ∀ k < 10, (Char.ofNat (48+k)).toNat = 48+k := by decide
  rw [Ascii, Ascii, value, hdigit _ (by omega), hdigit _ (by omega)]
  omega

theorem intOf_two_digits {n : ℕ} (hn : n < 60) : intOf chars (two n) = n := by
  obtain ⟨hc,he,hvalue⟩ := two_spec hn
  rw [two, intOf_two chars hc he, hvalue]

/-- What a directive tries first takes two digits. -/
theorem twos_front (it : Item) : it.twos chars <+: it.forms chars := by
  cases it with
  | y => exact ⟨[],rfl⟩
  | Y => exact List.nil_prefix
  | m => exact ⟨[[between 1 9]],rfl⟩
  | d => exact ⟨[[between 1 9],[blank,between 1 9]],rfl⟩
  | H => exact ⟨[[digit chars]],rfl⟩
  | M => exact ⟨[[digit chars]],rfl⟩
  | S => exact ⟨[[digit chars]],rfl⟩
  | f => exact List.nil_prefix
  | char c => exact List.nil_prefix

/-- Two digits that a directive admits are a form of it. -/
theorem fits_two {it : Item} {c e : Char} (hc : Ascii c) (he : Ascii e)
    (h : it.Admits (value c e)) : it.Fits chars [c,e] := by
  obtain ⟨qs,hqs,hfits⟩ := (twos_iff chars it hc he).mpr h
  exact ⟨qs,(twos_front chars it).subset hqs,hfits⟩

theorem clock_isStamp {hour minute second : ℕ} (hh : hour ≤ 23) (hm : minute ≤ 59)
    (hs : second ≤ 59) : IsStamp chars (clock hour minute second).render
      (((hour*60+minute)*60+second : ℤ)*1000000) := by
  have hone : Ascii '0' ∧ Ascii '1' := by
    unfold Ascii
    decide
  obtain ⟨hhc,hhe,hhv⟩ := two_spec (show hour < 60 by omega)
  obtain ⟨hmc,hme,hmv⟩ := two_spec (show minute < 60 by omega)
  obtain ⟨hsc,hse,hsv⟩ := two_spec (show second < 60 by omega)
  have hd₀ : chars.decimal '0' = some 0 := chars.decimal_ascii '0' (by decide)
  have hd₁ : chars.decimal '1' = some 1 := chars.decimal_ascii '1' (by decide)
  have hd₇ : chars.decimal '7' = some 7 := chars.decimal_ascii '7' (by decide)
  have hd₉ : chars.decimal '9' = some 9 := chars.decimal_ascii '9' (by decide)
  have hyear : intOf chars ['1','9','7','0'] = 1970 := by
    simp [intOf, hd₀, hd₁, hd₇, hd₉]
  have hnone : intOf chars ['0'] = 0 := by simp [intOf, hd₀]
  have hfirst : intOf chars ['0','1'] = 1 := intOf_two chars hone.1 hone.2
  refine ⟨clock hour minute second,rfl,?_,?_⟩
  · constructor
    · exact ⟨_,List.mem_cons_self,by simp [clock, digit, hd₀, hd₁, hd₇, hd₉]⟩
    · exact fits_two chars hone.1 hone.2 ⟨by decide,by decide⟩
    · exact fits_two chars hone.1 hone.2 ⟨by decide,by decide⟩
    · exact fits_two chars hhc hhe (by rw [hhv]; exact hh)
    · exact fits_two chars hmc hme (by rw [hmv]; exact hm)
    · exact fits_two chars hsc hse (by rw [hsv]; exact (by omega : second ≤ 61))
    · exact ⟨by simp [clock, between],by simp [clock],by simp [clock]⟩
  · constructor
    · rw [clock, hyear, hfirst]
      decide
    · rw [clock, intOf_two_digits chars (show hour < 60 by omega),
        intOf_two_digits chars (show minute < 60 by omega),
        intOf_two_digits chars (show second < 60 by omega)]
      exact ⟨hh,hm,hs⟩
    · refine ⟨0,by rw [clock, hnone, Nat.zero_mul, Nat.zero_mul],?_⟩
      rw [clock, hyear, hfirst, intOf_two_digits chars (show hour < 60 by omega),
        intOf_two_digits chars (show minute < 60 by omega),
        intOf_two_digits chars (show second < 60 by omega), Calendar.instant]
      have hepoch : (Calendar.toordinal 1970 1 1 - Calendar.epoch : ℤ) = 0 := by decide
      rw [hepoch]
      simp

/-- A printed character of ASCII. -/
def Visible (c : Char) : Prop := 33 ≤ c.toNat ∧ c.toNat < 127

instance (c : Char) : Decidable (Visible c) := inferInstanceAs (Decidable (_ ∧ _))

theorem two_visible {n : ℕ} (hn : n < 60) : ∀ c ∈ two n, Visible c := by
  obtain ⟨hc,he,_⟩ := two_spec hn
  have hvisible {c : Char} (h : Ascii c) : Visible c := ⟨by have := h.1; omega,by have := h.2; omega⟩
  simp only [two, List.forall_mem_cons, List.not_mem_nil, false_implies, implies_true, and_true]
  exact ⟨hvisible hc,hvisible he⟩

theorem clock_visible {hour minute second : ℕ} (hh : hour ≤ 23) (hm : minute ≤ 59)
    (hs : second ≤ 59) : ∀ c ∈ (clock hour minute second).render, Visible c := by
  have hhour := two_visible (show hour < 60 by omega)
  have hminute := two_visible (show minute < 60 by omega)
  have hsecond := two_visible (show second < 60 by omega)
  have hdash : Visible '-' := by decide
  have hdot : Visible '.' := by decide
  have hyear : ∀ c ∈ ['1','9','7','0'], Visible c := CharTable.forall_of_all rfl
  have hfirst : ∀ c ∈ ['0','1'], Visible c := CharTable.forall_of_all rfl
  have hnone : ∀ c ∈ ['0'], Visible c := CharTable.forall_of_all rfl
  simp only [Stamp.render, clock, List.forall_mem_append, List.forall_mem_cons (a := '-'),
    List.forall_mem_cons (a := '.')]
  exact ⟨hyear,hdash,hfirst,hdash,hfirst,hdash,hhour,hdot,hminute,hdot,hsecond,hdot,hnone⟩

/-- The fields of a line before its text. -/
def clockFields (hour minute second : ℕ) : List (List Char) :=
  [['-'],['0'],['0'],['n'],(clock hour minute second).render,['n'],['R','A','S'],
    ['K','E','R','N','E','L'],['I','N','F','O']]

def clockLine (hour minute second : ℕ) : List Char :=
  [' '].intercalate (clockFields hour minute second ++ [['x']])

theorem clockFields_visible {hour minute second : ℕ} (hh : hour ≤ 23) (hm : minute ≤ 59)
    (hs : second ≤ 59) : ∀ w ∈ clockFields hour minute second, w ≠ [] ∧ ∀ c ∈ w, Visible c := by
  intro w hw
  simp only [clockFields, List.mem_cons, List.not_mem_nil, or_false] at hw
  rcases hw with rfl | rfl | rfl | rfl | rfl | hw
  · exact ⟨List.cons_ne_nil _ _,CharTable.forall_of_all rfl⟩
  · exact ⟨List.cons_ne_nil _ _,CharTable.forall_of_all rfl⟩
  · exact ⟨List.cons_ne_nil _ _,CharTable.forall_of_all rfl⟩
  · exact ⟨List.cons_ne_nil _ _,CharTable.forall_of_all rfl⟩
  · exact ⟨by simp [Stamp.render, clock],clock_visible hh hm hs⟩
  · rcases hw with rfl | rfl | rfl | rfl
    all_goals exact ⟨List.cons_ne_nil _ _,CharTable.forall_of_all rfl⟩

theorem not_space {c : Char} (h : Visible c) : chars.space c = false := by
  obtain ⟨hlow,hhigh⟩ := h
  rw [chars.space_ascii c (by omega), Bool.eq_false_iff]
  intro hs
  simp only [Bool.or_eq_true, Bool.and_eq_true, decide_eq_true_eq] at hs
  omega

theorem clockLine_chars {hour minute second : ℕ} (hh : hour ≤ 23) (hm : minute ≤ 59)
    (hs : second ≤ 59) : ∀ c ∈ clockLine hour minute second, Visible c ∨ c = ' ' := by
  intro c hc
  rw [clockLine, BglFormat.intercalate_eq] at hc
  rcases List.mem_append.mp hc with hc | hc
  · obtain ⟨w,hw,hc⟩ := List.mem_flatMap.mp hc
    rcases List.mem_append.mp hc with hc | hc
    · exact Or.inl ((clockFields_visible hh hm hs w hw).2 c hc)
    · exact Or.inr (List.mem_singleton.mp hc)
  · rw [List.mem_singleton.mp hc]
    exact Or.inl (by decide)

theorem clockLine_notMem {hour minute second : ℕ} (hh : hour ≤ 23) (hm : minute ≤ 59)
    (hs : second ≤ 59) {c : Char} (hc : c.toNat < 32) : c ∉ clockLine hour minute second := by
  intro hmem
  rcases clockLine_chars hh hm hs c hmem with ⟨hlow,_⟩ | rfl
  · omega
  · exact absurd hc (by decide)

theorem clockLine_ne_nil (hour minute second : ℕ) : clockLine hour minute second ≠ [] := by
  rw [clockLine, BglFormat.intercalate_eq]
  simp

/-- The line is parsed, with its newline or without it. -/
theorem clockLine_parsed (ids : ℕ → UUID) (i : ℕ) {hour minute second : ℕ} (hh : hour ≤ 23)
    (hm : minute ≤ 59) (hs : second ≤ 59) {line : List Char}
    (hline : line = clockLine hour minute second ∨
      line = clockLine hour minute second ++ ['\n']) : parsedLine chars ids (line,i) =
      some (((hour*60+minute)*60+second : ℤ)*1000000,"-") := by
  have hstrip : TextFile.rstripNewline line = clockLine hour minute second := by
    obtain ⟨hself,hnewline⟩ := TextFile.rstripNewline_line
      (clockLine_notMem hh hm hs (show ('\n' : Char).toNat < 32 by decide))
    rcases hline with rfl | rfl
    · exact hself
    · exact hnewline
  have hwords : ∀ v ∈ clockFields hour minute second, IsWord chars.space v := by
    intro v hv
    obtain ⟨hne,hvisible⟩ := clockFields_visible hh hm hs v hv
    exact ⟨hne,fun c hc => not_space chars (hvisible c hc)⟩
  obtain ⟨r,hr,hholds⟩ := BglFormat.parse_joined (ids i) (m := ['x']) rfl hwords
    ⟨'x',rfl,not_space chars (by decide)⟩ rfl (clock_isStamp chars hh hm hs)
  change BglParser.parse chars (ids i) (String.ofList (clockLine hour minute second)) = .ok r at hr
  have hlabel : r.enrichment.get? "bgl_label" = some (.str "-") := hholds.label
  simp [parsedLine, hstrip, clockLine_ne_nil, hr, hholds.timestamp, hlabel]

end

end PipelineX.BglEvaluation
