import PipelineX.Csv

/-!
# Which text the reader takes

The text of a row as the fields it is put together from. The reader refuses a
text exactly when it is no row: a carriage return outside quotes that the line
does not end with, or a field over the limit.
-/

set_option autoImplicit false

namespace PipelineX.Csv

/-- The end of a line. What stands after its newline is not looked at. -/
inductive LineEnd : List Char → Prop
  | text : LineEnd []
  | newline (rest : List Char) : LineEnd ('\n' :: rest)
  | return {rest : List Char} (h : LineEnd rest) : LineEnd ('\r' :: rest)

/-- Neither a comma nor a break. -/
def Plain (w : List Char) : Prop := ∀ c ∈ w, c ≠ ',' ∧ isBreak c = false

/-- The text of a field. After its closing quote a field goes on unquoted. -/
inductive Cell : List Char → Prop
  | plain {w : List Char} (hw : Plain w) (hquote : w.head? ≠ some quote)
      (hlen : w.length ≤ fieldLimit) : Cell w
  | quoted {body tail : List Char} (htail : Plain tail) (hquote : tail.head? ≠ some quote)
      (hlen : body.length+tail.length ≤ fieldLimit) : Cell (quote::(doubled body ++ quote::tail))

/-- A text that begins with a row. The quotes of the last field may stay open. -/
inductive Row : List Char → Prop
  | last {w rest : List Char} (hw : Cell w) (hrest : LineEnd rest) : Row (w ++ rest)
  | more {w rest : List Char} (hw : Cell w) (hrest : Row rest) : Row (w ++ ','::rest)
  | unclosed {body : List Char} (hlen : body.length ≤ fieldLimit) : Row (quote::doubled body)

/-- What may stand after a field. -/
def Follows (rest : List Char) : Prop := LineEnd rest ∨ ∃ t, rest = ','::t ∧ Row t

theorem lineEnd_break {c : Char} (hc : isBreak c = true) (cs : List Char) :
    LineEnd (c::cs) ↔ c = '\n' ∨ LineEnd cs := by
  constructor
  · rintro (_ | _ | h)
    · exact Or.inl rfl
    · exact Or.inr h
  · rintro (rfl | h)
    · exact LineEnd.newline cs
    · have hbreak : c = '\n' ∨ c = '\r' := by simpa [isBreak] using hc
      rcases hbreak with rfl | rfl
      · exact LineEnd.newline cs
      · exact LineEnd.return h

theorem lineEnd_other {c : Char} (hc : isBreak c = false) (cs : List Char) : ¬LineEnd (c::cs) := by
  rintro (_ | _ | _) <;> cases hc

theorem follows_break {c : Char} (hc : isBreak c = true) (cs : List Char) :
    Follows (c::cs) ↔ LineEnd (c::cs) := by
  constructor
  · rintro (h | ⟨t,h,_⟩)
    · exact h
    · cases h
      cases hc
  · exact Or.inl

theorem follows_comma (cs : List Char) : Follows (','::cs) ↔ Row cs := by
  constructor
  · rintro (h | ⟨t,h,ht⟩)
    · exact absurd h (lineEnd_other (by decide) cs)
    · cases h
      exact ht
  · exact fun h => Or.inr ⟨cs,rfl,h⟩

theorem follows_other {c : Char} (hcomma : c ≠ ',') (hbreak : isBreak c = false) (cs : List Char) :
    ¬Follows (c::cs) := by
  rintro (h | ⟨t,h,_⟩)
  · exact lineEnd_other hbreak cs h
  · exact hcomma (List.cons.inj h).1

theorem follows_head {rest : List Char} (h : Follows rest) : rest.head? ≠ some quote := by
  cases rest with
  | nil => exact fun h => by cases h
  | cons c cs =>
    intro hc
    cases hc
    exact follows_other (by decide) (by decide) cs h

/-- What is left of the text of a field that `n` characters were read of. -/
def Unquoted (n : ℕ) (cs : List Char) : Prop :=
  ∃ w rest, cs = w ++ rest ∧ Plain w ∧ n+w.length ≤ fieldLimit ∧ Follows rest

/-- As after a quote inside quotes. -/
def AfterQuote (n : ℕ) (cs : List Char) : Prop := cs.head? ≠ some quote ∧ Unquoted n cs

/-- The quotes close, or the text ends. -/
def Closes (n : ℕ) (cs : List Char) : Prop :=
  (cs = [] ∧ n ≤ fieldLimit) ∨ ∃ rest, cs = quote::rest ∧ AfterQuote n rest

def Quoted (n : ℕ) (cs : List Char) : Prop :=
  ∃ body rest, cs = doubled body ++ rest ∧ Closes (n+body.length) rest

theorem plain_cons {c : Char} {w : List Char} :
    Plain (c::w) ↔ (c ≠ ',' ∧ isBreak c = false) ∧ Plain w :=
  List.forall_mem_cons

theorem plain_nil : Plain [] := fun _ h => absurd h List.not_mem_nil

theorem unquoted_nil (n : ℕ) : Unquoted n [] ↔ n ≤ fieldLimit := by
  constructor
  · rintro ⟨w,rest,_,_,hlen,_⟩
    omega
  · exact fun h => ⟨[],[],rfl,plain_nil,h,Or.inl LineEnd.text⟩

/-- Nothing more belongs to the field. -/
theorem unquoted_end {n : ℕ} {c : Char} (hc : c = ',' ∨ isBreak c = true) (cs : List Char) :
    Unquoted n (c::cs) ↔ n ≤ fieldLimit ∧ Follows (c::cs) := by
  constructor
  · rintro ⟨w,rest,htext,hw,hlen,hrest⟩
    cases w with
    | nil => exact ⟨hlen,htext ▸ hrest⟩
    | cons d w =>
      obtain ⟨⟨hcomma,hbreak⟩,_⟩ := plain_cons.mp hw
      cases htext
      rcases hc with rfl | hc
      · exact absurd rfl hcomma
      · rw [hbreak] at hc
        cases hc
  · exact fun ⟨hlen,hrest⟩ => ⟨[],c::cs,rfl,plain_nil,hlen,hrest⟩

theorem unquoted_cons {n : ℕ} {c : Char} (hcomma : c ≠ ',') (hbreak : isBreak c = false)
    (cs : List Char) : Unquoted n (c::cs) ↔ Unquoted (n+1) cs := by
  constructor
  · rintro ⟨w,rest,htext,hw,hlen,hrest⟩
    cases w with
    | nil =>
      rw [List.nil_append] at htext
      exact absurd (htext ▸ hrest) (follows_other hcomma hbreak cs)
    | cons d w =>
      cases htext
      rw [List.length_cons] at hlen
      exact ⟨w,rest,rfl,(plain_cons.mp hw).2,by omega,hrest⟩
  · rintro ⟨w,rest,rfl,hw,hlen,hrest⟩
    refine ⟨c::w,rest,rfl,plain_cons.mpr ⟨⟨hcomma,hbreak⟩,hw⟩,?_,hrest⟩
    rw [List.length_cons]
    omega

theorem quoted_nil (n : ℕ) : Quoted n [] ↔ n ≤ fieldLimit := by
  constructor
  · rintro ⟨body,rest,htext,⟨_,hlen⟩ | ⟨t,rfl,_⟩⟩
    · omega
    · exact absurd htext.symm (List.append_ne_nil_of_right_ne_nil _ (List.cons_ne_nil _ _))
  · exact fun h => ⟨[],[],rfl,Or.inl ⟨rfl,h⟩⟩

/-- What a character inside quotes is the first of. -/
theorem doubled_eq_cons {c : Char} {cs body rest : List Char} (h : c::cs = doubled body ++ rest) :
    (body = [] ∧ rest = c::cs) ∨
      ∃ w, body = c::w ∧ (if c = quote then [c] else []) ++ (doubled w ++ rest) = cs := by
  cases body with
  | nil => exact Or.inl ⟨rfl,h.symm⟩
  | cons d w =>
    rw [doubled_cons, List.append_assoc] at h
    by_cases hd : d = quote
    · rw [if_pos hd, List.cons_append] at h
      obtain ⟨rfl,rfl⟩ := List.cons.inj h
      exact Or.inr ⟨w,rfl,by rw [if_pos hd]⟩
    · rw [if_neg hd, List.singleton_append] at h
      obtain ⟨rfl,rfl⟩ := List.cons.inj h
      exact Or.inr ⟨w,rfl,by rw [if_neg hd]; rfl⟩

theorem quoted_cons {n : ℕ} {c : Char} (hc : c ≠ quote) (cs : List Char) :
    Quoted n (c::cs) ↔ Quoted (n+1) cs := by
  constructor
  · rintro ⟨body,rest,htext,hrest⟩
    rcases doubled_eq_cons htext with ⟨rfl,rfl⟩ | ⟨w,rfl,hw⟩
    · rcases hrest with ⟨h,_⟩ | ⟨t,h,_⟩
      · cases h
      · exact absurd (List.cons.inj h).1 hc
    · rw [if_neg hc] at hw
      rw [List.length_cons, Nat.add_comm w.length, ← Nat.add_assoc] at hrest
      exact ⟨w,rest,hw.symm,hrest⟩
  · rintro ⟨w,rest,rfl,hrest⟩
    refine ⟨c::w,rest,?_,?_⟩
    · rw [doubled_cons, if_neg hc]
      rfl
    · rw [List.length_cons, Nat.add_comm w.length, ← Nat.add_assoc]
      exact hrest

theorem quoted_quote (n : ℕ) (cs : List Char) :
    Quoted n (quote::cs) ↔ (∃ t, cs = quote::t ∧ Quoted (n+1) t) ∨ AfterQuote n cs := by
  constructor
  · rintro ⟨body,rest,htext,hrest⟩
    rcases doubled_eq_cons htext with ⟨rfl,rfl⟩ | ⟨w,rfl,hw⟩
    · rcases hrest with ⟨h,_⟩ | ⟨t,h,ht⟩
      · cases h
      · cases h
        exact Or.inr ht
    · rw [if_pos rfl] at hw
      rw [List.length_cons, Nat.add_comm w.length, ← Nat.add_assoc] at hrest
      exact Or.inl ⟨_,hw.symm,w,rest,rfl,hrest⟩
  · rintro (⟨t,rfl,w,rest,rfl,hrest⟩ | h)
    · refine ⟨quote::w,rest,?_,?_⟩
      · rw [doubled_cons, if_pos rfl]
        rfl
      · rw [List.length_cons, Nat.add_comm w.length, ← Nat.add_assoc]
        exact hrest
    · exact ⟨[],quote::cs,rfl,Or.inr ⟨cs,rfl,h⟩⟩

theorem head_append {w rest : List Char} (hw : w.head? ≠ some quote)
    (hrest : rest.head? ≠ some quote) : (w ++ rest).head? ≠ some quote := by
  cases w with
  | nil => exact hrest
  | cons c w => exact hw

theorem cell_text {w rest : List Char} (hw : Cell w) (hrest : Follows rest) :
    AfterQuote 0 (w ++ rest) ∨ ∃ t, w ++ rest = quote::t ∧ Quoted 0 t := by
  cases hw with
  | plain hw hquote hlen =>
    exact Or.inl ⟨head_append hquote (follows_head hrest),w,rest,rfl,hw,by omega,hrest⟩
  | @quoted body tail htail hquote hlen =>
    refine Or.inr ⟨_,rfl,body,quote::(tail ++ rest),?_,Or.inr ⟨_,rfl,?_⟩⟩
    · exact List.append_assoc _ _ _
    · exact ⟨head_append hquote (follows_head hrest),tail,rest,rfl,htail,by omega,hrest⟩

theorem row_of_cell {w rest : List Char} (hw : Cell w) (hrest : Follows rest) : Row (w ++ rest) := by
  rcases hrest with h | ⟨t,rfl,h⟩
  · exact Row.last hw h
  · exact Row.more hw h

/-- A row, from the start of its first field on. -/
theorem row_iff {cs : List Char} :
    Row cs ↔ AfterQuote 0 cs ∨ ∃ t, cs = quote::t ∧ Quoted 0 t := by
  constructor
  · intro h
    cases h with
    | last hw hrest => exact cell_text hw (Or.inl hrest)
    | more hw hrest => exact cell_text hw (Or.inr ⟨_,rfl,hrest⟩)
    | @unclosed body hlen =>
      have hend : 0+body.length ≤ fieldLimit := by omega
      exact Or.inr ⟨_,rfl,body,[],(List.append_nil _).symm,Or.inl ⟨rfl,hend⟩⟩
  · rintro (⟨hquote,w,rest,rfl,hw,hlen,hrest⟩ | ⟨t,rfl,body,rest,rfl,hclose⟩)
    · refine row_of_cell (Cell.plain hw ?_ (by omega)) hrest
      cases w with
      | nil => exact fun h => by cases h
      | cons c w => exact hquote
    · rcases hclose with ⟨rfl,hlen⟩ | ⟨_,rfl,hquote,w,rest,rfl,hw,hlen,hrest⟩
      · rw [List.append_nil]
        exact Row.unclosed (by omega)
      · have hcell : Cell (quote::(doubled body ++ quote::w)) := by
          refine Cell.quoted hw ?_ (by omega)
          cases w with
          | nil => exact fun h => by cases h
          | cons c w => exact hquote
        have htext : quote::(doubled body ++ quote::(w ++ rest)) =
            quote::(doubled body ++ quote::w) ++ rest := by
          rw [List.cons_append, List.append_assoc]
          rfl
        rw [htext]
        exact row_of_cell hcell hrest

theorem row_nil : Row [] :=
  Row.last (Cell.plain plain_nil (fun h => by cases h) (by decide)) LineEnd.text

theorem row_quote (cs : List Char) : Row (quote::cs) ↔ Quoted 0 cs := by
  rw [row_iff]
  constructor
  · rintro (⟨h,_⟩ | ⟨t,h,ht⟩)
    · exact absurd rfl h
    · cases h
      exact ht
  · exact fun h => Or.inr ⟨cs,rfl,h⟩

theorem afterQuote_cons {n : ℕ} {c : Char} (hc : c ≠ quote) (cs : List Char) :
    AfterQuote n (c::cs) ↔ Unquoted n (c::cs) := by
  constructor
  · exact And.right
  · exact fun h => ⟨fun hquote => hc (Option.some.inj hquote),h⟩

theorem row_cons {c : Char} (hc : c ≠ quote) (cs : List Char) :
    Row (c::cs) ↔ Unquoted 0 (c::cs) := by
  rw [row_iff, afterQuote_cons hc]
  constructor
  · rintro (h | ⟨t,h,_⟩)
    · exact h
    · exact absurd (List.cons.inj h).1 hc
  · exact Or.inl

theorem unquoted_le {n : ℕ} {cs : List Char} (h : Unquoted n cs) : n ≤ fieldLimit := by
  obtain ⟨w,rest,_,_,hlen,_⟩ := h
  omega

theorem quoted_le {n : ℕ} {cs : List Char} (h : Quoted n cs) : n ≤ fieldLimit := by
  obtain ⟨body,rest,_,⟨_,hlen⟩ | ⟨t,_,_,h⟩⟩ := h
  · omega
  · have hlen := unquoted_le h
    omega

/-- What the reader has yet to read of a text, as its phase is. -/
def Awaits : Phase → ℕ → List Char → Prop
  | .startRecord, _, cs => Row cs
  | .startField, _, cs => Row cs
  | .inField, n, cs => Unquoted n cs
  | .inQuotedField, n, cs => Quoted n cs
  | .quoteInQuotedField, n, cs => (∃ t, cs = quote::t ∧ Quoted (n+1) t) ∨ AfterQuote n cs
  | .eatCrnl, _, cs => LineEnd cs

/-- A field is within the limit, and between fields there is none. -/
def Sound (r : Reader) : Prop :=
  r.field.length ≤ fieldLimit ∧
    (r.phase = .startRecord ∨ r.phase = .startField → r.field = [])

def Reads (r : Reader) (cs : List Char) : Prop := ∃ x, read r cs = .ok x

theorem reads_nil (r : Reader) : Reads r [] := ⟨ended r,rfl⟩

theorem not_reads {r : Reader} {c : Char} {e : String} (cs : List Char)
    (hp : processChar r c = .error e) : ¬Reads r (c::cs) := by
  rintro ⟨x,hx⟩
  rw [read, hp] at hx
  cases hx

theorem processEol_startRecord {r : Reader} (h : r.phase ≠ .inQuotedField) :
    (processEol r).phase = .startRecord := by
  unfold processEol
  cases hp : r.phase with
  | startRecord => exact hp
  | inQuotedField => exact absurd hp h
  | startField | inField | quoteInQuotedField | eatCrnl => rfl

theorem processEol_quoted {r : Reader} (h : r.phase = .inQuotedField) : processEol r = r := by
  unfold processEol
  rw [h]

/-- Outside quotes a newline is the last character that is read. -/
theorem reads_cons {r r' : Reader} {c : Char} (cs : List Char) (hp : processChar r c = .ok r') :
    Reads r (c::cs) ↔ (c = '\n' ∧ r'.phase ≠ .inQuotedField) ∨ Reads r' cs := by
  rw [Reads, read, hp]
  dsimp only
  by_cases hquoted : r'.phase = .inQuotedField
  · have hphase : (processEol r').phase ≠ .startRecord := by
      rw [processEol_quoted hquoted, hquoted]
      decide
    rw [if_neg hphase, processEol_quoted hquoted, ite_self]
    exact ⟨Or.inr,fun h => h.resolve_left fun h => h.2 hquoted⟩
  · rw [if_pos (processEol_startRecord hquoted)]
    by_cases hend : c = '\n' ∨ cs = []
    · rw [if_pos hend]
      refine ⟨fun _ => ?_,fun _ => ⟨_,rfl⟩⟩
      rcases hend with hc | rfl
      · exact Or.inl ⟨hc,hquoted⟩
      · exact Or.inr (reads_nil r')
    · rw [if_neg hend]
      exact ⟨Or.inr,fun h => h.resolve_left fun h => hend (Or.inl h.1)⟩

section
variable {cs : List Char}
  (ih : ∀ r : Reader, Sound r → (Reads r cs ↔ Awaits r.phase r.field.length cs))
include ih

theorem reads_break {r r' : Reader} {c : Char} (hc : isBreak c = true)
    (hp : processChar r c = .ok r') (hphase : r'.phase = .eatCrnl)
    (hlen : r'.field.length ≤ fieldLimit) : Reads r (c::cs) ↔ LineEnd (c::cs) := by
  have hsound : Sound r' := ⟨hlen,fun h => by rw [hphase] at h; rcases h with h | h <;> cases h⟩
  rw [reads_cons cs hp, ih r' hsound, hphase, lineEnd_break hc]
  exact or_congr_left (and_iff_left (by decide))

theorem reads_comma {r : Reader} (hp : processChar r ',' = .ok (saveField r .startField)) :
    Reads r (','::cs) ↔ Row cs := by
  have hsound : Sound (saveField r .startField) := ⟨Nat.zero_le _,fun _ => rfl⟩
  rw [reads_cons cs hp, ih _ hsound]
  exact or_iff_right fun h => absurd h.1 (by decide)

/-- One more character of a field, while the limit allows it. -/
theorem reads_add {r : Reader} {c : Char} {phase : Phase}
    (hp : processChar r c = addChar r c phase)
    (hphase : ¬(phase = .startRecord ∨ phase = .startField))
    (hnewline : ¬(c = '\n' ∧ phase ≠ .inQuotedField))
    (hle : Awaits phase (r.field.length+1) cs → r.field.length+1 ≤ fieldLimit) :
    Reads r (c::cs) ↔ Awaits phase (r.field.length+1) cs := by
  by_cases hfull : r.field.length < fieldLimit
  · have hsound : Sound ⟨phase,r.fields,r.field ++ [c]⟩ := by
      refine ⟨?_,fun h => absurd h hphase⟩
      rw [List.length_append]
      exact hfull
    rw [reads_cons cs (hp.trans (addChar_ok r c _ hfull)), ih _ hsound, List.length_append]
    exact or_iff_right hnewline
  · have herror : processChar r c = .error "field larger than field limit (131072)" := by
      rw [hp, addChar, if_pos (Nat.le_of_not_lt hfull)]
    refine ⟨fun h => absurd h (not_reads cs herror),fun h => ?_⟩
    have hlen := hle h
    omega

theorem reads_unquoted {r : Reader} {c : Char} (hc : isBreak c = false)
    (hp : processChar r c = addChar r c .inField) :
    Reads r (c::cs) ↔ Unquoted (r.field.length+1) cs :=
  reads_add ih hp (by decide) (fun h => ne_newline hc h.1) unquoted_le

theorem reads_quoted {r : Reader} {c : Char} (hp : processChar r c = addChar r c .inQuotedField) :
    Reads r (c::cs) ↔ Quoted (r.field.length+1) cs :=
  reads_add ih hp (by decide) (fun h => h.2 rfl) quoted_le

/-- A character outside quotes ends the line, ends the field or belongs to it. -/
theorem reads_outside {r : Reader} {c : Char} (hr : r.field.length ≤ fieldLimit)
    (hend : isBreak c = true → processChar r c = .ok (saveField r .eatCrnl))
    (hcomma : c = ',' → processChar r c = .ok (saveField r .startField))
    (hplain : c ≠ ',' → isBreak c = false → processChar r c = addChar r c .inField) :
    Reads r (c::cs) ↔ Unquoted r.field.length (c::cs) := by
  cases hbreak : isBreak c with
  | true =>
    rw [reads_break ih hbreak (hend hbreak) rfl (Nat.zero_le _), unquoted_end (Or.inr hbreak),
      follows_break hbreak]
    exact (and_iff_right hr).symm
  | false =>
    by_cases hc : c = ','
    · subst hc
      rw [reads_comma ih (hcomma rfl), unquoted_end (Or.inl rfl), follows_comma]
      exact (and_iff_right hr).symm
    · rw [reads_unquoted ih hbreak (hplain hc hbreak), unquoted_cons hc hbreak]

theorem reads_startField {r : Reader} {c : Char} (hr : r.field = [])
    (hp : processChar r c = startField r c) : Reads r (c::cs) ↔ Row (c::cs) := by
  have hlen : r.field.length = 0 := by rw [hr, List.length_nil]
  unfold startField at hp
  by_cases hquote : c = quote
  · have hbreak : ¬isBreak c = true := by
      rw [hquote]
      decide
    rw [if_neg hbreak, if_pos hquote] at hp
    have hsound : Sound { r with phase := .inQuotedField } :=
      ⟨Nat.le_trans (Nat.le_of_eq hlen) (Nat.zero_le _),fun h => by rcases h with h | h <;> cases h⟩
    rw [reads_cons cs hp, ih _ hsound, hquote, row_quote, Awaits, hr]
    exact or_iff_right fun h => h.2 rfl
  · rw [row_cons hquote, ← hlen]
    apply reads_outside ih (Nat.le_trans (Nat.le_of_eq hlen) (Nat.zero_le _))
    · exact fun hbreak => by rw [hp, if_pos hbreak]
    · rintro rfl
      exact hp
    · intro hcomma hbreak
      rw [hp, hbreak, if_neg (by decide), if_neg hquote, if_neg hcomma]

theorem reads_inField {fields : List (List Char)} {field : List Char} {c : Char}
    (hr : field.length ≤ fieldLimit) :
    Reads ⟨.inField,fields,field⟩ (c::cs) ↔ Unquoted field.length (c::cs) := by
  apply reads_outside ih hr
  · intro hbreak
    simp only [processChar, hbreak, if_true]
  · rintro rfl
    rfl
  · intro hcomma hbreak
    simp only [processChar, hbreak, hcomma, Bool.false_eq_true, if_false]

theorem reads_afterQuote {fields : List (List Char)} {field : List Char} {c : Char}
    (hr : field.length ≤ fieldLimit) :
    Reads ⟨.quoteInQuotedField,fields,field⟩ (c::cs) ↔
      Awaits .quoteInQuotedField field.length (c::cs) := by
  rw [Awaits]
  by_cases hquote : c = quote
  · subst hquote
    have hp : processChar ⟨.quoteInQuotedField,fields,field⟩ quote =
        addChar ⟨.quoteInQuotedField,fields,field⟩ quote .inQuotedField := by
      simp only [processChar, if_true]
    rw [reads_quoted ih hp]
    constructor
    · exact fun h => Or.inl ⟨cs,rfl,h⟩
    · rintro (⟨t,h,ht⟩ | ⟨h,_⟩)
      · cases h
        exact ht
      · exact absurd rfl h
  · rw [afterQuote_cons hquote]
    have hnot : ¬∃ t, c::cs = quote::t ∧ Quoted (field.length+1) t := by
      rintro ⟨t,h,_⟩
      exact hquote (List.cons.inj h).1
    rw [or_iff_right hnot]
    apply reads_outside ih hr
    · intro hbreak
      have hcomma : c ≠ ',' := fun h => by rw [h] at hbreak; cases hbreak
      simp only [processChar, hquote, hcomma, hbreak, if_true, if_false]
    · rintro rfl
      rfl
    · intro hcomma hbreak
      simp only [processChar, hquote, hcomma, hbreak, Bool.false_eq_true, if_false]

theorem reads_inQuotedField {fields : List (List Char)} {field : List Char} {c : Char}
    (hr : field.length ≤ fieldLimit) :
    Reads ⟨.inQuotedField,fields,field⟩ (c::cs) ↔ Quoted field.length (c::cs) := by
  by_cases hquote : c = quote
  · have hsound : Sound ⟨.quoteInQuotedField,fields,field⟩ :=
      ⟨hr,fun h => by rcases h with h | h <;> cases h⟩
    have hp : processChar ⟨.inQuotedField,fields,field⟩ c =
        .ok ⟨.quoteInQuotedField,fields,field⟩ := by
      simp only [processChar, hquote, if_true]
    rw [reads_cons cs hp, ih _ hsound, hquote, quoted_quote]
    exact or_iff_right fun h => absurd h.1 (by decide)
  · have hp : processChar ⟨.inQuotedField,fields,field⟩ c =
        addChar ⟨.inQuotedField,fields,field⟩ c .inQuotedField := by
      simp only [processChar, hquote, if_false]
    rw [reads_quoted ih hp, quoted_cons hquote]

theorem reads_eatCrnl {r : Reader} {c : Char} (hphase : r.phase = .eatCrnl)
    (hr : r.field.length ≤ fieldLimit) : Reads r (c::cs) ↔ LineEnd (c::cs) := by
  cases hbreak : isBreak c with
  | true =>
    have hp : processChar r c = .ok r := by
      unfold processChar
      rw [hphase, hbreak]
      rfl
    exact reads_break ih hbreak hp hphase hr
  | false =>
    have hp : processChar r c = .error ("new-line character seen in unquoted field - " ++
        "do you need to open the file with newline=''?") := by
      unfold processChar
      rw [hphase, hbreak]
      rfl
    exact ⟨fun h => absurd h (not_reads cs hp),fun h => absurd h (lineEnd_other hbreak cs)⟩

end

/-- One character of the text at a time, whatever phase the reader is in. -/
theorem reads_iff_awaits (cs : List Char) (r : Reader) (hr : Sound r) :
    Reads r cs ↔ Awaits r.phase r.field.length cs := by
  induction cs generalizing r with
  | nil =>
    refine ⟨fun _ => ?_,fun _ => reads_nil r⟩
    cases r.phase with
    | startRecord | startField => exact row_nil
    | inField => exact (unquoted_nil _).mpr hr.1
    | inQuotedField => exact (quoted_nil _).mpr hr.1
    | quoteInQuotedField => exact Or.inr ⟨(fun h => by cases h),(unquoted_nil _).mpr hr.1⟩
    | eatCrnl => exact LineEnd.text
  | cons c cs ih =>
    obtain ⟨phase,fields,field⟩ := r
    cases phase with
    | startRecord =>
      have hfield : field = [] := hr.2 (Or.inl rfl)
      cases hbreak : isBreak c with
      | true =>
        have hp : processChar ⟨.startRecord,fields,field⟩ c = .ok ⟨.eatCrnl,fields,field⟩ := by
          simp only [processChar, hbreak, if_true]
        have hquote : c ≠ quote := fun h => by rw [h] at hbreak; cases hbreak
        rw [reads_break ih hbreak hp rfl hr.1, Awaits, row_cons hquote,
          unquoted_end (Or.inr hbreak), follows_break hbreak]
        exact (and_iff_right (Nat.zero_le _)).symm
      | false =>
        have hp : processChar ⟨.startRecord,fields,field⟩ c =
            startField ⟨.startRecord,fields,field⟩ c := by
          simp only [processChar, hbreak, Bool.false_eq_true, if_false]
        exact reads_startField ih hfield hp
    | startField => exact reads_startField ih (hr.2 (Or.inr rfl)) rfl
    | inField => exact reads_inField ih hr.1
    | inQuotedField => exact reads_inQuotedField ih hr.1
    | quoteInQuotedField => exact reads_afterQuote ih hr.1
    | eatCrnl => exact reads_eatCrnl ih rfl hr.1

/-- The reader takes a text exactly when it begins with a row. -/
theorem next_ok_iff (text : List Char) : (∃ x, next text = .ok x) ↔ Row text :=
  reads_iff_awaits text .initial ⟨Nat.zero_le _,fun _ => rfl⟩

end PipelineX.Csv
