import PipelineX.OrderedDict
import Mathlib.Tactic.Common

/-!
# Comma-separated values

The reader of Python's `csv` module with its default dialect, one character
at a time, and the quoting that it undoes. A line ends with a newline or with
the text; a record goes on over the lines while a quoted field is open.
-/

set_option autoImplicit false

namespace PipelineX.Csv

inductive Phase where
  | startRecord
  | startField
  | inField
  | inQuotedField
  | quoteInQuotedField
  | eatCrnl
  deriving DecidableEq, Repr

structure Reader where
  phase : Phase
  fields : List (List Char)
  field : List Char
  deriving DecidableEq, Repr

def Reader.initial : Reader := ⟨.startRecord,[],[]⟩

/-- `csv.field_size_limit()`. -/
def fieldLimit : ℕ := 131072

def quote : Char := Char.ofNat 34

def saveField (r : Reader) (phase : Phase) : Reader := ⟨phase,r.fields ++ [r.field],[]⟩

def addChar (r : Reader) (c : Char) (phase : Phase) : Except String Reader :=
  if fieldLimit ≤ r.field.length then .error "field larger than field limit (131072)"
  else .ok ⟨phase,r.fields,r.field ++ [c]⟩

def isBreak (c : Char) : Bool := c = '\n' || c = '\r'

/-- A character in a record, at the start of a field. -/
def startField (r : Reader) (c : Char) : Except String Reader :=
  if isBreak c then .ok (saveField r .eatCrnl)
  else if c = quote then .ok { r with phase := .inQuotedField }
  else if c = ',' then .ok (saveField r .startField)
  else addChar r c .inField

def processChar (r : Reader) (c : Char) : Except String Reader :=
  match r.phase with
  | .startRecord => if isBreak c then .ok { r with phase := .eatCrnl } else startField r c
  | .startField => startField r c
  | .inField =>
    if isBreak c then .ok (saveField r .eatCrnl)
    else if c = ',' then .ok (saveField r .startField)
    else addChar r c .inField
  | .inQuotedField =>
    if c = quote then .ok { r with phase := .quoteInQuotedField }
    else addChar r c .inQuotedField
  | .quoteInQuotedField =>
    if c = quote then addChar r c .inQuotedField
    else if c = ',' then .ok (saveField r .startField)
    else if isBreak c then .ok (saveField r .eatCrnl)
    else addChar r c .inField
  | .eatCrnl =>
    if isBreak c then .ok r
    else .error ("new-line character seen in unquoted field - " ++
      "do you need to open the file with newline=''?")

/-- The end of a line. -/
def processEol (r : Reader) : Reader :=
  match r.phase with
  | .startRecord => r
  | .startField => saveField r .startRecord
  | .inField => saveField r .startRecord
  | .inQuotedField => r
  | .quoteInQuotedField => saveField r .startRecord
  | .eatCrnl => { r with phase := .startRecord }

/-- No lines are left. -/
def ended (r : Reader) : Option (List (List Char)) :=
  if r.field ≠ [] ∨ r.phase = .inQuotedField then some (r.fields ++ [r.field]) else none

def read : Reader → List Char → Except String (Option (List (List Char)))
  | r, [] => .ok (ended r)
  | r, c::cs =>
    match processChar r c with
    | .error e => .error e
    | .ok r =>
      if c = '\n' ∨ cs = [] then
        if (processEol r).phase = .startRecord then .ok (some (processEol r).fields)
        else read (processEol r) cs
      else read r cs

/-- `next(csv.reader(StringIO(text)))`; nothing is `StopIteration`. -/
def next (text : List Char) : Except String (Option (List (List Char))) := read .initial text

/-- All records, the reader run to its end. -/
def records : Reader → List Char → Except String (List (List (List Char)))
  | r, [] => .ok (ended r).toList
  | r, c::cs =>
    match processChar r c with
    | .error e => .error e
    | .ok r =>
      if c = '\n' ∨ cs = [] then
        if (processEol r).phase = .startRecord then
          (records .initial cs).map ((processEol r).fields::·)
        else records (processEol r) cs
      else records r cs

/-- A row of `csv.DictReader`: of two columns of one name the later counts, and
the names that a short row does not reach are set to `restval`, which is
`None`. What a long row has left over is kept under no name and left out. -/
def dictRow (header row : List (List Char)) : OrderedDict String (Option String) :=
  let d := (header.zip row).foldl
    (fun d p => d.insert (String.ofList p.1) (some (String.ofList p.2))) .empty
  (header.drop row.length).foldl (fun d key => d.insert (String.ofList key) none) d

/-- `row.get(key)`. -/
def column (row : OrderedDict String (Option String)) (key : String) : Option String :=
  (row.get? key).join

/-- The second column of the name is the one that counts. -/
example : column (dictRow ["EventId".toList,"EventTemplate".toList,"EventId".toList]
    ["E1".toList,"foo".toList]) "EventId" = none := by decide

/-- `list(csv.DictReader(fh))`. The first record names the columns, and empty
records after it are skipped. -/
def dictRows (text : List Char) : Except String (List (OrderedDict String (Option String))) :=
  (records .initial text).map (fun
    | [] => []
    | header::rows => (rows.filter (· ≠ [])).map (dictRow header))

/-- The field needs quotes. -/
def special (w : List Char) : Bool := w.any (fun c => c = ',' || c = quote || isBreak c)

def doubled (w : List Char) : List Char := w.flatMap (fun c => if c = quote then [c,c] else [c])

def encodeField (w : List Char) : List Char :=
  if special w then [quote] ++ doubled w ++ [quote] else w

def encode (row : List (List Char)) : List Char := [','].intercalate (row.map encodeField)

/-- What remains to be done after a character that is not a newline. -/
def proceed (r : Reader) (cs : List Char) : Except String (Option (List (List Char))) :=
  if cs = [] then
    if (processEol r).phase = .startRecord then .ok (some (processEol r).fields)
    else .ok (ended (processEol r))
  else read r cs

theorem read_cons {r r' : Reader} {c : Char} {cs : List Char} (hp : processChar r c = .ok r')
    (hc : c ≠ '\n') : read r (c::cs) = proceed r' cs := by
  rw [read, hp]
  simp only [hc, false_or, proceed]
  split
  · next h =>
    subst h
    rfl
  · rfl

theorem read_of_proceed {r : Reader} {cs : List Char} (h : cs ≠ []) : proceed r cs = read r cs :=
  if_neg h

theorem doubled_cons (c : Char) (w : List Char) :
    doubled (c::w) = (if c = quote then [c,c] else [c]) ++ doubled w :=
  List.flatMap_cons

theorem addChar_ok (r : Reader) (c : Char) (phase : Phase) (h : r.field.length < fieldLimit) :
    addChar r c phase = .ok ⟨phase,r.fields,r.field ++ [c]⟩ :=
  if_neg (Nat.not_le.mpr h)

theorem quote_ne_newline : quote ≠ '\n' := by decide

theorem ne_newline {c : Char} (h : isBreak c = false) : c ≠ '\n' := by
  intro hc
  rw [hc] at h
  cases h

/-- A newline inside quotes is a character like any other. -/
theorem read_quoted_char (fields : List (List Char)) (field : List Char) {c : Char}
    (cs : List Char) (hc : c ≠ quote) (h : field.length < fieldLimit) :
    read ⟨.inQuotedField,fields,field⟩ (c::cs) =
      read ⟨.inQuotedField,fields,field ++ [c]⟩ cs := by
  have hp : processChar ⟨.inQuotedField,fields,field⟩ c =
      .ok ⟨.inQuotedField,fields,field ++ [c]⟩ := by
    rw [processChar, if_neg hc]
    exact addChar_ok _ c _ h
  rw [read, hp]
  simp only [processEol, reduceCtorEq, if_false, ite_self]

theorem read_quoted_quote (fields : List (List Char)) (field cs : List Char) (hcs : cs ≠ [])
    (h : field.length < fieldLimit) :
    read ⟨.inQuotedField,fields,field⟩ (quote::quote::cs) =
      read ⟨.inQuotedField,fields,field ++ [quote]⟩ cs := by
  have hopen : processChar ⟨.inQuotedField,fields,field⟩ quote =
      .ok ⟨.quoteInQuotedField,fields,field⟩ := by
    rw [processChar, if_pos rfl]
  have hsecond : processChar ⟨.quoteInQuotedField,fields,field⟩ quote =
      .ok ⟨.inQuotedField,fields,field ++ [quote]⟩ := by
    rw [processChar, if_pos rfl]
    exact addChar_ok _ quote _ h
  rw [read_cons hopen quote_ne_newline, read_of_proceed (List.cons_ne_nil _ _),
    read_cons hsecond quote_ne_newline, read_of_proceed hcs]

/-- Inside quotes a field is read back up to the closing quote. -/
theorem read_doubled (fields : List (List Char)) (field w cs : List Char) (hcs : cs ≠ [])
    (hlen : field.length+w.length ≤ fieldLimit) :
    read ⟨.inQuotedField,fields,field⟩ (doubled w ++ cs) =
      read ⟨.inQuotedField,fields,field ++ w⟩ cs := by
  induction w generalizing field with
  | nil => simp [doubled]
  | cons c w ih =>
    rw [List.length_cons] at hlen
    have hrest : doubled w ++ cs ≠ [] := List.append_ne_nil_of_right_ne_nil _ hcs
    have hstep : read ⟨.inQuotedField,fields,field⟩ (doubled (c::w) ++ cs) =
        read ⟨.inQuotedField,fields,field ++ [c]⟩ (doubled w ++ cs) := by
      rw [doubled_cons, List.append_assoc]
      by_cases hc : c = quote
      · rw [if_pos hc, hc]
        exact read_quoted_quote fields field _ hrest (by omega)
      · rw [if_neg hc]
        exact read_quoted_char fields field _ hc (by omega)
    rw [hstep, ih _ (by rw [List.length_append, List.length_singleton]; omega),
      List.append_assoc, List.singleton_append]

/-- No character of the field is special. -/
theorem special_eq_false {w : List Char} : special w = false ↔
    ∀ c ∈ w, c ≠ ',' ∧ c ≠ quote ∧ isBreak c = false := by
  simp [special, and_assoc]

/-- Outside quotes a field is read character by character. -/
theorem read_plain (fields : List (List Char)) (field w cs : List Char) (hne : field ≠ [])
    (hw : special w = false) (hlen : field.length+w.length ≤ fieldLimit) :
    proceed ⟨.inField,fields,field⟩ (w ++ cs) = proceed ⟨.inField,fields,field ++ w⟩ cs := by
  induction w generalizing field with
  | nil => simp
  | cons c w ih =>
    rw [special_eq_false] at hw
    obtain ⟨hcomma,hquote,hbreak⟩ := hw c List.mem_cons_self
    rw [List.length_cons] at hlen
    have hp : processChar ⟨.inField,fields,field⟩ c = .ok ⟨.inField,fields,field ++ [c]⟩ := by
      simp only [processChar, hbreak, hcomma, Bool.false_eq_true, if_false]
      exact addChar_ok ⟨.inField,fields,field⟩ c .inField (by show field.length < fieldLimit; omega)
    rw [List.cons_append, read_of_proceed (List.cons_ne_nil _ _), read_cons hp (ne_newline hbreak),
      ih _ (by simp) (special_eq_false.mpr fun d hd => hw d (List.mem_cons_of_mem _ hd))
        (by rw [List.length_append, List.length_singleton]; omega),
      List.append_assoc, List.singleton_append]

/-- The reader is at the start of a field. -/
def AtField (r : Reader) : Prop :=
  (r.phase = .startRecord ∨ r.phase = .startField) ∧ r.field = []

theorem processChar_atField {r : Reader} (hr : AtField r) {c : Char} (hc : isBreak c = false) :
    processChar r c = startField r c := by
  unfold processChar
  rcases hr.1 with h | h
  · rw [h]
    simp [hc]
  · rw [h]

/-- Where the reader is after the text of a field. -/
def afterField (r : Reader) (w : List Char) : Reader :=
  ⟨if special w then .quoteInQuotedField else .inField,r.fields,w⟩

theorem read_encodeField (r : Reader) (hr : AtField r) (w cs : List Char)
    (hne : encodeField w ≠ []) (hlen : w.length ≤ fieldLimit) :
    read r (encodeField w ++ cs) = proceed (afterField r w) cs := by
  by_cases hw : special w = true
  · have hopen : processChar r quote = .ok ⟨.inQuotedField,r.fields,[]⟩ := by
      rw [processChar_atField hr (by decide), startField, if_neg (by decide), if_pos rfl, ← hr.2]
    have hclose : processChar ⟨.inQuotedField,r.fields,w⟩ quote =
        .ok ⟨.quoteInQuotedField,r.fields,w⟩ := by
      rw [processChar, if_pos rfl]
    have htext : encodeField w ++ cs = quote::(doubled w ++ quote::cs) := by
      simp [encodeField, hw]
    rw [htext, read_cons hopen quote_ne_newline,
      read_of_proceed (List.append_ne_nil_of_right_ne_nil _ (List.cons_ne_nil _ _)),
      read_doubled _ [] w _ (List.cons_ne_nil _ _) (by simpa using hlen), List.nil_append,
      read_cons hclose quote_ne_newline, afterField, if_pos hw]
  · have hplain : special w = false := by simpa using hw
    have htext : encodeField w = w := if_neg hw
    rw [htext] at hne ⊢
    cases w with
    | nil => exact absurd rfl hne
    | cons c w =>
      obtain ⟨hcomma,hquote,hbreak⟩ := special_eq_false.mp hplain c List.mem_cons_self
      have hp : processChar r c = .ok ⟨.inField,r.fields,[c]⟩ := by
        rw [processChar_atField hr hbreak, startField, if_neg (by simp [hbreak]), if_neg hquote,
          if_neg hcomma, addChar_ok _ c _ (by rw [hr.2]; decide), hr.2]
        rfl
      have hrest : special w = false :=
        special_eq_false.mpr fun d hd => special_eq_false.mp hplain d (List.mem_cons_of_mem _ hd)
      rw [List.length_cons] at hlen
      rw [List.cons_append, read_cons hp (ne_newline hbreak),
        read_plain _ [c] w cs (by simp) hrest (by simp; omega), afterField, if_neg hw]
      rfl

theorem processChar_comma {r : Reader} {w : List Char} :
    processChar (afterField r w) ',' = .ok ⟨.startField,r.fields ++ [w],[]⟩ := by
  unfold afterField
  by_cases hw : special w = true
  · rw [if_pos hw]
    rfl
  · rw [if_neg hw]
    rfl

theorem encodeField_eq_nil {w : List Char} (h : encodeField w = []) : w = [] := by
  unfold encodeField at h
  split at h
  · simp at h
  · exact h

/-- A field and the comma after it. -/
theorem read_field (r : Reader) (hr : AtField r) (w cs : List Char) (hlen : w.length ≤ fieldLimit) :
    read r (encodeField w ++ ','::cs) = proceed ⟨.startField,r.fields ++ [w],[]⟩ cs := by
  by_cases hne : encodeField w = []
  · have hp : processChar r ',' = .ok ⟨.startField,r.fields ++ [w],[]⟩ := by
      rw [processChar_atField hr (by decide), startField, if_neg (by decide), if_neg (by decide),
        if_pos rfl, saveField, hr.2, encodeField_eq_nil hne]
    rw [hne, List.nil_append, read_cons hp (by decide)]
  · rw [read_encodeField r hr w _ hne hlen, read_of_proceed (List.cons_ne_nil _ _),
      read_cons processChar_comma (by decide)]

theorem processEol_afterField (r : Reader) (w : List Char) :
    processEol (afterField r w) = ⟨.startRecord,r.fields ++ [w],[]⟩ := by
  unfold afterField
  by_cases hw : special w = true
  · rw [if_pos hw]
    rfl
  · rw [if_neg hw]
    rfl

/-- The last field of a record, after a comma. -/
theorem proceed_last (fields : List (List Char)) (w : List Char) (hlen : w.length ≤ fieldLimit) :
    proceed ⟨.startField,fields,[]⟩ (encodeField w) = .ok (some (fields ++ [w])) := by
  by_cases hne : encodeField w = []
  · rw [hne, encodeField_eq_nil hne, proceed, if_pos rfl]
    rfl
  · have hread := read_encodeField ⟨.startField,fields,[]⟩ ⟨Or.inr rfl,rfl⟩ w [] hne hlen
    rw [List.append_nil] at hread
    rw [read_of_proceed hne, hread, proceed, if_pos rfl, processEol_afterField]
    rfl

theorem encode_cons (w : List Char) {row : List (List Char)} (h : row ≠ []) :
    encode (w::row) = encodeField w ++ ','::encode row := by
  cases row with
  | nil => exact absurd rfl h
  | cons v row => simp [encode, List.intercalate]

/-- The fields after a comma, up to the last. -/
theorem proceed_front (fields row : List (List Char)) (w : List Char)
    (hlen : ∀ v ∈ row, v.length ≤ fieldLimit) :
    proceed ⟨.startField,fields,[]⟩ (encode (row ++ [w])) =
      proceed ⟨.startField,fields ++ row,[]⟩ (encodeField w) := by
  induction row generalizing fields with
  | nil =>
    have hencode : encode [w] = encodeField w := by simp [encode, List.intercalate]
    rw [List.nil_append, List.append_nil, hencode]
  | cons v row ih =>
    have hne : encodeField v ++ ','::encode (row ++ [w]) ≠ [] :=
      List.append_ne_nil_of_right_ne_nil _ (List.cons_ne_nil _ _)
    have hfield := read_field ⟨.startField,fields,[]⟩ ⟨Or.inr rfl,rfl⟩ v (encode (row ++ [w]))
      (hlen v List.mem_cons_self)
    rw [List.cons_append, encode_cons v (by simp), read_of_proceed hne, hfield,
      ih (fields ++ [v]) fun u hu => hlen u (List.mem_cons_of_mem _ hu), List.append_assoc]
    rfl

theorem next_front (w v : List Char) (row : List (List Char))
    (hlen : ∀ u ∈ w::row, u.length ≤ fieldLimit) :
    next (encode (w::(row ++ [v]))) = proceed ⟨.startField,w::row,[]⟩ (encodeField v) := by
  rw [next, encode_cons w (by simp), read_field .initial ⟨Or.inl rfl,rfl⟩ w _
    (hlen w List.mem_cons_self)]
  exact proceed_front [w] row v fun u hu => hlen u (List.mem_cons_of_mem _ hu)

/-- What was written as a row of at least two fields is read back. -/
theorem next_encode (w v : List Char) (row : List (List Char))
    (hlen : ∀ u ∈ w::(row ++ [v]), u.length ≤ fieldLimit) :
    next (encode (w::(row ++ [v]))) = .ok (some (w::(row ++ [v]))) := by
  have hfront : ∀ u ∈ w::row, u.length ≤ fieldLimit := by
    intro u hu
    apply hlen
    rw [← List.cons_append]
    exact List.mem_append_left _ hu
  rw [next_front w v row hfront, proceed_last _ v (hlen v (by simp)), List.cons_append]

/-- A field that goes on past the limit is refused. -/
theorem proceed_long (fields : List (List Char)) (field w : List Char) (hw : special w = false)
    (hfield : field.length ≤ fieldLimit) (hlong : fieldLimit < field.length+w.length) :
    proceed ⟨.inField,fields,field⟩ w = .error "field larger than field limit (131072)" := by
  induction w generalizing field with
  | nil =>
    rw [List.length_nil] at hlong
    omega
  | cons c w ih =>
    rw [special_eq_false] at hw
    obtain ⟨hcomma,_,hbreak⟩ := hw c List.mem_cons_self
    have hp : processChar ⟨.inField,fields,field⟩ c = addChar ⟨.inField,fields,field⟩ c .inField := by
      simp only [processChar, hbreak, hcomma, Bool.false_eq_true, if_false]
    rw [read_of_proceed (List.cons_ne_nil _ _)]
    by_cases hfull : fieldLimit ≤ field.length
    · have herror : addChar ⟨.inField,fields,field⟩ c .inField =
          .error "field larger than field limit (131072)" := if_pos hfull
      rw [read, hp, herror]
    · rw [List.length_cons] at hlong
      rw [read_cons (hp.trans (addChar_ok _ c _ (Nat.lt_of_not_le hfull))) (ne_newline hbreak)]
      apply ih (field ++ [c])
      · exact special_eq_false.mpr fun d hd => hw d (List.mem_cons_of_mem _ hd)
      · rw [List.length_append, List.length_singleton]
        omega
      · rw [List.length_append, List.length_singleton]
        omega

/-- Whatever stands before it. -/
theorem next_long (w v : List Char) (row : List (List Char))
    (hlen : ∀ u ∈ w::row, u.length ≤ fieldLimit) (hv : special v = false)
    (hlong : fieldLimit < v.length) :
    next (encode (w::(row ++ [v]))) = .error "field larger than field limit (131072)" := by
  cases v with
  | nil => exact absurd hlong (Nat.not_lt_zero _)
  | cons c v =>
    have hplain : encodeField (c::v) = c::v := if_neg (by rw [hv]; decide)
    obtain ⟨hcomma,hquote,hbreak⟩ := special_eq_false.mp hv c List.mem_cons_self
    have hp : processChar ⟨.startField,w::row,[]⟩ c = .ok ⟨.inField,w::row,[c]⟩ := by
      rw [processChar_atField ⟨Or.inr rfl,rfl⟩ hbreak, startField, if_neg (by simp [hbreak]),
        if_neg hquote, if_neg hcomma]
      exact addChar_ok _ c _ (show 0 < fieldLimit by decide)
    rw [next_front w (c::v) row hlen, hplain, read_of_proceed (List.cons_ne_nil _ _),
      read_cons hp (ne_newline hbreak)]
    apply proceed_long _ [c] v
    · exact special_eq_false.mpr fun d hd =>
        special_eq_false.mp hv d (List.mem_cons_of_mem _ hd)
    · show 1 ≤ fieldLimit
      decide
    · rw [List.length_cons] at hlong
      rw [List.length_singleton]
      omega

end PipelineX.Csv
