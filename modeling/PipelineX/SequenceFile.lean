import PipelineX.SequenceDetector

/-!
# Saving and loading a sequence model

`to_dict` and `from_dict` between a model and a dictionary of JSON values. The
order in which a set is iterated and what `str` makes of a value that is no
string are parameters.
-/

set_option autoImplicit false

namespace PipelineX.SequenceFile
open PipelineX.Records PipelineX.SequenceDetector

inductive Json where
  | null
  | bool (b : Bool)
  | int (n : ℤ)
  | float (x : ℚ)
  | str (s : String)
  | list (xs : List Json)
  | dict (items : List (String × Json))

/-- `type(value).__name__`. -/
def Json.typeName : Json → String
  | .null => "NoneType"
  | .bool _ => "bool"
  | .int _ => "int"
  | .float _ => "float"
  | .str _ => "str"
  | .list _ => "list"
  | .dict _ => "dict"

/-- `str(value)`. -/
structure Text where
  text : Json → String
  text_str : ∀ s, text (.str s) = s

/-- `data.get(key, default)`. -/
def getD (data : List (String × Json)) (key : String) (default : Json) : Json :=
  (data.lookup key).getD default

/-- `for t in value`. -/
def iterate : Json → Except PyError (List Json)
  | .list xs => .ok xs
  | .str s => .ok (s.toList.map (fun c => .str (String.singleton c)))
  | .dict items => .ok (items.map (fun p => .str p.1))
  | value => .error (.other "TypeError" ("'" ++ value.typeName ++ "' object is not iterable"))

/-- `isinstance(value, int)`, which a boolean is too. -/
def asInt : Json → Option ℤ
  | .int n => some n
  | .bool b => some (if b then 1 else 0)
  | _ => none

/-- `tuple(str(t) for t in g) for g in ngrams_field`. -/
def readGrams (py : Text) : List Json → Except PyError (List (List String))
  | [] => .ok []
  | g::gs =>
    match iterate g with
    | .error e => .error e
    | .ok ts => (readGrams py gs).map (ts.map py.text::·)

def fromDict (py : Text) (data : List (String × Json)) : Except PyError SequenceModel :=
  match asInt (getD data "n" (.int 2)) with
  | none => .error (.other "ValueError" "malformed sequence model: n must be an int")
  | some n =>
    match getD data "normal_ngrams" (.list []), getD data "vocabulary" (.list []) with
    | .list grams, .list vocabulary => (readGrams py grams).map (fun grams =>
        { n := n
          normalNgrams := grams.toFinset
          vocabulary := (vocabulary.map py.text).toFinset })
    | _, _ => .error (.other "ValueError" "malformed sequence model: ngrams/vocab must be lists")

/-- `to_dict`, with the n-grams in the order in which the set is iterated. -/
def toDict (m : SequenceModel) (grams : List (List String)) : List (String × Json) :=
  [("n",.int m.n),
   ("normal_ngrams",.list (grams.map (fun g => .list (g.map .str)))),
   ("vocabulary",.list ((m.vocabulary.sort (· ≤ ·)).map .str))]

theorem map_text_str (py : Text) (ss : List String) : (ss.map Json.str).map py.text = ss := by
  rw [List.map_map]
  exact (List.map_congr_left fun s _ => py.text_str s).trans (List.map_id ss)

theorem readGrams_lists (py : Text) (grams : List (List String)) :
    readGrams py (grams.map (fun g => .list (g.map .str))) = .ok grams := by
  induction grams with
  | nil => rfl
  | cons g grams ih =>
    simp only [List.map_cons, readGrams, iterate, ih, map_text_str]
    rfl

/-- What is saved is loaded back, whatever the order it was written in. -/
theorem fromDict_toDict (py : Text) (m : SequenceModel) (grams : List (List String))
    (h : grams.toFinset = m.normalNgrams) : fromDict py (toDict m grams) = .ok m := by
  have hn : getD (toDict m grams) "n" (.int 2) = .int m.n := rfl
  have hgrams : getD (toDict m grams) "normal_ngrams" (.list []) =
      .list (grams.map (fun g => .list (g.map .str))) := rfl
  have hvocabulary : getD (toDict m grams) "vocabulary" (.list []) =
      .list ((m.vocabulary.sort (· ≤ ·)).map .str) := rfl
  rw [fromDict, hn, hgrams, hvocabulary]
  simp only [asInt, readGrams_lists, map_text_str, Except.map, h, Finset.sort_toFinset]

/-- At least one event an n-gram, and that many in each. -/
structure WellFormed (m : SequenceModel) : Prop where
  n_pos : 1 ≤ m.n
  arity : ∀ g ∈ m.normalNgrams, (g.length : ℤ) = m.n

/-- `from_dict` raises `ValueError` or returns a model that is well formed. -/
def Validated (py : Text) (data : List (String × Json)) : Prop :=
  (∃ message, fromDict py data = .error (.other "ValueError" message)) ∨
  ∃ m, fromDict py data = .ok m ∧ WellFormed m

/-- How many values a loop over the value draws: the entries of a list, the
characters of a string, the keys of a dictionary. -/
def size? : Json → Option ℕ
  | .list xs => some xs.length
  | .str s => some s.length
  | .dict items => some items.length
  | _ => none

/-- Where the three fields have the types that `from_dict` tests, `n` is at
least one and every entry of the n-grams is something with `n` values. -/
def Shaped (data : List (String × Json)) : Prop :=
  ∀ n grams vocabulary, asInt (getD data "n" (.int 2)) = some n →
    getD data "normal_ngrams" (.list []) = .list grams →
    getD data "vocabulary" (.list []) = .list vocabulary →
    1 ≤ n ∧ ∀ g ∈ grams, ∃ k : ℕ, size? g = some k ∧ (k : ℤ) = n

theorem iterate_cases (g : Json) :
    (∃ ts, iterate g = .ok ts ∧ size? g = some ts.length) ∨
    (∃ message, iterate g = .error (.other "TypeError" message)) ∧ size? g = none := by
  cases g with
  | null => exact Or.inr ⟨⟨_,rfl⟩,rfl⟩
  | bool b => exact Or.inr ⟨⟨_,rfl⟩,rfl⟩
  | int n => exact Or.inr ⟨⟨_,rfl⟩,rfl⟩
  | float x => exact Or.inr ⟨⟨_,rfl⟩,rfl⟩
  | str s => exact Or.inl ⟨_,rfl,by rw [size?, List.length_map, String.length_toList]⟩
  | list xs => exact Or.inl ⟨_,rfl,rfl⟩
  | dict items => exact Or.inl ⟨_,rfl,by simp [size?]⟩

/-- Either every entry can be looped over, or the first that cannot raises
`TypeError`. -/
theorem readGrams_cases (py : Text) (gs : List Json) :
    (∃ out, readGrams py gs = .ok out ∧ List.Forall₂ (fun g o => size? g = some o.length) gs out) ∨
    (∃ message, readGrams py gs = .error (.other "TypeError" message)) ∧
      ∃ g ∈ gs, size? g = none := by
  induction gs with
  | nil => exact Or.inl ⟨[],rfl,List.Forall₂.nil⟩
  | cons g gs ih =>
    rcases iterate_cases g with ⟨ts,hts,hsize⟩ | ⟨⟨message,herr⟩,hsize⟩
    · rcases ih with ⟨out,hout,hall⟩ | ⟨⟨message,herr⟩,h,hh,hnone⟩
      · refine Or.inl ⟨ts.map py.text::out,?_,List.Forall₂.cons ?_ hall⟩
        · simp only [readGrams, hts, hout]
          rfl
        · rw [hsize, List.length_map]
      · refine Or.inr ⟨⟨message,?_⟩,h,List.mem_cons_of_mem _ hh,hnone⟩
        simp only [readGrams, hts, herr]
        rfl
    · refine Or.inr ⟨⟨message,?_⟩,g,List.mem_cons_self,hsize⟩
      simp only [readGrams, herr]

theorem arity_iff {gs : List Json} {out : List (List String)} (n : ℤ)
    (h : List.Forall₂ (fun g o => size? g = some o.length) gs out) :
    (∀ o ∈ out, (o.length : ℤ) = n) ↔ ∀ g ∈ gs, ∃ k : ℕ, size? g = some k ∧ (k : ℤ) = n := by
  induction h with
  | nil => simp
  | cons hsize _ ih => simp [ih, hsize]

/-- With lists in both fields, what comes back depends on the entries. -/
theorem validated_lists_iff (py : Text) {data : List (String × Json)} {n : ℤ}
    {grams vocabulary : List Json} (hn : asInt (getD data "n" (.int 2)) = some n)
    (hg : getD data "normal_ngrams" (.list []) = .list grams)
    (hv : getD data "vocabulary" (.list []) = .list vocabulary) :
    Validated py data ↔ 1 ≤ n ∧ ∀ g ∈ grams, ∃ k : ℕ, size? g = some k ∧ (k : ℤ) = n := by
  have hfrom : fromDict py data = (readGrams py grams).map (fun grams =>
      { n := n
        normalNgrams := grams.toFinset
        vocabulary := (vocabulary.map py.text).toFinset }) := by
    simp only [fromDict, hn, hg, hv]
  unfold Validated
  rw [hfrom]
  rcases readGrams_cases py grams with ⟨out,hout,hall⟩ | ⟨⟨message,herr⟩,g,hmem,hnone⟩
  · rw [hout, ← arity_iff n hall]
    constructor
    · rintro (⟨message,h⟩ | ⟨m,h,hm⟩)
      · cases h
      · obtain rfl := (Except.ok.inj h).symm
        exact ⟨hm.n_pos,fun o ho => hm.arity o (List.mem_toFinset.mpr ho)⟩
    · rintro ⟨hpos,harity⟩
      exact Or.inr ⟨_,rfl,hpos,fun o ho => harity o (List.mem_toFinset.mp ho)⟩
  · rw [herr]
    constructor
    · rintro (⟨message',h⟩ | ⟨m,h,_⟩)
      · have htype : PyError.other "TypeError" message = .other "ValueError" message' :=
          Except.error.inj h
        exact absurd (PyError.other.inj htype).1 (by decide)
      · cases h
    · rintro ⟨_,hall⟩
      obtain ⟨k,hk,_⟩ := hall g hmem
      rw [hnone] at hk
      cases hk

theorem validated_iff (py : Text) (data : List (String × Json)) :
    Validated py data ↔ Shaped data := by
  by_cases h : ∃ n grams vocabulary, asInt (getD data "n" (.int 2)) = some n ∧
      getD data "normal_ngrams" (.list []) = .list grams ∧
      getD data "vocabulary" (.list []) = .list vocabulary
  · obtain ⟨n,grams,vocabulary,hn,hg,hv⟩ := h
    rw [validated_lists_iff py hn hg hv]
    constructor
    · intro hshape n' grams' vocabulary' hn' hg' hv'
      obtain rfl := Option.some.inj (hn.symm.trans hn')
      obtain rfl := Json.list.inj (hg.symm.trans hg')
      exact hshape
    · exact fun hshape => hshape n grams vocabulary hn hg hv
  · -- a field of another type is what the code tests for
    refine ⟨fun _ n grams vocabulary hn hg hv => absurd ⟨n,grams,vocabulary,hn,hg,hv⟩ h,fun _ => ?_⟩
    refine Or.inl ?_
    unfold fromDict
    split
    · exact ⟨_,rfl⟩
    · next n hn =>
      split
      · next grams vocabulary hg hv => exact absurd ⟨n,grams,vocabulary,hn,hg,hv⟩ h
      · exact ⟨_,rfl⟩

/-- `from_dict` validates exactly the dictionaries in which, as far as its own
tests pass, `n` is positive and the n-grams have `n` values each; and what
`to_dict` writes is read back. -/
theorem load_validates_iff (py : Text) :
    (∀ data, Validated py data ↔ Shaped data) ∧
    ∀ m grams, WellFormed m → grams.toFinset = m.normalNgrams →
      fromDict py (toDict m grams) = .ok m :=
  ⟨validated_iff py,fun m grams _ h => fromDict_toDict py m grams h⟩

/-- `str` of strings; no other value is in the sample. -/
def textOfStr : Text where
  text
    | .str s => s
    | _ => ""
  text_str _ := rfl

/-- A bigram model with a trigram in it is loaded. -/
theorem wrong_arity_loads : ¬ Validated textOfStr [("n",.int 2),
    ("normal_ngrams",.list [.list [.str "E5",.str "E22",.str "E9"]]),("vocabulary",.list [])] := by
  rintro (⟨message,h⟩ | ⟨m,h,hm⟩)
  · cases h
  · obtain rfl := (Except.ok.inj h).symm
    exact absurd (hm.arity ["E5","E22","E9"] (by decide)) (by decide)

end PipelineX.SequenceFile
