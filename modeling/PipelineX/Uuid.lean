import PipelineX.CharTable
import PipelineX.Records
import Mathlib.Data.List.DropRight
import Mathlib.Data.Nat.Digits.Defs
import Mathlib.Tactic.IntervalCases

/-!
# The text of a UUID

`str(uuid)` and `UUID(text)` of Python's `uuid` module. The second accepts
much more than the first writes: upper case, braces, any hyphens, a prefix,
and whatever else `int(text, 16)` takes.
-/

set_option autoImplicit false

namespace PipelineX.Uuid
open PipelineX.Records PipelineX.CharTable

def hexValue (c : Char) : Option ℕ :=
  if 48 ≤ c.toNat ∧ c.toNat ≤ 57 then some (c.toNat-48)
  else if 97 ≤ c.toNat ∧ c.toNat ≤ 102 then some (c.toNat-87)
  else if 65 ≤ c.toNat ∧ c.toNat ≤ 70 then some (c.toNat-55)
  else none

/-- The digits of `'%032x' % n`, the most significant first. -/
def hexDigits (n : ℕ) : List ℕ := List.leftpad 32 0 (Nat.digits 16 n).reverse

def hyphenated (hex : List Char) : List Char :=
  hex.take 8 ++ '-'::(hex.drop 8).take 4 ++ '-'::(hex.drop 12).take 4 ++
    '-'::(hex.drop 16).take 4 ++ '-'::hex.drop 20

/-- `str(UUID)`. -/
def str (u : UUID) : String := String.ofList (hyphenated ((hexDigits u).map hexDigit))

/-- `s.replace(old, '')`; the number is how many characters of an occurrence
are still to be left out. -/
def removed (old : List Char) : ℕ → List Char → List Char
  | _, [] => []
  | n+1, _::cs => removed old n cs
  | 0, c::cs =>
    if old.isPrefixOf (c::cs) then removed old (old.length-1) cs else c::removed old 0 cs

/-- A character as `int` reads it, of a text that is not all ASCII. -/
def asciiForm (table : CharTable) (c : Char) : Char :=
  if c.toNat < 127 then c
  else if table.space c then ' '
  else match table.decimal c with
    | some d => hexDigit d
    | none => '?'

def isSpace (c : Char) : Bool := (9 ≤ c.toNat && c.toNat ≤ 13) || c = ' '

/-- The digits at the front, with single underscores between them. -/
def scan : ℕ → Bool → List Char → Option (ℕ × List Char)
  | n, underscore, [] => if underscore then none else some (n,[])
  | n, underscore, c::cs =>
    match hexValue c with
    | some d => scan (n*16+d) false cs
    | none =>
      if underscore then none
      else if c = '_' then scan n true cs
      else some (n,c::cs)

/-- Without the base prefix, after which one underscore may stand. -/
def unprefixed : List Char → List Char
  | '0' :: 'x' :: '_' :: cs => cs
  | '0' :: 'X' :: '_' :: cs => cs
  | '0' :: 'x' :: cs => cs
  | '0' :: 'X' :: cs => cs
  | cs => cs

def unsigned (cs : List Char) : Option ℕ :=
  match unprefixed cs with
  | [] => none
  | c::cs =>
    if hexValue c = none then none
    else match scan 0 false (c::cs) with
      | none => none
      | some (n,rest) => if rest.all isSpace then some n else none

/-- `int(text, 16)`. -/
def int16 (table : CharTable) (text : List Char) : Option ℤ :=
  match (text.map (asciiForm table)).dropWhile isSpace with
  | '+'::cs => (unsigned cs).map Int.ofNat
  | '-'::cs => (unsigned cs).map (fun n => -Int.ofNat n)
  | cs => (unsigned cs).map Int.ofNat

/-- `UUID(text)`. -/
def parse (table : CharTable) (text : String) : Except PyError UUID :=
  let hex := removed "uuid:".toList 0 (removed "urn:".toList 0 text.toList)
  let braced := fun c => c = '{' || c = '}'
  let hex := ((hex.dropWhile braced).rdropWhile braced).filter (fun c => c ≠ '-')
  if hex.length ≠ 32 then .error (.other "ValueError" "badly formed hexadecimal UUID string")
  else match int16 table hex with
    | none => .error (.other "ValueError" ("invalid literal for int() with base 16: " ++
        String.ofList (table.repr hex)))
    | some n =>
      if 0 ≤ n ∧ n < 2^128 then .ok n.toNat
      else .error (.other "ValueError" "int is out of range (need a 128-bit value)")

theorem hexValue_hexDigit {d : ℕ} (h : d < 16) : hexValue (hexDigit d) = some d := by
  interval_cases d <;> decide

/-- The characters that `hexValue` knows. -/
theorem hexValue_some {c : Char} {d : ℕ} (h : hexValue c = some d) :
    (48 ≤ c.toNat ∧ c.toNat ≤ 57) ∨ (97 ≤ c.toNat ∧ c.toNat ≤ 102) ∨
      (65 ≤ c.toNat ∧ c.toNat ≤ 70) := by
  unfold hexValue at h
  split at h
  · next hc => exact Or.inl hc
  · split at h
    · next hc => exact Or.inr (Or.inl hc)
    · split at h
      · next hc => exact Or.inr (Or.inr hc)
      · cases h

/-- Every character of the text is a hexadecimal digit. -/
def Hex (cs : List Char) : Prop := ∀ c ∈ cs, ∃ d, hexValue c = some d

theorem Hex.not_mem {cs : List Char} (h : Hex cs) {c : Char} (hc : hexValue c = none) :
    c ∉ cs := by
  intro hm
  obtain ⟨d,hd⟩ := h c hm
  rw [hc] at hd
  cases hd

theorem hexDigits_lt (n : ℕ) : ∀ d ∈ hexDigits n, d < 16 := by
  intro d hd
  rw [hexDigits, List.leftpad, List.mem_append, List.mem_replicate, List.mem_reverse] at hd
  rcases hd with ⟨_,rfl⟩ | hd
  · decide
  · exact Nat.digits_lt_base (by decide) hd

theorem hexDigits_ne_nil (n : ℕ) : hexDigits n ≠ [] := by
  have hlen : (hexDigits n).length = max 32 (Nat.digits 16 n).reverse.length :=
    List.length_leftpad
  have hle : 32 ≤ (hexDigits n).length := hlen ▸ Nat.le_max_left _ _
  exact List.ne_nil_of_length_pos (Nat.lt_of_lt_of_le Nat.one_pos (Nat.le_trans (by decide) hle))

theorem hex_digits (ds : List ℕ) (h : ∀ d ∈ ds, d < 16) : Hex (ds.map hexDigit) := by
  intro c hc
  obtain ⟨d,hd,rfl⟩ := List.mem_map.mp hc
  exact ⟨d,hexValue_hexDigit (h d hd)⟩

theorem foldl_hexDigits (n : ℕ) : (hexDigits n).foldl (fun n d => n*16+d) 0 = n := by
  have hzeros (k : ℕ) : (List.replicate k 0).foldl (fun n d => n*16+d) 0 = 0 := by
    induction k with
    | zero => rfl
    | succ k ih => simpa [List.replicate_succ] using ih
  have hdigits := Nat.ofDigits_digits 16 n
  rw [Nat.ofDigits_eq_foldr] at hdigits
  rw [hexDigits, List.leftpad, List.foldl_append, hzeros, List.foldl_reverse]
  refine Eq.trans ?_ hdigits
  congr 1
  funext d m
  simp
  omega

theorem scan_digits (ds : List ℕ) (h : ∀ d ∈ ds, d < 16) (n : ℕ) :
    scan n false (ds.map hexDigit) = some (ds.foldl (fun n d => n*16+d) n,[]) := by
  induction ds generalizing n with
  | nil => rfl
  | cons d ds ih =>
    rw [List.map_cons, scan, hexValue_hexDigit (h d List.mem_cons_self)]
    exact ih (fun e he => h e (List.mem_cons_of_mem _ he)) _

theorem removed_of_not_mem (old cs : List Char) {c : Char} (ho : c ∈ old) (hc : c ∉ cs) :
    removed old 0 cs = cs := by
  induction cs with
  | nil => rfl
  | cons a cs ih =>
    have hp : ¬ old.isPrefixOf (a::cs) = true := by
      rw [List.isPrefixOf_iff_prefix]
      exact fun hp => hc (hp.subset ho)
    rw [removed, if_neg hp, ih (fun hm => hc (List.mem_cons_of_mem _ hm))]

theorem take_drop_append (cs : List Char) (a b : ℕ) :
    (cs.drop a).take b ++ cs.drop (a+b) = cs.drop a := by
  rw [← List.drop_drop]
  exact List.take_append_drop b _

/-- `strip` with nothing to strip. -/
theorem strip_eq_self (p : Char → Bool) (cs : List Char) (h : ∀ c ∈ cs, p c = false) :
    (cs.dropWhile p).rdropWhile p = cs := by
  have hfront : cs.dropWhile p = cs :=
    List.dropWhile_eq_self_iff.mpr fun hpos => by simp [h _ (List.getElem_mem hpos)]
  rw [hfront]
  exact List.rdropWhile_eq_self_iff.mpr fun hn => by simp [h _ (List.getLast_mem hn)]

theorem filter_hyphenated (hex : List Char) (h : '-' ∉ hex) :
    (hyphenated hex).filter (fun c => c ≠ '-') = hex := by
  have hkeep (l : List Char) (hl : ∀ c ∈ l, c ∈ hex) : l.filter (fun c => c ≠ '-') = l := by
    rw [List.filter_eq_self]
    intro c hc
    simpa using fun he : c = '-' => h (he ▸ hl c hc)
  have hcons (l : List Char) :
      ('-'::l).filter (fun c => c ≠ '-') = l.filter (fun c => c ≠ '-') :=
    List.filter_cons_of_neg (by simp)
  have hmid (a b : ℕ) : ∀ c ∈ (hex.drop a).take b, c ∈ hex :=
    fun c hc => List.mem_of_mem_drop (List.mem_of_mem_take hc)
  calc (hyphenated hex).filter (fun c => c ≠ '-')
      = hex.take 8 ++ (hex.drop 8).take 4 ++ (hex.drop 12).take 4 ++ (hex.drop 16).take 4 ++
          hex.drop 20 := by
        simp only [hyphenated, List.filter_append, hcons]
        rw [hkeep _ (fun c hc => List.mem_of_mem_take hc), hkeep _ (hmid 8 4),
          hkeep _ (hmid 12 4), hkeep _ (hmid 16 4),
          hkeep _ (fun c hc => List.mem_of_mem_drop hc)]
    _ = hex := by
        rw [List.append_assoc, take_drop_append hex 16 4, List.append_assoc,
          take_drop_append hex 12 4, List.append_assoc, take_drop_append hex 8 4,
          List.take_append_drop]

theorem mem_hyphenated {hex : List Char} {c : Char} (h : c ∈ hyphenated hex) :
    c = '-' ∨ c ∈ hex := by
  simp only [hyphenated, List.mem_append, List.mem_cons] at h
  rcases h with (((h | h | h) | h | h) | h | h) | h | h
  · exact Or.inr (List.mem_of_mem_take h)
  · exact Or.inl h
  · exact Or.inr (List.mem_of_mem_drop (List.mem_of_mem_take h))
  · exact Or.inl h
  · exact Or.inr (List.mem_of_mem_drop (List.mem_of_mem_take h))
  · exact Or.inl h
  · exact Or.inr (List.mem_of_mem_drop (List.mem_of_mem_take h))
  · exact Or.inl h
  · exact Or.inr (List.mem_of_mem_drop h)

theorem map_asciiForm (table : CharTable) {cs : List Char} (h : Hex cs) :
    cs.map (asciiForm table) = cs := by
  refine (List.map_congr_left fun c hc => ?_).trans (List.map_id cs)
  obtain ⟨d,hd⟩ := h c hc
  have hrange := hexValue_some hd
  exact if_pos (by omega)

theorem unprefixed_of_not_mem {cs : List Char} (hx : 'x' ∉ cs) (hX : 'X' ∉ cs) :
    unprefixed cs = cs := by
  unfold unprefixed
  split
  · simp at hx
  · simp at hX
  · simp at hx
  · simp at hX
  · rfl

theorem unsigned_digits (ds : List ℕ) (h : ∀ d ∈ ds, d < 16) (hne : ds ≠ []) :
    unsigned (ds.map hexDigit) = some (ds.foldl (fun n d => n*16+d) 0) := by
  have hscan := scan_digits ds h 0
  have hhex := hex_digits ds h
  rw [unsigned, unprefixed_of_not_mem (hhex.not_mem (by decide)) (hhex.not_mem (by decide))]
  cases ds with
  | nil => exact absurd rfl hne
  | cons d ds =>
    have hd := hexValue_hexDigit (h d List.mem_cons_self)
    rw [List.map_cons] at hscan ⊢
    simp [hd, hscan]

theorem int16_digits (table : CharTable) (ds : List ℕ) (h : ∀ d ∈ ds, d < 16) (hne : ds ≠ []) :
    int16 table (ds.map hexDigit) = some (Int.ofNat (ds.foldl (fun n d => n*16+d) 0)) := by
  have hhex := hex_digits ds h
  have hfront : (ds.map hexDigit).dropWhile isSpace = ds.map hexDigit := by
    refine List.dropWhile_eq_self_iff.mpr fun hpos hs => ?_
    obtain ⟨d,hd⟩ := hhex _ (List.getElem_mem hpos)
    have hrange := hexValue_some hd
    simp only [isSpace, Bool.or_eq_true, Bool.and_eq_true, decide_eq_true_eq] at hs
    rcases hs with hs | hs
    · omega
    · have hspace : hexValue ' ' = none := by decide
      rw [hs, hspace] at hd
      cases hd
  rw [int16, map_asciiForm table hhex, hfront]
  split
  · next cs he => exact absurd (he ▸ List.mem_cons_self) (hhex.not_mem (c := '+') (by decide))
  · next cs he => exact absurd (he ▸ List.mem_cons_self) (hhex.not_mem (c := '-') (by decide))
  · rw [unsigned_digits ds h hne, Option.map_some]

/-- Whatever `UUID` makes of a text that `str` wrote, it is the same number. -/
theorem parse_str (table : CharTable) (u v : UUID) (h : parse table (str u) = .ok v) : v = u := by
  have hhex := hex_digits (hexDigits u) (hexDigits_lt u)
  have hplain {c : Char} (hc : c ≠ '-') (hv : hexValue c = none) :
      c ∉ hyphenated ((hexDigits u).map hexDigit) :=
    fun hm => (mem_hyphenated hm).elim hc (hhex.not_mem hv)
  have hbare := strip_eq_self (fun c => c = '{' || c = '}')
    (hyphenated ((hexDigits u).map hexDigit)) (fun c hc => by
      have hopen : c ≠ '{' := fun he => hplain (by decide) (by decide) (he ▸ hc)
      have hclose : c ≠ '}' := fun he => hplain (by decide) (by decide) (he ▸ hc)
      simp [hopen, hclose])
  simp only [parse, str, String.toList_ofList] at h
  rw [removed_of_not_mem "urn:".toList _ (c := ':') (by decide) (hplain (by decide) (by decide)),
    removed_of_not_mem "uuid:".toList _ (c := ':') (by decide) (hplain (by decide) (by decide)),
    hbare, filter_hyphenated _ (hhex.not_mem (by decide)),
    int16_digits table _ (hexDigits_lt u) (hexDigits_ne_nil u), foldl_hexDigits] at h
  split at h
  · cases h
  · dsimp only at h
    split at h
    · exact (Except.ok.inj h).symm
    · cases h

end PipelineX.Uuid
