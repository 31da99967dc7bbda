import Mathlib.Data.Nat.Notation
import Mathlib.Tactic.Common

/-!
# What Python knows about characters

The properties of characters that `re`, `int` and `str` look up in the
Unicode database. The table is a parameter; what it says of the ASCII
characters is fixed.
-/

set_option autoImplicit false

namespace PipelineX

/-- `str.isdecimal` with its digit, `\w`, `str.isspace` and `repr`. -/
structure CharTable where
  decimal : Char → Option ℕ
  word : Char → Bool
  space : Char → Bool
  repr : List Char → List Char
  decimal_lt : ∀ c d, decimal c = some d → d < 10
  decimal_ascii : ∀ c, c.toNat < 128 →
    decimal c = if c.isDigit then some (c.toNat-48) else none
  word_ascii : ∀ c, c.toNat < 128 → word c = (c.isAlphanum || c = '_')
  space_ascii : ∀ c, c.toNat < 128 →
    space c = ((9 ≤ c.toNat && c.toNat ≤ 13) || (28 ≤ c.toNat && c.toNat ≤ 32))

namespace CharTable

theorem toNat_of_isDigit {c : Char} (h : c.isDigit = true) : 48 ≤ c.toNat ∧ c.toNat ≤ 57 := by
  simp only [Char.isDigit, Bool.and_eq_true, decide_eq_true_eq] at h
  exact ⟨h.1,h.2⟩

/-- A property of the characters of a text, checked one by one. -/
theorem forall_of_all {p : Char → Prop} [DecidablePred p] {s : List Char}
    (h : s.all (fun c => decide (p c)) = true) : ∀ c ∈ s, p c := by
  intro c hc
  exact of_decide_eq_true (List.all_eq_true.mp h c hc)

def hexDigit (d : ℕ) : Char := if d < 10 then Char.ofNat (48+d) else Char.ofNat (87+d)

/-- A character inside `repr` of an ASCII text, within these quotes. -/
def escaped (quote c : Char) : List Char :=
  if c = quote ∨ c.toNat = 92 then [Char.ofNat 92,c]
  else if c = '\t' then [Char.ofNat 92,'t']
  else if c = '\n' then [Char.ofNat 92,'n']
  else if c = '\r' then [Char.ofNat 92,'r']
  else if c.toNat < 32 ∨ c.toNat = 127 then
    [Char.ofNat 92,'x',hexDigit (c.toNat/16),hexDigit (c.toNat%16)]
  else [c]

/-- Single quotes, unless the text has some and no double ones. -/
def reprAscii (text : List Char) : List Char :=
  let quote := if Char.ofNat 39 ∈ text ∧ Char.ofNat 34 ∉ text then Char.ofNat 34
    else Char.ofNat 39
  [quote] ++ text.flatMap (escaped quote) ++ [quote]

/-- The table that knows the ASCII characters and no others. -/
def ascii : CharTable where
  decimal c := if c.isDigit then some (c.toNat-48) else none
  word c := c.isAlphanum || c = '_'
  space c := (9 ≤ c.toNat && c.toNat ≤ 13) || (28 ≤ c.toNat && c.toNat ≤ 32)
  repr := reprAscii
  decimal_lt c d h := by
    split at h
    · next hc =>
      have hd := toNat_of_isDigit hc
      cases h
      omega
    · cases h
  decimal_ascii _ _ := rfl
  word_ascii _ _ := rfl
  space_ascii _ _ := rfl

end CharTable

/-- `str.isdigit`, `str.isalpha` and the cases of letters. Title case counts as
lower. Whatever is a decimal is a digit, and digits are neither letters nor
blanks. -/
structure LetterTable (chars : CharTable) where
  digit : Char → Bool
  alpha : Char → Bool
  upper : Char → Bool
  lower : Char → Bool
  digit_ascii : ∀ c, c.toNat < 128 → digit c = c.isDigit
  alpha_ascii : ∀ c, c.toNat < 128 → alpha c = c.isAlpha
  upper_ascii : ∀ c, c.toNat < 128 → upper c = c.isUpper
  lower_ascii : ∀ c, c.toNat < 128 → lower c = c.isLower
  digit_of_decimal : ∀ c, (chars.decimal c).isSome = true → digit c = true
  alpha_of_digit : ∀ c, digit c = true → alpha c = false
  space_of_digit : ∀ c, digit c = true → chars.space c = false

namespace LetterTable

variable {chars : CharTable} (letters : LetterTable chars)

/-- `str.isdigit()`. -/
def isDigit (s : List Char) : Bool := !s.isEmpty && s.all letters.digit

/-- `str.isalpha()`. -/
def isAlpha (s : List Char) : Bool := !s.isEmpty && s.all letters.alpha

/-- `str.isupper()`. -/
def isUpper (s : List Char) : Bool := s.any letters.upper && s.all (fun c => !letters.lower c)

theorem isAlpha_of_isDigit {c : Char} (h : c.isDigit = true) : c.isAlpha = false := by
  obtain ⟨_,hhigh⟩ := CharTable.toNat_of_isDigit h
  have hval : c.val.toNat = c.toNat := rfl
  have hupper : ¬65 ≤ c.val := by
    rw [UInt32.le_iff_toNat_le, hval]
    exact fun hlow => absurd (Nat.le_trans hlow hhigh) (by decide)
  have hlower : ¬97 ≤ c.val := by
    rw [UInt32.le_iff_toNat_le, hval]
    exact fun hlow => absurd (Nat.le_trans hlow hhigh) (by decide)
  have hno : c.isUpper = false ∧ c.isLower = false :=
    ⟨decide_eq_false fun h => hupper h.1,
      Bool.and_eq_false_imp.mpr fun h => absurd (of_decide_eq_true h) hlower⟩
  change (c.isUpper || c.isLower) = false
  rw [hno.1, hno.2]
  rfl

theorem isDigit_of_decimal (c : Char) (h : (CharTable.ascii.decimal c).isSome = true) :
    c.isDigit = true := by
  by_contra hc
  have hnone : CharTable.ascii.decimal c = none := if_neg hc
  rw [hnone] at h
  cases h

theorem space_of_isDigit {c : Char} (h : c.isDigit = true) : CharTable.ascii.space c = false := by
  obtain ⟨hlow,_⟩ := CharTable.toNat_of_isDigit h
  rw [Bool.eq_false_iff]
  intro hs
  change (((9 ≤ c.toNat && c.toNat ≤ 13) || (28 ≤ c.toNat && c.toNat ≤ 32)) : Bool) = true at hs
  simp only [Bool.or_eq_true, Bool.and_eq_true, decide_eq_true_eq] at hs
  omega

/-- The letters of ASCII and no others. -/
def ascii : LetterTable .ascii where
  digit c := c.isDigit
  alpha c := c.isAlpha
  upper c := c.isUpper
  lower c := c.isLower
  digit_ascii _ _ := rfl
  alpha_ascii _ _ := rfl
  upper_ascii _ _ := rfl
  lower_ascii _ _ := rfl
  digit_of_decimal := isDigit_of_decimal
  alpha_of_digit _ := isAlpha_of_isDigit
  space_of_digit _ := space_of_isDigit

end LetterTable
end PipelineX
