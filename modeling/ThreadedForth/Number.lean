import ThreadedForth.Report
import ThreadedForth.Text.Split

/-!
# Numbers from texts and other data

A numeral of a program is an optional sign followed by one or more ASCII digits, and nothing else
(`Numeral.ofString?`). `write` is the way back: the decimal writing of a number, as long as it has
no more than `maxDigits` digits.

From outside come integers, truth values, decimal fractions and texts. They have an integer value,
everything else is refused (`Datum.toInt`). Texts from outside may spell a number more freely than a
program does: blanks around it, decimal digits of any script, and single underscores between digits.
-/

namespace ThreadedForth

/-! ## Digits of every script

Each script with decimal digits has its ten digits in a row, zero first, so the zeros say it all.
The scripts are those of version 14.0 of the Unicode standard; the first is ASCII.
-/

namespace Text

/-- The code points of the zeros, in increasing order. -/
def zeros : List Nat :=
  [0x30, 0x660, 0x6F0, 0x7C0, 0x966, 0x9E6, 0xA66, 0xAE6, 0xB66, 0xBE6, 0xC66, 0xCE6, 0xD66,
   0xDE6, 0xE50, 0xED0, 0xF20, 0x1040, 0x1090, 0x17E0, 0x1810, 0x1946, 0x19D0, 0x1A80, 0x1A90,
   0x1B50, 0x1BB0, 0x1C40, 0x1C50, 0xA620, 0xA8D0, 0xA900, 0xA9D0, 0xA9F0, 0xAA50, 0xABF0,
   0xFF10, 0x104A0, 0x10D30, 0x11066, 0x110F0, 0x11136, 0x111D0, 0x112F0, 0x11450, 0x114D0,
   0x11650, 0x116C0, 0x11730, 0x118E0, 0x11950, 0x11C50, 0x11D50, 0x11DA0, 0x16A60, 0x16AC0,
   0x16B50, 0x1D7CE, 0x1D7D8, 0x1D7E2, 0x1D7EC, 0x1D7F6, 0x1E140, 0x1E2F0, 0x1E950, 0x1FBF0]

/-- The value of a decimal digit of any script. -/
def digitValue? (c : Char) : Option Nat :=
  (zeros.find? fun first => first ≤ c.toNat && c.toNat < first + 10).map (c.toNat - ·)

/-- A digit stands for a number below ten. -/
theorem digitValue?_lt {c : Char} {d : Nat} (h : digitValue? c = some d) : d < 10 := by
  obtain ⟨first, hz, rfl⟩ := Option.map_eq_some_iff.1 h
  have := List.find?_some hz
  simp only [Bool.and_eq_true, decide_eq_true_eq] at this
  omega

/-- The ASCII digits have their usual values. -/
theorem digitValue?_of_isDigit {c : Char} (h : c.isDigit = true) :
    digitValue? c = some (c.toNat - '0'.toNat) := by
  simp only [Char.isDigit, ge_iff_le, Bool.and_eq_true, decide_eq_true_eq] at h
  have hlow : 48 ≤ c.toNat := UInt32.le_iff_toNat_le.1 h.1
  have hhigh : c.toNat ≤ 57 := UInt32.le_iff_toNat_le.1 h.2
  have hfirst : c.toNat < 48 + 10 := by omega
  simp [digitValue?, zeros, hlow, hfirst]

/-- The digits of the scripts lie between the blocks that have blanks. -/
theorem zeros_between_blanks : ∀ first ∈ zeros, first = 0x30 ∨
    (0xA0 < first ∧ first + 10 ≤ 0x1680) ∨ (0x1680 < first ∧ first + 10 ≤ 0x2000) ∨
    0x3000 < first := by
  decide

/-- So no blank is a digit. -/
theorem digitValue?_of_isBlank {c : Char} (h : isBlank c = true) : digitValue? c = none := by
  rw [digitValue?, Option.map_eq_none_iff, List.find?_eq_none]
  intro first hfirst
  have hbetween := zeros_between_blanks first hfirst
  simp only [isBlank, Bool.or_eq_true, Bool.and_eq_true, decide_eq_true_eq, beq_iff_eq] at h ⊢
  omega

end Text

namespace Number

/-! ## Numerals -/

/-- A numeral as it is spelled; leading zeros count as digits. -/
structure Numeral where
  negative : Bool
  digits : List Char
deriving DecidableEq, Repr

namespace Numeral

/-- The digits after a sign: at least one, and ASCII digits only. -/
def ofDigits? (negative : Bool) (digits : List Char) : Option Numeral :=
  if !digits.isEmpty && digits.all Char.isDigit then some ⟨negative, digits⟩ else none

/-- The numeral that a text spells. -/
def ofString? (text : String) : Option Numeral :=
  match text.toList with
  | '+' :: digits => ofDigits? false digits
  | '-' :: digits => ofDigits? true digits
  | digits => ofDigits? false digits

/-- The integer that a numeral stands for. -/
def value (n : Numeral) : Int :=
  let magnitude : Int := Nat.ofDigitChars 10 n.digits 0
  if n.negative then -magnitude else magnitude

/-- The integer that a numeral stands for, unless it has too many digits. -/
def read (n : Numeral) : Except Fault Int :=
  if n.digits.length ≤ maxDigits then .ok n.value else .error (.numeralTooLong n.digits.length)

end Numeral

/-- The decimal writing of a number, unless it has too many digits. -/
def write (v : Int) : Except Fault String :=
  if isWritable v then .ok (decimal v) else .error .numberTooLong

/-! ## Loose numerals -/

namespace Loose

/-- The digits and underscores that a text starts with, and what follows them. -/
def span : List Char → List (Option Nat) × List Char
  | [] => ([], [])
  | c :: cs =>
    let (marks, rest) := span cs
    if c = '_' then (none :: marks, rest)
    else match Text.digitValue? c with
      | some d => (some d :: marks, rest)
      | none => ([], c :: cs)

/-- Does every underscore, written `none`, stand between two digits? -/
def isWellSpaced : List (Option Nat) → Bool
  | [] => false
  | [some _] => true
  | some _ :: some d :: rest => isWellSpaced (some d :: rest)
  | some _ :: none :: rest => isWellSpaced rest
  | none :: _ => false

/-- The sign, and the text after it. -/
def sign : List Char → Bool × List Char
  | '+' :: cs => (false, cs)
  | '-' :: cs => (true, cs)
  | cs => (false, cs)

/-- The integer that a text spells loosely. Too many digits are told apart before what follows
them is looked at. -/
def read (text : String) : Except Fault Int :=
  let (negative, unsigned) := sign (text.toList.dropWhile Text.isNumeralBlank)
  let (marks, rest) := span unsigned
  let digits := marks.filterMap id
  if !isWellSpaced marks then .error (.notNumeral text)
  else if maxDigits < digits.length then .error (.numeralTooLong digits.length)
  else if !rest.all Text.isNumeralBlank then .error (.notNumeral text)
  else
    let magnitude : Nat := digits.foldl (fun n d => 10 * n + d) 0
    .ok (if negative then -(magnitude : Int) else magnitude)

end Loose

/-! ## Decimal fractions in double precision

A decimal fraction is rounded to the nearest number with 53 significant bits, a tie going to the
even one, within the exponents of the double precision format; the integer part of the result is
what counts here. All of it is exact arithmetic on naturals.
-/

namespace Binary64

/-- The magnitude `mantissa · 10 ^ exponent` of a decimal fraction. -/
structure Decimal where
  mantissa : Nat
  exponent : Int
deriving DecidableEq, Repr

/-- The quotient rounded to the nearest natural, a tie going to the even one. -/
def roundDiv (num den : Nat) : Nat :=
  let q := num / den
  let twice := 2 * (num % den)
  if twice < den then q else if den < twice then q + 1 else q + q % 2

/-- The least exponent of the binary unit: below it the numbers are evenly spaced. -/
def minUnit : Int := -1074

/-- The first power of two that is too large. -/
def overflowBits : Nat := 1024

/-- The binary unit of the numbers around `num / den`: 53 bits lie above it. -/
def unitExponent (num den : Nat) : Int :=
  let estimate : Int := (Nat.log2 num : Int) - Nat.log2 den
  -- `2 ^ estimate` exceeds the quotient at most by a factor of two
  let top := if num <<< (-estimate).toNat < den <<< estimate.toNat then estimate - 1 else estimate
  max minUnit (top - 52)

/-- The integer part of `num / den` rounded to double precision; `none` if that is infinite. -/
def truncateRatio (num den : Nat) : Option Nat :=
  if num = 0 then some 0
  else
    let e := unitExponent num den
    let significand := roundDiv (num <<< (-e).toNat) (den <<< e.toNat)
    let whole := (significand <<< e.toNat) >>> (-e).toNat
    if whole < 1 <<< overflowBits then some whole else none

/-- The number of decimal digits of a natural, zero having one. -/
def digitCount (n : Nat) : Nat :=
  (Nat.toDigits 10 n).length

/-- The integer part of a decimal fraction in double precision; `none` if it is infinite. Fractions
far outside the format are settled by their order of magnitude alone. -/
def truncate (x : Decimal) : Option Nat :=
  let magnitude : Int := digitCount x.mantissa + x.exponent
  if x.mantissa = 0 || magnitude < -400 then some 0
  else if 400 < magnitude then none
  else truncateRatio (x.mantissa * Nat.pow 10 x.exponent.toNat) (Nat.pow 10 (-x.exponent).toNat)

end Binary64

/-! ## Data with an integer value -/

/-- A value from outside. -/
inductive Datum where
  | integer (v : Int)
  | truth (b : Bool)
  /-- A fraction, with its sign apart. -/
  | fraction (negative : Bool) (magnitude : Binary64.Decimal)
  /-- A number without bounds, of either sign. -/
  | infinity
  /-- What stands for the result of a calculation that has none. -/
  | undefined
  | text (s : String)
  | other (shape : NonNumber)
deriving DecidableEq, Repr

/-- The integer value: a fraction loses what follows its point. -/
def Datum.toInt : Datum → Except Fault Int
  | .integer v => .ok v
  | .truth b => .ok (if b then 1 else 0)
  | .fraction negative magnitude =>
    match Binary64.truncate magnitude with
    | some n => .ok (if negative then -(n : Int) else n)
    | none => .error .infiniteNumber
  | .infinity => .error .infiniteNumber
  | .undefined => .error .undefinedNumber
  | .text s => Loose.read s
  | .other shape => .error (.notNumber shape)

end Number

end ThreadedForth
