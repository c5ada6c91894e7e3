import ThreadedForth.Cell

/-!
# Literals can be written and read back

A numeral with so many digits is below that power of ten; so whatever a program spells as a literal
is short enough to be written again (`CellWidth.isWritable_of_literal?`). What is written is a
numeral, and is read as the number that it was (`CellWidth.literal?_decimal`).
-/

namespace ThreadedForth

namespace Number

theorem digit_lt_ten {c : Char} (h : c.isDigit = true) : c.toNat - '0'.toNat < 10 :=
  Text.digitValue?_lt (Text.digitValue?_of_isDigit h)

/-- Digits that are read after a number append to it. -/
theorem foldl_digits_lt {digits : List Nat} (h : ∀ d ∈ digits, d < 10) (start : Nat) :
    digits.foldl (fun n d => 10 * n + d) start < (start + 1) * Nat.pow 10 digits.length := by
  induction digits generalizing start with
  | nil => simp
  | cons d digits ih =>
    rw [List.forall_mem_cons] at h
    have hd := h.1
    calc digits.foldl (fun n d => 10 * n + d) (10 * start + d)
        < (10 * start + d + 1) * Nat.pow 10 digits.length := ih h.2 _
      _ ≤ ((start + 1) * 10) * Nat.pow 10 digits.length := Nat.mul_le_mul_right _ (by omega)
      _ = (start + 1) * (Nat.pow 10 digits.length * 10) := by rw [Nat.mul_assoc, Nat.mul_comm 10]
      _ = (start + 1) * Nat.pow 10 (d :: digits).length := rfl

/-- The value of at most `limit` digits is below that power of ten. -/
theorem foldl_digits_lt_pow {digits : List Nat} (h : ∀ d ∈ digits, d < 10) {limit : Nat}
    (hlen : digits.length ≤ limit) :
    digits.foldl (fun n d => 10 * n + d) 0 < Nat.pow 10 limit :=
  calc digits.foldl (fun n d => 10 * n + d) 0
      < (0 + 1) * Nat.pow 10 digits.length := foldl_digits_lt h 0
    _ = Nat.pow 10 digits.length := Nat.one_mul _
    _ ≤ Nat.pow 10 limit := Nat.pow_le_pow_right (by decide) hlen

/-- What ASCII digits stand for, one by one. -/
def digitValues (digits : List Char) : List Nat :=
  digits.map fun c => c.toNat - '0'.toNat

theorem ofDigitChars_eq_foldl (digits : List Char) :
    Nat.ofDigitChars 10 digits 0 = (digitValues digits).foldl (fun n d => 10 * n + d) 0 := by
  rw [digitValues, List.foldl_map]
  rfl

theorem ofDigitChars_lt_pow {digits : List Char} (h : digits.all Char.isDigit = true) {limit : Nat}
    (hlen : digits.length ≤ limit) : Nat.ofDigitChars 10 digits 0 < Nat.pow 10 limit := by
  have hvalues : ∀ d ∈ digitValues digits, d < 10 :=
    List.forall_mem_map.2 fun c hc => digit_lt_ten (List.all_eq_true.1 h c hc)
  rw [ofDigitChars_eq_foldl]
  exact foldl_digits_lt_pow hvalues (by rwa [digitValues, List.length_map])

namespace Numeral

theorem isDigit_of_ofDigits? {negative : Bool} {digits : List Char} {n : Numeral}
    (h : ofDigits? negative digits = some n) : n.digits.all Char.isDigit = true := by
  rw [ofDigits?] at h
  split at h
  · next hd =>
    cases h
    exact (Bool.and_eq_true _ _ ▸ hd).2
  · cases h

theorem isDigit_of_ofString? {text : String} {n : Numeral} (h : ofString? text = some n) :
    n.digits.all Char.isDigit = true := by
  rw [ofString?] at h
  split at h
  · exact isDigit_of_ofDigits? h
  · exact isDigit_of_ofDigits? h
  · exact isDigit_of_ofDigits? h

theorem natAbs_value (n : Numeral) : n.value.natAbs = Nat.ofDigitChars 10 n.digits 0 := by
  rw [value]
  cases n.negative with
  | true => exact Int.natAbs_neg _
  | false => rfl

/-- A numeral that can be read can be written. -/
theorem isWritable_of_read {n : Numeral} {v : Int} (hn : n.digits.all Char.isDigit = true)
    (h : n.read = .ok v) : isWritable v = true := by
  rw [read] at h
  split at h
  · next hlen =>
    cases h
    rw [isWritable, natAbs_value, decide_eq_true_eq]
    exact ofDigitChars_lt_pow hn hlen
  · cases h

/-! ## The decimal writing -/

theorem isDigit_of_mem_repr {n : Nat} {c : Char} (hc : c ∈ n.repr.toList) : c.isDigit = true := by
  rw [Nat.toList_repr] at hc
  exact Nat.isDigit_of_mem_toDigits (by decide) (by decide) hc

theorem ofDigits?_repr (negative : Bool) (n : Nat) :
    ofDigits? negative n.repr.toList = some ⟨negative, n.repr.toList⟩ := by
  have hall : n.repr.toList.all Char.isDigit = true :=
    List.all_eq_true.2 fun _ hc => isDigit_of_mem_repr hc
  have hne : n.repr.toList.isEmpty = false := by
    rw [Nat.toList_repr, List.isEmpty_eq_false_iff]
    exact Nat.toDigits_ne_nil
  rw [ofDigits?, hall, hne]
  rfl

/-- The decimal writing of a number is a numeral. -/
theorem ofString?_decimal (v : Int) :
    ofString? (decimal v) = some ⟨decide (v < 0), v.natAbs.repr.toList⟩ := by
  rw [decimal]
  split
  · next hneg =>
    rw [ofString?, String.toList_append, decide_eq_true hneg]
    exact ofDigits?_repr true _
  · next hpos =>
    rw [ofString?, decide_eq_false hpos]
    -- the first digit is no sign
    split
    · next hsign =>
      exact absurd (isDigit_of_mem_repr (hsign ▸ List.mem_cons_self)) (by decide)
    · next hsign =>
      exact absurd (isDigit_of_mem_repr (hsign ▸ List.mem_cons_self)) (by decide)
    · exact ofDigits?_repr false _

theorem length_repr_le {n limit : Nat} (hlimit : 0 < limit) (h : n < Nat.pow 10 limit) :
    n.repr.toList.length ≤ limit := by
  rw [Nat.toList_repr]
  exact (Nat.length_toDigits_le_iff (by decide) hlimit).2 h

/-- It is read as the number that it was. -/
theorem read_decimal {v : Int} (h : isWritable v = true) :
    read ⟨decide (v < 0), v.natAbs.repr.toList⟩ = .ok v := by
  have hdigits : v.natAbs.repr.toList.length ≤ maxDigits := by
    rw [isWritable, decide_eq_true_eq] at h
    exact length_repr_le (by decide) h
  rw [read, if_pos hdigits, value, Nat.toList_repr, Nat.ofDigitChars_ten_toDigits]
  simp only [decide_eq_true_eq, Except.ok.injEq]
  omega

end Numeral

end Number

/-- A number of a cell that can be written is read back as a literal. -/
theorem CellWidth.literal?_decimal {width : CellWidth} {v : Int} (hv : width.Holds v)
    (h : Number.isWritable v = true) :
    width.literal? (Number.decimal v) = .ok (some v) := by
  simp only [literal?, Number.Numeral.ofString?_decimal, Number.Numeral.read_decimal h, if_pos hv]

/-- A literal of a program can be written. -/
theorem CellWidth.isWritable_of_literal? {width : CellWidth} {token : String} {v : Int}
    (h : width.literal? token = .ok (some v)) : Number.isWritable v = true := by
  rw [literal?] at h
  cases hn : Number.Numeral.ofString? token with
  | none =>
    rw [hn] at h
    cases h
  | some n =>
    cases hr : n.read with
    | error fault => simp [hn, hr] at h
    | ok value =>
      simp only [hn, hr, Except.ok.injEq] at h
      split at h
      · cases h
        exact Number.Numeral.isWritable_of_read (Number.Numeral.isDigit_of_ofString? hn) hr
      · cases h

end ThreadedForth
