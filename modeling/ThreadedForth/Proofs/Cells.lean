import ThreadedForth.Proofs.Literals

/-!
# What fits a cell

Every number that can come onto a stack is wrapped or is a literal, and both fit the cell
(`holds_wrap`, `holds_of_literal?`). A cell of up to `widestWritable` bits holds no number with more
digits than can be written (`isWritable_of_holds`), so there a literal that is too long to be read is
the only number that is too long for anything.
-/

namespace ThreadedForth.CellWidth

theorem half_eq_pow (w : CellWidth) : w.half = Nat.pow 2 (w.bits - 1) :=
  Nat.one_shiftLeft _

theorem half_le_pow {w : CellWidth} {n : Nat} (h : w.bits - 1 ≤ n) : w.half ≤ Nat.pow 2 n := by
  rw [half_eq_pow]
  exact Nat.pow_le_pow_right (by decide) h

theorem half_pos (w : CellWidth) : 0 < w.half := by
  rw [half_eq_pow]
  exact Nat.pow_pos (by decide)

theorem modulus_eq_two_mul_half (w : CellWidth) : w.modulus = 2 * w.half := by
  have hbits : w.bits = w.bits - 1 + 1 := by
    have := w.two_le
    omega
  rw [modulus, half, Nat.one_shiftLeft, Nat.one_shiftLeft, hbits, Nat.pow_succ, Nat.mul_comm]
  rfl

/-- The range of a cell, as powers of two. -/
theorem holds_iff {w : CellWidth} {v : Int} :
    w.Holds v ↔ -(Nat.pow 2 (w.bits - 1) : Int) ≤ v ∧ v ≤ Nat.pow 2 (w.bits - 1) - 1 := by
  rw [Holds, least, greatest, half_eq_pow]

/-- A wrapped number fits the cell. -/
theorem holds_wrap (w : CellWidth) (v : Int) : w.Holds (w.wrap v) := by
  have hpos := w.half_pos
  have hmodulus := w.modulus_eq_two_mul_half
  have hlow : -((w.modulus : Int) / 2) ≤ w.wrap v := Int.le_bmod (by omega)
  have hhigh : w.wrap v < ((w.modulus : Int) + 1) / 2 := Int.bmod_lt (by omega)
  constructor
  · rw [least]
    omega
  · rw [greatest]
    omega

/-- A number that fits is left alone. -/
theorem wrap_of_holds {w : CellWidth} {v : Int} (h : w.Holds v) : w.wrap v = v := by
  obtain ⟨hlow, hhigh⟩ := h
  have hmodulus := w.modulus_eq_two_mul_half
  rw [least] at hlow
  rw [greatest] at hhigh
  exact Int.bmod_eq_of_le (by omega) (by omega)

/-- Wrapping brings no number further from zero. -/
theorem natAbs_wrap_le (w : CellWidth) (v : Int) : (w.wrap v).natAbs ≤ v.natAbs := by
  by_cases hv : w.Holds v
  · exact Nat.le_of_eq (congrArg Int.natAbs (wrap_of_holds hv))
  · obtain ⟨hlow, hhigh⟩ := w.holds_wrap v
    rw [Holds] at hv
    rw [least] at hv hlow
    rw [greatest] at hv hhigh
    omega

section Literals

variable {w : CellWidth} {token : String}

/-- A literal fits the cell. -/
theorem holds_of_literal? {v : Int} (h : w.literal? token = .ok (some v)) : w.Holds v := by
  rw [literal?] at h
  cases hn : Number.Numeral.ofString? token with
  | none => simp [hn] at h
  | some numeral =>
    cases hr : numeral.read with
    | error fault => simp [hn, hr] at h
    | ok value =>
      simp only [hn, hr, Except.ok.injEq] at h
      split at h
      · next hv =>
        cases h
        exact hv
      · cases h

/-- Only a numeral with too many digits cannot be looked at. -/
theorem numeral_of_literal?_error {fault : Fault} (h : w.literal? token = .error fault) :
    ∃ numeral, Number.Numeral.ofString? token = some numeral ∧
      Number.maxDigits < numeral.digits.length ∧ fault = .numeralTooLong numeral.digits.length := by
  rw [literal?] at h
  cases hn : Number.Numeral.ofString? token with
  | none => simp [hn] at h
  | some numeral =>
    simp only [hn, Number.Numeral.read] at h
    by_cases hlen : numeral.digits.length ≤ Number.maxDigits
    · simp [if_pos hlen] at h
    · simp only [if_neg hlen] at h
      cases h
      exact ⟨numeral, rfl, Nat.lt_of_not_le hlen, rfl⟩

end Literals

/-! ## Writing cells -/

/-- The greatest width at which every cell can be written. -/
def widestWritable : Nat := 14285

theorem pow_widestWritable_lt : Nat.pow 2 (widestWritable - 1) < Nat.pow 10 Number.maxDigits := by
  decide +kernel

/-- A number that can be written can be written after it is wrapped. -/
theorem isWritable_wrap {w : CellWidth} {v : Int} (h : Number.isWritable v = true) :
    Number.isWritable (w.wrap v) = true := by
  rw [Number.isWritable, decide_eq_true_eq] at h ⊢
  exact Nat.lt_of_le_of_lt (w.natAbs_wrap_le v) h

theorem isWritable_of_holds {w : CellWidth} (hw : w.bits ≤ widestWritable) {v : Int}
    (hv : w.Holds v) : Number.isWritable v = true := by
  have hhalf : w.half < Nat.pow 10 Number.maxDigits :=
    Nat.lt_of_le_of_lt (half_le_pow (Nat.sub_le_sub_right hw 1)) pow_widestWritable_lt
  rw [Number.isWritable, decide_eq_true_eq]
  refine Nat.lt_of_le_of_lt ?_ hhalf
  obtain ⟨hlow, hhigh⟩ := hv
  rw [least] at hlow
  rw [greatest] at hhigh
  omega

theorem write_of_holds {w : CellWidth} (hw : w.bits ≤ widestWritable) {v : Int} (hv : w.Holds v) :
    Number.write v = .ok (Number.decimal v) := by
  rw [Number.write, isWritable_of_holds hw hv, if_pos rfl]

end ThreadedForth.CellWidth
