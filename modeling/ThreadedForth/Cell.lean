import ThreadedForth.Number

/-!
# Cells

A cell holds a signed number of a fixed width, in two's complement. Results of arithmetic are
wrapped into the cell (`CellWidth.wrap`); a literal of a program has to lie in it from the start
(`CellWidth.literal?`).
-/

namespace ThreadedForth

/-- The number of bits of a cell: one for the sign and at least one more. -/
structure CellWidth where
  bits : Nat
  two_le : 2 ≤ bits
deriving DecidableEq, Repr

namespace CellWidth

/-- The width of so many bits, if a cell can have it. -/
def ofInt (bits : Int) : Except Fault CellWidth :=
  if h : 2 ≤ bits then .ok ⟨bits.toNat, by omega⟩ else .error (.cellTooNarrow bits)

/-- The usual width. -/
def standard : CellWidth := ⟨64, by decide⟩

/-- How many numbers fit a cell. -/
def modulus (w : CellWidth) : Nat := 1 <<< w.bits

/-- How many numbers of each sign fit a cell, zero counting as positive. -/
def half (w : CellWidth) : Nat := 1 <<< (w.bits - 1)

/-- The least number that fits a cell. -/
def least (w : CellWidth) : Int := -w.half

/-- The greatest number that fits a cell. -/
def greatest (w : CellWidth) : Int := w.half - 1

/-- The number fits a cell. -/
def Holds (w : CellWidth) (v : Int) : Prop := w.least ≤ v ∧ v ≤ w.greatest

instance (w : CellWidth) (v : Int) : Decidable (w.Holds v) :=
  inferInstanceAs (Decidable (_ ∧ _))

/-- The number in the cell that agrees with `v` in its lowest bits. -/
def wrap (w : CellWidth) (v : Int) : Int := v.bmod w.modulus

/-- The number that a token spells as a literal: a numeral whose value fits a cell. Its length is
looked at before its value. -/
def literal? (w : CellWidth) (token : String) : Except Fault (Option Int) :=
  match Number.Numeral.ofString? token with
  | none => .ok none
  | some numeral =>
    match numeral.read with
    | .ok v => .ok (if w.Holds v then some v else none)
    | .error fault => .error fault

end CellWidth

end ThreadedForth
