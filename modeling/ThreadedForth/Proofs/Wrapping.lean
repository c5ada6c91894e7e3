import Mathlib.Data.Int.Bitwise
import Mathlib.Data.List.Forall2
import ThreadedForth.Proofs.Operands
import ThreadedForth.Proofs.Widths

/-!
# Arithmetic in two's complement

The wrapped number is the only number of the cell that agrees with the given one modulo the number of
all cells (`CellWidth.eq_wrap_iff`). On bits that is two's complement: keep the lowest ones, and read the
upper half of what they spell as negative (`CellWidth.ofLowBits`).

A program of numerals and of the words for sums, differences and products builds expressions on its
stack (`build?`). Whatever wraps on the way, each cell holds the value of its expression in the end,
wrapped once (`Action.drain_builds`).
-/

namespace ThreadedForth

variable {Ext : Type}

/-! ## Wrapping -/

/-- Masking is what is left of a division by a power of two, for negative numbers as well. -/
theorem land_mask (v : Int) (n : Nat) :
    Int.land v (Nat.pow 2 n - 1 : Nat) = v % (Nat.pow 2 n : Nat) := by
  cases v with
  | ofNat a => exact congrArg Int.ofNat (Nat.and_two_pow_sub_one_eq_mod a n)
  | negSucc a =>
    have hpos : 0 < Nat.pow 2 n := Nat.pow_pos (by decide)
    have hlt : a % Nat.pow 2 n < Nat.pow 2 n := Nat.mod_lt a hpos
    -- a negative number has the bits that its complement does not have
    have hbits : Nat.ldiff (Nat.pow 2 n - 1) a = Nat.pow 2 n - (a % Nat.pow 2 n + 1) := by
      refine Nat.eq_of_testBit_eq fun i => ?_
      have hmask : (Nat.pow 2 n - 1).testBit i = decide (i < n) := Nat.testBit_two_pow_sub_one n i
      have hlow : (a % Nat.pow 2 n).testBit i = (decide (i < n) && a.testBit i) :=
        Nat.testBit_mod_two_pow a n i
      have hcomplement : (Nat.pow 2 n - (a % Nat.pow 2 n + 1)).testBit i =
          (decide (i < n) && !(a % Nat.pow 2 n).testBit i) := Nat.testBit_two_pow_sub_succ hlt i
      rw [Nat.testBit_ldiff, hmask, hcomplement, hlow]
      cases decide (i < n) <;> simp
    rw [Int.negSucc_emod _ (by omega)]
    show ((Nat.ldiff (Nat.pow 2 n - 1) a : Nat) : Int) = _
    rw [hbits]
    omega

namespace CellWidth

variable {w : CellWidth} {u v : Int}

theorem modulus_eq_pow (w : CellWidth) : w.modulus = Nat.pow 2 w.bits :=
  Nat.one_shiftLeft _

/-- The number that the lowest bits of `v` spell in two's complement. -/
def ofLowBits (w : CellWidth) (v : Int) : Int :=
  let low := Int.land v (w.modulus - 1 : Nat)
  if w.greatest < low then low - w.modulus else low

/-- To wrap a number is to keep its lowest bits. -/
theorem wrap_eq_ofLowBits (w : CellWidth) (v : Int) : w.wrap v = w.ofLowBits v := by
  have hmodulus := w.modulus_eq_two_mul_half
  have hland : Int.land v (w.modulus - 1 : Nat) = v % w.modulus := by
    rw [modulus_eq_pow, land_mask]
  rw [wrap, Int.bmod, ofLowBits, hland, greatest]
  split <;> split <;> omega

/-- The wrapped number is the one in the cell that differs by a multiple of the modulus. -/
theorem eq_wrap_iff : u = w.wrap v ↔ w.Holds u ∧ u % w.modulus = v % w.modulus := by
  constructor
  · rintro rfl
    exact ⟨w.holds_wrap v, Int.bmod_emod⟩
  · rintro ⟨hu, hmod⟩
    calc
      u = w.wrap u := (wrap_of_holds hu).symm
      _ = (u % w.modulus).bmod w.modulus := (Int.emod_bmod u w.modulus).symm
      _ = (v % w.modulus).bmod w.modulus := by rw [hmod]
      _ = w.wrap v := Int.emod_bmod v w.modulus

end CellWidth

/-! ## Programs and their expressions -/

/-- The operations of arithmetic that wrap. -/
inductive Operation where
  | add
  | subtract
  | multiply
deriving DecidableEq, Repr

namespace Operation

/-- The operation on unbounded numbers. -/
def apply : Operation → Int → Int → Int
  | .add => (· + ·)
  | .subtract => (· - ·)
  | .multiply => (· * ·)

/-- The words for the operation. -/
def names : Operation → List String
  | .add => ["+", "plus"]
  | .subtract => ["-", "subtract"]
  | .multiply => ["*", "mult"]

def primitive : Operation → Primitive Ext
  | .add => .add
  | .subtract => .subtract
  | .multiply => .multiply

theorem congruent_apply (o : Operation) : CellWidth.Congruent o.apply := by
  cases o with
  | add => exact CellWidth.congruent_add
  | subtract => exact CellWidth.congruent_sub
  | multiply => exact CellWidth.congruent_mul

end Operation

/-- What a program of arithmetic computes. -/
inductive Expression where
  | literal (v : Int)
  | operate (o : Operation) (a b : Expression)
deriving DecidableEq, Repr

/-- The value without bounds. -/
def Expression.value : Expression → Int
  | .literal v => v
  | .operate o a b => o.apply a.value b.value

/-- One word of a program of arithmetic. -/
inductive Instruction where
  | literal (v : Int)
  | operate (o : Operation)
deriving DecidableEq, Repr

/-- A numeral in range spells a literal, and each operation has its words. -/
inductive Instruction.SpelledBy (width : CellWidth) : String → Instruction → Prop
  | literal {token : String} {numeral : Number.Numeral} :
      Number.Numeral.ofString? token = some numeral → width.Holds numeral.value →
      SpelledBy width token (.literal numeral.value)
  | operate {token : String} {o : Operation} : token ∈ o.names →
      SpelledBy width token (.operate o)

/-- What an instruction makes of the expressions on the stack, top first, if no operand is missing. -/
def Instruction.build? : Instruction → List Expression → Option (List Expression)
  | .literal v, stack => some (.literal v :: stack)
  | .operate o, b :: a :: stack => some (.operate o a b :: stack)
  | .operate _, _ => none

/-- What a program makes of them. -/
def build? : List Instruction → List Expression → Option (List Expression)
  | [], stack => some stack
  | instruction :: program, stack => (instruction.build? stack).bind (build? program)

/-- The cells of expressions, each with its value wrapped once. -/
def CellWidth.cells (w : CellWidth) (exprs : List Expression) : List Int :=
  exprs.map fun e => w.wrap e.value

/-! ## Words -/

/-- The fault of a numeral with more digits than can be read. -/
def Fault.RefusesNumeral (fault : Fault) (token : String) : Prop :=
  ∃ numeral, Number.Numeral.ofString? token = some numeral ∧
    Number.maxDigits < numeral.digits.length ∧ fault = .numeralTooLong numeral.digits.length

/-- No word of a fresh machine hides a numeral. -/
theorem Dictionary.ofString?_of_builtin : ∀ (name : String) (w : Word Ext),
    (builtin : Dictionary Ext).lookup name = some w → Number.Numeral.ofString? name = none := by
  have hprimitives : ∀ x ∈ (primitives : List (String × Bool × Primitive Ext)),
      Number.Numeral.ofString? x.1 = none := by
    simp only [primitives, List.forall_mem_cons, List.not_mem_nil, false_implies, implies_true,
      and_true]
    decide
  have hcopies : ∀ x ∈ copies, Number.Numeral.ofString? x.1 = none := by decide
  exact forall_lookup_builtin (fun _ _ _ hmem => hprimitives _ hmem)
    fun _ _ _ hmem _ => hcopies _ hmem

theorem Dictionary.lookup_operation {token : String} {o : Operation} (h : token ∈ o.names) :
    (builtin : Dictionary Ext).lookup token = some ⟨some token, false, .primitive o.primitive⟩ := by
  revert token
  cases o <;> simp only [Operation.names, List.forall_mem_cons]
  · exact ⟨by cbv, by cbv, nofun⟩
  · exact ⟨by cbv, by cbv, nofun⟩
  · exact ⟨by cbv, by cbv, nofun⟩

namespace Action

variable [Extension Ext] {m : Machine Ext} {token : String}

/-- A numeral pushes its value, or is too long. -/
theorem interpret_numeral (hm : m.dictionary = Dictionary.builtin) {numeral : Number.Numeral}
    (hn : Number.Numeral.ofString? token = some numeral) (hv : m.width.Holds numeral.value) :
    interpret Machine.performer token m = .ok () { m with stack := numeral.value :: m.stack } ∨
    ∃ fault, interpret Machine.performer token m = .error fault m ∧ fault.RefusesNumeral token := by
  have hlookup : m.dictionary.lookup token = none := by
    rw [hm]
    cases hl : (Dictionary.builtin : Dictionary Ext).lookup token with
    | none => rfl
    | some w =>
      rw [Dictionary.ofString?_of_builtin token w hl] at hn
      cases hn
  by_cases hlen : numeral.digits.length ≤ Number.maxDigits
  · have hresolve : m.resolve token = .ok (some (.ofLiteral numeral.value)) := by
      simp only [Machine.resolve, hlookup, CellWidth.literal?, hn, Number.Numeral.read, if_pos hlen,
        if_pos hv]
      rfl
    refine .inl ((interpret_of_word hresolve).trans ?_)
    rw [Body.run_eq_forM]
    rfl
  · have hresolve : m.resolve token = .error (.numeralTooLong numeral.digits.length) := by
      simp only [Machine.resolve, hlookup, CellWidth.literal?, hn, Number.Numeral.read, if_neg hlen]
      rfl
    exact .inr ⟨_, interpret_of_error hresolve, numeral, hn, Nat.lt_of_not_le hlen, rfl⟩

theorem interpret_operation (hm : m.dictionary = Dictionary.builtin) {o : Operation}
    (ho : token ∈ o.names) :
    ∃ word, interpret Machine.performer token m = binary word o.apply m := by
  have hresolve : m.resolve token = .ok (some ⟨some token, false, .primitive o.primitive⟩) := by
    simp only [Machine.resolve, hm, Dictionary.lookup_operation ho]
  rw [interpret_of_word hresolve, Body.run_primitive]
  cases o with
  | add | subtract | multiply => exact ⟨_, rfl⟩

/-! ## Runs -/

section Runs

variable {stack : List Expression}

/-- An instruction does to the cells what it does to the expressions. -/
theorem interpret_builds (hm : m.dictionary = Dictionary.builtin) {instruction : Instruction}
    (hspelled : Instruction.SpelledBy m.width token instruction) (hstack : m.stack = m.width.cells stack) :
    (∃ stack', instruction.build? stack = some stack' ∧
      interpret Machine.performer token m = .ok () { m with stack := m.width.cells stack' }) ∨
    ∃ fault, interpret Machine.performer token m = .error fault m ∧
      (fault.IsUnderflow ∧ instruction.build? stack = none ∨ fault.RefusesNumeral token) := by
  cases hspelled with
  | @literal numeral hn hv =>
    obtain hrun | ⟨fault, hrun, hrefuses⟩ := interpret_numeral hm hn hv
    · refine .inl ⟨_, rfl, ?_⟩
      rw [hrun, hstack, CellWidth.cells, CellWidth.cells, List.map_cons, Expression.value,
        CellWidth.wrap_of_holds hv]
    · exact .inr ⟨fault, hrun, .inr hrefuses⟩
  | @operate o ho =>
    obtain ⟨word, hrun⟩ := interpret_operation hm ho
    rw [hrun]
    rcases stack with _ | ⟨b, _ | ⟨a, stack⟩⟩
    · exact .inr ⟨_, binary_of_short (by simp [hstack, CellWidth.cells]) _ _,
        .inl ⟨⟨_, _, _, rfl⟩, rfl⟩⟩
    · exact .inr ⟨_, binary_of_short (by simp [hstack, CellWidth.cells]) _ _,
        .inl ⟨⟨_, _, _, rfl⟩, rfl⟩⟩
    · -- the operands on the stack are wrapped, and that makes no difference to the result
      refine .inl ⟨_, rfl, ?_⟩
      rw [binary_of_cons hstack, o.congruent_apply m.width a.value b.value]
      rfl

/-- The program leaves the cells of its expressions; or else an operand is missing, or a numeral is too
long. -/
theorem drain_builds {program : List Instruction} (hm : m.dictionary = Dictionary.builtin)
    (hd : m.draft = none)
    (hspelled : List.Forall₂ (Instruction.SpelledBy m.width) (Input.words m.pending) program)
    (hstack : m.stack = m.width.cells stack) :
    (∃ exprs, build? program stack = some exprs ∧
      drain m = .ok () { m with stack := m.width.cells exprs, pending := [] }) ∨
    ∃ fault m', drain m = .error fault m' ∧ (fault.IsUnderflow ∧ build? program stack = none ∨
      ∃ token ∈ Input.words m.pending, fault.RefusesNumeral token) := by
  induction program generalizing m stack with
  | nil =>
    have hwords := List.forall₂_nil_right_iff.1 hspelled
    refine .inl ⟨stack, rfl, ?_⟩
    rw [drain_of_none hd (Input.readWord?_of_words_nil hwords), ← hstack]
  | cons instruction program ih =>
    obtain ⟨token, tokens, htoken, hrest, hwords⟩ := List.forall₂_cons_right_iff.1 hspelled
    obtain ⟨rest, hread, rfl⟩ := Input.readWord?_of_words_cons hwords
    have hturn := drain_of_some (hm ▸ Dictionary.native_builtin) hd hread
    rw [hturn, hwords, build?]
    have hstep := @interpret_builds Ext _ { m with pending := rest } token _ hm _ htoken hstack
    obtain ⟨stack', hbuild, hrun⟩ | ⟨fault, hrun, hfault⟩ := hstep
    · rw [bind_of_ok hrun, hbuild, Option.bind_some]
      have hend := @ih { m with pending := rest, stack := m.width.cells stack' } _ hm hd hrest rfl
      obtain ⟨exprs, hexprs, hreturns⟩ | ⟨fault, m', hstops, hfault⟩ := hend
      · exact .inl ⟨exprs, hexprs, hreturns⟩
      · refine .inr ⟨fault, m', hstops, hfault.imp_right ?_⟩
        rintro ⟨t, ht, hrefuses⟩
        exact ⟨t, List.mem_cons_of_mem token ht, hrefuses⟩
    · refine .inr ⟨fault, _, bind_of_error hrun, hfault.imp ?_ ?_⟩
      · rintro ⟨hunderflow, hnone⟩
        exact ⟨hunderflow, by rw [hnone, Option.bind_none]⟩
      · exact fun hrefuses => ⟨token, List.mem_cons_self, hrefuses⟩

/-- So a text does on a machine with nothing pending and an empty stack. -/
theorem eval_builds {text : String} {program : List Instruction}
    (hm : m.dictionary = Dictionary.builtin) (hd : m.draft = none) (hpending : m.pending = [])
    (hempty : m.stack = [])
    (hspelled : List.Forall₂ (Instruction.SpelledBy m.width) (Input.words (Input.ofText text))
      program) :
    (∃ exprs, build? program [] = some exprs ∧
      Machine.eval text m = .ok () { m with stack := m.width.cells exprs }) ∨
    ∃ fault m', Machine.eval text m = .error fault m' ∧
      (fault.IsUnderflow ∧ build? program [] = none ∨
        ∃ token ∈ Input.words (Input.ofText text), fault.RefusesNumeral token) := by
  have hrun : Machine.eval text m = drain { m with pending := Input.ofText text } := by
    rw [eval_eq_proceed, hpending]
    exact proceed_of_closed hd
  rw [hrun]
  simp only [hpending]
  exact @drain_builds Ext _ { m with pending := Input.ofText text } [] _ hm hd hspelled hempty

end Runs

end Action

/-- With cells of any width, the wrapped number is the one number between the least and the greatest of a
cell that agrees with the given one modulo the number of all cells; it has the lowest bits of the given
one, to wrap it again makes no difference, and a number that fits is left alone. So take a text of
numerals in range and of the words for sums, differences and products. A fresh machine evaluates it to
its end, and then each cell is the unbounded value of the expression that it comes from, wrapped once;
unless an operand is missing, or a numeral has more digits than can be read. -/
theorem eval_arithmetic_wraps_once [Extension Ext] (width : CellWidth) :
    (∀ u v : Int, u = width.wrap v ↔
      (-(Nat.pow 2 (width.bits - 1) : Int) ≤ u ∧ u ≤ Nat.pow 2 (width.bits - 1) - 1) ∧
      u % (Nat.pow 2 width.bits : Int) = v % (Nat.pow 2 width.bits : Int)) ∧
    (∀ v, width.wrap v = width.ofLowBits v) ∧
    (∀ v, width.wrap (width.wrap v) = width.wrap v) ∧
    (∀ v, width.Holds v → width.wrap v = v) ∧
    ∀ (text : String) (program : List Instruction),
      List.Forall₂ (Instruction.SpelledBy width) (Input.words (Input.ofText text)) program →
      (∃ exprs, build? program [] = some exprs ∧
        Machine.eval text (Machine.fresh width : Machine Ext) =
          .ok () { Machine.fresh width with stack := exprs.map fun e => width.wrap e.value }) ∨
      ∃ fault m, Machine.eval text (Machine.fresh width : Machine Ext) = .error fault m ∧
        (fault.IsUnderflow ∧ build? program [] = none ∨
          ∃ token ∈ Input.words (Input.ofText text), fault.RefusesNumeral token) := by
  refine ⟨fun u v => ?_, width.wrap_eq_ofLowBits, width.wrap_wrap (Nat.le_refl _),
    fun v => CellWidth.wrap_of_holds, fun text program hspelled => ?_⟩
  · rw [CellWidth.eq_wrap_iff, CellWidth.holds_iff, CellWidth.modulus_eq_pow]
  · exact Action.eval_builds (Machine.fresh_dictionary width) rfl rfl rfl hspelled

/-- On bytes, a hundred times a hundred less seven is nine. -/
theorem eval_bytes_wrap_once :
    Machine.eval "100 +100 * 7 -" (Machine.fresh ⟨8, by decide⟩ : Machine Empty) =
      .ok () { Machine.fresh ⟨8, by decide⟩ with stack := [9] } := by
  have hspelled : List.Forall₂ (Instruction.SpelledBy ⟨8, by decide⟩)
      (Input.words (Input.ofText "100 +100 * 7 -"))
      [.literal 100, .literal 100, .operate .multiply, .literal 7, .operate .subtract] := by
    have hwords : Input.words (Input.ofText "100 +100 * 7 -") = ["100", "+100", "*", "7", "-"] := by
      decide +kernel
    have hliteral : ∀ token numeral, Number.Numeral.ofString? token = some numeral →
        CellWidth.Holds ⟨8, by decide⟩ numeral.value → Instruction.SpelledBy ⟨8, by decide⟩ token
          (.literal numeral.value) := fun _ _ => .literal
    rw [hwords]
    exact .cons (hliteral "100" ⟨false, ['1', '0', '0']⟩ (by decide) (by decide))
      (.cons (hliteral "+100" ⟨false, ['1', '0', '0']⟩ (by decide) (by decide))
        (.cons (.operate (by decide))
          (.cons (hliteral "7" ⟨false, ['7']⟩ (by decide) (by decide))
            (.cons (.operate (by decide)) .nil))))
  obtain ⟨-, -, -, -, hprogram⟩ := @eval_arithmetic_wraps_once Empty _ ⟨8, by decide⟩
  obtain ⟨exprs, hbuild, hrun⟩ | ⟨fault, m, hrun, -⟩ := hprogram _ _ hspelled
  · cases hbuild
    exact hrun
  · have hreturns : (Machine.eval "100 +100 * 7 -").fault?
        (Machine.fresh ⟨8, by decide⟩ : Machine Empty) = none := by
      decide +kernel
    rw [Action.fault?_of_error hrun] at hreturns
    cases hreturns

end ThreadedForth
