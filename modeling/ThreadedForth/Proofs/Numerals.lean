import ThreadedForth.Proofs.Listing
import ThreadedForth.Proofs.Wrapping

/-!
# What is a literal

A text is a numeral exactly if it is a sign, which may be left out, and then ASCII digits
(`Number.Numeral.SpelledBy`): no digit of another script, no underscore, no blank before or behind.
Its value is what the places of its digits say (`Number.Numeral.decimalValue`). From there it is a
literal if it is not too long to be read, and then fits the cell.

What is printed is such a text. Interpreted again, it leaves the number that was printed, and does
nothing else (`Action.eval_printed`).
-/

namespace ThreadedForth

variable {Ext : Type}

/-! ## Spelling -/

namespace Number

/-- What digits stand for by their places, the last one for units. -/
def placeValue : List Char → Nat
  | [] => 0
  | c :: digits => (c.toNat - '0'.toNat) * Nat.pow 10 digits.length + placeValue digits

theorem ofDigitChars_eq_placeValue (digits : List Char) (start : Nat) :
    Nat.ofDigitChars 10 digits start =
      start * Nat.pow 10 digits.length + placeValue digits := by
  induction digits generalizing start with
  | nil => simp [placeValue]
  | cons c digits ih =>
    have hplace : Nat.pow 10 (c :: digits).length = 10 * Nat.pow 10 digits.length :=
      Nat.pow_succ'
    rw [Nat.ofDigitChars_cons, ih, placeValue, hplace]
    grind

namespace Numeral

variable {n : Numeral} {text : String} {negative : Bool} {digits : List Char}

/-- The signs of numbers that are negative or not. -/
def signs : Bool → List (List Char)
  | true => [['-']]
  | false => [[], ['+']]

theorem mem_signs_cases {sign : List Char} (h : sign ∈ signs negative) :
    (negative = true ∧ sign = ['-']) ∨ (negative = false ∧ (sign = [] ∨ sign = ['+'])) := by
  cases negative with
  | true => exact .inl ⟨rfl, by simpa [signs] using h⟩
  | false => exact .inr ⟨rfl, by simpa [signs] using h⟩

/-- The text is a sign and the digits of the numeral, and nothing else. -/
structure SpelledBy (n : Numeral) (text : String) : Prop where
  signed : ∃ sign ∈ signs n.negative, text.toList = sign ++ n.digits
  digits_ne_nil : n.digits ≠ []
  ascii : ∀ c ∈ n.digits, '0' ≤ c ∧ c ≤ '9'

/-- The value by the places of the digits. -/
def decimalValue (n : Numeral) : Int :=
  if n.negative then -(placeValue n.digits : Int) else placeValue n.digits

theorem value_eq_decimalValue (n : Numeral) : n.value = n.decimalValue := by
  rw [value, decimalValue, ofDigitChars_eq_placeValue, Nat.zero_mul, Nat.zero_add]

theorem isDigit_iff {c : Char} : c.isDigit = true ↔ '0' ≤ c ∧ c ≤ '9' := by
  simp [Char.isDigit, Char.le_def]

/-- There is no blank in a numeral. -/
theorem SpelledBy.isWord (h : n.SpelledBy text) : Text.IsWord text := by
  obtain ⟨sign, hsign, htext⟩ := h.signed
  have hblank : ∀ c ∈ sign, Text.isBlank c = false := by
    obtain ⟨-, rfl⟩ | ⟨-, rfl | rfl⟩ := mem_signs_cases hsign
    · exact List.forall_mem_singleton.2 (by decide)
    · exact List.forall_mem_nil _
    · exact List.forall_mem_singleton.2 (by decide)
  constructor
  · rintro rfl
    exact h.digits_ne_nil (List.append_eq_nil_iff.1 htext.symm).2
  · rw [htext]
    exact List.forall_mem_append.2 ⟨hblank, fun c hc =>
      Text.isBlank_of_isDigit (isDigit_iff.2 (h.ascii c hc))⟩

theorem ofDigits?_eq_some_iff : ofDigits? negative digits = some n ↔
    n = ⟨negative, digits⟩ ∧ digits ≠ [] ∧ ∀ c ∈ digits, '0' ≤ c ∧ c ≤ '9' := by
  rw [ofDigits?]
  simp only [Bool.and_eq_true, Bool.not_eq_true', List.isEmpty_eq_false_iff, List.all_eq_true,
    isDigit_iff]
  split
  · next h =>
    exact ⟨fun hn => ⟨(Option.some.inj hn).symm, h⟩, fun hn => congrArg some hn.1.symm⟩
  · next h =>
    constructor
    · intro hn
      cases hn
    · exact fun hn => absurd hn.2 h

/-- The texts that are numerals are those with a spelling. -/
theorem ofString?_eq_some_iff : ofString? text = some n ↔ n.SpelledBy text := by
  constructor
  · intro h
    rw [ofString?] at h
    split at h
    · next ds hs =>
      obtain ⟨rfl, hne, hascii⟩ := ofDigits?_eq_some_iff.1 h
      exact ⟨⟨['+'], by simp [signs], hs⟩, hne, hascii⟩
    · next ds hs =>
      obtain ⟨rfl, hne, hascii⟩ := ofDigits?_eq_some_iff.1 h
      exact ⟨⟨['-'], by simp [signs], hs⟩, hne, hascii⟩
    · obtain ⟨rfl, hne, hascii⟩ := ofDigits?_eq_some_iff.1 h
      exact ⟨⟨[], by simp [signs], rfl⟩, hne, hascii⟩
  · obtain ⟨negative, digits⟩ := n
    rintro ⟨⟨sign, hsign, hs⟩, hne, hascii⟩
    have hdigits : ofDigits? negative digits = some ⟨negative, digits⟩ :=
      ofDigits?_eq_some_iff.2 ⟨rfl, hne, hascii⟩
    rw [ofString?, hs]
    obtain ⟨rfl, rfl⟩ | ⟨rfl, rfl | rfl⟩ := mem_signs_cases hsign
    · exact hdigits
    · -- the first digit is no sign
      split
      · next hplus => exact absurd (hascii '+' (by simp_all)) (by decide)
      · next hminus => exact absurd (hascii '-' (by simp_all)) (by decide)
      · exact hdigits
    · exact hdigits

end Numeral

end Number

namespace CellWidth

variable {w : CellWidth} {token : String} {v : Int} {fault : Fault}

theorem literal?_of_numeral {n : Number.Numeral} (h : n.SpelledBy token) :
    w.literal? token = if n.digits.length ≤ Number.maxDigits then
      .ok (if w.Holds n.decimalValue then some n.decimalValue else none)
    else .error (.numeralTooLong n.digits.length) := by
  rw [literal?, Number.Numeral.ofString?_eq_some_iff.2 h, ← n.value_eq_decimalValue]
  simp only [Number.Numeral.read]
  by_cases hlen : n.digits.length ≤ Number.maxDigits
  · rw [if_pos hlen, if_pos hlen]
  · rw [if_neg hlen, if_neg hlen]

theorem literal?_of_not_numeral (h : ∀ n : Number.Numeral, ¬ n.SpelledBy token) :
    w.literal? token = .ok none := by
  rw [literal?]
  cases hn : Number.Numeral.ofString? token with
  | none => rfl
  | some n => exact absurd (Number.Numeral.ofString?_eq_some_iff.1 hn) (h n)

/-- Only a numeral with too many digits is refused, whatever it stands for. -/
theorem literal?_eq_error_iff : w.literal? token = .error fault ↔
    ∃ n : Number.Numeral, n.SpelledBy token ∧ Number.maxDigits < n.digits.length ∧
      fault = .numeralTooLong n.digits.length := by
  constructor
  · intro h
    obtain ⟨n, hn, hlong, rfl⟩ := numeral_of_literal?_error h
    exact ⟨n, Number.Numeral.ofString?_eq_some_iff.1 hn, hlong, rfl⟩
  · rintro ⟨n, hn, hlong, rfl⟩
    rw [literal?_of_numeral hn, if_neg (Nat.not_le.2 hlong)]

/-- A shorter numeral is a literal if its value fits the cell, -/
theorem literal?_eq_some_iff : w.literal? token = .ok (some v) ↔
    ∃ n : Number.Numeral, n.SpelledBy token ∧ n.digits.length ≤ Number.maxDigits ∧
      n.decimalValue = v ∧ w.Holds v := by
  constructor
  · intro h
    by_cases hspelled : ∃ n : Number.Numeral, n.SpelledBy token
    · obtain ⟨n, hn⟩ := hspelled
      rw [literal?_of_numeral hn] at h
      split at h
      · next hlen =>
        split at h
        · next hv =>
          cases h
          exact ⟨n, hn, hlen, rfl, hv⟩
        · cases h
      · cases h
    · rw [literal?_of_not_numeral (not_exists.1 hspelled)] at h
      cases h
  · rintro ⟨n, hn, hlen, rfl, hv⟩
    rw [literal?_of_numeral hn, if_pos hlen, if_pos hv]

/-- and any other text is none. -/
theorem literal?_eq_none_iff : w.literal? token = .ok none ↔
    ∀ n : Number.Numeral, n.SpelledBy token →
      n.digits.length ≤ Number.maxDigits ∧ ¬ w.Holds n.decimalValue := by
  constructor
  · intro h n hn
    rw [literal?_of_numeral hn] at h
    split at h
    · next hlen =>
      split at h
      · cases h
      · next hv => exact ⟨hlen, hv⟩
    · cases h
  · intro h
    by_cases hspelled : ∃ n : Number.Numeral, n.SpelledBy token
    · obtain ⟨n, hn⟩ := hspelled
      obtain ⟨hlen, hv⟩ := h n hn
      rw [literal?_of_numeral hn, if_pos hlen, if_neg hv]
    · exact literal?_of_not_numeral (not_exists.1 hspelled)

/-- Digits of another script, an underscore, a blank or a sign alone make no literal, and neither does
a number beyond the cell. -/
example : (["٣", "1_000", "7 ", "-", "", "--7", "128"].map (literal? ⟨8, by decide⟩)).all
    (fun result => result matches .ok none) = true := by
  decide

end CellWidth

/-! ## Printing -/

theorem Number.lt_pow_iff {n limit : Nat} (hlimit : 0 < limit) :
    n < Nat.pow 10 limit ↔ (Nat.toDigits 10 n).length ≤ limit :=
  (Nat.length_toDigits_le_iff (by decide) hlimit).symm

theorem Number.isWritable_iff {v : Int} :
    isWritable v = true ↔ (Nat.toDigits 10 v.natAbs).length ≤ maxDigits := by
  rw [isWritable, decide_eq_true_eq]
  -- stated for any limit, so that the power is not computed here
  exact lt_pow_iff (by decide)

/-- A line with one word on it. -/
theorem Input.ofText_word_newline {token : String} (h : Text.IsWord token) :
    ofText (token ++ "\n") = [.word token, .lineEnd] := by
  have hlines := Text.lines_append_newline h.isLine ""
  rw [String.append_empty] at hlines
  rw [ofText, hlines, List.flatMap_cons, ofLine, Text.words, Text.splitWords_of_isWord h]
  simp [Text.lines, Text.splitLines]

namespace Action

variable [Extension Ext] {m : Machine Ext} {v : Int} {rest : List Int}

/-- A number is printed on a line of its own. -/
theorem interpret_printer (hword : m.dictionary.lookup "." = Dictionary.builtin.lookup ".")
    (hstack : m.stack = v :: rest) (hv : Number.isWritable v = true) :
    interpret Machine.performer "." m =
      .ok () { m with stack := rest, output := m.output ++ (Number.decimal v ++ "\n") } := by
  have hbuiltin : (Dictionary.builtin : Dictionary Ext).lookup "." =
      some ⟨some ".", false, .primitive .print⟩ := by
    cbv
  have hprint : (Machine.performer : Performer Ext) .print = printTop := rfl
  rw [interpret_of_primitive (hword.trans hbuiltin), hprint, printTop_of_cons hstack, Number.write,
    if_pos hv]
  rfl

/-- What is printed for a number pushes the number, unless a word has this name. -/
theorem eval_printed (hm : m.dictionary.Native) (hd : m.draft = none) (hp : m.pending = [])
    (hfree : m.dictionary.lookup (Number.decimal v) = none) (hv : m.width.Holds v)
    (hwritable : Number.isWritable v = true) :
    Machine.eval (Number.decimal v ++ "\n") m = .ok () { m with stack := v :: m.stack } := by
  have htext := Input.ofText_word_newline (Number.isWord_decimal v)
  have hresolve : m.resolve (Number.decimal v) = .ok (some (.ofLiteral v)) := by
    simp only [Machine.resolve, hfree, CellWidth.literal?_decimal hv hwritable]
    rfl
  have hpush : interpret Machine.performer (Number.decimal v) { m with pending := [.lineEnd] } =
      .ok () { m with stack := v :: m.stack, pending := [.lineEnd] } := by
    have hrun :=
      @interpret_of_word Ext Machine.performer _ { m with pending := [.lineEnd] } _ hresolve
    rw [hrun, Body.run_eq_forM]
    rfl
  calc
    Machine.eval (Number.decimal v ++ "\n") m =
        drain { m with pending := [.word (Number.decimal v), .lineEnd] } := by
      rw [eval_eq_proceed, hp, List.nil_append, htext]
      exact proceed_of_closed hd
    _ = (interpret Machine.performer (Number.decimal v) >>= fun _ => drain)
        { m with pending := [.lineEnd] } := by
      exact @drain_of_some Ext _ { m with pending := [.word (Number.decimal v), .lineEnd] } _ _ hm hd
        rfl
    _ = drain { m with stack := v :: m.stack, pending := [.lineEnd] } := bind_of_ok hpush
    _ = .ok () { m with stack := v :: m.stack } := by
      rw [@drain_of_none Ext _ { m with stack := v :: m.stack, pending := [.lineEnd] } hd rfl, hp]

end Action

/-- With cells of any width, a text is refused exactly if it is a numeral of more digits than can be
read. Otherwise it is a literal exactly if it is a numeral whose value lies between the least and the
greatest number of a cell, and then it stands for that value; anything else is no literal. A number
that fits a cell, and has no more digits than can be written, is printed as some text by the word that
prints, on every machine that has the word as it was built in. Interpreted on a fresh machine, that
text pushes the number and does nothing else. -/
theorem literals_recognised_and_printed [Extension Ext] (width : CellWidth) :
    (∀ token fault, width.literal? token = .error fault ↔
      ∃ n : Number.Numeral, n.SpelledBy token ∧ Number.maxDigits < n.digits.length ∧
        fault = .numeralTooLong n.digits.length) ∧
    (∀ token v, width.literal? token = .ok (some v) ↔
      ∃ n : Number.Numeral, n.SpelledBy token ∧ n.digits.length ≤ Number.maxDigits ∧
        n.decimalValue = v ∧
        -(Nat.pow 2 (width.bits - 1) : Int) ≤ v ∧ v ≤ Nat.pow 2 (width.bits - 1) - 1) ∧
    (∀ token, width.literal? token = .ok none ↔
      ∀ n : Number.Numeral, n.SpelledBy token →
        n.digits.length ≤ Number.maxDigits ∧ ¬ width.Holds n.decimalValue) ∧
    ∀ v, width.Holds v → (Nat.toDigits 10 v.natAbs).length ≤ Number.maxDigits → ∃ text,
      (∀ (m : Machine Ext) (rest : List Int), m.stack = v :: rest →
        m.dictionary.lookup "." = Dictionary.builtin.lookup "." →
        Action.interpret Machine.performer "." m =
          .ok () { m with stack := rest, output := m.output ++ text }) ∧
      Machine.eval text (Machine.fresh width : Machine Ext) =
        .ok () { Machine.fresh width with stack := [v] } := by
  refine ⟨fun _ _ => CellWidth.literal?_eq_error_iff, fun token v => ?_,
    fun _ => CellWidth.literal?_eq_none_iff, fun v hv hdigits => ?_⟩
  · rw [CellWidth.literal?_eq_some_iff, CellWidth.holds_iff]
  · have hwritable := Number.isWritable_iff.2 hdigits
    have hfree : (Machine.fresh width : Machine Ext).dictionary.lookup (Number.decimal v) =
        none := by
      rw [Machine.fresh_dictionary]
      cases hl : (Dictionary.builtin : Dictionary Ext).lookup (Number.decimal v) with
      | none => rfl
      | some w => exact absurd rfl (Number.decimal_ne (Dictionary.ofString?_of_builtin _ w hl) v)
    exact ⟨_, fun m rest hstack hword => Action.interpret_printer hword hstack hwritable,
      Action.eval_printed (Machine.native_fresh width) rfl rfl hfree hv hwritable⟩

/-- A byte is printed as it is read. -/
theorem eval_printed_byte :
    Action.interpret Machine.performer "."
        { (Machine.fresh ⟨8, by decide⟩ : Machine Empty) with stack := [-128, 3] } =
      .ok () { Machine.fresh ⟨8, by decide⟩ with stack := [3], output := "-128\n" } ∧
    Machine.eval "-128\n" (Machine.fresh ⟨8, by decide⟩ : Machine Empty) =
      .ok () { Machine.fresh ⟨8, by decide⟩ with stack := [-128] } := by
  obtain ⟨-, -, -, hprinted⟩ := @literals_recognised_and_printed Empty _ ⟨8, by decide⟩
  obtain ⟨text, hprint, heval⟩ := hprinted (-128) (by decide) (by decide)
  have hprint := hprint { Machine.fresh ⟨8, by decide⟩ with stack := [-128, 3] } [3] rfl rfl
  have houtput := Action.after_of_ok hprint
  obtain rfl : "-128\n" = text := by
    have hwritten : ((Action.interpret Machine.performer ".").after
        { (Machine.fresh ⟨8, by decide⟩ : Machine Empty) with stack := [-128, 3] }).output =
          "-128\n" := by
      decide +kernel
    rw [houtput] at hwritten
    exact hwritten.symm.trans String.empty_append
  exact ⟨hprint, heval⟩

end ThreadedForth
