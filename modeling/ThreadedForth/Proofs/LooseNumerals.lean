import ThreadedForth.Proofs.Invariants
import ThreadedForth.Proofs.Numerals

/-!
# Texts that are handed over

A text from outside may spell a number more freely than a program does. What a program can spell,
though, is worth the same from outside, with blanks around it or without
(`Number.Loose.read_of_spelledBy`): a literal that is handed over as a text pushes the cell that it
pushes in a program (`Action.push_literal`), and what has been printed may be handed over again
(`Action.push_printed`). No text pushes a cell that is too long to be written
(`Action.push_text`).
-/

namespace ThreadedForth

variable {Ext : Type}

/-! ## Reading loosely -/

namespace Number.Loose

variable {front back rest digits signs unsigned : List Char} {values : List Nat} {text : String}
  {v : Int}

/-- Blanks in front of a word are dropped, and nothing else. -/
theorem dropWhile_of_isWord {token : String} (h : Text.IsWord token)
    (hfront : ∀ c ∈ front, Text.isNumeralBlank c = true) (rest : List Char) :
    (front ++ token.toList ++ rest).dropWhile Text.isNumeralBlank = token.toList ++ rest := by
  rw [List.append_assoc, List.dropWhile_append_of_pos hfront]
  cases hcs : token.toList with
  | nil => exact absurd (String.toList_eq_nil_iff.1 hcs) h.1
  | cons c cs =>
    refine List.dropWhile_cons_of_neg fun hblank => ?_
    have hword := h.2 c (hcs ▸ List.mem_cons_self)
    rw [Text.isBlank_of_isNumeralBlank hblank] at hword
    cases hword

theorem ne_of_isDigit {c other : Char} (hc : c.isDigit = true) (hother : other.isDigit = false) :
    c ≠ other := by
  rintro rfl
  rw [hc] at hother
  cases hother

/-- The sign of a numeral is found in front of its digits. -/
theorem sign_append {negative : Bool} (hsign : signs ∈ Numeral.signs negative) (hne : digits ≠ [])
    (hdigits : ∀ c ∈ digits, c.isDigit = true) (rest : List Char) :
    sign (signs ++ digits ++ rest) = (negative, digits ++ rest) := by
  obtain ⟨rfl, rfl⟩ | ⟨rfl, rfl | rfl⟩ := Numeral.mem_signs_cases hsign
  · rfl
  · cases digits with
    | nil => exact absurd rfl hne
    | cons c digits =>
      -- the first digit is no sign
      have hc := hdigits c List.mem_cons_self
      have hplus : c ≠ '+' := ne_of_isDigit hc (by decide)
      have hminus : c ≠ '-' := ne_of_isDigit hc (by decide)
      simp [sign, hplus, hminus]
  · rfl

/-- Behind a number, blanks end it. -/
theorem span_of_blanks (h : ∀ c ∈ back, Text.isNumeralBlank c = true) : span back = ([], back) := by
  cases back with
  | nil => rfl
  | cons c cs =>
    have hc := Text.isBlank_of_isNumeralBlank (h c List.mem_cons_self)
    have hmark : c ≠ '_' := by
      rintro rfl
      exact absurd hc (by decide)
    simp [span, hmark, Text.digitValue?_of_isBlank hc]

/-- ASCII digits are taken, up to where the number ends. -/
theorem span_append (h : ∀ c ∈ digits, c.isDigit = true) (hrest : span rest = ([], rest)) :
    span (digits ++ rest) = ((digitValues digits).map some, rest) := by
  induction digits with
  | nil => exact hrest
  | cons c digits ih =>
    rw [List.forall_mem_cons] at h
    have hmark : c ≠ '_' := ne_of_isDigit h.1 (by decide)
    simp [span, ih h.2, hmark, Text.digitValue?_of_isDigit h.1, digitValues]

theorem isWellSpaced_map_some (h : values ≠ []) : isWellSpaced (values.map some) = true := by
  induction values with
  | nil => exact absurd rfl h
  | cons d values ih =>
    cases values with
    | nil => rfl
    | cons e values => exact ih (List.cons_ne_nil e values)

/-- Digits without underscores, and with blanks at most behind them, are read as their value. -/
theorem read_of_values {negative : Bool}
    (hsign : sign (text.toList.dropWhile Text.isNumeralBlank) = (negative, unsigned))
    (hspan : span unsigned = (values.map some, back)) (hne : values ≠ [])
    (hback : ∀ c ∈ back, Text.isNumeralBlank c = true) :
    read text =
      if values.length ≤ maxDigits then
        let magnitude : Nat := values.foldl (fun n d => 10 * n + d) 0
        .ok (if negative then -(magnitude : Int) else magnitude)
      else .error (.numeralTooLong values.length) := by
  have hvalues : (values.map some).filterMap id = values := by simp
  simp only [read, hsign, hspan, hvalues, isWellSpaced_map_some hne, List.all_eq_true.2 hback]
  by_cases hlen : values.length ≤ maxDigits
  · simp [hlen, Nat.not_lt.2 hlen]
  · simp [hlen, Nat.not_le.1 hlen]

/-- A numeral of a program, with blanks around it, is read from outside as it is in the program. -/
theorem read_of_spelledBy {n : Numeral} {token : String} (h : n.SpelledBy token)
    (hfront : ∀ c ∈ front, Text.isNumeralBlank c = true)
    (hback : ∀ c ∈ back, Text.isNumeralBlank c = true) :
    read (String.ofList (front ++ token.toList ++ back)) = n.read := by
  obtain ⟨signs, hsign, htoken⟩ := h.signed
  have hdigits : ∀ c ∈ n.digits, c.isDigit = true := fun c hc =>
    Numeral.isDigit_iff.2 (h.ascii c hc)
  have hunsigned : sign ((String.ofList (front ++ token.toList ++ back)).toList.dropWhile
      Text.isNumeralBlank) = (n.negative, n.digits ++ back) := by
    rw [String.toList_ofList, dropWhile_of_isWord h.isWord hfront, htoken]
    exact sign_append hsign h.digits_ne_nil hdigits back
  have hne : digitValues n.digits ≠ [] := by
    simpa [digitValues] using h.digits_ne_nil
  rw [read_of_values hunsigned (span_append hdigits (span_of_blanks hback)) hne hback,
    ← ofDigitChars_eq_foldl, digitValues, List.length_map]
  rfl

/-- A digit of any script stands for a number below ten. -/
theorem lt_of_mem_span {cs : List Char} {d : Nat} (h : some d ∈ (span cs).1) : d < 10 := by
  induction cs with
  | nil => cases h
  | cons c cs ih =>
    simp only [span] at h
    split at h
    · exact ih (by simpa using h)
    · split at h
      · next e he =>
        obtain heq | hmem := List.mem_cons.1 h
        · cases heq
          exact Text.digitValue?_lt he
        · exact ih hmem
      · cases h

/-- What is read is the value of digits, not too many of them. -/
theorem values_of_read (h : read text = .ok v) : ∃ values : List Nat, (∀ d ∈ values, d < 10) ∧
    values.length ≤ maxDigits ∧ v.natAbs = values.foldl (fun n d => 10 * n + d) 0 := by
  simp only [read] at h
  split at h
  · cases h
  split at h
  · cases h
  next hlen =>
  split at h
  · cases h
  cases h
  refine ⟨_, fun d hd => ?_, Nat.not_lt.1 hlen, ?_⟩
  · obtain ⟨mark, hmark, heq⟩ := List.mem_filterMap.1 hd
    cases heq
    exact lt_of_mem_span hmark
  · split
    · exact Int.natAbs_neg _
    · rfl

/-- So it can be written. -/
theorem isWritable_of_read (h : read text = .ok v) : isWritable v = true := by
  obtain ⟨values, hvalues, hlen, habs⟩ := values_of_read h
  rw [isWritable, decide_eq_true_eq, habs]
  exact foldl_digits_lt_pow hvalues hlen

end Number.Loose

/-! ## Pushing texts -/

namespace Action

variable {m : Machine Ext}

/-- A text pushes one cell, and one that can be written; or it is refused, and nothing is pushed. -/
theorem push_text (m : Machine Ext) (text : String) :
    (∃ v, push [.text text] m = .ok () { m with stack := v :: m.stack } ∧ m.width.Holds v ∧
      Number.isWritable v = true) ∨
    ∃ fault, push [.text text] m = .error fault m := by
  cases hv : Number.Datum.toInt (.text text) with
  | error fault => exact .inr ⟨fault, push_of_error hv []⟩
  | ok v =>
    have hwritable : Number.isWritable v = true := Number.Loose.isWritable_of_read hv
    exact .inl ⟨_, push_of_ok hv [], m.width.holds_wrap v, CellWidth.isWritable_wrap hwritable⟩

/-- Digits of any script are taken, with underscores between them, and the value is wrapped; an
underscore at the end is not. -/
example :
    ((push [.text "\t٣_0 ", .text "-200", .text "7_"]).after
      (Machine.fresh ⟨8, by decide⟩ : Machine Empty)).stack = [56, 30] := by
  decide +kernel

/-- A literal of a program, handed over as a text with blanks around it, pushes the same cell. -/
theorem push_literal {token : String} {v : Int} (h : m.width.literal? token = .ok (some v))
    {front back : List Char} (hfront : ∀ c ∈ front, Text.isNumeralBlank c = true)
    (hback : ∀ c ∈ back, Text.isNumeralBlank c = true) :
    push [.text (String.ofList (front ++ token.toList ++ back))] m =
      .ok () { m with stack := v :: m.stack } := by
  obtain ⟨n, hn, hlen, rfl, hv⟩ := CellWidth.literal?_eq_some_iff.1 h
  have hread : Number.Datum.toInt (.text (String.ofList (front ++ token.toList ++ back))) =
      .ok n.decimalValue := by
    rw [Number.Datum.toInt, Number.Loose.read_of_spelledBy hn hfront hback, Number.Numeral.read,
      if_pos hlen, n.value_eq_decimalValue]
  rw [push_of_ok hread, CellWidth.wrap_of_holds hv]
  rfl

/-- What is printed for a number, with the end of its line, pushes the number again. -/
theorem push_printed {v : Int} (hv : m.width.Holds v) (hwritable : Number.isWritable v = true) :
    push [.text (Number.decimal v ++ "\n")] m = .ok () { m with stack := v :: m.stack } := by
  have hpush := @push_literal Ext m _ v (CellWidth.literal?_decimal hv hwritable) [] ['\n']
    (List.forall_mem_nil _) (List.forall_mem_singleton.2 (by decide))
  rw [List.nil_append, String.ofList_append, String.ofList_toList] at hpush
  exact hpush

end Action

end ThreadedForth
