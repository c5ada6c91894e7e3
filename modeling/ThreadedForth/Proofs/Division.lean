import ThreadedForth.Proofs.Wrapping

/-!
# Division toward zero

The quotient of two cells is rounded toward zero: what is left over is less than the divisor and has
the sign of the dividend (`Number.Truncates`), and no other quotient is like that
(`Number.Truncates.quotient_unique`). It is the quotient of the magnitudes with the sign that belongs
to it (`Number.tdiv_eq_signedQuotient`).

Of two cells, only the least number and minus one have a quotient that does not fit. It is wrapped to
the least number again (`CellWidth.wrap_quotient_least`); so there, as everywhere, the quotient and what
is left over make up the dividend, as far as a cell can tell (`CellWidth.wrap_recomposed`).
-/

namespace ThreadedForth

variable {Ext : Type}

/-! ## Quotients -/

namespace Number

/-- `q` is the quotient of `a` and `b`, rounded toward zero, and `r` is what is left over. -/
structure Truncates (a b q r : Int) : Prop where
  recomposed : a = q * b + r
  small : r.natAbs < b.natAbs
  sign : r = 0 ∨ r.sign = a.sign

/-- The quotient of the magnitudes, negative if just one of the numbers is. -/
def signedQuotient (a b : Int) : Int :=
  let quotient : Int := (a.natAbs / b.natAbs : Nat)
  if a < 0 ↔ b < 0 then quotient else -quotient

variable {a b q r q' r' : Int}

/-- Division toward zero is division of the magnitudes, and a rule of signs. -/
theorem tdiv_eq_signedQuotient (a b : Int) : a.tdiv b = signedQuotient a b := by
  cases a with
  | ofNat m =>
    have hm : ¬ Int.ofNat m < 0 := Int.not_lt.2 (Int.natCast_nonneg m)
    cases b with
    | ofNat n =>
      have hn : ¬ Int.ofNat n < 0 := Int.not_lt.2 (Int.natCast_nonneg n)
      rw [signedQuotient, if_pos (iff_of_false hm hn)]
      rfl
    | negSucc n =>
      rw [signedQuotient, if_neg fun h => hm (h.2 (Int.negSucc_lt_zero n))]
      rfl
  | negSucc m =>
    have hm : Int.negSucc m < 0 := Int.negSucc_lt_zero m
    cases b with
    | ofNat n =>
      have hn : ¬ Int.ofNat n < 0 := Int.not_lt.2 (Int.natCast_nonneg n)
      rw [signedQuotient, if_neg fun h => hn (h.1 hm)]
      rfl
    | negSucc n =>
      rw [signedQuotient, if_pos (iff_of_true hm (Int.negSucc_lt_zero n))]
      rfl

theorem truncates_signedQuotient (a : Int) (hb : b ≠ 0) :
    Truncates a b (signedQuotient a b) (a - signedQuotient a b * b) := by
  have hrest : a - signedQuotient a b * b = a.tmod b := by
    rw [← tdiv_eq_signedQuotient, Int.tmod_def, Int.mul_comm]
  constructor
  · exact (add_sub_cancel _ _).symm
  · rw [hrest, Int.natAbs_tmod]
    exact Nat.mod_lt _ (Int.natAbs_pos.2 hb)
  · rw [hrest, Int.sign_tmod]
    by_cases hdvd : b ∣ a
    · exact .inl (Int.tmod_eq_zero_of_dvd hdvd)
    · exact .inr (if_neg hdvd)

namespace Truncates

theorem nonneg (h : Truncates a b q r) (ha : 0 ≤ a) : 0 ≤ r := by
  obtain rfl | hsign := h.sign
  · exact Int.le_refl 0
  · rwa [← Int.sign_nonneg_iff, hsign, Int.sign_nonneg_iff]

theorem nonpos (h : Truncates a b q r) (ha : a ≤ 0) : r ≤ 0 := by
  obtain rfl | hsign := h.sign
  · exact Int.le_refl 0
  · rwa [← Int.sign_nonpos_iff, hsign, Int.sign_nonpos_iff]

/-- There is one way only to round toward zero. -/
theorem quotient_unique (h : Truncates a b q r) (h' : Truncates a b q' r') : q' = q := by
  have hdiff : r - r' = (q' - q) * b := by
    rw [Int.sub_mul]
    have := h.recomposed
    have := h'.recomposed
    omega
  -- two remainders of one sign differ by less than the divisor
  have hsmall : (r - r').natAbs < b.natAbs := by
    have := h.small
    have := h'.small
    obtain ha | ha := Int.le_total 0 a
    · have := h.nonneg ha
      have := h'.nonneg ha
      omega
    · have := h.nonpos ha
      have := h'.nonpos ha
      omega
  have hzero : r - r' = 0 :=
    Int.eq_zero_of_dvd_of_natAbs_lt_natAbs (hdiff ▸ Int.dvd_mul_left _ _) hsmall
  rw [hzero, eq_comm, Int.mul_eq_zero] at hdiff
  have := h.small
  omega

end Truncates

end Number

/-! ## Quotients of cells -/

namespace CellWidth

variable {w : CellWidth} {a b q r : Int}

theorem holds_signedQuotient (ha : w.Holds a) (hb : b ≠ 0) (hfits : ¬ (a = w.least ∧ b = -1)) :
    w.Holds (Number.signedQuotient a b) := by
  rw [← Number.tdiv_eq_signedQuotient]
  have hpos := w.half_pos
  have hmagnitude : (a.tdiv b).natAbs = a.natAbs / b.natAbs := Int.natAbs_tdiv a b
  obtain ⟨hlow, hhigh⟩ := ha
  rw [Holds]
  rw [least] at *
  rw [greatest] at *
  by_cases hone : b.natAbs = 1
  · obtain rfl | rfl : b = 1 ∨ b = -1 := by omega
    · rw [Int.tdiv_one]
      omega
    · rw [Int.tdiv_neg, Int.tdiv_one]
      omega
  · -- a divisor of two or more halves the magnitude at least
    have hhalved : a.natAbs / b.natAbs ≤ a.natAbs / 2 :=
      Nat.div_le_div_left (by omega) (by decide)
    omega

/-- The one quotient that does not fit. -/
theorem wrap_quotient_least (w : CellWidth) :
    w.wrap (Number.signedQuotient w.least (-1)) = w.least := by
  have hmodulus := w.modulus_eq_two_mul_half
  have hpos := w.half_pos
  have hshift : -w.least = w.least + w.modulus := by
    rw [least]
    omega
  rw [← Number.tdiv_eq_signedQuotient, Int.tdiv_neg, Int.tdiv_one, eq_comm, eq_wrap_iff, hshift,
    Int.add_emod_right, Holds, greatest]
  refine ⟨⟨Int.le_refl _, ?_⟩, rfl⟩
  rw [least]
  omega

/-- Whether the quotient has been wrapped makes no difference to the dividend that it makes up. -/
theorem wrap_recomposed (ha : w.Holds a) (h : a = q * b + r) : w.wrap (w.wrap q * b + r) = a := by
  calc
    w.wrap (w.wrap q * b + r) = w.wrap (q * b + r) := by
      rw [wrap, wrap, wrap, ← Int.bmod_add_bmod, Int.bmod_mul_bmod, Int.bmod_add_bmod]
    _ = w.wrap a := by rw [h]
    _ = a := wrap_of_holds ha

end CellWidth

/-! ## The word -/

/-- The words for a quotient. -/
def dividers : List String := ["/", "divide"]

theorem Dictionary.lookup_divider {token : String} (h : token ∈ dividers) :
    (builtin : Dictionary Ext).lookup token = some ⟨some token, false, .primitive .divide⟩ := by
  revert token
  simp only [dividers, List.forall_mem_cons]
  exact ⟨by cbv, by cbv, nofun⟩

namespace Action

variable {m : Machine Ext} {a b : Int} {rest : List Int}

theorem interpret_divider [Extension Ext] {token : String} (htoken : token ∈ dividers)
    (hword : m.dictionary.lookup token = Dictionary.builtin.lookup token) :
    interpret Machine.performer token m = divide m :=
  interpret_of_primitive (hword.trans (Dictionary.lookup_divider htoken))

/-- The quotient of the two cells on top of the stack takes their place. -/
theorem divide_of_cons (hstack : m.stack = b :: a :: rest) (hb : b ≠ 0) :
    divide m = .ok () { m with stack := m.width.wrap (Number.signedQuotient a b) :: rest } := by
  rw [divide_of_not_zero (by simp [hstack, hb]), binary_of_cons hstack,
    Number.tdiv_eq_signedQuotient]

end Action

/-- Let a machine of any width have two cells on top of its stack, `b` above `a`, and let a word for a
quotient be as it was built in. If `b` is zero, the word stops with a division by zero and leaves the
machine as it is. Otherwise it puts one cell in the place of both. That is the quotient rounded toward
zero: what is left over is less than `b` and, unless it is zero, has the sign of `a`, and no other
quotient is like that. Only if `a` is the least number of the cell and `b` is minus one, the cell holds
the least number instead. In all cases the cell and what is left over make up `a` again, wrapped. -/
theorem divide_toward_zero [Extension Ext] {m : Machine Ext} {token : String}
    (htoken : token ∈ dividers)
    (hword : m.dictionary.lookup token = Dictionary.builtin.lookup token) {a b : Int}
    {rest : List Int} (hstack : m.stack = b :: a :: rest) (ha : m.width.Holds a) :
    (b = 0 → Action.interpret Machine.performer token m = .error .divisionByZero m) ∧
    (b ≠ 0 → ∃ q r, Action.interpret Machine.performer token m =
        .ok () { m with stack := q :: rest } ∧ m.width.Holds q ∧
      r = a - Number.signedQuotient a b * b ∧
      (¬ (a = m.width.least ∧ b = -1) →
        Number.Truncates a b q r ∧ ∀ q' r', Number.Truncates a b q' r' → q' = q) ∧
      (a = m.width.least ∧ b = -1 → q = m.width.least) ∧ m.width.wrap (q * b + r) = a) := by
  rw [Action.interpret_divider htoken hword]
  constructor
  · rintro rfl
    exact Action.divide_of_zero hstack
  · intro hb
    have htruncates := Number.truncates_signedQuotient a hb
    refine ⟨_, _, Action.divide_of_cons hstack hb, m.width.holds_wrap _, rfl, fun hfits => ?_, ?_,
      CellWidth.wrap_recomposed ha htruncates.recomposed⟩
    · rw [CellWidth.wrap_of_holds (CellWidth.holds_signedQuotient ha hb hfits)]
      exact ⟨htruncates, fun q' r' => htruncates.quotient_unique⟩
    · rintro ⟨rfl, rfl⟩
      exact m.width.wrap_quotient_least

/-- In a byte, minus seven by two is minus three; and minus 128 by minus one is minus 128 again, which
makes up itself with nothing left over. -/
theorem divide_bytes_toward_zero :
    Action.interpret Machine.performer "/"
        { (Machine.fresh ⟨8, by decide⟩ : Machine Empty) with stack := [2, -7, 5] } =
      .ok () { Machine.fresh ⟨8, by decide⟩ with stack := [-3, 5] } ∧
    Action.interpret Machine.performer "divide"
        { (Machine.fresh ⟨8, by decide⟩ : Machine Empty) with stack := [-1, -128] } =
      .ok () { Machine.fresh ⟨8, by decide⟩ with stack := [-128] } := by
  constructor
  · obtain ⟨q, r, hrun, -, rfl, hfits, -⟩ := (@divide_toward_zero Empty _
      { Machine.fresh ⟨8, by decide⟩ with stack := [2, -7, 5] } "/" (by decide) rfl (-7) 2 [5] rfl
      (by decide)).2 (by decide)
    obtain rfl : -3 = q := (hfits (by decide)).2 (-3) (-1) ⟨by decide, by decide, by decide⟩
    exact hrun
  · obtain ⟨q, r, hrun, -, -, -, hleast, -⟩ := (@divide_toward_zero Empty _
      { Machine.fresh ⟨8, by decide⟩ with stack := [-1, -128] } "divide" (by decide) rfl (-128) (-1)
      [] rfl (by decide)).2 (by decide)
    obtain rfl : q = -128 := hleast (by decide)
    exact hrun

end ThreadedForth
