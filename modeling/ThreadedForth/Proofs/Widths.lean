import ThreadedForth.Proofs.Invariants
import ThreadedForth.Proofs.Persistence

/-!
# Cells of another width

A program that neither divides, nor looks at a number, nor prints one cannot tell how wide the cells
are, as long as its literals fit. Run it with narrow cells and with wide ones: the narrow machine is
at every moment the wide one with all cells wrapped (`Machine.narrowed`), and both stop with the same
fault if any. In other words, narrowing commutes with the interpreter (`Action.Commutes`).

Sums, differences and products may be wrapped before or after (`CellWidth.Congruent`). The words that
can tell the width are reached by their names only; so it is enough that the program never names one
(`Machine.Portable`).
-/

namespace ThreadedForth

variable {Ext α β : Type}

/-! ## Wrapping -/

namespace CellWidth

variable {w w' : CellWidth} {v : Int}

theorem modulus_dvd (h : w.bits ≤ w'.bits) : w.modulus ∣ w'.modulus := by
  rw [modulus, modulus, Nat.one_shiftLeft, Nat.one_shiftLeft]
  exact Nat.pow_dvd_pow 2 h

/-- To wrap into a wider cell first makes no difference. -/
theorem wrap_wrap (h : w.bits ≤ w'.bits) (v : Int) : w.wrap (w'.wrap v) = w.wrap v :=
  Int.bmod_bmod_of_dvd (modulus_dvd h)

/-- What fits a cell fits a wider one. -/
theorem Holds.mono (h : w.Holds v) (hbits : w.bits ≤ w'.bits) : w'.Holds v := by
  obtain ⟨hlow, hhigh⟩ := h
  have hhalf : w.half ≤ w'.half := by
    rw [w'.half_eq_pow]
    exact half_le_pow (Nat.sub_le_sub_right hbits 1)
  rw [least] at hlow
  rw [greatest] at hhigh
  constructor
  · rw [least]
    omega
  · rw [greatest]
    omega

/-- The operands may be wrapped before the result is. -/
def Congruent (op : Int → Int → Int) : Prop :=
  ∀ (w : CellWidth) (a b : Int), w.wrap (op (w.wrap a) (w.wrap b)) = w.wrap (op a b)

theorem congruent_add : Congruent (· + ·) :=
  fun w a b => (Int.add_bmod a b w.modulus).symm

theorem congruent_sub : Congruent (· - ·) :=
  fun w a b => (Int.sub_bmod a b w.modulus).symm

theorem congruent_mul : Congruent (· * ·) :=
  fun w a b => (Int.mul_bmod a b w.modulus).symm

end CellWidth

/-! ## Machines and results -/

/-- The machine with other cells: what is on the stack is wrapped. -/
def Machine.narrowed (w : CellWidth) (m : Machine Ext) : Machine Ext :=
  { m with width := w, stack := m.stack.map w.wrap }

namespace Action

/-- The result with other cells in the machine that is left. -/
def narrowedResult (w : CellWidth) :
    EStateM.Result Fault (Machine Ext) α → EStateM.Result Fault (Machine Ext) α
  | .ok x m => .ok x (m.narrowed w)
  | .error fault m => .error fault (m.narrowed w)

/-- The action does the same with other cells. -/
def Commutes (w : CellWidth) (a : Action Ext α) (m : Machine Ext) : Prop :=
  a (m.narrowed w) = narrowedResult w (a m)

variable {w : CellWidth} {m : Machine Ext}

theorem commutes_of_ok {a : Action Ext α} {x : α} {m' : Machine Ext} (h : a m = .ok x m')
    (hnarrow : a (m.narrowed w) = .ok x (m'.narrowed w)) : Commutes w a m := by
  rw [Commutes, h, hnarrow, narrowedResult]

theorem commutes_of_error {a : Action Ext α} {fault : Fault} {m' : Machine Ext}
    (h : a m = .error fault m') (hnarrow : a (m.narrowed w) = .error fault (m'.narrowed w)) :
    Commutes w a m := by
  rw [Commutes, h, hnarrow, narrowedResult]

/-- An action that does what another one does elsewhere commutes if that one does. -/
theorem Commutes.congr {a b : Action Ext α} {m' : Machine Ext} (hb : Commutes w b m')
    (h : a m = b m') (hnarrow : a (m.narrowed w) = b (m'.narrowed w)) : Commutes w a m := by
  rw [Commutes, h, hnarrow, hb]

theorem Commutes.bind {a : Action Ext α} {f : α → Action Ext β} (ha : Commutes w a m)
    (hf : ∀ x m', a m = .ok x m' → Commutes w (f x) m') : Commutes w (a >>= f) m := by
  cases hr : a m with
  | ok x m' =>
    rw [Commutes, hr] at ha
    exact (hf x m' hr).congr (bind_of_ok hr) (bind_of_ok ha)
  | error fault m' =>
    rw [Commutes, hr] at ha
    exact commutes_of_error (bind_of_error hr) (bind_of_error ha)

theorem Commutes.fault? {a : Action Ext α} (h : Commutes w a m) :
    a.fault? (m.narrowed w) = a.fault? m := by
  cases hr : a m with
  | ok x m' =>
    rw [Commutes, hr] at h
    rw [fault?_of_ok hr, fault?_of_ok h]
  | error fault m' =>
    rw [Commutes, hr] at h
    rw [fault?_of_error hr, fault?_of_error h]

theorem Commutes.after {a : Action Ext α} (h : Commutes w a m) :
    a.after (m.narrowed w) = (a.after m).narrowed w := by
  cases hr : a m with
  | ok x m' =>
    rw [Commutes, hr] at h
    rw [after_of_ok hr, after_of_ok h]
  | error fault m' =>
    rw [Commutes, hr] at h
    rw [after_of_error hr, after_of_error h]

/-! ## Primitives -/

/-- The stack is rearranged in the same way if the rearrangement commutes with wrapping. -/
theorem rearrange_narrowed {word : String} {arity : Nat} {f g : List Int → Option (List Int)}
    (h : g (m.stack.map w.wrap) = (f m.stack).map (List.map w.wrap)) :
    rearrange word arity g (m.narrowed w) = narrowedResult w (rearrange word arity f m) := by
  unfold rearrange
  rw [show (m.narrowed w).stack = m.stack.map w.wrap from rfl, h, List.length_map]
  cases f m.stack with
  | some stack => rfl
  | none => rfl

/-- An operation on two cells commutes if its operands may be wrapped. -/
theorem commutes_binary {word : String} {op : Int → Int → Int} (hop : CellWidth.Congruent op)
    (hbits : w.bits ≤ m.width.bits) : Commutes w (binary word op) m := by
  rw [Commutes, binary, get_bind, get_bind]
  refine rearrange_narrowed ?_
  rcases m.stack with _ | ⟨b, _ | ⟨a, stack⟩⟩
  · rfl
  · rfl
  · show some (w.wrap (op (w.wrap a) (w.wrap b)) :: _) = some (w.wrap (m.width.wrap (op a b)) :: _)
    rw [hop, CellWidth.wrap_wrap hbits]

theorem commutes_pushCell {v : Int} (hv : w.Holds v) : Commutes w (pushCell v) m := by
  have hrun : pushCell v m = .ok () { m with stack := v :: m.stack } := rfl
  refine commutes_of_ok hrun ?_
  rw [Machine.narrowed, Machine.narrowed, List.map_cons, CellWidth.wrap_of_holds hv]
  rfl

end Action

/-- Does the primitive neither divide nor depend on a number that it finds? -/
def Primitive.isPortable : Primitive Ext → Bool
  | .dupNonzero | .print | .printStack | .divide => false
  | _ => true

/-- The leaf does the same with cells of the width as with wider ones. -/
def Leaf.Portable (w : CellWidth) : Leaf Ext → Prop
  | .push v => w.Holds v
  | .primitive p => p.isPortable = true

namespace Action

theorem commutes_step [Extension Ext] (nested : Performer Ext) {p : Primitive Ext}
    (hcontained : p.isContained true = true) (h : p.isPortable = true)
    (hbits : w.bits ≤ m.width.bits) : Commutes w (step nested p) m := by
  cases p with
  | add => exact commutes_binary CellWidth.congruent_add hbits
  | subtract => exact commutes_binary CellWidth.congruent_sub hbits
  | multiply => exact commutes_binary CellWidth.congruent_mul hbits
  | newline | bye => rfl
  | listWords =>
    rw [Commutes]
    show (ofExcept m.dictionary.dump >>= _) _ = narrowedResult w ((ofExcept m.dictionary.dump >>= _) m)
    cases m.dictionary.dump <;> rfl
  | dupNonzero | print | printStack | divide => cases h
  | define | comment | extension => cases hcontained
  | _ =>
    -- the words that rearrange the stack
    unfold step
    refine rearrange_narrowed ?_
    rcases m.stack with _ | ⟨c, _ | ⟨b, _ | ⟨a, stack⟩⟩⟩ <;> rfl

end Action

/-! ## Programs -/

/-- The names of the words that divide or depend on a number that they find. -/
def widthSensitive : List String :=
  ["/", "divide", "?dup", "q_dup", ".", "dot", ".S", "dot_s"]

/-- The token names no word that can tell the width, and fits the width if it is a numeral. -/
structure CellWidth.Admits (w : CellWidth) (token : String) : Prop where
  name : token ∉ widthSensitive
  numeral : ∀ numeral, Number.Numeral.ofString? token = some numeral → w.Holds numeral.value

instance (w : CellWidth) (token : String) : Decidable (w.Admits token) :=
  decidable_of_iff (token ∉ widthSensitive ∧
      ∀ numeral ∈ Number.Numeral.ofString? token, w.Holds numeral.value)
    ⟨fun h => ⟨h.1, h.2⟩, fun h => ⟨h.name, h.numeral⟩⟩

/-- The cells are at least of the width, and nothing that can tell is within reach of the program:
only words with a name of `widthSensitive` may have it in them. -/
structure Machine.Portable (w : CellWidth) (m : Machine Ext) : Prop where
  width : w.bits ≤ m.width.bits
  words : ∀ ⦃name : String⦄ ⦃word : Word Ext⦄, m.dictionary.lookup name = some word →
    name ∉ widthSensitive → ∀ leaf ∈ word.body.leaves, leaf.Portable w
  pending : ∀ t ∈ Input.words m.pending, w.Admits t
  draft : ∀ draft, m.draft = some draft → ∀ t ∈ draft.body, w.Admits t

theorem CellWidth.literal?_of_admits {w w' : CellWidth} {token : String} (h : w.Admits token)
    (hbits : w.bits ≤ w'.bits) : w'.literal? token = w.literal? token := by
  rw [literal?, literal?]
  cases hn : Number.Numeral.ofString? token with
  | none => rfl
  | some numeral =>
    have hv := h.numeral numeral hn
    by_cases hlong : numeral.digits.length ≤ Number.maxDigits
    · simp only [Number.Numeral.read, if_pos hlong, if_pos hv, if_pos (hv.mono hbits)]
    · simp only [Number.Numeral.read, if_neg hlong]

namespace Machine

variable {w : CellWidth} {m : Machine Ext} {token : String} {word : Word Ext}

/-- A token stands for the same word with other cells. -/
theorem resolve_narrowed (hbits : w.bits ≤ m.width.bits) (h : w.Admits token) :
    (m.narrowed w).resolve token = m.resolve token := by
  simp only [resolve, narrowed, CellWidth.literal?_of_admits h hbits]

theorem Portable.of_resolve (hm : m.Portable w) (h : w.Admits token)
    (hr : m.resolve token = .ok (some word)) : ∀ leaf ∈ word.body.leaves, leaf.Portable w := by
  obtain hl | ⟨v, hv, rfl⟩ := resolve_cases hr
  · exact hm.words hl h.name
  · rw [CellWidth.literal?_of_admits h hm.width] at hv
    intro leaf hleaf
    obtain rfl : leaf = .push v := by simpa [Entry.ofLiteral, Body.leaves] using hleaf
    exact CellWidth.holds_of_literal? hv

theorem Portable.mayResume (hm : m.Portable w) {draft : Draft} (hd : m.MayResume draft) :
    ∀ t ∈ draft.body, w.Admits t := by
  rcases hd with hd | rfl
  · exact hm.draft draft hd
  · exact nofun

/-- All that interpreting does keeps a machine portable. -/
theorem persistent_portable (w : CellWidth) :
    Persistent (Portable w : Machine Ext → Prop) where
  effect _ _ _ h := ⟨h.width, h.words, h.pending, h.draft⟩
  take h hrest :=
    ⟨h.width, h.words, fun t ht => h.pending t (Input.words_subset_of_suffix hrest ht), h.draft⟩
  wait h hd _ := by
    refine ⟨h.width, h.words, nofun, ?_⟩
    rintro _ ⟨⟩ t ht
    exact (List.mem_append.1 (Draft.extend_subset _ _ ht)).elim (h.mayResume hd t) (h.pending t)
  close h := ⟨h.width, h.words, h.pending, nofun⟩
  define := by
    intro m draft name body rest words h hm hd hcomplete hc
    refine ⟨h.width, ?_, h.pending, h.draft⟩
    refine Dictionary.forall_lookup_define h.words fun _ leaf hleaf => ?_
    rw [Body.leaves_compiled, List.mem_flatMap] at hleaf
    obtain ⟨c, hmem, hleaf⟩ := hleaf
    obtain ⟨token, htoken, hr, _⟩ := resolve_of_mem_captured hc hmem
    refine h.of_resolve ?_ hr leaf hleaf
    exact (List.mem_append.1 (Draft.complete?_subset hcomplete htoken)).elim
      (h.mayResume hd token) (h.pending token)

/-- The built-in words that can tell the width are known. -/
theorem portable_builtin (w : CellWidth) : ∀ (name : String) (word : Word Ext),
    (Dictionary.builtin : Dictionary Ext).lookup name = some word → name ∉ widthSensitive →
      ∀ leaf ∈ word.body.leaves, leaf.Portable w := by
  have hprimitives : ∀ x ∈ (primitives : List (String × Bool × Primitive Ext)),
      x.1 ∉ widthSensitive → x.2.2.isPortable = true := by
    simp only [primitives, List.forall_mem_cons, Primitive.isPortable, List.not_mem_nil,
      false_implies, implies_true, and_true]
    decide
  have hcopies : ∀ x ∈ copies, x.2 ∈ widthSensitive → x.1 ∈ widthSensitive := by decide
  refine Dictionary.forall_lookup_builtin (fun name immediate p hmem hname => ?_) ?_
  · simpa [Body.leaves, Leaf.Portable] using hprimitives _ hmem hname
  · exact fun new old word hmem hold hnew => hold fun hmem' => hnew (hcopies _ hmem hmem')

theorem narrowed_fresh (w w' : CellWidth) : (fresh w' : Machine Ext).narrowed w = fresh w := by
  simp only [narrowed, fresh, List.map_nil]

theorem portable_fresh {w' : CellWidth} (hbits : w.bits ≤ w'.bits) :
    (fresh w' : Machine Ext).Portable w where
  width := hbits
  words := by
    rw [fresh_dictionary]
    exact portable_builtin w
  pending := nofun
  draft := nofun

end Machine

/-! ## Running -/

namespace Action

variable {w : CellWidth} {m : Machine Ext}

theorem commutes_ofExcept (result : Except Fault α) :
    Commutes w (ofExcept result : Action Ext α) m := by
  cases result with
  | ok x => rfl
  | error fault => rfl

variable [Extension Ext]

/-- Comments are all that runs while a body is compiled, so it is compiled to the same words. -/
theorem commutes_compileWords (hm : m.dictionary.OnlyComments) (hbits : w.bits ≤ m.width.bits)
    {tokens : List String} (htokens : ∀ t ∈ tokens, w.Admits t) :
    Commutes w (compileWords Machine.performer tokens) m := by
  induction tokens generalizing m with
  | nil => rfl
  | cons token rest ih =>
    rw [List.forall_mem_cons] at htokens
    have hnarrow := Machine.resolve_narrowed hbits htokens.1
    rcases hr : m.resolve token with fault | found
    · rw [hr] at hnarrow
      exact commutes_of_error (compileWords_of_error hr) (compileWords_of_error hnarrow)
    rw [hr] at hnarrow
    rcases found with _ | word
    · exact commutes_of_error (compileWords_of_unknown hr) (compileWords_of_unknown hnarrow)
    cases hi : word.immediate with
    | false =>
      refine Commutes.congr ?_ (compileWords_of_captured hr hi) (compileWords_of_captured hnarrow hi)
      exact (ih hm hbits htokens.2).bind fun _ _ _ => rfl
    | true =>
      -- the comment drops a line on both machines; what is left to compile resolves as before
      have hrun := run_comment nestingLimit m
      have hnarrowRun := run_comment nestingLimit (m.narrowed w)
      rw [← Machine.body_of_resolve hm hr hi] at hrun hnarrowRun
      refine Commutes.congr ?_ ((compileWords_of_immediate hr hi).trans (bind_of_ok hrun))
        ((compileWords_of_immediate hnarrow hi).trans (bind_of_ok hnarrowRun))
      exact ih hm hbits htokens.2

theorem commutes_defineWord (hm : m.dictionary.OnlyComments) (hbits : w.bits ≤ m.width.bits)
    (name : String) {tokens : List String} (htokens : ∀ t ∈ tokens, w.Admits t) :
    Commutes w (defineWord Machine.performer name tokens) m := by
  refine (commutes_compileWords hm hbits htokens).bind fun words m₁ _ => ?_
  refine Commutes.bind (by rfl) fun word m₂ _ => ?_
  refine (commutes_ofExcept word.describe).bind fun listing m₃ _ => ?_
  rfl

/-- Narrow cells make no difference to a definition. -/
theorem commutes_resumeDefinition (hp : m.Portable w) (hm : m.dictionary.Native) {draft : Draft}
    (hd : m.MayResume draft) : Commutes w (resumeDefinition Machine.performer draft) m := by
  cases h : draft.complete? m.pending with
  | none =>
    have hnarrow : draft.complete? (m.narrowed w).pending = none := h
    exact commutes_of_ok (resumeDefinition_of_open h) (resumeDefinition_of_open hnarrow)
  | some completion =>
    obtain ⟨name, body, rest⟩ := completion
    have hnarrow : draft.complete? (m.narrowed w).pending = some (name, body, rest) := h
    have hbody : ∀ t ∈ body, w.Admits t := fun t ht =>
      (List.mem_append.1 (Draft.complete?_subset h ht)).elim (hp.mayResume hd t) (hp.pending t)
    have hdefine := @commutes_defineWord Ext w { m with pending := rest, draft := none } _
      hm.onlyComments hp.width name body hbody
    refine Commutes.congr ?_ (resumeDefinition_of_complete h) (resumeDefinition_of_complete hnarrow)
    exact hdefine.bind fun _ _ _ => rfl

theorem commutes_run_leaf (hp : m.Portable w) (hm : m.dictionary.Native) {leaf : Leaf Ext}
    (hplain : leaf.isPlain = true) (hleaf : leaf.Portable w) :
    Commutes w (leaf.run Machine.performer) m := by
  by_cases hd : leaf = .primitive .define
  · subst hd
    have hrun : (Leaf.primitive .define).run Machine.performer m = _ :=
      performer_define hm.onlyComments
    have hnarrow : (Leaf.primitive .define).run Machine.performer (m.narrowed w) = _ :=
      performer_define hm.onlyComments
    exact (commutes_resumeDefinition hp hm (.inr rfl)).congr hrun hnarrow
  · have hcontained := Leaf.isContained_of_isPlain hplain hd
    cases leaf with
    | push v => exact commutes_pushCell hleaf
    | primitive p => exact commutes_step _ hcontained hleaf hp.width

theorem commutes_forM_leaves {leaves : List (Leaf Ext)} (hp : m.Portable w)
    (hm : m.dictionary.Native) (hplain : ∀ leaf ∈ leaves, leaf.isPlain = true)
    (hleaves : ∀ leaf ∈ leaves, leaf.Portable w) :
    Commutes w (leaves.forM (Leaf.run Machine.performer)) m := by
  induction leaves generalizing m with
  | nil => rfl
  | cons leaf rest ih =>
    rw [List.forall_mem_cons] at hplain hleaves
    refine (commutes_run_leaf hp hm hplain.1 hleaves.1).bind fun _ m' hrun => ?_
    have hkeep := (Machine.persistent_portable w).run_leaf hplain.1 m hm
    rw [after_of_ok hrun] at hkeep
    exact ih (hkeep.2 hp) hkeep.1 hplain.2 hleaves.2

theorem commutes_interpret (hp : m.Portable w) (hm : m.dictionary.Native) {token : String}
    (htoken : w.Admits token) : Commutes w (interpret Machine.performer token) m := by
  have hnarrow := Machine.resolve_narrowed hp.width htoken
  rcases hr : m.resolve token with fault | found
  · rw [hr] at hnarrow
    exact commutes_of_error (interpret_of_error hr) (interpret_of_error hnarrow)
  rw [hr] at hnarrow
  rcases found with _ | word
  · exact commutes_of_error (interpret_of_unknown hr) (interpret_of_unknown hnarrow)
  refine Commutes.congr ?_ (interpret_of_word hr) (interpret_of_word hnarrow)
  cases hi : word.immediate with
  | true =>
    rw [Machine.body_of_resolve hm.onlyComments hr hi]
    exact commutes_of_ok (run_comment nestingLimit m) (run_comment nestingLimit _)
  | false =>
    rw [Body.run_eq_forM]
    exact commutes_forM_leaves hp hm (Machine.plain_of_resolve hm hr hi) (hp.of_resolve htoken hr)

theorem commutes_drain (hp : m.Portable w) (hm : m.dictionary.Native) :
    Commutes w (drain : Action Ext Unit) m := by
  -- a word takes itself off at least, so what is pending gets shorter
  induction hlen : m.pending.length using Nat.strongRecOn generalizing m with
  | _ n ih =>
    cases hd : m.draft with
    | some draft =>
      have hnarrow : (m.narrowed w).draft = some draft := hd
      exact commutes_of_ok (drain_of_open hd) (drain_of_open hnarrow)
    | none =>
      have hdn : (m.narrowed w).draft = none := hd
      cases hr : Input.readWord? m.pending with
      | none =>
        have hrn : Input.readWord? (m.narrowed w).pending = none := hr
        exact commutes_of_ok (drain_of_none hd hr) (drain_of_none hdn hrn)
      | some read =>
        obtain ⟨token, rest⟩ := read
        have hrn : Input.readWord? (m.narrowed w).pending = some (token, rest) := hr
        have hrest := (List.suffix_cons _ _).trans (Input.suffix_of_readWord? hr)
        have hread := (Machine.persistent_portable w).take hp hrest
        have htoken := hp.pending token (Input.mem_words_of_readWord? hr)
        refine Commutes.congr ?_ (drain_of_some hm hd hr) (drain_of_some hm hdn hrn)
        refine Commutes.bind (commutes_interpret hread hm htoken) fun _ m' hrun => ?_
        have hkeep := (Machine.persistent_portable w).interpret token { m with pending := rest } hm
        have hevo := evolving_interpret token { m with pending := rest } hm
        rw [after_of_ok hrun] at hkeep hevo
        have hshorter := Input.length_of_readWord? hr
        have hle : m'.pending.length ≤ rest.length := hevo.pending.length_le
        exact ih m'.pending.length (by omega) (hkeep.2 hread) hkeep.1 rfl

theorem commutes_proceed (hp : m.Portable w) (hm : m.dictionary.Native) :
    Commutes w (proceed : Action Ext Unit) m := by
  cases hd : m.draft with
  | none =>
    have hnarrow : (m.narrowed w).draft = none := hd
    exact (commutes_drain hp hm).congr (proceed_of_closed hd) (proceed_of_closed hnarrow)
  | some draft =>
    have hnarrow : (m.narrowed w).draft = some draft := hd
    refine Commutes.congr ?_ (proceed_of_open hd) (proceed_of_open hnarrow)
    refine (commutes_resumeDefinition hp hm (.inl hd)).bind fun _ m' hrun => ?_
    have hnative := (evolving_resumeDefinition draft m hm).native
    have hkeep := (Machine.persistent_portable w).resumeDefinition hm (.inl hd) hp
    rw [after_of_ok hrun] at hnative hkeep
    exact commutes_drain hkeep hnative

/-- Narrow cells make no difference to a text that cannot tell the width. -/
theorem commutes_eval (hp : m.Portable w) (hm : m.dictionary.Native) {text : String}
    (htext : ∀ t ∈ Input.words (Input.ofText text), w.Admits t) :
    Commutes w (Machine.eval text) m := by
  have hqueued : { m with pending := m.pending ++ Input.ofText text }.Portable w := by
    refine ⟨hp.width, hp.words, fun t ht => ?_, hp.draft⟩
    rw [Input.words_append] at ht
    exact (List.mem_append.1 ht).elim (hp.pending t) (htext t)
  exact Commutes.congr (commutes_proceed hqueued hm) (eval_eq_proceed text m)
    (eval_eq_proceed text (m.narrowed w))

end Action

/-- Take a text without a word that divides or that depends on a number, and with numerals that all
fit a narrow cell. Interpret it on two fresh machines, one with narrow cells and one with wide ones.
Both return, or both stop with the same fault. They are left with the same dictionary, output,
pending input and open definition, and the stack of the narrow machine is that of the wide one with
each number wrapped. -/
theorem eval_narrow_eq_wrap_eval_wide [Extension Ext] {w w' : CellWidth} (hbits : w.bits ≤ w'.bits)
    {text : String}
    (htext : ∀ t ∈ Input.words (Input.ofText text), w.Admits t)
    {narrow wide : Machine Ext} (hnarrow : narrow = (Machine.eval text).after (Machine.fresh w))
    (hwide : wide = (Machine.eval text).after (Machine.fresh w')) :
    (Machine.eval text).fault? (Machine.fresh w : Machine Ext) =
      (Machine.eval text).fault? (Machine.fresh w' : Machine Ext) ∧
    narrow.dictionary = wide.dictionary ∧ narrow.output = wide.output ∧
    narrow.pending = wide.pending ∧ narrow.draft = wide.draft ∧
    narrow.stack = wide.stack.map w.wrap := by
  have hcommutes := @Action.commutes_eval Ext w (Machine.fresh w') _
    (Machine.portable_fresh hbits) (Machine.native_fresh w') text htext
  rw [← Machine.narrowed_fresh w w', hcommutes.after, ← hwide] at hnarrow
  rw [← Machine.narrowed_fresh w w', hcommutes.fault?, hnarrow]
  exact ⟨rfl, rfl, rfl, rfl, rfl, rfl⟩

/-- A text with a definition and a comment, whose numbers fit eight bits while the square of one of
them does not. It stops at an unknown word. -/
def hundredSquared : String :=
  ": square dup * ; 100 square \\ of a hundred\n7 - frob 1"

/-- With cells of eight bits it comes to the wrapped number, and stops at the same place. -/
theorem eval_hundredSquared_narrow :
    ((Machine.eval hundredSquared).after (Machine.fresh .standard : Machine Empty)).stack = [9993] ∧
      ((Machine.eval hundredSquared).after (Machine.fresh eightBits : Machine Empty)).stack = [9] ∧
      (Machine.eval hundredSquared).fault? (Machine.fresh eightBits : Machine Empty) =
        some (.unknownWord "frob") := by
  have hbits : eightBits.bits ≤ CellWidth.standard.bits := by decide
  have htext : ∀ t ∈ Input.words (Input.ofText hundredSquared), eightBits.Admits t := by
    decide +kernel
  have hwide : ((Machine.eval hundredSquared).after
      (Machine.fresh .standard : Machine Empty)).stack = [9993] := by
    decide +kernel
  have hfault : (Machine.eval hundredSquared).fault? (Machine.fresh .standard : Machine Empty) =
      some (.unknownWord "frob") := by
    decide +kernel
  obtain ⟨hsame, _, _, _, _, hstack⟩ :=
    @eval_narrow_eq_wrap_eval_wide Empty _ eightBits .standard hbits hundredSquared htext _ _ rfl rfl
  refine ⟨hwide, ?_, hsame.trans hfault⟩
  rw [hstack, hwide]
  decide

end ThreadedForth
