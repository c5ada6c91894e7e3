import ThreadedForth.Proofs.Inlining
import ThreadedForth.Proofs.Invariants
import ThreadedForth.Proofs.Persistence

/-!
# A listing is a definition

The listing of a compiled word is a text that defines it. Where every captured word is still what its
name stands for, and no name hides a captured number, interpreting the listing changes nothing
(`eval_listing`).

A listing forgets how a number was spelled, and it is cut into lines and words again. So the argument
needs to know what names there can be: none has blanks in it, and none that stands in a thread is a
semicolon (`Machine.Legible`). Both come from the words of the texts, and are kept by all that
interpreting does.
-/

namespace ThreadedForth

variable {Ext : Type}

/-! ## What can stand in a definition -/

/-- A number, or a word under a name that can stand in the body of a definition. -/
inductive Entry.Citable : Word Ext → Prop
  | literal (v : Int) : Citable (Entry.ofLiteral v)
  | named {name : String} {body : Body Ext} : Text.IsWord name → name ≠ ";" →
      (∀ v, body ≠ .literal v) → Citable ⟨some name, false, body⟩

/-- The name and the words that have been collected can be typed in. -/
structure Draft.Legible (draft : Draft) : Prop where
  name : ∀ name, draft.name? = some name → Text.IsWord name
  body : ∀ t ∈ draft.body, Text.IsWord t ∧ t ≠ ";"

/-- All names can be typed in, and so can all threads. -/
structure Machine.Legible (m : Machine Ext) : Prop where
  names : ∀ ⦃name : String⦄ ⦃w : Word Ext⦄, m.dictionary.lookup name = some w → Text.IsWord name
  threads : ∀ ⦃name : String⦄ ⦃w : Word Ext⦄, m.dictionary.lookup name = some w →
    ∀ words, w.body = .compiled words → ∀ c ∈ words, c.Citable
  pending : ∀ t ∈ Input.words m.pending, Text.IsWord t
  draft : ∀ draft, m.draft = some draft → draft.Legible

namespace Draft

variable {draft : Draft} {q rest : Input} {name n : String} {body b : List String}

theorem legible_unnamed : Draft.unnamed.Legible :=
  ⟨nofun, nofun⟩

theorem legible_takeBody (h : (named name body).Legible) (hq : ∀ t ∈ Input.words q, Text.IsWord t) :
    (named name (body ++ (Input.takeBody q).1)).Legible where
  name := h.name
  body := by
    intro t ht
    rcases List.mem_append.1 ht with ht | ht
    · exact h.body t ht
    · refine ⟨hq t (Input.takeBody_subset q ht), ?_⟩
      rintro rfl
      exact Input.not_mem_takeBody q ht

/-- A name that is read opens the body. -/
theorem legible_readWord? {read : String × Input} (hq : ∀ t ∈ Input.words q, Text.IsWord t)
    (h : Input.readWord? q = some read) :
    (named read.1 []).Legible ∧ ∀ t ∈ Input.words read.2, Text.IsWord t := by
  refine ⟨⟨?_, nofun⟩, fun t ht => hq t (Input.words_subset_of_readWord? h ht)⟩
  rintro _ ⟨⟩
  exact hq read.1 (Input.mem_words_of_readWord? h)

theorem Legible.extend (h : draft.Legible) (hq : ∀ t ∈ Input.words q, Text.IsWord t) :
    (draft.extend q).Legible := by
  cases draft with
  | named name body => exact legible_takeBody h hq
  | unnamed =>
    rw [Draft.extend]
    cases hr : Input.readWord? q with
    | none => exact legible_unnamed
    | some read =>
      obtain ⟨hname, hrest⟩ := legible_readWord? hq hr
      exact legible_takeBody hname hrest

theorem legible_of_completeNamed? (h : (named name body).Legible)
    (hq : ∀ t ∈ Input.words q, Text.IsWord t)
    (hcomplete : completeNamed? name body q = some (n, b, rest)) : (named n b).Legible := by
  have hbody := legible_takeBody h hq
  rw [completeNamed?] at hcomplete
  generalize Input.takeBody q = taken at hcomplete hbody
  rcases taken with ⟨more, _ | after⟩
  · cases hcomplete
  · cases hcomplete
    exact hbody

/-- A complete definition can be typed in. -/
theorem legible_of_complete? (h : draft.Legible) (hq : ∀ t ∈ Input.words q, Text.IsWord t)
    (hcomplete : draft.complete? q = some (n, b, rest)) : (named n b).Legible := by
  cases draft with
  | named name body => exact legible_of_completeNamed? h hq hcomplete
  | unnamed =>
    rw [complete?] at hcomplete
    cases hr : Input.readWord? q with
    | none => simp [hr] at hcomplete
    | some read =>
      rw [hr] at hcomplete
      obtain ⟨hname, hrest⟩ := legible_readWord? hq hr
      exact legible_of_completeNamed? hname hrest hcomplete

end Draft

namespace Machine

/-- What a token resolves to can stand in a definition, unless it is immediate. -/
theorem citable_of_resolve {m : Machine Ext} (hm : m.dictionary.Native) {token : String}
    (htoken : Text.IsWord token ∧ token ≠ ";") {w : Word Ext} (h : m.resolve token = .ok (some w))
    (hw : w.immediate = false) : w.Citable := by
  obtain hl | ⟨v, _, rfl⟩ := resolve_cases h
  · obtain ⟨hname, hnative⟩ := hm hl
    obtain ⟨name, immediate, body⟩ := w
    cases hname
    cases hw
    exact .named htoken.1 htoken.2 hnative.notLiteral
  · exact .literal v

theorem Legible.mayResume {m : Machine Ext} (h : m.Legible) {draft : Draft}
    (hd : m.MayResume draft) : draft.Legible := by
  rcases hd with hd | rfl
  · exact h.draft draft hd
  · exact Draft.legible_unnamed

/-- All that interpreting does keeps a machine legible. -/
theorem persistent_legible : Persistent (Legible : Machine Ext → Prop) where
  effect _ _ _ h := ⟨h.names, h.threads, h.pending, h.draft⟩
  take h hrest :=
    ⟨h.names, h.threads, fun t ht => h.pending t (Input.words_subset_of_suffix hrest ht), h.draft⟩
  wait h hd _ := by
    refine ⟨h.names, h.threads, nofun, ?_⟩
    rintro _ ⟨⟩
    exact (h.mayResume hd).extend h.pending
  close h := ⟨h.names, h.threads, h.pending, nofun⟩
  define := by
    intro m draft name body rest words h hm hd hcomplete hc
    have hdraft := Draft.legible_of_complete? (h.mayResume hd) h.pending hcomplete
    refine ⟨?_, ?_, h.pending, h.draft⟩
    · exact Dictionary.forall_lookup_define h.names (hdraft.name name rfl)
    · refine Dictionary.forall_lookup_define h.threads ?_
      rintro _ ⟨⟩ c hc'
      obtain ⟨token, htoken, hr, hi⟩ := resolve_of_mem_captured hc hc'
      exact citable_of_resolve hm (hdraft.body token htoken) hr hi

/-- The built-in names can be typed in. -/
theorem isWord_of_builtin : ∀ (name : String) (w : Word Ext),
    (Dictionary.builtin : Dictionary Ext).lookup name = some w → Text.IsWord name := by
  have hprimitives : ∀ x ∈ (primitives : List (String × Bool × Primitive Ext)), Text.IsWord x.1 := by
    simp only [primitives, List.forall_mem_cons, List.not_mem_nil, false_implies, implies_true,
      and_true]
    decide
  have hcopies : ∀ x ∈ copies, Text.IsWord x.1 := by decide
  exact Dictionary.forall_lookup_builtin (fun _ _ _ hmem => hprimitives _ hmem)
    fun _ _ _ hmem _ => hcopies _ hmem

theorem legible_fresh (width : CellWidth) : (fresh width : Machine Ext).Legible where
  names := by
    rw [fresh_dictionary]
    exact isWord_of_builtin
  threads := by
    rw [fresh_dictionary]
    intro name w hw words hbody
    cases Dictionary.builtin_of_lookup name w hw <;> cases hbody
  pending := nofun
  draft := nofun

variable [Extension Ext]

theorem legible_afterTexts (width : CellWidth) (texts : List String) :
    ((fresh width : Machine Ext).afterCalls (texts.map .eval)).Legible := by
  refine persistent_legible.afterTexts (fun m text h => ?_) (native_fresh width)
    (legible_fresh width) texts
  refine ⟨h.names, h.threads, fun t ht => ?_, h.draft⟩
  rw [Input.words_append] at ht
  rcases List.mem_append.1 ht with ht | ht
  · exact h.pending t ht
  · exact Input.isWord_of_mem_ofText ht

end Machine

/-! ## Spelling and reading back -/

theorem Text.isBlank_of_isDigit {c : Char} (h : c.isDigit = true) : isBlank c = false := by
  rw [← Bool.not_eq_true]
  intro hblank
  have hnone := digitValue?_of_isBlank hblank
  rw [digitValue?_of_isDigit h] at hnone
  cases hnone

namespace Number

/-- The decimal writing of a number is none of the texts that are no numerals. -/
theorem decimal_ne {text : String} (h : Numeral.ofString? text = none) (v : Int) :
    decimal v ≠ text := by
  rintro rfl
  rw [Numeral.ofString?_decimal] at h
  cases h

/-- The decimal writing of a number is a word. -/
theorem isWord_decimal (v : Int) : Text.IsWord (decimal v) := by
  have hdigits : ∀ c ∈ v.natAbs.repr.toList, Text.isBlank c = false := fun c hc =>
    Text.isBlank_of_isDigit (Numeral.isDigit_of_mem_repr hc)
  refine ⟨decimal_ne (by decide) v, ?_⟩
  rw [decimal]
  split
  · rw [String.toList_append]
    exact List.forall_mem_cons.2 ⟨by decide, hdigits⟩
  · exact hdigits

end Number

/-- The token is how the word is spelled in a listing, and stands for the word. -/
structure Machine.Cites (m : Machine Ext) (c : Word Ext) (token : String) : Prop where
  isWord : Text.IsWord token
  notEnd : token ≠ ";"
  spelling : c.spelling = .ok (some token)
  resolve : m.resolve token = .ok (some c)
  notImmediate : c.immediate = false

namespace Machine

variable {m : Machine Ext} {width : CellWidth} {tokens : List String} {words : List (Word Ext)}

/-- A word that can stand in a definition is cited by its listing, if its name still stands for it,
or if no name hides the number. -/
theorem cites_of_citable {c : Word Ext} (hc : c.Citable)
    (hfits : ∀ v, c.body = .literal v → m.width.Holds v)
    (hspelled : ∃ spelling, c.spelling = .ok (some spelling))
    (hnamed : ∀ name, c.name = some name → m.dictionary.lookup name = some c)
    (hliteral : ∀ v, c.body = .literal v → m.dictionary.lookup (Number.decimal v) = none) :
    ∃ token, m.Cites c token := by
  cases hc with
  | literal v =>
    have hwrite : Number.isWritable v = true := by
      obtain ⟨spelling, hspelled⟩ := hspelled
      by_contra hlong
      simp [Entry.spelling, Entry.ofLiteral, Number.write, hlong, Except.map] at hspelled
    refine ⟨Number.decimal v, Number.isWord_decimal v, Number.decimal_ne (by decide) v, ?_, ?_, rfl⟩
    · simp [Entry.spelling, Entry.ofLiteral, Number.write, hwrite, Except.map]
    · simp only [resolve, hliteral v rfl, CellWidth.literal?_decimal (hfits v rfl) hwrite]
      rfl
  | @named name body hword hend hbody =>
    refine ⟨name, hword, hend, ?_, ?_, rfl⟩
    · rw [Entry.spelling]
      split
      · next v hv => exact absurd hv (hbody v)
      · rfl
    · simp only [resolve, hnamed name rfl]

theorem mapM_spelling_of_cites (h : List.Forall₂ m.Cites words tokens) :
    words.mapM Entry.spelling = .ok (tokens.map some) := by
  induction h with
  | nil => rfl
  | cons hc _ ih =>
    rw [List.mapM_cons, hc.spelling, ih]
    rfl

theorem isWord_of_cites (h : List.Forall₂ m.Cites words tokens) :
    ∀ t ∈ tokens, Text.IsWord t ∧ t ≠ ";" := by
  induction h with
  | nil => exact nofun
  | cons hc _ ih => exact List.forall_mem_cons.2 ⟨⟨hc.isWord, hc.notEnd⟩, ih⟩

theorem captured_of_cites (h : List.Forall₂ m.Cites words tokens) :
    captured m.resolve tokens = .ok words := by
  induction h with
  | nil => rfl
  | cons hc _ ih =>
    rw [captured, hc.resolve, ih]
    simp [hc.notImmediate, Except.map]

end Machine

/-- Take a machine `s` at rest after any texts, with the colon as it was, and a compiled word of its
dictionary. Suppose that each named word of its thread is still what the dictionary gives for the
name, and that no name of the dictionary is the decimal writing of a number of the thread. The word
has a listing, and interpreting it returns and leaves the machine as it was, but for the log; so the
name stands for the same word again. -/
theorem eval_listing [Extension Ext] {width : CellWidth} {texts : List String} {s : Machine Ext}
    (hs : s = (Machine.fresh width).afterCalls (texts.map .eval)) (hd : s.draft = none)
    (hp : s.pending = []) {colon : Word Ext} (hcolon : s.dictionary.lookup ":" = some colon)
    (hdefine : colon.body = .primitive .define) {name : String} {e : Word Ext}
    (he : s.dictionary.lookup name = some e) {words : List (Word Ext)}
    (hbody : e.body = .compiled words)
    (hnamed : ∀ c ∈ words, ∀ n, c.name = some n → s.dictionary.lookup n = some c)
    (hliteral : ∀ c ∈ words, ∀ v, c.body = .literal v →
      s.dictionary.lookup (Number.decimal v) = none) :
    ∃ listing log, e.describe = .ok listing ∧
      Machine.eval listing s = .ok () { s with log := log } := by
  obtain ⟨known, hsound⟩ := @Machine.sound_afterCalls Ext _ width (texts.map .eval)
  have hlegible := @Machine.legible_afterTexts Ext _ width texts
  rw [← hs] at hsound hlegible
  obtain ⟨hname, hword⟩ := hsound.dictionary he
  -- the word is not immediate, so its listing is a definition and nothing else
  have hi : e.immediate = false := by
    cases hi : e.immediate with
    | false => rfl
    | true => cases hbody.symm.trans (hword.immediate hi)
  obtain rfl : e = ⟨some name, false, .compiled words⟩ := by
    cases e
    simp_all
  have hcites : ∀ c ∈ words, ∃ token, s.Cites c token := by
    intro c hc
    refine Machine.cites_of_citable (hlegible.threads he words rfl c hc) (fun v hv => ?_)
      (hword.spelled words rfl c hc) (hnamed c hc) (hliteral c hc)
    rw [hsound.width_eq]
    refine hword.fits v ?_
    rw [Body.leaves_compiled, List.mem_flatMap]
    exact ⟨c, hc, by simp [hv, Body.leaves]⟩
  obtain ⟨tokens, hcites⟩ := exists_forall₂_of_forall hcites
  have hall := Machine.isWord_of_cites hcites
  obtain ⟨log, heval⟩ := Action.eval_definition_of_captured hsound.native hd hp hcolon hdefine
    (hlegible.names he) (fun t ht => (hall t ht).1) (fun t ht => (hall t ht).2)
    (Machine.captured_of_cites hcites)
  refine ⟨_, log, ?_, heval.trans ?_⟩
  · rw [Entry.describe, Entry.listing_compiled (Machine.mapM_spelling_of_cites hcites)]
    rfl
  · rw [Dictionary.define_of_lookup he]

/-- A machine with a word that is made of another one and of a number spelled at length. -/
def cubing : Machine Empty :=
  (Machine.fresh .standard).afterCalls
    ([": square dup * ; 3", ": cube dup square", "* -007 + ;"].map .eval)

/-- The thread of the word. -/
def cubeThread : List (Word Empty) :=
  [⟨some "dup", false, .primitive .dup⟩,
   ⟨some "square", false, .compiled
     [⟨some "dup", false, .primitive .dup⟩, ⟨some "*", false, .primitive .multiply⟩]⟩,
   ⟨some "*", false, .primitive .multiply⟩, .ofLiteral (-7), ⟨some "+", false, .primitive .add⟩]

/-- Its listing stands on one line, has the number in its shortest form, and defines it again. -/
theorem eval_listing_cube :
    cubing.dictionary.lookup "cube" = some ⟨some "cube", false, .compiled cubeThread⟩ ∧
      ∃ log, Machine.eval ": cube dup square * -7 + ;" cubing =
        .ok () { cubing with log := log } := by
  have hcube : cubing.dictionary.lookup "cube" =
      some ⟨some "cube", false, .compiled cubeThread⟩ := by
    decide +kernel
  have hcolon : cubing.dictionary.lookup ":" = some ⟨some ":", false, .primitive .define⟩ := by
    decide +kernel
  have hnamed : ∀ c ∈ cubeThread, ∀ n, c.name = some n → cubing.dictionary.lookup n = some c := by
    simp only [cubeThread, List.forall_mem_cons, Entry.ofLiteral, Option.some.injEq, forall_eq']
    decide +kernel
  have hliteral : ∀ c ∈ cubeThread, ∀ v, c.body = .literal v →
      cubing.dictionary.lookup (Number.decimal v) = none := by
    simp only [cubeThread, List.forall_mem_cons, Entry.ofLiteral, Body.literal.injEq, forall_eq',
      reduceCtorEq, false_implies, implies_true, List.not_mem_nil, true_and, and_true]
    decide +kernel
  obtain ⟨listing, log, hlisting, heval⟩ := eval_listing (s := cubing) rfl (by decide +kernel)
    (by decide +kernel) hcolon rfl hcube rfl hnamed hliteral
  obtain rfl : listing = ": cube dup square * -7 + ;" := by
    have htext : (Entry.describe ⟨some "cube", false, .compiled cubeThread⟩).toOption =
        some ": cube dup square * -7 + ;" := by
      decide +kernel
    rw [hlisting] at htext
    exact Option.some.inj htext
  exact ⟨hcube, log, heval⟩

end ThreadedForth
