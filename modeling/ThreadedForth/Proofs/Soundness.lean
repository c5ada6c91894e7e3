import ThreadedForth.Proofs.Cells
import ThreadedForth.Proofs.Evolution

/-!
# Sound machines

What every machine satisfies that no host has tampered with (`Machine.Sound`): the numbers on its
stack and in its words fit a cell, its words are native and can be listed, and while a definition is
open nothing is pending. A run that starts on a sound machine ends on one, and if it stops, then with
one of a few faults (`Fault.Expected`); `Action.Settles` says both of a result. It is shown for each
primitive, then for definitions and words, and last for the loop and a whole text (`settles_eval`).

The tokens that a run may come across are kept as a parameter, so that a fault can be traced to one.
-/

namespace ThreadedForth

variable {Ext α β : Type}

/-! ## Words and dictionaries -/

/-- A native word whose numbers fit a cell and which can be listed. -/
structure Entry.Sound (width : CellWidth) (w : Word Ext) : Prop extends w.Native where
  fits : ∀ v, Leaf.push v ∈ w.body.leaves → width.Holds v
  spelled : ∀ words, w.body = .compiled words →
    ∀ c ∈ words, ∃ spelling, c.spelling = .ok (some spelling)

/-- Every word of the dictionary is sound, and carries its name. -/
def Dictionary.Sound (width : CellWidth) (d : Dictionary Ext) : Prop :=
  ∀ ⦃name : String⦄ ⦃w : Word Ext⦄, d.lookup name = some w → w.name = some name ∧ w.Sound width

theorem lookupIn_of_mem {β : Type} {bindings : List (String × β)}
    (hsorted : bindings.Pairwise fun a b => a.1 < b.1) {b : String × β} (hb : b ∈ bindings) :
    lookupIn b.1 bindings = some b.2 := by
  induction bindings with
  | nil => cases hb
  | cons head rest ih =>
    obtain ⟨hhead, hrest⟩ := List.pairwise_cons.1 hsorted
    rcases List.mem_cons.1 hb with rfl | hb
    · rw [lookupIn, if_pos rfl]
    · have hne : b.1 ≠ head.1 := fun heq => String.lt_irrefl head.1 (heq ▸ hhead b hb)
      rw [lookupIn, if_neg hne]
      exact ih hrest hb

namespace Dictionary.Sound

variable {width : CellWidth} {d : Dictionary Ext}

theorem native (h : d.Sound width) : d.Native :=
  fun _ _ hw => ⟨(h hw).1, (h hw).2.toNative⟩

theorem define (h : d.Sound width) {name : String} {immediate : Bool} {body : Body Ext}
    (hw : (⟨some name, immediate, body⟩ : Word Ext).Sound width) :
    (d.define name immediate body).Sound width :=
  forall_lookup_define h ⟨rfl, hw⟩

theorem define_copy (h : d.Sound width) {new old : String} {w : Word Ext}
    (hw : d.lookup old = some w) : (d.define new w.immediate w.body).Sound width := by
  have hsound := (h hw).2
  exact h.define
    ⟨⟨hsound.notLiteral, hsound.immediate, hsound.plain⟩, hsound.fits, hsound.spelled⟩

/-- Every word can be listed. -/
theorem describe (h : d.Sound width) {b : String × Word Ext} (hb : b ∈ d.bindings) :
    ∃ listing, b.2.describe = .ok listing := by
  obtain ⟨hname, hsound⟩ := h (lookupIn_of_mem d.sorted hb)
  obtain ⟨key, ⟨name, immediate, body⟩⟩ := b
  obtain rfl : name = some key := hname
  cases body with
  | primitive p => exact ⟨_, rfl⟩
  | literal v => exact absurd rfl (hsound.notLiteral v)
  | compiled words => exact Entry.describe_compiled (hsound.spelled words rfl) key immediate

end Dictionary.Sound

theorem Dictionary.sound_builtin (width : CellWidth) :
    (builtin : Dictionary Ext).Sound width := by
  intro name w hw
  have hbuiltin := builtin_of_lookup name w hw
  refine ⟨hbuiltin.name_eq, hbuiltin.native, ?_, ?_⟩
  · cases hbuiltin <;> simp [Body.leaves]
  · cases hbuiltin <;> simp

/-! ## Drafts and machines -/

namespace Draft

/-- The name that an open definition has so far. -/
def name? : Draft → Option String
  | .unnamed => none
  | .named name _ => some name

/-- The words that an open definition has collected so far. -/
def body : Draft → List String
  | .unnamed => []
  | .named _ body => body

/-- No semicolon is among the collected words, and all of them are known tokens. -/
structure Clean (tokens : List String) (draft : Draft) : Prop where
  noEnd : ";" ∉ draft.body
  known : draft.body ⊆ tokens

variable {tokens : List String} {draft : Draft} {q rest : Input} {name n : String}
  {body b : List String}

theorem clean_unnamed : Draft.unnamed.Clean tokens :=
  ⟨List.not_mem_nil, List.nil_subset _⟩

theorem Clean.mono {tokens' : List String} (h : draft.Clean tokens) (hsub : tokens ⊆ tokens') :
    draft.Clean tokens' :=
  ⟨h.noEnd, fun _ ht => hsub (h.known ht)⟩

theorem clean_takeBody (hbody : (named name body).Clean tokens) (hq : Input.words q ⊆ tokens) :
    (named name (body ++ (Input.takeBody q).1)).Clean tokens where
  noEnd h := (List.mem_append.1 h).elim hbody.noEnd (Input.not_mem_takeBody q)
  known := List.append_subset.2 ⟨hbody.known, fun _ ht => hq (Input.takeBody_subset q ht)⟩

/-- A definition that the input does not complete stays clean. -/
theorem Clean.extend (h : draft.Clean tokens) (hq : Input.words q ⊆ tokens) :
    (draft.extend q).Clean tokens := by
  cases draft with
  | named name body => exact clean_takeBody h hq
  | unnamed =>
    rw [Draft.extend]
    cases hr : Input.readWord? q with
    | none => exact clean_unnamed
    | some read =>
      have hrest := Input.words_subset_of_readWord? hr
      exact @clean_takeBody _ _ read.1 [] ⟨List.not_mem_nil, List.nil_subset _⟩
        fun _ ht => hq (hrest ht)

theorem completeNamed?_subset (h : completeNamed? name body q = some (n, b, rest)) :
    b ⊆ body ++ Input.words q := by
  rw [completeNamed?] at h
  cases hq : Input.takeBody q with
  | mk more after =>
    rw [hq] at h
    cases after with
    | none => cases h
    | some after =>
      cases h
      have hmore := Input.takeBody_subset q
      rw [hq] at hmore
      exact List.append_subset.2 ⟨List.subset_append_left _ _, fun _ ht =>
        List.mem_append_right _ (hmore ht)⟩

/-- The words of a complete definition were collected before or come from the input. -/
theorem complete?_subset (h : draft.complete? q = some (n, b, rest)) :
    b ⊆ draft.body ++ Input.words q := by
  cases draft with
  | named name body => exact completeNamed?_subset h
  | unnamed =>
    rw [complete?] at h
    cases hr : Input.readWord? q with
    | none => simp [hr] at h
    | some read =>
      rw [hr] at h
      exact fun _ ht => Input.words_subset_of_readWord? hr (completeNamed?_subset h ht)

/-- So were, or do, the words of a definition that stays open. -/
theorem extend_subset (draft : Draft) (q : Input) :
    (draft.extend q).body ⊆ draft.body ++ Input.words q := by
  cases draft with
  | named name body =>
    exact List.append_subset.2 ⟨List.subset_append_left _ _, fun _ ht =>
      List.mem_append_right _ (Input.takeBody_subset q ht)⟩
  | unnamed =>
    rw [extend]
    cases hr : Input.readWord? q with
    | none => exact List.nil_subset _
    | some read =>
      exact fun _ ht => Input.words_subset_of_readWord? hr (Input.takeBody_subset read.2 ht)

end Draft

namespace Machine

/-- The name that the open definition has so far, if there is one. -/
def definitionName (m : Machine Ext) : Option String :=
  m.draft.bind Draft.name?

/-- The words that the open definition has collected so far. -/
def definitionBody (m : Machine Ext) : List String :=
  m.draft.elim [] Draft.body

/-- Without an open definition there is neither a name nor a body of one. -/
theorem definition_of_not_defining {m : Machine Ext} (h : m.isDefining = false) :
    m.definitionName = none ∧ m.definitionBody = [] := by
  have hd : m.draft = none := by simpa [isDefining] using h
  rw [definitionName, definitionBody, hd]
  exact ⟨rfl, rfl⟩

/-- Words are collected only behind a name. -/
theorem definitionBody_of_unnamed {m : Machine Ext} (h : m.definitionName = none) :
    m.definitionBody = [] := by
  rw [definitionName] at h
  rw [definitionBody]
  cases hd : m.draft with
  | none => rfl
  | some draft =>
    rw [hd] at h
    cases draft with
    | unnamed => rfl
    | named name body => cases h

/-- The words that are pending or collected. -/
def tokens (m : Machine Ext) : List String :=
  Input.words m.pending ++ m.definitionBody

end Machine

/-- A machine that no host has tampered with, where all words that are pending or collected are
among `tokens`. -/
structure Machine.Sound (width : CellWidth) (tokens : List String) (m : Machine Ext) : Prop where
  width_eq : m.width = width
  dictionary : m.dictionary.Sound width
  stack : ∀ v ∈ m.stack, width.Holds v
  pending : Input.words m.pending ⊆ tokens
  draft : ∀ draft, m.draft = some draft → m.pending = [] ∧ draft.Clean tokens

namespace Machine.Sound

variable {width : CellWidth} {tokens : List String} {m : Machine Ext}

theorem mono {tokens' : List String} (h : m.Sound width tokens) (hsub : tokens ⊆ tokens') :
    m.Sound width tokens' where
  width_eq := h.width_eq
  dictionary := h.dictionary
  stack := h.stack
  pending _ ht := hsub (h.pending ht)
  draft draft hd := ⟨(h.draft draft hd).1, (h.draft draft hd).2.mono hsub⟩

/-- The words that are pending or collected are tokens enough. -/
theorem own (h : m.Sound width tokens) : m.Sound width m.tokens where
  width_eq := h.width_eq
  dictionary := h.dictionary
  stack := h.stack
  pending := List.subset_append_left _ _
  draft draft hd := by
    obtain ⟨hp, hclean⟩ := h.draft draft hd
    refine ⟨hp, hclean.noEnd, fun t ht => List.mem_append_right _ ?_⟩
    rw [Machine.definitionBody, hd]
    exact ht

theorem native (h : m.Sound width tokens) : m.dictionary.Native :=
  h.dictionary.native

/-- Without its open definition a machine is sound. -/
theorem closed (h : m.Sound width tokens) : { m with draft := none }.Sound width tokens :=
  ⟨h.width_eq, h.dictionary, h.stack, h.pending, nofun⟩

theorem withStack (h : m.Sound width tokens) {stack : List Int}
    (hstack : ∀ v ∈ stack, width.Holds v) : { m with stack := stack }.Sound width tokens :=
  ⟨h.width_eq, h.dictionary, hstack, h.pending, h.draft⟩

theorem withOutput (h : m.Sound width tokens) (output : String) :
    { m with output := output }.Sound width tokens :=
  ⟨h.width_eq, h.dictionary, h.stack, h.pending, h.draft⟩

theorem withLog (h : m.Sound width tokens) (log : List Event) :
    { m with log := log }.Sound width tokens :=
  ⟨h.width_eq, h.dictionary, h.stack, h.pending, h.draft⟩

/-- Taking pieces off the front of what is pending keeps a machine sound. -/
theorem withPending (h : m.Sound width tokens) {rest : Input} (hrest : rest <:+ m.pending) :
    { m with pending := rest }.Sound width tokens where
  width_eq := h.width_eq
  dictionary := h.dictionary
  stack := h.stack
  pending _ ht := h.pending (Input.words_subset_of_suffix hrest ht)
  draft draft hd := by
    obtain ⟨hp, hclean⟩ := h.draft draft hd
    rw [hp] at hrest
    exact ⟨List.suffix_nil.1 hrest, hclean⟩

/-- With a text queued, a machine is sound but for its open definition. -/
theorem queued (h : m.Sound width tokens) (text : String) :
    { m with pending := m.pending ++ Input.ofText text, draft := none }.Sound width
      (tokens ++ Input.words (Input.ofText text)) where
  width_eq := h.width_eq
  dictionary := h.dictionary
  stack := h.stack
  pending := by
    rw [Input.words_append]
    exact List.append_subset.2 ⟨fun _ ht => List.mem_append_left _ (h.pending ht),
      List.subset_append_right _ _⟩
  draft := nofun

end Machine.Sound

/-! ## Faults -/

/-- The faults that a run without a host may stop with. A numeral is too long only if one of the
tokens is such a numeral, a number only if cells are wider than what can be written. -/
inductive Fault.Expected (width : CellWidth) (tokens : List String) : Fault → Prop
  | unknownWord {token : String} : token ∈ tokens → Expected width tokens (.unknownWord token)
  | stackUnderflow {word : String} {required available : Int} :
      Expected width tokens (.stackUnderflow word required available)
  | divisionByZero : Expected width tokens .divisionByZero
  | bye : Expected width tokens (.bye 0)
  | numeralTooLong {token : String} {numeral : Number.Numeral} : token ∈ tokens →
      Number.Numeral.ofString? token = some numeral →
      Number.maxDigits < numeral.digits.length →
      Expected width tokens (.numeralTooLong numeral.digits.length)
  | numberTooLong : CellWidth.widestWritable < width.bits → Expected width tokens .numberTooLong

section Faults

variable {width : CellWidth} {tokens : List String} {fault : Fault}

theorem expected_of_write {v : Int} (hv : width.Holds v) (h : Number.write v = .error fault) :
    fault.Expected width tokens := by
  rw [Number.write] at h
  split at h
  · cases h
  · next hlong =>
    cases h
    refine .numberTooLong (Nat.lt_of_not_le fun hwidth => hlong ?_)
    exact CellWidth.isWritable_of_holds hwidth hv

theorem error_of_mapM {ι γ ε : Type} {f : ι → Except ε γ} {xs : List ι} {e : ε}
    (h : xs.mapM f = .error e) : ∃ x ∈ xs, f x = .error e := by
  induction xs with
  | nil => cases h
  | cons x xs ih =>
    rw [List.mapM_cons] at h
    cases hx : f x with
    | error e' =>
      rw [hx] at h
      cases h
      exact ⟨x, List.mem_cons_self, hx⟩
    | ok y =>
      rw [hx] at h
      cases hxs : xs.mapM f with
      | error e' =>
        rw [hxs] at h
        cases h
        obtain ⟨x', hmem, hx'⟩ := ih hxs
        exact ⟨x', List.mem_cons_of_mem x hmem, hx'⟩
      | ok ys =>
        rw [hxs] at h
        cases h

theorem expected_of_stackText {m : Machine Ext} (hm : m.Sound width tokens)
    (h : m.stackText = .error fault) : fault.Expected width tokens := by
  rw [Machine.stackText] at h
  cases hcells : m.stack.reverse.mapM Number.write with
  | ok cells =>
    rw [hcells] at h
    cases h
  | error fault' =>
    rw [hcells] at h
    cases h
    obtain ⟨v, hv, hwrite⟩ := error_of_mapM hcells
    exact expected_of_write (hm.stack v (List.mem_reverse.1 hv)) hwrite

theorem dump_ne_error {d : Dictionary Ext} (hd : d.Sound width) : d.dump ≠ .error fault := by
  intro h
  obtain ⟨b, hb, herror⟩ := error_of_mapM h
  obtain ⟨listing, hlisting⟩ := hd.describe hb
  rw [hlisting] at herror
  cases herror

/-- A token that cannot be looked at is a numeral that is too long. -/
theorem expected_of_resolve {m : Machine Ext} {token : String} (ht : token ∈ tokens)
    (h : m.resolve token = .error fault) : fault.Expected width tokens := by
  rw [Machine.resolve] at h
  cases hl : m.dictionary.lookup token with
  | some w => simp [hl] at h
  | none =>
    rw [hl] at h
    cases hv : m.width.literal? token with
    | ok v =>
      rw [hv] at h
      cases h
    | error fault' =>
      rw [hv] at h
      cases h
      obtain ⟨numeral, hnumeral, hlong, rfl⟩ := CellWidth.numeral_of_literal?_error hv
      exact .numeralTooLong ht hnumeral hlong

theorem expected_of_captured {m : Machine Ext} {body : List String} (hbody : body ⊆ tokens)
    (h : captured m.resolve body = .error fault) : fault.Expected width tokens := by
  induction body with
  | nil => cases h
  | cons token rest ih =>
    obtain ⟨htoken, hrest⟩ := List.cons_subset.1 hbody
    rw [captured] at h
    cases hr : m.resolve token with
    | error fault' =>
      simp only [hr, Except.error.injEq] at h
      exact h ▸ expected_of_resolve htoken hr
    | ok w =>
      cases w with
      | none =>
        simp only [hr, Except.error.injEq] at h
        exact h ▸ .unknownWord htoken
      | some w =>
        simp only [hr] at h
        split at h
        · exact ih hrest h
        · cases hc : captured m.resolve rest with
          | ok words =>
            rw [hc] at h
            cases h
          | error fault' =>
            rw [hc] at h
            cases h
            exact ih hrest hc

end Faults

/-! ## Results -/

/-- The result leaves a sound machine, and the fault is expected if there is one. -/
inductive Action.Settles (width : CellWidth) (tokens : List String) :
    EStateM.Result Fault (Machine Ext) α → Prop
  | returned {x : α} {m : Machine Ext} : m.Sound width tokens → Settles width tokens (.ok x m)
  | stopped {fault : Fault} {m : Machine Ext} : m.Sound width tokens →
      fault.Expected width tokens → Settles width tokens (.error fault m)

namespace Action

variable {width : CellWidth} {tokens : List String} {m : Machine Ext}

theorem Settles.sound {a : Action Ext α} (h : Settles width tokens (a m)) :
    (a.after m).Sound width tokens := by
  cases hr : a m with
  | ok x m' =>
    rw [hr] at h
    rw [after_of_ok hr]
    cases h with
    | returned hm => exact hm
  | error fault m' =>
    rw [hr] at h
    rw [after_of_error hr]
    cases h with
    | stopped hm _ => exact hm

theorem Settles.expected {a : Action Ext α} {fault : Fault} (h : Settles width tokens (a m))
    (hfault : a.fault? m = some fault) : fault.Expected width tokens := by
  cases hr : a m with
  | ok x m' =>
    rw [fault?_of_ok hr] at hfault
    cases hfault
  | error fault' m' =>
    rw [fault?_of_error hr] at hfault
    cases hfault
    rw [hr] at h
    cases h with
    | stopped _ hexpected => exact hexpected

/-- One action after another settles if each does. -/
theorem Settles.bind {a : Action Ext α} {f : α → Action Ext β} (h : Settles width tokens (a m))
    (hf : ∀ x m', a m = .ok x m' → m'.Sound width tokens → Settles width tokens (f x m')) :
    Settles width tokens ((a >>= f) m) := by
  cases hr : a m with
  | ok x m' =>
    rw [hr] at h
    rw [bind_of_ok hr]
    cases h with
    | returned hm => exact hf x m' hr hm
  | error fault m' =>
    rw [hr] at h
    rw [bind_of_error hr]
    cases h with
    | stopped hm hfault => exact .stopped hm hfault

theorem settles_forM {ι : Type} {f : ι → Action Ext Unit} {xs : List ι}
    (h : ∀ x ∈ xs, ∀ m, m.Sound width tokens → Settles width tokens (f x m))
    (hm : m.Sound width tokens) : Settles width tokens (xs.forM f m) := by
  induction xs generalizing m with
  | nil => exact .returned hm
  | cons x xs ih =>
    refine (h x List.mem_cons_self m hm).bind fun _ m' _ hm' => ?_
    exact ih (fun y hy => h y (List.mem_cons_of_mem x hy)) hm'

/-! ## Primitives -/

theorem settles_rearrange (hm : m.Sound width tokens) {word : String} {arity : Nat}
    {f : List Int → Option (List Int)}
    (hf : ∀ stack, f m.stack = some stack → ∀ v ∈ stack, width.Holds v) :
    Settles width tokens (rearrange word arity f m) := by
  rw [rearrange]
  cases hs : f m.stack with
  | some stack => exact .returned (hm.withStack (hf stack hs))
  | none => exact .stopped hm .stackUnderflow

theorem settles_binary (hm : m.Sound width tokens) (word : String) (op : Int → Int → Int) :
    Settles width tokens (binary word op m) := by
  rw [binary, get_bind]
  refine settles_rearrange hm fun stack hs => ?_
  split at hs
  · next b a rest hstack =>
    cases hs
    intro v hv
    rcases List.mem_cons.1 hv with rfl | hv
    · rw [hm.width_eq]
      exact width.holds_wrap _
    · exact hm.stack v (by simp [hstack, hv])
  · cases hs

theorem settles_divide (hm : m.Sound width tokens) : Settles width tokens (divide m) := by
  rw [divide, get_bind]
  generalize m.stack = stack
  split
  · exact .stopped hm .divisionByZero
  · exact settles_binary hm _ _

/-- Writing a result settles if the faults of the result are expected. -/
theorem settles_writeResult {γ : Type} (hm : m.Sound width tokens) {result : Except Fault γ}
    (line : γ → String) (h : ∀ fault, result = .error fault → fault.Expected width tokens) :
    Settles width tokens ((ofExcept result >>= fun x => write (line x) : Action Ext Unit) m) := by
  cases result with
  | ok x => exact .returned (hm.withOutput _)
  | error fault => exact .stopped hm (h fault rfl)

theorem settles_printTop (hm : m.Sound width tokens) : Settles width tokens (printTop m) := by
  have hcells := hm.stack
  cases hs : m.stack with
  | nil =>
    rw [printTop, get_bind, hs]
    exact .stopped hm .stackUnderflow
  | cons v stack =>
    rw [hs, List.forall_mem_cons] at hcells
    rw [printTop_of_cons hs]
    exact settles_writeResult (hm.withStack hcells.2) _ fun _ => expected_of_write hcells.1

theorem settles_printStack (hm : m.Sound width tokens) : Settles width tokens (printStack m) := by
  rw [printStack, get_bind]
  exact settles_writeResult hm _ fun _ => expected_of_stackText hm

theorem settles_listWords (hm : m.Sound width tokens) : Settles width tokens (listWords m) := by
  rw [listWords, get_bind]
  exact settles_writeResult hm _ fun _ h => absurd h (dump_ne_error hm.dictionary)

/-- What a primitive that rearranges the stack leaves was on the stack before. -/
theorem settles_reordered (hm : m.Sound width tokens) {word : String} {arity : Nat}
    {f : List Int → Option (List Int)}
    (hf : ∀ stack stack', f stack = some stack' → stack' ⊆ stack) :
    Settles width tokens (rearrange word arity f m) :=
  settles_rearrange hm fun stack hs v hv => hm.stack v (hf _ stack hs hv)

theorem settles_step [Extension Ext] (nested : Performer Ext) {p : Primitive Ext}
    (hp : p.isContained true = true) (hm : m.Sound width tokens) :
    Settles width tokens (step nested p m) := by
  cases p with
  | print => exact settles_printTop hm
  | printStack => exact settles_printStack hm
  | add | subtract | multiply => exact settles_binary hm _ _
  | divide => exact settles_divide hm
  | listWords => exact settles_listWords hm
  | newline => exact .returned (hm.withOutput _)
  | bye => exact .stopped hm .bye
  | define | comment | extension => cases hp
  | _ =>
    -- the words that rearrange the stack
    unfold step
    refine settles_reordered hm fun stack stack' hs => ?_
    split at hs
    · cases hs
      grind
    · cases hs

theorem settles_run_contained [Extension Ext] {leaf : Leaf Ext}
    (hleaf : leaf.isContained true = true) (hfits : ∀ v, leaf = .push v → width.Holds v)
    (hm : m.Sound width tokens) : Settles width tokens (leaf.run Machine.performer m) := by
  cases leaf with
  | push v =>
    refine .returned (hm.withStack fun u hu => ?_)
    rcases List.mem_cons.1 hu with rfl | hu
    · exact hfits u rfl
    · exact hm.stack u hu
  | primitive p => exact settles_step _ hleaf hm

/-! ## Definitions -/

/-- The numbers of a word that a token stands for fit a cell. -/
theorem fits_of_resolve (hm : m.Sound width tokens) {token : String} {w : Word Ext}
    (h : m.resolve token = .ok (some w)) {v : Int} (hv : Leaf.push v ∈ w.body.leaves) :
    width.Holds v := by
  obtain hl | ⟨u, hu, rfl⟩ := Machine.resolve_cases h
  · exact (hm.dictionary hl).2.fits v hv
  · obtain rfl : v = u := by simpa [Entry.ofLiteral, Body.leaves] using hv
    rw [hm.width_eq] at hu
    exact CellWidth.holds_of_literal? hu

/-- The word that a body is compiled to is sound. -/
theorem sound_of_captured (hm : m.Sound width tokens) {body : List String}
    {words : List (Word Ext)} (h : captured m.resolve body = .ok words) (name : String) :
    (⟨some name, false, .compiled words⟩ : Word Ext).Sound width where
  toNative := Machine.native_of_captured hm.native h _
  fits v hv := by
    rw [Body.leaves_compiled, List.mem_flatMap] at hv
    obtain ⟨w, hw, hv⟩ := hv
    obtain ⟨token, _, hr, _⟩ := resolve_of_mem_captured h hw
    exact fits_of_resolve hm hr hv
  spelled words' hbody := by
    cases hbody
    exact Machine.spelling_of_captured hm.native h

section Running

variable [Extension Ext]

/-- Compiling a body of known tokens and binding a name to it settles. -/
theorem settles_defineWord (hm : m.Sound width tokens) (name : String) {body : List String}
    (hbody : body ⊆ tokens) : Settles width tokens (Machine.defineWord name body m) := by
  have hlines := hm.withPending (Input.skipLines_suffix (immediates m.resolve body) m.pending)
  cases hc : captured m.resolve body with
  | ok words =>
    obtain ⟨log, hd⟩ := defineWord_of_captured nestingLimit name hm.native hc
    have hrun : Machine.defineWord name body m = _ := hd
    rw [hrun]
    exact .returned ⟨hm.width_eq, hm.dictionary.define (sound_of_captured hm hc name), hm.stack,
      hlines.pending, hlines.draft⟩
  | error fault =>
    obtain ⟨log, hd⟩ := defineWord_of_refused nestingLimit name hm.native.onlyComments hc
    have hrun : Machine.defineWord name body m = _ := hd
    rw [hrun]
    exact .stopped (hlines.withLog log) (expected_of_captured hbody hc)

/-- So does a body of any tokens, with these as further tokens. -/
theorem settles_defineWord_of_any (hm : m.Sound width tokens) (name : String)
    (body : List String) : Settles width (tokens ++ body) (Machine.defineWord name body m) :=
  settles_defineWord (hm.mono (List.subset_append_left tokens body)) name
    (List.subset_append_right tokens body)

/-- A definition settles, whether more input was queued for it or not. -/
theorem settles_resumeDefinition {draft : Draft} (hm : { m with draft := none }.Sound width tokens)
    (hdraft : draft.Clean tokens) :
    Settles width tokens (resumeDefinition Machine.performer draft m) := by
  cases h : draft.complete? m.pending with
  | none =>
    rw [resumeDefinition_of_open h]
    refine .returned ⟨hm.width_eq, hm.dictionary, hm.stack, List.nil_subset _, ?_⟩
    rintro _ ⟨⟩
    exact ⟨rfl, hdraft.extend hm.pending⟩
  | some completion =>
    obtain ⟨name, body, rest⟩ := completion
    have hrest := (List.suffix_cons _ _).trans (Draft.suffix_of_complete? h)
    have hbody : body ⊆ tokens := fun t ht =>
      (List.mem_append.1 (Draft.complete?_subset h ht)).elim (@hdraft.known t) (@hm.pending t)
    rw [resumeDefinition_of_complete h]
    exact (settles_defineWord (hm.withPending hrest) name hbody).bind fun _ _ _ hm' => .returned hm'

/-! ## Words -/

theorem settles_run_leaf {leaf : Leaf Ext} (hplain : leaf.isPlain = true)
    (hfits : ∀ v, leaf = .push v → width.Holds v) (hm : m.Sound width tokens) :
    Settles width tokens (leaf.run Machine.performer m) := by
  by_cases hd : leaf = .primitive .define
  · subst hd
    have hrun : (Leaf.primitive .define).run Machine.performer m = _ :=
      performer_define hm.native.onlyComments
    rw [hrun]
    exact settles_resumeDefinition hm.closed Draft.clean_unnamed
  · exact settles_run_contained (Leaf.isContained_of_isPlain hplain hd) hfits hm

theorem settles_interpret (hm : m.Sound width tokens) {token : String} (ht : token ∈ tokens) :
    Settles width tokens (interpret Machine.performer token m) := by
  cases hr : m.resolve token with
  | error fault =>
    rw [interpret_of_error hr]
    exact .stopped hm (expected_of_resolve ht hr)
  | ok w =>
    cases w with
    | none =>
      rw [interpret_of_unknown hr]
      exact .stopped (hm.withLog _) (.unknownWord ht)
    | some w =>
      rw [interpret_of_word hr]
      cases hi : w.immediate with
      | true =>
        have hrun : (Body.primitive .comment).run Machine.performer m = _ :=
          run_comment nestingLimit m
        rw [Machine.body_of_resolve hm.native.onlyComments hr hi, hrun]
        exact .returned (hm.withPending (Input.skipLine_suffix _))
      | false =>
        rw [Body.run_eq_forM]
        refine settles_forM (fun leaf hleaf m' hm' => ?_) hm
        have hplain := Machine.plain_of_resolve hm.native hr hi leaf hleaf
        exact settles_run_leaf hplain (fun v hv => fits_of_resolve hm hr (hv ▸ hleaf)) hm'

/-! ## The loop -/

theorem settles_drain (hm : m.Sound width tokens) : Settles width tokens (drain m) := by
  -- a word takes itself off at least, so what is pending gets shorter
  induction hlen : m.pending.length using Nat.strongRecOn generalizing m with
  | _ n ih =>
    cases hd : m.draft with
    | some draft =>
      rw [drain_of_open hd]
      exact .returned hm
    | none =>
      cases hr : Input.readWord? m.pending with
      | none =>
        rw [drain_of_none hd hr]
        exact .returned (hm.withPending List.nil_suffix)
      | some read =>
        obtain ⟨token, rest⟩ := read
        have hshorter := Input.length_of_readWord? hr
        have hrest := (List.suffix_cons _ _).trans (Input.suffix_of_readWord? hr)
        have htoken := hm.pending (Input.mem_words_of_readWord? hr)
        rw [drain_of_some hm.native hd hr]
        refine (settles_interpret (hm.withPending hrest) htoken).bind fun _ m' hi hm' => ?_
        have hevo := evolving_interpret token { m with pending := rest } hm.native
        rw [after_of_ok hi] at hevo
        have hle : m'.pending.length ≤ rest.length := hevo.pending.length_le
        exact ih m'.pending.length (by omega) hm' rfl

/-- Interpreting what is pending settles, also if input was queued for an open definition. -/
theorem settles_proceed (hm : { m with draft := none }.Sound width tokens)
    (hdraft : ∀ draft, m.draft = some draft → draft.Clean tokens) :
    Settles width tokens (proceed m) := by
  cases hd : m.draft with
  | none =>
    rw [proceed_of_closed hd]
    rw [← hd] at hm
    exact settles_drain hm
  | some draft =>
    rw [proceed_of_open hd]
    exact (settles_resumeDefinition hm (hdraft draft hd)).bind fun _ _ _ hm' => settles_drain hm'

/-- Interpreting a text settles, with the words of the text as further tokens. -/
theorem settles_eval (hm : m.Sound width tokens) (text : String) :
    Settles width (tokens ++ Input.words (Input.ofText text)) (Machine.eval text m) := by
  rw [eval_eq_proceed]
  refine settles_proceed (hm.queued text) fun draft hd => ?_
  exact (hm.draft draft hd).2.mono (List.subset_append_left _ _)

end Running

end Action

end ThreadedForth
