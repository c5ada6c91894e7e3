import ThreadedForth.Proofs.Literals
import ThreadedForth.Proofs.Native
import ThreadedForth.Proofs.Reading

/-!
# What a definition compiles to

Where comments are the only immediate words, compiling a body has no other effect than to drop
lines, one for each comment, and what it captures depends on nothing but how the tokens resolve. So
the captured words (`captured`) and the number of comments that run (`immediates`) can be told
without running anything, and `compileWords`, `defineWord` and `resumeDefinition` come down to them.
-/

namespace ThreadedForth

variable {Ext : Type}

/-- How tokens are resolved. -/
abbrev Resolver (Ext : Type) := String → Except Fault (Option (Word Ext))

/-- The words that are not immediate, in order, unless a token cannot be resolved. -/
def captured (resolve : Resolver Ext) : List String → Except Fault (List (Word Ext))
  | [] => .ok []
  | token :: rest =>
    match resolve token with
    | .error fault => .error fault
    | .ok none => .error (.unknownWord token)
    | .ok (some w) =>
      if w.immediate then captured resolve rest
      else (captured resolve rest).map fun words => w :: words

/-- The number of immediate words before the first token that cannot be resolved. -/
def immediates (resolve : Resolver Ext) : List String → Nat
  | [] => 0
  | token :: rest =>
    match resolve token with
    | .ok (some w) => if w.immediate then immediates resolve rest + 1 else immediates resolve rest
    | _ => 0

namespace Machine

/-- A token resolves to a word of the dictionary or to a literal. -/
theorem resolve_cases {m : Machine Ext} {token : String} {w : Word Ext}
    (h : m.resolve token = .ok (some w)) :
    m.dictionary.lookup token = some w ∨
    ∃ v, m.width.literal? token = .ok (some v) ∧ w = Entry.ofLiteral v := by
  rw [resolve] at h
  cases hl : m.dictionary.lookup token with
  | some w' =>
    rw [hl] at h
    cases h
    exact .inl rfl
  | none =>
    rw [hl] at h
    cases hv : m.width.literal? token with
    | error fault =>
      rw [hv] at h
      cases h
    | ok v =>
      rw [hv] at h
      cases v with
      | none => cases h
      | some v =>
        cases h
        exact .inr ⟨v, rfl, rfl⟩

theorem body_of_resolve {m : Machine Ext} (hm : m.dictionary.OnlyComments) {token : String}
    {w : Word Ext} (h : m.resolve token = .ok (some w)) (hw : w.immediate = true) :
    w.body = .primitive .comment := by
  obtain h | ⟨v, _, rfl⟩ := resolve_cases h
  · exact hm h hw
  · cases hw

end Machine

/-! ## What is captured -/

/-- A captured word is what some token of the body resolves to. -/
theorem resolve_of_mem_captured {resolve : Resolver Ext} {tokens : List String}
    {words : List (Word Ext)} (h : captured resolve tokens = .ok words) {w : Word Ext}
    (hw : w ∈ words) : ∃ token ∈ tokens, resolve token = .ok (some w) ∧ w.immediate = false := by
  induction tokens generalizing words with
  | nil =>
    cases h
    cases hw
  | cons token rest ih =>
    rw [captured] at h
    cases hr : resolve token with
    | error fault => simp [hr] at h
    | ok found =>
      cases found with
      | none => simp [hr] at h
      | some w' =>
        simp only [hr] at h
        cases hc : captured resolve rest with
        | error fault => cases hi : w'.immediate <;> simp [hi, hc, Except.map] at h
        | ok more =>
          have hmore : w ∈ more → ∃ t ∈ token :: rest, resolve t = .ok (some w) ∧
              w.immediate = false := by
            intro hw
            obtain ⟨t, ht, htr⟩ := ih hc hw
            exact ⟨t, List.mem_cons_of_mem _ ht, htr⟩
          cases hi : w'.immediate with
          | true =>
            rw [hi, hc, if_pos rfl] at h
            cases h
            exact hmore hw
          | false =>
            rw [hi, hc] at h
            cases h
            rcases List.mem_cons.1 hw with rfl | hw
            · exact ⟨token, List.mem_cons_self, hr, hi⟩
            · exact hmore hw

namespace Machine

variable {m : Machine Ext} {token : String} {w : Word Ext}

theorem plain_of_resolve (hm : m.dictionary.Native) (h : m.resolve token = .ok (some w))
    (hw : w.immediate = false) : ∀ leaf ∈ w.body.leaves, leaf.isPlain = true := by
  obtain h | ⟨v, _, rfl⟩ := resolve_cases h
  · exact (hm h).2.plain hw
  · simp [Entry.ofLiteral, Body.leaves, Leaf.isPlain]

/-- Every word that a token resolves to can be spelled in a listing. -/
theorem spelling_of_resolve (hm : m.dictionary.Native) (h : m.resolve token = .ok (some w)) :
    ∃ spelling, w.spelling = .ok (some spelling) := by
  obtain h | ⟨v, hv, rfl⟩ := resolve_cases h
  · obtain ⟨hname, hw⟩ := hm h
    refine ⟨token, ?_⟩
    rw [Entry.spelling]
    split
    · next v hv => exact absurd hv (hw.notLiteral v)
    · rw [hname]
  · refine ⟨Number.decimal v, ?_⟩
    show (Number.write v).map some = _
    rw [Number.write, CellWidth.isWritable_of_literal? hv]
    rfl

/-- The word that a native dictionary makes of a body is native. -/
theorem native_of_captured (hm : m.dictionary.Native) {tokens : List String}
    {words : List (Word Ext)} (h : captured m.resolve tokens = .ok words) (name : Option String) :
    (⟨name, false, .compiled words⟩ : Word Ext).Native := by
  refine ⟨fun _ => nofun, nofun, fun _ leaf hleaf => ?_⟩
  rw [Body.leaves_compiled, List.mem_flatMap] at hleaf
  obtain ⟨w, hw, hleaf⟩ := hleaf
  obtain ⟨token, _, hr, hi⟩ := resolve_of_mem_captured h hw
  exact plain_of_resolve hm hr hi leaf hleaf

end Machine

theorem mapM_spelling {words : List (Word Ext)}
    (h : ∀ w ∈ words, ∃ spelling, w.spelling = .ok (some spelling)) :
    ∃ spellings : List String, words.mapM Entry.spelling = .ok (spellings.map some) := by
  induction words with
  | nil => exact ⟨[], rfl⟩
  | cons w rest ih =>
    obtain ⟨spelling, hw⟩ := h w List.mem_cons_self
    obtain ⟨spellings, hrest⟩ := ih fun v hv => h v (List.mem_cons_of_mem w hv)
    refine ⟨spelling :: spellings, ?_⟩
    rw [List.mapM_cons, hw, hrest]
    rfl

theorem joinParts_map_some (parts : List String) :
    Entry.joinParts (parts.map some) = .ok (Text.unwords parts) := by
  have hfind : (parts.map some).findIdx? Option.isNone = none := by
    simp [List.findIdx?_eq_none_iff]
  have hparts : (parts.map some).filterMap id = parts := by simp
  rw [Entry.joinParts, hfind, hparts]

/-- The listing of a compiled word is its definition, with the words of its thread as they are
spelled. -/
theorem Entry.listing_compiled {words : List (Word Ext)} {spellings : List String}
    (h : words.mapM Entry.spelling = .ok (spellings.map some)) (name : String) (immediate : Bool) :
    (⟨some name, immediate, .compiled words⟩ : Word Ext).listing =
      .ok (Text.unwords (":" :: name :: spellings ++ [";"])) := by
  have hparts := joinParts_map_some (":" :: name :: spellings ++ [";"])
  rw [List.map_append, List.map_cons, List.map_cons] at hparts
  show (words.mapM Entry.spelling >>= fun spellings =>
    Entry.joinParts (some ":" :: some name :: spellings ++ [some ";"])) = _
  rw [h]
  exact hparts

/-- A compiled word can be listed if the words of its thread can be spelled. -/
theorem Entry.describe_compiled {words : List (Word Ext)}
    (h : ∀ w ∈ words, ∃ spelling, w.spelling = .ok (some spelling)) (name : String)
    (immediate : Bool) :
    ∃ listing, (⟨some name, immediate, .compiled words⟩ : Word Ext).describe = .ok listing := by
  obtain ⟨spellings, hs⟩ := mapM_spelling h
  rw [Entry.describe, Entry.listing_compiled hs name immediate]
  exact ⟨_, rfl⟩

/-- Every word of a definition can be spelled. -/
theorem Machine.spelling_of_captured {m : Machine Ext} (hm : m.dictionary.Native)
    {tokens : List String} {words : List (Word Ext)} (h : captured m.resolve tokens = .ok words) :
    ∀ w ∈ words, ∃ spelling, w.spelling = .ok (some spelling) := by
  intro w hw
  obtain ⟨token, _, hr, _⟩ := resolve_of_mem_captured h hw
  exact spelling_of_resolve hm hr

/-! ## Compiling -/

/-- A comment drops a line at every depth of nesting. -/
theorem perform_comment [Extension Ext] (depth : Nat) :
    perform depth (.comment : Primitive Ext) = Action.skipLine := by
  cases depth <;> rfl

theorem run_comment [Extension Ext] (depth : Nat) (m : Machine Ext) :
    (Body.primitive .comment).run (perform depth) m =
      .ok () { m with pending := Input.skipLine m.pending } := by
  rw [Body.run_primitive, perform_comment]
  rfl

namespace Action

section Tokens

variable {perform : Performer Ext} {token : String} {rest : List String} {m : Machine Ext}
  {fault : Fault} {w : Word Ext}

theorem compileWords_of_error (h : m.resolve token = .error fault) :
    compileWords perform (token :: rest) m = .error fault m := by
  rw [compileWords, get_bind, h]
  rfl

theorem compileWords_of_unknown (h : m.resolve token = .ok none) :
    compileWords perform (token :: rest) m =
      .error (.unknownWord token) { m with log := .unknownInBody token :: m.log } := by
  rw [compileWords, get_bind, h]
  rfl

theorem compileWords_of_immediate (h : m.resolve token = .ok (some w)) (hw : w.immediate = true) :
    compileWords perform (token :: rest) m =
      (w.body.run perform >>= fun _ => compileWords perform rest) m := by
  rw [compileWords, get_bind, h]
  show (if w.immediate then _ else _ : Action Ext _) m = _
  rw [if_pos hw]

theorem compileWords_of_captured (h : m.resolve token = .ok (some w)) (hw : w.immediate = false) :
    compileWords perform (token :: rest) m =
      (compileWords perform rest >>= fun words => pure (w :: words)) m := by
  rw [compileWords, get_bind, h]
  show (if w.immediate then _ else _ : Action Ext _) m = _
  rw [if_neg (by simp [hw])]

end Tokens

/-- Compiling a body has no effect but to drop a line for each comment, and to log. -/
theorem compileWords_eq [Extension Ext] (depth : Nat) (tokens : List String) {m : Machine Ext}
    (hm : m.dictionary.OnlyComments) :
    ∃ log, compileWords (perform depth) tokens m =
      ofExcept (captured m.resolve tokens) { m with
        pending := Input.skipLines (immediates m.resolve tokens) m.pending, log := log } := by
  induction tokens generalizing m with
  | nil => exact ⟨m.log, rfl⟩
  | cons token rest ih =>
    rw [captured, immediates]
    cases hr : m.resolve token with
    | error fault => exact ⟨m.log, compileWords_of_error hr⟩
    | ok w =>
      cases w with
      | none => exact ⟨_, compileWords_of_unknown hr⟩
      | some w =>
        cases hi : w.immediate with
        | true =>
          -- the comment drops a line; what is left to compile resolves as before
          have hrun := run_comment depth m
          rw [← Machine.body_of_resolve hm hr hi] at hrun
          rw [compileWords_of_immediate hr hi, bind_of_ok hrun]
          simp only [hi, if_true]
          exact @ih { m with pending := Input.skipLine m.pending } hm
        | false =>
          rw [compileWords_of_captured hr hi]
          simp only [hi, Bool.false_eq_true, if_false]
          obtain ⟨log, hrest⟩ := ih hm
          refine ⟨log, ?_⟩
          cases hc : captured m.resolve rest with
          | ok words =>
            rw [hc] at hrest
            exact bind_of_ok hrest
          | error fault =>
            rw [hc] at hrest
            exact bind_of_error hrest

/-- How deep words may nest makes no difference to compiling. -/
theorem compileWords_depth [Extension Ext] (depth depth' : Nat) (tokens : List String)
    {m : Machine Ext} (hm : m.dictionary.OnlyComments) :
    compileWords (perform depth) tokens m = compileWords (perform depth') tokens m := by
  induction tokens generalizing m with
  | nil => rfl
  | cons token rest ih =>
    cases hr : m.resolve token with
    | error fault => rw [compileWords_of_error hr, compileWords_of_error hr]
    | ok w =>
      cases w with
      | none => rw [compileWords_of_unknown hr, compileWords_of_unknown hr]
      | some w =>
        cases hi : w.immediate with
        | true =>
          rw [compileWords_of_immediate hr hi, compileWords_of_immediate hr hi,
            Machine.body_of_resolve hm hr hi, bind_of_ok (run_comment depth m),
            bind_of_ok (run_comment depth' m)]
          exact ih hm
        | false =>
          rw [compileWords_of_captured hr hi, compileWords_of_captured hr hi]
          simp only [bind, EStateM.bind, ih hm]

/-! ## Definitions -/

section Definitions

variable {name : String} {tokens : List String} {m : Machine Ext} {words : List (Word Ext)}
  {fault : Fault}

/-- A body whose tokens can all be resolved becomes a word; nothing else changes but the lines that
its comments drop. -/
theorem defineWord_of_captured [Extension Ext] (depth : Nat) (name : String)
    (hm : m.dictionary.Native) (h : captured m.resolve tokens = .ok words) :
    ∃ log, defineWord (perform depth) name tokens m =
      .ok ⟨some name, false, .compiled words⟩ { m with
        pending := Input.skipLines (immediates m.resolve tokens) m.pending
        dictionary := m.dictionary.define name false (.compiled words)
        log := log } := by
  obtain ⟨log, hc⟩ := compileWords_eq depth tokens hm.onlyComments
  obtain ⟨listing, hl⟩ := Entry.describe_compiled (Machine.spelling_of_captured hm h) name false
  rw [h] at hc
  refine ⟨.defined listing :: log, ?_⟩
  rw [defineWord, bind_of_ok hc]
  show (ofExcept (Entry.describe ⟨some name, false, .compiled words⟩) >>= _) _ = _
  rw [hl]
  rfl

/-- A body with a token that cannot be resolved is refused; nothing changes but the lines that the
comments before it drop. -/
theorem defineWord_of_refused [Extension Ext] (depth : Nat) (name : String)
    (hm : m.dictionary.OnlyComments) (h : captured m.resolve tokens = .error fault) :
    ∃ log, defineWord (perform depth) name tokens m =
      .error fault { m with
        pending := Input.skipLines (immediates m.resolve tokens) m.pending, log := log } := by
  obtain ⟨log, hc⟩ := compileWords_eq depth tokens hm
  rw [h] at hc
  exact ⟨log, bind_of_error hc⟩

section Drafts

variable {perform : Performer Ext} {draft : Draft} {n : String} {body b : List String}
  {rest : Input}

theorem collectBody_of_complete
    (h : Draft.completeNamed? name body m.pending = some (n, b, rest)) :
    collectBody perform name body m =
      (defineWord perform n b >>= fun _ => pure ()) { m with
        pending := rest, draft := none } := by
  rw [Draft.completeNamed?] at h
  rw [collectBody, get_bind]
  cases ht : Input.takeBody m.pending with
  | mk more after =>
    rw [ht] at h
    cases after with
    | none => cases h
    | some after =>
      cases h
      rfl

theorem collectBody_of_open (h : Draft.completeNamed? name body m.pending = none) :
    collectBody perform name body m =
      .ok () { m with
        pending := []
        draft := some (.named name (body ++ (Input.takeBody m.pending).1))
        log := .awaitingEnd name :: m.log } := by
  rw [Draft.completeNamed?] at h
  rw [collectBody, get_bind]
  cases ht : Input.takeBody m.pending with
  | mk more after =>
    rw [ht] at h
    cases after with
    | none => rfl
    | some after => cases h

theorem readWord_of_none (h : Input.readWord? m.pending = none) :
    readWord m = .ok none { m with pending := [] } := by
  rw [readWord, h]

theorem readWord_of_some {token : String} (h : Input.readWord? m.pending = some (token, rest)) :
    readWord m = .ok (some token) { m with pending := rest } := by
  rw [readWord, h]

/-- With the end of a definition in sight, it is made. -/
theorem resumeDefinition_of_complete (h : draft.complete? m.pending = some (n, b, rest)) :
    resumeDefinition perform draft m =
      (defineWord perform n b >>= fun _ => pure ()) { m with
        pending := rest, draft := none } := by
  cases draft with
  | named name body => exact collectBody_of_complete h
  | unnamed =>
    rw [Draft.complete?] at h
    cases hr : Input.readWord? m.pending with
    | none =>
      rw [hr] at h
      cases h
    | some read =>
      rw [hr] at h
      rw [resumeDefinition, bind_of_ok (readWord_of_some hr)]
      exact collectBody_of_complete h

/-- Without it, all that is pending is collected. -/
theorem resumeDefinition_of_open (h : draft.complete? m.pending = none) :
    resumeDefinition perform draft m =
      .ok () { m with
        pending := []
        draft := some (draft.extend m.pending)
        log := (draft.extend m.pending).awaits :: m.log } := by
  cases draft with
  | named name body => exact collectBody_of_open h
  | unnamed =>
    rw [Draft.complete?] at h
    rw [resumeDefinition, Draft.extend]
    cases hr : Input.readWord? m.pending with
    | none =>
      rw [bind_of_ok (readWord_of_none hr)]
      rfl
    | some read =>
      rw [hr] at h
      rw [bind_of_ok (readWord_of_some hr)]
      exact collectBody_of_open h

end Drafts

/-! ## The three ways of a definition -/

section Ways

variable [Extension Ext] {draft : Draft} {body : List String} {rest : Input}

/-- How deep words may nest makes no difference to a definition. -/
theorem resumeDefinition_depth (depth depth' : Nat) (draft : Draft)
    (hm : m.dictionary.OnlyComments) :
    resumeDefinition (perform depth) draft m = resumeDefinition (perform depth') draft m := by
  cases h : draft.complete? m.pending with
  | none => rw [resumeDefinition_of_open h, resumeDefinition_of_open h]
  | some completion =>
    obtain ⟨name, body, rest⟩ := completion
    rw [resumeDefinition_of_complete h, resumeDefinition_of_complete h]
    have hc := @compileWords_depth Ext _ depth depth' body
      { m with pending := rest, draft := none } hm
    simp only [defineWord, bind, EStateM.bind, hc]

/-- The word that starts a definition goes on with one that has nothing yet. -/
theorem performer_define (hm : m.dictionary.OnlyComments) :
    Machine.performer .define m = resumeDefinition Machine.performer .unnamed m :=
  resumeDefinition_depth _ nestingLimit .unnamed hm

/-- A definition that is complete and can be compiled is made. -/
theorem resumeDefinition_of_captured (hm : m.dictionary.Native)
    (h : draft.complete? m.pending = some (name, body, rest))
    (hc : captured m.resolve body = .ok words) :
    ∃ log, resumeDefinition Machine.performer draft m =
      .ok () { m with
        pending := Input.skipLines (immediates m.resolve body) rest
        draft := none
        dictionary := m.dictionary.define name false (.compiled words)
        log := log } := by
  obtain ⟨log, hd⟩ := @defineWord_of_captured Ext body
    { m with pending := rest, draft := none } words _ nestingLimit name hm hc
  exact ⟨log, (resumeDefinition_of_complete h).trans (bind_of_ok hd)⟩

/-- A definition that is complete and cannot be compiled is dropped. -/
theorem resumeDefinition_of_refused (hm : m.dictionary.OnlyComments)
    (h : draft.complete? m.pending = some (name, body, rest))
    (hc : captured m.resolve body = .error fault) :
    ∃ log, resumeDefinition Machine.performer draft m =
      .error fault { m with
        pending := Input.skipLines (immediates m.resolve body) rest
        draft := none
        log := log } := by
  obtain ⟨log, hd⟩ := @defineWord_of_refused Ext body
    { m with pending := rest, draft := none } fault _ nestingLimit name hm hc
  exact ⟨log, (resumeDefinition_of_complete h).trans (bind_of_error hd)⟩

end Ways

end Definitions

end Action

end ThreadedForth
