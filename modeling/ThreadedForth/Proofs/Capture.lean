import ThreadedForth.Proofs.Compilation
import ThreadedForth.Session

/-!
# Immediate words are never captured

An immediate word runs while a definition is compiled, and leaves no trace in its body. This file
proves the following.
* Compiling is running the immediate words: `compileWords_eq_ok_iff` says of every compilation that
  returns which words ran, on which machine each token was resolved, and what was captured.
* No word of a session has an immediate word in its threads, at whatever depth
  (`freeOfImmediates_machineAfter`). The flag may be set, copied and taken back by the host, and
  immediate words may define words of their own while they run.

The second part is a small logic of actions. `Action.Yields` says that an action keeps the dictionary
free of captured immediates, and what is known of its value; it is shown for each primitive, given
the same of the words nested in it, and so by the depth of nesting for all of them.
-/

namespace ThreadedForth

variable {Ext α β : Type}

/-- The word stands in a thread of the body, at whatever depth. -/
inductive Body.Captures : Body Ext → Word Ext → Prop
  | here {words : List (Word Ext)} {w : Word Ext} : w ∈ words → Captures (.compiled words) w
  | deeper {words : List (Word Ext)} {u w : Word Ext} :
      u ∈ words → Captures u.body w → Captures (.compiled words) w

/-- No immediate word stands in a thread of the body. -/
def Body.FreeOfImmediates (body : Body Ext) : Prop :=
  ∀ w, body.Captures w → w.immediate = false

/-- No word of the dictionary has an immediate word in its threads. -/
def Dictionary.FreeOfImmediates (d : Dictionary Ext) : Prop :=
  ∀ ⦃name : String⦄ ⦃w : Word Ext⦄, d.lookup name = some w → w.body.FreeOfImmediates

/-! ## Compiling runs the immediate words -/

namespace Action

/-- Runs the immediate ones among the words, from left to right. -/
def runImmediates (perform : Performer Ext) (words : List (Word Ext)) : Action Ext Unit :=
  (words.filter Entry.immediate).forM fun w => w.body.run perform

/-- Each token resolves to the word beside it once the immediate words before it have run. -/
def ResolvedInTurn (perform : Performer Ext) (m : Machine Ext) (tokens : List String)
    (resolved : List (Word Ext)) : Prop :=
  resolved.length = tokens.length ∧
    ∀ i token w, tokens[i]? = some token → resolved[i]? = some w →
      ∃ mᵢ, runImmediates perform (resolved.take i) m = .ok () mᵢ ∧
        mᵢ.resolve token = .ok (some w)

section Compiling

variable {perform : Performer Ext} {w : Word Ext} {rest words : List (Word Ext)}
  {m m₁ m' : Machine Ext} {token : String} {tokens : List String}

theorem runImmediates_cons_of_immediate (hw : w.immediate = true) :
    runImmediates perform (w :: rest) =
      (w.body.run perform >>= fun _ => runImmediates perform rest) := by
  unfold runImmediates
  rw [List.filter_cons_of_pos hw]
  rfl

theorem runImmediates_cons_of_captured (hw : w.immediate = false) :
    runImmediates perform (w :: rest) = runImmediates perform rest := by
  unfold runImmediates
  rw [List.filter_cons_of_neg (by simp [hw])]

/-- A token and its word come first if the token resolves to the word at once, and the others go on
after the word. -/
theorem resolvedInTurn_cons_iff :
    ResolvedInTurn perform m (token :: tokens) (w :: rest) ↔
      m.resolve token = .ok (some w) ∧ rest.length = tokens.length ∧
        ∀ i t u, tokens[i]? = some t → rest[i]? = some u →
          ∃ mᵢ, runImmediates perform (w :: rest.take i) m = .ok () mᵢ ∧
            mᵢ.resolve t = .ok (some u) := by
  constructor
  · rintro ⟨hlength, hturn⟩
    obtain ⟨m₀, hrun, hresolve⟩ := hturn 0 token w rfl rfl
    cases hrun
    exact ⟨hresolve, by simpa using hlength, fun i t u ht hu => hturn (i + 1) t u ht hu⟩
  · rintro ⟨hresolve, hlength, hturn⟩
    refine ⟨by simpa using hlength, fun i t u ht hu => ?_⟩
    cases i with
    | zero =>
      cases ht
      cases hu
      exact ⟨m, rfl, hresolve⟩
    | succ i => exact hturn i t u ht hu

theorem resolvedInTurn_cons_of_immediate (hw : w.immediate = true)
    (hrun : w.body.run perform m = .ok () m₁) :
    ResolvedInTurn perform m (token :: tokens) (w :: rest) ↔
      m.resolve token = .ok (some w) ∧ ResolvedInTurn perform m₁ tokens rest := by
  rw [resolvedInTurn_cons_iff, ResolvedInTurn]
  simp only [runImmediates_cons_of_immediate hw, bind_of_ok hrun]

theorem resolvedInTurn_cons_of_captured (hw : w.immediate = false) :
    ResolvedInTurn perform m (token :: tokens) (w :: rest) ↔
      m.resolve token = .ok (some w) ∧ ResolvedInTurn perform m tokens rest := by
  rw [resolvedInTurn_cons_iff, ResolvedInTurn]
  simp only [runImmediates_cons_of_captured hw]

/-- What compiling can do with the first token, if it returns. -/
theorem compileWords_cons_eq_ok_iff :
    compileWords perform (token :: tokens) m = .ok words m' ↔
      ∃ w, m.resolve token = .ok (some w) ∧
        ((w.immediate = true ∧ ∃ m₁, w.body.run perform m = .ok () m₁ ∧
            compileWords perform tokens m₁ = .ok words m') ∨
          (w.immediate = false ∧ ∃ more, compileWords perform tokens m = .ok more m' ∧
            words = w :: more)) := by
  rcases hr : m.resolve token with fault | found
  · simp [compileWords_of_error hr]
  rcases found with _ | w
  · simp [compileWords_of_unknown hr]
  cases hw : w.immediate with
  | true =>
    rw [compileWords_of_immediate hr hw, bind_eq_ok_iff]
    constructor
    · rintro ⟨_, m₁, hrun, hrest⟩
      exact ⟨w, rfl, .inl ⟨hw, m₁, hrun, hrest⟩⟩
    · rintro ⟨_, ⟨⟩, ⟨_, m₁, hrun, hrest⟩ | ⟨hw', _⟩⟩
      · exact ⟨(), m₁, hrun, hrest⟩
      · cases hw.symm.trans hw'
  | false =>
    rw [compileWords_of_captured hr hw, bind_eq_ok_iff]
    constructor
    · rintro ⟨more, m₁, hrun, ⟨⟩⟩
      exact ⟨w, rfl, .inr ⟨hw, more, hrun, rfl⟩⟩
    · rintro ⟨_, ⟨⟩, ⟨hw', _⟩ | ⟨_, more, hrun, rfl⟩⟩
      · cases hw.symm.trans hw'
      · exact ⟨more, m', hrun, rfl⟩

/-- What compiling returns, and what it leaves: the tokens are resolved in turn, the words that are
not immediate are captured, and the immediate ones have run, once each and in order. -/
theorem compileWords_eq_ok_iff :
    compileWords perform tokens m = .ok words m' ↔
      ∃ resolved, ResolvedInTurn perform m tokens resolved ∧
        words = resolved.filter (fun w => !w.immediate) ∧
        runImmediates perform resolved m = .ok () m' := by
  induction tokens generalizing m words with
  | nil =>
    constructor
    · rintro ⟨⟩
      exact ⟨[], ⟨rfl, fun i _ _ h => by simp at h⟩, rfl, rfl⟩
    · rintro ⟨resolved, hturn, rfl, hrun⟩
      obtain rfl := List.length_eq_zero_iff.1 hturn.1
      cases hrun
      rfl
  | cons token tokens ih =>
    rw [compileWords_cons_eq_ok_iff]
    constructor
    · rintro ⟨w, hr, ⟨hw, m₁, hrun, hrest⟩ | ⟨hw, more, hrest, rfl⟩⟩
      · obtain ⟨resolved, hturn, rfl, himmediates⟩ := ih.1 hrest
        refine ⟨w :: resolved, (resolvedInTurn_cons_of_immediate hw hrun).2 ⟨hr, hturn⟩, ?_, ?_⟩
        · simp [hw]
        · rw [runImmediates_cons_of_immediate hw, bind_of_ok hrun, himmediates]
      · obtain ⟨resolved, hturn, rfl, himmediates⟩ := ih.1 hrest
        refine ⟨w :: resolved, (resolvedInTurn_cons_of_captured hw).2 ⟨hr, hturn⟩, ?_, ?_⟩
        · simp [hw]
        · rw [runImmediates_cons_of_captured hw, himmediates]
    · rintro ⟨_ | ⟨w, rest⟩, hturn, rfl, hrun⟩
      · cases hturn.1
      cases hw : w.immediate with
      | true =>
        rw [runImmediates_cons_of_immediate hw, bind_eq_ok_iff] at hrun
        obtain ⟨_, m₁, hbody, hrun⟩ := hrun
        obtain ⟨hr, hturn⟩ := (resolvedInTurn_cons_of_immediate hw hbody).1 hturn
        exact ⟨w, hr, .inl ⟨hw, m₁, hbody, ih.2 ⟨rest, hturn, by simp [hw], hrun⟩⟩⟩
      | false =>
        rw [runImmediates_cons_of_captured hw] at hrun
        obtain ⟨hr, hturn⟩ := (resolvedInTurn_cons_of_captured hw).1 hturn
        exact ⟨w, hr, .inr ⟨hw, _, ih.2 ⟨rest, hturn, rfl, hrun⟩, by simp [hw]⟩⟩

end Compiling

end Action

/-! ## Bodies and dictionaries -/

theorem Body.freeOfImmediates_primitive (p : Primitive Ext) :
    (Body.primitive p).FreeOfImmediates := by
  rintro w ⟨⟩

theorem Body.freeOfImmediates_literal (v : Int) : (Body.literal v : Body Ext).FreeOfImmediates := by
  rintro w ⟨⟩

/-- A word that may stand in a thread. -/
def Entry.Capturable (w : Word Ext) : Prop :=
  w.immediate = false ∧ w.body.FreeOfImmediates

theorem Body.freeOfImmediates_compiled {words : List (Word Ext)}
    (h : ∀ w ∈ words, w.Capturable) : (Body.compiled words).FreeOfImmediates := by
  intro w hw
  cases hw with
  | here hmem => exact (h w hmem).1
  | deeper hmem hw => exact (h _ hmem).2 w hw

namespace Dictionary.FreeOfImmediates

variable {d : Dictionary Ext}

theorem define (h : d.FreeOfImmediates) {body : Body Ext} (hbody : body.FreeOfImmediates)
    (name : String) (immediate : Bool) : (d.define name immediate body).FreeOfImmediates :=
  forall_lookup_define h hbody

theorem of_builtin : (builtin : Dictionary Ext).FreeOfImmediates := by
  intro name w hw
  cases builtin_of_lookup name w hw <;> exact Body.freeOfImmediates_primitive _

end Dictionary.FreeOfImmediates

/-- What a token resolves to may stand in a thread, unless it is immediate. -/
theorem Machine.capturable_of_resolve {m : Machine Ext} (hm : m.dictionary.FreeOfImmediates)
    {token : String} {w : Word Ext} (h : m.resolve token = .ok (some w))
    (hw : w.immediate = false) : w.Capturable := by
  obtain hl | ⟨v, _, rfl⟩ := resolve_cases h
  · exact ⟨hw, hm hl⟩
  · exact ⟨hw, Body.freeOfImmediates_literal v⟩

/-! ## Actions that keep a dictionary free of captured immediates -/

namespace Action

/-- The result leaves no captured immediates in the dictionary, and its value, if there is one, is as
it should be. -/
inductive Kept (Q : α → Prop) : EStateM.Result Fault (Machine Ext) α → Prop
  | returned {x : α} {m : Machine Ext} : m.dictionary.FreeOfImmediates → Q x → Kept Q (.ok x m)
  | stopped {fault : Fault} {m : Machine Ext} :
      m.dictionary.FreeOfImmediates → Kept Q (.error fault m)

/-- The action keeps a dictionary free of captured immediates, and returns what it should. -/
def Yields (Q : α → Prop) (a : Action Ext α) : Prop :=
  ∀ m, m.dictionary.FreeOfImmediates → Kept Q (a m)

/-- The action keeps a dictionary free of captured immediates. -/
abbrev Upholds (a : Action Ext α) : Prop :=
  a.Yields fun _ => True

variable {Q : α → Prop} {R : β → Prop}

theorem Kept.after {a : Action Ext α} {m : Machine Ext} (h : Kept Q (a m)) :
    (a.after m).dictionary.FreeOfImmediates := by
  unfold Action.after
  generalize a m = result at h
  cases h with
  | returned hm _ => exact hm
  | stopped hm => exact hm

theorem Yields.bind {a : Action Ext α} {f : α → Action Ext β} (ha : a.Yields Q)
    (hf : ∀ x, Q x → (f x).Yields R) : (a >>= f).Yields R := by
  intro m hm
  have h := ha m hm
  cases hrun : a m with
  | ok x m' =>
    rw [hrun] at h
    rw [bind_of_ok hrun]
    cases h with
    | returned hm' hx => exact hf x hx m' hm'
  | error fault m' =>
    rw [hrun] at h
    rw [bind_of_error hrun]
    cases h with
    | stopped hm' => exact .stopped hm'

theorem yields_pure {x : α} (hx : Q x) : (pure x : Action Ext α).Yields Q :=
  fun _ hm => .returned hm hx

theorem upholds_pure (x : α) : (pure x : Action Ext α).Upholds :=
  yields_pure trivial

theorem yields_throw (fault : Fault) : (throw fault : Action Ext α).Yields Q :=
  fun _ hm => .stopped hm

theorem yields_ofExcept (result : Except Fault α) :
    (ofExcept result : Action Ext α).Yields fun x => result = .ok x := by
  cases result with
  | ok x => exact yields_pure rfl
  | error fault => exact yields_throw fault

/-- A look at the machine shows a dictionary free of captured immediates. -/
theorem yields_get : (get : Action Ext (Machine Ext)).Yields fun m => m.dictionary.FreeOfImmediates :=
  fun _ hm => .returned hm hm

theorem upholds_set {m : Machine Ext} (h : m.dictionary.FreeOfImmediates) :
    (set m : Action Ext PUnit).Upholds :=
  fun _ _ => .returned h trivial

theorem upholds_modify {f : Machine Ext → Machine Ext}
    (h : ∀ m, m.dictionary.FreeOfImmediates → (f m).dictionary.FreeOfImmediates) :
    (modify f : Action Ext PUnit).Upholds :=
  fun m hm => .returned (h m hm) trivial

/-- What leaves the dictionary as it is keeps it free of captured immediates. -/
theorem upholds_of_dictionary_eq {a : Action Ext α}
    (h : ∀ m, (a.after m).dictionary = m.dictionary) : a.Upholds := by
  intro m hm
  have hafter := h m
  unfold Action.after at hafter
  cases hrun : a m with
  | ok x m' =>
    rw [hrun] at hafter
    exact .returned (hafter ▸ hm) trivial
  | error fault m' =>
    rw [hrun] at hafter
    exact .stopped (hafter ▸ hm)

theorem Contained.upholds {lists : Bool} {a : Action Ext Unit} (h : Contained lists a) :
    a.Upholds := by
  refine upholds_of_dictionary_eq fun m => ?_
  obtain ⟨ending, stack, text, hrun⟩ := h m
  rw [after_of_endWith (hrun m ⟨rfl, rfl, fun _ => rfl⟩)]
  rfl

theorem upholds_forM {ι : Type} {f : ι → Action Ext Unit} {xs : List ι}
    (h : ∀ x ∈ xs, (f x).Upholds) : (xs.forM f).Upholds := by
  induction xs with
  | nil => exact upholds_pure ()
  | cons x xs ih =>
    have hx : (f x).Upholds := h x List.mem_cons_self
    exact hx.bind fun _ _ => ih fun y hy => h y (List.mem_cons_of_mem x hy)

/-! ## Small actions -/

theorem upholds_note (event : Event) : (note event : Action Ext Unit).Upholds :=
  upholds_modify fun _ hm => hm

theorem upholds_write (text : String) : (write text : Action Ext Unit).Upholds :=
  upholds_modify fun _ hm => hm

theorem upholds_queue (text : String) : (queue text : Action Ext Unit).Upholds :=
  upholds_modify fun _ hm => hm

theorem upholds_pushCell (v : Int) : (pushCell v : Action Ext Unit).Upholds :=
  upholds_modify fun _ hm => hm

theorem upholds_readWord : (readWord : Action Ext (Option String)).Upholds := by
  refine upholds_of_dictionary_eq fun m => ?_
  unfold Action.after readWord
  cases Input.readWord? m.pending <;> rfl

theorem upholds_define {body : Body Ext} (hbody : body.FreeOfImmediates) (name : String)
    (immediate : Bool) : (define name immediate body : Action Ext (Word Ext)).Upholds :=
  (upholds_modify fun _ hm => hm.define hbody name immediate).bind fun _ _ => upholds_pure _

theorem upholds_copyWord (new old : String) : (copyWord new old : Action Ext (Word Ext)).Upholds := by
  refine yields_get.bind fun m hm => ?_
  cases hl : m.dictionary.lookup old with
  | none => exact yields_throw _
  | some w =>
    exact (upholds_define (hm hl) new w.immediate).bind fun _ _ =>
      (upholds_note _).bind fun _ _ => upholds_pure _

theorem upholds_finish : (finish : Action Ext Unit).Upholds := by
  refine yields_get.bind fun m _ => ?_
  cases m.draft with
  | none => exact upholds_pure ()
  | some draft =>
    refine Yields.bind (upholds_modify fun _ hm => hm) fun _ _ => ?_
    cases draft <;> exact yields_throw _

theorem upholds_resetInput : (resetInput : Action Ext Unit).Upholds :=
  upholds_modify fun _ hm => hm

theorem upholds_push (values : List Number.Datum) : (push values : Action Ext Unit).Upholds := by
  induction values with
  | nil => exact upholds_pure ()
  | cons datum rest ih =>
    refine (yields_ofExcept _).bind fun v _ => yields_get.bind fun m _ => ?_
    exact (upholds_pushCell _).bind fun _ _ => ih

theorem upholds_pop : (pop : Action Ext (Option Int)).Upholds := by
  refine upholds_of_dictionary_eq fun m => ?_
  unfold Action.after pop
  cases m.stack <;> rfl

theorem upholds_require (word : String) (count : Int) :
    (require word count : Action Ext Unit).Upholds := by
  intro m hm
  unfold require
  split
  · exact .stopped hm
  · exact .returned hm trivial

theorem upholds_popCells (word : String) (count : Int) :
    (popCells word count : Action Ext (List Int)).Upholds := by
  refine (upholds_require word count).bind fun _ _ => yields_get.bind fun m hm => ?_
  refine Yields.bind (upholds_set ?_) fun _ _ => upholds_pure _
  exact hm

/-! ## Around the interpreter -/

theorem upholds_greet (console : Console) : (greet console : Action Ext Unit).Upholds := by
  unfold greet
  split
  · exact upholds_write _
  · exact upholds_pure ()

theorem upholds_recover (fault : Fault) : (recover fault : Action Ext (Option Int)).Upholds := by
  unfold recover
  split
  · exact upholds_pure _
  · exact (upholds_write _).bind fun _ _ => upholds_resetInput.bind fun _ _ => upholds_pure _
  · split
    · exact (upholds_write _).bind fun _ _ => upholds_resetInput.bind fun _ _ => upholds_pure _
    · exact yields_throw _

theorem upholds_conclude : (conclude : Action Ext Int).Upholds := by
  intro m hm
  have hfinish := upholds_finish m hm
  unfold conclude
  generalize finish m = result at hfinish
  cases hfinish with
  | returned hm' _ => exact .returned hm' trivial
  | stopped hm' => exact (upholds_write _).bind (fun _ _ => upholds_pure _) _ hm'

theorem upholds_showPrompt (console : Console) : (showPrompt console : Action Ext String).Upholds := by
  refine yields_get.bind fun m _ => ?_
  show Upholds (if console.echoes then _ else _)
  split
  · exact (upholds_write _).bind fun _ _ => upholds_pure _
  · exact upholds_pure _

/-! ## The interpreter -/

section Performing

variable {perform : Performer Ext} (hperform : ∀ p, (perform p).Upholds)
include hperform

theorem upholds_run (body : Body Ext) : (body.run perform).Upholds := by
  rw [Body.run_eq_forM]
  refine upholds_forM fun leaf _ => ?_
  cases leaf with
  | push v => exact upholds_pushCell v
  | primitive p => exact hperform p

/-- What a definition captures may stand in a thread, whatever the immediate words do on the way. -/
theorem yields_compileWords (tokens : List String) :
    (compileWords perform tokens).Yields fun words => ∀ w ∈ words, w.Capturable := by
  induction tokens with
  | nil => exact yields_pure nofun
  | cons token tokens ih =>
    refine yields_get.bind fun m hm => (yields_ofExcept _).bind fun found hfound => ?_
    cases found with
    | none => exact (upholds_note _).bind fun _ _ => yields_throw _
    | some w =>
      show Yields _ (if w.immediate then _ else _)
      cases hw : w.immediate with
      | true => exact (upholds_run hperform w.body).bind fun _ _ => ih
      | false =>
        refine ih.bind fun words hwords => yields_pure ?_
        exact List.forall_mem_cons.2 ⟨Machine.capturable_of_resolve hm hfound hw, hwords⟩

theorem upholds_defineWord (name : String) (tokens : List String) :
    (defineWord perform name tokens).Upholds := by
  refine (yields_compileWords hperform tokens).bind fun words hwords => ?_
  refine (upholds_define (Body.freeOfImmediates_compiled hwords) name false).bind fun w _ => ?_
  exact (yields_ofExcept _).bind fun _ _ => (upholds_note _).bind fun _ _ => upholds_pure _

theorem upholds_collectBody (name : String) (body : List String) :
    (collectBody perform name body).Upholds := by
  refine yields_get.bind fun m hm => ?_
  split
  · refine Yields.bind (upholds_set ?_) fun _ _ => upholds_note _
    exact hm
  · refine Yields.bind (upholds_set ?_) fun _ _ => ?_
    · exact hm
    · exact (upholds_defineWord hperform name _).bind fun _ _ => upholds_pure _

theorem upholds_resumeDefinition (draft : Draft) : (resumeDefinition perform draft).Upholds := by
  cases draft with
  | named name body => exact upholds_collectBody hperform name body
  | unnamed =>
    refine upholds_readWord.bind fun read _ => ?_
    cases read with
    | none => exact Yields.bind (upholds_modify fun _ hm => hm) fun _ _ => upholds_note _
    | some name => exact upholds_collectBody hperform name []

theorem upholds_interpret (token : String) : (interpret perform token).Upholds := by
  refine yields_get.bind fun m _ => (yields_ofExcept _).bind fun found _ => ?_
  cases found with
  | none => exact (upholds_note _).bind fun _ _ => yields_throw _
  | some w => exact upholds_run hperform w.body

theorem upholds_interpretPending (budget : Nat) : (interpretPending perform budget).Upholds := by
  induction budget with
  | zero => exact yields_throw _
  | succ budget ih =>
    refine yields_get.bind fun m _ => ?_
    split
    · exact upholds_pure ()
    · refine upholds_readWord.bind fun read _ => ?_
      cases read with
      | none => exact upholds_pure ()
      | some token => exact (upholds_interpret hperform token).bind fun _ _ => ih

theorem upholds_eval (text : String) : (eval perform text).Upholds := by
  refine (upholds_queue text).bind fun _ _ => yields_get.bind fun m _ => ?_
  cases m.draft with
  | none => exact yields_get.bind fun _ _ => upholds_interpretPending hperform _
  | some draft =>
    exact (upholds_resumeDefinition hperform draft).bind fun _ _ =>
      yields_get.bind fun _ _ => upholds_interpretPending hperform _

theorem upholds_take (keyed : Keyed) : (take perform keyed).Upholds := by
  cases keyed with
  | line text => exact upholds_eval hperform text
  | interrupt => exact yields_throw _

theorem upholds_respond (keyed : Keyed) : (respond perform keyed).Upholds := by
  intro m hm
  have htake := upholds_take hperform keyed m hm
  unfold respond
  generalize take perform keyed m = result at htake
  cases htake with
  | returned hm' _ => exact .returned hm' trivial
  | stopped hm' => exact upholds_recover _ _ hm'

theorem upholds_converse (console : Console) (script : List Keyed) :
    (converse perform console script).Upholds := by
  induction script with
  | nil =>
    refine (upholds_showPrompt console).bind fun _ _ => ?_
    exact upholds_conclude.bind fun _ _ => upholds_pure _
  | cons keyed rest ih =>
    refine (upholds_showPrompt console).bind fun _ _ => ?_
    refine (upholds_respond hperform keyed).bind fun answer _ => ?_
    cases answer with
    | some code => exact upholds_pure _
    | none => exact ih.bind fun _ _ => upholds_pure _

theorem upholds_dialogue (console : Console) (script : List Keyed) :
    (dialogue perform console script).Upholds :=
  (upholds_greet console).bind fun _ _ => upholds_converse hperform console script

end Performing

/-! ## Sessions -/

theorem upholds_showWord (w : Word Script) : (showWord w).Upholds :=
  (yields_ofExcept _).bind fun _ _ => upholds_pure _

theorem upholds_showWord? (w : Option (Word Script)) : (showWord? w).Upholds := by
  cases w with
  | none => exact upholds_pure _
  | some w => exact upholds_showWord w

theorem Yields.silently {a : Action Script Unit} (ha : a.Upholds) : (silently a).Upholds :=
  ha.bind fun _ _ => upholds_pure _

section Obeying

variable {perform : Performer Script} (hperform : ∀ p, (perform p).Upholds)
include hperform

/-- A body made to a plan has no immediates in its threads. -/
theorem yields_makeBody (plan : BodyPlan) :
    (makeBody perform plan).Yields Body.FreeOfImmediates := by
  cases plan with
  | literal v => exact yields_pure (Body.freeOfImmediates_literal v)
  | compiled tokens =>
    exact (yields_compileWords hperform tokens).bind fun words hwords =>
      yields_pure (Body.freeOfImmediates_compiled hwords)
  | script commands => exact yields_pure (Body.freeOfImmediates_primitive _)

/-- Every command keeps the dictionary free of captured immediates, if the words nested in it do. -/
theorem upholds_obey (command : Command) : (obey perform command).Upholds := by
  cases command with
  | eval text => exact (upholds_eval hperform text).silently
  | execute text =>
    exact ((upholds_eval hperform text).bind fun _ _ => upholds_finish).silently
  | finish => exact upholds_finish.silently
  | resetInput => exact upholds_resetInput.silently
  | push values => exact (upholds_push values).silently
  | pop => exact upholds_pop.bind fun _ _ => upholds_pure _
  | dialogue script greets prompt =>
    exact (upholds_dialogue hperform _ script).bind fun _ _ => upholds_pure _
  | defineWord name tokens =>
    exact (upholds_defineWord hperform name tokens).bind fun w _ => upholds_showWord w
  | define name plan immediate =>
    refine (yields_makeBody hperform plan).bind fun body hbody => ?_
    exact (upholds_define hbody name immediate).bind fun w _ => upholds_showWord w
  | copyWord new old => exact (upholds_copyWord new old).bind fun w _ => upholds_showWord w
  | lookup name => exact yields_get.bind fun _ _ => upholds_showWord? _
  | resolve token =>
    exact yields_get.bind fun _ _ => (yields_ofExcept _).bind fun w _ => upholds_showWord? w
  | interpret token => exact (upholds_interpret hperform token).silently
  | stackText | dump | literal =>
    exact yields_get.bind fun _ _ => (yields_ofExcept _).bind fun _ _ => upholds_pure _
  | peek | contains | wrap | limits => exact yields_get.bind fun _ _ => upholds_pure _
  | queue text => exact (upholds_queue text).silently
  | readWord => exact upholds_readWord.bind fun _ _ => upholds_pure _
  | skipLine => exact Yields.silently (upholds_modify fun _ hm => hm)
  | require word count => exact (upholds_require word count).silently
  | popCells word count => exact (upholds_popCells word count).bind fun _ _ => upholds_pure _
  | write text => exact (upholds_write text).silently
  | raise fault => exact yields_throw _

theorem upholds_obeyAll (script : Script) : (obeyAll perform script).Upholds := by
  induction script with
  | nil => exact upholds_pure ()
  | cons command rest ih => exact (upholds_obey hperform command).bind fun _ _ => ih

/-- So does every primitive. -/
theorem upholds_step (p : Primitive Script) : (step perform p).Upholds := by
  cases p with
  | define => exact upholds_resumeDefinition hperform .unnamed
  | comment => exact upholds_modify fun _ hm => hm
  | extension script => exact upholds_obeyAll hperform script
  | _ => exact Contained.upholds (contained_step perform rfl : Contained true _)

end Obeying

/-- However deep words nest. -/
theorem upholds_perform (depth : Nat) (p : Primitive Script) : (perform depth p).Upholds := by
  induction depth generalizing p with
  | zero => exact upholds_step (fun _ => yields_throw _) p
  | succ depth ih => exact upholds_step ih p

end Action

namespace Session

/-- The machine after the commands of a session, whether they fail or not. A session shows it after
each command (`getElem?_runFrom`). -/
def machineAfter (m : Machine Script) (commands : List Command) : Machine Script :=
  commands.foldl
    (fun m command => (Action.obey Machine.performer command).after { m with output := "" }) m

/-- A session goes on from the machine that its first commands leave. -/
theorem runFrom_append (m : Machine Script) (commands more : List Command) :
    runFrom m (commands ++ more) = runFrom m commands ++ runFrom (machineAfter m commands) more := by
  induction commands generalizing m with
  | nil => rfl
  | cons command commands ih =>
    simp only [List.cons_append, runFrom, machineAfter, List.foldl_cons, Action.after]
    cases Action.obey Machine.performer command { m with output := "" } with
    | ok reply m' => exact congrArg _ (ih m')
    | error fault m' => exact congrArg _ (ih m')

theorem length_runFrom (m : Machine Script) (commands : List Command) :
    (runFrom m commands).length = commands.length := by
  induction commands generalizing m with
  | nil => rfl
  | cons command commands ih =>
    rw [runFrom]
    split <;> simp [ih]

/-- What is seen after a command of a session is the machine that the commands so far have left. -/
theorem getElem?_runFrom (m : Machine Script) (before : List Command) (command : Command)
    (behind : List Command) : ∃ reply,
      (runFrom m (before ++ command :: behind))[before.length]? =
        some (.ofMachine (machineAfter m (before ++ [command])) reply) := by
  have hlast : machineAfter m (before ++ [command]) =
      (Action.obey Machine.performer command).after { machineAfter m before with output := "" } := by
    rw [machineAfter, List.foldl_append]
    rfl
  rw [runFrom_append, List.getElem?_append_right (Nat.le_of_eq (length_runFrom m before)),
    length_runFrom, Nat.sub_self, runFrom, hlast, Action.after]
  cases Action.obey Machine.performer command { machineAfter m before with output := "" } with
  | ok reply m' => exact ⟨.ok reply, rfl⟩
  | error fault m' => exact ⟨.error fault, rfl⟩

/-- No command of a session captures an immediate word. -/
theorem freeOfImmediates_machineAfter {m : Machine Script} (hm : m.dictionary.FreeOfImmediates)
    (commands : List Command) : (machineAfter m commands).dictionary.FreeOfImmediates := by
  induction commands generalizing m with
  | nil => exact hm
  | cons command commands ih =>
    exact ih (Action.upholds_obey (Action.upholds_perform nestingLimit) command
      { m with output := "" } hm).after

end Session

/-- Take any session on a fresh interpreter, whether its commands fail or not: in its dictionary no
word has an immediate word in its threads, at whatever depth. And whenever a list of tokens is
compiled without a fault, on whatever machine, each token is resolved after the immediate words
before it have run; the immediate words have run once each and in order, and that is all that has
been done; and the words that are not immediate are what is captured. -/
theorem immediates_run_uncaptured (width : CellWidth) (commands : List Command) :
    (∀ name e, (Session.machineAfter (Machine.fresh width) commands).dictionary.lookup name = some e →
      ∀ w, e.body.Captures w → w.immediate = false) ∧
    ∀ (perform : Performer Script) (tokens : List String) (m : Machine Script)
      (words : List (Word Script)) (m' : Machine Script),
      Action.compileWords perform tokens m = .ok words m' ↔
        ∃ resolved, Action.ResolvedInTurn perform m tokens resolved ∧
          words = resolved.filter (fun w => !w.immediate) ∧
          Action.runImmediates perform resolved m = .ok () m' := by
  refine ⟨fun name e he => ?_, fun perform tokens m words m' => Action.compileWords_eq_ok_iff⟩
  refine Session.freeOfImmediates_machineAfter ?_ commands he
  rw [Machine.fresh_dictionary]
  exact .of_builtin

/-- An immediate word and its copy run once for each time that they stand in a definition, and leave
no trace in it. -/
example :
    let m := Session.machineAfter (Machine.fresh .standard)
      [.define "five" (.literal 5) true, .copyWord "cinq" "five", .eval ": w five 1 cinq five ;"]
    m.stack = [5, 5, 5] ∧
      (m.dictionary.lookup "w").map (fun w => w.describe.toOption) = some (some ": w 1 ;") := by
  decide +kernel

end ThreadedForth
