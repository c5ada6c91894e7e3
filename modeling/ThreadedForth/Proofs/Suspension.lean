import ThreadedForth.Proofs.Collecting
import ThreadedForth.Proofs.Invariants

/-!
# Definitions that the input leaves open

A colon that finds no semicolon collects all that is pending and leaves the definition open. Then no
further word is interpreted; but what stands behind the colon in the thread of its word still runs
(`eval_of_exhausted`). If that has another colon in it, the definition starts anew and what was
collected is lost. So an open definition suspends the evaluation and is kept exactly if its colon
comes last in its thread, as the colon itself does when it is typed in.
-/

namespace ThreadedForth

variable {Ext : Type}

namespace Machine

/-- The machine once a colon has used up all that was pending. -/
def suspended (m : Machine Ext) : Machine Ext :=
  { m with
    pending := []
    draft := some (Draft.unnamed.extend m.pending)
    log := (Draft.unnamed.extend m.pending).awaits :: m.log }

/-- A word with a colon in its thread is not immediate. -/
theorem notImmediate_of_define {m : Machine Ext} (hm : m.dictionary.Native) {token : String}
    {w : Word Ext} (h : m.resolve token = .ok (some w)) (hw : Leaf.primitive .define ∈ w.body.leaves) :
    w.immediate = false := by
  cases hi : w.immediate with
  | false => rfl
  | true =>
    rw [body_of_resolve hm.onlyComments h hi] at hw
    simp [Body.leaves] at hw

variable [Extension Ext]

/-- From the machine on, a colon is about to run on `m'`, with the leaves `behind` it in the thread
of its word. -/
inductive ComesToColon : Machine Ext → List (Leaf Ext) → Machine Ext → Prop
  | now {m m' : Machine Ext} {token : String} {rest : Input} {w : Word Ext}
      {before behind : List (Leaf Ext)} :
      m.draft = none → Input.readWord? m.pending = some (token, rest) →
      m.resolve token = .ok (some w) →
      w.body.leaves = before ++ .primitive .define :: behind →
      before.forM (Leaf.run performer) { m with pending := rest } = .ok () m' →
      ComesToColon m behind m'
  | later {m m₁ m' : Machine Ext} {behind : List (Leaf Ext)} :
      m.turn? = some m₁ → ComesToColon m₁ behind m' → ComesToColon m behind m'

/-- Running the leaves comes to a colon. -/
def Restarts (m : Machine Ext) (leaves : List (Leaf Ext)) : Prop :=
  ∃ before behind m', leaves = before ++ .primitive .define :: behind ∧
    before.forM (Leaf.run performer) m = .ok () m'

end Machine

namespace Action

variable [Extension Ext] {m m₁ m' : Machine Ext} {leaf : Leaf Ext} {behind : List (Leaf Ext)}

/-! ## What runs behind a colon -/

theorem run_define_of_exhausted (hm : m.dictionary.OnlyComments)
    (h : Draft.unnamed.complete? m.pending = none) :
    (Leaf.primitive .define).run Machine.performer m = .ok () m.suspended :=
  (performer_define hm).trans (resumeDefinition_of_open h)

theorem restarts_define : m.Restarts (.primitive .define :: behind) :=
  ⟨[], behind, m, rfl, rfl⟩

theorem not_restarts_nil : ¬ m.Restarts [] := by
  rintro ⟨before, rest, _, hsplit, _⟩
  cases before <;> cases hsplit

/-- Before a colon can be come to, what stands in front of it has to return. -/
theorem restarts_cons (hleaf : leaf ≠ .primitive .define) (h : m.Restarts (leaf :: behind)) :
    ∃ m₁, leaf.run Machine.performer m = .ok () m₁ ∧ m₁.Restarts behind := by
  obtain ⟨before, rest, m', hsplit, hrun⟩ := h
  cases before with
  | nil =>
    cases hsplit
    exact absurd rfl hleaf
  | cons first before =>
    obtain ⟨rfl, rfl⟩ := List.cons.inj hsplit
    cases hfirst : leaf.run Machine.performer m with
    | error fault m₁ =>
      rw [forM_cons_of_error hfirst] at hrun
      cases hrun
    | ok _ m₁ =>
      rw [forM_cons_of_ok hfirst] at hrun
      exact ⟨m₁, rfl, before, rest, m', rfl, hrun⟩

theorem not_restarts_of_error {fault : Fault} (hleaf : leaf ≠ .primitive .define)
    (h : leaf.run Machine.performer m = .error fault m₁) : ¬ m.Restarts (leaf :: behind) := by
  intro hrestarts
  obtain ⟨m₂, hok, _⟩ := restarts_cons hleaf hrestarts
  exact nomatch h.symm.trans hok

theorem restarts_iff_of_ok (hleaf : leaf ≠ .primitive .define)
    (h : leaf.run Machine.performer m = .ok () m₁) :
    m.Restarts (leaf :: behind) ↔ m₁.Restarts behind := by
  constructor
  · intro hrestarts
    obtain ⟨m₂, hok, hbehind⟩ := restarts_cons hleaf hrestarts
    cases h.symm.trans hok
    exact hbehind
  · rintro ⟨before, rest, m', rfl, hrun⟩
    exact ⟨leaf :: before, rest, m', rfl, (forM_cons_of_ok h).trans hrun⟩

/-- On a machine that waits, leaves leave nothing pending and a definition open: a new one if they
come to a colon, and otherwise the same. -/
theorem draft_after_leaves {draft : Draft} (hm : m.dictionary.Native) (hp : m.pending = [])
    (hd : m.draft = some draft) (hbehind : ∀ leaf ∈ behind, leaf.isPlain = true) :
    ((behind.forM (Leaf.run Machine.performer)).after m).pending = [] ∧
      ((m.Restarts behind ∧
          ((behind.forM (Leaf.run Machine.performer)).after m).draft = some .unnamed) ∨
        (¬ m.Restarts behind ∧
          ((behind.forM (Leaf.run Machine.performer)).after m).draft = some draft)) := by
  induction behind generalizing m draft with
  | nil => exact ⟨hp, .inr ⟨not_restarts_nil, hd⟩⟩
  | cons leaf behind ih =>
    obtain ⟨hplain, hrest⟩ := List.forall_mem_cons.1 hbehind
    rw [forM_cons]
    by_cases hdefine : leaf = .primitive .define
    · -- from here on the definition has neither name nor body, whatever else runs
      subst hdefine
      have hopen : Draft.unnamed.complete? m.pending = none := by
        rw [hp]
        rfl
      have hdraft : m.suspended.draft = some .unnamed := by
        rw [Machine.suspended, hp]
        rfl
      rw [after_congr (bind_of_ok (run_define_of_exhausted hm.onlyComments hopen))]
      obtain ⟨hp', ⟨_, hd'⟩ | ⟨_, hd'⟩⟩ := @ih m.suspended .unnamed hm rfl hdraft hrest
      · exact ⟨hp', .inl ⟨restarts_define, hd'⟩⟩
      · exact ⟨hp', .inl ⟨restarts_define, hd'⟩⟩
    · obtain ⟨ending, stack, text, hrun⟩ :=
        Leaf.run_contained nestingLimit (Leaf.isContained_of_isPlain hplain hdefine) m
      have hrun : leaf.run Machine.performer m = endWith ending (m.withEffect stack text) :=
        hrun m ⟨rfl, rfl, fun _ => rfl⟩
      cases ending with
      | some fault =>
        rw [after_of_error (bind_of_error hrun)]
        exact ⟨hp, .inr ⟨not_restarts_of_error hdefine hrun, hd⟩⟩
      | none =>
        rw [after_congr (bind_of_ok hrun), restarts_iff_of_ok hdefine hrun]
        exact @ih (m.withEffect stack text) draft hm hp hd hrest

/-- After leaves that find a definition open, no further word is interpreted. -/
theorem leaves_then_drain {draft : Draft} (hm : m.dictionary.Native) (hp : m.pending = [])
    (hd : m.draft = some draft) (hbehind : ∀ leaf ∈ behind, leaf.isPlain = true) :
    (behind.forM (Leaf.run Machine.performer) >>= fun _ => drain) m =
      behind.forM (Leaf.run Machine.performer) m := by
  have hdraft := (draft_after_leaves hm hp hd hbehind).2
  cases hrun : behind.forM (Leaf.run Machine.performer) m with
  | error fault m' => exact bind_of_error hrun
  | ok _ m' =>
    rw [after_of_ok hrun] at hdraft
    rw [bind_of_ok hrun]
    obtain ⟨_, hd'⟩ | ⟨_, hd'⟩ := hdraft
    · exact drain_of_open hd'
    · exact drain_of_open hd'

/-! ## Coming to a colon -/

variable {width : CellWidth} {tokens : List String}

/-- What a turn can do: it completes the open definition, or interprets a word. -/
theorem turn?_cases (h : m.turn? = some m₁) :
    (∃ draft, m.draft = some draft ∧ draft.complete? m.pending ≠ none ∧
      resumeDefinition Machine.performer draft m = .ok () m₁) ∨
    ∃ token rest, m.draft = none ∧ Input.readWord? m.pending = some (token, rest) ∧
      interpret Machine.performer token { m with pending := rest } = .ok () m₁ := by
  rw [Machine.turn?] at h
  split at h
  · next draft hd =>
    obtain ⟨completion, hcomplete, hreturns⟩ := Option.bind_eq_some_iff.1 h
    exact .inl ⟨draft, hd, by simp [hcomplete], eq_ok_of_returns? hreturns⟩
  · next hd =>
    obtain ⟨⟨token, rest⟩, hread, hreturns⟩ := Option.bind_eq_some_iff.1 h
    exact .inr ⟨token, rest, hd, hread, eq_ok_of_returns? hreturns⟩

/-- After a turn it is for the loop to go on. -/
theorem proceed_of_turn? (hm : m.dictionary.Native) (h : m.turn? = some m₁) :
    proceed m = drain m₁ := by
  obtain ⟨draft, hd, _, hrun⟩ | ⟨token, rest, hd, hread, hrun⟩ := turn?_cases h
  · rw [proceed_of_open hd, bind_of_ok hrun]
  · rw [proceed_of_closed hd, drain_of_some hm hd hread, bind_of_ok hrun]

theorem sound_of_turn? (hm : { m with draft := none }.Sound width tokens)
    (hdraft : ∀ draft, m.draft = some draft → draft.Clean tokens) (h : m.turn? = some m₁) :
    m₁.Sound width tokens := by
  obtain ⟨draft, hd, _, hrun⟩ | ⟨token, rest, hd, hread, hrun⟩ := turn?_cases h
  · rw [← after_of_ok hrun]
    exact (settles_resumeDefinition hm (hdraft draft hd)).sound
  · rw [← hd] at hm
    have hrest := (List.suffix_cons _ _).trans (Input.suffix_of_readWord? hread)
    rw [← after_of_ok hrun]
    exact (settles_interpret (hm.withPending hrest)
      (hm.pending (Input.mem_words_of_readWord? hread))).sound

/-- A machine that waits comes to no colon. -/
theorem draft_of_comesToColon (h : m.ComesToColon behind m') (hm : m.Sound width tokens) :
    m.draft = none := by
  cases h with
  | now hd => exact hd
  | later hturn =>
    obtain ⟨draft, hd, hcomplete, _⟩ | ⟨_, _, hd, _⟩ := turn?_cases hturn
    · rw [(hm.draft draft hd).1] at hcomplete
      exact absurd (Draft.complete?_of_words_nil rfl draft) hcomplete
    · exact hd

/-- What is left of the evaluation once it has come to a colon. -/
theorem proceed_of_comesToColon (h : m.ComesToColon behind m')
    (hm : { m with draft := none }.Sound width tokens)
    (hdraft : ∀ draft, m.draft = some draft → draft.Clean tokens) :
    m'.dictionary.Native ∧ (∀ leaf ∈ behind, leaf.isPlain = true) ∧
      proceed m = ((Leaf.primitive .define :: behind).forM (Leaf.run Machine.performer) >>=
        fun _ => drain) m' := by
  induction h with
  | @now m m' token rest w before behind hd hread hresolve hleaves hbefore =>
    have hnative : m.dictionary.Native := hm.native
    have hi := Machine.notImmediate_of_define hnative hresolve (by simp [hleaves])
    have hplain := Machine.plain_of_resolve hnative hresolve hi
    rw [hleaves] at hplain
    have hevo := Evolving.forM
      (fun leaf hleaf => evolving_run_leaf (hplain leaf (List.mem_append_left _ hleaf)))
      { m with pending := rest } hnative
    rw [after_of_ok hbefore] at hevo
    have hword : interpret Machine.performer token { m with pending := rest } =
        (Leaf.primitive .define :: behind).forM (Leaf.run Machine.performer) m' := by
      have hresolve' : Machine.resolve { m with pending := rest } token = .ok (some w) := hresolve
      rw [interpret_of_word hresolve', Body.run_eq_forM, hleaves]
      exact forM_append_of_ok hbefore _
    refine ⟨hevo.native, fun leaf hleaf => hplain leaf (by simp [hleaf]), ?_⟩
    rw [proceed_of_closed hd, drain_of_some hnative hd hread]
    exact bind_congr hword
  | @later m m₁ m' behind hturn hcomes ih =>
    have hm₁ := sound_of_turn? hm hdraft hturn
    have hnative : m.dictionary.Native := hm.native
    rw [proceed_of_turn? hnative hturn, ← proceed_of_closed (draft_of_comesToColon hcomes hm₁)]
    exact ih hm₁.closed fun draft hd => (hm₁.draft draft hd).2

end Action

/-- Take a machine `s` after any texts and a further text, and suppose that interpreting the text
comes to a colon, on the machine `m` and with the leaves `behind` it in the thread of its word, and
that what is pending there does not complete the definition. Then the definition is left open with
the name and the words that were pending (`Machine.suspended`), and all that is done after that is to
run the leaves behind the colon; so if there are none, the evaluation returns at once. In the end
nothing is pending, and the open definition is the one that was collected, unless the leaves come to
another colon; then it has nothing yet. The collected definition goes on with the next text as if
that had been pending too. -/
theorem eval_of_exhausted [Extension Ext] {width : CellWidth} {texts : List String}
    {s : Machine Ext} (hs : s = (Machine.fresh width).afterCalls (texts.map .eval)) {text : String}
    {behind : List (Leaf Ext)} {m : Machine Ext}
    (hcolon : { s with pending := s.pending ++ Input.ofText text }.ComesToColon behind m)
    (hexhausted : Draft.unnamed.complete? m.pending = none) :
    Machine.eval text s = behind.forM (Leaf.run Machine.performer) m.suspended ∧
      (behind = [] → Machine.eval text s = .ok () m.suspended) ∧
      ((Machine.eval text).after s).pending = [] ∧
      (¬ m.suspended.Restarts behind →
        ((Machine.eval text).after s).draft = some (Draft.unnamed.extend m.pending)) ∧
      (m.suspended.Restarts behind → ((Machine.eval text).after s).draft = some .unnamed) ∧
      ∀ more, (Draft.unnamed.extend m.pending).complete? (Input.ofText more) =
        Draft.unnamed.complete? (m.pending ++ Input.ofText more) := by
  obtain ⟨tokens, hsound⟩ := @Machine.sound_afterCalls Ext _ width (texts.map .eval)
  rw [← hs] at hsound
  obtain ⟨hnative, hplain, hproceed⟩ :=
    Action.proceed_of_comesToColon hcolon (hsound.queued text) fun draft hd =>
      (hsound.draft draft hd).2.mono (List.subset_append_left _ _)
  have hdefine := Action.run_define_of_exhausted hnative.onlyComments hexhausted
  have heval : Machine.eval text s = behind.forM (Leaf.run Machine.performer) m.suspended := by
    rw [Action.eval_eq_proceed, hproceed, Action.forM_cons]
    exact (Action.bind_congr (Action.bind_of_ok hdefine)).trans
      (Action.leaves_then_drain hnative rfl rfl hplain)
  obtain ⟨hp, hends⟩ := @Action.draft_after_leaves Ext _ m.suspended behind _ hnative rfl rfl hplain
  rw [← Action.after_congr heval] at hp hends
  refine ⟨heval, ?_, hp, ?_, ?_, fun more => ?_⟩
  · rintro rfl
    exact heval
  · intro hkept
    exact hends.elim (fun h => absurd h.1 hkept) fun h => h.2
  · intro hlost
    exact hends.elim (fun h => h.2) fun h => absurd hlost h.1
  · rw [Draft.complete?_append, hexhausted]

/-- A machine with a word that starts two definitions, and pushes a number in between. -/
def reopening : Machine Empty :=
  (Machine.fresh .standard).afterCalls ([": mk : 5 : ;"].map .eval)

/-- The first definition gets a name and a word, and is lost to the second one. -/
theorem reopening_loses_definition :
    ∃ m, { reopening with
        pending := reopening.pending ++ Input.ofText "mk a 1" }.ComesToColon
          [.push 5, .primitive .define] m ∧
      Draft.unnamed.extend m.pending = .named "a" ["1"] ∧
      ((Machine.eval "mk a 1").after reopening).draft = some .unnamed := by
  have hlookup : (reopening.dictionary.lookup "mk").map (fun w => w.body.leaves) =
      some [.primitive .define, .push 5, .primitive .define] := by
    decide +kernel
  obtain ⟨w, hw, hleaves⟩ := Option.map_eq_some_iff.1 hlookup
  have hcolon : { reopening with
      pending := reopening.pending ++ Input.ofText "mk a 1" }.ComesToColon
        [.push 5, .primitive .define]
        { reopening with pending := [.word "a", .word "1", .lineEnd] } := by
    refine @Machine.ComesToColon.now _ _ _ _ "mk" [.word "a", .word "1", .lineEnd] w [] _
      (by decide +kernel) (by decide +kernel) ?_ hleaves rfl
    simp only [Machine.resolve, hw]
  have hends := eval_of_exhausted (s := reopening) rfl hcolon (by decide +kernel)
  exact ⟨_, hcolon, by decide +kernel, hends.2.2.2.2.1 ⟨[.push 5], [], _, rfl, rfl⟩⟩

/-- The number is pushed while the definition waits, and the next text finds no definition of `a` to
go on with. -/
theorem eval_reopening :
    (Machine.eval "mk a 1").fault? reopening = none ∧
      ((Machine.eval "mk a 1").after reopening).stack = [5] ∧
      (Machine.eval "2 ; a").fault? ((Machine.eval "mk a 1").after reopening) =
        some (.unknownWord "a") := by
  decide +kernel

end ThreadedForth
