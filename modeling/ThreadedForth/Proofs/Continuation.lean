import ThreadedForth.Proofs.Portions
import ThreadedForth.Proofs.Suspension

/-!
# Whatever follows

The words of a text are interpreted in the same way whatever follows them, up to the point where
something has to come from behind. That happens in two ways. A definition that has not come to its
semicolon takes words from behind; alone, the text would have left it open (`Action.Strands`). And
comments of a definition run one after the other, each dropping what is left of a line; if there are
more of them than lines, they go on behind (`Input.skipLines_append_exists`). How many lines they drop
there depends on the text only.

So a text that leaves no definition open is interpreted to its end whatever follows, and of that it
drops a number of lines that is known from the text (`Action.drain_past`); it drops none if it has no
comments (`Machine.Uncommented`).
-/

namespace ThreadedForth

variable {Ext : Type}

namespace Input

/-! ## Lines of what follows -/

/-- A line either ends within the input, or goes on behind it. -/
theorem skipLine_append_cases (q : Input) :
    (∀ r, skipLine (q ++ r) = skipLine q ++ r) ∨
    (skipLine q = [] ∧ ∀ r, skipLine (q ++ r) = skipLine r) := by
  induction q with
  | nil => exact .inr ⟨rfl, fun _ => rfl⟩
  | cons item q ih =>
    cases item with
    | lineEnd => exact .inl fun _ => rfl
    | word token => exact ih

/-- Lines that are dropped and not found in the input are dropped behind it, and it is known how many
these are. -/
theorem skipLines_append_exists (n : Nat) (q : Input) :
    ∃ k, k ≤ n ∧ ∀ r, skipLines n (q ++ r) = skipLines n q ++ skipLines k r := by
  induction n generalizing q with
  | zero => exact ⟨0, Nat.le_refl 0, fun _ => rfl⟩
  | succ n ih =>
    obtain hwithin | ⟨hnil, hbehind⟩ := skipLine_append_cases q
    · obtain ⟨k, hk, hlines⟩ := ih (skipLine q)
      refine ⟨k, Nat.le_succ_of_le hk, fun r => ?_⟩
      rw [skipLines, skipLines, hwithin, hlines]
    · refine ⟨n + 1, Nat.le_refl _, fun r => ?_⟩
      have hdrained : skipLines n [] = [] := List.suffix_nil.1 (skipLines_suffix n [])
      rw [skipLines, skipLines, skipLines, hbehind, hnil, hdrained, List.nil_append]

theorem skipLines_add (n k : Nat) (q : Input) : skipLines (n + k) q = skipLines k (skipLines n q) := by
  induction n generalizing q with
  | zero => rw [Nat.zero_add, skipLines]
  | succ n ih => rw [Nat.succ_add, skipLines, skipLines, ih]

end Input

/-! ## Without comments -/

/-- No comment is to come: the only word for it is `\`, and that is not pending. -/
structure Machine.Uncommented (n : Machine Ext) : Prop where
  comment : ∀ name w, n.dictionary.lookup name = some w → w.immediate = true → name = "\\"
  pending : "\\" ∉ Input.words n.pending

/-- The same machine further on in its input. -/
theorem Machine.Uncommented.withPending {n : Machine Ext} (hn : n.Uncommented) {rest : Input}
    (hrest : rest <:+ n.pending) : { n with pending := rest }.Uncommented :=
  ⟨hn.comment, fun h => hn.pending (Input.words_subset_of_suffix hrest h)⟩

/-- A definition is open, and nothing is pending that could complete it. -/
structure Machine.Waits (m : Machine Ext) : Prop where
  native : m.dictionary.Native
  pending : m.pending = []
  draft : ∃ draft, m.draft = some draft

/-! ## To pass, or to strand -/

namespace Action

/-- Whatever follows what is pending on `n`, the action returns with no definition open. It leaves
`n'`, and behind that what followed but for its first `k` lines; without comments it drops none. -/
structure PassesTo (a : Action Ext Unit) (n n' : Machine Ext) (k : Nat) : Prop where
  runs : ∀ r log, ∃ log', a (n.ahead r log) = .ok () (n'.ahead (Input.skipLines k r) log')
  native : n'.dictionary.Native
  closed : n'.draft = none
  pending : n'.pending <:+ n.pending
  uncommented : n.Uncommented → k = 0 ∧ n'.Uncommented

/-- If no word follows what is pending on `n`, the action stops, or it leaves a definition that waits
for more. -/
def Strands (a : Action Ext Unit) (n : Machine Ext) : Prop :=
  ∀ t log m, Input.words t = [] → a (n.ahead t log) = .ok () m → m.Waits

variable {n n' n'' : Machine Ext} {a b : Action Ext Unit} {k k' : Nat}

theorem PassesTo.bind (ha : a.PassesTo n n' k) (hb : b.PassesTo n' n'' k') :
    (a >>= fun _ => b).PassesTo n n'' (k + k') where
  runs r log := by
    obtain ⟨log₁, h₁⟩ := ha.runs r log
    obtain ⟨log₂, h₂⟩ := hb.runs (Input.skipLines k r) log₁
    refine ⟨log₂, ?_⟩
    rw [bind_of_ok h₁, h₂, Input.skipLines_add]
  native := hb.native
  closed := hb.closed
  pending := hb.pending.trans ha.pending
  uncommented h := by
    obtain ⟨rfl, hn'⟩ := ha.uncommented h
    obtain ⟨rfl, hn''⟩ := hb.uncommented hn'
    exact ⟨rfl, hn''⟩

theorem PassesTo.bind_strands (ha : a.PassesTo n n' k) (hb : b.Strands n') :
    (a >>= fun _ => b).Strands n := by
  intro t log m ht hrun
  obtain ⟨log', h⟩ := ha.runs t log
  rw [bind_of_ok h] at hrun
  exact hb _ log' m (Input.words_skipLines_of_words_nil ht k) hrun

/-- What strands does so whatever else is done, if that leaves the definition waiting. -/
theorem Strands.bind (ha : a.Strands n)
    (hb : ∀ m : Machine Ext, m.Waits → ∀ m', b m = .ok () m' → m'.Waits) :
    (a >>= fun _ => b).Strands n := by
  intro t log m ht hrun
  cases h : a (n.ahead t log) with
  | error fault m₁ =>
    rw [bind_of_error h] at hrun
    cases hrun
  | ok _ m₁ =>
    rw [bind_of_ok h] at hrun
    exact hb m₁ (ha t log m₁ ht h) m hrun

theorem strands_of_error (h : ∀ r log, ∃ fault m, a (n.ahead r log) = .error fault m) :
    a.Strands n := by
  intro t log m _ hrun
  obtain ⟨fault, m', herror⟩ := h t log
  rw [herror] at hrun
  cases hrun

variable [Extension Ext]

/-! ## Definitions and words -/

/-- A definition is completed whatever follows, or it strands. -/
theorem passes_or_strands_definition (hn : n.dictionary.Native) :
    (∃ n' k, PassesTo (resumeDefinition Machine.performer .unnamed) n n' k) ∨
    Strands (resumeDefinition Machine.performer .unnamed) n := by
  cases hc : Draft.unnamed.complete? n.pending with
  | none =>
    refine .inr fun t log m ht hrun => ?_
    have hopen : Draft.unnamed.complete? (n.ahead t log).pending = none := by
      show Draft.unnamed.complete? (n.pending ++ t) = none
      rw [Draft.complete?_append, hc]
      exact Draft.complete?_of_words_nil ht _
    rw [resumeDefinition_of_open hopen] at hrun
    cases hrun
    exact ⟨hn, rfl, _, rfl⟩
  | some completion =>
    obtain ⟨name, body, rest⟩ := completion
    have hahead := fun r log => complete?_ahead_of_some hc r log
    cases hw : captured n.resolve body with
    | error fault =>
      refine .inr (strands_of_error fun r log => ?_)
      obtain ⟨log', h⟩ := @resumeDefinition_of_refused Ext name (n.ahead r log) fault _ .unnamed
        body _ hn.onlyComments (hahead r log) hw
      exact ⟨_, _, h⟩
    | ok words =>
      obtain ⟨k, hk, hlines⟩ := Input.skipLines_append_exists (immediates n.resolve body) rest
      have hsuffix := (Input.skipLines_suffix (immediates n.resolve body) rest).trans
        ((List.suffix_cons _ _).trans (Draft.suffix_of_complete? hc))
      refine .inl ⟨{ n with
        pending := Input.skipLines (immediates n.resolve body) rest
        draft := none
        dictionary := n.dictionary.define name false (.compiled words) }, k, fun r log => ?_,
        hn.define (Machine.native_of_captured hn hw (some name)), rfl, hsuffix, fun hplain => ?_⟩
      · obtain ⟨log', h⟩ := @resumeDefinition_of_captured Ext name (n.ahead r log) words _ .unnamed
          body _ hn (hahead r log) hw
        have hbehind : Input.skipLines (immediates (n.ahead r log).resolve body) (rest ++ r) = _ :=
          hlines r
        rw [hbehind] at h
        exact ⟨log', h⟩
      · -- without comments, none of them runs
        have hbody : "\\" ∉ body := fun h => hplain.pending (Draft.complete?_subset hc h)
        have hnone := Machine.immediates_le_count hplain.comment body
        rw [List.count_eq_zero.2 hbody] at hnone
        exact ⟨by omega, Dictionary.forall_lookup_define hplain.comment nofun,
          (hplain.withPending hsuffix).pending⟩

/-- So does a leaf. -/
theorem passes_or_strands_leaf (hn : n.dictionary.Native) (hd : n.draft = none) {leaf : Leaf Ext}
    (hplain : leaf.isPlain = true) :
    (∃ n' k, PassesTo (leaf.run Machine.performer) n n' k) ∨
    Strands (leaf.run Machine.performer) n := by
  by_cases hdefine : leaf = .primitive .define
  · subst hdefine
    have hrun : ∀ r log, (Leaf.primitive .define).run Machine.performer (n.ahead r log) =
        resumeDefinition Machine.performer .unnamed (n.ahead r log) :=
      fun _ _ => performer_define hn.onlyComments
    obtain ⟨n', k, h⟩ | h := passes_or_strands_definition hn
    · refine .inl ⟨n', k, fun r log => ?_, h.native, h.closed, h.pending, h.uncommented⟩
      rw [hrun]
      exact h.runs r log
    · refine .inr fun t log m ht hm => ?_
      rw [hrun] at hm
      exact h t log m ht hm
  · obtain ⟨ending, stack, text, hrun⟩ :=
      Leaf.run_contained nestingLimit (Leaf.isContained_of_isPlain hplain hdefine) n
    have hrun : ∀ r log, leaf.run Machine.performer (n.ahead r log) =
        endWith ending ((n.ahead r log).withEffect stack text) :=
      fun _ _ => hrun _ ⟨rfl, rfl, fun _ => rfl⟩
    cases ending with
    | none =>
      exact .inl ⟨n.withEffect stack text, 0, fun r log => ⟨log, hrun r log⟩, hn, hd,
        List.suffix_refl _, fun h => ⟨rfl, h.comment, h.pending⟩⟩
    | some fault => exact .inr (strands_of_error fun r log => ⟨_, _, hrun r log⟩)

/-- Once a definition waits, it does so until the word is through. -/
theorem waits_after_leaves {leaves : List (Leaf Ext)} (hplain : ∀ leaf ∈ leaves, leaf.isPlain = true)
    (m : Machine Ext) (hm : m.Waits) (m' : Machine Ext)
    (hrun : leaves.forM (Leaf.run Machine.performer) m = .ok () m') : m'.Waits := by
  obtain ⟨draft, hd⟩ := hm.draft
  obtain ⟨hpending, hdraft⟩ := draft_after_leaves hm.native hm.pending hd hplain
  have hevo := Evolving.forM (fun leaf hleaf => evolving_run_leaf (hplain leaf hleaf)) m hm.native
  rw [after_of_ok hrun] at hpending hdraft hevo
  exact ⟨hevo.native, hpending, hdraft.elim (fun h => ⟨_, h.2⟩) fun h => ⟨_, h.2⟩⟩

/-- The leaves of a word pass one after the other, up to one that strands. -/
theorem passes_or_strands_leaves {leaves : List (Leaf Ext)}
    (hplain : ∀ leaf ∈ leaves, leaf.isPlain = true) (hn : n.dictionary.Native)
    (hd : n.draft = none) :
    (∃ n' k, PassesTo (leaves.forM (Leaf.run Machine.performer)) n n' k) ∨
    Strands (leaves.forM (Leaf.run Machine.performer)) n := by
  induction leaves generalizing n with
  | nil =>
    exact .inl ⟨n, 0, fun r log => ⟨log, rfl⟩, hn, hd, List.suffix_refl _, fun h => ⟨rfl, h⟩⟩
  | cons leaf leaves ih =>
    rw [List.forall_mem_cons] at hplain
    rw [forM_cons]
    obtain ⟨n', k, hleaf⟩ | hleaf := passes_or_strands_leaf hn hd hplain.1
    · obtain ⟨n'', k', hrest⟩ | hrest := ih hplain.2 hleaf.native hleaf.closed
      · exact .inl ⟨n'', k + k', hleaf.bind hrest⟩
      · exact .inr (hleaf.bind_strands hrest)
    · exact .inr (hleaf.bind (waits_after_leaves hplain.2))

/-- Takes the next word off the pending input and interprets it. -/
def interpretNext : Action Ext Unit := do
  if let some token ← readWord then interpret Machine.performer token

section Next

variable {token : String} {rest : Input}

theorem interpretNext_ahead (hread : Input.readWord? n.pending = some (token, rest)) (r : Input)
    (log : List Event) : interpretNext (n.ahead r log) =
      interpret Machine.performer token (Machine.ahead { n with pending := rest } r log) := by
  have hahead : Input.readWord? (n.ahead r log).pending = some (token, rest ++ r) := by
    show Input.readWord? (n.pending ++ r) = _
    rw [Input.readWord?_append, hread]
  exact bind_of_ok (readWord_of_some hahead)

/-- The loop takes one word after the other. -/
theorem drain_eq_interpretNext (hn : n.dictionary.Native) (hd : n.draft = none)
    (hread : Input.readWord? n.pending = some (token, rest)) (r : Input) (log : List Event) :
    drain (n.ahead r log) = (interpretNext >>= fun _ => drain) (n.ahead r log) := by
  have hahead : Input.readWord? (n.ahead r log).pending = some (token, rest ++ r) := by
    show Input.readWord? (n.pending ++ r) = _
    rw [Input.readWord?_append, hread]
  exact (@drain_of_some Ext _ (n.ahead r log) _ _ hn hd hahead).trans
    (bind_congr (interpretNext_ahead hread r log)).symm

/-- A comment drops the rest of a line, here or behind. -/
theorem passes_next_of_immediate (hn : n.dictionary.Native) (hd : n.draft = none)
    (hread : Input.readWord? n.pending = some (token, rest)) {w : Word Ext}
    (hr : n.resolve token = .ok (some w)) (hi : w.immediate = true) :
    ∃ k, PassesTo interpretNext n { n with pending := Input.skipLine rest } k := by
  obtain ⟨k, -, hlines⟩ := Input.skipLines_append_exists 1 rest
  have hsuffix := (List.suffix_cons _ _).trans (Input.suffix_of_readWord? hread)
  refine ⟨k, fun r log => ⟨log, ?_⟩, hn, hd, (Input.skipLine_suffix rest).trans hsuffix,
    fun hplain => ?_⟩
  · have hresolve : (Machine.ahead { n with pending := rest } r log).resolve token =
      .ok (some w) := hr
    rw [interpretNext_ahead hread, interpret_of_word hresolve,
      Machine.body_of_resolve hn.onlyComments hr hi, Machine.performer, run_comment]
    have hline : Input.skipLine (rest ++ r) = Input.skipLine rest ++ Input.skipLines k r := hlines r
    simp only [Machine.ahead, hline]
  · refine absurd (Input.mem_words_of_readWord? hread) fun h => hplain.pending ?_
    obtain hl | ⟨v, _, rfl⟩ := Machine.resolve_cases hr
    · rwa [hplain.comment token w hl hi] at h
    · cases hi

/-- The next word passes or strands, whichever it is. -/
theorem passes_or_strands_next (hn : n.dictionary.Native) (hd : n.draft = none)
    (hread : Input.readWord? n.pending = some (token, rest)) :
    (∃ n' k, PassesTo interpretNext n n' k ∧ n'.pending.length < n.pending.length) ∨
    Strands interpretNext n := by
  have hrun := interpretNext_ahead hread
  have hsuffix := (List.suffix_cons _ _).trans (Input.suffix_of_readWord? hread)
  have hshorter := Input.length_of_readWord? hread
  have hresolve : ∀ r log, (Machine.ahead { n with pending := rest } r log).resolve token =
    n.resolve token := fun _ _ => rfl
  rcases hr : n.resolve token with fault | _ | w
  · refine .inr (strands_of_error fun r log => ?_)
    rw [hrun, interpret_of_error ((hresolve r log).trans hr)]
    exact ⟨_, _, rfl⟩
  · refine .inr (strands_of_error fun r log => ?_)
    rw [hrun, interpret_of_unknown ((hresolve r log).trans hr)]
    exact ⟨_, _, rfl⟩
  · have hword := fun r log => (hrun r log).trans (interpret_of_word ((hresolve r log).trans hr))
    cases hi : w.immediate with
    | true =>
      obtain ⟨k, h⟩ := passes_next_of_immediate hn hd hread hr hi
      exact .inl ⟨_, k, h, Nat.lt_of_le_of_lt (Input.skipLine_suffix rest).length_le hshorter⟩
    | false =>
      obtain ⟨n', k, h⟩ | h := @passes_or_strands_leaves Ext { n with pending := rest } _ _
        (Machine.plain_of_resolve hn hr hi) hn hd
      · refine .inl ⟨n', k, ⟨fun r log => ?_, h.native, h.closed, h.pending.trans hsuffix,
          fun hplain => h.uncommented (hplain.withPending hsuffix)⟩,
          Nat.lt_of_le_of_lt h.pending.length_le hshorter⟩
        rw [hword, Body.run_eq_forM]
        exact h.runs r log
      · refine .inr fun t log m ht hm => h t log m ht ?_
        rw [← Body.run_eq_forM, ← hword]
        exact hm

end Next

/-! ## Texts -/

/-- If a run returns with no definition open, it does so whatever follows, and goes on with that; but
the first lines of it may be dropped. -/
theorem drain_past {t : Input} (ht : Input.words t = []) (hn : n.dictionary.Native)
    (hd : n.draft = none) {log : List Event} {m : Machine Ext}
    (hrun : drain (n.ahead t log) = .ok () m) (hclosed : m.draft = none) :
    ∃ k, (n.Uncommented → k = 0) ∧ ∀ r log', ∃ log'',
      drain (n.ahead r log') = drain { m with pending := Input.skipLines k r, log := log'' } := by
  -- a word takes itself off at least, so what is pending gets shorter
  induction hlen : n.pending.length using Nat.strongRecOn generalizing n t log with
  | _ length ih =>
    cases hread : Input.readWord? n.pending with
    | none =>
      have hreads : ∀ r log, Input.readWord? (n.ahead r log).pending = Input.readWord? r := by
        intro r log
        show Input.readWord? (n.pending ++ r) = _
        rw [Input.readWord?_append, hread]
      have hnone := (hreads t log).trans (Input.readWord?_of_words_nil ht)
      rw [@drain_of_none Ext _ (n.ahead t log) hd hnone] at hrun
      cases hrun
      exact ⟨0, fun _ => rfl, fun r log' => ⟨log', @drain_of_readWord?_eq Ext _
        { n with log := log' } _ _ hn hd (hreads r log')⟩⟩
    | some read =>
      obtain ⟨token, rest⟩ := read
      have hdrain := drain_eq_interpretNext hn hd hread
      rw [hdrain] at hrun
      obtain ⟨n', k, hnext, hshorter⟩ | hstrands := passes_or_strands_next hn hd hread
      · obtain ⟨log₁, h₁⟩ := hnext.runs t log
        rw [bind_of_ok h₁] at hrun
        obtain ⟨k', hk', hrest⟩ := ih n'.pending.length (hlen ▸ hshorter)
          (Input.words_skipLines_of_words_nil ht k) hnext.native hnext.closed hrun rfl
        refine ⟨k + k', fun hplain => ?_, fun r log' => ?_⟩
        · obtain ⟨rfl, hplain'⟩ := hnext.uncommented hplain
          rw [hk' hplain']
        · obtain ⟨log₂, h₂⟩ := hnext.runs r log'
          rw [hdrain, bind_of_ok h₂, Input.skipLines_add]
          exact hrest _ _
      · -- a definition that is left open stays so
        cases hword : interpretNext (n.ahead t log) with
        | error fault m₁ =>
          rw [bind_of_error hword] at hrun
          cases hrun
        | ok _ m₁ =>
          obtain ⟨draft, hopen⟩ := (hstrands t log m₁ ht hword).draft
          rw [bind_of_ok hword, drain_of_open hopen] at hrun
          cases hrun
          cases hopen.symm.trans hclosed

/-- A text that brings the same pieces as another one, but for the mark at the end, and then more, goes
on from where the other one leads. -/
theorem eval_past_front (hn : n.dictionary.Native) (hpending : n.pending = []) (hd : n.draft = none)
    {text : String} {front : Input}
    (hfront : Input.ofText text = front ∨ Input.ofText text = front ++ [.lineEnd]) {m : Machine Ext}
    (hrun : Machine.eval text n = .ok () m) (hclosed : m.draft = none) :
    ∃ k, ({ n with pending := front }.Uncommented → k = 0) ∧
      ∀ more r, Input.ofText more = front ++ r →
        ∃ log, Machine.eval more n = drain { m with pending := Input.skipLines k r, log := log } := by
  obtain ⟨marks, hmarks, htext⟩ : ∃ marks, Input.words marks = [] ∧
      Input.ofText text = front ++ marks := by
    obtain hfront | hfront := hfront
    · exact ⟨[], rfl, by rw [hfront, List.append_nil]⟩
    · exact ⟨[.lineEnd], rfl, hfront⟩
  have hdrain : ∀ r, proceed { n with pending := n.pending ++ (front ++ r) } =
      drain (Machine.ahead { n with pending := front } r n.log) := by
    intro r
    rw [hpending]
    exact proceed_of_closed hd
  rw [eval_eq_proceed, htext, hdrain] at hrun
  obtain ⟨k, hk, hpast⟩ :=
    @drain_past Ext { n with pending := front } _ marks hmarks hn hd n.log m hrun hclosed
  refine ⟨k, hk, fun more r hmore => ?_⟩
  rw [eval_eq_proceed, hmore, hdrain]
  exact hpast r n.log

end Action

end ThreadedForth
