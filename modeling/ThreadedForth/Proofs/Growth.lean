import ThreadedForth.Proofs.Collecting
import ThreadedForth.Proofs.Invariants
import ThreadedForth.Proofs.Persistence

/-!
# How a dictionary grows

All that interpreting does to a dictionary is to bind names to compiled words, one after the other
(`Dictionary.Grows`). It takes the names from the text, from what was pending, or from the open
definition. So nothing that is defined gets lost, and no other name gets another word
(`dictionary_after_eval`); no word that it makes is immediate, which leaves the comment as the only
immediate word (`Machine.comment_afterTexts`).

What is shown holds of the machine that an evaluation leaves, whether it returns or stops with a
fault, and so at every point where it may stop.
-/

namespace ThreadedForth

variable {Ext : Type}

/-! ## Growing -/

/-- The second dictionary comes from the first one by definitions of compiled words, made one after
the other, under names out of `names`. -/
inductive Dictionary.Grows (names : List String) (d : Dictionary Ext) : Dictionary Ext → Prop
  | same : Grows names d d
  | define {d' : Dictionary Ext} {name : String} {words : List (Word Ext)} :
      Grows names d d' → name ∈ names → Grows names d (d'.define name false (.compiled words))

theorem length_le_insertSorted {β : Type} (key : String) (value : β)
    (bindings : List (String × β)) : bindings.length ≤ (insertSorted key value bindings).length := by
  induction bindings with
  | nil => exact Nat.zero_le _
  | cons head rest ih =>
    rw [insertSorted]
    split
    · exact Nat.le_succ _
    · split
      · exact Nat.le_refl _
      · exact Nat.succ_le_succ ih

namespace Dictionary.Grows

variable {names : List String} {d d' : Dictionary Ext} {n : String}

/-- What is defined stays defined. -/
theorem contains (h : d.Grows names d') (hn : d.contains n = true) : d'.contains n = true := by
  induction h with
  | same => exact hn
  | define _ _ ih =>
    rw [Dictionary.contains, lookup_define]
    split
    · rfl
    · exact ih

/-- Other names keep their words. -/
theorem lookup_of_not_mem (h : d.Grows names d') (hn : n ∉ names) : d'.lookup n = d.lookup n := by
  induction h with
  | same => rfl
  | define _ hname ih =>
    have hne : n ≠ _ := fun heq => hn (heq ▸ hname)
    rw [lookup_define, if_neg hne, ih]

/-- A word is what it was, or a compiled one that carries its name. -/
theorem lookup_cases (h : d.Grows names d') {w : Word Ext} (hw : d'.lookup n = some w) :
    d.lookup n = some w ∨ ∃ words, w = ⟨some n, false, .compiled words⟩ := by
  induction h with
  | same => exact .inl hw
  | @define d₁ name words _ _ ih =>
    rw [lookup_define] at hw
    split at hw
    · next heq =>
      cases hw
      exact .inr ⟨words, by rw [heq]⟩
    · exact ih hw

/-- There are no fewer words. -/
theorem size_le (h : d.Grows names d') : d.size ≤ d'.size := by
  induction h with
  | same => exact Nat.le_refl _
  | define _ _ ih => exact Nat.le_trans ih (length_le_insertSorted _ _ _)

end Dictionary.Grows

/-! ## Where the names come from -/

namespace Draft

variable {draft : Draft} {q rest : Input} {name n : String} {body b : List String}

theorem name_of_completeNamed? (h : completeNamed? name body q = some (n, b, rest)) : n = name := by
  rw [completeNamed?] at h
  generalize Input.takeBody q = taken at h
  rcases taken with ⟨more, _ | after⟩
  · cases h
  · cases h
    rfl

/-- The name of a complete definition was there before, or is a word of the input. -/
theorem name_of_complete? (h : draft.complete? q = some (n, b, rest)) :
    draft.name? = some n ∨ n ∈ Input.words q := by
  cases draft with
  | named name body => exact .inl (congrArg some (name_of_completeNamed? h).symm)
  | unnamed =>
    rw [complete?] at h
    cases hr : Input.readWord? q with
    | none => simp [hr] at h
    | some read =>
      rw [hr] at h
      exact .inr (name_of_completeNamed? h ▸ Input.mem_words_of_readWord? hr)

/-- So is the name of a definition that stays open, or was. -/
theorem name_of_extend (h : (draft.extend q).name? = some n) :
    draft.name? = some n ∨ n ∈ Input.words q := by
  cases draft with
  | named name body => exact .inl h
  | unnamed =>
    rw [extend] at h
    cases hr : Input.readWord? q with
    | none => simp [hr, name?] at h
    | some read =>
      rw [hr] at h
      cases h
      exact .inr (Input.mem_words_of_readWord? hr)

end Draft

namespace Machine

/-- The dictionary has grown from `d` under some names, and all names that may come are among
these. -/
structure GrownFrom (d : Dictionary Ext) (names : List String) (m : Machine Ext) : Prop where
  grows : d.Grows names m.dictionary
  pending : Input.words m.pending ⊆ names
  draft : ∀ draft, m.draft = some draft → ∀ name, draft.name? = some name → name ∈ names

variable {d : Dictionary Ext} {names : List String} {m : Machine Ext}

/-- The name of a definition that may go on is known. -/
theorem GrownFrom.mayResume (h : m.GrownFrom d names) {draft : Draft} (hd : m.MayResume draft)
    {name : String} (hname : draft.name? = some name) : name ∈ names := by
  rcases hd with hd | rfl
  · exact h.draft draft hd name hname
  · cases hname

/-- All that interpreting does lets a dictionary grow. -/
theorem persistent_grownFrom : Persistent (GrownFrom d names : Machine Ext → Prop) where
  effect _ _ _ h := ⟨h.grows, h.pending, h.draft⟩
  take h hrest :=
    ⟨h.grows, fun _ ht => h.pending (Input.words_subset_of_suffix hrest ht), h.draft⟩
  wait := by
    intro m draft h hd _
    refine ⟨h.grows, List.nil_subset _, ?_⟩
    rintro _ ⟨⟩ name hname
    rcases Draft.name_of_extend hname with hname | hname
    · exact h.mayResume hd hname
    · exact h.pending hname
  close h := ⟨h.grows, h.pending, nofun⟩
  define := by
    intro m draft name body rest words h _ hd hcomplete _
    refine ⟨h.grows.define ?_, h.pending, h.draft⟩
    rcases Draft.name_of_complete? hcomplete with hname | hname
    · exact h.mayResume hd hname
    · exact h.pending hname

/-- In a native dictionary every word carries its name. -/
theorem name_of_mem_bindings (hm : m.dictionary.Native) {b : String × Word Ext}
    (hb : b ∈ m.dictionary.bindings) : b.2.name = some b.1 :=
  (hm (lookupIn_of_mem m.dictionary.sorted hb)).1

/-- The names that the machine may bind without further text: the words that are pending, and the
name of the open definition. -/
def bindable (m : Machine Ext) : List String :=
  Input.words m.pending ++ m.definitionName.toList

theorem mem_bindable {name : String} :
    name ∈ m.bindable ↔ name ∈ Input.words m.pending ∨ m.definitionName = some name := by
  simp [bindable]

theorem grownFrom_self (h : m.bindable ⊆ names) : m.GrownFrom m.dictionary names where
  grows := .same
  pending := (List.append_subset.1 h).1
  draft draft hd name hname := by
    have hdefinition : m.definitionName = some name := by
      rw [definitionName, hd]
      exact hname
    exact h (mem_bindable.2 (.inr hdefinition))

variable [Extension Ext]

/-- Interpreting a text lets the dictionary grow, -/
theorem GrownFrom.eval (h : m.GrownFrom d names) (hm : m.dictionary.Native) {text : String}
    (htext : Input.words (Input.ofText text) ⊆ names) :
    ((Machine.eval text).after m).GrownFrom d names := by
  have hqueued : { m with pending := m.pending ++ Input.ofText text }.GrownFrom d names := by
    refine ⟨h.grows, ?_, h.draft⟩
    rw [Input.words_append]
    exact List.append_subset.2 ⟨h.pending, htext⟩
  rw [Action.after_congr (Action.eval_eq_proceed text m)]
  exact persistent_grownFrom.proceed hm hqueued

/-- and so do any texts. -/
theorem GrownFrom.afterTexts (h : m.GrownFrom d names) (hm : m.dictionary.Native)
    {texts : List String} (htexts : ∀ text ∈ texts, Input.words (Input.ofText text) ⊆ names) :
    (m.afterCalls (texts.map .eval)).GrownFrom d names := by
  -- the machine changes from text to text
  induction texts generalizing m with
  | nil => exact h
  | cons text texts ih =>
    obtain ⟨htext, htexts⟩ := List.forall_mem_cons.1 htexts
    exact ih (h.eval hm htext) (Action.keeping_eval text m hm).native htexts

/-- The names come from the texts and from what the machine may bind anyway. -/
theorem grows_afterTexts (hm : m.dictionary.Native) (texts : List String) :
    m.dictionary.Grows (texts.flatMap (fun text => Input.words (Input.ofText text)) ++ m.bindable)
      (m.afterCalls (texts.map .eval)).dictionary := by
  have hself := grownFrom_self (List.subset_append_right
    (texts.flatMap fun text => Input.words (Input.ofText text)) m.bindable)
  refine (hself.afterTexts hm fun text htext => ?_).grows
  exact fun name hname => List.mem_append_left _ (List.mem_flatMap.2 ⟨text, htext, hname⟩)

/-- The comment stays the only immediate word. -/
theorem comment_afterTexts (width : CellWidth) (texts : List String) :
    ∀ name w, ((fresh width : Machine Ext).afterCalls (texts.map .eval)).dictionary.lookup name =
      some w → w.immediate = true → name = "\\" := by
  intro name w hw hi
  rcases (grows_afterTexts (native_fresh width) texts).lookup_cases hw with hw | ⟨words, rfl⟩
  · rw [fresh_dictionary] at hw
    exact Dictionary.straight_builtin.comment name w hw hi
  · cases hi

end Machine

/-- Take a machine `s` after any calls and a further text, and the dictionary that is left when the
text has been interpreted, to its end or up to a fault. It comes from the dictionary of `s` by
definitions of compiled words. So every name that was defined still is. A name that is no word of the
text, none that was pending, and not the one of the open definition has the word it had. A word that
was added or replaced is not immediate, is compiled, and carries its name. Already in `s` every word
carries the name that it has in the dictionary, and over any further texts the number of words never
gets less. -/
theorem dictionary_after_eval [Extension Ext] {width : CellWidth} {calls : List Call}
    {s : Machine Ext} (hs : s = (Machine.fresh width).afterCalls calls) (text : String)
    {d : Dictionary Ext} (hd : d = ((Machine.eval text).after s).dictionary) :
    s.dictionary.Grows (Input.words (Input.ofText text) ++ s.bindable) d ∧
    (∀ name, s.dictionary.contains name = true → d.contains name = true) ∧
    (∀ name, name ∉ Input.words (Input.ofText text) → name ∉ Input.words s.pending →
      s.definitionName ≠ some name → d.lookup name = s.dictionary.lookup name) ∧
    (∀ name w, d.lookup name = some w → s.dictionary.lookup name = some w ∨
      w.immediate = false ∧ w.name = some name ∧ ∃ words, w.body = .compiled words) ∧
    (∀ b ∈ s.dictionary.bindings, b.2.name = some b.1) ∧
    ∀ more : List String,
      s.dictionary.size ≤ (s.afterCalls (more.map .eval)).dictionary.size := by
  have hnative : s.dictionary.Native := hs ▸ Machine.native_afterCalls width calls
  have hgrows : s.dictionary.Grows (Input.words (Input.ofText text) ++ s.bindable) d := by
    have hself := Machine.grownFrom_self (List.subset_append_right
      (Input.words (Input.ofText text)) s.bindable)
    rw [hd]
    exact (hself.eval hnative (List.subset_append_left _ _)).grows
  refine ⟨hgrows, fun name => hgrows.contains, fun name htext hpending hname => ?_,
    fun name w hw => ?_, fun b => Machine.name_of_mem_bindings hnative,
    fun more => (Machine.grows_afterTexts hnative more).size_le⟩
  · exact hgrows.lookup_of_not_mem (by simp [Machine.mem_bindable, htext, hpending, hname])
  · rcases hgrows.lookup_cases hw with hw | ⟨words, rfl⟩
    · exact .inl hw
    · exact .inr ⟨rfl, rfl, words, rfl⟩

/-- A machine in the middle of a definition. -/
def defining : Machine Empty :=
  (Machine.fresh .standard).afterCalls [.eval ": twice dup"]

/-- A text that completes it, makes two more, one of them by a word that holds a colon, and then
fails to give another meaning to a built-in word. -/
def definitions : String := "+ ; : make : ; make thrice dup twice + ; : + frob ; 1"

/-- The three words are there, and the built-in words are what they were. -/
theorem dictionary_after_failing_definitions :
    (Machine.eval definitions).fault? defining = some (.unknownWord "frob") ∧
      ((Machine.eval definitions).after defining).dictionary.size = 28 ∧
      ((Machine.eval definitions).after defining).dictionary.lookup "*" =
        defining.dictionary.lookup "*" ∧
      ((Machine.eval definitions).after defining).dictionary.contains "+" = true ∧
      ∃ w words, ((Machine.eval definitions).after defining).dictionary.lookup "thrice" = some w ∧
        w.name = some "thrice" ∧ w.body = .compiled words := by
  obtain ⟨_, hkept, hother, hmade, _⟩ :=
    dictionary_after_eval (s := defining) rfl definitions rfl
  obtain ⟨hfault, hsize, hthrice⟩ :
      (Machine.eval definitions).fault? defining = some (.unknownWord "frob") ∧
        ((Machine.eval definitions).after defining).dictionary.size = 28 ∧
        (((Machine.eval definitions).after defining).dictionary.lookup "thrice").isSome = true := by
    decide +kernel
  have hbefore : "*" ∉ Input.words (Input.ofText definitions) ∧
      "*" ∉ Input.words defining.pending ∧ defining.definitionName ≠ some "*" ∧
      defining.dictionary.contains "+" = true ∧ defining.dictionary.lookup "thrice" = none := by
    decide +kernel
  obtain ⟨htext, hpending, hname, hplus, hnew⟩ := hbefore
  obtain ⟨w, hw⟩ := Option.isSome_iff_exists.1 hthrice
  refine ⟨hfault, hsize, hother "*" htext hpending hname, hkept "+" hplus, w, ?_⟩
  rcases hmade "thrice" w hw with hold | ⟨_, hname, words, hbody⟩
  · cases hnew.symm.trans hold
  · exact ⟨words, hw, hname, hbody⟩

end ThreadedForth
