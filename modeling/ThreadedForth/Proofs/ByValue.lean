import ThreadedForth.Proofs.Calls

/-!
# Compiled words bind by value

A compiled word holds the words that it captured, not their names. So it runs as it always did,
whatever the dictionary has come to hold since, and whatever is pending: its effect is one on the
stack and the output, and depends on the stack alone. Words that start a definition or list the
dictionary are the two exceptions.
-/

namespace ThreadedForth

variable {Ext : Type}

/-- A compiled word of a native dictionary that neither starts definitions nor lists words is
contained, without the dictionary. -/
theorem Entry.Native.isContained {e : Word Ext} (h : e.Native) {words : List (Word Ext)}
    (hbody : e.body = .compiled words) (hdefine : Leaf.primitive .define ∉ e.body.leaves)
    (hlist : Leaf.primitive .listWords ∉ e.body.leaves) :
    ∀ leaf ∈ e.body.leaves, leaf.isContained false = true := by
  have hi : e.immediate = false := by
    cases hi : e.immediate with
    | false => rfl
    | true => exact absurd (hbody.symm.trans (h.immediate hi)) nofun
  intro leaf hleaf
  have hplain := h.plain hi leaf hleaf
  cases leaf with
  | push v => rfl
  | primitive p =>
    cases p with
    | define => exact absurd hleaf hdefine
    | listWords => exact absurd hleaf hlist
    | comment | extension => cases hplain
    | _ => rfl

/-- Take a machine `s` after any texts, a compiled word `e` of its dictionary that neither starts
definitions nor lists words, and the machine `s₂` after any further calls. From the same stack, the
word stops with the same fault or none on both, leaves the same stack and writes the same text, and
changes nothing else. -/
theorem run_compiled_by_value [Extension Ext] {width : CellWidth} {texts : List String}
    {calls : List Call} {s s₂ : Machine Ext}
    (hs : s = (Machine.fresh width).afterCalls (texts.map .eval)) (hs₂ : s₂ = s.afterCalls calls)
    {name : String} {e : Word Ext} (he : s.dictionary.lookup name = some e)
    {words : List (Word Ext)} (hbody : e.body = .compiled words)
    (hdefine : Leaf.primitive .define ∉ e.body.leaves)
    (hlist : Leaf.primitive .listWords ∉ e.body.leaves) (start : List Int) :
    ∃ ending stack text,
      ((e.body.run Machine.performer).fault? { s with stack := start } = ending ∧
        (e.body.run Machine.performer).after { s with stack := start } =
          { s with stack := stack, output := s.output ++ text }) ∧
      ((e.body.run Machine.performer).fault? { s₂ with stack := start } = ending ∧
        (e.body.run Machine.performer).after { s₂ with stack := start } =
          { s₂ with stack := stack, output := s₂.output ++ text }) := by
  have hnative : s.dictionary.Native := by
    rw [hs]
    exact Machine.native_afterCalls width _
  have hwidth : s₂.width = s.width := by
    rw [hs₂]
    exact (Machine.keeps_afterCalls hnative calls).width
  have hrun := Body.run_contained nestingLimit ((hnative he).2.isContained hbody hdefine hlist)
  obtain ⟨ending, stack, text, hrun⟩ := hrun { s with stack := start }
  have h := hrun { s with stack := start } ⟨rfl, rfl, nofun⟩
  have h₂ := hrun { s₂ with stack := start } ⟨hwidth.symm, rfl, nofun⟩
  exact ⟨ending, stack, text,
    ⟨Action.fault?_of_endWith h, Action.after_of_endWith h⟩,
    ⟨Action.fault?_of_endWith h₂, Action.after_of_endWith h₂⟩⟩

/-- A machine with a word that is made of another one. -/
def squaring : Machine Empty :=
  (Machine.fresh .standard).afterCalls ([": square dup * ; : fourth square square ;"].map .eval)

/-- The same machine after the words have got other meanings, some of it by a call that fails. -/
def squaringRedefined : Machine Empty :=
  squaring.afterCalls
    [.eval ": dup drop ; : square 0 ;", .execute ": * + ; frob 1", .push [.truth true]]

/-- The word raises to the fourth power all the same. -/
theorem run_fourth_by_value :
    ∃ e, squaring.dictionary.lookup "fourth" = some e ∧
      e.body.leaves = [.primitive .dup, .primitive .multiply, .primitive .dup, .primitive .multiply] ∧
      (e.body.run Machine.performer).fault? { squaringRedefined with stack := [3] } =
        (e.body.run Machine.performer).fault? { squaring with stack := [3] } ∧
      ((e.body.run Machine.performer).after { squaringRedefined with stack := [3] }).stack = [81] := by
  have hlookup : (squaring.dictionary.lookup "fourth").map (fun e => (e.body.leaves,
      ((e.body.run Machine.performer).after { squaring with stack := [3] }).stack)) =
      some ([.primitive .dup, .primitive .multiply, .primitive .dup, .primitive .multiply], [81]) := by
    decide +kernel
  obtain ⟨e, he, hpair⟩ := Option.map_eq_some_iff.1 hlookup
  obtain ⟨hleaves, h81⟩ := Prod.mk.inj hpair
  obtain ⟨words, hbody⟩ : ∃ words, e.body = .compiled words := by
    cases hb : e.body with
    | compiled words => exact ⟨words, rfl⟩
    | primitive p => simp [hb, Body.leaves] at hleaves
    | literal v => simp [hb, Body.leaves] at hleaves
  have hs₂ : squaringRedefined = squaring.afterCalls _ := rfl
  obtain ⟨ending, stack, text, ⟨hf, ha⟩, hf₂, ha₂⟩ :=
    run_compiled_by_value rfl hs₂ he hbody (by simp [hleaves]) (by simp [hleaves]) [3]
  have hstack := congrArg Machine.stack ha
  have hstack₂ := congrArg Machine.stack ha₂
  exact ⟨e, he, hleaves, hf₂.trans hf.symm, hstack₂.trans (hstack.symm.trans h81)⟩

end ThreadedForth
