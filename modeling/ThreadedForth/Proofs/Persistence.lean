import ThreadedForth.Proofs.Calls

/-!
# What interpreting keeps

All that interpreting does to a machine with a native dictionary is made of a few changes: something
happens to the stack, the output and the log; pending input is taken off the front; a definition is
left open, closed or made. A property that each of these changes keeps is *persistent*
(`Machine.Persistent`), and is kept by the interpretation of everything that is pending
(`Machine.Persistent.proceed`).
-/

namespace ThreadedForth

variable {Ext : Type}

namespace Machine

/-- A definition that may go on: the one that is open, or a new one. -/
def MayResume (m : Machine Ext) (draft : Draft) : Prop :=
  m.draft = some draft ∨ draft = .unnamed

/-- A property that every single change keeps. -/
structure Persistent (P : Machine Ext → Prop) : Prop where
  /-- Stack, output and log change as they may. -/
  effect {m : Machine Ext} (stack : List Int) (output : String) (log : List Event) :
    P m → P { m with stack := stack, output := output, log := log }
  /-- Pending input is taken off the front. -/
  take {m : Machine Ext} {rest : Input} : P m → rest <:+ m.pending → P { m with pending := rest }
  /-- A definition collects all that is pending and is left open. -/
  wait {m : Machine Ext} {draft : Draft} : P m → m.MayResume draft →
    draft.complete? m.pending = none →
    P { m with pending := [], draft := some (draft.extend m.pending) }
  /-- The open definition is closed. -/
  close {m : Machine Ext} : P m → P { m with draft := none }
  /-- A complete definition is made. -/
  define {m : Machine Ext} {draft : Draft} {name : String} {body : List String} {rest : Input}
    {words : List (Word Ext)} : P m → m.dictionary.Native → m.MayResume draft →
    draft.complete? m.pending = some (name, body, rest) → captured m.resolve body = .ok words →
    P { m with dictionary := m.dictionary.define name false (.compiled words) }

end Machine

namespace Action

/-- From a native dictionary, the action keeps the property and leaves the dictionary native. -/
abbrev Preserving (P : Machine Ext → Prop) {α : Type} (a : Action Ext α) : Prop :=
  a.LeadsTo fun m m' => m'.dictionary.Native ∧ (P m → P m')

variable {P : Machine Ext → Prop} {α β : Type}

theorem Preserving.bind {a : Action Ext α} {f : α → Action Ext β} (ha : a.Preserving P)
    (hf : ∀ x, (f x).Preserving P) : (a >>= f).Preserving P :=
  LeadsTo.bind (fun h h' => ⟨h'.1, fun hm => h'.2 (h.2 hm)⟩) (fun h => h.1) ha hf

theorem Preserving.forM {ι : Type} {f : ι → Action Ext Unit} {xs : List ι}
    (h : ∀ x ∈ xs, (f x).Preserving P) : (xs.forM f).Preserving P := by
  induction xs with
  | nil => exact fun m hm => ⟨hm, id⟩
  | cons x xs ih =>
    have hx : (f x).Preserving P := h x List.mem_cons_self
    exact hx.bind fun _ => ih fun y hy => h y (List.mem_cons_of_mem x hy)

end Action

namespace Machine.Persistent

open ThreadedForth.Action

variable {P : Machine Ext → Prop} (hP : Persistent P)
include hP

theorem withLog {m : Machine Ext} (hm : P m) (log : List Event) : P { m with log := log } :=
  hP.effect m.stack m.output log hm

theorem contained {lists : Bool} {a : Action Ext Unit} (ha : Contained lists a) :
    a.Preserving P := by
  intro m hm
  refine ⟨(ha.evolving m hm).native, fun hPm => ?_⟩
  obtain ⟨ending, stack, text, hrun⟩ := ha m
  rw [after_of_endWith (hrun m ⟨rfl, rfl, fun _ => rfl⟩)]
  exact hP.effect stack (m.output ++ text) m.log hPm

variable [Extension Ext]

/-- Going on with a definition keeps the property, in each of the three ways that it may take. -/
theorem resumeDefinition {m : Machine Ext} {draft : Draft} (hm : m.dictionary.Native)
    (hd : m.MayResume draft) (hPm : P m) :
    P ((Action.resumeDefinition performer draft).after m) := by
  cases h : draft.complete? m.pending with
  | none =>
    rw [after_of_ok (resumeDefinition_of_open h)]
    exact hP.withLog (hP.wait hPm hd h) _
  | some completion =>
    obtain ⟨name, body, rest⟩ := completion
    have hrest := (List.suffix_cons _ _).trans (Draft.suffix_of_complete? h)
    have hlines := (Input.skipLines_suffix (immediates m.resolve body) rest).trans hrest
    cases hc : captured m.resolve body with
    | ok words =>
      obtain ⟨log, hrun⟩ := resumeDefinition_of_captured hm h hc
      rw [after_of_ok hrun]
      exact hP.withLog (hP.close (hP.take (hP.define hPm hm hd h hc) hlines)) log
    | error fault =>
      obtain ⟨log, hrun⟩ := resumeDefinition_of_refused hm.onlyComments h hc
      rw [after_of_error hrun]
      exact hP.withLog (hP.close (hP.take hPm hlines)) log

theorem run_leaf {leaf : Leaf Ext} (h : leaf.isPlain = true) :
    (leaf.run performer).Preserving P := by
  by_cases hd : leaf = .primitive .define
  · subst hd
    intro m hm
    refine ⟨(evolving_run_leaf h m hm).native, fun hPm => ?_⟩
    have hrun : (Leaf.primitive .define).run performer m = _ := performer_define hm.onlyComments
    rw [after_congr hrun]
    exact hP.resumeDefinition hm (.inr rfl) hPm
  · exact hP.contained (Leaf.run_contained nestingLimit (Leaf.isContained_of_isPlain h hd))

/-- Interpreting a word keeps the property. -/
theorem interpret (token : String) :
    (Action.interpret performer token : Action Ext Unit).Preserving P := by
  intro m hm
  refine ⟨(evolving_interpret token m hm).native, fun hPm => ?_⟩
  rcases hr : m.resolve token with fault | found
  · rw [after_of_error (interpret_of_error hr)]
    exact hPm
  rcases found with _ | w
  · rw [after_of_error (interpret_of_unknown hr)]
    exact hP.withLog hPm _
  rw [after_congr (interpret_of_word hr)]
  cases hi : w.immediate with
  | true =>
    have hrun : (Body.primitive .comment).run performer m = _ := run_comment nestingLimit m
    rw [body_of_resolve hm.onlyComments hr hi, after_of_ok hrun]
    exact hP.take hPm (Input.skipLine_suffix _)
  | false =>
    rw [Body.run_eq_forM]
    have hleaves : (w.body.leaves.forM (Leaf.run performer)).Preserving P :=
      .forM fun leaf hleaf => hP.run_leaf (plain_of_resolve hm hr hi leaf hleaf)
    exact (hleaves m hm).2 hPm

/-- So does the loop, whatever its budget. -/
theorem interpretPending (budget : Nat) :
    (Action.interpretPending performer budget : Action Ext Unit).Preserving P := by
  induction budget with
  | zero => exact fun m hm => ⟨hm, id⟩
  | succ budget ih =>
    intro m hm
    refine ⟨(evolving_interpretPending (budget + 1) m hm).native, fun hPm => ?_⟩
    cases hd : m.draft with
    | some draft =>
      rw [after_of_ok (interpretPending_of_open hd)]
      exact hPm
    | none =>
      cases hr : Input.readWord? m.pending with
      | none =>
        rw [after_of_ok (interpretPending_of_none hd hr)]
        exact hP.take hPm List.nil_suffix
      | some read =>
        have hread := (List.suffix_cons _ _).trans (Input.suffix_of_readWord? hr)
        have hrest := (hP.interpret read.1).bind fun _ => ih
        rw [after_congr (interpretPending_of_some hd hr)]
        exact (hrest { m with pending := read.2 } hm).2 (hP.take hPm hread)

theorem drain : (Action.drain : Action Ext Unit).Preserving P := by
  intro m hm
  have hrun : Action.drain m =
      Action.interpretPending performer (m.pending.length + 1 + refillLimit) m := by
    rw [Action.drain]
  rw [after_congr hrun]
  exact hP.interpretPending _ m hm

/-- And so does the interpretation of everything that is pending. -/
theorem proceed {m : Machine Ext} (hm : m.dictionary.Native) (hPm : P m) :
    P ((Action.proceed : Action Ext Unit).after m) := by
  cases hd : m.draft with
  | none =>
    rw [after_congr (proceed_of_closed hd)]
    exact (hP.drain m hm).2 hPm
  | some draft =>
    rw [after_congr (proceed_of_open hd)]
    have hresume := hP.resumeDefinition hm (.inl hd) hPm
    obtain ⟨_, _, hx⟩ | hx := after_bind (Action.resumeDefinition performer draft)
      (fun _ => Action.drain) m
    · rw [hx]
      exact (hP.drain _ (evolving_resumeDefinition draft m hm).native).2 hresume
    · rw [hx]
      exact hresume

/-- It is kept by any texts, if they may be queued. -/
theorem afterTexts (hqueue : ∀ (m : Machine Ext) (text : String), P m →
    P { m with pending := m.pending ++ Input.ofText text }) {m : Machine Ext}
    (hm : m.dictionary.Native) (hPm : P m) (texts : List String) :
    P (m.afterCalls (texts.map .eval)) := by
  -- the machine changes from text to text
  induction texts generalizing m with
  | nil => exact hPm
  | cons text texts ih =>
    have heval : P ((Machine.eval text).after m) := by
      rw [after_congr (eval_eq_proceed text m)]
      exact hP.proceed hm (hqueue m text hPm)
    exact ih (keeping_eval text m hm).native heval

end Machine.Persistent

end ThreadedForth
