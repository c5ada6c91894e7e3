import ThreadedForth.Proofs.Calls
import ThreadedForth.Proofs.Soundness

/-!
# What holds after any calls

A fresh machine is sound, and every call leads from a sound machine to a sound one, whether it fails
or not (`Call.sound`). So after any calls all numbers fit their cells (`cells_in_range_afterCalls`),
and the open definition and the pending input are in order (`orderly_afterCalls`): an open definition
has used up all that was pending, a text that is interpreted to its end leaves nothing pending, and
one that fails leaves a piece of what was to be interpreted.
-/

namespace ThreadedForth

variable {Ext : Type}

/-! ## Calls -/

theorem Machine.sound_fresh (width : CellWidth) (tokens : List String) :
    (fresh width : Machine Ext).Sound width tokens where
  width_eq := rfl
  dictionary := by
    rw [fresh_dictionary]
    exact Dictionary.sound_builtin width
  stack := nofun
  pending := List.nil_subset _
  draft := nofun

namespace Action

variable {width : CellWidth} {tokens : List String} {m : Machine Ext}

theorem finish_of_closed (h : m.draft = none) : finish m = .ok () m := by
  rw [finish, get_bind, h]
  rfl

theorem finish_of_open {draft : Draft} (h : m.draft = some draft) :
    ∃ message, finish m = .error (.malformedDefinition message) { m with draft := none } := by
  rw [finish, get_bind, h]
  cases draft with
  | unnamed => exact ⟨_, rfl⟩
  | named name body => exact ⟨_, rfl⟩

/-- The end of the input drops the open definition, if there is one. -/
theorem finish_after (m : Machine Ext) : finish.after m = { m with draft := none } := by
  cases hd : m.draft with
  | none => rw [after_of_ok (finish_of_closed hd), ← hd]
  | some draft =>
    obtain ⟨message, hrun⟩ := finish_of_open hd
    exact after_of_error hrun

theorem sound_finish (hm : m.Sound width tokens) : (finish.after m).Sound width tokens := by
  rw [finish_after]
  exact hm.closed

theorem push_of_error {datum : Number.Datum} {fault : Fault} (h : datum.toInt = .error fault)
    (rest : List Number.Datum) : push (datum :: rest) m = .error fault m := by
  rw [push, h]
  rfl

theorem push_of_ok {datum : Number.Datum} {v : Int} (h : datum.toInt = .ok v)
    (rest : List Number.Datum) :
    push (datum :: rest) m = push rest { m with stack := m.width.wrap v :: m.stack } := by
  rw [push, h]
  rfl

theorem sound_push (values : List Number.Datum) (hm : m.Sound width tokens) :
    ((push values).after m).Sound width tokens := by
  induction values generalizing m with
  | nil => exact hm
  | cons datum rest ih =>
    cases hv : datum.toInt with
    | error fault =>
      rw [after_of_error (push_of_error hv rest)]
      exact hm
    | ok v =>
      rw [after_congr (push_of_ok hv rest)]
      refine ih (hm.withStack (List.forall_mem_cons.2 ⟨?_, hm.stack⟩))
      rw [hm.width_eq]
      exact width.holds_wrap v

theorem sound_pop (hm : m.Sound width tokens) : (pop.after m).Sound width tokens := by
  have hcells := hm.stack
  rw [after, pop]
  cases hs : m.stack with
  | nil => exact hm
  | cons v stack =>
    rw [hs, List.forall_mem_cons] at hcells
    exact hm.withStack hcells.2

theorem sound_copyWord (new old : String) (hm : m.Sound width tokens) :
    ((copyWord new old).after m).Sound width tokens := by
  rw [after, copyWord, get_bind]
  cases hl : m.dictionary.lookup old with
  | none => exact hm
  | some w => exact ⟨hm.width_eq, hm.dictionary.define_copy hl, hm.stack, hm.pending, hm.draft⟩

end Action

/-- A call leaves a sound machine, whether it fails or not. -/
theorem Call.sound [Extension Ext] (call : Call) {width : CellWidth} {tokens : List String}
    {m : Machine Ext} (hm : m.Sound width tokens) :
    ∃ tokens', (call.run.after m).Sound width tokens' := by
  cases call with
  | eval text => exact ⟨_, (Action.settles_eval hm text).sound⟩
  | execute text =>
    have heval := (Action.settles_eval hm text).sound
    obtain ⟨_, _, hx⟩ | hx := Action.after_bind (Machine.eval text) (fun _ => Action.finish) m
    · exact ⟨_, hx ▸ Action.sound_finish heval⟩
    · exact ⟨_, hx ▸ heval⟩
  | finish => exact ⟨_, Action.sound_finish hm⟩
  | resetInput => exact ⟨tokens, hm.width_eq, hm.dictionary, hm.stack, List.nil_subset _, nofun⟩
  | push values => exact ⟨_, Action.sound_push values hm⟩
  | pop => exact ⟨_, (Action.after_discard _ m).symm ▸ Action.sound_pop hm⟩
  | defineWord name body =>
    have hdefine := Action.settles_defineWord_of_any hm name body
    exact ⟨_, (Action.after_discard _ m).symm ▸ hdefine.sound⟩
  | copyWord new old => exact ⟨_, (Action.after_discard _ m).symm ▸ Action.sound_copyWord new old hm⟩

/-- So do any number of calls. -/
theorem Machine.sound_afterCalls [Extension Ext] (width : CellWidth) (calls : List Call) :
    ∃ tokens, ((fresh width : Machine Ext).afterCalls calls).Sound width tokens := by
  have hall : ∀ m : Machine Ext, (∃ tokens, m.Sound width tokens) →
      ∃ tokens, (m.afterCalls calls).Sound width tokens := by
    -- the machine changes from call to call
    induction calls with
    | nil => exact fun _ hm => hm
    | cons call calls ih =>
      rintro m ⟨tokens, hm⟩
      exact ih _ (call.sound hm)
  exact hall _ ⟨[], sound_fresh width []⟩

/-! ## Cells -/

/-- Take a fresh machine with cells of any width, and the machine after any calls. Every number on
its stack lies in the range of a cell, and so does every number in its words, however deep it is
nested. -/
theorem cells_in_range_afterCalls [Extension Ext] (width : CellWidth) (calls : List Call) :
    (∀ v ∈ ((Machine.fresh width : Machine Ext).afterCalls calls).stack,
      -(Nat.pow 2 (width.bits - 1) : Int) ≤ v ∧ v ≤ Nat.pow 2 (width.bits - 1) - 1) ∧
    ∀ name w, ((Machine.fresh width : Machine Ext).afterCalls calls).dictionary.lookup name = some w →
      ∀ v, Leaf.push v ∈ w.body.leaves →
        -(Nat.pow 2 (width.bits - 1) : Int) ≤ v ∧ v ≤ Nat.pow 2 (width.bits - 1) - 1 := by
  obtain ⟨tokens, hm⟩ := @Machine.sound_afterCalls Ext _ width calls
  constructor
  · intro v hv
    exact CellWidth.holds_iff.1 (hm.stack v hv)
  · intro name w hw v hv
    exact CellWidth.holds_iff.1 ((hm.dictionary hw).2.fits v hv)

/-- Cells of eight bits. -/
def eightBits : CellWidth := ⟨8, by decide⟩

/-- Calls that leave the range three times: by a number from outside, by the least number divided by
minus one, and by a sum before an unknown word. -/
def overflowing : List Call :=
  [.push [.integer 200], .eval ": low -128 ; low -1 /", .eval "127 1 + frob"]

/-- Every time the result is wrapped. -/
theorem overflowing_in_range :
    ((Machine.fresh eightBits : Machine Empty).afterCalls overflowing).stack = [-128, -128, -56] ∧
    ∀ v ∈ ((Machine.fresh eightBits : Machine Empty).afterCalls overflowing).stack,
      -(Nat.pow 2 (eightBits.bits - 1) : Int) ≤ v ∧ v ≤ Nat.pow 2 (eightBits.bits - 1) - 1 :=
  ⟨by decide +kernel, (cells_in_range_afterCalls eightBits overflowing).1⟩

/-! ## Definitions and pending input -/

/-- The open definition and the pending input fit together. `closed` and `unnamed` hold of every
machine, since the name and the body of a definition are those of its draft: the type of the draft
carries them. What calls have to keep is `waiting` and `noEnd`. -/
structure Machine.Orderly (m : Machine Ext) : Prop where
  closed : m.isDefining = false → m.definitionName = none ∧ m.definitionBody = []
  waiting : m.isDefining = true → m.pending = []
  noEnd : ";" ∉ m.definitionBody
  unnamed : m.definitionName = none → m.definitionBody = []

theorem Machine.Sound.orderly {width : CellWidth} {tokens : List String} {m : Machine Ext}
    (h : m.Sound width tokens) : m.Orderly where
  closed := definition_of_not_defining
  waiting hopen := by
    obtain ⟨draft, hd⟩ := Option.isSome_iff_exists.1 hopen
    exact (h.draft draft hd).1
  noEnd := by
    rw [definitionBody]
    cases hd : m.draft with
    | none => exact List.not_mem_nil
    | some draft => exact (h.draft draft hd).2.noEnd
  unnamed := definitionBody_of_unnamed

namespace Action

/-- The loop goes on until a definition is open or nothing is pending. -/
theorem open_or_drained_of_interpretPending {perform : Performer Ext} {budget : Nat}
    {m m' : Machine Ext} (h : interpretPending perform budget m = .ok () m') :
    m'.isDefining = true ∨ m'.pending = [] := by
  induction budget generalizing m with
  | zero => cases h
  | succ budget ih =>
    cases hd : m.draft with
    | some draft =>
      rw [interpretPending_of_open hd] at h
      cases h
      exact .inl (by rw [Machine.isDefining, hd]; rfl)
    | none =>
      cases hr : Input.readWord? m.pending with
      | none =>
        rw [interpretPending_of_none hd hr] at h
        cases h
        exact .inr rfl
      | some read =>
        rw [interpretPending_of_some hd hr] at h
        cases hi : interpret perform read.1 { m with pending := read.2 } with
        | error fault m₁ =>
          rw [bind_of_error hi] at h
          cases h
        | ok _ m₁ =>
          rw [bind_of_ok hi] at h
          exact ih h

theorem open_or_drained_of_eval [Extension Ext] {text : String} {m m' : Machine Ext}
    (h : Machine.eval text m = .ok () m') : m'.isDefining = true ∨ m'.pending = [] := by
  rw [eval_eq_proceed] at h
  generalize { m with pending := m.pending ++ Input.ofText text } = queued at h
  cases hd : queued.draft with
  | none =>
    rw [proceed_of_closed hd, drain] at h
    exact open_or_drained_of_interpretPending h
  | some draft =>
    rw [proceed_of_open hd] at h
    cases hr : resumeDefinition Machine.performer draft queued with
    | error fault m₁ =>
      rw [bind_of_error hr] at h
      cases h
    | ok _ m₁ =>
      rw [bind_of_ok hr, drain] at h
      exact open_or_drained_of_interpretPending h

end Action

/-- Take a fresh machine after any calls. Without an open definition it has no name and no body of
one; with an open definition nothing is pending; the collected body has no semicolon, and is empty as
long as the name is missing. A further text is either interpreted to its end, and leaves nothing
pending; or it stops with a fault, and what is pending then is the end of what was pending before
with the text after it. -/
theorem orderly_afterCalls [Extension Ext] {width : CellWidth} {calls : List Call} {m : Machine Ext}
    (hm : m = (Machine.fresh width).afterCalls calls) :
    m.Orderly ∧ ∀ text,
      ((Machine.eval text).fault? m = none ∧ ((Machine.eval text).after m).pending = []) ∨
      ∃ fault, (Machine.eval text).fault? m = some fault ∧
        ((Machine.eval text).after m).pending <:+ m.pending ++ Input.ofText text := by
  obtain ⟨tokens, hsound⟩ := @Machine.sound_afterCalls Ext _ width calls
  rw [← hm] at hsound
  refine ⟨hsound.orderly, fun text => ?_⟩
  have hafter := (Action.settles_eval hsound text).sound
  cases hrun : Machine.eval text m with
  | ok _ m' =>
    rw [Action.after_of_ok hrun] at hafter ⊢
    refine .inl ⟨Action.fault?_of_ok hrun, ?_⟩
    exact (Action.open_or_drained_of_eval hrun).elim hafter.orderly.waiting id
  | error fault m' =>
    have hevo := Action.evolving_proceed { m with pending := m.pending ++ Input.ofText text }
      hsound.native
    rw [← Action.after_congr (Action.eval_eq_proceed text m)] at hevo
    exact .inr ⟨fault, Action.fault?_of_error hrun, hevo.pending⟩

/-- A machine in the middle of a definition, which came after the rest of a text that had failed. -/
def halfway : Machine Empty :=
  (Machine.fresh .standard).afterCalls [.eval "1 frob 2 3", .eval ": w dup"]

/-- It has collected a word and waits for more; an unknown word then stops the definition, and what
follows the definition is still pending. -/
theorem orderly_halfway :
    (halfway.definitionBody = ["dup"] ∧ halfway.Orderly) ∧
      Input.words ((Machine.eval "frob ; 4 5").after halfway).pending = ["4", "5"] ∧
      ((Machine.eval "frob ; 4 5").after halfway).pending <:+
        halfway.pending ++ Input.ofText "frob ; 4 5" := by
  obtain ⟨horderly, hends⟩ := orderly_afterCalls (m := halfway) rfl
  have hstops : (Machine.eval "frob ; 4 5").fault? halfway = some (.unknownWord "frob") := by
    decide +kernel
  obtain ⟨hreturns, _⟩ | ⟨_, _, hsuffix⟩ := hends "frob ; 4 5"
  · exact absurd (hreturns.symm.trans hstops) nofun
  · exact ⟨⟨by decide +kernel, horderly⟩, by decide +kernel, hsuffix⟩

end ThreadedForth
