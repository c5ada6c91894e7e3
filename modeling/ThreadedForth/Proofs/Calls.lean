import ThreadedForth.Proofs.Evolution

/-!
# Calls from outside

A program that uses an interpreter makes calls, one after the other; a call that fails leaves the
machine as the fault found it, and the next one goes on from there (`Machine.afterCalls`). No call
changes the width of the cells, and none brings in words that are not native.
-/

namespace ThreadedForth

variable {Ext : Type}

/-- A call to an interpreter. -/
inductive Call where
  | eval (text : String)
  | execute (text : String)
  | finish
  | resetInput
  | push (values : List Number.Datum)
  | pop
  | defineWord (name : String) (tokens : List String)
  | copyWord (new old : String)

/-- Makes a call; what it answers is of no interest here. -/
def Call.run [Extension Ext] : Call → Action Ext Unit
  | .eval text => Machine.eval text
  | .execute text => Machine.execute text
  | .finish => Action.finish
  | .resetInput => Action.resetInput
  | .push values => Action.push values
  | .pop => Action.pop >>= fun _ => pure ()
  | .defineWord name tokens => Machine.defineWord name tokens >>= fun _ => pure ()
  | .copyWord new old => Action.copyWord new old >>= fun _ => pure ()

/-- The machine after calls, whether they fail or not. -/
def Machine.afterCalls [Extension Ext] (m : Machine Ext) (calls : List Call) : Machine Ext :=
  calls.foldl (fun m call => call.run.after m) m

namespace Action

variable {α : Type}

/-- An action that changes neither the width nor the dictionary keeps both. -/
theorem keeping_of_eq {a : Action Ext α}
    (h : ∀ m, (a.after m).width = m.width ∧ (a.after m).dictionary = m.dictionary) :
    a.Keeping := by
  intro m hm
  obtain ⟨hw, hd⟩ := h m
  exact ⟨hw, hd ▸ hm⟩

theorem keeping_pure (x : α) : (pure x : Action Ext α).Keeping :=
  keeping_of_eq fun _ => ⟨rfl, rfl⟩

theorem keeping_modify {f : Machine Ext → Machine Ext} (hw : ∀ m, (f m).width = m.width)
    (hd : ∀ m, (f m).dictionary = m.dictionary) : (modify f : Action Ext Unit).Keeping :=
  keeping_of_eq fun m => ⟨hw m, hd m⟩

theorem keeping_get {f : Machine Ext → Action Ext α} (h : ∀ m, (f m).Keeping) :
    (get >>= f : Action Ext α).Keeping :=
  fun m hm => h m m hm

theorem keeping_throw (fault : Fault) : (throw fault : Action Ext α).Keeping :=
  keeping_of_eq fun _ => ⟨rfl, rfl⟩

theorem keeping_ofExcept (result : Except Fault α) : (ofExcept result : Action Ext α).Keeping := by
  cases result with
  | ok x => exact keeping_pure x
  | error fault => exact keeping_throw fault

theorem keeping_finish : (finish : Action Ext Unit).Keeping := by
  refine keeping_get fun m => ?_
  cases m.draft with
  | none => exact keeping_pure ()
  | some draft =>
    refine Keeping.bind (keeping_modify (fun _ => rfl) fun _ => rfl) fun _ => ?_
    cases draft with
    | unnamed => exact keeping_throw _
    | named name body => exact keeping_throw _

theorem keeping_push (values : List Number.Datum) : (push values : Action Ext Unit).Keeping := by
  induction values with
  | nil => exact keeping_pure ()
  | cons datum rest ih =>
    refine (keeping_ofExcept datum.toInt).bind fun v => keeping_get fun m => ?_
    exact Keeping.bind (keeping_modify (fun _ => rfl) fun _ => rfl) fun _ => ih

theorem keeping_pop : (pop : Action Ext (Option Int)).Keeping := by
  refine keeping_of_eq fun m => ?_
  cases hs : m.stack with
  | nil =>
    have hrun : pop m = .ok none m := by rw [pop, hs]
    rw [after_of_ok hrun]
    exact ⟨rfl, rfl⟩
  | cons v stack =>
    have hrun : pop m = .ok (some v) { m with stack := stack } := by rw [pop, hs]
    rw [after_of_ok hrun]
    exact ⟨rfl, rfl⟩

/-- A copy of a native word is native. -/
theorem keeping_copyWord (new old : String) : (copyWord new old : Action Ext (Word Ext)).Keeping := by
  intro m hm
  cases hl : m.dictionary.lookup old with
  | none =>
    have hrun : copyWord new old m = .error (.unknownWord old) m := by
      rw [copyWord, get_bind, hl]
      rfl
    rw [after_of_error hrun]
    exact ⟨rfl, hm⟩
  | some w =>
    have hrun : copyWord new old m = .ok ⟨some new, w.immediate, w.body⟩ { m with
        dictionary := m.dictionary.define new w.immediate w.body
        log := .copied new old :: m.log } := by
      rw [copyWord, get_bind, hl]
      rfl
    rw [after_of_ok hrun]
    exact ⟨rfl, hm.define_copy hl⟩

section Running

variable [Extension Ext]

theorem keeping_eval (text : String) : (Machine.eval text : Action Ext Unit).Keeping := by
  intro m hm
  have h := evolving_proceed { m with pending := m.pending ++ Input.ofText text } hm
  rw [after_congr (eval_eq_proceed text m)]
  exact ⟨h.width, h.native⟩

theorem keeping_defineWord (name : String) (tokens : List String) :
    (Machine.defineWord name tokens : Action Ext (Word Ext)).Keeping := by
  intro m hm
  cases hc : captured m.resolve tokens with
  | ok words =>
    obtain ⟨log, hd⟩ := defineWord_of_captured nestingLimit name hm hc
    have hrun : Machine.defineWord name tokens m = _ := hd
    rw [after_of_ok hrun]
    exact ⟨rfl, hm.define (Machine.native_of_captured hm hc _)⟩
  | error fault =>
    obtain ⟨log, hd⟩ := defineWord_of_refused nestingLimit name hm.onlyComments hc
    have hrun : Machine.defineWord name tokens m = _ := hd
    rw [after_of_error hrun]
    exact ⟨rfl, hm⟩

end Running

end Action

section Calls

variable [Extension Ext]

/-- No call changes the width or brings in words that are not native. -/
theorem Call.keeping (call : Call) : (call.run : Action Ext Unit).Keeping := by
  cases call with
  | eval text => exact Action.keeping_eval text
  | execute text => exact (Action.keeping_eval text).bind fun _ => Action.keeping_finish
  | finish => exact Action.keeping_finish
  | resetInput => exact Action.keeping_modify (fun _ => rfl) fun _ => rfl
  | push values => exact Action.keeping_push values
  | pop => exact Action.keeping_pop.bind fun _ => Action.keeping_pure ()
  | defineWord name tokens =>
    exact (Action.keeping_defineWord name tokens).bind fun _ => Action.keeping_pure ()
  | copyWord new old => exact (Action.keeping_copyWord new old).bind fun _ => Action.keeping_pure ()

namespace Machine

/-- Nor do any number of calls. -/
theorem keeps_afterCalls {m : Machine Ext} (hm : m.dictionary.Native) (calls : List Call) :
    m.Keeps (m.afterCalls calls) := by
  -- the machine changes from call to call, whether the call fails or not
  induction calls generalizing m with
  | nil => exact ⟨rfl, hm⟩
  | cons call calls ih =>
    have hcall := call.keeping m hm
    have hrest := ih hcall.native
    exact ⟨hrest.width.trans hcall.width, hrest.native⟩

theorem native_afterCalls (width : CellWidth) (calls : List Call) :
    ((fresh width : Machine Ext).afterCalls calls).dictionary.Native :=
  (keeps_afterCalls (native_fresh width) calls).native

end Machine

end Calls

end ThreadedForth
