import ThreadedForth.Proofs.Outcome

/-!
# The work stack

What a body does can be said by recursion: a thread does what its words do, one after the other
(`Body.meaning`). The interpreter does not recurse. It goes round a loop with a stack of frames,
where a turn drops an empty frame, pushes a number, enters a thread or performs a primitive
(`Body.Turn`). The two are the same (`work_stack_runs_leaves`):

* a turn changes nothing of what is still to come (`Turn.runFrames_eq`);
* every turn takes one step off the number of steps that are left (`Turn.stepsLeft_eq`), so the loop
  comes to an end, and the bound is known from the body alone;
* what the loop does is what the leaves of the body do from left to right, up to the first that
  fails.

How primitives are performed is left open: they may change anything, and fail.
-/

namespace ThreadedForth

variable {Ext : Type}

namespace Body

/-! ## The meaning of a body -/

mutual

/-- What a body does, by recursion over its threads. -/
def meaning (perform : Performer Ext) : Body Ext → Action Ext Unit
  | .primitive p => perform p
  | .literal v => Action.pushCell v
  | .compiled words => meaningOfWords perform words

/-- What the words of a thread do, one after the other. -/
def meaningOfWords (perform : Performer Ext) : List (Entry (Body Ext)) → Action Ext Unit
  | [] => pure ()
  | ⟨_, _, body⟩ :: rest => do
    body.meaning perform
    meaningOfWords perform rest

end

mutual

/-- A body means what its leaves do, -/
theorem meaning_eq_forM (perform : Performer Ext) :
    (body : Body Ext) → body.meaning perform = body.leaves.forM (Leaf.run perform)
  | .primitive p => (bind_pure (perform p)).symm
  | .literal v => rfl
  | .compiled words => by
    rw [meaning, leaves]
    exact meaningOfWords_eq_forM perform words

/-- and a thread what the leaves of its words do. -/
theorem meaningOfWords_eq_forM (perform : Performer Ext) :
    (words : List (Entry (Body Ext))) →
      meaningOfWords perform words = (leavesOfWords words).forM (Leaf.run perform)
  | [] => rfl
  | ⟨_, _, body⟩ :: rest => by
    rw [meaningOfWords, leavesOfWords, meaning_eq_forM perform body,
      meaningOfWords_eq_forM perform rest]
    exact List.forM_append.symm

end

/-! ## Turns of the loop -/

/-- What the loop is at: the frames, the last one first, and the machine. -/
structure Loop (Ext : Type) where
  frames : List (Frame Ext)
  machine : Machine Ext

/-- A turn of the loop that goes on. -/
inductive Turn (perform : Performer Ext) : Loop Ext → Loop Ext → Prop
  | leave {frames : List (Frame Ext)} {m : Machine Ext} :
      Turn perform ⟨[] :: frames, m⟩ ⟨frames, m⟩
  | push {v : Int} {frame : Frame Ext} {frames : List (Frame Ext)} {m : Machine Ext} :
      Turn perform ⟨(.literal v :: frame) :: frames, m⟩
        ⟨frame :: frames, { m with stack := v :: m.stack }⟩
  | enter {words : List (Word Ext)} {frame : Frame Ext} {frames : List (Frame Ext)}
      {m : Machine Ext} :
      Turn perform ⟨(.compiled words :: frame) :: frames, m⟩
        ⟨frameOfWords words :: frame :: frames, m⟩
  | perform {p : Primitive Ext} {frame : Frame Ext} {frames : List (Frame Ext)}
      {m m' : Machine Ext} : perform p m = .ok () m' →
      Turn perform ⟨(.primitive p :: frame) :: frames, m⟩ ⟨frame :: frames, m'⟩

/-- Where the loop ends, and how: without a frame, or at a primitive that fails. -/
inductive Ends (perform : Performer Ext) :
    Loop Ext → EStateM.Result Fault (Machine Ext) Unit → Prop
  | drained {m : Machine Ext} : Ends perform ⟨[], m⟩ (.ok () m)
  | stopped {p : Primitive Ext} {frame : Frame Ext} {frames : List (Frame Ext)}
      {m m' : Machine Ext} {fault : Fault} : perform p m = .error fault m' →
      Ends perform ⟨(.primitive p :: frame) :: frames, m⟩ (.error fault m')

/-- So many turns of the loop. -/
inductive Turns (perform : Performer Ext) : Nat → Loop Ext → Loop Ext → Prop
  | none {s : Loop Ext} : Turns perform 0 s s
  | more {n : Nat} {s s₁ s' : Loop Ext} :
      Turn perform s s₁ → Turns perform n s₁ s' → Turns perform (n + 1) s s'

section Loops

variable {perform : Performer Ext} {n : Nat} {s s' : Loop Ext}
  {result : EStateM.Result Fault (Machine Ext) Unit}

/-- A turn leaves it to the others to do the rest. -/
theorem Turn.runFrames_eq (h : Turn perform s s') :
    runFrames perform s.frames s.machine = runFrames perform s'.frames s'.machine := by
  cases h with
  | leave => rw [runFrames]
  | push =>
    rw [runFrames]
    exact Action.bind_of_ok rfl
  | enter => rw [runFrames]
  | perform hp => rw [runFrames, Action.bind_of_ok hp]

/-- A turn is one of the steps that are left. -/
theorem Turn.stepsLeft_eq (h : Turn perform s s') :
    stepsLeft s.frames = stepsLeft s'.frames + 1 := by
  cases h with
  | leave =>
    simp only [stepsLeft, stepsOfFrame]
    omega
  | push | perform =>
    simp only [stepsLeft, stepsOfFrame, steps]
    omega
  | enter =>
    simp only [stepsLeft, stepsOfFrame, steps, stepsOfFrame_frameOfWords]
    omega

/-- Where the loop ends, nothing else is to come. -/
theorem Ends.runFrames_eq (h : Ends perform s result) :
    runFrames perform s.frames s.machine = result := by
  cases h with
  | drained =>
    rw [runFrames]
    rfl
  | stopped hp => rw [runFrames, Action.bind_of_error hp]

/-- Where the loop does not end, there is another turn. -/
theorem ends_or_turn (perform : Performer Ext) (s : Loop Ext) :
    (∃ result, Ends perform s result) ∨ ∃ s', Turn perform s s' := by
  rcases s with ⟨_ | ⟨_ | ⟨p | v | words, frame⟩, frames⟩, m⟩
  · exact .inl ⟨_, .drained⟩
  · exact .inr ⟨_, .leave⟩
  · cases hp : perform p m with
    | ok _ m' => exact .inr ⟨_, .perform hp⟩
    | error fault m' => exact .inl ⟨_, .stopped hp⟩
  · exact .inr ⟨_, .push⟩
  · exact .inr ⟨_, .enter⟩

theorem Turns.runFrames_eq (h : Turns perform n s s') :
    runFrames perform s.frames s.machine = runFrames perform s'.frames s'.machine := by
  induction h with
  | none => rfl
  | more hturn _ ih => exact hturn.runFrames_eq.trans ih

theorem Turns.stepsLeft_eq (h : Turns perform n s s') :
    stepsLeft s.frames = stepsLeft s'.frames + n := by
  induction h with
  | none => rfl
  | more hturn _ ih =>
    have hstep := hturn.stepsLeft_eq
    omega

/-- The loop comes to an end. -/
theorem exists_turns (perform : Performer Ext) (s : Loop Ext) :
    ∃ n s', Turns perform n s s' ∧ Ends perform s' (runFrames perform s.frames s.machine) := by
  -- every turn leaves one step less
  induction hsteps : stepsLeft s.frames generalizing s with
  | zero =>
    rcases ends_or_turn perform s with ⟨result, hends⟩ | ⟨s₁, hturn⟩
    · exact ⟨0, s, .none, hends.runFrames_eq ▸ hends⟩
    · have hstep := hturn.stepsLeft_eq
      omega
  | succ steps ih =>
    rcases ends_or_turn perform s with ⟨result, hends⟩ | ⟨s₁, hturn⟩
    · exact ⟨0, s, .none, hends.runFrames_eq ▸ hends⟩
    · have hstep := hturn.stepsLeft_eq
      obtain ⟨n, s', hturns, hends⟩ := ih s₁ (by omega)
      rw [← hturn.runFrames_eq] at hends
      exact ⟨n + 1, s', .more hturn hturns, hends⟩

end Loops

/-- Two threads in a row are the one after the other. -/
theorem run_compiled_append (perform : Performer Ext) (us vs : List (Word Ext)) :
    (Body.compiled (us ++ vs)).run perform =
      ((Body.compiled us).run perform >>= fun _ => (Body.compiled vs).run perform) := by
  rw [run_eq_forM, run_eq_forM, run_eq_forM, leaves_compiled, leaves_compiled, leaves_compiled,
    List.flatMap_append]
  exact List.forM_append

end Body

open Body in
/-- Take any body, and any way to perform the primitives. To run the body does, on every machine, what
the body means by recursion, and what its leaves do from left to right. The loop over the work stack
comes to an end with that result. It takes at most `body.steps + 1` turns, and wherever it ends, the
result is the same. The run stops with a fault exactly if some leaf does, on the machine that the
leaves before it leave behind, and then the machine is as that leaf leaves it. Two threads in a row
run one after the other. -/
theorem work_stack_runs_leaves (perform : Performer Ext) (body : Body Ext) :
    body.run perform = body.meaning perform ∧
    body.run perform = body.leaves.forM (Leaf.run perform) ∧
    (∀ m, ∃ n s, Turns perform n ⟨[[body]], m⟩ s ∧ Ends perform s (body.run perform m)) ∧
    (∀ m n s, Turns perform n ⟨[[body]], m⟩ s → n ≤ body.steps + 1 ∧
      ∀ result, Ends perform s result → result = body.run perform m) ∧
    (∀ m fault m', body.run perform m = .error fault m' ↔
      ∃ before leaf behind m₁, body.leaves = before ++ leaf :: behind ∧
        before.forM (Leaf.run perform) m = .ok () m₁ ∧
        leaf.run perform m₁ = .error fault m') ∧
    ∀ us vs : List (Word Ext), (Body.compiled (us ++ vs)).run perform =
      ((Body.compiled us).run perform >>= fun _ => (Body.compiled vs).run perform) := by
  have hleaves := run_eq_forM perform body
  refine ⟨?_, hleaves, fun m => ?_, fun m n s h => ⟨?_, fun result hends => ?_⟩,
    fun m fault m' => ?_, run_compiled_append perform⟩
  · rw [hleaves, meaning_eq_forM]
  · exact exists_turns perform ⟨[[body]], m⟩
  · have hsteps := h.stepsLeft_eq
    simp only [stepsLeft, stepsOfFrame] at hsteps
    omega
  · rw [← hends.runFrames_eq]
    exact h.runFrames_eq.symm
  · rw [hleaves]
    exact Action.forM_eq_error_iff

end ThreadedForth
