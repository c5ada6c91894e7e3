import ThreadedForth.Machine

/-!
# Running threaded code

A compiled body is a thread of words, each again with a body. `Body.run` follows the threads with a
work stack of what is still to be run, one frame for each thread that has been entered, and so needs
no room on the host's own stack however deep the words nest. What it runs in the end are the leaves
of the body (`Body.leaves`), its literals and primitives from left to right, and nothing else
(`Body.run_eq_forM`).
-/

namespace ThreadedForth

variable {Ext : Type}

/-- What a body consists of in the end. -/
inductive Leaf (Ext : Type) where
  | push (v : Int)
  | primitive (p : Primitive Ext)
deriving DecidableEq, Repr

/-- How primitives run. -/
abbrev Performer (Ext : Type) := Primitive Ext → Action Ext Unit

/-- Runs a leaf. -/
def Leaf.run (perform : Performer Ext) : Leaf Ext → Action Ext Unit
  | .push v => Action.pushCell v
  | .primitive p => perform p

namespace Body

/-! ## Leaves -/

mutual

/-- The literals and primitives of a body, from left to right. -/
def leaves : Body Ext → List (Leaf Ext)
  | .primitive p => [.primitive p]
  | .literal v => [.push v]
  | .compiled words => leavesOfWords words

/-- The leaves of the words of a thread, one word after the other. -/
def leavesOfWords : List (Entry (Body Ext)) → List (Leaf Ext)
  | [] => []
  | ⟨_, _, body⟩ :: rest => body.leaves ++ leavesOfWords rest

end

/-! ## The work stack -/

mutual

/-- The number of steps that the work stack takes over a body. -/
def steps : Body Ext → Nat
  | .primitive _ => 1
  | .literal _ => 1
  | .compiled words => 2 + stepsOfWords words

/-- The number of steps over the words of a thread. -/
def stepsOfWords : List (Entry (Body Ext)) → Nat
  | [] => 0
  | ⟨_, _, body⟩ :: rest => body.steps + stepsOfWords rest

end

/-- The bodies of a frame that are still to be run. -/
abbrev Frame (Ext : Type) := List (Body Ext)

/-- The frame of the words of a thread. -/
def frameOfWords (words : List (Word Ext)) : Frame Ext :=
  words.map Entry.body

/-- The number of steps over the bodies of a frame. -/
def stepsOfFrame : Frame Ext → Nat
  | [] => 0
  | body :: rest => body.steps + stepsOfFrame rest

/-- The number of steps that are left, the end of each frame being one. -/
def stepsLeft : List (Frame Ext) → Nat
  | [] => 0
  | frame :: frames => stepsOfFrame frame + 1 + stepsLeft frames

theorem stepsOfFrame_frameOfWords (words : List (Word Ext)) :
    stepsOfFrame (frameOfWords words) = stepsOfWords words := by
  induction words with
  | nil => rfl
  | cons w rest ih =>
    obtain ⟨_, _, body⟩ := w
    rw [stepsOfWords, ← ih]
    rfl

/-- Runs what the frames hold, the last frame first. -/
def runFrames (perform : Performer Ext) : List (Frame Ext) → Action Ext Unit
  | [] => pure ()
  | [] :: frames => runFrames perform frames
  | (.literal v :: frame) :: frames => do
    Action.pushCell v
    runFrames perform (frame :: frames)
  | (.primitive p :: frame) :: frames => do
    perform p
    runFrames perform (frame :: frames)
  | (.compiled words :: frame) :: frames =>
    runFrames perform (frameOfWords words :: frame :: frames)
termination_by frames => stepsLeft frames
decreasing_by
  all_goals simp only [stepsLeft, stepsOfFrame, steps]
  · omega
  · omega
  · omega
  · rw [stepsOfFrame_frameOfWords]
    omega

/-- Runs a body. -/
def run (perform : Performer Ext) (body : Body Ext) : Action Ext Unit :=
  runFrames perform [[body]]

/-! ## Threads are their leaves -/

/-- The leaves of what the frames hold, in the order in which they run. -/
def leavesOfFrames (frames : List (Frame Ext)) : List (Leaf Ext) :=
  frames.flatMap fun frame => frame.flatMap leaves

theorem flatMap_leaves_frameOfWords (words : List (Word Ext)) :
    (frameOfWords words).flatMap leaves = leavesOfWords words := by
  induction words with
  | nil => rfl
  | cons w rest ih =>
    obtain ⟨_, _, body⟩ := w
    rw [leavesOfWords, ← ih]
    rfl

/-- The work stack runs the leaves of its frames, one after the other. -/
theorem runFrames_eq_forM (perform : Performer Ext) (frames : List (Frame Ext)) :
    runFrames perform frames = (leavesOfFrames frames).forM (Leaf.run perform) := by
  fun_induction runFrames perform frames with
  | case1 => rfl
  | case2 frames ih => exact ih
  | case3 v frame frames ih => rw [ih]; rfl
  | case4 p frame frames ih => rw [ih]; rfl
  | case5 words frame frames ih =>
    rw [ih, leavesOfFrames, leavesOfFrames, List.flatMap_cons, flatMap_leaves_frameOfWords]
    simp [leaves]

/-- A body runs as the sequence of its leaves. -/
theorem run_eq_forM (perform : Performer Ext) (body : Body Ext) :
    body.run perform = body.leaves.forM (Leaf.run perform) := by
  rw [run, runFrames_eq_forM]
  simp [leavesOfFrames]

theorem leaves_compiled (words : List (Word Ext)) :
    (Body.compiled words).leaves = words.flatMap fun w => w.body.leaves := by
  rw [leaves]
  induction words with
  | nil => rfl
  | cons w rest ih =>
    obtain ⟨_, _, body⟩ := w
    rw [leavesOfWords, ih]
    rfl

theorem run_primitive (perform : Performer Ext) (p : Primitive Ext) :
    (Body.primitive p).run perform = perform p := by
  rw [run_eq_forM]
  show (perform p >>= fun _ => pure ()) = _
  exact bind_pure _

/-- A thread runs its first word, and then the others. -/
theorem run_compiled_cons (perform : Performer Ext) (w : Word Ext) (words : List (Word Ext)) :
    (Body.compiled (w :: words)).run perform =
      (w.body.run perform >>= fun _ => (Body.compiled words).run perform) := by
  rw [run_eq_forM, run_eq_forM, run_eq_forM, leaves_compiled, leaves_compiled, List.flatMap_cons]
  exact List.forM_append

theorem run_compiled_nil (perform : Performer Ext) :
    (Body.compiled []).run perform = pure () := by
  rw [run_eq_forM, leaves_compiled]
  rfl

end Body

end ThreadedForth
