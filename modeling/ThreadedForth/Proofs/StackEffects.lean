import Mathlib.Data.List.Forall2
import ThreadedForth.Proofs.Operands

/-!
# Stack effects

Most words need a fixed number of cells and change the depth of the stack by a fixed amount
(`Leaf.effect?`). So the depth is known beforehand all the way through a body of such words, and with it
how deep the stack has to be at the start (`StackEffect.need`). The prediction is exact
(`run_underflows_iff`): on a deep enough stack the body returns, on any other one it stops with the
first leaf that the prediction finds short of cells.
-/

namespace ThreadedForth

variable {Ext : Type}

/-! ## The prediction -/

/-- What is known of a leaf before it runs: how many cells it needs, and by how much it changes the
depth of the stack. If cells are missing, the fault names the word. -/
structure StackEffect where
  word : String
  arity : Nat
  net : Int
deriving DecidableEq, Repr

/-- The effect of a leaf, for those that have a fixed one and stop for nothing but missing cells. A
literal is named by no fault. -/
def Leaf.effect? : Leaf Ext → Option StackEffect
  | .push _ => some ⟨"", 0, 1⟩
  | .primitive .dup => some ⟨"dup", 1, 1⟩
  | .primitive .drop => some ⟨"drop", 1, -1⟩
  | .primitive .swap => some ⟨"swap", 2, 0⟩
  | .primitive .over => some ⟨"over", 2, 1⟩
  | .primitive .rot => some ⟨"rot", 3, 0⟩
  | .primitive .add => some ⟨"+", 2, -1⟩
  | .primitive .subtract => some ⟨"-", 2, -1⟩
  | .primitive .multiply => some ⟨"*", 2, -1⟩
  | .primitive .newline => some ⟨"cr", 0, 0⟩
  | .primitive .print => some ⟨".", 1, -1⟩
  | .primitive .printStack => some ⟨".S", 0, 0⟩
  | _ => none

namespace StackEffect

/-- The change of depth over effects in a row. -/
def total : List StackEffect → Int
  | [] => 0
  | e :: rest => e.net + total rest

/-- How many cells the effects need at the start, if the depth has changed by so much since then: for
each of them its own need less the change before it, and no less than none. -/
def needAfter (change : Int) : List StackEffect → Int
  | [] => 0
  | e :: rest => max (e.arity - change) (needAfter (change + e.net) rest)

/-- How many cells the effects need. -/
def need (effects : List StackEffect) : Int :=
  needAfter 0 effects

end StackEffect

/-! ## Leaves -/

/-- A machine with cells of this width, each of which holds its number. -/
structure Machine.Within (m : Machine Ext) (width : CellWidth) : Prop where
  width_eq : m.width = width
  cells : ∀ v ∈ m.stack, width.Holds v

namespace Action

/-- The action does what its effect says: with too few cells it stops and leaves the machine alone;
otherwise it returns, and changes the depth as predicted. -/
structure Meets (width : CellWidth) (e : StackEffect) (a : Action Ext Unit) : Prop where
  short : ∀ m, m.stack.length < e.arity →
    a m = .error (.stackUnderflow e.word e.arity m.stack.length) m
  deep : ∀ m, m.Within width → e.arity ≤ m.stack.length →
    ∃ m', a m = .ok () m' ∧ m'.Within width ∧ (m'.stack.length : Int) = m.stack.length + e.net

variable {width : CellWidth}

theorem meets_rearrange {word : String} {arity : Nat} {net : Int}
    {f : List Int → Option (List Int)} (hshort : ∀ stack, stack.length < arity → f stack = none)
    (hdeep : ∀ stack, arity ≤ stack.length → ∃ stack', f stack = some stack' ∧ stack' ⊆ stack ∧
      (stack'.length : Int) = stack.length + net) :
    Meets width ⟨word, arity, net⟩ (rearrange word arity f : Action Ext Unit) where
  short m h := by rw [rearrange, hshort m.stack h]
  deep m hm h := by
    obtain ⟨stack, hs, hsubset, hlength⟩ := hdeep m.stack h
    refine ⟨{ m with stack := stack }, ?_, ⟨hm.width_eq, fun v hv => hm.cells v (hsubset hv)⟩,
      hlength⟩
    rw [rearrange, hs]

theorem meets_binary (word : String) (op : Int → Int → Int) :
    Meets width ⟨word, 2, -1⟩ (binary word op : Action Ext Unit) where
  short m h := binary_of_short h word op
  deep m hm h := by
    rcases hs : m.stack with _ | ⟨b, _ | ⟨a, rest⟩⟩
    · simp [hs] at h
    · simp [hs] at h
    · have hcells := hm.cells
      rw [hs, List.forall_mem_cons, List.forall_mem_cons] at hcells
      refine ⟨_, binary_of_cons hs word op, ⟨hm.width_eq, ?_⟩, ?_⟩
      · rw [List.forall_mem_cons, hm.width_eq]
        exact ⟨width.holds_wrap _, hcells.2.2⟩
      · simp only [List.length_cons]
        omega

theorem meets_printTop (hbits : width.bits ≤ CellWidth.widestWritable) :
    Meets width ⟨".", 1, -1⟩ (printTop : Action Ext Unit) where
  short m h := by
    have hs : m.stack = [] := List.length_eq_zero_iff.1 (Nat.lt_one_iff.1 h)
    rw [printTop, get_bind, hs]
    rfl
  deep m hm h := by
    cases hs : m.stack with
    | nil => simp [hs] at h
    | cons v rest =>
      have hcells := hm.cells
      rw [hs, List.forall_mem_cons] at hcells
      have hrun := printTop_of_cons hs
      rw [CellWidth.write_of_holds hbits hcells.1] at hrun
      refine ⟨_, hrun, ⟨hm.width_eq, hcells.2⟩, ?_⟩
      show (rest.length : Int) = (v :: rest).length + -1
      rw [List.length_cons]
      omega

theorem meets_printStack (hbits : width.bits ≤ CellWidth.widestWritable) :
    Meets width ⟨".S", 0, 0⟩ (printStack : Action Ext Unit) where
  short m h := absurd h (Nat.not_lt_zero _)
  deep m hm _ := by
    cases hcells : m.stack.reverse.mapM Number.write with
    | ok cells =>
      refine ⟨m.withEffect m.stack ("[" ++ ", ".intercalate cells ++ "]" ++ "\n"), ?_,
        ⟨hm.width_eq, hm.cells⟩, ?_⟩
      · rw [printStack, get_bind, Machine.stackText, hcells]
        rfl
      · exact (Int.add_zero _).symm
    | error fault =>
      obtain ⟨v, hv, hwrite⟩ := error_of_mapM hcells
      rw [CellWidth.write_of_holds hbits (hm.cells v (List.mem_reverse.1 hv))] at hwrite
      cases hwrite

/-- Every leaf with an effect does what the effect says. -/
theorem meets_leaf [Extension Ext] (hbits : width.bits ≤ CellWidth.widestWritable)
    (nested : Performer Ext) {leaf : Leaf Ext} {e : StackEffect} (he : leaf.effect? = some e)
    (hv : ∀ v, leaf = .push v → width.Holds v) : Meets width e (leaf.run (step nested)) := by
  cases leaf with
  | push v =>
    cases he
    refine ⟨fun m h => absurd h (Nat.not_lt_zero _), fun m hm _ => ⟨_, rfl, ⟨hm.width_eq, ?_⟩, ?_⟩⟩
    · exact List.forall_mem_cons.2 ⟨hv v rfl, hm.cells⟩
    · exact Int.natCast_succ _
  | primitive p =>
    cases p with
    | add | subtract | multiply =>
      cases he
      exact meets_binary _ _
    | print =>
      cases he
      exact meets_printTop hbits
    | printStack =>
      cases he
      exact meets_printStack hbits
    | newline =>
      cases he
      exact ⟨fun m h => absurd h (Nat.not_lt_zero _),
        fun m hm _ => ⟨_, rfl, ⟨hm.width_eq, hm.cells⟩, (Int.add_zero _).symm⟩⟩
    | dupNonzero | divide | define | comment | listWords | bye | extension => cases he
    | _ =>
      -- the words that rearrange the stack
      cases he
      unfold Leaf.run step
      refine meets_rearrange (fun stack h => ?_) fun stack h => ?_
      · rcases stack with _ | ⟨a, _ | ⟨b, _ | ⟨c, stack⟩⟩⟩ <;> grind
      · rcases stack with _ | ⟨a, _ | ⟨b, _ | ⟨c, stack⟩⟩⟩ <;> grind

theorem meets_perform [Extension Ext] (hbits : width.bits ≤ CellWidth.widestWritable)
    (depth : Nat) {leaf : Leaf Ext} {e : StackEffect} (he : leaf.effect? = some e)
    (hv : ∀ v, leaf = .push v → width.Holds v) : Meets width e (leaf.run (perform depth)) := by
  cases depth with
  | zero => exact meets_leaf hbits _ he hv
  | succ depth => exact meets_leaf hbits _ he hv

/-! ## Leaves in a row -/

section Rows

variable {perform : Performer Ext} {m : Machine Ext} {leaves : List (Leaf Ext)}
  {effects : List StackEffect} {d : Nat} {change : Int}

/-- The leaves do what their effects say, each of them one after the other. -/
abbrev MeetAll (width : CellWidth) (perform : Performer Ext) (effects : List StackEffect)
    (leaves : List (Leaf Ext)) : Prop :=
  List.Forall₂ (fun e leaf => Meets width e (leaf.run perform)) effects leaves

theorem meetAll_of_effects [Extension Ext] (hbits : width.bits ≤ CellWidth.widestWritable)
    (depth : Nat) (heffects : leaves.map Leaf.effect? = effects.map some)
    (hliterals : ∀ v, .push v ∈ leaves → width.Holds v) :
    MeetAll width (ThreadedForth.perform depth) effects leaves := by
  induction leaves generalizing effects with
  | nil =>
    cases effects with
    | nil => exact .nil
    | cons e effects => cases heffects
  | cons leaf leaves ih =>
    cases effects with
    | nil => cases heffects
    | cons e effects =>
      obtain ⟨hleaf, hrest⟩ := List.cons.inj heffects
      refine .cons (meets_perform hbits depth hleaf fun v hv => ?_) (ih hrest fun v hv => ?_)
      · exact hliterals v (hv ▸ List.mem_cons_self)
      · exact hliterals v (List.mem_cons_of_mem leaf hv)

/-- On a stack that is deep enough, the leaves return and leave the depth that is predicted. -/
theorem forM_of_needAfter_le (h : MeetAll width perform effects leaves) (hm : m.Within width)
    (hdepth : (m.stack.length : Int) = d + change)
    (hneed : StackEffect.needAfter change effects ≤ d) :
    ∃ m', leaves.forM (Leaf.run perform) m = .ok () m' ∧
      (m'.stack.length : Int) = d + change + StackEffect.total effects := by
  induction h generalizing m change with
  | nil => exact ⟨m, rfl, by rw [hdepth]; exact (Int.add_zero _).symm⟩
  | @cons e leaf effects leaves hleaf _ ih =>
    rw [StackEffect.needAfter, Int.max_le] at hneed
    obtain ⟨m₁, hrun, hm₁, hlength⟩ := hleaf.deep m hm (by omega)
    obtain ⟨m', hrest, hdepth'⟩ := ih hm₁ (by omega) hneed.2
    refine ⟨m', (forM_cons_of_ok hrun).trans hrest, ?_⟩
    rw [StackEffect.total]
    omega

/-- On any other stack, they stop with the first leaf that is predicted to be short of cells. -/
theorem forM_of_lt_needAfter (h : MeetAll width perform effects leaves) (hm : m.Within width)
    (hdepth : (m.stack.length : Int) = d + change)
    (hneed : d < StackEffect.needAfter change effects) :
    ∃ before e behind m₁, effects = before ++ e :: behind ∧
      StackEffect.needAfter change before ≤ d ∧
      d + change + StackEffect.total before < e.arity ∧
      (leaves.take before.length).forM (Leaf.run perform) m = .ok () m₁ ∧
      leaves.forM (Leaf.run perform) m = .error
        (.stackUnderflow e.word e.arity (d + change + StackEffect.total before)) m₁ := by
  induction h generalizing m change with
  | nil => exact absurd hneed (Int.not_lt.2 (Int.natCast_nonneg d))
  | @cons e leaf effects leaves hleaf _ ih =>
    by_cases hshort : m.stack.length < e.arity
    · have hrun := hleaf.short m hshort
      rw [hdepth] at hrun
      refine ⟨[], e, effects, m, rfl, Int.natCast_nonneg d, ?_, rfl, ?_⟩
      · rw [StackEffect.total]
        omega
      · rw [StackEffect.total, Int.add_zero]
        exact forM_cons_of_error hrun
    · -- the leaf is not the one, so one of the others is
      obtain ⟨m₁, hrun, hm₁, hlength⟩ := hleaf.deep m hm (Nat.le_of_not_lt hshort)
      have hdepth₁ : (m₁.stack.length : Int) = d + (change + e.net) := by omega
      rw [StackEffect.needAfter] at hneed
      obtain ⟨before, e', behind, m₂, rfl, hbefore, harity, hfront, hstop⟩ :=
        ih hm₁ hdepth₁ (by omega)
      refine ⟨e :: before, e', behind, m₂, rfl, ?_, ?_, (forM_cons_of_ok hrun).trans hfront, ?_⟩
      · rw [StackEffect.needAfter, Int.max_le]
        exact ⟨by omega, hbefore⟩
      · rw [StackEffect.total]
        omega
      · rw [forM_cons_of_ok hrun, StackEffect.total, ← Int.add_assoc, Int.add_assoc (d : Int)]
        exact hstop

end Rows

end Action

/-- Let each leaf of a body have a fixed effect, each literal of it fit a cell, and cells be at most
`CellWidth.widestWritable` bits wide; let each cell of the stack hold its number. The body stops with a
stack underflow exactly if the stack is less deep than the effects need. If it is deep enough, the body
returns, and the depth has changed by their total. If not, the body stops with the first leaf that needs
more cells than the depth at the start and the effects before it make: the fault tells both numbers, and
the machine is as the leaves before it have left it. -/
theorem run_underflows_iff [Extension Ext] {m : Machine Ext}
    (hbits : m.width.bits ≤ CellWidth.widestWritable) (hcells : ∀ v ∈ m.stack, m.width.Holds v)
    {body : Body Ext} {effects : List StackEffect}
    (heffects : body.leaves.map Leaf.effect? = effects.map some)
    (hliterals : ∀ v, .push v ∈ body.leaves → m.width.Holds v) :
    ((∃ word required available m',
        body.run Machine.performer m = .error (.stackUnderflow word required available) m') ↔
      m.stack.length < StackEffect.need effects) ∧
    (StackEffect.need effects ≤ m.stack.length → ∃ m', body.run Machine.performer m = .ok () m' ∧
      (m'.stack.length : Int) = m.stack.length + StackEffect.total effects) ∧
    (m.stack.length < StackEffect.need effects → ∃ before e behind m₁,
      effects = before ++ e :: behind ∧ StackEffect.need before ≤ m.stack.length ∧
      m.stack.length + StackEffect.total before < e.arity ∧
      (body.leaves.take before.length).forM (Leaf.run Machine.performer) m = .ok () m₁ ∧
      body.run Machine.performer m = .error
        (.stackUnderflow e.word e.arity (m.stack.length + StackEffect.total before)) m₁) := by
  have hmeets := Action.meetAll_of_effects hbits nestingLimit heffects hliterals
  have hdepth : (m.stack.length : Int) = m.stack.length + 0 := (Int.add_zero _).symm
  have hreturns : StackEffect.need effects ≤ m.stack.length → _ :=
    Action.forM_of_needAfter_le hmeets ⟨rfl, hcells⟩ hdepth
  have hstops : m.stack.length < StackEffect.need effects → _ :=
    Action.forM_of_lt_needAfter hmeets ⟨rfl, hcells⟩ hdepth
  rw [Int.add_zero, ← Body.run_eq_forM] at hreturns hstops
  refine ⟨⟨?_, ?_⟩, hreturns, hstops⟩
  · rintro ⟨word, required, available, m', hunderflow⟩
    refine Int.not_le.1 fun hneed => ?_
    obtain ⟨m₁, hrun, -⟩ := hreturns hneed
    cases hunderflow.symm.trans hrun
  · intro hneed
    obtain ⟨before, e, behind, m₁, -, -, -, -, hrun⟩ := hstops hneed
    exact ⟨_, _, _, _, hrun⟩

/-- Squares the two cells on top of the stack, adds them up, and adds one. -/
def normPlusOne : Body Empty :=
  let square : Word Empty := ⟨some "square", false, .compiled
    [⟨some "dup", false, .primitive .dup⟩, ⟨some "*", false, .primitive .multiply⟩]⟩
  .compiled [square, ⟨some "swap", false, .primitive .swap⟩, square,
    ⟨some "+", false, .primitive .add⟩, .ofLiteral 1, ⟨some "+", false, .primitive .add⟩]

/-- It needs two cells and leaves one. -/
theorem run_normPlusOne :
    (∃ word required available m', normPlusOne.run Machine.performer
      { (Machine.fresh .standard : Machine Empty) with stack := [3] } =
        .error (.stackUnderflow word required available) m') ∧
    ∃ m', normPlusOne.run Machine.performer
      { (Machine.fresh .standard : Machine Empty) with stack := [4, 3] } = .ok () m' ∧
        (m'.stack.length : Int) = 1 := by
  have heffects : normPlusOne.leaves.map Leaf.effect? = [⟨"dup", 1, 1⟩, ⟨"*", 2, -1⟩,
      ⟨"swap", 2, 0⟩, ⟨"dup", 1, 1⟩, ⟨"*", 2, -1⟩, ⟨"+", 2, -1⟩, ⟨"", 0, 1⟩,
      ⟨"+", 2, -1⟩].map some := rfl
  have hliterals : ∀ v, .push v ∈ normPlusOne.leaves → CellWidth.standard.Holds v := by
    intro v hv
    obtain rfl : v = 1 := by
      simpa [normPlusOne, Body.leaves, Body.leavesOfWords, Entry.ofLiteral] using hv
    decide
  constructor
  · exact (@run_underflows_iff Empty _
      { (Machine.fresh .standard : Machine Empty) with stack := [3] } (by decide) (by decide) _ _
      heffects hliterals).1.2 (by decide)
  · exact (@run_underflows_iff Empty _
      { (Machine.fresh .standard : Machine Empty) with stack := [4, 3] } (by decide) (by decide) _ _
      heffects hliterals).2.1 (by decide)

end ThreadedForth
