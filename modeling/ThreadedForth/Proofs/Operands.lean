import ThreadedForth.Proofs.Invariants
import ThreadedForth.Proofs.Simulation

/-!
# A program touches its operands only

A program that does not write the whole stack works on the top of it. What lies below the cells that
it uses makes no difference to it and stays where it is (`eval_above_base`): run it on a stack that is
deep enough, and it does the same on the same stack with other cells below.

Each primitive looks at the stack from the top down (`Action.Framed`). Only where a cell is missing
do the cells below come into play; so a run that finds the stack too short is not compared.
-/

namespace ThreadedForth

variable {Ext : Type}

/-- The second machine has the stack of the first, with these cells below. -/
structure Machine.StandsOn (below : List Int) (m n : Machine Ext) : Prop where
  width : n.width = m.width
  stack : n.stack = m.stack ++ below
  output : n.output = m.output
  dictionary : n.dictionary = m.dictionary

/-- A word found the stack too short. -/
def Fault.IsUnderflow (fault : Fault) : Prop :=
  ∃ word required available, fault = .stackUnderflow word required available

/-! ## Primitives -/

namespace Action

/-- The action ends in the same way on both machines, writes the same and leaves the cells below as
they are; or else the stack of the first is too short. -/
def Framed (below : List Int) (a : Action Ext Unit) (m n : Machine Ext) : Prop :=
  (∃ fault m', a m = .error fault m' ∧ fault.IsUnderflow) ∨
  ∃ ending stack stack' text, a m = endWith ending (m.withEffect stack text) ∧
    a n = endWith ending (n.withEffect stack' text) ∧ stack' = stack ++ below

variable {below : List Int} {m n : Machine Ext}

/-- To rearrange the top of the stack leaves what is below. -/
theorem framed_rearrange (h : m.StandsOn below n) {word : String} {arity : Nat}
    {f : List Int → Option (List Int)}
    (hf : ∀ stack, f m.stack = some stack → f (m.stack ++ below) = some (stack ++ below)) :
    Framed below (rearrange word arity f) m n := by
  unfold Framed rearrange Machine.withEffect
  rw [h.stack]
  cases hs : f m.stack with
  | none => exact .inl ⟨_, m, rfl, _, _, _, rfl⟩
  | some stack =>
    rw [hf stack hs]
    refine .inr ⟨none, stack, _, "", ?_, ?_, rfl⟩
    · rw [String.append_empty]
      rfl
    · rw [String.append_empty]
      rfl

/-- An action that writes nothing and leaves the stack as it is. -/
theorem framed_endWith (h : m.StandsOn below n) (ending : Option Fault) :
    Framed below (endWith ending) m n :=
  .inr ⟨ending, m.stack, n.stack, "", by rw [m.withEffect_self], by rw [n.withEffect_self], h.stack⟩

theorem framed_binary (h : m.StandsOn below n) (word : String) (op : Int → Int → Int) :
    Framed below (binary word op) m n := by
  rw [Framed, binary, get_bind, get_bind, h.width]
  refine framed_rearrange h fun stack hs => ?_
  rcases hm : m.stack with _ | ⟨b, _ | ⟨a, rest⟩⟩
  · simp [hm] at hs
  · simp [hm] at hs
  · simp only [hm, Option.some.injEq] at hs
    rw [← hs]
    rfl

theorem binary_of_short (h : m.stack.length < 2) (word : String) (op : Int → Int → Int) :
    binary word op m = .error (.stackUnderflow word 2 m.stack.length) m := by
  rcases hs : m.stack with _ | ⟨b, _ | ⟨a, rest⟩⟩
  · simp [binary, get_bind, rearrange, hs]
  · simp [binary, get_bind, rearrange, hs]
  · rw [hs, List.length_cons, List.length_cons] at h
    omega

theorem binary_of_cons {a b : Int} {rest : List Int} (h : m.stack = b :: a :: rest) (word : String)
    (op : Int → Int → Int) :
    binary word op m = .ok () { m with stack := m.width.wrap (op a b) :: rest } := by
  rw [binary, get_bind, rearrange, h]

theorem divide_of_zero {a : Int} {rest : List Int} (h : m.stack = 0 :: a :: rest) :
    divide m = .error .divisionByZero m := by
  rw [divide, get_bind]
  simp only [h]
  rfl

theorem divide_of_not_zero (h : ∀ a rest, m.stack ≠ 0 :: a :: rest) :
    divide m = binary "/" Int.tdiv m := by
  rw [divide, get_bind]
  refine congrFun ?_ m
  split
  · next a rest hs => exact absurd hs (h a rest)
  · rfl

/-- A zero divisor is found on both stacks, unless it is the only cell of the first. -/
theorem framed_divide (h : m.StandsOn below n) : Framed below divide m n := by
  have hbinary := framed_binary h "/" Int.tdiv
  rcases hs : m.stack with _ | ⟨b, _ | ⟨a, rest⟩⟩
  · rw [Framed, divide_of_not_zero (by simp [hs]), binary_of_short (by simp [hs])]
    exact .inl ⟨_, m, rfl, _, _, _, rfl⟩
  · rw [Framed, divide_of_not_zero (by simp [hs]), binary_of_short (by simp [hs])]
    exact .inl ⟨_, m, rfl, _, _, _, rfl⟩
  · have hs' : n.stack = b :: a :: (rest ++ below) := by rw [h.stack, hs]; rfl
    by_cases hb : b = 0
    · subst hb
      rw [Framed, divide_of_zero hs, divide_of_zero hs']
      exact framed_endWith h (some .divisionByZero)
    · rw [Framed, divide_of_not_zero (by simp [hs, hb]), divide_of_not_zero (by simp [hs', hb])]
      exact hbinary

theorem framed_printTop (h : m.StandsOn below n) : Framed below printTop m n := by
  rcases hs : m.stack with _ | ⟨v, rest⟩
  · refine .inl ⟨.stackUnderflow "." 1 0, m, ?_, _, _, _, rfl⟩
    rw [printTop, get_bind]
    simp only [hs]
    rfl
  · have hs' : n.stack = v :: (rest ++ below) := by rw [h.stack, hs]; rfl
    rw [Framed, printTop_of_cons hs, printTop_of_cons hs']
    -- the number is gone from both stacks, also if it cannot be written
    cases Number.write v with
    | ok text => exact .inr ⟨none, rest, _, text ++ "\n", rfl, rfl, rfl⟩
    | error fault =>
      refine .inr ⟨some fault, rest, _, "", ?_, ?_, rfl⟩
      · rw [Machine.withEffect, String.append_empty]
        rfl
      · rw [Machine.withEffect, String.append_empty]
        rfl

theorem framed_listWords (h : m.StandsOn below n) : Framed below listWords m n := by
  rw [Framed, listWords, get_bind, get_bind, h.dictionary]
  cases m.dictionary.dump with
  | ok lines => exact .inr ⟨none, m.stack, n.stack, _, rfl, rfl, h.stack⟩
  | error fault =>
    exact framed_endWith h (some fault)

/-- What is below the stack makes no difference to a primitive that does not write it. -/
theorem framed_step [Extension Ext] (nested : Performer Ext) {p : Primitive Ext}
    (h : m.StandsOn below n) (hcontained : p.isContained true = true) (hp : p ≠ .printStack) :
    Framed below (step nested p) m n := by
  cases p with
  | add | subtract | multiply => exact framed_binary h _ _
  | divide => exact framed_divide h
  | print => exact framed_printTop h
  | listWords => exact framed_listWords h
  | newline => exact .inr ⟨none, m.stack, n.stack, "\n", rfl, rfl, h.stack⟩
  | bye => exact framed_endWith h (some (.bye 0))
  | printStack => exact absurd rfl hp
  | define | comment | extension => cases hcontained
  | _ =>
    -- the words that rearrange the stack
    unfold step
    refine framed_rearrange h fun stack hs => ?_
    split at hs
    · next hm =>
      cases hs
      rw [hm]
      grind
    · cases hs

/-- Numbers that fit their cells are pushed as they are. -/
theorem push_integers {values : List Int} (h : ∀ v ∈ values, m.width.Holds v) :
    push (values.map .integer) m = .ok () { m with stack := values.reverse ++ m.stack } := by
  induction values generalizing m with
  | nil => rfl
  | cons v values ih =>
    rw [List.forall_mem_cons] at h
    rw [List.map_cons, push_of_ok rfl, CellWidth.wrap_of_holds h.1, List.reverse_cons,
      List.append_assoc]
    exact ih h.2

theorem after_push_fresh {width : CellWidth} {values : List Int}
    (h : ∀ v ∈ values, width.Holds v) :
    (push (values.map .integer)).after (Machine.fresh width : Machine Ext) =
      { Machine.fresh width with stack := values.reverse } := by
  have hpush := push_integers (m := (Machine.fresh width : Machine Ext)) h
  have hstack : (Machine.fresh width : Machine Ext).stack = [] := rfl
  rw [hstack, List.append_nil] at hpush
  exact after_of_ok hpush

end Action

/-! ## Programs -/

/-- The words that write the whole stack. -/
def stackPrinters : List String := [".S", "dot_s"]

theorem Dictionary.printStack_builtin :
    (builtin : Dictionary Ext).ReachedBy .printStack stackPrinters := by
  refine reachedBy_builtin ?_ ?_
  · simp [primitives, stackPrinters]
  · simp [copies, stackPrinters]

/-- Two runs of one text that does not write the whole stack, the second with further cells below. -/
def Simulation.framed (Ext : Type) [Extension Ext] (below : List Int) : Simulation Ext where
  Token t t' := t = t' ∧ t ∉ stackPrinters
  Words w w' := w = w' ∧ .primitive .printStack ∉ w.body.leaves
  Allowed leaf := leaf ≠ .primitive .printStack
  Core m n := m.dictionary.Native ∧ m.dictionary.ReachedBy .printStack stackPrinters ∧
    m.StandsOn below n
  Excused := Fault.IsUnderflow
  Spoiled _ := False
  semicolon h := by rw [h.1]
  immediate h := by rw [h.1]
  leaves h := by rw [h.1]
  allowed h _ hleaf heq := h.2 (heq ▸ hleaf)
  native h := ⟨h.1, h.2.2.dictionary ▸ h.1⟩
  core _ _ _ _ _ _ h := ⟨h.1, h.2.1, h.2.2.width, h.2.2.stack, h.2.2.output, h.2.2.dictionary⟩
  resolve := by
    rintro m n t _ ⟨_, hreached, hstands⟩ ⟨rfl, ht⟩
    rw [Machine.resolve_congr hstands.width hstands.dictionary]
    exact .self fun w hr => ⟨rfl, Machine.not_mem_leaves_of_resolve hreached hr ht⟩
  leaf := by
    rintro m n leaf ⟨hm, hreached, hstands⟩ hallowed hcontained
    cases leaf with
    | push v =>
      refine .inr ⟨none, v :: m.stack, v :: n.stack, "", ?_, ?_, hm, hreached, hstands.width, ?_, ?_,
        hstands.dictionary⟩
      · rw [Machine.withEffect, String.append_empty]
        rfl
      · rw [Machine.withEffect, String.append_empty]
        rfl
      · exact congrArg (v :: ·) hstands.stack
      · exact congrArg (· ++ "") hstands.output
    | primitive p =>
      have hp : p ≠ .printStack := fun h => hallowed (h ▸ rfl)
      obtain ⟨fault, m', hrun, hshort⟩ | ⟨ending, stack, stack', text, hrun, hrun', hstack⟩ :=
        Action.framed_step (perform (nestingLimit - 1)) hstands hcontained hp
      · exact .inl ⟨fault, m', hrun, hshort⟩
      · refine .inr ⟨ending, stack, stack', text, hrun, hrun', hm, hreached, hstands.width, hstack, ?_,
          hstands.dictionary⟩
        exact congrArg (· ++ text) hstands.output
  define := by
    rintro m n name _ words words' ⟨hm, hreached, hstands⟩ ⟨rfl, _⟩ hwords hword _
    obtain ⟨hfree, hsame⟩ := (List.forall₂_and_left words words').1
      (hwords.imp fun _ _ h => And.symm h)
    obtain rfl : words = words' := by rwa [List.forall₂_eq_eq_eq] at hsame
    refine .inl ⟨hm.define hword, hreached.define hfree name, hstands.width, hstands.stack,
      hstands.output, ?_⟩
    exact congrArg (fun d : Dictionary Ext => d.define name false (.compiled words))
      hstands.dictionary
  spoiled _ _ h := h

/-- Such a text does the same on a machine with further cells below, and they stay below. -/
theorem Action.eval_framed [Extension Ext] {m n : Machine Ext} {below : List Int}
    (hdictionary : m.dictionary = Dictionary.builtin) (hstands : m.StandsOn below n)
    (hpending : m.pending = [] ∧ n.pending = []) (hdraft : m.draft = none ∧ n.draft = none)
    {text : String} (htext : ∀ t ∈ Input.words (Input.ofText text), t ∉ stackPrinters)
    (hdeep : ∀ fault, (Machine.eval text).fault? m = some fault → ¬ fault.IsUnderflow) :
    (Machine.eval text).fault? m = (Machine.eval text).fault? n ∧
    ((Machine.eval text).after m).StandsOn below ((Machine.eval text).after n) ∧
    ((Machine.eval text).after m).pending = ((Machine.eval text).after n).pending ∧
    ((Machine.eval text).after m).draft = ((Machine.eval text).after n).draft := by
  have hrel : (Simulation.framed Ext below).Relates m n := by
    refine ⟨⟨?_, ?_, hstands⟩, ?_, ?_⟩
    · rw [hdictionary]
      exact Dictionary.native_builtin
    · rw [hdictionary]
      exact Dictionary.printStack_builtin
    · rw [hpending.1, hpending.2]
      exact .nil
    · rw [hdraft.1, hdraft.2]
      exact .none
  have hcorresponds : Input.Corresponds (Simulation.framed Ext below).Token (Input.ofText text)
      (Input.ofText text) := Input.corresponds_self fun t ht => ⟨rfl, htext t ht⟩
  obtain ⟨hfault, hafter⟩ := (Simulation.follows_eval hrel hcorresponds).outcome hdeep id
  exact ⟨hfault, hafter.core.2.2, Input.eq_of_corresponds And.left hafter.pending,
    Draft.eq_of_corresponds And.left hafter.draft⟩

/-- Take a text that does not write the whole stack, and run it on two fresh machines onto which
numbers have been pushed: onto the second all those of the first, after some of its own. If the first
run does not find its stack too short, the second ends in the same way, and with the same output,
dictionary, pending input and open definition. Its own numbers lie untouched below the stack that the
first run leaves. -/
theorem eval_above_base [Extension Ext] {width : CellWidth} {text : String}
    (htext : ∀ t ∈ Input.words (Input.ofText text), t ∉ stackPrinters) {base s : List Int}
    (hcells : ∀ v ∈ base ++ s, width.Holds v) {m n : Machine Ext}
    (hm : m = (Action.push (s.map .integer)).after (Machine.fresh width))
    (hn : n = (Action.push ((base ++ s).map .integer)).after (Machine.fresh width))
    (hdeep : ∀ fault, (Machine.eval text).fault? m = some fault → ¬ fault.IsUnderflow) :
    (Machine.eval text).fault? n = (Machine.eval text).fault? m ∧
    ((Machine.eval text).after n).stack.reverse = base ++ ((Machine.eval text).after m).stack.reverse ∧
    ((Machine.eval text).after n).output = ((Machine.eval text).after m).output ∧
    ((Machine.eval text).after n).dictionary = ((Machine.eval text).after m).dictionary ∧
    ((Machine.eval text).after n).pending = ((Machine.eval text).after m).pending ∧
    ((Machine.eval text).after n).draft = ((Machine.eval text).after m).draft := by
  rw [Action.after_push_fresh fun v hv => hcells v (List.mem_append_right base hv)] at hm
  rw [Action.after_push_fresh hcells, List.reverse_append] at hn
  have hdictionary : m.dictionary = Dictionary.builtin := by
    rw [← Machine.fresh_dictionary width, hm]
  have hstands : m.StandsOn base.reverse n := by
    rw [hm, hn]
    exact ⟨rfl, rfl, rfl, rfl⟩
  have hpending : m.pending = [] ∧ n.pending = [] := by
    rw [hm, hn]
    exact ⟨rfl, rfl⟩
  have hdraft : m.draft = none ∧ n.draft = none := by
    rw [hm, hn]
    exact ⟨rfl, rfl⟩
  obtain ⟨hfault, hafter, hrest⟩ :=
    Action.eval_framed hdictionary hstands hpending hdraft htext hdeep
  refine ⟨hfault.symm, ?_, hafter.output, hafter.dictionary, hrest.1.symm, hrest.2.symm⟩
  rw [hafter.stack, List.reverse_append, List.reverse_reverse]

/-- A text with a definition that rearranges the stack; it divides by zero and so leaves a number
pending. -/
def turnAndDivide : String :=
  ": turn rot rot ; turn - dup .\n0 / 5"

/-- With numbers of its own below, it does the same above them. -/
theorem eval_turnAndDivide_above_base :
    ((Machine.eval turnAndDivide).after ((Action.push ([9, 8, 1, 2, 3].map .integer)).after
      (Machine.fresh .standard : Machine Empty))).stack.reverse = [9, 8, 3, -1, 0] := by
  have hshallow : ((Machine.eval turnAndDivide).after ((Action.push ([1, 2, 3].map .integer)).after
      (Machine.fresh .standard : Machine Empty))).stack.reverse = [3, -1, 0] := by
    decide +kernel
  have hfault : (Machine.eval turnAndDivide).fault? ((Action.push ([1, 2, 3].map .integer)).after
      (Machine.fresh .standard : Machine Empty)) = some .divisionByZero := by
    decide +kernel
  have hdeep : ∀ fault, (Machine.eval turnAndDivide).fault?
      ((Action.push ([1, 2, 3].map .integer)).after (Machine.fresh .standard : Machine Empty)) =
        some fault → ¬ fault.IsUnderflow := by
    rintro fault h ⟨word, required, available, rfl⟩
    rw [hfault] at h
    cases h
  obtain ⟨_, hstack, _⟩ := @eval_above_base Empty _ .standard turnAndDivide (by decide +kernel)
    [9, 8] [1, 2, 3] (by decide +kernel) _ _ rfl rfl hdeep
  rw [hshallow] at hstack
  exact hstack

end ThreadedForth
