import ThreadedForth.Proofs.Outcome

/-!
# Contained actions

Most primitives read no more of a machine than its width and its stack, and change no more of it
than the stack and what has been written; the listing of the words reads the dictionary as well.
Such an action is *contained* (`Action.Contained`): on all machines that look alike to it, it has one
and the same effect. Containment is kept by sequence, so a body is contained if its leaves are
(`Body.run_contained`).
-/

namespace ThreadedForth

variable {Ext : Type}

namespace Machine

/-- The machines differ in nothing that a contained action reads; the dictionary counts only for an
action that lists words. -/
structure Alike (lists : Bool) (m m' : Machine Ext) : Prop where
  width : m.width = m'.width
  stack : m.stack = m'.stack
  dictionary : lists = true → m.dictionary = m'.dictionary

/-- The machine with another stack and with a text written. -/
def withEffect (m : Machine Ext) (stack : List Int) (text : String) : Machine Ext :=
  { m with stack := stack, output := m.output ++ text }

theorem withEffect_self (m : Machine Ext) : m.withEffect m.stack "" = m := by
  simp [withEffect]

theorem withEffect_withEffect (m : Machine Ext) (stack stack' : List Int) (text text' : String) :
    (m.withEffect stack text).withEffect stack' text' = m.withEffect stack' (text ++ text') := by
  simp [withEffect, String.append_assoc]

theorem Alike.withEffect {lists : Bool} {m m' : Machine Ext} (h : m.Alike lists m')
    (stack : List Int) (text text' : String) :
    (m.withEffect stack text).Alike lists (m'.withEffect stack text') :=
  ⟨h.width, rfl, h.dictionary⟩

end Machine

/-- Does the primitive change nothing but the stack and the output, and read the dictionary only if
that is allowed? -/
def Primitive.isContained (lists : Bool) : Primitive Ext → Bool
  | .define | .comment | .extension _ => false
  | .listWords => lists
  | _ => true

/-- The same of a leaf; a number is pushed without reading anything. -/
def Leaf.isContained (lists : Bool) : Leaf Ext → Bool
  | .push _ => true
  | .primitive p => p.isContained lists

namespace Action

/-- The action has one and the same effect, on the stack and the output only, on all machines that
look alike. -/
def Contained (lists : Bool) (a : Action Ext Unit) : Prop :=
  ∀ m : Machine Ext, ∃ ending stack text, ∀ m', m.Alike lists m' →
    a m' = endWith ending (m'.withEffect stack text)

variable {lists : Bool}

theorem Contained.pure : Contained lists (pure () : Action Ext Unit) := by
  intro m
  refine ⟨none, m.stack, "", fun m' h => ?_⟩
  rw [h.stack, Machine.withEffect_self]
  rfl

/-- One contained action after another is contained. -/
theorem Contained.seq {a b : Action Ext Unit} (ha : Contained lists a) (hb : Contained lists b) :
    Contained lists (a >>= fun _ => b) := by
  intro m
  obtain ⟨ending, stack, text, hrun⟩ := ha m
  cases ending with
  | some fault => exact ⟨some fault, stack, text, fun m' h => bind_of_error (hrun m' h)⟩
  | none =>
    -- the machines that the first action leaves look alike again
    obtain ⟨ending, stack', text', hrun'⟩ := hb (m.withEffect stack text)
    refine ⟨ending, stack', text ++ text', fun m' h => ?_⟩
    rw [bind_of_ok (hrun m' h), hrun' _ (h.withEffect stack text text),
      Machine.withEffect_withEffect]

theorem Contained.forM {ι : Type} {f : ι → Action Ext Unit} {xs : List ι}
    (h : ∀ x ∈ xs, Contained lists (f x)) : Contained lists (xs.forM f) := by
  induction xs with
  | nil => exact .pure
  | cons x xs ih =>
    have hx : Contained lists (f x) := h x List.mem_cons_self
    exact hx.seq (ih fun y hy => h y (List.mem_cons_of_mem x hy))

/-! ## The primitives -/

/-- An action that starts with a look at the machine is contained if it looks only at what counts. -/
theorem contained_get {f : Machine Ext → Action Ext Unit}
    (hf : ∀ m m', m.Alike lists m' → f m = f m') (h : ∀ m, Contained lists (f m)) :
    Contained lists (get >>= f) := by
  intro m
  obtain ⟨ending, stack, text, hrun⟩ := h m m
  refine ⟨ending, stack, text, fun m' hm => ?_⟩
  rw [← hrun m' hm, hf m m' hm]
  rfl

theorem contained_rearrange (word : String) (arity : Nat) (f : List Int → Option (List Int)) :
    Contained lists (rearrange word arity f : Action Ext Unit) := by
  intro m
  cases hf : f m.stack with
  | some stack =>
    refine ⟨none, stack, "", fun m' h => ?_⟩
    rw [h.stack] at hf
    simp only [rearrange, hf, Machine.withEffect, String.append_empty]
    rfl
  | none =>
    refine ⟨some (.stackUnderflow word arity m.stack.length), m.stack, "", fun m' h => ?_⟩
    rw [h.stack] at hf ⊢
    rw [Machine.withEffect_self]
    simp only [rearrange, hf]
    rfl

theorem contained_throw (fault : Fault) : Contained lists (throw fault : Action Ext Unit) := by
  intro m
  refine ⟨some fault, m.stack, "", fun m' h => ?_⟩
  rw [h.stack, Machine.withEffect_self]
  rfl

theorem contained_write (text : String) : Contained lists (write text : Action Ext Unit) := by
  intro m
  refine ⟨none, m.stack, text, fun m' h => ?_⟩
  rw [h.stack]
  rfl

theorem contained_writeResult {γ : Type} (result : Except Fault γ) (line : γ → String) :
    Contained lists (ofExcept result >>= fun x => write (line x) : Action Ext Unit) := by
  cases result with
  | ok x => exact contained_write (line x)
  | error fault => exact contained_throw fault

theorem contained_pushCell (v : Int) : Contained lists (pushCell v : Action Ext Unit) := by
  intro m
  refine ⟨none, v :: m.stack, "", fun m' h => ?_⟩
  rw [h.stack, Machine.withEffect, String.append_empty]
  rfl

theorem contained_setStack (stack : List Int) :
    Contained lists (modify fun m => { m with stack := stack } : Action Ext Unit) := by
  intro m
  refine ⟨none, stack, "", fun m' _ => ?_⟩
  rw [Machine.withEffect, String.append_empty]
  rfl

theorem contained_binary (word : String) (op : Int → Int → Int) :
    Contained lists (binary word op : Action Ext Unit) :=
  contained_get (fun m m' h => by rw [h.width]) fun _ => contained_rearrange _ _ _

theorem contained_divide : Contained lists (divide : Action Ext Unit) := by
  refine contained_get (fun m m' h => by rw [h.stack]) fun m => ?_
  split
  · exact contained_throw _
  · exact contained_binary _ _

/-- The number is taken before it is written. -/
theorem printTop_of_cons {m : Machine Ext} {v : Int} {rest : List Int} (h : m.stack = v :: rest) :
    printTop m = (ofExcept (Number.write v) >>= fun text => write (text ++ "\n"))
      { m with stack := rest } := by
  rw [printTop, get_bind, h]
  exact bind_of_ok rfl

theorem contained_printTop : Contained lists (printTop : Action Ext Unit) := by
  refine contained_get (fun m m' h => by rw [h.stack]) fun m => ?_
  split
  · next v stack _ =>
    exact (contained_setStack stack).seq (contained_writeResult (Number.write v) _)
  · exact contained_throw _

theorem contained_printStack : Contained lists (printStack : Action Ext Unit) := by
  refine contained_get (fun m m' h => ?_) fun m => contained_writeResult m.stackText _
  rw [Machine.stackText, Machine.stackText, h.stack]

theorem contained_listWords : Contained true (listWords : Action Ext Unit) :=
  contained_get (fun m m' h => by rw [h.dictionary rfl]) fun m =>
    contained_writeResult m.dictionary.dump _

/-- Every primitive that is said to be contained is. -/
theorem contained_step [Extension Ext] (nested : Performer Ext) {p : Primitive Ext}
    (h : p.isContained lists = true) : Contained lists (step nested p) := by
  cases p with
  | print => exact contained_printTop
  | printStack => exact contained_printStack
  | add | subtract | multiply => exact contained_binary _ _
  | divide => exact contained_divide
  | listWords =>
    obtain rfl : lists = true := h
    exact contained_listWords
  | newline => exact contained_write _
  | bye => exact contained_throw _
  | define | comment | extension => cases h
  | _ =>
    -- the words that rearrange the stack
    unfold step
    exact contained_rearrange _ _ _

end Action

/-- Primitives are contained at every depth of nesting. -/
theorem contained_perform [Extension Ext] {lists : Bool} (depth : Nat) {p : Primitive Ext}
    (h : p.isContained lists = true) : Action.Contained lists (perform depth p) := by
  cases depth with
  | zero => exact Action.contained_step _ h
  | succ depth => exact Action.contained_step _ h

theorem Leaf.run_contained [Extension Ext] {lists : Bool} (depth : Nat) {leaf : Leaf Ext}
    (h : leaf.isContained lists = true) : Action.Contained lists (leaf.run (perform depth)) := by
  cases leaf with
  | push v => exact Action.contained_pushCell v
  | primitive p => exact contained_perform depth h

/-- A body is contained if its leaves are. -/
theorem Body.run_contained [Extension Ext] {lists : Bool} (depth : Nat) {body : Body Ext}
    (h : ∀ leaf ∈ body.leaves, leaf.isContained lists = true) :
    Action.Contained lists (body.run (perform depth)) := by
  rw [Body.run_eq_forM]
  exact .forM fun leaf hleaf => Leaf.run_contained depth (h leaf hleaf)

end ThreadedForth
