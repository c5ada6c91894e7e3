import ThreadedForth.Interpreter

/-!
# How actions end

An action returns or stops with a fault, and leaves a machine behind either way. `Action.fault?` and
`Action.after` are the two halves of that; an action without a value is the same as its two halves
put together again by `Action.endWith`.
-/

namespace ThreadedForth

variable {Ext α β : Type}

namespace Action

/-- The machine that an action leaves behind, whether it returns or stops with a fault. -/
def after (a : Action Ext α) (m : Machine Ext) : Machine Ext :=
  match a m with
  | .ok _ m' => m'
  | .error _ m' => m'

/-- The fault that an action stops with, if any. -/
def fault? (a : Action Ext α) (m : Machine Ext) : Option Fault :=
  match a m with
  | .ok _ _ => none
  | .error fault _ => some fault

/-- The machine that an action leaves behind if it returns. -/
def returns? (a : Action Ext α) (m : Machine Ext) : Option (Machine Ext) :=
  match a m with
  | .ok _ m' => some m'
  | .error _ _ => none

/-- Stops with the fault if there is one, and returns otherwise. -/
def endWith : Option Fault → Action Ext Unit
  | none => pure ()
  | some fault => throw fault

variable {m m' : Machine Ext} {fault : Fault}

theorem after_congr {a b : Action Ext α} (h : a m = b m') : a.after m = b.after m' := by
  rw [after, after, h]

theorem fault?_congr {a b : Action Ext α} (h : a m = b m') : a.fault? m = b.fault? m' := by
  rw [fault?, fault?, h]

theorem returns?_of_ok {a : Action Ext α} {x : α} (h : a m = .ok x m') :
    a.returns? m = some m' := by
  rw [returns?, h]

theorem eq_ok_of_returns? {a : Action Ext Unit} (h : a.returns? m = some m') : a m = .ok () m' := by
  rw [returns?] at h
  split at h
  · next hrun =>
    cases h
    exact hrun
  · cases h

theorem eq_ok_of_fault? {a : Action Ext Unit} (h : a.fault? m = none) : a m = .ok () (a.after m) := by
  rw [fault?] at h
  rw [after]
  split at h
  · next hrun => rw [hrun]
  · cases h

theorem eq_error_of_fault? {a : Action Ext α} (h : a.fault? m = some fault) :
    a m = .error fault (a.after m) := by
  unfold fault? at h
  unfold after
  split at h
  · cases h
  · next hrun =>
    cases h
    rw [hrun]

theorem after_of_ok {a : Action Ext α} {x : α} (h : a m = .ok x m') : a.after m = m' := by
  rw [after, h]

theorem after_of_error {a : Action Ext α} (h : a m = .error fault m') : a.after m = m' := by
  rw [after, h]

theorem fault?_of_ok {a : Action Ext α} {x : α} (h : a m = .ok x m') : a.fault? m = none := by
  rw [fault?, h]

theorem fault?_of_error {a : Action Ext α} (h : a m = .error fault m') :
    a.fault? m = some fault := by
  rw [fault?, h]

theorem after_of_endWith {a : Action Ext Unit} {ending : Option Fault}
    (h : a m = endWith ending m') : a.after m = m' := by
  cases ending with
  | none => exact after_of_ok h
  | some fault => exact after_of_error h

theorem fault?_of_endWith {a : Action Ext Unit} {ending : Option Fault}
    (h : a m = endWith ending m') : a.fault? m = ending := by
  cases ending with
  | none => exact fault?_of_ok h
  | some fault => exact fault?_of_error h

/-! ## One action after another -/

theorem bind_of_ok {a : Action Ext α} {f : α → Action Ext β} {x : α} (h : a m = .ok x m') :
    (a >>= f) m = f x m' := by
  simp only [bind, EStateM.bind, h]

theorem bind_of_error {a : Action Ext α} {f : α → Action Ext β} (h : a m = .error fault m') :
    (a >>= f) m = .error fault m' := by
  simp only [bind, EStateM.bind, h]

/-- If one action after another returns, the first one does, and the second one from there. -/
theorem bind_eq_ok_iff {a : Action Ext α} {f : α → Action Ext β} {y : β} :
    (a >>= f) m = .ok y m' ↔ ∃ x m₁, a m = .ok x m₁ ∧ f x m₁ = .ok y m' := by
  cases h : a m with
  | ok x m₁ =>
    rw [bind_of_ok h]
    constructor
    · exact fun hf => ⟨x, m₁, rfl, hf⟩
    · rintro ⟨_, _, ⟨⟩, hf⟩
      exact hf
  | error fault m₁ => simp [bind_of_error h]

theorem get_bind (f : Machine Ext → Action Ext α) (m : Machine Ext) : (get >>= f) m = f m m :=
  rfl

theorem bind_congr {a b : Action Ext α} {f : α → Action Ext β} (h : a m = b m') :
    (a >>= f) m = (b >>= f) m' := by
  simp only [bind, EStateM.bind, h]

/-- What follows an action starts from the machine that it leaves, or never starts. -/
theorem after_bind (a : Action Ext α) (f : α → Action Ext β) (m : Machine Ext) :
    (∃ x, a m = .ok x (a.after m) ∧ (a >>= f).after m = (f x).after (a.after m)) ∨
    (a >>= f).after m = a.after m := by
  cases h : a m with
  | ok x m' =>
    rw [after_of_ok h]
    exact .inl ⟨x, rfl, by rw [after, bind_of_ok h, after]⟩
  | error fault m' =>
    rw [after_of_error h]
    exact .inr (after_of_error (bind_of_error h))

/-- It may stop with a fault of its own, if it starts. -/
theorem fault?_bind (a : Action Ext Unit) (f : Unit → Action Ext β) (m : Machine Ext) :
    (a >>= f).fault? m = (a.fault? m).or ((f ()).fault? (a.after m)) := by
  cases h : a m with
  | ok _ m' =>
    rw [fault?_of_ok h, after_of_ok h, Option.none_or]
    exact fault?_congr (bind_of_ok h)
  | error fault m' =>
    rw [fault?_of_error h, Option.some_or]
    exact fault?_of_error (bind_of_error h)

/-- An action whose value is of no interest leaves the same machine, -/
theorem after_discard (a : Action Ext α) (m : Machine Ext) :
    (a >>= fun _ => pure ()).after m = a.after m := by
  obtain ⟨_, _, hx⟩ | hx := after_bind a (fun _ => pure ()) m
  · exact hx
  · exact hx

/-- and stops with the same fault. -/
theorem fault?_discard (a : Action Ext α) (m : Machine Ext) :
    (a >>= fun _ => pure ()).fault? m = a.fault? m := by
  cases h : a m with
  | ok x m' =>
    rw [fault?_of_ok h]
    exact fault?_of_ok (bind_of_ok h)
  | error fault m' => rw [fault?_of_error h, fault?_of_error (bind_of_error h)]

/-! ## Actions in a row -/

section Rows

variable {ι : Type} {f : ι → Action Ext Unit} {xs : List ι}

theorem forM_cons (x : ι) (xs : List ι) :
    (x :: xs).forM f = (f x >>= fun _ => xs.forM f) :=
  rfl

theorem forM_append (xs ys : List ι) :
    (xs ++ ys).forM f = (xs.forM f >>= fun _ => ys.forM f) :=
  List.forM_append

theorem forM_cons_of_ok {x : ι} (h : f x m = .ok () m') : (x :: xs).forM f m = xs.forM f m' :=
  bind_of_ok h

theorem forM_cons_of_error {x : ι} (h : f x m = .error fault m') :
    (x :: xs).forM f m = .error fault m' :=
  bind_of_error h

theorem forM_append_of_ok (h : xs.forM f m = .ok () m') (ys : List ι) :
    (xs ++ ys).forM f m = ys.forM f m' := by
  rw [forM_append, bind_of_ok h]

/-- A row of actions stops exactly if one of them does, on the machine that those before it leave. -/
theorem forM_eq_error_iff : xs.forM f m = .error fault m' ↔
    ∃ before x behind m₁, xs = before ++ x :: behind ∧ before.forM f m = .ok () m₁ ∧
      f x m₁ = .error fault m' := by
  constructor
  · intro h
    induction xs generalizing m with
    | nil => cases h
    | cons x xs ih =>
      cases hx : f x m with
      | ok _ m₁ =>
        rw [forM_cons_of_ok hx] at h
        obtain ⟨before, y, behind, m₂, rfl, hbefore, hy⟩ := ih h
        exact ⟨x :: before, y, behind, m₂, rfl, (forM_cons_of_ok hx).trans hbefore, hy⟩
      | error fault' m₁ =>
        rw [forM_cons_of_error hx] at h
        cases h
        exact ⟨[], x, xs, m, rfl, rfl, hx⟩
  · rintro ⟨before, x, behind, m₁, rfl, hbefore, hx⟩
    rw [forM_append_of_ok hbefore]
    exact forM_cons_of_error hx

end Rows

end Action

end ThreadedForth
