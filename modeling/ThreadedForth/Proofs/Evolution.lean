import ThreadedForth.Proofs.Compilation

/-!
# How a machine evolves

Starting from a native dictionary, everything that interprets pending input keeps the width of the
cells and the dictionary native, and takes pieces off the front of the pending input only
(`Machine.Evolves`). In particular the budget of the interpreter is never used up, and `eval` can be
read without it: `proceed` goes on with the open definition, and `drain` interprets one word after
another until no word is left or a definition is open.
-/

namespace ThreadedForth

variable {Ext α β : Type}

/-- What every call may make of a machine: the width stays, and the dictionary is native. -/
structure Machine.Keeps (m m' : Machine Ext) : Prop where
  width : m'.width = m.width
  native : m'.dictionary.Native

/-- What the interpreter may make of a machine: it also takes pending input off the front only. -/
structure Machine.Evolves (m m' : Machine Ext) : Prop extends m.Keeps m' where
  pending : m'.pending <:+ m.pending

namespace Action

/-- From a native dictionary, the action leads to machines that are so related to the first. -/
def LeadsTo (R : Machine Ext → Machine Ext → Prop) (a : Action Ext α) : Prop :=
  ∀ m : Machine Ext, m.dictionary.Native → R m (a.after m)

/-- From a native dictionary, the action does no more than the interpreter may. -/
abbrev Evolving (a : Action Ext α) : Prop := a.LeadsTo Machine.Evolves

/-- From a native dictionary, the action does no more than any call may. -/
abbrev Keeping (a : Action Ext α) : Prop := a.LeadsTo Machine.Keeps

theorem LeadsTo.bind {R : Machine Ext → Machine Ext → Prop}
    (htrans : ∀ {m₁ m₂ m₃}, R m₁ m₂ → R m₂ m₃ → R m₁ m₃)
    (hnative : ∀ {m m'}, R m m' → m'.dictionary.Native) {a : Action Ext α} {f : α → Action Ext β}
    (ha : a.LeadsTo R) (hf : ∀ x, (f x).LeadsTo R) : (a >>= f).LeadsTo R := by
  intro m hm
  have h := ha m hm
  obtain ⟨x, _, hx⟩ | hx := after_bind a f m
  · rw [hx]
    exact htrans h (hf x _ (hnative h))
  · rw [hx]
    exact h

theorem Keeping.bind {a : Action Ext α} {f : α → Action Ext β} (ha : a.Keeping)
    (hf : ∀ x, (f x).Keeping) : (a >>= f).Keeping :=
  LeadsTo.bind (fun h h' => ⟨h'.width.trans h.width, h'.native⟩) (fun h => h.native) ha hf

theorem Evolving.bind {a : Action Ext α} {f : α → Action Ext β} (ha : a.Evolving)
    (hf : ∀ x, (f x).Evolving) : (a >>= f).Evolving :=
  LeadsTo.bind (fun h h' => ⟨⟨h'.width.trans h.width, h'.native⟩, h'.pending.trans h.pending⟩)
    (fun h => h.native) ha hf

theorem Evolving.forM {ι : Type} {f : ι → Action Ext Unit} {xs : List ι}
    (h : ∀ x ∈ xs, (f x).Evolving) : (xs.forM f).Evolving := by
  induction xs with
  | nil => exact fun m hm => ⟨⟨rfl, hm⟩, List.suffix_refl _⟩
  | cons x xs ih =>
    have hx : (f x).Evolving := h x List.mem_cons_self
    exact hx.bind fun _ => ih fun y hy => h y (List.mem_cons_of_mem x hy)

theorem Contained.evolving {lists : Bool} {a : Action Ext Unit} (h : Contained lists a) :
    a.Evolving := by
  intro m hm
  obtain ⟨ending, stack, text, hrun⟩ := h m
  rw [after_of_endWith (hrun m ⟨rfl, rfl, fun _ => rfl⟩)]
  exact ⟨⟨rfl, hm⟩, List.suffix_refl _⟩

section Interpreting

variable {perform : Performer Ext} {token : String} {m : Machine Ext}

theorem interpret_of_error {fault : Fault} (h : m.resolve token = .error fault) :
    interpret perform token m = .error fault m := by
  rw [interpret, get_bind, h]
  rfl

theorem interpret_of_unknown (h : m.resolve token = .ok none) :
    interpret perform token m =
      .error (.unknownWord token) { m with log := .unknownWord token :: m.log } := by
  rw [interpret, get_bind, h]
  rfl

theorem interpret_of_word {w : Word Ext} (h : m.resolve token = .ok (some w)) :
    interpret perform token m = w.body.run perform m := by
  rw [interpret, get_bind, h]
  rfl

/-- A primitive runs under its names. -/
theorem interpret_of_primitive {name : Option String} {immediate : Bool} {p : Primitive Ext}
    (h : m.dictionary.lookup token = some ⟨name, immediate, .primitive p⟩) :
    interpret perform token m = perform p m := by
  have hresolve : m.resolve token = .ok (some ⟨name, immediate, .primitive p⟩) := by
    simp only [Machine.resolve, h]
  rw [interpret_of_word hresolve, Body.run_primitive]

theorem interpretPending_of_open {budget : Nat} {draft : Draft} (h : m.draft = some draft) :
    interpretPending perform (budget + 1) m = .ok () m := by
  rw [interpretPending, get_bind]
  rw [Machine.isDefining, h]
  rfl

theorem interpretPending_of_none {budget : Nat} (hd : m.draft = none)
    (h : Input.readWord? m.pending = none) :
    interpretPending perform (budget + 1) m = .ok () { m with pending := [] } := by
  rw [interpretPending, get_bind]
  rw [if_neg (by simp [Machine.isDefining, hd])]
  exact bind_of_ok (readWord_of_none h)

theorem interpretPending_of_some {budget : Nat} {rest : Input} (hd : m.draft = none)
    (h : Input.readWord? m.pending = some (token, rest)) :
    interpretPending perform (budget + 1) m =
      (interpret perform token >>= fun _ => interpretPending perform budget)
        { m with pending := rest } := by
  rw [interpretPending, get_bind]
  rw [if_neg (by simp [Machine.isDefining, hd])]
  exact bind_of_ok (readWord_of_some h)

end Interpreting

section Running

variable [Extension Ext]

/-! ## Definitions -/

theorem evolving_resumeDefinition (draft : Draft) :
    (resumeDefinition Machine.performer draft : Action Ext Unit).Evolving := by
  intro m hm
  cases h : draft.complete? m.pending with
  | none =>
    rw [after_of_ok (resumeDefinition_of_open h)]
    exact ⟨⟨rfl, hm⟩, List.nil_suffix⟩
  | some completion =>
    obtain ⟨name, body, rest⟩ := completion
    have hrest := (List.suffix_cons _ _).trans (Draft.suffix_of_complete? h)
    have hlines := Input.skipLines_suffix (immediates m.resolve body) rest
    cases hc : captured m.resolve body with
    | ok words =>
      obtain ⟨log, hd⟩ := resumeDefinition_of_captured hm h hc
      rw [after_of_ok hd]
      exact ⟨⟨rfl, hm.define (Machine.native_of_captured hm hc _)⟩, hlines.trans hrest⟩
    | error fault =>
      obtain ⟨log, hd⟩ := resumeDefinition_of_refused hm.onlyComments h hc
      rw [after_of_error hd]
      exact ⟨⟨rfl, hm⟩, hlines.trans hrest⟩

/-! ## Words -/

/-- A token for the word that starts a definition goes on with one that has nothing yet. -/
theorem interpret_of_define {m : Machine Ext} {token : String} {w : Word Ext}
    (hm : m.dictionary.OnlyComments) (h : m.resolve token = .ok (some w))
    (hw : w.body = .primitive .define) :
    interpret Machine.performer token m = resumeDefinition Machine.performer .unnamed m := by
  rw [interpret_of_word h, hw, Body.run_primitive, performer_define hm]

/-- A captured word that starts no definition has an effect on the stack and the output only. -/
theorem contained_of_resolve {m : Machine Ext} {token : String} {w : Word Ext}
    (hm : m.dictionary.Native) (h : m.resolve token = .ok (some w)) (hw : w.immediate = false)
    (hdefine : Leaf.primitive .define ∉ w.body.leaves) :
    (w.body.run Machine.performer).Contained true := by
  refine Body.run_contained nestingLimit fun leaf hleaf => ?_
  refine Leaf.isContained_of_isPlain (Machine.plain_of_resolve hm h hw leaf hleaf) ?_
  rintro rfl
  exact hdefine hleaf

theorem evolving_run_leaf {leaf : Leaf Ext} (h : leaf.isPlain = true) :
    (leaf.run Machine.performer).Evolving := by
  by_cases hd : leaf = .primitive .define
  · subst hd
    intro m hm
    have hrun : (Leaf.primitive .define).run Machine.performer m = _ :=
      performer_define hm.onlyComments
    rw [after_congr hrun]
    exact evolving_resumeDefinition .unnamed m hm
  · exact (Leaf.run_contained nestingLimit (Leaf.isContained_of_isPlain h hd)).evolving

theorem evolving_run_body {body : Body Ext} (h : ∀ leaf ∈ body.leaves, leaf.isPlain = true) :
    (body.run Machine.performer).Evolving := by
  rw [Body.run_eq_forM]
  exact .forM fun leaf hleaf => evolving_run_leaf (h leaf hleaf)

theorem evolving_run_comment :
    ((Body.primitive .comment).run Machine.performer : Action Ext Unit).Evolving := by
  intro m hm
  have hrun : (Body.primitive .comment).run Machine.performer m = _ := run_comment nestingLimit m
  rw [after_of_ok hrun]
  exact ⟨⟨rfl, hm⟩, Input.skipLine_suffix _⟩

theorem evolving_interpret (token : String) :
    (interpret Machine.performer token : Action Ext Unit).Evolving := by
  intro m hm
  cases hr : m.resolve token with
  | error fault =>
    rw [after_of_error (interpret_of_error hr)]
    exact ⟨⟨rfl, hm⟩, List.suffix_refl _⟩
  | ok w =>
    cases w with
    | none =>
      rw [after_of_error (interpret_of_unknown hr)]
      exact ⟨⟨rfl, hm⟩, List.suffix_refl _⟩
    | some w =>
      rw [after_congr (interpret_of_word hr)]
      cases hi : w.immediate with
      | true =>
        rw [Machine.body_of_resolve hm.onlyComments hr hi]
        exact evolving_run_comment m hm
      | false => exact evolving_run_body (Machine.plain_of_resolve hm hr hi) m hm

/-! ## The loop -/

theorem evolving_interpretPending (budget : Nat) :
    (interpretPending Machine.performer budget : Action Ext Unit).Evolving := by
  induction budget with
  | zero => exact fun m hm => ⟨⟨rfl, hm⟩, List.suffix_refl _⟩
  | succ budget ih =>
    intro m hm
    cases hd : m.draft with
    | some draft =>
      rw [after_of_ok (interpretPending_of_open hd)]
      exact ⟨⟨rfl, hm⟩, List.suffix_refl _⟩
    | none =>
      cases hr : Input.readWord? m.pending with
      | none =>
        rw [after_of_ok (interpretPending_of_none hd hr)]
        exact ⟨⟨rfl, hm⟩, List.nil_suffix⟩
      | some read =>
        rw [after_congr (interpretPending_of_some hd hr)]
        have hrest := ((evolving_interpret read.1).bind fun _ => ih) { m with pending := read.2 } hm
        have hread := (List.suffix_cons _ _).trans (Input.suffix_of_readWord? hr)
        exact ⟨⟨hrest.width, hrest.native⟩, hrest.pending.trans hread⟩

/-- More budget than there are pending pieces makes no difference. -/
theorem interpretPending_budget {budget budget' : Nat} {m : Machine Ext} (hm : m.dictionary.Native)
    (h : m.pending.length < budget) (h' : m.pending.length < budget') :
    interpretPending Machine.performer budget m = interpretPending Machine.performer budget' m := by
  induction budget generalizing budget' m with
  | zero => omega
  | succ budget ih =>
    obtain ⟨budget', rfl⟩ : ∃ b, budget' = b + 1 := ⟨budget' - 1, by omega⟩
    cases hd : m.draft with
    | some draft => rw [interpretPending_of_open hd, interpretPending_of_open hd]
    | none =>
      cases hr : Input.readWord? m.pending with
      | none => rw [interpretPending_of_none hd hr, interpretPending_of_none hd hr]
      | some read =>
        rw [interpretPending_of_some hd hr, interpretPending_of_some hd hr]
        -- a word takes itself off at least, so what is pending shrinks along with the budgets
        have hlen := Input.length_of_readWord? hr
        have hevo := evolving_interpret read.1 { m with pending := read.2 } hm
        cases hi : interpret Machine.performer read.1 { m with pending := read.2 } with
        | error fault m' => rw [bind_of_error hi, bind_of_error hi]
        | ok _ m' =>
          rw [bind_of_ok hi, bind_of_ok hi]
          rw [after_of_ok hi] at hevo
          have hle : m'.pending.length ≤ read.2.length := hevo.pending.length_le
          exact ih hevo.native (by omega) (by omega)

/-- Interprets the pending words until none is left or a definition is open. -/
def drain : Action Ext Unit := fun m =>
  interpretPending Machine.performer (m.pending.length + 1 + refillLimit) m

theorem drain_of_open {m : Machine Ext} {draft : Draft} (h : m.draft = some draft) :
    drain m = .ok () m := by
  rw [drain, Nat.add_right_comm, interpretPending_of_open h]

theorem drain_of_none {m : Machine Ext} (hd : m.draft = none)
    (h : Input.readWord? m.pending = none) : drain m = .ok () { m with pending := [] } := by
  rw [drain, Nat.add_right_comm, interpretPending_of_none hd h]

/-- One turn of the loop, without the budget. -/
theorem drain_of_some {m : Machine Ext} {token : String} {rest : Input} (hm : m.dictionary.Native)
    (hd : m.draft = none) (h : Input.readWord? m.pending = some (token, rest)) :
    drain m = (interpret Machine.performer token >>= fun _ => drain) { m with pending := rest } := by
  rw [drain, Nat.add_right_comm, interpretPending_of_some hd h]
  have hlen := Input.length_of_readWord? h
  have hevo := evolving_interpret token { m with pending := rest } hm
  cases hi : interpret Machine.performer token { m with pending := rest } with
  | error fault m' => rw [bind_of_error hi, bind_of_error hi]
  | ok _ m' =>
    rw [bind_of_ok hi, bind_of_ok hi]
    rw [after_of_ok hi] at hevo
    have hle : m'.pending.length ≤ rest.length := hevo.pending.length_le
    exact interpretPending_budget hevo.native (by omega) (by omega)

/-- Marks before the next word make no difference. -/
theorem drain_of_readWord?_eq {m : Machine Ext} {q q' : Input} (hm : m.dictionary.Native)
    (hd : m.draft = none) (h : Input.readWord? q = Input.readWord? q') :
    drain { m with pending := q } = drain { m with pending := q' } := by
  cases hq : Input.readWord? q' with
  | none =>
    have h₁ := @drain_of_none Ext _ { m with pending := q } hd (h.trans hq)
    have h₂ := @drain_of_none Ext _ { m with pending := q' } hd hq
    exact h₁.trans h₂.symm
  | some read =>
    have h₁ := @drain_of_some Ext _ { m with pending := q } read.1 read.2 hm hd (h.trans hq)
    have h₂ := @drain_of_some Ext _ { m with pending := q' } read.1 read.2 hm hd hq
    exact h₁.trans h₂.symm

/-- What remains of `eval` once the text is queued. -/
def proceed : Action Ext Unit := do
  if let some draft := (← get).draft then
    resumeDefinition Machine.performer draft
  drain

theorem eval_eq_proceed (text : String) (m : Machine Ext) :
    Machine.eval text m = proceed { m with pending := m.pending ++ Input.ofText text } :=
  rfl

theorem proceed_of_closed {m : Machine Ext} (h : m.draft = none) : proceed m = drain m := by
  rw [proceed, get_bind, h]

theorem proceed_of_open {m : Machine Ext} {draft : Draft} (h : m.draft = some draft) :
    proceed m = (resumeDefinition Machine.performer draft >>= fun _ => drain) m := by
  rw [proceed, get_bind, h]

theorem evolving_drain : (drain : Action Ext Unit).Evolving := by
  intro m hm
  have hrun : drain m = interpretPending Machine.performer (m.pending.length + 1 + refillLimit) m :=
    by rw [drain]
  rw [after_congr hrun]
  exact evolving_interpretPending _ m hm

theorem evolving_proceed : (proceed : Action Ext Unit).Evolving := by
  intro m hm
  cases hd : m.draft with
  | none =>
    rw [after_congr (proceed_of_closed hd)]
    exact evolving_drain m hm
  | some draft =>
    rw [after_congr (proceed_of_open hd)]
    exact ((evolving_resumeDefinition draft).bind fun _ => evolving_drain) m hm

end Running

end Action

end ThreadedForth
