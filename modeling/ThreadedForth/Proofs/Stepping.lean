import ThreadedForth.Proofs.Continuation
import ThreadedForth.Proofs.Growth
import ThreadedForth.Proofs.Simulation

/-!
# A failing word can be stepped over

A word that fails is gone from the pending input, and what follows it is still there. So the next
evaluation goes on behind the word, as if it had not been in the text (`eval_past_failing_word`). For
this the word has to fail without any effect, as an unknown word does and every primitive that a
program can be blamed for (`Action.FailsClean`).

The text before the word is interpreted in the same way whatever follows it (`Action.eval_past`), as
long as it has no comment that could reach into what follows and leaves no definition open.
-/

namespace ThreadedForth

variable {Ext : Type}

/-! ## Failing words -/

namespace Action

/-- Where the action stops with a failure of the program, it has had no effect. -/
def FailsClean (a : Action Ext Unit) : Prop :=
  ∀ m fault m', a m = .error fault m' → fault.isRecoverable = true → m' = m

theorem failsClean_get {f : Machine Ext → Action Ext Unit} (h : ∀ m, (f m).FailsClean) :
    FailsClean (get >>= f) :=
  fun m => h m m

theorem failsClean_throw (fault : Fault) : FailsClean (throw fault : Action Ext Unit) := by
  intro m _ m' hrun _
  cases hrun
  rfl

theorem failsClean_writeResult {γ : Type} (result : Except Fault γ) (line : γ → String) :
    FailsClean (ofExcept result >>= fun x => write (line x) : Action Ext Unit) := by
  cases result with
  | ok x => exact fun _ _ _ hrun => nomatch hrun
  | error fault => exact failsClean_throw fault

theorem failsClean_rearrange (word : String) (arity : Nat) (f : List Int → Option (List Int)) :
    FailsClean (rearrange word arity f : Action Ext Unit) := by
  intro m fault m' hrun _
  rw [rearrange] at hrun
  split at hrun
  · cases hrun
  · cases hrun
    rfl

theorem failsClean_binary (word : String) (op : Int → Int → Int) :
    FailsClean (binary word op : Action Ext Unit) :=
  failsClean_get fun _ => failsClean_rearrange _ _ _

theorem failsClean_divide : FailsClean (divide : Action Ext Unit) := by
  refine failsClean_get fun m => ?_
  split
  · exact failsClean_throw _
  · exact failsClean_binary _ _

/-- A number that is too long to be written is gone; but that is no failure of the program. -/
theorem failsClean_printTop : FailsClean (printTop : Action Ext Unit) := by
  intro m fault m' hrun hrecoverable
  cases hs : m.stack with
  | nil =>
    rw [printTop, get_bind, hs] at hrun
    exact failsClean_throw _ _ _ _ hrun hrecoverable
  | cons v rest =>
    rw [printTop_of_cons hs, Number.write] at hrun
    split at hrun
    · cases hrun
    · cases hrun
      cases hrecoverable

/-- No primitive that the program can be blamed for has had an effect. -/
theorem failsClean_step [Extension Ext] (nested : Performer Ext) {p : Primitive Ext}
    (h : p.isContained true = true) : FailsClean (step nested p) := by
  cases p with
  | print => exact failsClean_printTop
  | printStack => exact failsClean_get fun _ => failsClean_writeResult _ _
  | add | subtract | multiply => exact failsClean_binary _ _
  | divide => exact failsClean_divide
  | listWords => exact failsClean_get fun _ => failsClean_writeResult _ _
  | newline => exact fun _ _ _ hrun => nomatch hrun
  | bye => exact failsClean_throw _
  | define | comment | extension => cases h
  | _ =>
    -- the words that rearrange the stack
    unfold step
    exact failsClean_rearrange _ _ _

end Action

/-- The token fails on the machine: it is unknown, or a primitive other than the colon that stops with
a failure of the program. -/
inductive Machine.FailsAt [Extension Ext] (m : Machine Ext) (token : String) : Fault → Prop
  | unknown : m.resolve token = .ok none → FailsAt m token (.unknownWord token)
  | primitive {w : Word Ext} {p : Primitive Ext} {fault : Fault} :
      m.dictionary.lookup token = some w → w.body = .primitive p → p ≠ .define →
      (performer p).fault? m = some fault → fault.isRecoverable = true → FailsAt m token fault

namespace Action

variable [Extension Ext]

/-- Whatever is pending behind it, the token is all that is lost. -/
theorem interpret_of_failsAt {m : Machine Ext} (hm : m.dictionary.Native) {token : String}
    {fault : Fault} (h : m.FailsAt token fault) (q : Input) (log : List Event) :
    ∃ log', interpret Machine.performer token { m with pending := q, log := log } =
      .error fault { m with pending := q, log := log' } := by
  cases h with
  | unknown hr =>
    have hresolve : Machine.resolve { m with pending := q, log := log } token = .ok none := hr
    exact ⟨_, interpret_of_unknown hresolve⟩
  | @primitive w p _ hl hw hdefine hfault hrecoverable =>
    have hresolve : m.resolve token = .ok (some w) := by rw [Machine.resolve, hl]
    have hresolve' : Machine.resolve { m with pending := q, log := log } token = .ok (some w) :=
      hresolve
    obtain ⟨_, hnative⟩ := hm hl
    have hi : w.immediate = false := by
      refine Bool.eq_false_iff.2 fun hi => ?_
      obtain rfl : p = .comment := Body.primitive.inj (hw.symm.trans (hnative.immediate hi))
      cases hfault
    have hleaf : (Leaf.primitive p).isPlain = true :=
      Machine.plain_of_resolve hm hresolve hi _ (by simp [hw, Body.leaves])
    have hcontained : (Leaf.primitive p).isContained true = true :=
      Leaf.isContained_of_isPlain hleaf fun h => hdefine (Leaf.primitive.inj h)
    obtain ⟨ending, stack, text, hrun⟩ := contained_perform nestingLimit hcontained m
    have hhere : Machine.performer p m = _ := hrun m ⟨rfl, rfl, fun _ => rfl⟩
    obtain rfl : ending = some fault := by rw [← hfault, fault?_of_endWith hhere]
    have hclean := failsClean_step (perform (nestingLimit - 1)) hcontained m fault _ hhere hrecoverable
    have hthere := hrun { m with pending := q, log := log } ⟨rfl, rfl, fun _ => rfl⟩
    have heffect : Machine.withEffect { m with pending := q, log := log } stack text =
        { m.withEffect stack text with pending := q, log := log } := rfl
    refine ⟨log, ?_⟩
    rw [interpret_of_word hresolve', hw, Body.run_primitive]
    rw [heffect, hclean] at hthere
    exact hthere

/-- A text goes on from where its beginning leads, with what follows after a space. -/
theorem eval_past {n m : Machine Ext} (hn : n.dictionary.Native)
    (hcomment : ∀ name w, n.dictionary.lookup name = some w → w.immediate = true → name = "\\")
    (hpending : n.pending = []) (hd : n.draft = none) {text : String}
    (htext : "\\" ∉ Input.words (Input.ofText text)) (hrun : Machine.eval text n = .ok () m)
    (hclosed : m.draft = none) (more : String) :
    ∃ log, Machine.eval (text ++ " " ++ more) n =
      drain { m with pending := Input.ofText (" " ++ more), log := log } := by
  obtain ⟨front, hfront, hspace, _⟩ := Input.ofText_append text
  obtain ⟨k, hk, hpast⟩ := eval_past_front hn hpending hd hfront hrun hclosed
  have huncommented : { n with pending := front }.Uncommented := by
    refine ⟨hcomment, fun h => htext ?_⟩
    obtain hfront | hfront := hfront
    · rw [hfront]
      exact h
    · rw [hfront, Input.words_append]
      exact List.mem_append_left _ h
  obtain rfl := hk huncommented
  exact hpast _ _ (hspace more)

end Action

/-- Take a machine `s` after any texts that has nothing pending and no definition open, and two texts
`p` and `q`; `p` has no comment, returns, and leaves no definition open. Let `x` be a word that fails
then. The text with `x` between `p` and `q` stops with the fault of `x`. To go on after that, with
nothing added, ends in the same way as the text without `x` does from `s`, and the machine that it
leaves is the same but for its log. -/
theorem eval_past_failing_word [Extension Ext] {width : CellWidth} {texts : List String}
    {s s' : Machine Ext} (hs : s = (Machine.fresh width).afterCalls (texts.map .eval))
    (hpending : s.pending = []) (hdraft : s.draft = none) {p q x : String}
    (hp : "\\" ∉ Input.words (Input.ofText p)) (hrun : Machine.eval p s = .ok () s')
    (hclosed : s'.draft = none) (hx : Text.IsWord x) {fault : Fault} (hfails : s'.FailsAt x fault) :
    (Machine.eval (p ++ " " ++ x ++ " " ++ q)).fault? s = some fault ∧
    (Machine.eval "").fault? ((Machine.eval (p ++ " " ++ x ++ " " ++ q)).after s) =
      (Machine.eval (p ++ " " ++ q)).fault? s ∧
    ∃ log, (Machine.eval "").after ((Machine.eval (p ++ " " ++ x ++ " " ++ q)).after s) =
      { (Machine.eval (p ++ " " ++ q)).after s with log := log } := by
  have hnative : s.dictionary.Native := hs ▸ Machine.native_afterCalls width (texts.map .eval)
  have hcomment := hs ▸ @Machine.comment_afterTexts Ext _ width texts
  have hnative' : s'.dictionary.Native := by
    rw [← Action.after_of_ok hrun]
    exact (Action.keeping_eval p s hnative).native
  have hpast := Action.eval_past hnative hcomment hpending hdraft hp hrun hclosed
  -- the run with the word stops at it, with the rest still pending
  obtain ⟨log₁, hwith⟩ := hpast (x ++ " " ++ q)
  obtain ⟨log₂, hstop⟩ := Action.interpret_of_failsAt hnative' hfails (Input.ofText (" " ++ q)) log₁
  have hstops : Machine.eval (p ++ " " ++ x ++ " " ++ q) s =
      .error fault { s' with pending := Input.ofText (" " ++ q), log := log₂ } := by
    have happend : p ++ " " ++ x ++ " " ++ q = p ++ " " ++ (x ++ " " ++ q) := by
      simp only [String.append_assoc]
    rw [happend, hwith, Input.ofText_word_append hx]
    have hdrain := @Action.drain_of_some Ext _ { s' with
      pending := .word x :: Input.ofText (" " ++ q), log := log₁ } x _ hnative' hclosed rfl
    rw [hdrain]
    exact Action.bind_of_error hstop
  -- the run without it is at the same place at some time
  obtain ⟨log₃, hwithout⟩ := hpast q
  rw [← @Action.proceed_of_closed Ext _ { s' with
    pending := Input.ofText (" " ++ q), log := log₃ } hclosed] at hwithout
  have hresume : Machine.eval "" { s' with pending := Input.ofText (" " ++ q), log := log₂ } =
      Action.proceed { s' with pending := Input.ofText (" " ++ q), log := log₂ } := by
    rw [Action.eval_eq_proceed]
    simp only [show Input.ofText "" = [] from rfl, List.append_nil]
  obtain ⟨hfault, hafter⟩ := @Action.proceed_withLog Ext _
    { s' with pending := Input.ofText (" " ++ q), log := log₃ } hnative' log₂
  rw [Action.fault?_of_error hstops, Action.after_of_error hstops, Action.fault?_congr hresume,
    Action.after_congr hresume, Action.fault?_congr hwithout, Action.after_congr hwithout]
  exact ⟨rfl, hfault, hafter⟩

/-- A text that leaves a zero above another number. -/
def beforeDivision : String := ": half 2 / ; 10 half 0"

/-- The division by that zero is stepped over: what follows drops the zero, and halves again. -/
theorem eval_past_division :
    (Machine.eval (beforeDivision ++ " " ++ "/" ++ " " ++ "drop half .")).fault?
        (Machine.fresh .standard : Machine Empty) = some .divisionByZero ∧
      ((Machine.eval "").after
        ((Machine.eval (beforeDivision ++ " " ++ "/" ++ " " ++ "drop half .")).after
          (Machine.fresh .standard : Machine Empty))).output = "2\n" := by
  have hp : "\\" ∉ Input.words (Input.ofText beforeDivision) := by decide +kernel
  have hreturns : (Machine.eval beforeDivision).fault? (Machine.fresh .standard : Machine Empty) =
      none := by
    decide +kernel
  have hclosed : ((Machine.eval beforeDivision).after
      (Machine.fresh .standard : Machine Empty)).draft = none := by
    decide +kernel
  have hlookup : ((Machine.eval beforeDivision).after
      (Machine.fresh .standard : Machine Empty)).dictionary.lookup "/" =
        some ⟨some "/", false, .primitive .divide⟩ := by
    decide +kernel
  have hfault : (Machine.performer .divide).fault? ((Machine.eval beforeDivision).after
      (Machine.fresh .standard : Machine Empty)) = some .divisionByZero := by
    decide +kernel
  have houtput : ((Machine.eval (beforeDivision ++ " " ++ "drop half .")).after
      (Machine.fresh .standard : Machine Empty)).output = "2\n" := by
    decide +kernel
  obtain ⟨hstops, _, log, hafter⟩ := @eval_past_failing_word Empty _ .standard []
    (Machine.fresh .standard) _ rfl rfl rfl beforeDivision "drop half ." "/" hp
    (Action.eq_ok_of_fault? hreturns) hclosed (by decide) _
    (.primitive hlookup rfl nofun hfault rfl)
  refine ⟨hstops, ?_⟩
  rw [hafter]
  exact houtput

end ThreadedForth
