import Mathlib.Data.List.Forall2
import ThreadedForth.Proofs.Persistence

/-!
# Runs side by side

Give two machines texts that correspond piece by piece. A `Simulation` says which tokens, words and
machines are to correspond, and carries what has to be shown of them: that corresponding tokens stand
for corresponding words, that a leaf has corresponding effects, and that corresponding definitions
leave corresponding machines. All the rest is the same for every such comparison and is done here
once: reading and collecting, compiling, running threads, the loop over the words, and a text as a
whole (`Simulation.follows_eval`).

A comparison may also be given up: if the first run stops with a fault that is excused, or makes a
definition that spoils its dictionary.

The first use is that the log makes no difference to what is interpreted (`Action.proceed_withLog`).
-/

namespace ThreadedForth

variable {Ext : Type}

/-! ## Corresponding input -/

/-- Two marks correspond, and two words do if their tokens do. -/
inductive Item.Corresponds (T : String → String → Prop) : Item → Item → Prop
  | lineEnd : Corresponds T .lineEnd .lineEnd
  | word {t t' : String} : T t t' → Corresponds T (.word t) (.word t')

namespace Input

/-- The inputs correspond piece by piece. -/
abbrev Corresponds (T : String → String → Prop) : Input → Input → Prop :=
  List.Forall₂ (Item.Corresponds T)

variable {T : String → String → Prop} {q q' : Input}

theorem readWord?_rel (h : Corresponds T q q') :
    Option.Rel (fun a b => T a.1 b.1 ∧ Corresponds T a.2 b.2) (readWord? q) (readWord? q') := by
  induction h with
  | nil => exact .none
  | cons hitem hrest ih =>
    cases hitem with
    | lineEnd => exact ih
    | word ht => exact .some ⟨ht, hrest⟩

theorem skipLine_rel (h : Corresponds T q q') : Corresponds T (skipLine q) (skipLine q') := by
  induction h with
  | nil => exact .nil
  | cons hitem hrest ih =>
    cases hitem with
    | lineEnd => exact hrest
    | word ht => exact ih

theorem skipLines_rel (n : Nat) (h : Corresponds T q q') :
    Corresponds T (skipLines n q) (skipLines n q') := by
  induction n generalizing q q' with
  | zero => exact h
  | succ n ih => exact ih (skipLine_rel h)

/-- Corresponding bodies end at the same place, as the semicolon stands for itself only. -/
theorem takeBody_rel (hend : ∀ {t t'}, T t t' → (t = ";" ↔ t' = ";")) (h : Corresponds T q q') :
    List.Forall₂ T (takeBody q).1 (takeBody q').1 ∧
      Option.Rel (Corresponds T) (takeBody q).2 (takeBody q').2 := by
  induction h with
  | nil => exact ⟨.nil, .none⟩
  | cons hitem hrest ih =>
    cases hitem with
    | lineEnd => exact ih
    | @word t t' ht =>
      rw [takeBody, takeBody]
      by_cases hsemi : t = ";"
      · rw [if_pos hsemi, if_pos ((hend ht).1 hsemi)]
        exact ⟨.nil, .some hrest⟩
      · rw [if_neg hsemi, if_neg fun h => hsemi ((hend ht).2 h)]
        exact ⟨.cons ht ih.1, ih.2⟩

theorem corresponds_append {r r' : Input} (h : Corresponds T q q') (hr : Corresponds T r r') :
    Corresponds T (q ++ r) (q' ++ r') :=
  List.rel_append h hr

/-- Input corresponds to itself if all its words do. -/
theorem corresponds_self (h : ∀ t ∈ words q, T t t) : Corresponds T q q := by
  induction q with
  | nil => exact .nil
  | cons item q ih =>
    cases item with
    | lineEnd => exact .cons .lineEnd (ih h)
    | word token =>
      rw [words, List.forall_mem_cons] at h
      exact .cons (.word h.1) (ih h.2)

/-- What holds of the words of the first input may be said of the pairs. -/
theorem corresponds_and {P : String → Prop} (h : Corresponds T q q') (hP : ∀ t ∈ words q, P t) :
    Corresponds (fun t t' => T t t' ∧ P t) q q' := by
  induction h with
  | nil => exact .nil
  | cons hitem _ ih =>
    cases hitem with
    | lineEnd => exact .cons .lineEnd (ih hP)
    | word ht =>
      rw [words, List.forall_mem_cons] at hP
      exact .cons (.word ⟨ht, hP.1⟩) (ih hP.2)

/-- Texts whose lines correspond word by word. -/
theorem ofText_rel {text text' : String}
    (h : List.Forall₂ (fun line line' => List.Forall₂ T (Text.words line) (Text.words line'))
      (Text.lines text) (Text.lines text')) :
    Corresponds T (ofText text) (ofText text') := by
  refine List.rel_flatMap h fun line line' hline => ?_
  refine corresponds_append ?_ (.cons .lineEnd .nil)
  rw [Corresponds, List.forall₂_map_left_iff, List.forall₂_map_right_iff]
  exact hline.imp fun _ _ => .word

/-- Input corresponds to nothing but itself if its words do not. -/
theorem eq_of_corresponds (hT : ∀ {t t'}, T t t' → t = t') (h : Corresponds T q q') : q = q' := by
  induction h with
  | nil => rfl
  | cons hitem _ ih =>
    cases hitem with
    | lineEnd => rw [ih]
    | word ht => rw [hT ht, ih]

end Input

/-- Definitions correspond if their names do, and their bodies word by word. -/
inductive Draft.Corresponds (T : String → String → Prop) : Draft → Draft → Prop
  | unnamed : Corresponds T .unnamed .unnamed
  | named {name name' : String} {body body' : List String} : T name name' →
      List.Forall₂ T body body' → Corresponds T (.named name body) (.named name' body')

namespace Draft

variable {T : String → String → Prop} {draft draft' : Draft} {q q' : Input}

theorem completeNamed?_rel (hend : ∀ {t t'}, T t t' → (t = ";" ↔ t' = ";")) {name name' : String}
    {body body' : List String} (hname : T name name') (hbody : List.Forall₂ T body body')
    (h : Input.Corresponds T q q') :
    Option.Rel (fun a b => T a.1 b.1 ∧ List.Forall₂ T a.2.1 b.2.1 ∧ Input.Corresponds T a.2.2 b.2.2)
      (completeNamed? name body q) (completeNamed? name' body' q') := by
  have htake := Input.takeBody_rel hend h
  rw [completeNamed?, completeNamed?]
  generalize Input.takeBody q = taken at htake
  generalize Input.takeBody q' = taken' at htake
  obtain ⟨more, after⟩ := taken
  obtain ⟨more', after'⟩ := taken'
  obtain ⟨hmore, hafter⟩ := htake
  cases hafter with
  | none => exact .none
  | some hrest => exact .some ⟨hname, List.rel_append hbody hmore, hrest⟩

/-- Corresponding input completes both definitions or neither. -/
theorem complete?_rel (hend : ∀ {t t'}, T t t' → (t = ";" ↔ t' = ";"))
    (hdraft : Corresponds T draft draft') (h : Input.Corresponds T q q') :
    Option.Rel (fun a b => T a.1 b.1 ∧ List.Forall₂ T a.2.1 b.2.1 ∧ Input.Corresponds T a.2.2 b.2.2)
      (draft.complete? q) (draft'.complete? q') := by
  cases hdraft with
  | named hname hbody => exact completeNamed?_rel hend hname hbody h
  | unnamed =>
    have hread := Input.readWord?_rel h
    rw [complete?, complete?]
    generalize Input.readWord? q = read at hread
    generalize Input.readWord? q' = read' at hread
    cases hread with
    | none => exact .none
    | some hread => exact completeNamed?_rel hend hread.1 .nil hread.2

theorem extend_rel (hend : ∀ {t t'}, T t t' → (t = ";" ↔ t' = ";"))
    (hdraft : Corresponds T draft draft') (h : Input.Corresponds T q q') :
    Corresponds T (draft.extend q) (draft'.extend q') := by
  cases hdraft with
  | named hname hbody =>
    exact .named hname (List.rel_append hbody (Input.takeBody_rel hend h).1)
  | unnamed =>
    have hread := Input.readWord?_rel h
    rw [extend, extend]
    generalize Input.readWord? q = read at hread
    generalize Input.readWord? q' = read' at hread
    cases hread with
    | none => exact .unnamed
    | some hread => exact .named hread.1 (Input.takeBody_rel hend hread.2).1

theorem corresponds_self (hT : ∀ t, T t t) (draft : Option Draft) :
    Option.Rel (Corresponds T) draft draft := by
  rcases draft with _ | _ | ⟨name, body⟩
  · exact .none
  · exact .some .unnamed
  · exact .some (.named (hT name) (List.forall₂_same.2 fun t _ => hT t))

theorem eq_of_corresponds (hT : ∀ {t t'}, T t t' → t = t') {draft draft' : Option Draft}
    (h : Option.Rel (Corresponds T) draft draft') : draft = draft' := by
  cases h with
  | none => rfl
  | some h =>
    cases h with
    | unnamed => rfl
    | named hname hbody =>
      have hsame := List.forall₂_eq_eq_eq ▸ hbody.imp fun _ _ => hT
      rw [hT hname, hsame]

end Draft

/-! ## What is to be shown -/

namespace Action

/-- The machine that a result leaves. -/
def leftBy : EStateM.Result Fault (Machine Ext) Unit → Machine Ext
  | .ok _ m => m
  | .error _ m => m

theorem leftBy_eq_after (a : Action Ext Unit) (m : Machine Ext) : leftBy (a m) = a.after m := by
  cases h : a m with
  | ok _ m' => rw [after_of_ok h, leftBy]
  | error fault m' => rw [after_of_error h, leftBy]

end Action

/-- Tokens are resolved to corresponding words, or are unknown and the same, or fail alike. -/
inductive Resolves (W : Word Ext → Word Ext → Prop) (t t' : String) :
    Except Fault (Option (Word Ext)) → Except Fault (Option (Word Ext)) → Prop
  | failed (fault : Fault) : Resolves W t t' (.error fault) (.error fault)
  | unknown : t = t' → Resolves W t t' (.ok none) (.ok none)
  | word {w w' : Word Ext} : W w w' → Resolves W t t' (.ok (some w)) (.ok (some w'))

/-- One token resolved in the same way twice. -/
theorem Resolves.self {W : Word Ext → Word Ext → Prop} {t : String}
    {found : Except Fault (Option (Word Ext))} (h : ∀ w, found = .ok (some w) → W w w) :
    Resolves W t t found found := by
  rcases found with fault | _ | w
  · exact .failed fault
  · exact .unknown rfl
  · exact .word (h w rfl)

theorem Machine.resolve_congr {m n : Machine Ext} (hwidth : n.width = m.width)
    (hdictionary : n.dictionary = m.dictionary) (token : String) :
    n.resolve token = m.resolve token := by
  rw [resolve, resolve, hdictionary, hwidth]

/-- A comparison of two runs: what corresponds, and that it goes on to. -/
structure Simulation (Ext : Type) [Extension Ext] where
  /-- Corresponding tokens. -/
  Token : String → String → Prop
  /-- Corresponding words. -/
  Words : Word Ext → Word Ext → Prop
  /-- The leaves that may run. -/
  Allowed : Leaf Ext → Prop
  /-- Corresponding machines, whatever is pending, open or logged. -/
  Core : Machine Ext → Machine Ext → Prop
  /-- The faults of the first run that the comparison is given up for. -/
  Excused : Fault → Prop
  /-- The dictionaries of the first run that it is given up for. -/
  Spoiled : Dictionary Ext → Prop
  semicolon {t t' : String} : Token t t' → (t = ";" ↔ t' = ";")
  immediate {w w' : Word Ext} : Words w w' → w.immediate = w'.immediate
  leaves {w w' : Word Ext} : Words w w' → w.body.leaves = w'.body.leaves
  allowed {w w' : Word Ext} : Words w w' → ∀ leaf ∈ w.body.leaves, Allowed leaf
  native {m n : Machine Ext} : Core m n → m.dictionary.Native ∧ n.dictionary.Native
  core {m n : Machine Ext} (q q' : Input) (d d' : Option Draft) (l l' : List Event) : Core m n →
    Core { m with pending := q, draft := d, log := l } { n with pending := q', draft := d', log := l' }
  resolve {m n : Machine Ext} {t t' : String} : Core m n → Token t t' →
    Resolves Words t t' (m.resolve t) (n.resolve t')
  /-- A leaf has corresponding effects and ends in the same way, or with an excuse. -/
  leaf {m n : Machine Ext} {leaf : Leaf Ext} : Core m n → Allowed leaf →
    leaf.isContained true = true →
    (∃ fault m', leaf.run Machine.performer m = .error fault m' ∧ Excused fault) ∨
    ∃ ending stack stack' text,
      leaf.run Machine.performer m = Action.endWith ending (m.withEffect stack text) ∧
      leaf.run Machine.performer n = Action.endWith ending (n.withEffect stack' text) ∧
      Core (m.withEffect stack text) (n.withEffect stack' text)
  define {m n : Machine Ext} {name name' : String} {words words' : List (Word Ext)} : Core m n →
    Token name name' → List.Forall₂ Words words words' →
    (⟨some name, false, .compiled words⟩ : Word Ext).Native →
    (⟨some name', false, .compiled words'⟩ : Word Ext).Native →
    Core { m with dictionary := m.dictionary.define name false (.compiled words) }
        { n with dictionary := n.dictionary.define name' false (.compiled words') } ∨
      Spoiled (m.dictionary.define name false (.compiled words))
  spoiled {d : Dictionary Ext} (name : String) (words : List (Word Ext)) : Spoiled d →
    Spoiled (d.define name false (.compiled words))

namespace Simulation

open ThreadedForth.Action

variable [Extension Ext] (σ : Simulation Ext)

/-- The machines correspond in all that is compared. -/
structure Relates (m n : Machine Ext) : Prop where
  core : σ.Core m n
  pending : Input.Corresponds σ.Token m.pending n.pending
  draft : Option.Rel (Draft.Corresponds σ.Token) m.draft n.draft

/-- Two runs end in the same way and leave corresponding machines, unless the comparison is given
up. -/
inductive Follows :
    EStateM.Result Fault (Machine Ext) Unit → EStateM.Result Fault (Machine Ext) Unit → Prop
  | returned {m n : Machine Ext} : σ.Relates m n → Follows (.ok () m) (.ok () n)
  | stopped {fault : Fault} {m n : Machine Ext} : σ.Relates m n →
      Follows (.error fault m) (.error fault n)
  | excused {fault : Fault} {m : Machine Ext} {y : EStateM.Result Fault (Machine Ext) Unit} :
      σ.Excused fault → Follows (.error fault m) y
  | spoilt {x y : EStateM.Result Fault (Machine Ext) Unit} : (leftBy x).dictionary.Native →
      σ.Spoiled (leftBy x).dictionary → Follows x y

variable {σ} {m n : Machine Ext}

/-- Where the comparison is not given up, the runs end alike. -/
theorem Follows.outcome {a b : Action Ext Unit} (h : σ.Follows (a m) (b n))
    (hfault : ∀ fault, a.fault? m = some fault → ¬ σ.Excused fault)
    (hdictionary : ¬ σ.Spoiled (a.after m).dictionary) :
    a.fault? m = b.fault? n ∧ σ.Relates (a.after m) (b.after n) := by
  rw [← leftBy_eq_after] at hdictionary
  generalize ha : a m = x at h hdictionary
  generalize hb : b n = y at h
  cases h with
  | returned hrel =>
    rw [fault?_of_ok ha, fault?_of_ok hb, after_of_ok ha, after_of_ok hb]
    exact ⟨rfl, hrel⟩
  | stopped hrel =>
    rw [fault?_of_error ha, fault?_of_error hb, after_of_error ha, after_of_error hb]
    exact ⟨rfl, hrel⟩
  | excused hexcused => exact absurd hexcused (hfault _ (fault?_of_error ha))
  | spoilt _ hspoiled => exact absurd hspoiled hdictionary

/-- A spoiled dictionary stays spoiled. -/
theorem persistent_spoiled (σ : Simulation Ext) :
    Machine.Persistent fun m : Machine Ext => σ.Spoiled m.dictionary where
  effect _ _ _ h := h
  take h _ := h
  wait h _ _ := h
  close h := h
  define h _ _ _ _ := σ.spoiled _ _ h

theorem Follows.bind {a b f g : Action Ext Unit} (h : σ.Follows (a m) (b n))
    (hf : ∀ m' n', a m = .ok () m' → σ.Relates m' n' → σ.Follows (f m') (g n'))
    (hspoiled : f.Preserving fun m => σ.Spoiled m.dictionary) :
    σ.Follows ((a >>= fun _ => f) m) ((b >>= fun _ => g) n) := by
  generalize ha : a m = x at h
  generalize hb : b n = y at h
  cases h with
  | returned hrel =>
    rw [bind_of_ok ha, bind_of_ok hb]
    exact hf _ _ ha hrel
  | stopped hrel =>
    rw [bind_of_error ha, bind_of_error hb]
    exact .stopped hrel
  | excused hexcused =>
    rw [bind_of_error ha]
    exact .excused hexcused
  | spoilt hnative hdictionary =>
    cases x with
    | ok _ m' =>
      obtain ⟨hnative', hkept⟩ := hspoiled m' hnative
      rw [bind_of_ok ha]
      rw [← leftBy_eq_after] at hnative' hkept
      exact .spoilt hnative' (hkept hdictionary)
    | error fault m' =>
      rw [bind_of_error ha]
      exact .spoilt hnative hdictionary

/-! ## Definitions -/

/-- Corresponding bodies are compiled to corresponding words, or refused with the same fault. -/
theorem captured_rel (hcore : σ.Core m n) {body body' : List String}
    (hbody : List.Forall₂ σ.Token body body') :
    (∃ fault, captured m.resolve body = .error fault ∧ captured n.resolve body' = .error fault) ∨
    ∃ words words', captured m.resolve body = .ok words ∧ captured n.resolve body' = .ok words' ∧
      List.Forall₂ σ.Words words words' := by
  induction hbody with
  | nil => exact .inr ⟨[], [], rfl, rfl, .nil⟩
  | cons ht _ ih =>
    have hr := σ.resolve hcore ht
    rw [captured, captured]
    generalize m.resolve _ = found at hr
    generalize n.resolve _ = found' at hr
    cases hr with
    | failed fault => exact .inl ⟨fault, rfl, rfl⟩
    | unknown heq => exact .inl ⟨_, rfl, heq ▸ rfl⟩
    | @word w w' hw =>
      simp only [← σ.immediate hw]
      obtain ⟨fault, hl, hr⟩ | ⟨words, words', hl, hr, hwords⟩ := ih
      · rw [hl, hr]
        refine .inl ⟨fault, ?_⟩
        cases w.immediate <;> exact ⟨rfl, rfl⟩
      · rw [hl, hr]
        cases w.immediate with
        | true => exact .inr ⟨words, words', rfl, rfl, hwords⟩
        | false => exact .inr ⟨w :: words, w' :: words', rfl, rfl, .cons hw hwords⟩

/-- They have the same number of comments. -/
theorem immediates_eq (hcore : σ.Core m n) {body body' : List String}
    (hbody : List.Forall₂ σ.Token body body') :
    immediates m.resolve body = immediates n.resolve body' := by
  induction hbody with
  | nil => rfl
  | cons ht _ ih =>
    have hr := σ.resolve hcore ht
    rw [immediates, immediates]
    generalize m.resolve _ = found at hr
    generalize n.resolve _ = found' at hr
    cases hr with
    | failed fault => rfl
    | unknown _ => rfl
    | word hw => simp only [← σ.immediate hw, ih]

/-- Corresponding definitions stay open, are refused or are made, both alike. -/
theorem follows_resumeDefinition (hcore : σ.Core m n)
    (hpending : Input.Corresponds σ.Token m.pending n.pending) {draft draft' : Draft}
    (hdraft : Draft.Corresponds σ.Token draft draft') :
    σ.Follows (resumeDefinition Machine.performer draft m)
      (resumeDefinition Machine.performer draft' n) := by
  obtain ⟨hm, hn⟩ := σ.native hcore
  have hcomplete := Draft.complete?_rel σ.semicolon hdraft hpending
  generalize hc : draft.complete? m.pending = completion at hcomplete
  generalize hc' : draft'.complete? n.pending = completion' at hcomplete
  cases hcomplete with
  | none =>
    rw [resumeDefinition_of_open hc, resumeDefinition_of_open hc']
    exact .returned ⟨σ.core _ _ _ _ _ _ hcore, .nil,
      .some (Draft.extend_rel σ.semicolon hdraft hpending)⟩
  | @some completion completion' h =>
    obtain ⟨name, body, rest⟩ := completion
    obtain ⟨name', body', rest'⟩ := completion'
    obtain ⟨hname, hbody, hrest⟩ := h
    have hlines := Input.skipLines_rel (immediates m.resolve body) hrest
    rw [immediates_eq hcore hbody] at hlines
    obtain ⟨fault, hl, hr⟩ | ⟨words, words', hl, hr, hwords⟩ := captured_rel hcore hbody
    · obtain ⟨log, hrun⟩ := resumeDefinition_of_refused hm.onlyComments hc hl
      obtain ⟨log', hrun'⟩ := resumeDefinition_of_refused hn.onlyComments hc' hr
      rw [hrun, hrun', immediates_eq hcore hbody]
      exact .stopped ⟨σ.core _ _ _ _ _ _ hcore, hlines, .none⟩
    · obtain ⟨log, hrun⟩ := resumeDefinition_of_captured hm hc hl
      obtain ⟨log', hrun'⟩ := resumeDefinition_of_captured hn hc' hr
      have hword := Machine.native_of_captured hm hl (some name)
      have hword' := Machine.native_of_captured hn hr (some name')
      rw [hrun, hrun', immediates_eq hcore hbody]
      obtain hdefine | hspoiled := σ.define hcore hname hwords hword hword'
      · exact .returned ⟨σ.core _ _ _ _ _ _ hdefine, hlines, .none⟩
      · exact .spoilt (hm.define hword) hspoiled

/-! ## Words -/

theorem follows_leaf (h : σ.Relates m n) {leaf : Leaf Ext} (hplain : leaf.isPlain = true)
    (hallowed : σ.Allowed leaf) :
    σ.Follows (leaf.run Machine.performer m) (leaf.run Machine.performer n) := by
  by_cases hd : leaf = .primitive .define
  · subst hd
    obtain ⟨hm, hn⟩ := σ.native h.core
    have hrun : (Leaf.primitive .define).run Machine.performer m = _ :=
      performer_define hm.onlyComments
    have hrun' : (Leaf.primitive .define).run Machine.performer n = _ :=
      performer_define hn.onlyComments
    rw [hrun, hrun']
    exact follows_resumeDefinition h.core h.pending .unnamed
  · obtain ⟨fault, m', hrun, hexcused⟩ | ⟨ending, stack, stack', text, hrun, hrun', hcore⟩ :=
      σ.leaf h.core hallowed (Leaf.isContained_of_isPlain hplain hd)
    · rw [hrun]
      exact .excused hexcused
    · rw [hrun, hrun']
      have hrel : σ.Relates (m.withEffect stack text) (n.withEffect stack' text) :=
        ⟨hcore, h.pending, h.draft⟩
      cases ending with
      | none => exact .returned hrel
      | some fault => exact .stopped hrel

theorem follows_leaves (h : σ.Relates m n) {leaves : List (Leaf Ext)}
    (hplain : ∀ leaf ∈ leaves, leaf.isPlain = true) (hallowed : ∀ leaf ∈ leaves, σ.Allowed leaf) :
    σ.Follows (leaves.forM (Leaf.run Machine.performer) m)
      (leaves.forM (Leaf.run Machine.performer) n) := by
  induction leaves generalizing m n with
  | nil => exact .returned h
  | cons leaf rest ih =>
    rw [List.forall_mem_cons] at hplain hallowed
    refine (follows_leaf h hplain.1 hallowed.1).bind (fun m' n' _ h' => ?_) ?_
    · exact ih h' hplain.2 hallowed.2
    · exact .forM fun leaf hleaf => σ.persistent_spoiled.run_leaf (hplain.2 leaf hleaf)

theorem follows_interpret (h : σ.Relates m n) {t t' : String} (ht : σ.Token t t') :
    σ.Follows (interpret Machine.performer t m) (interpret Machine.performer t' n) := by
  obtain ⟨hm, hn⟩ := σ.native h.core
  have hresolve := σ.resolve h.core ht
  generalize hr : m.resolve t = found at hresolve
  generalize hr' : n.resolve t' = found' at hresolve
  cases hresolve with
  | failed fault =>
    rw [interpret_of_error hr, interpret_of_error hr']
    exact .stopped h
  | unknown heq =>
    rw [interpret_of_unknown hr, interpret_of_unknown hr', heq]
    exact .stopped ⟨σ.core _ _ _ _ _ _ h.core, h.pending, h.draft⟩
  | @word w w' hw =>
    rw [interpret_of_word hr, interpret_of_word hr']
    have himmediate := σ.immediate hw
    cases hi : w.immediate with
    | true =>
      rw [Machine.body_of_resolve hm.onlyComments hr hi,
        Machine.body_of_resolve hn.onlyComments hr' (himmediate ▸ hi)]
      have hrun : (Body.primitive .comment).run Machine.performer m = _ := run_comment nestingLimit m
      have hrun' : (Body.primitive .comment).run Machine.performer n = _ :=
        run_comment nestingLimit n
      rw [hrun, hrun']
      exact .returned ⟨σ.core _ _ _ _ _ _ h.core, Input.skipLine_rel h.pending, h.draft⟩
    | false =>
      rw [Body.run_eq_forM, Body.run_eq_forM, ← σ.leaves hw]
      exact follows_leaves h (Machine.plain_of_resolve hm hr hi) (σ.allowed hw)

/-! ## Texts -/

theorem follows_drain (h : σ.Relates m n) : σ.Follows (drain m) (drain n) := by
  -- a word takes itself off at least, so what is pending gets shorter
  induction hlen : m.pending.length using Nat.strongRecOn generalizing m n with
  | _ k ih =>
    obtain ⟨hm, hn⟩ := σ.native h.core
    have hdraft := h.draft
    generalize hd : m.draft = draft at hdraft
    generalize hd' : n.draft = draft' at hdraft
    cases hdraft with
    | some _ =>
      rw [drain_of_open hd, drain_of_open hd']
      exact .returned h
    | none =>
      have hread := Input.readWord?_rel h.pending
      generalize hr : Input.readWord? m.pending = read at hread
      generalize hr' : Input.readWord? n.pending = read' at hread
      cases hread with
      | none =>
        rw [drain_of_none hd hr, drain_of_none hd' hr']
        exact .returned ⟨σ.core _ _ _ _ _ _ h.core, .nil, h.draft⟩
      | @some read read' hread =>
        obtain ⟨t, rest⟩ := read
        obtain ⟨t', rest'⟩ := read'
        rw [drain_of_some hm hd hr, drain_of_some hn hd' hr']
        have hrel : σ.Relates { m with pending := rest } { n with pending := rest' } :=
          ⟨σ.core _ _ _ _ _ _ h.core, hread.2, h.draft⟩
        refine (follows_interpret hrel hread.1).bind (fun m' n' hrun h' => ?_)
          σ.persistent_spoiled.drain
        have hevo := evolving_interpret t { m with pending := rest } hm
        rw [after_of_ok hrun] at hevo
        have hshorter := Input.length_of_readWord? hr
        have hle : m'.pending.length ≤ rest.length := hevo.pending.length_le
        exact ih m'.pending.length (by omega) h' rfl

theorem follows_proceed (h : σ.Relates m n) : σ.Follows (proceed m) (proceed n) := by
  have hdraft := h.draft
  generalize hd : m.draft = draft at hdraft
  generalize hd' : n.draft = draft' at hdraft
  cases hdraft with
  | none =>
    rw [proceed_of_closed hd, proceed_of_closed hd']
    exact follows_drain h
  | some hdraft =>
    rw [proceed_of_open hd, proceed_of_open hd']
    refine (follows_resumeDefinition h.core h.pending hdraft).bind (fun m' n' _ h' => ?_)
      σ.persistent_spoiled.drain
    exact follows_drain h'

/-- Corresponding texts have corresponding effects on corresponding machines. -/
theorem follows_eval (h : σ.Relates m n) {text text' : String}
    (htext : Input.Corresponds σ.Token (Input.ofText text) (Input.ofText text')) :
    σ.Follows (Machine.eval text m) (Machine.eval text' n) := by
  rw [eval_eq_proceed, eval_eq_proceed]
  exact follows_proceed ⟨σ.core _ _ _ _ _ _ h.core, Input.corresponds_append h.pending htext, h.draft⟩

end Simulation

/-! ## The log -/

/-- The machines are the same, whatever is pending, open or logged. -/
structure Machine.Same (m n : Machine Ext) : Prop where
  width : m.width = n.width
  stack : m.stack = n.stack
  output : m.output = n.output
  dictionary : m.dictionary = n.dictionary

/-- Two runs of one text on machines with different logs. -/
def Simulation.unlogged (Ext : Type) [Extension Ext] : Simulation Ext where
  Token := Eq
  Words := Eq
  Allowed _ := True
  Core m n := m.dictionary.Native ∧ m.Same n
  Excused _ := False
  Spoiled _ := False
  semicolon h := by rw [h]
  immediate h := by rw [h]
  leaves h := by rw [h]
  allowed _ _ _ := trivial
  native h := ⟨h.1, h.2.dictionary ▸ h.1⟩
  core _ _ _ _ _ _ h := ⟨h.1, h.2.width, h.2.stack, h.2.output, h.2.dictionary⟩
  resolve := by
    rintro m n t _ ⟨_, hsame⟩ rfl
    rw [Machine.resolve_congr hsame.width.symm hsame.dictionary.symm]
    exact .self fun _ _ => rfl
  leaf := by
    rintro m n leaf ⟨hm, hsame⟩ _ hcontained
    obtain ⟨ending, stack, text, hrun⟩ := Leaf.run_contained nestingLimit hcontained m
    have hn : m.Alike true n := ⟨hsame.width, hsame.stack, fun _ => hsame.dictionary⟩
    refine .inr ⟨ending, stack, stack, text, hrun m ⟨rfl, rfl, fun _ => rfl⟩, hrun n hn, hm, ?_⟩
    exact ⟨hsame.width, rfl, congrArg (· ++ text) hsame.output, hsame.dictionary⟩
  define := by
    rintro m n name _ words words' ⟨hm, hsame⟩ rfl hwords hword _
    obtain rfl : words = words' := by rwa [List.forall₂_eq_eq_eq] at hwords
    refine .inl ⟨hm.define hword, hsame.width, hsame.stack, hsame.output, ?_⟩
    exact congrArg (fun d : Dictionary Ext => d.define name false (.compiled words)) hsame.dictionary
  spoiled _ _ h := h

/-- What is logged before makes no difference to what is interpreted. -/
theorem Action.proceed_withLog [Extension Ext] {m : Machine Ext} (hm : m.dictionary.Native)
    (log : List Event) :
    proceed.fault? { m with log := log } = proceed.fault? m ∧
      ∃ log', proceed.after { m with log := log } = { proceed.after m with log := log' } := by
  have hrel : (Simulation.unlogged Ext).Relates { m with log := log } m := by
    refine ⟨⟨hm, rfl, rfl, rfl, rfl⟩, Input.corresponds_self fun _ _ => rfl, ?_⟩
    exact Draft.corresponds_self (fun _ => rfl) m.draft
  obtain ⟨hfault, hafter⟩ := (Simulation.follows_proceed hrel).outcome (fun _ _ => id) id
  refine ⟨hfault, (proceed.after { m with log := log }).log, ?_⟩
  generalize proceed.after { m with log := log } = left at hafter
  generalize proceed.after m = right at hafter
  obtain ⟨_, hwidth, hstack, houtput, hdictionary⟩ := hafter.core
  show left = { right with log := left.log }
  simp only [← hwidth, ← hstack, ← houtput, ← hdictionary,
    ← Input.eq_of_corresponds id hafter.pending, ← Draft.eq_of_corresponds id hafter.draft]

theorem Action.eval_withLog [Extension Ext] {m : Machine Ext} (hm : m.dictionary.Native)
    (text : String) (log : List Event) :
    (Machine.eval text).fault? { m with log := log } = (Machine.eval text).fault? m ∧
      ∃ log', (Machine.eval text).after { m with log := log } =
        { (Machine.eval text).after m with log := log' } := by
  rw [fault?_congr (eval_eq_proceed text m), after_congr (eval_eq_proceed text m),
    fault?_congr (eval_eq_proceed text { m with log := log }),
    after_congr (eval_eq_proceed text { m with log := log })]
  exact @proceed_withLog Ext _ { m with pending := m.pending ++ Input.ofText text } hm log

/-! ## Primitives under a few names -/

/-- The primitive is reached by words of these names only. -/
def Dictionary.ReachedBy (p : Primitive Ext) (names : List String) (d : Dictionary Ext) : Prop :=
  ∀ ⦃name : String⦄ ⦃w : Word Ext⦄, d.lookup name = some w → .primitive p ∈ w.body.leaves →
    name ∈ names

theorem Dictionary.reachedBy_builtin {p : Primitive Ext} {names : List String}
    (hprimitives : ∀ x ∈ (primitives : List (String × Bool × Primitive Ext)), x.2.2 = p →
      x.1 ∈ names) (hcopies : ∀ x ∈ copies, x.2 ∈ names → x.1 ∈ names) :
    (builtin : Dictionary Ext).ReachedBy p names := by
  refine forall_lookup_builtin (fun name immediate p' hmem hleaf => ?_) ?_
  · refine hprimitives _ hmem ?_
    simpa [Body.leaves, eq_comm] using hleaf
  · exact fun new old w hmem hold hleaf => hcopies _ hmem (hold hleaf)

/-- A token that is none of the names stands for a word without the primitive. -/
theorem Machine.not_mem_leaves_of_resolve {m : Machine Ext} {p : Primitive Ext}
    {names : List String} (hm : m.dictionary.ReachedBy p names) {token : String} {w : Word Ext}
    (h : m.resolve token = .ok (some w)) (htoken : token ∉ names) :
    .primitive p ∉ w.body.leaves := by
  obtain hl | ⟨v, _, rfl⟩ := resolve_cases h
  · exact fun hleaf => htoken (hm hl hleaf)
  · simp [Entry.ofLiteral, Body.leaves]

/-- A word without the primitive may have any name. -/
theorem Dictionary.ReachedBy.define {d : Dictionary Ext} {p : Primitive Ext} {names : List String}
    (h : d.ReachedBy p names) {words : List (Word Ext)}
    (hwords : ∀ w ∈ words, .primitive p ∉ w.body.leaves) (name : String) :
    (d.define name false (.compiled words)).ReachedBy p names := by
  refine forall_lookup_define h fun hleaf => ?_
  rw [Body.leaves_compiled, List.mem_flatMap] at hleaf
  obtain ⟨w, hw, hleaf⟩ := hleaf
  exact absurd hleaf (hwords w hw)

end ThreadedForth
