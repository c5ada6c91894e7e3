import ThreadedForth.Proofs.Evolution

/-!
# The bodies that a run collects

`Machine.Collects` tells which bodies are completed from a machine on, by the definition that is
open or by later ones; `Machine.collected` lists them where the run is short enough. As long as no
body has a colon in it, a dictionary stays *straight*: comments and definitions are started by the
words `\` and `:` themselves and by no others (`Dictionary.Straight`), so the bodies show how many
comments run at most.
-/

namespace ThreadedForth

variable {Ext : Type}

/-! ## Straight dictionaries -/

/-- A native dictionary where no word but `\` is a comment, and none but `:` starts definitions. -/
structure Dictionary.Straight (d : Dictionary Ext) : Prop where
  native : d.Native
  comment : ∀ name w, d.lookup name = some w → w.immediate = true → name = "\\"
  colon : ∀ name w, d.lookup name = some w → Leaf.primitive .define ∈ w.body.leaves →
    name = ":" ∧ w.body = .primitive .define

namespace Dictionary

theorem Builtin.comment_name {name : String} {w : Word Ext} (h : Builtin name w)
    (hw : w.immediate = true) : name = "\\" := by
  cases h with
  | comment => rfl
  | define => cases hw
  | contained => cases hw

theorem Builtin.colon_name {name : String} {w : Word Ext} (h : Builtin name w)
    (hw : Leaf.primitive .define ∈ w.body.leaves) :
    name = ":" ∧ w.body = .primitive .define := by
  cases h with
  | comment => simp [Body.leaves] at hw
  | define => exact ⟨rfl, rfl⟩
  | contained hp =>
    simp only [Body.leaves, List.mem_singleton, Leaf.primitive.injEq] at hw
    rw [← hw] at hp
    cases hp

theorem straight_builtin : (builtin : Dictionary Ext).Straight where
  native := native_builtin
  comment name w h := (builtin_of_lookup name w h).comment_name
  colon name w h := (builtin_of_lookup name w h).colon_name

end Dictionary

namespace Machine

variable {m : Machine Ext} {token : String} {w : Word Ext}

/-- A token for a word that starts definitions, at once or in a thread, is the colon. -/
theorem colon_of_resolve (hm : m.dictionary.Straight) (h : m.resolve token = .ok (some w))
    (hw : Leaf.primitive .define ∈ w.body.leaves) :
    token = ":" ∧ w.body = .primitive .define := by
  obtain h | ⟨v, _, rfl⟩ := resolve_cases h
  · exact hm.colon token w h hw
  · simp [Entry.ofLiteral, Body.leaves] at hw

/-- A body without a colon leaves a dictionary straight. -/
theorem straight_define (hm : m.dictionary.Straight) {body : List String}
    {words : List (Word Ext)} (hc : captured m.resolve body = .ok words) (hbody : ":" ∉ body)
    (name : String) : (m.dictionary.define name false (.compiled words)).Straight where
  native := hm.native.define (native_of_captured hm.native hc _)
  comment := Dictionary.forall_lookup_define hm.comment nofun
  colon := by
    refine Dictionary.forall_lookup_define hm.colon fun hw => ?_
    rw [Body.leaves_compiled, List.mem_flatMap] at hw
    obtain ⟨w, hmem, hw⟩ := hw
    obtain ⟨token, htoken, hr, _⟩ := resolve_of_mem_captured hc hmem
    obtain ⟨rfl, _⟩ := colon_of_resolve hm hr hw
    exact absurd htoken hbody

/-- No more comments run than the body has comment words. -/
theorem immediates_le_count
    (hm : ∀ name w, m.dictionary.lookup name = some w → w.immediate = true → name = "\\")
    (body : List String) :
    immediates m.resolve body ≤ body.count "\\" := by
  induction body with
  | nil => exact Nat.le_refl _
  | cons token rest ih =>
    have hrest : rest.count "\\" ≤ (token :: rest).count "\\" := List.count_le_count_cons
    rw [immediates]
    split
    · next w hr =>
      split
      · next hi =>
        obtain hl | ⟨v, _, rfl⟩ := resolve_cases hr
        · obtain rfl := hm token w hl hi
          rw [List.count_cons_self]
          exact Nat.succ_le_succ ih
        · cases hi
      · exact Nat.le_trans ih hrest
    · exact Nat.zero_le _

/-! ## Turns -/

/-- The definition to go on with and the input for it: the one that is open, or one that the next
word starts. -/
def opening? (m : Machine Ext) : Option (Draft × Input) :=
  match m.draft with
  | some draft => some (draft, m.pending)
  | none =>
    match Input.readWord? m.pending with
    | none => none
    | some (token, rest) =>
      match m.resolve token with
      | .ok (some w) => if w.body.isDefine then some (.unnamed, rest) else none
      | _ => none

/-- The body that the next turn completes, if it does. -/
def collects? (m : Machine Ext) : Option (List String) :=
  match m.opening? with
  | some (draft, q) => (draft.complete? q).map fun completion => completion.2.1
  | none => none

theorem collects?_of_open {draft : Draft} (hd : m.draft = some draft) :
    m.collects? = (draft.complete? m.pending).map fun completion => completion.2.1 := by
  rw [collects?, opening?, hd]

/-- The machine after the next turn, if there is one and it returns: a definition that is open is
completed, or else a word interpreted. -/
def turn? [Extension Ext] (m : Machine Ext) : Option (Machine Ext) :=
  match m.draft with
  | some draft =>
    (draft.complete? m.pending).bind fun _ => (Action.resumeDefinition performer draft).returns? m
  | none =>
    (Input.readWord? m.pending).bind fun (token, rest) =>
      (Action.interpret performer token).returns? { m with pending := rest }

/-- From the machine on, the body is completed at some turn. A word that starts a definition from
within its thread is not looked into: it comes from a body with a colon, which was collected. -/
inductive Collects [Extension Ext] : Machine Ext → List String → Prop
  | now {m : Machine Ext} {body : List String} : m.collects? = some body → m.Collects body
  | later {m m' : Machine Ext} {body : List String} :
      m.turn? = some m' → m'.Collects body → m.Collects body

/-- The bodies that are completed from the machine on, if there are fewer than so many turns. -/
def collected [Extension Ext] : Nat → Machine Ext → Option (List (List String))
  | 0, _ => none
  | turns + 1, m =>
    match m.turn? with
    | none => some m.collects?.toList
    | some m' => (m'.collected turns).map fun bodies => m.collects?.toList ++ bodies

section Turns

variable [Extension Ext] {m m' : Machine Ext} {body : List String}

/-- The list has every body that is completed. -/
theorem Collects.mem_collected (h : m.Collects body) {turns : Nat} {bodies : List (List String)}
    (hbodies : m.collected turns = some bodies) : body ∈ bodies := by
  induction h generalizing turns bodies with
  | @now m body hnow =>
    cases turns with
    | zero => cases hbodies
    | succ turns =>
      rw [collected, hnow] at hbodies
      split at hbodies
      · cases hbodies
        exact List.mem_singleton_self body
      · obtain ⟨_, _, rfl⟩ := Option.map_eq_some_iff.1 hbodies
        exact List.mem_cons_self
  | @later m m' body hturn _ ih =>
    cases turns with
    | zero => cases hbodies
    | succ turns =>
      simp only [collected, hturn] at hbodies
      obtain ⟨_, hrest, rfl⟩ := Option.map_eq_some_iff.1 hbodies
      exact List.mem_append_right _ (ih hrest)

/-- What one machine collects another one does if their next turns are the same. -/
theorem Collects.of_turn (h : m'.Collects body) (hcollects : m'.collects? = m.collects?)
    (hturn : ∀ m'', m'.turn? = some m'' → m.turn? = some m'') : m.Collects body := by
  cases h with
  | now hnow => exact .now (hcollects.symm.trans hnow)
  | later hlater hbody => exact .later (hturn _ hlater) hbody

/-! ## Tame runs -/

/-- No body that is collected from here on has a colon or a second comment in it. -/
def Tame (m : Machine Ext) : Prop :=
  ∀ body, m.Collects body → ":" ∉ body ∧ body.count "\\" ≤ 1

/-- The same for what comes of a definition that is to be gone on with. -/
def TameFrom (draft : Draft) (m : Machine Ext) : Prop :=
  ∀ name body rest, draft.complete? m.pending = some (name, body, rest) →
    (":" ∉ body ∧ body.count "\\" ≤ 1) ∧
    ∀ m', Action.resumeDefinition performer draft m = .ok () m' → m'.Tame

theorem Tame.turn (h : m.Tame) (hturn : m.turn? = some m') : m'.Tame :=
  fun body hbody => h body (.later hturn hbody)

section Open

variable {draft : Draft}

theorem turn?_of_open (hd : m.draft = some draft) :
    m.turn? = (draft.complete? m.pending).bind fun _ =>
      (Action.resumeDefinition performer draft).returns? m := by
  rw [turn?, hd]

theorem tame_iff_of_open (hd : m.draft = some draft) : m.Tame ↔ m.TameFrom draft := by
  constructor
  · intro h name body rest hc
    refine ⟨h body (.now ?_), fun m' hrun => h.turn ?_⟩
    · rw [collects?_of_open hd, hc]
      rfl
    · rw [turn?_of_open hd, hc]
      exact Action.returns?_of_ok hrun
  · intro h body hbody
    cases hbody with
    | now hnow =>
      rw [collects?_of_open hd] at hnow
      obtain ⟨⟨name, _, rest⟩, hc, rfl⟩ := Option.map_eq_some_iff.1 hnow
      exact (h name _ rest hc).1
    | later hturn hbody =>
      rw [turn?_of_open hd] at hturn
      obtain ⟨⟨name, body, rest⟩, hc, hturn⟩ := Option.bind_eq_some_iff.1 hturn
      exact (h name body rest hc).2 _ (Action.eq_ok_of_returns? hturn) _ hbody

end Open

section Closed

variable {token : String} {rest : Input}

theorem Tame.word (h : m.Tame) (hd : m.draft = none)
    (hread : Input.readWord? m.pending = some (token, rest))
    (hrun : Action.interpret performer token { m with pending := rest } = .ok () m') : m'.Tame := by
  refine h.turn ?_
  have hreturns := Action.returns?_of_ok hrun
  simp only [turn?, hd, hread, Option.bind_some, ← hreturns]

/-- Marks before the next word make no difference. -/
theorem Tame.of_readWord?_eq {q q' : Input} (h : { m with pending := q }.Tame)
    (hd : m.draft = none) (hread : Input.readWord? q = Input.readWord? q') :
    { m with pending := q' }.Tame := by
  refine fun body hbody => h body (hbody.of_turn ?_ fun m'' hturn => ?_)
  · simp only [collects?, opening?, hd, hread]
    rfl
  · simp only [turn?, hd, hread] at hturn ⊢
    exact hturn

theorem Tame.define (h : m.Tame) (hm : m.dictionary.OnlyComments) (hd : m.draft = none)
    (hread : Input.readWord? m.pending = some (token, rest)) {w : Word Ext}
    (hr : m.resolve token = .ok (some w)) (hw : w.body = .primitive .define) :
    { m with pending := rest }.TameFrom .unnamed := by
  intro name body after hc
  refine ⟨h body (.now ?_), fun m' hrun => h.word hd hread ?_⟩
  · have hdefine : w.body.isDefine = true := Body.isDefine_iff.2 hw
    have hopening : m.opening? = some (.unnamed, rest) := by
      simp only [opening?, hd, hread, hr, hdefine, if_true]
    simp only [collects?, hopening]
    rw [hc]
    rfl
  · have hword := @Action.interpret_of_define Ext _ { m with pending := rest } token w hm hr hw
    exact hword.trans hrun

end Closed

end Turns

end Machine

end ThreadedForth
