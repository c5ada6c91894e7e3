import ThreadedForth.Proofs.Containment

/-!
# Native words

What the language makes of its own accord, without a host: primitives under their names, and words
compiled from what the dictionary holds. Of these the comment is the only immediate word, and since
an immediate word is never captured, no compiled word comments. A dictionary of such words is
*native* (`Dictionary.Native`); the built-in one is, and it stays so under every definition that
captures native words.
-/

namespace ThreadedForth

variable {Ext : Type}

/-- Is the leaf neither a comment nor a word of the host? -/
def Leaf.isPlain : Leaf Ext → Bool
  | .primitive .comment => false
  | .primitive (.extension _) => false
  | _ => true

theorem Leaf.isPlain_of_isContained {lists : Bool} {leaf : Leaf Ext}
    (h : leaf.isContained lists = true) : leaf.isPlain = true := by
  cases leaf with
  | push v => rfl
  | primitive p =>
    cases p with
    | comment | extension => cases h
    | _ => rfl

/-- A leaf that is neither is contained, unless it starts a definition. -/
theorem Leaf.isContained_of_isPlain {leaf : Leaf Ext} (h : leaf.isPlain = true)
    (hdefine : leaf ≠ .primitive .define) : leaf.isContained true = true := by
  cases leaf with
  | push v => rfl
  | primitive p =>
    cases p with
    | comment | extension => cases h
    | define => exact absurd rfl hdefine
    | _ => rfl

/-- Is it what starts a definition? -/
def Body.isDefine : Body Ext → Bool
  | .primitive .define => true
  | _ => false

theorem Body.isDefine_iff {body : Body Ext} : body.isDefine = true ↔ body = .primitive .define := by
  constructor
  · intro h
    unfold isDefine at h
    split at h
    · rfl
    · cases h
  · rintro rfl
    rfl

/-- A word of the language itself. -/
structure Entry.Native (w : Word Ext) : Prop where
  notLiteral : ∀ v, w.body ≠ .literal v
  immediate : w.immediate = true → w.body = .primitive .comment
  plain : w.immediate = false → ∀ leaf ∈ w.body.leaves, leaf.isPlain = true

/-- The only immediate words are comments. -/
def Dictionary.OnlyComments (d : Dictionary Ext) : Prop :=
  ∀ ⦃name : String⦄ ⦃w : Word Ext⦄, d.lookup name = some w → w.immediate = true →
    w.body = .primitive .comment

/-- Every word is one of the language itself, and carries its name. -/
def Dictionary.Native (d : Dictionary Ext) : Prop :=
  ∀ ⦃name : String⦄ ⦃w : Word Ext⦄, d.lookup name = some w → w.name = some name ∧ w.Native

namespace Dictionary

theorem Native.onlyComments {d : Dictionary Ext} (h : d.Native) : d.OnlyComments :=
  fun _ _ hw => (h hw).2.immediate

/-- A property of every word of a dictionary is kept by definitions that have it. -/
theorem forall_lookup_define {P : String → Word Ext → Prop} {d : Dictionary Ext}
    (h : ∀ n w, d.lookup n = some w → P n w) {name : String} {immediate : Bool} {body : Body Ext}
    (hw : P name ⟨some name, immediate, body⟩) :
    ∀ n w, (d.define name immediate body).lookup n = some w → P n w := by
  intro n w hn
  rw [lookup_define] at hn
  split at hn
  · next heq =>
    cases hn
    exact heq ▸ hw
  · exact h n w hn

/-- A definition keeps a dictionary native if its word is. -/
theorem Native.define {d : Dictionary Ext} (h : d.Native) {name : String} {immediate : Bool}
    {body : Body Ext} (hw : (⟨some name, immediate, body⟩ : Word Ext).Native) :
    (d.define name immediate body).Native :=
  forall_lookup_define h ⟨rfl, hw⟩

/-- A copy of a native word is native. -/
theorem Native.define_copy {d : Dictionary Ext} (h : d.Native) {new old : String} {w : Word Ext}
    (hw : d.lookup old = some w) : (d.define new w.immediate w.body).Native :=
  h.define ⟨(h hw).2.notLiteral, (h hw).2.immediate, (h hw).2.plain⟩

/-! ## The built-in words -/

/-- How a built-in word looks under its name: the comment and the start of a definition have one
name each, and everything else is contained. -/
inductive Builtin : String → Word Ext → Prop
  | comment : Builtin "\\" ⟨some "\\", true, .primitive .comment⟩
  | define : Builtin ":" ⟨some ":", false, .primitive .define⟩
  | contained {name : String} {p : Primitive Ext} : p.isContained true = true →
      Builtin name ⟨some name, false, .primitive p⟩

theorem builtin_of_primitives {name : String} {immediate : Bool} {p : Primitive Ext}
    (h : (name, immediate, p) ∈ (primitives : List (String × Bool × Primitive Ext))) :
    Builtin name ⟨some name, immediate, .primitive p⟩ := by
  simp only [primitives, List.mem_cons, Prod.mk.injEq, List.not_mem_nil, or_false] at h
  rcases h with ⟨rfl, rfl, rfl⟩ | ⟨rfl, rfl, rfl⟩ | ⟨rfl, rfl, rfl⟩ | ⟨rfl, rfl, rfl⟩ |
    ⟨rfl, rfl, rfl⟩ | ⟨rfl, rfl, rfl⟩ | ⟨rfl, rfl, rfl⟩ | ⟨rfl, rfl, rfl⟩ | ⟨rfl, rfl, rfl⟩ |
    ⟨rfl, rfl, rfl⟩ | ⟨rfl, rfl, rfl⟩ | ⟨rfl, rfl, rfl⟩ | ⟨rfl, rfl, rfl⟩ | ⟨rfl, rfl, rfl⟩ |
    ⟨rfl, rfl, rfl⟩ | ⟨rfl, rfl, rfl⟩ | ⟨rfl, rfl, rfl⟩
  all_goals first | exact .comment | exact .define | exact .contained rfl

theorem builtin_of_copies {new old : String} {w : Word Ext} (hc : (new, old) ∈ copies)
    (hw : Builtin old w) : Builtin new ⟨some new, w.immediate, w.body⟩ := by
  cases hw with
  | comment => simp [copies] at hc
  | define => simp [copies] at hc
  | contained hp => exact .contained hp

theorem forall_lookup_foldl {ι : Type} {P : String → Word Ext → Prop}
    {f : Dictionary Ext → ι → Dictionary Ext} {xs : List ι}
    (hf : ∀ d, ∀ x ∈ xs, (∀ n w, d.lookup n = some w → P n w) →
      ∀ n w, (f d x).lookup n = some w → P n w)
    {d : Dictionary Ext} (hd : ∀ n w, d.lookup n = some w → P n w) :
    ∀ n w, (xs.foldl f d).lookup n = some w → P n w := by
  induction xs generalizing d with
  | nil => exact hd
  | cons x xs ih =>
    exact ih (fun d y hy => hf d y (List.mem_cons_of_mem x hy)) (hf d x List.mem_cons_self hd)

/-- What holds of every primitive under its name, and of a copy if it holds of the word that is
copied, holds of every built-in word. -/
theorem forall_lookup_builtin {P : String → Word Ext → Prop}
    (hprimitives : ∀ name immediate p,
      (name, immediate, p) ∈ (primitives : List (String × Bool × Primitive Ext)) →
        P name ⟨some name, immediate, .primitive p⟩)
    (hcopies : ∀ new old w, (new, old) ∈ copies → P old w → P new ⟨some new, w.immediate, w.body⟩) :
    ∀ name w, (builtin : Dictionary Ext).lookup name = some w → P name w := by
  -- the copies are made last, of primitives that are there by then
  refine forall_lookup_foldl (fun d x hx hd => ?_)
    (forall_lookup_foldl (fun d x hx hd => ?_) fun _ _ h => nomatch h)
  · obtain ⟨new, old⟩ := x
    show ∀ n w, ((d.copy new old).toOption.getD d).lookup n = some w → P n w
    unfold copy
    cases ho : d.lookup old with
    | none => exact hd
    | some w => exact forall_lookup_define hd (hcopies new old w hx (hd old w ho))
  · exact forall_lookup_define hd (hprimitives _ _ _ hx)

/-- Every word of a fresh machine looks like a built-in word. -/
theorem builtin_of_lookup : ∀ (name : String) (w : Word Ext),
    (builtin : Dictionary Ext).lookup name = some w → Builtin name w :=
  forall_lookup_builtin (fun _ _ _ => builtin_of_primitives) fun _ _ _ => builtin_of_copies

theorem Builtin.native {name : String} {w : Word Ext} (h : Builtin name w) : w.Native := by
  cases h with
  | comment => exact ⟨by simp, fun _ => rfl, by simp⟩
  | define => exact ⟨by simp, by simp, by simp [Body.leaves, Leaf.isPlain]⟩
  | @contained _ p hp =>
    refine ⟨by simp, by simp, fun _ leaf hleaf => ?_⟩
    obtain rfl : leaf = .primitive p := by simpa [Body.leaves] using hleaf
    exact Leaf.isPlain_of_isContained hp

theorem Builtin.name_eq {name : String} {w : Word Ext} (h : Builtin name w) :
    w.name = some name := by
  cases h <;> rfl

/-- The built-in words are native. -/
theorem native_builtin : (builtin : Dictionary Ext).Native :=
  fun name w h => ⟨(builtin_of_lookup name w h).name_eq, (builtin_of_lookup name w h).native⟩

end Dictionary

namespace Machine

theorem fresh_dictionary (width : CellWidth) :
    (fresh width : Machine Ext).dictionary = Dictionary.builtin := by
  rw [fresh]

theorem native_fresh (width : CellWidth) : (fresh width : Machine Ext).dictionary.Native := by
  rw [fresh_dictionary]
  exact Dictionary.native_builtin

end Machine

end ThreadedForth
