import ThreadedForth.Proofs.Invariants
import ThreadedForth.Proofs.Simulation

/-!
# Synonyms are interchangeable

Seven words have a plain name and a sign. In a text one may stand for the other wherever it likes
(`eval_interchanged`), also in definitions, as long as the text does not give one of these names a
new meaning. The compiled words then hold words of another name, which only the listing of the
dictionary shows.

So the words of the two runs are compared by what they do, not by how they are written
(`Entry.Interchangeable`), and the dictionaries by what they give for tokens that are interchangeable
themselves (`Dictionary.Interchangeable`).
-/

namespace ThreadedForth

variable {Ext : Type}

/-! ## Tokens -/

/-- The words with two names: the plain one and the sign. -/
def synonyms : List (String × String) :=
  [("plus", "+"), ("subtract", "-"), ("mult", "*"), ("divide", "/"), ("q_dup", "?dup"), ("dot", "."),
   ("dot_s", ".S")]

/-- Both names of each. -/
def synonymNames : List String :=
  synonyms.map Prod.fst ++ synonyms.map Prod.snd

/-- The words that write the listing. -/
def listers : List String := [".D", "dot_d"]

/-- The tokens are the same, or the two names of one word. -/
def Synonymous (t t' : String) : Prop :=
  t = t' ∨ (t, t') ∈ synonyms ∨ (t', t) ∈ synonyms

instance (t t' : String) : Decidable (Synonymous t t') :=
  inferInstanceAs (Decidable (_ ∨ _))

namespace Synonymous

variable {t t' : String}

theorem symm (h : Synonymous t t') : Synonymous t' t := by
  obtain rfl | h | h := h
  · exact .inl rfl
  · exact .inr (.inr h)
  · exact .inr (.inl h)

theorem mem_synonymNames (h : (t, t') ∈ synonyms) : t ∈ synonymNames ∧ t' ∈ synonymNames := by
  constructor
  · exact List.mem_append_left _ (List.mem_map_of_mem (f := Prod.fst) h)
  · exact List.mem_append_right _ (List.mem_map_of_mem (f := Prod.snd) h)

/-- A token without a second name stands for itself only. -/
theorem eq_of_not_mem (h : Synonymous t t') (ht : t ∉ synonymNames) : t = t' := by
  obtain rfl | h | h := h
  · rfl
  · exact absurd (mem_synonymNames h).1 ht
  · exact absurd (mem_synonymNames h).2 ht

/-- So it is with one token on either side. -/
theorem eq_iff {name : String} (hname : name ∉ synonymNames) (h : Synonymous t t') :
    t = name ↔ t' = name := by
  constructor
  · rintro rfl
    exact (h.eq_of_not_mem hname).symm
  · rintro rfl
    exact (h.symm.eq_of_not_mem hname).symm

end Synonymous

/-- The texts have the same lines, up to interchangeable words. -/
def Text.Interchangeable (text text' : String) : Prop :=
  List.Forall₂ (fun line line' => List.Forall₂ Synonymous (words line) (words line'))
    (lines text) (lines text')

instance (text text' : String) : Decidable (Text.Interchangeable text text') :=
  inferInstanceAs (Decidable (List.Forall₂ _ _ _))

/-- They are pending as interchangeable words, and the marks in between are the same. -/
theorem Text.Interchangeable.corresponds {text text' : String} (h : Interchangeable text text')
    (hlist : ∀ t ∈ Input.words (Input.ofText text), t ∉ listers) :
    Input.Corresponds (fun t t' => Synonymous t t' ∧ t ∉ listers)
      (Input.ofText text) (Input.ofText text') :=
  Input.corresponds_and (Input.ofText_rel h) hlist

/-! ## Words -/

/-- The words do the same. -/
def Entry.Interchangeable (w w' : Word Ext) : Prop :=
  w.immediate = w'.immediate ∧ w.body.leaves = w'.body.leaves

/-- Threads of words that do the same do the same. -/
theorem Body.leaves_compiled_congr {words words' : List (Word Ext)}
    (h : List.Forall₂ Entry.Interchangeable words words') :
    (compiled words).leaves = (compiled words').leaves := by
  rw [leaves_compiled, leaves_compiled]
  induction h with
  | nil => rfl
  | cons hw _ ih => rw [List.flatMap_cons, List.flatMap_cons, hw.2, ih]

namespace Dictionary

/-- The dictionaries give words that do the same for interchangeable tokens. -/
structure Interchangeable (d d' : Dictionary Ext) : Prop where
  lookup : ∀ {t t'}, Synonymous t t' →
    Option.Rel Entry.Interchangeable (d.lookup t) (d'.lookup t')
  /-- No word with two names is missing. -/
  bound : ∀ {t}, t ∈ synonymNames → ∃ w, d.lookup t = some w
  listed : d.ReachedBy .listWords listers

/-- A word with two names is defined anew. -/
def Redefined (d : Dictionary Ext) : Prop :=
  ∃ t ∈ synonymNames, ∃ words, d.lookup t = some ⟨some t, false, .compiled words⟩

/-- Both names of a built-in word stand for one primitive. -/
theorem lookup_synonyms : ∀ s ∈ synonyms, ∃ p,
    (builtin : Dictionary Ext).lookup s.1 = some ⟨some s.1, false, .primitive p⟩ ∧
    (builtin : Dictionary Ext).lookup s.2 = some ⟨some s.2, false, .primitive p⟩ := by
  simp only [synonyms, List.forall_mem_cons]
  exact ⟨⟨.add, by cbv, by cbv⟩, ⟨.subtract, by cbv, by cbv⟩, ⟨.multiply, by cbv, by cbv⟩,
    ⟨.divide, by cbv, by cbv⟩, ⟨.dupNonzero, by cbv, by cbv⟩, ⟨.print, by cbv, by cbv⟩,
    ⟨.printStack, by cbv, by cbv⟩, nofun⟩

theorem interchangeable_builtin : (builtin : Dictionary Ext).Interchangeable builtin where
  lookup := by
    rintro t t' (rfl | h | h)
    · cases (builtin : Dictionary Ext).lookup t with
      | none => exact .none
      | some w => exact .some ⟨rfl, rfl⟩
    · obtain ⟨p, hl, hr⟩ := lookup_synonyms _ h
      rw [hl, hr]
      exact .some ⟨rfl, rfl⟩
    · obtain ⟨p, hl, hr⟩ := lookup_synonyms _ h
      rw [hl, hr]
      exact .some ⟨rfl, rfl⟩
  bound := by
    intro t ht
    rw [synonymNames, List.mem_append, List.mem_map, List.mem_map] at ht
    obtain ⟨s, hs, rfl⟩ | ⟨s, hs, rfl⟩ := ht
    · obtain ⟨p, hl, -⟩ := lookup_synonyms s hs
      exact ⟨_, hl⟩
    · obtain ⟨p, -, hr⟩ := lookup_synonyms s hs
      exact ⟨_, hr⟩
  listed := by
    refine reachedBy_builtin ?_ ?_
    · simp [primitives, listers]
    · simp [copies, listers]

/-- Threads that do the same are bound to one name, which is not a name of a word with two. -/
theorem Interchangeable.define {d d' : Dictionary Ext} (h : d.Interchangeable d') {name : String}
    (hname : name ∉ synonymNames) {words words' : List (Word Ext)}
    (hwords : List.Forall₂ Entry.Interchangeable words words')
    (hlist : ∀ w ∈ words, .primitive .listWords ∉ w.body.leaves) :
    (d.define name false (.compiled words)).Interchangeable
      (d'.define name false (.compiled words')) where
  lookup := by
    intro t t' ht
    rw [lookup_define, lookup_define]
    by_cases heq : t = name
    · rw [if_pos heq, if_pos ((ht.eq_iff hname).1 heq)]
      exact .some ⟨rfl, Body.leaves_compiled_congr hwords⟩
    · rw [if_neg heq, if_neg fun h => heq ((ht.eq_iff hname).2 h)]
      exact h.lookup ht
  bound := by
    intro t ht
    rw [lookup_define, if_neg fun (heq : t = name) => hname (heq ▸ ht)]
    exact h.bound ht
  listed := h.listed.define hlist name

theorem Redefined.define {d : Dictionary Ext} (h : d.Redefined) (name : String)
    (words : List (Word Ext)) : (d.define name false (.compiled words)).Redefined := by
  obtain ⟨t, ht, old, hold⟩ := h
  by_cases heq : t = name
  · exact ⟨t, ht, words, by rw [lookup_define, if_pos heq, heq]⟩
  · exact ⟨t, ht, old, by rw [lookup_define, if_neg heq, hold]⟩

/-- A word that is as it was built in has not been defined anew. -/
theorem not_redefined {d : Dictionary Ext}
    (h : ∀ t ∈ synonymNames, d.lookup t = (builtin : Dictionary Ext).lookup t) :
    ¬ d.Redefined := by
  rintro ⟨t, ht, words, hwords⟩
  rw [h t ht] at hwords
  have hbuiltin := builtin_of_lookup t _ hwords
  cases hbuiltin

end Dictionary

/-! ## Runs -/

/-- A leaf that does not write the listing does not look at the dictionary. -/
theorem Leaf.isContained_of_ne {leaf : Leaf Ext} (h : leaf.isContained true = true)
    (hlist : leaf ≠ .primitive .listWords) : leaf.isContained false = true := by
  cases leaf with
  | push v => rfl
  | primitive p =>
    cases p with
    | define | comment | extension => cases h
    | listWords => exact absurd rfl hlist
    | _ => rfl

/-- Two runs of texts with interchangeable words that do not write the listing. -/
def Simulation.interchanged (Ext : Type) [Extension Ext] : Simulation Ext where
  Token t t' := Synonymous t t' ∧ t ∉ listers
  Words w w' := w.Interchangeable w' ∧ .primitive .listWords ∉ w.body.leaves
  Allowed leaf := leaf ≠ .primitive .listWords
  Core m n := (m.dictionary.Native ∧ n.dictionary.Native) ∧
    m.dictionary.Interchangeable n.dictionary ∧ m.Alike false n ∧ m.output = n.output
  Excused _ := False
  Spoiled := Dictionary.Redefined
  semicolon h := h.1.eq_iff (by decide)
  immediate h := h.1.1
  leaves h := h.1.2
  allowed h _ hleaf heq := h.2 (heq ▸ hleaf)
  native h := h.1
  core _ _ _ _ _ _ h := ⟨h.1, h.2.1, ⟨h.2.2.1.width, h.2.2.1.stack, nofun⟩, h.2.2.2⟩
  resolve := by
    rintro m n t t' ⟨_, hdictionary, halike, _⟩ ⟨ht, hlist⟩
    have hfree : ∀ w, m.resolve t = .ok (some w) → .primitive .listWords ∉ w.body.leaves :=
      fun w hr => Machine.not_mem_leaves_of_resolve hdictionary.listed hr hlist
    have hlookup := hdictionary.lookup ht
    generalize hl : m.dictionary.lookup t = found at hlookup
    generalize hl' : n.dictionary.lookup t' = found' at hlookup
    cases hlookup with
    | @some w w' hw =>
      have hr : m.resolve t = .ok (some w) := by rw [Machine.resolve, hl]
      have hr' : n.resolve t' = .ok (some w') := by rw [Machine.resolve, hl']
      rw [hr, hr']
      exact .word ⟨hw, hfree w hr⟩
    | none =>
      -- a token that is not bound is no synonym, and so the same on both sides
      have hname : t ∉ synonymNames := by
        intro hmem
        obtain ⟨w, hw⟩ := hdictionary.bound hmem
        rw [hl] at hw
        cases hw
      obtain rfl := ht.eq_of_not_mem hname
      have hr : n.resolve t = m.resolve t := by
        rw [Machine.resolve, Machine.resolve, hl, hl', halike.width]
      rw [hr]
      exact .self fun w hw => ⟨⟨rfl, rfl⟩, hfree w hw⟩
  leaf := by
    rintro m n leaf ⟨hnative, hdictionary, halike, houtput⟩ hallowed hcontained
    have hunlisted := Leaf.isContained_of_ne hcontained hallowed
    obtain ⟨ending, stack, text, hrun⟩ := Leaf.run_contained nestingLimit hunlisted m
    refine .inr ⟨ending, stack, stack, text, hrun m ⟨rfl, rfl, nofun⟩, hrun n halike, hnative,
      hdictionary, ⟨halike.width, rfl, nofun⟩, ?_⟩
    exact congrArg (· ++ text) houtput
  define := by
    rintro m n name name' words words' ⟨⟨hm, hn⟩, hdictionary, halike, houtput⟩ ⟨hname, _⟩ hwords
      hword hword'
    by_cases hmem : name ∈ synonymNames
    · exact .inr ⟨name, hmem, words, by rw [Dictionary.lookup_define, if_pos rfl]⟩
    · obtain rfl := hname.eq_of_not_mem hmem
      have hnative := And.intro (hm.define hword) (hn.define hword')
      refine .inl ⟨hnative, ?_, ⟨halike.width, halike.stack, nofun⟩, houtput⟩
      obtain ⟨hlist, hsame⟩ := (List.forall₂_and_left words words').1
        (hwords.imp fun _ _ h => And.symm h)
      exact hdictionary.define hmem hsame hlist
  spoiled name words h := h.define name words

/-- Take two texts that differ only in which of its two names a word goes by. If the first does not
write the listing, and leaves all these names with the meaning that they have on a fresh machine,
then on fresh machines both texts come to the same stack and write the same, and both return or both
stop with the same fault. To define one of these names at any point takes its meaning away for good
(`Dictionary.Redefined.define`), so the end of the run tells that none has been defined. -/
theorem eval_interchanged [Extension Ext] {width : CellWidth} {text text' : String}
    (htexts : Text.Interchangeable text text')
    (hlist : ∀ t ∈ Input.words (Input.ofText text), t ∉ listers)
    (hkept : ∀ t ∈ synonymNames,
      ((Machine.eval text).after (Machine.fresh width : Machine Ext)).dictionary.lookup t =
        (Machine.fresh width : Machine Ext).dictionary.lookup t) :
    ((Machine.eval text).after (Machine.fresh width : Machine Ext)).stack =
      ((Machine.eval text').after (Machine.fresh width : Machine Ext)).stack ∧
    ((Machine.eval text).after (Machine.fresh width : Machine Ext)).output =
      ((Machine.eval text').after (Machine.fresh width : Machine Ext)).output ∧
    (Machine.eval text).fault? (Machine.fresh width : Machine Ext) =
      (Machine.eval text').fault? (Machine.fresh width : Machine Ext) := by
  have hnative := @Machine.native_fresh Ext width
  have hdictionary : (Machine.fresh width : Machine Ext).dictionary.Interchangeable
      (Machine.fresh width : Machine Ext).dictionary := by
    rw [Machine.fresh_dictionary]
    exact Dictionary.interchangeable_builtin
  have hrel : (Simulation.interchanged Ext).Relates (Machine.fresh width) (Machine.fresh width) :=
    ⟨⟨⟨hnative, hnative⟩, hdictionary, ⟨rfl, rfl, nofun⟩, rfl⟩, .nil, .none⟩
  rw [Machine.fresh_dictionary] at hkept
  obtain ⟨hfault, hafter⟩ := (Simulation.follows_eval hrel (htexts.corresponds hlist)).outcome
    (fun _ _ => id) (Dictionary.not_redefined hkept)
  obtain ⟨_, _, halike, houtput⟩ := hafter.core
  exact ⟨halike.stack, houtput, hfault⟩

/-- A text with both names of some words, in a definition and outside. -/
def signed : String := ": square dup * ; -2 ?dup + square dot\nplus"

/-- The same text with the other name of most of them. -/
def spelled : String := ": square dup mult ; -2 q_dup + square .\n+"

/-- Both write the same, and stop at a missing operand. -/
theorem eval_signed_eq_spelled :
    ((Machine.eval signed).after (Machine.fresh .standard : Machine Empty)).output =
      ((Machine.eval spelled).after (Machine.fresh .standard : Machine Empty)).output ∧
    (Machine.eval spelled).fault? (Machine.fresh .standard : Machine Empty) =
      some (.stackUnderflow "+" 2 0) := by
  have htexts : Text.Interchangeable signed spelled := by
    decide +kernel
  have hlist : ∀ t ∈ Input.words (Input.ofText signed), t ∉ listers := by
    decide +kernel
  have hkept : ∀ t ∈ synonymNames,
      ((Machine.eval signed).after (Machine.fresh .standard : Machine Empty)).dictionary.lookup t =
        (Machine.fresh .standard : Machine Empty).dictionary.lookup t := by
    decide +kernel
  have hfault : (Machine.eval signed).fault? (Machine.fresh .standard : Machine Empty) =
      some (.stackUnderflow "+" 2 0) := by
    decide +kernel
  obtain ⟨_, houtput, hsame⟩ := eval_interchanged htexts hlist hkept
  exact ⟨houtput, hsame.symm.trans hfault⟩

end ThreadedForth
