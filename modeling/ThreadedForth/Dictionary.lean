import ThreadedForth.Word

/-!
# Dictionaries

A dictionary gives a word for each of its names. The last writer of a name wins, nothing is ever
removed, and a synonym is a copy: it keeps what its origin stood for when it was made. The bindings
are kept in increasing order of their names, which is the order of the listing; so two dictionaries
that give the same words are equal.
-/

namespace ThreadedForth

/-- Puts a value at its key, in a list that increases in its keys. -/
def insertSorted {β : Type} (key : String) (value : β) : List (String × β) → List (String × β)
  | [] => [(key, value)]
  | (k, v) :: rest =>
    if key < k then (key, value) :: (k, v) :: rest
    else if key = k then (key, value) :: rest
    else (k, v) :: insertSorted key value rest

/-- The value of a key. -/
def lookupIn {β : Type} (key : String) : List (String × β) → Option β
  | [] => none
  | (k, v) :: rest => if key = k then some v else lookupIn key rest

section InsertSorted

variable {β : Type}

theorem mem_insertSorted {key : String} {value : β} {bindings : List (String × β)}
    {b : String × β} (h : b ∈ insertSorted key value bindings) :
    b = (key, value) ∨ b ∈ bindings := by
  induction bindings with
  | nil => simpa [insertSorted] using h
  | cons head rest ih =>
    rw [insertSorted] at h
    split at h
    · simpa using h
    · split at h
      · simp only [List.mem_cons] at h ⊢
        exact h.imp_right Or.inr
      · simp only [List.mem_cons] at h ⊢
        rcases h with h | h
        · exact .inr (.inl h)
        · exact (ih h).imp_right Or.inr

/-- Insertion keeps the keys strictly increasing. -/
theorem pairwise_insertSorted (key : String) (value : β) {bindings : List (String × β)}
    (h : bindings.Pairwise fun a b => a.1 < b.1) :
    (insertSorted key value bindings).Pairwise fun a b => a.1 < b.1 := by
  induction bindings with
  | nil => simp [insertSorted]
  | cons head rest ih =>
    obtain ⟨hhead, hrest⟩ := List.pairwise_cons.1 h
    rw [insertSorted]
    split
    · next hlt =>
      refine List.pairwise_cons.2 ⟨fun b hb => ?_, h⟩
      rcases List.mem_cons.1 hb with rfl | hb
      · exact hlt
      · exact String.lt_trans hlt (hhead b hb)
    · next hlt =>
      split
      · next heq => exact List.pairwise_cons.2 ⟨fun b hb => heq ▸ hhead b hb, hrest⟩
      · next hne =>
        refine List.pairwise_cons.2 ⟨fun b hb => ?_, ih hrest⟩
        rcases mem_insertSorted hb with rfl | hb
        · refine Decidable.byContradiction fun hle => hne ?_
          exact String.le_antisymm (String.not_lt.1 hle) (String.not_lt.1 hlt)
        · exact hhead b hb

/-- Insertion changes the value of its key and of no other. -/
theorem lookupIn_insertSorted (name key : String) (value : β) (bindings : List (String × β)) :
    lookupIn name (insertSorted key value bindings) =
      if name = key then some value else lookupIn name bindings := by
  induction bindings with
  | nil => rfl
  | cons head rest ih =>
    obtain ⟨k, v⟩ := head
    rw [insertSorted]
    split
    · rfl
    · split
      · next heq =>
        subst heq
        by_cases h : name = key <;> simp [lookupIn, h]
      · next hne =>
        rw [lookupIn, ih, lookupIn]
        by_cases h : name = k
        · simp [h, Ne.symm hne]
        · simp [h]

theorem mem_of_lookupIn {key : String} {value : β} {bindings : List (String × β)}
    (h : lookupIn key bindings = some value) : (key, value) ∈ bindings := by
  induction bindings with
  | nil => cases h
  | cons head rest ih =>
    rw [lookupIn] at h
    split at h
    · next heq =>
      cases h
      subst heq
      exact List.mem_cons_self
    · exact List.mem_cons_of_mem _ (ih h)

/-- Inserting a binding that is there changes nothing. -/
theorem insertSorted_of_lookupIn {key : String} {value : β} {bindings : List (String × β)}
    (hsorted : bindings.Pairwise fun a b => a.1 < b.1)
    (h : lookupIn key bindings = some value) : insertSorted key value bindings = bindings := by
  induction bindings with
  | nil => cases h
  | cons head rest ih =>
    obtain ⟨hhead, hrest⟩ := List.pairwise_cons.1 hsorted
    obtain ⟨k, v⟩ := head
    rw [lookupIn] at h
    rw [insertSorted]
    split at h
    · next heq =>
      cases h
      rw [if_neg (heq ▸ String.lt_irrefl key), if_pos heq, heq]
    · next hne =>
      -- the key stands further on, after all the keys that are less
      have hlt : k < key := hhead _ (mem_of_lookupIn h)
      rw [if_neg (String.lt_asymm hlt), if_neg hne, ih hrest h]

end InsertSorted

/-- The words by name, in increasing order of the names. -/
structure Dictionary (Ext : Type) where
  bindings : List (String × Word Ext)
  sorted : bindings.Pairwise fun a b => a.1 < b.1

namespace Dictionary

variable {Ext : Type}

/-- The dictionary without words. -/
def empty : Dictionary Ext := ⟨[], List.Pairwise.nil⟩

/-- The word of a name. -/
def lookup (d : Dictionary Ext) (name : String) : Option (Word Ext) :=
  lookupIn name d.bindings

/-- Is there a word of this name? -/
def contains (d : Dictionary Ext) (name : String) : Bool :=
  (d.lookup name).isSome

/-- The number of names. -/
def size (d : Dictionary Ext) : Nat :=
  d.bindings.length

/-- Binds a name to a word that carries it. -/
def define (d : Dictionary Ext) (name : String) (immediate : Bool) (body : Body Ext) :
    Dictionary Ext :=
  ⟨insertSorted name ⟨some name, immediate, body⟩ d.bindings,
    pairwise_insertSorted name _ d.sorted⟩

/-- Binds a new name to a copy of what an old one stands for. -/
def copy (d : Dictionary Ext) (new old : String) : Except Fault (Dictionary Ext) :=
  match d.lookup old with
  | some w => .ok (d.define new w.immediate w.body)
  | none => .error (.unknownWord old)

/-- One line for each word, in increasing order of the names. -/
def dump (d : Dictionary Ext) : Except Fault (List String) :=
  d.bindings.mapM fun b => b.2.describe

/-- The last definition of a name is the one that counts. -/
theorem lookup_define (d : Dictionary Ext) (name : String) (immediate : Bool) (body : Body Ext)
    (n : String) :
    (d.define name immediate body).lookup n =
      if n = name then some ⟨some name, immediate, body⟩ else d.lookup n :=
  lookupIn_insertSorted n name _ d.bindings

/-- To define a word as it is defined changes nothing. -/
theorem define_of_lookup {d : Dictionary Ext} {name : String} {immediate : Bool} {body : Body Ext}
    (h : d.lookup name = some ⟨some name, immediate, body⟩) :
    d.define name immediate body = d := by
  unfold define
  congr
  exact insertSorted_of_lookupIn d.sorted h

end Dictionary

end ThreadedForth
