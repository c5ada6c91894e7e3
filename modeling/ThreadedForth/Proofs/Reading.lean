import ThreadedForth.Machine

/-!
# Reading pending input

Reading words, collecting a body and dropping lines all take a piece off the front of the pending
input: what they take are words of it, and what they leave is its end. Here is also what they do when
the input comes in two portions: reading goes on in the second one where the first one ends, and so
does an open definition (`Draft.complete?_append`), but a line is dropped within the first portion if
that is made of whole lines (`Input.skipLine_append`).
-/

namespace ThreadedForth

namespace Input

/-! ## Words -/

theorem readWord?_append (q r : Input) :
    readWord? (q ++ r) =
      match readWord? q with
      | some (token, rest) => some (token, rest ++ r)
      | none => readWord? r := by
  induction q with
  | nil => rfl
  | cons item q ih =>
    cases item with
    | word token => rfl
    | lineEnd => exact ih

theorem eq_of_readWord? {q rest : Input} {token : String} (h : readWord? q = some (token, rest)) :
    ∃ marks, q = marks ++ .word token :: rest := by
  induction q with
  | nil => cases h
  | cons item q ih =>
    cases item with
    | word t =>
      cases h
      exact ⟨[], rfl⟩
    | lineEnd =>
      obtain ⟨marks, rfl⟩ := ih h
      exact ⟨.lineEnd :: marks, rfl⟩

theorem length_of_readWord? {q rest : Input} {token : String}
    (h : readWord? q = some (token, rest)) : rest.length < q.length := by
  obtain ⟨marks, rfl⟩ := eq_of_readWord? h
  simp only [List.length_append, List.length_cons]
  omega

theorem suffix_of_readWord? {q rest : Input} {token : String}
    (h : readWord? q = some (token, rest)) : .word token :: rest <:+ q := by
  obtain ⟨marks, rfl⟩ := eq_of_readWord? h
  exact List.suffix_append _ _

theorem words_append (p q : Input) : words (p ++ q) = words p ++ words q := by
  induction p with
  | nil => rfl
  | cons item p ih =>
    cases item with
    | lineEnd => exact ih
    | word token =>
      rw [List.cons_append, words, words, ih]
      rfl

theorem words_suffix_of_suffix {p q : Input} (h : p <:+ q) : words p <:+ words q := by
  obtain ⟨front, rfl⟩ := h
  rw [words_append]
  exact List.suffix_append _ _

/-- What the input after a piece of it holds, the input holds. -/
theorem words_subset_of_suffix {p q : Input} (h : p <:+ q) : words p ⊆ words q :=
  (words_suffix_of_suffix h).subset

theorem mem_words_of_readWord? {q rest : Input} {token : String}
    (h : readWord? q = some (token, rest)) : token ∈ words q :=
  words_subset_of_suffix (suffix_of_readWord? h) List.mem_cons_self

theorem words_subset_of_readWord? {q rest : Input} {token : String}
    (h : readWord? q = some (token, rest)) : words rest ⊆ words q :=
  words_subset_of_suffix ((List.suffix_cons _ _).trans (suffix_of_readWord? h))

/-! ## Bodies -/

theorem takeBody_append (q r : Input) :
    takeBody (q ++ r) =
      match takeBody q with
      | (body, some rest) => (body, some (rest ++ r))
      | (body, none) => (body ++ (takeBody r).1, (takeBody r).2) := by
  induction q with
  | nil => rfl
  | cons item q ih =>
    cases item with
    | lineEnd => exact ih
    | word token =>
      rw [List.cons_append, takeBody, takeBody]
      split
      · rfl
      · rw [ih]
        obtain ⟨body, rest⟩ := takeBody q
        cases rest <;> rfl

theorem suffix_of_takeBody {q rest : Input} {body : List String}
    (h : takeBody q = (body, some rest)) : .word ";" :: rest <:+ q := by
  induction q generalizing body with
  | nil => cases h
  | cons item q ih =>
    cases item with
    | lineEnd => exact (ih h).trans (List.suffix_cons _ _)
    | word token =>
      rw [takeBody] at h
      split at h
      · next heq =>
        cases h
        subst heq
        exact List.suffix_refl _
      · cases hq : takeBody q with
        | mk more after =>
          rw [hq] at h
          cases h
          exact (ih hq).trans (List.suffix_cons _ _)

/-- A body has no semicolon in it. -/
theorem not_mem_takeBody (q : Input) : ";" ∉ (takeBody q).1 := by
  induction q with
  | nil => exact List.not_mem_nil
  | cons item q ih =>
    cases item with
    | lineEnd => exact ih
    | word token =>
      rw [takeBody]
      split
      · exact List.not_mem_nil
      · next hne => exact List.not_mem_cons_of_ne_of_not_mem (Ne.symm hne) ih

theorem takeBody_subset (q : Input) : (takeBody q).1 ⊆ words q := by
  induction q with
  | nil => exact List.nil_subset _
  | cons item q ih =>
    cases item with
    | lineEnd => exact ih
    | word token =>
      rw [takeBody]
      split
      · exact List.nil_subset _
      · exact List.cons_subset_cons token ih

/-! ## Marks -/

/-- Marks do not count in reading a word, -/
theorem readWord?_of_words_cons {q : Input} {token : String} {tokens : List String}
    (h : words q = token :: tokens) :
    ∃ rest, readWord? q = some (token, rest) ∧ words rest = tokens := by
  induction q with
  | nil => cases h
  | cons item q ih =>
    cases item with
    | lineEnd => exact ih h
    | word t =>
      obtain ⟨rfl, rfl⟩ := List.cons.inj h
      exact ⟨q, rfl, rfl⟩

theorem readWord?_of_words_nil {q : Input} (h : words q = []) : readWord? q = none := by
  induction q with
  | nil => rfl
  | cons item q ih =>
    cases item with
    | lineEnd => exact ih h
    | word token => cases h

/-- nor in collecting words, as long as there is no semicolon, -/
theorem takeBody_of_not_mem {q : Input} (h : ";" ∉ words q) : takeBody q = (words q, none) := by
  induction q with
  | nil => rfl
  | cons item q ih =>
    cases item with
    | lineEnd => exact ih h
    | word token =>
      obtain ⟨hne, hrest⟩ := List.ne_and_not_mem_of_not_mem_cons h
      rw [takeBody, if_neg (Ne.symm hne), ih hrest, words]

/-- and up to the semicolon. -/
theorem takeBody_of_words_append {q : Input} {body : List String} (hbody : ";" ∉ body)
    (h : words q = body ++ [";"]) : ∃ rest, takeBody q = (body, some rest) ∧ words rest = [] := by
  induction q generalizing body with
  | nil => cases body <;> cases h
  | cons item q ih =>
    cases item with
    | lineEnd => exact ih hbody h
    | word token =>
      cases body with
      | nil =>
        obtain ⟨rfl, hrest⟩ := List.cons.inj h
        exact ⟨q, rfl, hrest⟩
      | cons first body =>
        obtain ⟨rfl, hrest⟩ := List.cons.inj h
        obtain ⟨hne, hbody⟩ := List.ne_and_not_mem_of_not_mem_cons hbody
        obtain ⟨rest, htake, hmarks⟩ := ih hbody hrest
        refine ⟨rest, ?_, hmarks⟩
        rw [takeBody, if_neg (Ne.symm hne), htake]

/-! ## Lines -/

/-- The input after so many lines. -/
def skipLines : Nat → Input → Input
  | 0, q => q
  | n + 1, q => skipLines n (skipLine q)

theorem skipLine_suffix (q : Input) : skipLine q <:+ q := by
  induction q with
  | nil => exact List.suffix_refl _
  | cons item q ih =>
    cases item with
    | lineEnd => exact List.suffix_cons _ _
    | word token => exact ih.trans (List.suffix_cons _ _)

theorem skipLines_suffix (n : Nat) (q : Input) : skipLines n q <:+ q := by
  induction n generalizing q with
  | zero => exact List.suffix_refl _
  | succ n ih => exact (ih (skipLine q)).trans (skipLine_suffix q)

/-- Of marks, no more than marks are left. -/
theorem words_skipLines_of_words_nil {q : Input} (h : words q = []) (n : Nat) :
    words (skipLines n q) = [] :=
  List.suffix_nil.1 (h ▸ words_suffix_of_suffix (skipLines_suffix n q))

/-- The input is made of whole lines: if there is any, it ends with a mark. -/
def Ended (q : Input) : Prop :=
  q = [] ∨ ∃ front, q = front ++ [.lineEnd]

theorem Ended.suffix {p q : Input} (hq : q.Ended) (h : p <:+ q) : p.Ended := by
  obtain rfl | ⟨front, rfl⟩ := hq
  · exact .inl (List.suffix_nil.1 h)
  · rcases List.suffix_concat_iff.1 h with rfl | ⟨p, rfl, _⟩
    · exact .inl rfl
    · exact .inr ⟨p, rfl⟩

/-- Something follows a word in input of whole lines. -/
theorem Ended.ne_nil {rest : Input} {token : String} (h : Ended (.word token :: rest)) :
    rest ≠ [] := by
  rintro rfl
  obtain h | ⟨front, h⟩ := h
  · cases h
  · cases front with
    | nil => cases h
    | cons item front => simp at h

theorem Ended.tail {item : Item} {rest : Input} (h : Ended (item :: rest)) : rest.Ended :=
  h.suffix (List.suffix_cons _ _)

/-- Dropping a line leaves a later portion alone if the earlier one has whole lines. -/
theorem skipLine_append {q : Input} (hq : q.Ended) (hne : q ≠ []) (r : Input) :
    skipLine (q ++ r) = skipLine q ++ r := by
  induction q with
  | nil => exact absurd rfl hne
  | cons item q ih =>
    cases item with
    | lineEnd => rfl
    | word token =>
      exact ih hq.tail hq.ne_nil

theorem skipLines_append {n : Nat} (hn : n ≤ 1) {q : Input} (hq : q.Ended) (hne : q ≠ [])
    (r : Input) : skipLines n (q ++ r) = skipLines n q ++ r := by
  obtain rfl | rfl : n = 0 ∨ n = 1 := by omega
  · rfl
  · exact skipLine_append hq hne r

end Input

/-! ## Open definitions -/

namespace Draft

/-- The name, the body and the input after the semicolon, if the input has one; a part of the body
has been collected before. -/
def completeNamed? (name : String) (body : List String) (q : Input) :
    Option (String × List String × Input) :=
  match Input.takeBody q with
  | (more, some rest) => some (name, body ++ more, rest)
  | (_, none) => none

/-- The name, the body and the input after the semicolon, if the input completes the definition. -/
def complete? : Draft → Input → Option (String × List String × Input)
  | .named name body, q => completeNamed? name body q
  | .unnamed, q =>
    match Input.readWord? q with
    | some (name, q) => completeNamed? name [] q
    | none => none

/-- The definition with what the input adds to it, if the input does not complete it. -/
def extend : Draft → Input → Draft
  | .named name body, q => .named name (body ++ (Input.takeBody q).1)
  | .unnamed, q =>
    match Input.readWord? q with
    | some (name, q) => .named name (Input.takeBody q).1
    | none => .unnamed

/-- Without a semicolon, no definition is completed, -/
theorem completeNamed?_of_not_mem {q : Input} (h : ";" ∉ Input.words q) (name : String)
    (body : List String) : completeNamed? name body q = none := by
  rw [completeNamed?, Input.takeBody_of_not_mem h]

/-- and with one at the end of the input, all words before it go into the body. -/
theorem completeNamed?_of_words_append {q : Input} {more : List String} (hmore : ";" ∉ more)
    (h : Input.words q = more ++ [";"]) (name : String) (body : List String) :
    ∃ rest, completeNamed? name body q = some (name, body ++ more, rest) ∧
      Input.words rest = [] := by
  obtain ⟨rest, htake, hmarks⟩ := Input.takeBody_of_words_append hmore h
  exact ⟨rest, by rw [completeNamed?, htake], hmarks⟩

/-- Marks complete no definition. -/
theorem complete?_of_words_nil {q : Input} (h : Input.words q = []) (draft : Draft) :
    draft.complete? q = none := by
  cases draft with
  | unnamed => rw [complete?, Input.readWord?_of_words_nil h]
  | named name body => exact completeNamed?_of_not_mem (h ▸ List.not_mem_nil) name body

/-- What a definition waits for. -/
def awaits : Draft → Event
  | .unnamed => .awaitingName
  | .named name _ => .awaitingEnd name

section Append

variable {draft : Draft} {q rest : Input} {name n : String} {body b : List String}

theorem completeNamed?_append (name : String) (body : List String) (q r : Input) :
    completeNamed? name body (q ++ r) =
      match completeNamed? name body q with
      | some (n, b, rest) => some (n, b, rest ++ r)
      | none => completeNamed? name (body ++ (Input.takeBody q).1) r := by
  rw [completeNamed?, completeNamed?, completeNamed?, Input.takeBody_append]
  obtain ⟨more, rest⟩ := Input.takeBody q
  cases rest with
  | some rest => rfl
  | none =>
    obtain ⟨more', rest'⟩ := Input.takeBody r
    cases rest' with
    | some rest' => simp
    | none => rfl

theorem suffix_of_completeNamed? (h : completeNamed? name body q = some (n, b, rest)) :
    .word ";" :: rest <:+ q := by
  rw [completeNamed?] at h
  cases hq : Input.takeBody q with
  | mk more after =>
    rw [hq] at h
    cases after with
    | some after =>
      cases h
      exact Input.suffix_of_takeBody hq
    | none => cases h

/-- The input of a definition is taken off through its semicolon. -/
theorem suffix_of_complete? (h : draft.complete? q = some (n, b, rest)) :
    .word ";" :: rest <:+ q := by
  cases draft with
  | named name body => exact suffix_of_completeNamed? h
  | unnamed =>
    rw [complete?] at h
    cases hq : Input.readWord? q with
    | none =>
      rw [hq] at h
      cases h
    | some read =>
      rw [hq] at h
      have hname := (List.suffix_cons _ _).trans (Input.suffix_of_readWord? hq)
      exact (suffix_of_completeNamed? h).trans hname

/-- What stands after the semicolon of the first portion is left alone, together with the second
portion; a definition that the first portion leaves open goes on in the second one. -/
theorem complete?_append (draft : Draft) (q r : Input) :
    draft.complete? (q ++ r) =
      match draft.complete? q with
      | some (name, body, rest) => some (name, body, rest ++ r)
      | none => (draft.extend q).complete? r := by
  cases draft with
  | named name body => exact completeNamed?_append name body q r
  | unnamed =>
    rw [complete?, complete?, extend, Input.readWord?_append]
    cases Input.readWord? q with
    | none => rfl
    | some read => exact completeNamed?_append read.1 [] read.2 r

theorem takeBody_append_of_open (h : completeNamed? name body q = none) (r : Input) :
    (Input.takeBody (q ++ r)).1 = (Input.takeBody q).1 ++ (Input.takeBody r).1 := by
  rw [completeNamed?] at h
  rw [Input.takeBody_append]
  cases hq : Input.takeBody q with
  | mk more after =>
    rw [hq] at h
    cases after with
    | some after => cases h
    | none => rfl

/-- A definition that two portions leave open has collected both. -/
theorem extend_append (h : draft.complete? q = none) (r : Input) :
    draft.extend (q ++ r) = (draft.extend q).extend r := by
  cases draft with
  | named name body =>
    rw [extend, extend, extend, takeBody_append_of_open h, List.append_assoc]
  | unnamed =>
    rw [complete?] at h
    rw [extend, extend, Input.readWord?_append]
    cases hq : Input.readWord? q with
    | none => rfl
    | some read =>
      rw [hq] at h
      exact congrArg (named read.1) (takeBody_append_of_open h r)

end Append

end Draft

end ThreadedForth
