import Mathlib.Data.List.Forall2
import ThreadedForth.Proofs.Soundness

/-!
# What a dictionary remembers

A dictionary comes about by requests to bind names (`Dictionary.Request`). Whatever their number and
order, a name stands for what the last request that was granted has written under it; a copy is
written once and for all, and so keeps what its origin stood for at that moment
(`Dictionary.last_writer_wins`). The listing of the dictionary has one line for each name that was ever written.

The argument follows the requests one by one: either none of them writes under the name, or there is a
last one that does (`Dictionary.lookup_afterAll_cases`).
-/

namespace ThreadedForth

variable {Ext : Type}

namespace Dictionary

/-- A request to bind a name: to a body, or to what another name stands for. -/
inductive Request (Ext : Type) where
  | define (name : String) (immediate : Bool) (body : Body Ext)
  | copy (new old : String)

namespace Request

/-- The name to be bound. -/
def name : Request Ext → String
  | .define name _ _ => name
  | .copy new _ => new

/-- The word that the request writes under its name; there is none to be copied if the other name is
not known. -/
def word? (d : Dictionary Ext) : Request Ext → Option (Word Ext)
  | .define name immediate body => some ⟨some name, immediate, body⟩
  | .copy new old => (d.lookup old).map fun w => ⟨some new, w.immediate, w.body⟩

/-- The dictionary after the request, whether it is granted or not. -/
def after (d : Dictionary Ext) : Request Ext → Dictionary Ext
  | .define name immediate body => d.define name immediate body
  | .copy new old =>
    match d.copy new old with
    | .ok d' => d'
    | .error _ => d

end Request

/-- The dictionary after requests in a row. -/
def afterAll (d : Dictionary Ext) (requests : List (Request Ext)) : Dictionary Ext :=
  requests.foldl Request.after d

/-- None of the requests, made in a row, writes under the name. -/
def Spares (name : String) : Dictionary Ext → List (Request Ext) → Prop
  | _, [] => True
  | d, request :: rest =>
    (request.name = name → request.word? d = none) ∧ Spares name (request.after d) rest

variable {d : Dictionary Ext} {request : Request Ext} {requests : List (Request Ext)}
  {name new old : String} {w : Word Ext}

/-! ## One request -/

theorem copy_of_none (h : d.lookup old = none) : d.copy new old = .error (.unknownWord old) := by
  rw [copy, h]

theorem after_of_none (h : request.word? d = none) : request.after d = d := by
  cases request with
  | define name immediate body => cases h
  | copy new old =>
    have hold : d.lookup old = none := Option.map_eq_none_iff.1 h
    rw [Request.after, copy_of_none hold]

/-- A request that is granted writes its word under its name, and nothing else. -/
theorem after_of_some (h : request.word? d = some w) :
    request.after d = d.define request.name w.immediate w.body ∧ w.name = some request.name := by
  cases request with
  | define name immediate body =>
    cases h
    exact ⟨rfl, rfl⟩
  | copy new old =>
    obtain ⟨origin, hold, rfl⟩ := Option.map_eq_some_iff.1 h
    rw [Request.after, copy, hold]
    exact ⟨rfl, rfl⟩

theorem lookup_after_of_some (h : request.word? d = some w) :
    (request.after d).lookup request.name = some w := by
  obtain ⟨hafter, hname⟩ := after_of_some h
  rw [hafter, lookup_define, if_pos rfl, ← hname]

theorem lookup_after_of_spared (h : request.name = name → request.word? d = none) :
    (request.after d).lookup name = d.lookup name := by
  cases hw : request.word? d with
  | none => rw [after_of_none hw]
  | some w =>
    have hne : name ≠ request.name := fun heq => by
      rw [h heq.symm] at hw
      cases hw
    rw [(after_of_some hw).1, lookup_define, if_neg hne]

/-! ## Requests in a row -/

theorem lookup_of_spares (h : Spares name d requests) :
    (d.afterAll requests).lookup name = d.lookup name := by
  induction requests generalizing d with
  | nil => rfl
  | cons request rest ih => exact (ih h.2).trans (lookup_after_of_spared h.1)

/-- Either no request writes under the name, or one of them is the last to do so. -/
theorem lookup_afterAll_cases (d : Dictionary Ext) (requests : List (Request Ext)) (name : String) :
    Spares name d requests ∨
    ∃ before request behind w, requests = before ++ request :: behind ∧ request.name = name ∧
      request.word? (d.afterAll before) = some w ∧
      Spares name (d.afterAll (before ++ [request])) behind := by
  induction requests generalizing d with
  | nil => exact .inl trivial
  | cons request rest ih =>
    obtain hspares | ⟨before, last, behind, w, rfl, hname, hw, hspares⟩ := ih (request.after d)
    · by_cases hspared : request.name = name → request.word? d = none
      · exact .inl ⟨hspared, hspares⟩
      · rw [Classical.not_imp] at hspared
        obtain ⟨w, hw⟩ := Option.ne_none_iff_exists'.1 hspared.2
        exact .inr ⟨[], request, rest, w, rfl, hspared.1, hw, hspares⟩
    · exact .inr ⟨request :: before, last, behind, w, rfl, hname, hw, hspares⟩

theorem afterAll_concat (d : Dictionary Ext) (requests : List (Request Ext))
    (request : Request Ext) :
    d.afterAll (requests ++ [request]) = request.after (d.afterAll requests) := by
  simp [afterAll]

theorem lookup_of_last {before behind : List (Request Ext)}
    (hw : request.word? (d.afterAll before) = some w)
    (hspares : Spares request.name (d.afterAll (before ++ [request])) behind) :
    (d.afterAll (before ++ request :: behind)).lookup request.name = some w := by
  have hsplit : d.afterAll (before ++ request :: behind) =
      (d.afterAll (before ++ [request])).afterAll behind := by
    simp [afterAll]
  rw [hsplit, lookup_of_spares hspares, afterAll_concat, lookup_after_of_some hw]

theorem lookup_empty (name : String) : (empty : Dictionary Ext).lookup name = none :=
  rfl

/-- What the last request that writes under a name writes is what the name stands for. -/
theorem lookup_afterAll_eq_some_iff :
    ((empty : Dictionary Ext).afterAll requests).lookup name = some w ↔
    ∃ before request behind, requests = before ++ request :: behind ∧ request.name = name ∧
      request.word? (empty.afterAll before) = some w ∧
      Spares name (empty.afterAll (before ++ [request])) behind := by
  constructor
  · intro h
    obtain hspares | ⟨before, last, behind, w', rfl, rfl, hw, hspares⟩ :=
      lookup_afterAll_cases empty requests name
    · rw [lookup_of_spares hspares, lookup_empty] at h
      cases h
    · rw [lookup_of_last hw hspares] at h
      cases h
      exact ⟨before, last, behind, rfl, rfl, hw, hspares⟩
  · rintro ⟨before, last, behind, rfl, rfl, hw, hspares⟩
    exact lookup_of_last hw hspares

theorem lookup_afterAll_eq_none_iff :
    ((empty : Dictionary Ext).afterAll requests).lookup name = none ↔
      Spares name empty requests := by
  constructor
  · intro h
    obtain hspares | ⟨before, last, behind, w', rfl, rfl, hw, hspares⟩ :=
      lookup_afterAll_cases empty requests name
    · exact hspares
    · rw [lookup_of_last hw hspares] at h
      cases h
  · intro hspares
    rw [lookup_of_spares hspares, lookup_empty]

/-- Every word carries the name that it has been written under. -/
theorem name_of_lookup_afterAll
    (h : ((empty : Dictionary Ext).afterAll requests).lookup name = some w) :
    w.name = some name := by
  obtain ⟨before, request, behind, -, rfl, hw, -⟩ := lookup_afterAll_eq_some_iff.1 h
  exact (after_of_some hw).2

end Dictionary

/-! ## Listings -/

/-- The word can be spelled in a listing: a number by its digits, any other word by its name. -/
structure Entry.Spellable (w : Word Ext) : Prop where
  literal : ∀ v, w.body = .literal v → Number.isWritable v = true
  named : (∀ v, w.body ≠ .literal v) → w.name ≠ none

/-- The body can be listed: its number can be written, or the words of its thread can be spelled. -/
def Body.Listable : Body Ext → Prop
  | .primitive _ => True
  | .literal v => Number.isWritable v = true
  | .compiled words => ∀ c ∈ words, c.Spellable

/-- What the request brings along can be listed. -/
def Dictionary.Request.Listable : Request Ext → Prop
  | .define _ _ body => body.Listable
  | .copy _ _ => True

theorem Number.write_of_isWritable {v : Int} (h : isWritable v = true) :
    write v = .ok (decimal v) := by
  rw [write, if_pos h]

namespace Entry

theorem Spellable.spelling {w : Word Ext} (h : w.Spellable) :
    ∃ spelling, w.spelling = .ok (some spelling) := by
  rw [Entry.spelling]
  split
  · next v hv =>
    rw [Number.write_of_isWritable (h.literal v hv)]
    exact ⟨_, rfl⟩
  · next hv =>
    obtain ⟨name, hname⟩ := Option.ne_none_iff_exists'.1 (h.named fun v heq => hv v heq)
    exact ⟨name, by rw [hname]⟩

theorem describe_of_listable {body : Body Ext} (h : body.Listable) (name : String)
    (immediate : Bool) :
    ∃ listing, (⟨some name, immediate, body⟩ : Word Ext).describe = .ok listing := by
  cases body with
  | primitive p => exact ⟨_, rfl⟩
  | literal v =>
    have hlisting : listing (⟨some name, immediate, .literal v⟩ : Word Ext) =
        .ok (Number.decimal v) :=
      Number.write_of_isWritable h
    rw [describe, hlisting]
    exact ⟨_, rfl⟩
  | compiled words => exact describe_compiled (fun c hc => (h c hc).spelling) name immediate

end Entry

theorem mapM_of_forall_ok {ι γ ε : Type} {f : ι → Except ε γ} {R : ι → γ → Prop} {xs : List ι}
    (h : ∀ x ∈ xs, ∃ y, f x = .ok y ∧ R x y) :
    ∃ ys, xs.mapM f = .ok ys ∧ List.Forall₂ R xs ys := by
  induction xs with
  | nil => exact ⟨[], rfl, .nil⟩
  | cons x xs ih =>
    rw [List.forall_mem_cons] at h
    obtain ⟨y, hy, hR⟩ := h.1
    obtain ⟨ys, hxs, hys⟩ := ih h.2
    refine ⟨y :: ys, ?_, .cons hR hys⟩
    rw [List.mapM_cons, hy, hxs]
    rfl

namespace Dictionary

variable {d : Dictionary Ext} {requests : List (Request Ext)} {name : String}

/-- The names, in the order of the listing. -/
def names (d : Dictionary Ext) : List String :=
  d.bindings.map Prod.fst

theorem pairwise_names (d : Dictionary Ext) : d.names.Pairwise (· < ·) :=
  List.pairwise_map.2 d.sorted

theorem mem_names_iff : name ∈ d.names ↔ ∃ w, d.lookup name = some w := by
  rw [names, List.mem_map]
  constructor
  · rintro ⟨⟨_, w⟩, hb, rfl⟩
    exact ⟨w, lookupIn_of_mem d.sorted hb⟩
  · rintro ⟨w, hw⟩
    exact ⟨(name, w), mem_of_lookupIn hw, rfl⟩

/-- If all words can be listed, the listing has the line of each word, in the order of the names. -/
theorem dump_of_describe
    (h : ∀ name w, d.lookup name = some w → ∃ line, w.describe = .ok line) :
    ∃ lines, d.dump = .ok lines ∧
      List.Forall₂ (fun name line => ∃ w, d.lookup name = some w ∧ w.describe = .ok line)
        d.names lines := by
  have hline : ∀ b ∈ d.bindings, ∃ line, b.2.describe = .ok line ∧
      ∃ w, d.lookup b.1 = some w ∧ w.describe = .ok line := by
    intro b hb
    have hlookup : d.lookup b.1 = some b.2 := lookupIn_of_mem d.sorted hb
    obtain ⟨line, hline⟩ := h b.1 b.2 hlookup
    exact ⟨line, hline, b.2, hlookup, hline⟩
  obtain ⟨lines, hdump, hlines⟩ := mapM_of_forall_ok hline
  exact ⟨lines, hdump, List.forall₂_map_left_iff.2 hlines⟩

theorem listable_of_word? {request : Request Ext} {w : Word Ext} (h : request.Listable)
    (hd : ∀ name w, d.lookup name = some w → w.body.Listable) (hw : request.word? d = some w) :
    w.body.Listable := by
  cases request with
  | define name immediate body =>
    cases hw
    exact h
  | copy new old =>
    obtain ⟨origin, hold, rfl⟩ := Option.map_eq_some_iff.1 hw
    exact hd old origin hold

theorem listable_of_lookup_afterAll (h : ∀ request ∈ requests, request.Listable) :
    ∀ name w, ((empty : Dictionary Ext).afterAll requests).lookup name = some w →
      w.body.Listable := by
  refine forall_lookup_foldl (fun d request hrequest hd => ?_) fun _ _ h => nomatch h
  cases hw : request.word? d with
  | none => rwa [after_of_none hw]
  | some w =>
    have hbody := listable_of_word? (h request hrequest) hd hw
    rw [(after_of_some hw).1]
    exact forall_lookup_define hd hbody

/-- Make any requests in a row, from the dictionary without words. What a name stands for is the word
that the last request granted for this name has written, if there is one. So a copy has the flag and
the body of its origin, as they were at that moment, until its own name is written again. A copy of an
unknown name is refused with this name, and changes nothing. Each word carries its name. If the numbers
of the bodies can be written, and the other captured words have names, the listing returns one line for
each name that stands for a word, the listing of that word, in strictly increasing order of the names;
so it has as many lines as there are words. -/
theorem last_writer_wins {requests : List (Request Ext)} {d : Dictionary Ext}
    (hd : d = empty.afterAll requests) :
    (∀ name w, d.lookup name = some w ↔
      ∃ before request behind, requests = before ++ request :: behind ∧ request.name = name ∧
        request.word? (empty.afterAll before) = some w ∧
        Spares name (empty.afterAll (before ++ [request])) behind) ∧
    (∀ name, d.lookup name = none ↔ Spares name empty requests) ∧
    (∀ before new old behind origin, requests = before ++ .copy new old :: behind →
      (empty.afterAll before).lookup old = some origin →
      Spares new (empty.afterAll (before ++ [.copy new old])) behind →
      d.lookup new = some ⟨some new, origin.immediate, origin.body⟩) ∧
    (∀ new old, d.lookup old = none →
      d.copy new old = .error (.unknownWord old) ∧ d.afterAll [.copy new old] = d ∧
      ∀ m : Machine Ext, m.dictionary = d →
        Action.copyWord new old m = .error (.unknownWord old) m) ∧
    (∀ name w, d.lookup name = some w → w.name = some name) ∧
    ((∀ request ∈ requests, request.Listable) → ∃ names lines, names.Pairwise (· < ·) ∧
      (∀ name, name ∈ names ↔ ¬ Spares name empty requests) ∧ d.dump = .ok lines ∧
      List.Forall₂ (fun name line => ∃ w, d.lookup name = some w ∧ w.describe = .ok line)
        names lines ∧
      lines.length = d.size) := by
  subst hd
  refine ⟨fun _ _ => lookup_afterAll_eq_some_iff, fun _ => lookup_afterAll_eq_none_iff, ?_,
    fun new old hold => ⟨copy_of_none hold, ?_, ?_⟩, fun _ _ => name_of_lookup_afterAll,
    fun hlistable => ?_⟩
  · rintro before new old behind origin rfl horigin hspares
    have hw : Request.word? (empty.afterAll before) (.copy new old) =
        some ⟨some new, origin.immediate, origin.body⟩ := by
      rw [Request.word?, horigin]
      rfl
    exact lookup_of_last hw hspares
  · have hw : Request.word? (empty.afterAll requests) (.copy new old) = none := by
      rw [Request.word?, hold]
      rfl
    exact after_of_none hw
  · intro m hm
    rw [Action.copyWord, Action.get_bind, hm, hold]
    rfl
  · have hdescribe : ∀ name w, (empty.afterAll requests).lookup name = some w →
        ∃ line, w.describe = .ok line := by
      intro name w hw
      have hbody := listable_of_lookup_afterAll hlistable name w hw
      have hname := name_of_lookup_afterAll hw
      obtain ⟨_, immediate, body⟩ := w
      cases hname
      exact Entry.describe_of_listable hbody name immediate
    obtain ⟨lines, hdump, hlines⟩ := dump_of_describe hdescribe
    refine ⟨_, lines, pairwise_names _, fun name => ?_, hdump, hlines, ?_⟩
    · rw [mem_names_iff, ← lookup_afterAll_eq_none_iff, Option.ne_none_iff_exists'.symm]
    · rw [← hlines.length_eq, names, List.length_map, size]

/-- The body of a word that doubles a number. -/
def doubling : Body Empty :=
  .compiled [⟨some "dup", false, .primitive .dup⟩, ⟨some "+", false, .primitive .add⟩]

/-- Copies of a word that is bound anew in between, of a copy, and of an unknown word. -/
def copying : List (Request Empty) :=
  [.define "twice" false doubling, .copy "double" "twice", .define "twice" true (.literal 2),
   .copy "thrice" "missing", .copy "again" "double"]

/-- The copies keep what has been copied, and the unknown word leaves nothing. -/
theorem copying_keeps_copies :
    (empty.afterAll copying).lookup "again" = some ⟨some "again", false, doubling⟩ ∧
    (empty.afterAll copying).lookup "thrice" = none ∧
    ∃ lines, (empty.afterAll copying).dump = .ok lines ∧ lines.length = 3 := by
  obtain ⟨-, hspared, hcopied, -, -, hlisted⟩ :=
    last_writer_wins (rfl : empty.afterAll copying = empty.afterAll copying)
  refine ⟨?_, (hspared "thrice").2 ?_, ?_⟩
  · have horigin : (empty.afterAll (copying.take 4)).lookup "double" =
        some ⟨some "double", false, doubling⟩ := by
      decide +kernel
    exact hcopied (copying.take 4) "again" "double" [] _ rfl horigin trivial
  · refine ⟨?_, ?_, ?_, ?_, ?_, trivial⟩ <;> decide +kernel
  · have hlistable : ∀ request ∈ copying, request.Listable := by
      have hdoubling : doubling.Listable := by
        simp only [doubling, Body.Listable, List.forall_mem_cons]
        exact ⟨⟨nofun, nofun⟩, ⟨nofun, nofun⟩, nofun⟩
      have htwo : Number.isWritable 2 = true := by decide +kernel
      simp only [copying, List.forall_mem_cons]
      exact ⟨hdoubling, trivial, htwo, trivial, trivial, nofun⟩
    obtain ⟨names, lines, -, -, hdump, -, hlength⟩ := hlisted hlistable
    exact ⟨lines, hdump, hlength⟩

end Dictionary

end ThreadedForth
