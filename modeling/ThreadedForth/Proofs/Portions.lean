import ThreadedForth.Proofs.Collecting
import ThreadedForth.Proofs.Tokens

/-!
# A program in portions

A program can be given to the interpreter as a whole or line by line. The two runs are compared at
the ends of the lines: with `n` the machine that has been given the lines so far, the other one is
`n.ahead r log`, which has the rest of the program pending as well. Within a line the two go on in
step (`InStep`); at its end one waits for more input, and what the other one still has to do is what
it would do if it had to start over with the rest (`CaughtUp`).

The comments are the difficulty. One that runs when a definition is complete drops the rest of a
line, and that line is there in both runs; a second one would drop the next line, which is there in
one run only. Hence the condition on the bodies in `eval_lines_eq_eval_whole`.
-/

namespace ThreadedForth

variable {Ext : Type}

namespace Machine

/-- The machine with more input pending at the end, and with a log of its own. -/
def ahead (n : Machine Ext) (r : Input) (log : List Event) : Machine Ext :=
  { n with pending := n.pending ++ r, log := log }

/-- The machine after a definition has collected what is pending and is still open. -/
def waiting (n : Machine Ext) (draft : Draft) : Machine Ext :=
  { n with
    pending := []
    draft := some (draft.extend n.pending)
    log := (draft.extend n.pending).awaits :: n.log }

/-- The machines differ in no more than the pending input and the log. -/
structure Agrees (m n : Machine Ext) : Prop where
  width : m.width = n.width
  stack : m.stack = n.stack
  output : m.output = n.output
  dictionary : m.dictionary = n.dictionary
  draft : m.draft = n.draft

theorem agrees_ahead (n : Machine Ext) (r : Input) (log : List Event) : (n.ahead r log).Agrees n :=
  ⟨rfl, rfl, rfl, rfl, rfl⟩

end Machine

namespace Action

section InStep

/-- Two actions end in the same way, and leave machines one of which is still ahead. -/
inductive InStep (r : Input) :
    EStateM.Result Fault (Machine Ext) Unit → EStateM.Result Fault (Machine Ext) Unit → Prop
  | returned {n : Machine Ext} {log : List Event} : n.draft = none → n.dictionary.Straight →
      InStep r (.ok () (n.ahead r log)) (.ok () n)
  | stopped {fault : Fault} {n : Machine Ext} {log : List Event} :
      InStep r (.error fault (n.ahead r log)) (.error fault n)

variable {n : Machine Ext} {r : Input} {log : List Event}
  {a b : EStateM.Result Fault (Machine Ext) Unit}

theorem InStep.of_ok (hb : b = .ok () n) (ha : a = .ok () (n.ahead r log)) (hd : n.draft = none)
    (hn : n.dictionary.Straight) : InStep r a b := by
  subst ha hb
  exact .returned hd hn

theorem InStep.of_error {fault : Fault} (hb : b = .error fault n)
    (ha : a = .error fault (n.ahead r log)) : InStep r a b := by
  subst ha hb
  exact .stopped

theorem complete?_ahead_of_some {draft : Draft} {name : String} {body : List String} {rest : Input}
    (h : draft.complete? n.pending = some (name, body, rest)) (r : Input) (log : List Event) :
    draft.complete? (n.ahead r log).pending = some (name, body, rest ++ r) := by
  show draft.complete? (n.pending ++ r) = _
  rw [Draft.complete?_append, h]

variable [Extension Ext]

/-- A definition that the line completes is made by both, or refused. -/
theorem resumeDefinition_inStep (hn : n.dictionary.Straight) (hq : n.pending.Ended) {draft : Draft}
    {name : String} {body : List String} {rest : Input}
    (h : draft.complete? n.pending = some (name, body, rest)) (hcolon : ":" ∉ body)
    (hcount : body.count "\\" ≤ 1) :
    InStep r (resumeDefinition Machine.performer draft (n.ahead r log))
      (resumeDefinition Machine.performer draft n) := by
  have hahead := complete?_ahead_of_some h r log
  -- the line with the semicolon ends within the input that both have
  have hrest := hq.suffix (Draft.suffix_of_complete? h)
  have hlines : Input.skipLines (immediates (n.ahead r log).resolve body) (rest ++ r) = _ :=
    Input.skipLines_append (Nat.le_trans (Machine.immediates_le_count hn.comment body) hcount)
      hrest.tail hrest.ne_nil r
  cases hc : captured n.resolve body with
  | ok words =>
    obtain ⟨log₁, h₁⟩ := @resumeDefinition_of_captured Ext name (n.ahead r log) words _ draft body _
      hn.native hahead hc
    obtain ⟨log₂, h₂⟩ := resumeDefinition_of_captured hn.native h hc
    rw [hlines] at h₁
    exact .of_ok h₂ h₁ rfl (Machine.straight_define hn hc hcolon name)
  | error fault =>
    obtain ⟨log₁, h₁⟩ := @resumeDefinition_of_refused Ext name (n.ahead r log) fault _ draft body _
      hn.native.onlyComments hahead hc
    obtain ⟨log₂, h₂⟩ := resumeDefinition_of_refused hn.native.onlyComments h hc
    rw [hlines] at h₁
    exact .of_error h₂ h₁

/-- A word that starts no definition has the same effect on both; a comment drops the rest of a line
that both have. -/
theorem interpret_inStep (hn : n.dictionary.Straight) (hd : n.draft = none)
    (hq : n.pending.Ended) (hne : n.pending ≠ []) {token : String}
    (hdefine : ∀ w, n.resolve token = .ok (some w) → w.body ≠ .primitive .define) :
    InStep r (interpret Machine.performer token (n.ahead r log))
      (interpret Machine.performer token n) := by
  cases hr : n.resolve token with
  | error fault =>
    have hahead : (n.ahead r log).resolve token = .error fault := hr
    exact .of_error (interpret_of_error hr) (interpret_of_error hahead)
  | ok found =>
    cases found with
    | none =>
      have hahead : (n.ahead r log).resolve token = .ok none := hr
      exact .of_error (interpret_of_unknown hr) (interpret_of_unknown hahead)
    | some w =>
      have hahead : (n.ahead r log).resolve token = .ok (some w) := hr
      rw [interpret_of_word hr, interpret_of_word hahead]
      cases hi : w.immediate with
      | true =>
        rw [Machine.body_of_resolve hn.native.onlyComments hr hi]
        have h₁ := run_comment nestingLimit (n.ahead r log)
        have hline : Input.skipLine (n.ahead r log).pending = _ := Input.skipLine_append hq hne r
        rw [hline] at h₁
        exact .of_ok (run_comment nestingLimit n) h₁ hd hn
      | false =>
        have hleaf : Leaf.primitive .define ∉ w.body.leaves := fun hleaf =>
          hdefine w hr (Machine.colon_of_resolve hn hr hleaf).2
        obtain ⟨ending, stack, text, hw⟩ := contained_of_resolve hn.native hr hi hleaf n
        have h₁ := hw (n.ahead r log) ⟨rfl, rfl, fun _ => rfl⟩
        have h₂ := hw n ⟨rfl, rfl, fun _ => rfl⟩
        cases ending with
        | none => exact .of_ok h₂ h₁ hd hn
        | some fault => exact .of_error h₂ h₁

end InStep

/-! ## To the end of a line -/

section Waiting

variable {perform : Performer Ext} {draft : Draft} {n : Machine Ext} {r : Input}

theorem complete?_ahead_of_none (h : draft.complete? n.pending = none) (log : List Event) :
    draft.complete? (n.ahead r log).pending =
      (draft.extend n.pending).complete? ((n.waiting draft).ahead r log).pending := by
  show draft.complete? (n.pending ++ r) = _
  rw [Draft.complete?_append, h]
  rfl

/-- A definition that the line leaves open goes on in the rest just as if that came later. -/
theorem resumeDefinition_ahead (h : draft.complete? n.pending = none) (log : List Event) :
    resumeDefinition perform draft (n.ahead r log) =
      resumeDefinition perform (draft.extend n.pending) ((n.waiting draft).ahead r log) := by
  have happend := @complete?_ahead_of_none Ext draft n r h log
  cases hc : (draft.extend n.pending).complete? ((n.waiting draft).ahead r log).pending with
  | some completion =>
    obtain ⟨name, body, rest⟩ := completion
    rw [resumeDefinition_of_complete (happend.trans hc), resumeDefinition_of_complete hc]
    rfl
  | none =>
    have hextend : draft.extend (n.ahead r log).pending = (draft.extend n.pending).extend r :=
      Draft.extend_append h r
    rw [resumeDefinition_of_open (happend.trans hc), resumeDefinition_of_open hc, hextend]
    rfl

theorem tame_waiting [Extension Ext] {log : List Event} (h : draft.complete? n.pending = none)
    (htame : (n.ahead r log).TameFrom draft) : ((n.waiting draft).ahead r log).Tame := by
  refine (Machine.tame_iff_of_open rfl).2 fun name body rest hc => ?_
  rw [← resumeDefinition_ahead h log]
  exact htame name body rest ((complete?_ahead_of_none h log).trans hc)

end Waiting

section CaughtUp

variable [Extension Ext]

/-- How the two runs stand to each other when one has come to the end of a line: it has stopped and
so has the other, or it has nothing pending, and the other one has still to go on with the rest. -/
inductive CaughtUp (r : Input) :
    EStateM.Result Fault (Machine Ext) Unit → EStateM.Result Fault (Machine Ext) Unit → Prop
  | returned {n : Machine Ext} {log : List Event} : n.pending = [] → n.dictionary.Straight →
      (n.ahead r log).Tame → CaughtUp r (proceed (n.ahead r log)) (.ok () n)
  | stopped {fault : Fault} {n : Machine Ext} {log : List Event} :
      CaughtUp r (.error fault (n.ahead r log)) (.error fault n)

variable {n : Machine Ext} {r : Input} {log : List Event}
  {a b : EStateM.Result Fault (Machine Ext) Unit}

theorem CaughtUp.of_ok (hb : b = .ok () n) (ha : a = proceed (n.ahead r log)) (hp : n.pending = [])
    (hn : n.dictionary.Straight) (htame : (n.ahead r log).Tame) : CaughtUp r a b := by
  subst ha hb
  exact .returned hp hn htame

/-- The words of an end of the line `q` catch up, whichever end it is. -/
def CatchesUp (Ext : Type) [Extension Ext] (r q : Input) : Prop :=
  ∀ (n : Machine Ext) (log : List Event), n.pending <:+ q → n.draft = none →
    n.dictionary.Straight → (n.ahead r log).Tame → CaughtUp r (drain (n.ahead r log)) (drain n)

/-- After actions that are in step, it is for what follows to catch up. -/
theorem InStep.caughtUp {act : Action Ext Unit} (h : InStep r (act (n.ahead r log)) (act n))
    (hrest : ∀ n' log', act n = .ok () n' → act (n.ahead r log) = .ok () (n'.ahead r log') →
      n'.draft = none → n'.dictionary.Straight →
      CaughtUp r (drain (n'.ahead r log')) (drain n')) :
    CaughtUp r ((act >>= fun _ => drain) (n.ahead r log)) ((act >>= fun _ => drain) n) := by
  generalize ha : act (n.ahead r log) = a at h hrest
  generalize hb : act n = b at h hrest
  cases h with
  | returned hd hn =>
    rw [bind_of_ok ha, bind_of_ok hb]
    exact hrest _ _ rfl rfl hd hn
  | stopped =>
    rw [bind_of_error ha, bind_of_error hb]
    exact .stopped

/-- A definition catches up if what follows its semicolon does. -/
theorem resumeDefinition_caughtUp {draft : Draft} (hn : n.dictionary.Straight)
    (hq : n.pending.Ended) (htame : (n.ahead r log).TameFrom draft)
    (hrest : CatchesUp Ext r n.pending) :
    CaughtUp r ((resumeDefinition Machine.performer draft >>= fun _ => drain) (n.ahead r log))
      ((resumeDefinition Machine.performer draft >>= fun _ => drain) n) := by
  cases hc : draft.complete? n.pending with
  | none =>
    -- one run waits, and the other one is where it would be if it had waited too
    have hopen : ((n.waiting draft).ahead r log).draft = some (draft.extend n.pending) := rfl
    have hproceed := (bind_congr (resumeDefinition_ahead hc log)).trans (proceed_of_open hopen).symm
    have hwaits : resumeDefinition Machine.performer draft n = .ok () (n.waiting draft) :=
      resumeDefinition_of_open hc
    rw [hproceed, bind_of_ok hwaits, drain_of_open rfl]
    exact .returned rfl hn (tame_waiting hc htame)
  | some completion =>
    obtain ⟨name, body, rest⟩ := completion
    have hahead := complete?_ahead_of_some hc r log
    obtain ⟨⟨hcolon, hcount⟩, hafter⟩ := htame name body (rest ++ r) hahead
    refine (resumeDefinition_inStep hn hq hc hcolon hcount).caughtUp fun n' log' hb ha hd hn' => ?_
    have hevo := evolving_resumeDefinition draft n hn.native
    rw [after_of_ok hb] at hevo
    exact hrest n' log' hevo.pending hd hn' (hafter _ ha)

/-- Without another word on the line, one run is through and the other one at the rest. -/
theorem drain_caughtUp_of_none (hn : n.dictionary.Straight) (hd : n.draft = none)
    (htame : (n.ahead r log).Tame) (hread : Input.readWord? n.pending = none) :
    CaughtUp r (drain (n.ahead r log)) (drain n) := by
  have hahead : Input.readWord? (n.pending ++ r) = Input.readWord? r := by
    rw [Input.readWord?_append, hread]
  have hdrain := @drain_of_readWord?_eq Ext _ { n with log := log } _ _ hn.native hd hahead
  have hproceed := @proceed_of_closed Ext _ { n with pending := r, log := log } hd
  have hrest := @Machine.Tame.of_readWord?_eq Ext _ { n with log := log } _ _ htame hd hahead
  exact .of_ok (drain_of_none hd hread) (hdrain.trans hproceed.symm) rfl hn hrest

/-- A turn of the loop catches up if what the word leaves of the line does. -/
theorem drain_caughtUp_of_some {token : String} {rest : Input} (hn : n.dictionary.Straight)
    (hd : n.draft = none) (hq : n.pending.Ended) (htame : (n.ahead r log).Tame)
    (hread : Input.readWord? n.pending = some (token, rest)) (hrest : CatchesUp Ext r rest) :
    CaughtUp r (drain (n.ahead r log)) (drain n) := by
  have hahead : Input.readWord? (n.ahead r log).pending = some (token, rest ++ r) := by
    show Input.readWord? (n.pending ++ r) = _
    rw [Input.readWord?_append, hread]
  have hline := hq.suffix (Input.suffix_of_readWord? hread)
  have hdrain : drain (n.ahead r log) = (interpret Machine.performer token >>= fun _ => drain)
      (Machine.ahead { n with pending := rest } r log) :=
    @drain_of_some Ext _ (n.ahead r log) token (rest ++ r) hn.native hd hahead
  rw [hdrain, drain_of_some hn.native hd hread]
  -- only the colon may take more of the input than the line has
  by_cases hdefine : ∃ w, n.resolve token = .ok (some w) ∧ w.body = .primitive .define
  · obtain ⟨w, hr, hw⟩ := hdefine
    have h₁ := @interpret_of_define Ext _ (Machine.ahead { n with pending := rest } r log) token
      w hn.native.onlyComments hr hw
    have h₂ := @interpret_of_define Ext _ { n with pending := rest } token
      w hn.native.onlyComments hr hw
    have hfrom := htame.define hn.native.onlyComments hd hahead hr hw
    rw [bind_congr h₁, bind_congr h₂]
    exact resumeDefinition_caughtUp hn hline.tail hfrom hrest
  · have hstep := @interpret_inStep Ext { n with pending := rest } r log _ hn hd hline.tail
      hline.ne_nil token fun w hr hw => hdefine ⟨w, hr, hw⟩
    refine hstep.caughtUp fun n' log' hb ha hd' hn' => ?_
    have hevo := evolving_interpret token { n with pending := rest } hn.native
    rw [after_of_ok hb] at hevo
    exact hrest n' log' hevo.pending hd' hn' (htame.word hd hahead ha)

/-- Words catch up to the end of the line, or to a definition that the line leaves open. -/
theorem catchesUp_of_ended {q : Input} (hq : q.Ended) : CatchesUp Ext r q := by
  -- each word that is read makes the line shorter
  induction hk : q.length using Nat.strongRecOn generalizing q with
  | ind k ih =>
    intro n log hsuffix hd hn htame
    cases hread : Input.readWord? n.pending with
    | none => exact drain_caughtUp_of_none hn hd htame hread
    | some read =>
      obtain ⟨token, rest⟩ := read
      have hended := hq.suffix hsuffix
      have hline := hended.suffix (Input.suffix_of_readWord? hread)
      have hlen := Input.length_of_readWord? hread
      have hle := hsuffix.length_le
      exact drain_caughtUp_of_some hn hd hended htame hread (ih _ (by omega) hline.tail rfl)

theorem proceed_caughtUp (hn : n.dictionary.Straight) (hq : n.pending.Ended)
    (htame : (n.ahead r log).Tame) : CaughtUp r (proceed (n.ahead r log)) (proceed n) := by
  cases hd : n.draft with
  | none =>
    rw [proceed_of_closed hd, @proceed_of_closed Ext _ (n.ahead r log) hd]
    exact catchesUp_of_ended hq n log (List.suffix_refl _) hd hn htame
  | some draft =>
    rw [proceed_of_open hd, @proceed_of_open Ext _ (n.ahead r log) draft hd]
    have hfrom := (@Machine.tame_iff_of_open Ext _ (n.ahead r log) draft hd).1 htame
    exact resumeDefinition_caughtUp hn hq hfrom (catchesUp_of_ended hq)

end CaughtUp

/-! ## From line to line -/

/-- Two runs return with nothing pending, or stop with the same fault, and leave machines that
agree. -/
inductive Agree :
    EStateM.Result Fault (Machine Ext) Unit → EStateM.Result Fault (Machine Ext) Unit → Prop
  | returned {m n : Machine Ext} : m.pending = [] → n.pending = [] → m.Agrees n →
      Agree (.ok () m) (.ok () n)
  | stopped {fault : Fault} {m n : Machine Ext} : m.Agrees n →
      Agree (.error fault m) (.error fault n)

theorem Agree.outcome {a b : Action Ext Unit} {m n : Machine Ext} (h : Agree (a m) (b n)) :
    a.fault? m = b.fault? n ∧ (a.after m).Agrees (b.after n) ∧
      (a.fault? m = none → (a.after m).pending = [] ∧ (b.after n).pending = []) := by
  generalize ha : a m = x at h
  generalize hb : b n = y at h
  cases h with
  | returned hm hn hagrees =>
    rw [fault?_of_ok ha, fault?_of_ok hb, after_of_ok ha, after_of_ok hb]
    exact ⟨rfl, hagrees, fun _ => ⟨hm, hn⟩⟩
  | stopped hagrees =>
    rw [fault?_of_error ha, fault?_of_error hb, after_of_error ha, after_of_error hb]
    exact ⟨rfl, hagrees, nofun⟩

section Lines

variable [Extension Ext]

/-- With nothing pending there is nothing to do. -/
theorem proceed_of_nil {m : Machine Ext} (hp : m.pending = []) :
    ∃ log, proceed m = .ok () { m with log := log } := by
  cases hd : m.draft with
  | none =>
    refine ⟨m.log, ?_⟩
    rw [proceed_of_closed hd, drain_of_none hd (by rw [hp]; rfl), ← hp, hd]
  | some draft =>
    have hc : draft.complete? m.pending = none :=
      Draft.complete?_of_words_nil (congrArg Input.words hp) draft
    have hextend : draft.extend m.pending = draft := by
      rw [hp]
      cases draft with
      | unnamed => rfl
      | named name body => exact congrArg _ (List.append_nil body)
    refine ⟨draft.awaits :: m.log, ?_⟩
    rw [proceed_of_open hd, bind_of_ok (resumeDefinition_of_open hc), hextend, drain_of_open rfl,
      ← hd, ← hp]

/-- A blank line makes no difference. -/
theorem proceed_blank (m : Machine Ext) :
    proceed { m with pending := [.lineEnd] } = proceed { m with pending := [] } := by
  cases hd : m.draft with
  | none =>
    rw [proceed_of_closed rfl, proceed_of_closed rfl, drain_of_none rfl rfl, drain_of_none rfl rfl]
  | some draft =>
    rw [proceed_of_open rfl, proceed_of_open rfl]
    refine bind_congr ?_
    cases draft with
    | unnamed => rw [resumeDefinition_of_open rfl, resumeDefinition_of_open rfl]; rfl
    | named name body => rw [resumeDefinition_of_open rfl, resumeDefinition_of_open rfl]; rfl

theorem tame_blank (m : Machine Ext) : { m with pending := [.lineEnd] }.Tame := by
  have hcollects : { m with pending := [.lineEnd] }.collects? = none := by
    rw [Machine.collects?, Machine.opening?]
    rcases m.draft with _ | _ | ⟨name, body⟩ <;> rfl
  have hturn : { m with pending := [.lineEnd] }.turn? = none := by
    rw [Machine.turn?]
    rcases m.draft with _ | _ | ⟨name, body⟩ <;> rfl
  intro body h
  cases h with
  | now hnow =>
    rw [hcollects] at hnow
    cases hnow
  | later hlater =>
    rw [hturn] at hlater
    cases hlater

/-- A line is read off the front of the lines in the same way if it is an empty one at the end. -/
theorem proceed_ofLines_cons (m : Machine Ext) {line : String} (h : Text.IsLine line)
    (rest : List String) :
    proceed { m with pending := Input.ofLines (line :: rest) } =
      proceed { m with pending := Input.ofLine line ++ Input.ofLines rest } := by
  obtain heq | ⟨hnil, hblank⟩ := Input.ofLines_cons h rest
  · rw [heq]
  · rw [hnil, hblank, proceed_blank]

theorem tame_ofLines_cons {m : Machine Ext} {line : String} (h : Text.IsLine line)
    {rest : List String} (htame : { m with pending := Input.ofLines (line :: rest) }.Tame) :
    { m with pending := Input.ofLine line ++ Input.ofLines rest }.Tame := by
  obtain heq | ⟨_, hblank⟩ := Input.ofLines_cons h rest
  · rw [heq] at htame
    exact htame
  · rw [hblank]
    exact tame_blank m

/-- Once a line is caught up, it is for the rest to agree. -/
theorem CaughtUp.agree {r : Input} {a : EStateM.Result Fault (Machine Ext) Unit}
    {act next : Action Ext Unit} {n : Machine Ext} (h : CaughtUp r a (act n))
    (hrest : ∀ (n' : Machine Ext) log', n'.pending = [] → n'.dictionary.Straight →
      (n'.ahead r log').Tame → Agree (proceed (n'.ahead r log')) (next n')) :
    Agree a ((act >>= fun _ => next) n) := by
  generalize hb : act n = b at h
  cases h with
  | returned hp hn htame =>
    rw [bind_of_ok hb]
    exact hrest _ _ hp hn htame
  | stopped =>
    rw [bind_of_error hb]
    exact .stopped (Machine.agrees_ahead _ _ _)

/-- What is left of the program does the same whether it is pending or given line by line. -/
theorem proceed_lines {lines : List String} (hlines : ∀ line ∈ lines, Text.IsLine line)
    {n : Machine Ext} {log : List Event} (hp : n.pending = []) (hn : n.dictionary.Straight)
    (htame : (n.ahead (Input.ofLines lines) log).Tame) :
    Agree (proceed (n.ahead (Input.ofLines lines) log)) (lines.forM Machine.eval n) := by
  induction lines generalizing n log with
  | nil =>
    have hnil : (n.ahead (Input.ofLines []) log).pending = [] :=
      (List.append_nil n.pending).trans hp
    obtain ⟨log', hrun⟩ := proceed_of_nil hnil
    rw [hrun]
    exact .returned hnil hp ⟨rfl, rfl, rfl, rfl, rfl⟩
  | cons line rest ih =>
    have hline := hlines line List.mem_cons_self
    have hbefore : ∀ q, n.ahead q log = { n with pending := q, log := log } := by
      intro q
      rw [Machine.ahead, hp, List.nil_append]
    -- one run goes on with the line and the rest, the other one with the line only
    have hwhole : proceed (n.ahead (Input.ofLines (line :: rest)) log) =
        proceed (Machine.ahead { n with pending := Input.ofLine line } (Input.ofLines rest) log) := by
      rw [hbefore]
      exact proceed_ofLines_cons { n with log := log } hline rest
    have hpart : Machine.eval line n = proceed { n with pending := Input.ofLine line } := by
      have hcons := proceed_ofLines_cons n hline []
      rw [Input.ofLines, Input.ofLines, List.append_nil] at hcons
      rw [eval_eq_proceed, hp, List.nil_append, hcons]
    rw [hbefore] at htame
    have htame' := @tame_ofLines_cons Ext _ { n with log := log } line hline rest htame
    have hends : Input.Ended (Input.ofLine line) := .inr ⟨_, rfl⟩
    have hcaught := @proceed_caughtUp Ext _ { n with pending := Input.ofLine line } _ log hn hends
      htame'
    rw [← hpart] at hcaught
    rw [hwhole]
    exact hcaught.agree fun n' log' hp' hn' htame' =>
      ih (fun l hl => hlines l (List.mem_cons_of_mem line hl)) hp' hn' htame'

end Lines

end Action

/-- Take a program of any number of lines, with none of the bodies that its run collects having a
colon or a second comment in it. On a fresh machine, the text of the whole program and its lines one
by one, up to the first that stops with a fault, end in the same way: with the same fault, or with
none and nothing pending; and they leave the same stack, output and dictionary, and the same
definition open. -/
theorem eval_lines_eq_eval_whole [Extension Ext] {width : CellWidth} {m : Machine Ext}
    (hm : m = Machine.fresh width) {lines : List String} (hlines : ∀ line ∈ lines, Text.IsLine line)
    (hbodies : ∀ body, { m with pending := Input.ofText ("\n".intercalate lines) }.Collects body →
      ":" ∉ body ∧ body.count "\\" ≤ 1) :
    (Machine.eval ("\n".intercalate lines)).fault? m = (lines.forM Machine.eval).fault? m ∧
      ((Machine.eval ("\n".intercalate lines)).after m).Agrees
        ((lines.forM Machine.eval).after m) ∧
      ((Machine.eval ("\n".intercalate lines)).fault? m = none →
        ((Machine.eval ("\n".intercalate lines)).after m).pending = [] ∧
          ((lines.forM Machine.eval).after m).pending = []) := by
  have hn : m.dictionary.Straight := by
    rw [hm, Machine.fresh_dictionary]
    exact Dictionary.straight_builtin
  have hp : m.pending = [] := by
    rw [hm, Machine.fresh]
  have hqueued : { m with pending := Input.ofText ("\n".intercalate lines) } =
      m.ahead (Input.ofLines lines) m.log := by
    rw [Input.ofText_intercalate hlines, Machine.ahead, hp, List.nil_append]
  have hwhole : Machine.eval ("\n".intercalate lines) m =
      Action.proceed (m.ahead (Input.ofLines lines) m.log) := by
    rw [Action.eval_eq_proceed, hp, List.nil_append, hqueued]
  rw [hqueued] at hbodies
  have hagree := Action.proceed_lines hlines hp hn hbodies
  rw [← hwhole] at hagree
  exact hagree.outcome

/-- A definition over three lines, one of them blank, with a comment; then a use of it, and another
definition that stays open. -/
def lesson : List String :=
  [": square \\ dup", "", "* ; 7 7", "3 square .", ": w 1"]

/-- The lesson writes the same line as a whole or in portions. -/
theorem eval_lesson_lines :
    (Machine.eval ("\n".intercalate lesson)).fault? (Machine.fresh .standard : Machine Empty) =
        (lesson.forM Machine.eval).fault? (Machine.fresh .standard : Machine Empty) ∧
      ((Machine.eval ("\n".intercalate lesson)).after (Machine.fresh .standard : Machine Empty)).Agrees
        ((lesson.forM Machine.eval).after (Machine.fresh .standard)) ∧
      ((lesson.forM Machine.eval).after (Machine.fresh .standard : Machine Empty)).output = "9\n" := by
  have hcollected : Machine.collected 10 { (Machine.fresh .standard : Machine Empty) with
      pending := Input.ofText ("\n".intercalate lesson) } = some [["\\", "dup", "*"]] := by
    decide +kernel
  have hbodies : ∀ body ∈ [["\\", "dup", "*"]], ":" ∉ body ∧ body.count "\\" ≤ 1 := by decide
  obtain ⟨hfault, hagrees, _⟩ := eval_lines_eq_eval_whole rfl (by decide)
    fun body h => hbodies body (h.mem_collected hcollected)
  exact ⟨hfault, hagrees, by decide +kernel⟩

end ThreadedForth
