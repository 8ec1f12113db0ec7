import GrammarPaint.Proofs.Progress
import GrammarPaint.Proofs.Separators

/-!
# Turns are a reading

Working parts off turn after turn (`Progress.run`) finds the issues that a reading of the whole file
finds (`structuralIssues_eq_run`).  Turns look ahead where a reading has not been, so the two are
compared at a stop between them: what was newly reported up to there, and what a reading makes of
the rest, are together what a reading makes of everything (`Progress.Accounts`).

Every token up to the end of the file is taken on the way (`Progress.TakesAll`).  A construct of the
grammar that is called for (`Construct`) always does something, and with that it keeps the promise
that parts make (`promises_and_runsThrough`).
-/

set_option autoImplicit false
namespace GrammarPaint

/-! ## Turns are a reading -/

/-- The issues that a reading makes of what is ahead of a walk. -/
def Reading.issuesAhead (r : Reading) (w : Walk) : List StructuralIssue :=
  complaintsAbout w.ahead (r.read (w.ahead.map Token.word)).1
    ++ complaintsAt (endSpan w.tokens) (r.read (w.ahead.map Token.word)).2

section Ahead

variable {w : Walk} {r : Reading}

theorem issuesAhead_of_ending (h : w.kind = .endOfFile) :
    r.issuesAhead w = complaintsAt (endSpan w.tokens) r := by
  rw [Reading.issuesAhead, Walk.ahead_of_ending h]
  rfl

theorem issuesAhead_start (tokens : List Token) :
    Reading.start.issuesAhead (.start tokens) = structuralIssues tokens := by
  rw [Reading.issuesAhead, Walk.ahead_start, structuralIssues_eq, readItems]
  rfl

variable (h : w.IsStop) (hend : w.kind ≠ .endOfFile)
include h hend

theorem issuesAhead_step :
    r.issuesAhead w
      = ((r.step w.word w.following).1.complaint.map (⟨w.span, w.kind, ·⟩)).toList
        ++ (r.step w.word w.following).2.issuesAhead w.take.2 := by
  obtain ⟨t, ht, hahead⟩ := Walk.exists_ahead_eq_cons h hend
  have hfollowing := Walk.firstKind_ahead (h.take hend)
  have hword : w.word = t.word := by rw [Walk.word, ht]
  have hspan : w.span = t.span := by rw [Walk.span, ht]
  have hkind : w.kind = t.kind := by rw [← Walk.kind_word, hword]; rfl
  rw [Reading.issuesAhead, hahead, List.map_cons, Reading.read, complaintsAbout_cons, hfollowing,
    List.append_assoc, Reading.issuesAhead, Walk.tokens_take, hword, hspan, hkind, Walk.following]

/-- What begins no item is skipped, and a semicolon ends the skipping. -/
theorem issuesAhead_skipping (hstart : w.kind ∉ itemStart) :
    Reading.skipping.issuesAhead w
      = (if w.kind = .semicolon then Reading.start else .skipping).issuesAhead w.take.2 := by
  have hnone : w.word.item? = none := by
    rw [Progress.item?_eq_none_iff, Walk.kind_word]
    exact .inl hstart
  rw [issuesAhead_step h hend, Reading.step, resume, hnone, Walk.kind_word]
  rfl

end Ahead

section Parts

variable {w : Walk} (h : w.IsStop) {part : Part} (parts : List Part)
include h

theorem issuesAhead_of_skip (hmove : part.move w.word w.following = .skip) :
    (Reading.expecting (part :: parts)).issuesAhead w
      = (Reading.expecting parts).issuesAhead w := by
  by_cases hend : w.kind = .endOfFile
  · rw [Walk.word_of_ending hend, Walk.following_of_ending hend] at hmove
    rw [issuesAhead_of_ending hend, issuesAhead_of_ending hend, complaintsAt, complaintsAt,
      Reading.complaintAtEnd, Reading.complaintAtEnd, missing, hmove]
  · rw [issuesAhead_step h hend, issuesAhead_step h hend, Reading.step, Reading.step, settle, hmove]

theorem issuesAhead_of_take {paint : Paint} {taken : List Part}
    (hmove : part.move w.word w.following = .take paint taken) :
    (Reading.expecting (part :: parts)).issuesAhead w
      = (Reading.expecting (taken ++ parts)).issuesAhead w.take.2 := by
  rw [issuesAhead_step h (Walk.kind_ne_of_take hmove), Reading.step, settle, hmove]
  rfl

/-- What is refused is complained about, and then a place to go on is looked for. -/
theorem issuesAhead_of_error {r : Reading} {complaint : Complaint}
    (hstep : w.kind ≠ .endOfFile → r.step w.word w.following
      = (⟨(resume w.word).1, some complaint⟩, (resume w.word).2))
    (hmissing : w.kind = .endOfFile → r.complaintAtEnd = some complaint) :
    r.issuesAhead w = ⟨w.span, w.kind, complaint⟩ :: Reading.skipping.issuesAhead w := by
  by_cases hend : w.kind = .endOfFile
  · rw [issuesAhead_of_ending hend, issuesAhead_of_ending hend, complaintsAt, complaintsAt,
      hmissing hend, h.span_eq hend, hend]
    rfl
  · rw [issuesAhead_step h hend, issuesAhead_step h hend, hstep hend]
    rfl

theorem issuesAhead_of_refuse {complaint : Complaint}
    (hmove : part.move w.word w.following = .refuse complaint) :
    (Reading.expecting (part :: parts)).issuesAhead w
      = ⟨w.span, w.kind, complaint⟩ :: Reading.skipping.issuesAhead w := by
  refine issuesAhead_of_error h (fun _ => ?_) (fun hend => ?_)
  · rw [Reading.step, settle, hmove]
  · rw [Walk.word_of_ending hend, Walk.following_of_ending hend] at hmove
    rw [Reading.complaintAtEnd, missing, hmove]

end Parts

namespace Progress

variable {s : Progress}

theorem walk_take (hend : s.kind ≠ .endOfFile) : s.take.toWalk = s.toWalk.take.2 := by
  rw [take_eq hend]

/-- Where a reading skips what it cannot use, a walk looks for a place to go on. -/
theorem issuesAhead_seek (h : s.IsStop) :
    Reading.skipping.issuesAhead s.toWalk = Reading.start.issuesAhead s.seek.toWalk := by
  fun_induction seek s with
  | case1 s hstart =>
    by_cases hend : s.kind = .endOfFile
    · rw [issuesAhead_of_ending hend, issuesAhead_of_ending hend]
      rfl
    · obtain ⟨begun, hbegun⟩ : ∃ begun, s.word.item? = some begun := by
        refine Option.ne_none_iff_exists'.1 fun hnone => ?_
        rw [item?_eq_none_iff, Walk.kind_word] at hnone
        exact hnone.elim (fun hnot => hnot hstart) hend
      rw [issuesAhead_step h hend, issuesAhead_step h hend, Reading.step, Reading.start,
        Reading.step, settle, resume, hbegun]
  | case2 s hstart hsemicolon =>
    have hend := ne_endOfFile_of_not_mem hstart
    rw [issuesAhead_skipping h hend hstart, if_pos hsemicolon, walk_take hend]
  | case3 s hstart hsemicolon ih =>
    have hend := ne_endOfFile_of_not_mem hstart
    rw [← ih (isStop_take hend h), issuesAhead_skipping h hend hstart, if_neg hsemicolon,
      walk_take hend]

/-- What a reading makes of what is ahead of `s` is what was newly reported up to `later`, and what
a reading that begins there makes of the rest. -/
def Accounts (r : Reading) (s : Progress) (r' : Reading) (later : Progress) : Prop :=
  ∃ new, later.reported = s.reported ++ new ∧
    r.issuesAhead s.toWalk = new.map (Report.issue s.tokens) ++ r'.issuesAhead later.toWalk

theorem accounts_recover (h : s.IsStop) {r : Reading} {complaint : Complaint}
    (hissues : r.issuesAhead s.toWalk
      = ⟨s.toWalk.span, s.kind, complaint⟩ :: Reading.skipping.issuesAhead s.toWalk) :
    Accounts r s .start (s.recover complaint) := by
  refine ⟨[⟨s.position, complaint⟩], reported_recover s complaint, ?_⟩
  have hseek := issuesAhead_seek (s := s.report complaint) h
  rw [hissues]
  exact congrArg _ hseek

/-- **Working parts off is reading on**, and what is below them goes on where they are used up. -/
theorem accounts_workOff (h : s.IsStop) (parts below : List Part) :
    Accounts (.expecting (parts ++ below)) s
      (match (s.workOff parts).1 with
        | .matched => .expecting below
        | .recovered => .start)
      (s.workOff parts).2 := by
  fun_induction workOff s parts with
  | case1 s => exact ⟨[], (List.append_nil _).symm, rfl⟩
  | case2 s part parts hmove ih =>
    rw [List.cons_append, Accounts, issuesAhead_of_skip h _ hmove]
    exact ih h
  | case3 s part parts paint taken hmove ih =>
    have hend := Walk.kind_ne_of_take hmove
    have hlater := ih (isStop_take hend h)
    rw [Accounts, reported_take, walk_take hend, Walk.take_eq hend] at hlater
    rw [List.cons_append, Accounts, issuesAhead_of_take h _ hmove, ← List.append_assoc,
      Walk.take_eq hend]
    exact hlater
  | case4 s part parts complaint hmove =>
    exact accounts_recover h (issuesAhead_of_refuse h _ hmove)

/-- **A turn is reading on.** -/
theorem accounts_turn (h : s.IsStop) (hend : s.kind ≠ .endOfFile) :
    Accounts .start s .start s.turn := by
  rw [turn]
  cases hitem : s.word.item? with
  | some begun =>
    obtain ⟨paint, parts⟩ := begun
    have hissues : Reading.start.issuesAhead s.toWalk
        = (Reading.expecting (parts ++ [])).issuesAhead s.take.toWalk := by
      rw [issuesAhead_step h hend, Reading.start, Reading.step, settle, hitem, walk_take hend,
        List.append_nil]
      rfl
    have hlater := accounts_workOff (isStop_take hend h) parts []
    rw [Accounts, reported_take, tokens_take, ← hissues] at hlater
    rw [Accounts]
    cases houtcome : (s.take.workOff parts).1 <;> rw [houtcome] at hlater <;> exact hlater
  | none =>
    refine accounts_recover h (issuesAhead_of_error h (fun _ => ?_) fun hnot => absurd hnot hend)
    rw [Reading.start, Reading.step, settle, hitem]

/-- **Turn after turn, everything is reported.** -/
theorem accounts_run (h : s.IsStop) : Accounts .start s .start s.run.2 := by
  fun_induction run s with
  | case1 s hend => exact ⟨[], (List.append_nil _).symm, rfl⟩
  | case2 s hend ih =>
    have hstop := keeps_turn (P := fun s => s.IsStop) (fun _ => isStop_take) (fun _ _ h => h) h
    obtain ⟨new, hnew, hissues⟩ := accounts_turn h hend
    obtain ⟨later, hlater, hrest⟩ := ih hstop
    refine ⟨new ++ later, by rw [hlater, hnew, List.append_assoc], ?_⟩
    rw [hissues, hrest, List.map_append, List.append_assoc, (isBefore_turn hend).tokens_eq,
      tokens_take]

theorem structuralIssues_eq_run (tokens : List Token) :
    structuralIssues tokens = (start tokens).run.2.reported.map (Report.issue tokens) := by
  obtain ⟨new, hnew, hissues⟩ := accounts_run (s := start tokens) (Walk.isStop_start tokens)
  have hreported : (start tokens).run.2.reported = new := hnew
  have hlast : Reading.start.issuesAhead (start tokens).run.2.toWalk = [] := by
    rw [issuesAhead_of_ending (kind_run _)]
    rfl
  rw [hlast, List.append_nil] at hissues
  rw [hreported, ← issuesAhead_start]
  exact hissues

/-! ## What is taken -/

/-- Progress in which every token so far that is not trivia was taken, once and in order. -/
structure TakesAll (s : Progress) : Prop where
  isStop : s.IsStop
  taken_eq : s.taken = Walk.stopsBefore s.tokens s.position

theorem takesAll_start (tokens : List Token) : (start tokens).TakesAll where
  isStop := Walk.isStop_start tokens
  taken_eq := (Walk.stopsBefore_nextStop tokens 0).symm

theorem TakesAll.take (hend : s.kind ≠ .endOfFile) (h : s.TakesAll) : s.take.TakesAll where
  isStop := isStop_take hend h.isStop
  taken_eq := by
    rw [take_eq hend, h.isStop.stopsBefore_take hend, ← h.taken_eq]

end Progress

/-! ## Calls and turns -/

/-- What can be called for: `negated` says that it stands under a `!`. -/
inductive Construct where
  | expression (negated : Bool)
  | sequence (negated : Bool)
  /-- A term and the marks of repetition behind it. -/
  | repetition (negated : Bool)
  | term (negated : Bool)
  | arguments
  | parameters
deriving DecidableEq

namespace Construct

/-- The parts that a construct is worked off as. -/
def parts : Construct → List Part
  | expression negated => GrammarPaint.expression negated
  | sequence negated => [.term negated, .repetition, .moreTerms negated]
  | repetition negated => [.term negated, .repetition]
  | term negated => [.term negated]
  | arguments => [.arguments]
  | parameters => [.parameters]

/-- Where a construct may be called for: a list between angle brackets only at the first of them. -/
def IsReady (s : Progress) : Construct → Prop
  | arguments | parameters => s.kind = .leftAngle
  | _ => True

/-- A term has no part that leaves a token to the next. -/
theorem asTerm_ne_skip (w : Word) (following : TokenKind) (negated : Bool) (parts : List Part) :
    w.asTerm following negated parts ≠ .skip := by
  rw [Word.asTerm]
  split <;> simp

theorem exists_parts_eq_cons {c : Construct} {s : Progress} (h : c.IsReady s) :
    ∃ part parts, c.parts = part :: parts ∧ part.move s.word s.following ≠ .skip := by
  have hangle (hkind : s.kind = .leftAngle) (parts : List Part) :
      s.word.optional .leftAngle .keep parts ≠ .skip := by
    rw [Word.optional, Walk.kind_word, if_pos hkind]
    exact Move.noConfusion
  cases c with
  | expression | sequence | repetition | term => exact ⟨_, _, rfl, asTerm_ne_skip _ _ _ _⟩
  | arguments | parameters => exact ⟨_, _, rfl, hangle h _⟩

end Construct

/-- What a run over `tokens`, turn after turn, comes to. -/
structure RunsThrough (tokens : List Token) (turns : List Progress) (last : Progress) : Prop where
  /-- Each turn takes the token that it begins at. -/
  taken_turn : ∀ s ∈ turns, s.taken ++ [s.position] <+: s.turn.taken
  /-- The run ends at the first token that ends the file, or past the last token. -/
  position_last : last.position = tokens.findIdx Token.isEnd
  /-- Every token before that one which is not trivia was taken, once and in order. -/
  taken_last : last.taken = Walk.stopsBefore tokens (tokens.findIdx Token.isEnd)
  /-- What was reported are the issues of the file. -/
  reported_last : structuralIssues tokens = last.reported.map (Report.issue tokens)

namespace Progress

/-- What is newly taken and reported in turns comes later. -/
theorem isBefore_run (s : Progress) : (∀ t ∈ s.run.1, s.IsBefore t) ∧ s.IsBefore s.run.2 :=
  keeps_run (P := s.IsBefore) (fun _ hend h => h.trans (isBefore_take hend))
    (fun _ _ h => h.trans (isBefore_report _ _)) (.refl s)

theorem kind_ne_of_mem_run {s t : Progress} (h : t ∈ s.run.1) : t.kind ≠ .endOfFile := by
  fun_induction run s with
  | case1 => exact absurd h List.not_mem_nil
  | case2 s hend ih =>
    rcases List.mem_cons.1 h with rfl | h
    · exact hend
    · exact ih h

theorem runsThrough_run (tokens : List Token) :
    RunsThrough tokens (start tokens).run.1 (start tokens).run.2 := by
  have htokens : (start tokens).run.2.tokens = tokens := (isBefore_run (start tokens)).2.tokens_eq
  have htakes : (start tokens).run.2.TakesAll :=
    (keeps_run (fun _ => .take) (fun _ _ h => ⟨h.isStop, h.taken_eq⟩) (takesAll_start tokens)).2
  have hposition := htakes.isStop.position_eq (kind_run (start tokens))
  rw [htokens] at hposition
  have htaken := htakes.taken_eq
  rw [hposition, htokens] at htaken
  refine ⟨fun s hs => ?_, hposition, htaken, structuralIssues_eq_run tokens⟩
  have hend := kind_ne_of_mem_run hs
  have hturn := (isBefore_turn hend).isPrefix_taken
  rwa [take_eq hend] at hturn

end Progress

/-- **Calls keep their promise, and turns get through.**  Wherever a construct is called for, it is
matched in silence and going forward, or it is given up with one complaint and leaves the walk where
items go on; and turn after turn a file is gone through up to its end. -/
theorem promises_and_runsThrough :
    (∀ (c : Construct) (s : Progress), c.IsReady s → s.Promises (s.workOff c.parts)) ∧
      ∀ tokens, RunsThrough tokens (Progress.start tokens).run.1 (Progress.start tokens).run.2 := by
  refine ⟨fun c s h => ?_, Progress.runsThrough_run⟩
  obtain ⟨part, parts, hparts, hmove⟩ := Construct.exists_parts_eq_cons h
  rw [hparts]
  exact Progress.promises_workOff hmove

/-- Behind the name of a rule with parameters. -/
def parametersSample : Progress := (Progress.start (Document.ofText "r<T:,>=a;").tokens).take

theorem promises_parametersSample :
    Construct.parameters.IsReady parametersSample ∧
      parametersSample.Promises (parametersSample.workOff Construct.parameters.parts) := by
  have hready : Construct.parameters.IsReady parametersSample := by
    show parametersSample.kind = .leftAngle
    decide +kernel
  exact ⟨hready, promises_and_runsThrough.1 _ _ hready⟩

end GrammarPaint
