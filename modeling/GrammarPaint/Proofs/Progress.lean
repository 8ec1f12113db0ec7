import GrammarPaint.Proofs.Parts
import GrammarPaint.Proofs.Stops

/-!
# Working parts off

A reading is told word after word what there is, and the list of the parts to come stands for all
that it has begun and not finished (`Reading.step`).  Here the same grammar is told the other way
round, as something that goes over the tokens by itself: it takes tokens, complains, and looks for a
place to go on (`Progress.recover`).  To work parts off is then like a call (`Progress.workOff`): it
comes back with the parts used up or with the item given up (`Outcome`), and what stands behind them
goes on from there (`workOff_append`).

* `keeps_workOff` — what taking a token and complaining keep, working parts off keeps;
* `exists_recover` — parts are given up where one of them refuses a token, with a single complaint;
* `promises_workOff` — **a match is silent and goes forward; what is given up was complained about
  once, and leaves the walk where items go on**.

Whole items are worked off in turns, up to the end of the file (`Progress.run`).
-/

set_option autoImplicit false
namespace GrammarPaint

/-- A complaint, and the position of the token that it was made about. -/
structure Report where
  position : Nat
  complaint : Complaint
deriving DecidableEq

/-- The issue that a report is about one of `tokens`. -/
def Report.issue (tokens : List Token) (r : Report) : StructuralIssue :=
  ⟨(Walk.mk tokens r.position).span, (Walk.mk tokens r.position).kind, r.complaint⟩

/-- How far the tokens of a file have been worked off: where the walk over them stands, the
positions of the tokens that were taken, and what was complained about. -/
structure Progress extends Walk where
  taken : List Nat
  reported : List Report

/-- What comes of parts: they are used up, or one of them refuses a token and the item is given
up. -/
inductive Outcome where
  | matched
  | recovered
deriving DecidableEq

namespace Progress

/-- Before anything is taken. -/
def start (tokens : List Token) : Progress := ⟨.start tokens, [], []⟩

/-- Take the token at hand.  The end of the file is never taken. -/
def take (s : Progress) : Progress :=
  if s.kind = .endOfFile then s
  else { s with toWalk := s.toWalk.take.2, taken := s.taken ++ [s.toWalk.take.1] }

/-- Complain about the token at hand. -/
def report (s : Progress) (complaint : Complaint) : Progress :=
  { s with reported := s.reported ++ [⟨s.position, complaint⟩] }

theorem rest_take_lt {s : Progress} (h : s.kind ≠ .endOfFile) :
    s.take.rest < s.rest := by
  rw [take, if_neg h]
  exact Walk.rest_take_lt h

theorem ne_endOfFile_of_not_mem {s : Progress} (h : s.kind ∉ itemStart) : s.kind ≠ .endOfFile :=
  fun hend => h (hend ▸ by decide)

/-- Look for a place to go on: take tokens up to one that begins an item, or up to a semicolon and
that as well. -/
def seek (s : Progress) : Progress :=
  if s.kind ∈ itemStart then s
  else if s.kind = .semicolon then s.take
  else s.take.seek
termination_by s.rest
decreasing_by
  exact rest_take_lt (ne_endOfFile_of_not_mem ‹_›)

/-- Complain about the token at hand, and look for a place to go on. -/
def recover (s : Progress) (complaint : Complaint) : Progress := (s.report complaint).seek

/-- Work parts off, one after the other.  What a part puts in its own place comes before the others,
like a call that returns to them. -/
def workOff (s : Progress) (parts : List Part) : Outcome × Progress :=
  match parts with
  | [] => (.matched, s)
  | part :: parts =>
    match _ : part.move s.word s.following with
    | .skip => s.workOff parts
    | .take _ taken => s.take.workOff (taken ++ parts)
    | .refuse complaint => (.recovered, s.recover complaint)
termination_by (s.rest, parts.length)
decreasing_by
  · exact Prod.Lex.right _ (Nat.lt_succ_self _)
  · exact Prod.Lex.left _ _ (rest_take_lt (Walk.kind_ne_of_take ‹_›))

section WorkOff

variable {s : Progress} {part : Part} {parts : List Part}

theorem workOff_of_skip (h : part.move s.word s.following = .skip) :
    s.workOff (part :: parts) = s.workOff parts := by
  rw [workOff]
  split <;> simp_all

theorem workOff_of_take {paint : Paint} {taken : List Part}
    (h : part.move s.word s.following = .take paint taken) :
    s.workOff (part :: parts) = s.take.workOff (taken ++ parts) := by
  rw [workOff]
  split <;> simp_all

theorem workOff_of_refuse {complaint : Complaint}
    (h : part.move s.word s.following = .refuse complaint) :
    s.workOff (part :: parts) = (.recovered, s.recover complaint) := by
  rw [workOff]
  split <;> simp_all

end WorkOff

/-! ## What keeps its place -/

section Keeps

variable {P : Progress → Prop} (htake : ∀ s : Progress, s.kind ≠ .endOfFile → P s → P s.take)
  (hreport : ∀ (s : Progress) complaint, P s → P (s.report complaint))
include htake

theorem keeps_take {s : Progress} (h : P s) : P s.take := by
  by_cases hend : s.kind = .endOfFile
  · rwa [take, if_pos hend]
  · exact htake s hend h

theorem keeps_seek {s : Progress} (h : P s) : P s.seek := by
  fun_induction seek s with
  | case1 => exact h
  | case2 s _ _ => exact keeps_take htake h
  | case3 s _ _ ih => exact ih (keeps_take htake h)

include hreport

theorem keeps_recover {s : Progress} (h : P s) (complaint : Complaint) : P (s.recover complaint) :=
  keeps_seek htake (hreport s complaint h)

theorem keeps_workOff {s : Progress} (h : P s) (parts : List Part) : P (s.workOff parts).2 := by
  fun_induction workOff s parts with
  | case1 => exact h
  | case2 s part parts hmove ih => exact ih h
  | case3 s part parts paint taken hmove ih => exact ih (keeps_take htake h)
  | case4 s part parts complaint hmove => exact keeps_recover htake hreport h complaint

end Keeps

/-! ## What taking and complaining leave alone -/

section Take

variable {s : Progress}

theorem take_eq (h : s.kind ≠ .endOfFile) :
    s.take = { s with toWalk := s.toWalk.take.2, taken := s.taken ++ [s.position] } := if_neg h

theorem position_lt_take (h : s.kind ≠ .endOfFile) : s.position < s.take.position := by
  rw [take_eq h]
  exact Walk.position_lt_take h

theorem tokens_take (s : Progress) : s.take.tokens = s.tokens := by
  rw [take]
  split
  · rfl
  · exact Walk.tokens_take s.toWalk

theorem reported_take (s : Progress) : s.take.reported = s.reported := by
  rw [take]
  split <;> rfl

theorem isStop_take (hend : s.kind ≠ .endOfFile) (h : s.IsStop) : s.take.IsStop := by
  rw [take_eq hend]
  exact h.take hend

end Take

theorem reported_seek (s : Progress) : s.seek.reported = s.reported := by
  fun_induction seek s with
  | case1 => rfl
  | case2 s _ _ => exact reported_take s
  | case3 s _ _ ih => rw [ih, reported_take]

theorem reported_recover (s : Progress) (complaint : Complaint) :
    (s.recover complaint).reported = s.reported ++ [⟨s.position, complaint⟩] :=
  reported_seek (s.report complaint)

/-! ## Later progress -/

/-- Later progress over the same tokens: the walk has not gone back, and what was taken stays
taken. -/
structure IsBefore (s later : Progress) : Prop where
  tokens_eq : later.tokens = s.tokens
  position_le : s.position ≤ later.position
  isPrefix_taken : s.taken <+: later.taken
  isStop : s.IsStop → later.IsStop

namespace IsBefore

variable {s later last : Progress}

theorem refl (s : Progress) : s.IsBefore s := ⟨rfl, Nat.le_refl _, List.prefix_rfl, id⟩

theorem trans (h : s.IsBefore later) (hlast : later.IsBefore last) : s.IsBefore last where
  tokens_eq := hlast.tokens_eq.trans h.tokens_eq
  position_le := Nat.le_trans h.position_le hlast.position_le
  isPrefix_taken := h.isPrefix_taken.trans hlast.isPrefix_taken
  isStop hstop := hlast.isStop (h.isStop hstop)

theorem rest_le (h : s.IsBefore later) : later.rest ≤ s.rest := by
  rw [Walk.rest, Walk.rest, h.tokens_eq]
  exact Nat.sub_le_sub_left h.position_le _

end IsBefore

theorem isBefore_take {s : Progress} (h : s.kind ≠ .endOfFile) : s.IsBefore s.take where
  tokens_eq := tokens_take s
  position_le := Nat.le_of_lt (position_lt_take h)
  isPrefix_taken := by
    rw [take_eq h]
    exact List.prefix_append _ _
  isStop := isStop_take h

theorem isBefore_report (s : Progress) (complaint : Complaint) : s.IsBefore (s.report complaint) :=
  ⟨rfl, Nat.le_refl _, List.prefix_rfl, id⟩

theorem isBefore_seek (s : Progress) : s.IsBefore s.seek :=
  keeps_seek (P := s.IsBefore) (fun _ hend h => h.trans (isBefore_take hend)) (.refl s)

/-- What begins no item is taken after a complaint. -/
theorem isBefore_take_recover {s : Progress} (h : s.kind ∉ itemStart) (complaint : Complaint) :
    s.take.IsBefore (s.recover complaint) := by
  have hend := ne_endOfFile_of_not_mem h
  have hseek : (s.report complaint).take.IsBefore (s.report complaint).seek := by
    rw [seek, if_neg (show (s.report complaint).kind ∉ itemStart from h)]
    split
    · exact .refl _
    · exact isBefore_seek _
  rw [take_eq (show (s.report complaint).kind ≠ .endOfFile from hend)] at hseek
  rw [take_eq hend]
  exact ⟨hseek.tokens_eq, hseek.position_le, hseek.isPrefix_taken, hseek.isStop⟩

/-- Nothing goes back. -/
theorem isBefore_workOff (s : Progress) (parts : List Part) : s.IsBefore (s.workOff parts).2 :=
  keeps_workOff (P := s.IsBefore) (fun _ hend h => h.trans (isBefore_take hend))
    (fun _ _ h => h.trans (isBefore_report _ _)) (.refl s) parts

/-! ## Where items go on -/

/-- Whether the last token taken, from `position` on, is a semicolon, and the walk stands right
behind it. -/
def IsBehindSemicolon (position : Nat) (s : Progress) : Prop :=
  ∃ p ∈ s.taken.getLast?, position ≤ p ∧ kindAt s.tokens p = .semicolon ∧
    s.position = Walk.nextStop s.tokens (p + 1)

/-- A place where items go on. -/
def IsPlaceToGoOn (position : Nat) (s : Progress) : Prop :=
  s.kind ∈ itemStart ∨ s.IsBehindSemicolon position

theorem IsPlaceToGoOn.mono {m n : Nat} (hle : m ≤ n) {s : Progress} (h : s.IsPlaceToGoOn n) :
    s.IsPlaceToGoOn m :=
  h.imp_right fun ⟨p, hp, hn, hbehind⟩ => ⟨p, hp, Nat.le_trans hle hn, hbehind⟩

/-- Looking for a place to go on finds one. -/
theorem isPlaceToGoOn_seek (s : Progress) : s.seek.IsPlaceToGoOn s.position := by
  fun_induction seek s with
  | case1 s h => exact .inl h
  | case2 s hstart hsemicolon =>
    have hne := ne_endOfFile_of_not_mem hstart
    refine .inr ⟨s.position, ?_, Nat.le_refl _, ?_, ?_⟩
    · rw [take_eq hne]
      exact List.getLast?_concat
    · rw [tokens_take]
      exact hsemicolon
    · rw [take_eq hne, Walk.take_eq hne]
  | case3 s hstart hsemicolon ih =>
    exact ih.mono (isBefore_take (ne_endOfFile_of_not_mem hstart)).position_le

/-! ## What working parts off promises -/

/-- Parts that are used up are used up in silence. -/
theorem reported_of_matched {s : Progress} {parts : List Part}
    (h : (s.workOff parts).1 = .matched) : (s.workOff parts).2.reported = s.reported := by
  fun_induction workOff s parts with
  | case1 => rfl
  | case2 s part parts hmove ih => exact ih h
  | case3 s part parts paint taken hmove ih => exact (ih h).trans (reported_take s)
  | case4 => cases h

/-- **Parts are given up where one of them refuses a token**: up to there all was silent, and what
follows is one complaint and the look for a place to go on. -/
theorem exists_recover {s : Progress} {parts : List Part}
    (h : (s.workOff parts).1 = .recovered) :
    ∃ site complaint, s.IsBefore site ∧ site.reported = s.reported ∧
      (s.workOff parts).2 = site.recover complaint := by
  fun_induction workOff s parts with
  | case1 => cases h
  | case2 s part parts hmove ih => exact ih h
  | case3 s part parts paint taken hmove ih =>
    obtain ⟨site, complaint, hbefore, hreported, hlater⟩ := ih h
    exact ⟨site, complaint, (isBefore_take (Walk.kind_ne_of_take hmove)).trans hbefore,
      hreported.trans (reported_take s), hlater⟩
  | case4 s part parts complaint hmove => exact ⟨s, complaint, .refl s, rfl, rfl⟩

/-- Parts the first of which does something with the token at hand go forward. -/
theorem position_lt_of_matched {s : Progress} {part : Part} {parts : List Part}
    (hpart : part.move s.word s.following ≠ .skip)
    (h : (s.workOff (part :: parts)).1 = .matched) :
    s.position < (s.workOff (part :: parts)).2.position := by
  cases hmove : part.move s.word s.following with
  | skip => exact absurd hmove hpart
  | take paint taken =>
    rw [workOff_of_take hmove]
    exact Nat.lt_of_lt_of_le (position_lt_take (Walk.kind_ne_of_take hmove))
      (isBefore_workOff s.take (taken ++ parts)).position_le
  | refuse complaint =>
    rw [workOff_of_refuse hmove] at h
    cases h

/-- What is promised of an outcome: nothing goes back; a match is silent and goes forward; and what
is given up was complained about once and leaves the walk where items go on. -/
def Promises (s : Progress) (result : Outcome × Progress) : Prop :=
  s.IsBefore result.2 ∧
    match result.1 with
    | .matched => result.2.reported = s.reported ∧ s.position < result.2.position
    | .recovered => (∃ report, result.2.reported = s.reported ++ [report]) ∧
      result.2.IsPlaceToGoOn s.position

/-- **Parts keep the promise** if the first of them does something with the token at hand. -/
theorem promises_workOff {s : Progress} {part : Part} {parts : List Part}
    (hpart : part.move s.word s.following ≠ .skip) :
    s.Promises (s.workOff (part :: parts)) := by
  refine ⟨isBefore_workOff s _, ?_⟩
  split
  · rename_i houtcome
    exact ⟨reported_of_matched houtcome, position_lt_of_matched hpart houtcome⟩
  · rename_i houtcome
    obtain ⟨site, complaint, hbefore, hreported, hlater⟩ := exists_recover houtcome
    rw [hlater]
    refine ⟨⟨⟨site.position, complaint⟩, ?_⟩, ?_⟩
    · rw [reported_recover, hreported]
    · exact (isPlaceToGoOn_seek (site.report complaint)).mono hbefore.position_le

/-- Parts behind others are worked off when these are used up, as a call returns to where it was
made. -/
theorem workOff_append (s : Progress) (a b : List Part) :
    s.workOff (a ++ b) = match s.workOff a with
      | (.matched, later) => later.workOff b
      | (.recovered, later) => (.recovered, later) := by
  fun_induction workOff s a with
  | case1 => rfl
  | case2 s part parts hmove ih => rw [List.cons_append, workOff_of_skip hmove, ih]
  | case3 s part parts paint taken hmove ih =>
    rw [List.cons_append, workOff_of_take hmove, ← List.append_assoc, ih]
  | case4 s part parts complaint hmove => rw [List.cons_append, workOff_of_refuse hmove]

/-! ## Turns -/

/-- One turn: the item that begins here, or a complaint that none does. -/
def turn (s : Progress) : Progress :=
  match s.word.item? with
  | some (_, parts) => (s.take.workOff parts).2
  | none => s.recover ⟨.rule, {.identifier}⟩

theorem item?_eq_none_iff {w : Word} :
    w.item? = none ↔ w.kind ∉ itemStart ∨ w.kind = .endOfFile := by
  rw [← Option.map_eq_none_iff (f := Prod.snd), map_snd_item?]
  generalize w.kind = k
  cases k <;> decide

/-- **A turn takes the token that it begins at.** -/
theorem isBefore_turn {s : Progress} (h : s.kind ≠ .endOfFile) : s.take.IsBefore s.turn := by
  rw [turn]
  split
  · exact isBefore_workOff s.take _
  · rename_i hitem
    rw [item?_eq_none_iff, Walk.kind_word] at hitem
    exact isBefore_take_recover (hitem.resolve_right h) _

theorem rest_turn_lt {s : Progress} (h : s.kind ≠ .endOfFile) : s.turn.rest < s.rest :=
  Nat.lt_of_le_of_lt (isBefore_turn h).rest_le (rest_take_lt h)

/-- Turn after turn up to the end of the file: where the turns begin, and where it all ends. -/
def run (s : Progress) : List Progress × Progress :=
  if s.kind = .endOfFile then ([], s)
  else (s :: s.turn.run.1, s.turn.run.2)
termination_by s.rest
decreasing_by all_goals exact rest_turn_lt ‹_›

theorem kind_run (s : Progress) : s.run.2.kind = .endOfFile := by
  fun_induction run s with
  | case1 s h => exact h
  | case2 s h ih => exact ih

section Run

variable {P : Progress → Prop} (htake : ∀ s : Progress, s.kind ≠ .endOfFile → P s → P s.take)
  (hreport : ∀ (s : Progress) complaint, P s → P (s.report complaint))
include htake hreport

theorem keeps_turn {s : Progress} (h : P s) : P s.turn := by
  rw [turn]
  split
  · exact keeps_workOff htake hreport (keeps_take htake h) _
  · exact keeps_recover htake hreport h _

theorem keeps_run {s : Progress} (h : P s) : (∀ t ∈ s.run.1, P t) ∧ P s.run.2 := by
  fun_induction run s with
  | case1 s hend => exact ⟨List.forall_mem_nil _, h⟩
  | case2 s hend ih =>
    obtain ⟨hturns, hlast⟩ := ih (keeps_turn htake hreport h)
    exact ⟨List.forall_mem_cons.2 ⟨h, hturns⟩, hlast⟩

end Run

end Progress
end GrammarPaint
