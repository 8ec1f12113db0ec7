import GrammarPaint.Item.Part

/-!
# Reading items

A reading goes through words from left to right and gives a verdict on each: how it is painted,
and whether there is a complaint about it.  Between two words it either expects the parts of the
current item that are still to come, or it is skipping words after a complaint.

A complaint gives up the current item.  The reading then looks for a place to go on: in front of a
word that begins an item, or behind a semicolon.  It may find one at the very word it complained
about.

Every word gets exactly one verdict (`length_read`) and the reading never looks back, so whatever
is said about a word depends on the words before it, on the word itself and on the kind of the
next.  What a step can do is said once (`settle_ok_cases`, `settle_error_cases`), and what every step
keeps, a reading keeps (`forall_read`, `exists_step_of_read`).
-/

set_option autoImplicit false
namespace GrammarPaint

/-- How a word is painted, and what is wrong with it. -/
structure Verdict where
  paint : Paint
  complaint : Option Complaint
deriving DecidableEq, Repr

/-- Where a reading stands between two words. -/
inductive Reading where
  /-- These parts of the current item are still to come; without any, a new item is. -/
  | expecting (parts : List Part)
  /-- Looking for a place to go on. -/
  | skipping
deriving DecidableEq, Repr

/-- What the first of `parts` that does not skip the word `w` makes of it: its paint and the parts
that are then still to come, or a complaint.  If all of them skip it, the item is complete and the
word has to begin another. -/
def settle (w : Word) (following : TokenKind) : List Part → Except Complaint (Paint × List Part)
  | [] => match w.item? with
    | some begun => .ok begun
    | none => .error ⟨.rule, {.identifier}⟩
  | part :: parts => match part.move w following with
    | .skip => settle w following parts
    | .take paint taken => .ok (paint, taken ++ parts)
    | .refuse complaint => .error complaint

section Settle

variable {w : Word} {following : TokenKind} {parts : List Part}

/-- Where a word is settled, a part takes it that all parts before it leave it to, or all parts do
and it begins an item. -/
theorem settle_ok_cases {settled : Paint × List Part}
    (h : settle w following parts = .ok settled) :
    ((∀ part ∈ parts, part.move w following = .skip) ∧ w.item? = some settled) ∨
      ∃ skipped part rest taken, parts = skipped ++ part :: rest ∧
        (∀ part ∈ skipped, part.move w following = .skip) ∧
        part.move w following = .take settled.1 taken ∧ settled.2 = taken ++ rest := by
  induction parts with
  | nil =>
    rw [settle] at h
    split at h
    · cases h
      exact .inl ⟨List.forall_mem_nil _, ‹_›⟩
    · cases h
  | cons part parts ih =>
    rw [settle] at h
    split at h
    · rename_i hskip
      rcases ih h with ⟨hparts, hitem⟩ | ⟨skipped, next, rest, taken, rfl, hskipped, hnext, hrest⟩
      · exact .inl ⟨List.forall_mem_cons.2 ⟨hskip, hparts⟩, hitem⟩
      · exact .inr ⟨part :: skipped, next, rest, taken, rfl,
          List.forall_mem_cons.2 ⟨hskip, hskipped⟩, hnext, hrest⟩
    · cases h
      exact .inr ⟨[], part, parts, _, rfl, List.forall_mem_nil _, ‹_›, rfl⟩
    · cases h

/-- Where a word is complained about, a part refuses it that all parts before it leave it to, or all
parts do and it begins no item. -/
theorem settle_error_cases {complaint : Complaint}
    (h : settle w following parts = .error complaint) :
    ((∀ part ∈ parts, part.move w following = .skip) ∧ w.item? = none ∧
        complaint = ⟨.rule, {.identifier}⟩) ∨
      ∃ skipped part rest, parts = skipped ++ part :: rest ∧
        (∀ part ∈ skipped, part.move w following = .skip) ∧
        part.move w following = .refuse complaint := by
  induction parts with
  | nil =>
    rw [settle] at h
    split at h
    · cases h
    · cases h
      exact .inl ⟨List.forall_mem_nil _, ‹_›, rfl⟩
  | cons part parts ih =>
    rw [settle] at h
    split at h
    · rename_i hskip
      rcases ih h with ⟨hparts, hitem⟩ | ⟨skipped, next, rest, rfl, hskipped, hnext⟩
      · exact .inl ⟨List.forall_mem_cons.2 ⟨hskip, hparts⟩, hitem⟩
      · exact .inr ⟨part :: skipped, next, rest, rfl,
          List.forall_mem_cons.2 ⟨hskip, hskipped⟩, hnext⟩
    · cases h
    · cases h
      exact .inr ⟨[], part, parts, rfl, List.forall_mem_nil _, ‹_›⟩

end Settle

/-- What is missing if there are no more words. -/
def missing : List Part → Option Complaint
  | [] => none
  | part :: parts => match part.move .ending .endOfFile with
    | .refuse complaint => some complaint
    | _ => missing parts

/-- What is missing at the end is missing to one of the parts. -/
theorem exists_refuse_of_missing {parts : List Part} {complaint : Complaint}
    (h : missing parts = some complaint) :
    ∃ part ∈ parts, part.move .ending .endOfFile = .refuse complaint := by
  induction parts with
  | nil => cases h
  | cons part parts ih =>
    rw [missing] at h
    split at h
    · cases h
      exact ⟨part, List.mem_cons_self, ‹_›⟩
    · obtain ⟨next, hnext, hrefuse⟩ := ih h
      exact ⟨next, List.mem_cons_of_mem part hnext, hrefuse⟩

/-- Look for a place to go on: begin the item that begins with `w`, or leave `w` out. -/
def resume (w : Word) : Paint × Reading :=
  match w.item? with
  | some (paint, parts) => (paint, .expecting parts)
  | none => (.keep, if w.kind = .semicolon then .expecting [] else .skipping)

namespace Reading

/-- A reading that has seen nothing. -/
def start : Reading := expecting []

/-- The verdict on a word, and the reading behind it. -/
def step (r : Reading) (w : Word) (following : TokenKind) : Verdict × Reading :=
  match r with
  | expecting parts => match settle w following parts with
    | .ok (paint, parts) => (⟨paint, none⟩, expecting parts)
    | .error complaint => (⟨(resume w).1, some complaint⟩, (resume w).2)
  | skipping => (⟨(resume w).1, none⟩, (resume w).2)

/-- The complaint about the end of the file, if an item is not complete there. -/
def complaintAtEnd : Reading → Option Complaint
  | expecting parts => missing parts
  | skipping => none

end Reading

/-- The kind of the first of `words`; where there is none, the end of the file. -/
def firstKind : List Word → TokenKind
  | [] => .endOfFile
  | w :: _ => w.kind

/-- The verdicts on words, and the reading behind the last one. -/
def Reading.read (r : Reading) : List Word → List Verdict × Reading
  | [] => ([], r)
  | w :: words =>
    let here := r.step w (firstKind words)
    let later := here.2.read words
    (here.1 :: later.1, later.2)

/-- **What every step keeps, a reading keeps**, and what a step says about the verdict it gives holds
of every verdict. -/
theorem forall_read {I : Reading → Prop} {P : Word → Verdict → Prop}
    (hstep : ∀ r w following, I r → P w (r.step w following).1 ∧ I (r.step w following).2)
    {r : Reading} (h : I r) (words : List Word) :
    (∀ p ∈ words.zip (r.read words).1, P p.1 p.2) ∧ I (r.read words).2 := by
  induction words generalizing r with
  | nil => exact ⟨List.forall_mem_nil _, h⟩
  | cons w words ih =>
    obtain ⟨hverdict, hnext⟩ := hstep r w (firstKind words) h
    obtain ⟨hwords, hlast⟩ := ih hnext
    exact ⟨List.forall_mem_cons.2 ⟨hverdict, hwords⟩, hlast⟩

/-- **What every step keeps holds of the reading at each word.**  Here `P` speaks of the last word
that was read and of the reading behind it. -/
theorem exists_step_of_read {P : Option Word → Reading → Prop}
    (hstep : ∀ last r w following, P last r → P (some w) (r.step w following).2)
    {last : Option Word} {r : Reading} (h : P last r) (front : List Word) (w : Word)
    (back : List Word) :
    ∃ here, P (front.getLast?.or last) here ∧
      (r.read (front ++ w :: back)).1[front.length]? = some (here.step w (firstKind back)).1 := by
  induction front generalizing last r with
  | nil => exact ⟨r, h, rfl⟩
  | cons v front ih =>
    obtain ⟨here, hhere, hverdict⟩ := ih (hstep last r v (firstKind (front ++ w :: back)) h)
    refine ⟨here, ?_, hverdict⟩
    rw [List.getLast?_cons]
    cases hfront : front.getLast? <;> rwa [hfront] at hhere

theorem length_read (r : Reading) (words : List Word) :
    (r.read words).1.length = words.length := by
  induction words generalizing r with
  | nil => rfl
  | cons w words ih => simp [Reading.read, ih]

end GrammarPaint
