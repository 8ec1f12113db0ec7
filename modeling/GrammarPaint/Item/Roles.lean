import GrammarPaint.Item.Reading
import GrammarPaint.Token.Basic

/-!
# The roles of tokens

The tokens of a document come styled by kind alone: a name is a name.  Reading the items among
them tells a rule from a type and a parameter from a result, and `assignRoles` repaints the tokens
accordingly.  `structuralIssues` lists what the reading complains about.

The reading sees the tokens that are not trivia, up to the end of the file (`visible`).  It does
not see styles, so it comes to the same result however the tokens are styled, and it is only the
style of tokens that is changed (`kind_assignRoles`).

Any list of tokens can be read, whether or not it is the tokens of a document.  If no token ends
the file, the file ends where the last token does.
-/

set_option autoImplicit false
namespace GrammarPaint

/-- What the reading sees of a token. -/
def Token.word (t : Token) : Word := ⟨t.kind, t.name⟩

/-- The token after painting. -/
def Paint.apply (p : Paint) (t : Token) : Token :=
  match p with
  | keep => t
  | set style => t.restyle style

/-- The tokens that a reading sees. -/
def visible (tokens : List Token) : List Token :=
  (tokens.takeWhile fun t => !t.isEnd).filter fun t => !t.kind.isTrivia

/-- Where the file ends: at the first token that says so, or else where the last token ends. -/
def endSpan (tokens : List Token) : Span :=
  match tokens.find? Token.isEnd with
  | some t => t.span
  | none => match tokens.getLast? with
    | some t => .point t.span.stop
    | none => .point 0

/-- The verdicts on the visible tokens, and the reading behind the last one. -/
def readItems (tokens : List Token) : List Verdict × Reading :=
  Reading.start.read ((visible tokens).map Token.word)

/-- The tokens with the visible ones painted in turn. -/
def paintVisible : List Paint → List Token → List Token
  | paint :: paints, t :: tokens =>
    if t.kind.isTrivia then t :: paintVisible (paint :: paints) tokens
    else paint.apply t :: paintVisible paints tokens
  | _, tokens => tokens

/-- The tokens, repainted by the roles they play in the items of the file. -/
def assignRoles (tokens : List Token) : List Token :=
  paintVisible ((readItems tokens).1.map Verdict.paint) tokens

/-- What is wrong with the items of the file, in order. -/
def structuralIssues (tokens : List Token) : List StructuralIssue :=
  let read := readItems tokens
  ((visible tokens).zip read.1).filterMap
      (fun p => p.2.complaint.map (⟨p.1.span, p.1.kind, ·⟩)) ++
    (read.2.complaintAtEnd.map (⟨endSpan tokens, .endOfFile, ·⟩)).toList

/-- **What every step keeps, the reading of tokens keeps**, and what a step says about the verdict it
gives holds of the verdict on every visible token. -/
theorem forall_readItems {I : Reading → Prop} {P : Word → Verdict → Prop}
    (hstep : ∀ r w following, I r → P w (r.step w following).1 ∧ I (r.step w following).2)
    (hstart : I .start) (tokens : List Token) :
    (∀ p ∈ (visible tokens).zip (readItems tokens).1, P p.1.word p.2) ∧ I (readItems tokens).2 := by
  obtain ⟨hwords, hlast⟩ := forall_read hstep hstart ((visible tokens).map Token.word)
  rw [List.zip_map_left] at hwords
  exact ⟨fun p hp => hwords _ (List.mem_map_of_mem hp), hlast⟩

theorem length_readItems (tokens : List Token) :
    (readItems tokens).1.length = (visible tokens).length := by
  rw [readItems, length_read, List.length_map]

theorem kind_apply (p : Paint) (t : Token) : (p.apply t).kind = t.kind := by cases p <;> rfl

theorem map_kind_paintVisible (paints : List Paint) (tokens : List Token) :
    (paintVisible paints tokens).map Token.kind = tokens.map Token.kind := by
  fun_induction paintVisible paints tokens <;> simp_all [kind_apply]

theorem length_paintVisible (paints : List Paint) (tokens : List Token) :
    (paintVisible paints tokens).length = tokens.length := by
  have hkinds := congrArg List.length (map_kind_paintVisible paints tokens)
  rwa [List.length_map, List.length_map] at hkinds

theorem kind_assignRoles (tokens : List Token) :
    (assignRoles tokens).map Token.kind = tokens.map Token.kind :=
  map_kind_paintVisible _ _

end GrammarPaint
