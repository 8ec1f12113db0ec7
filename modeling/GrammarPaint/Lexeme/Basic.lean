import GrammarPaint.Lexeme.Grammar
import GrammarPaint.Lexeme.Snippet

/-!
# Lexemes

A document falls into lexemes: stretches of text that are one word, one operator, one comment and
so on.  What a character begins depends on the `Mode` the scan is in, and the mode after a lexeme
is a function of the mode before it and of the lexeme alone.  So it takes no memory beside the mode
to tell lexemes apart, and the mode at any lexeme can be read off the lexemes before it.

The main statements are

* `flatMap_points_lexemes` — **lexemes cover the text**, without gaps and in order;
* `points_ne_nil_of_mem` — no lexeme is empty.
-/

set_option autoImplicit false
namespace GrammarPaint

/-! ## Modes -/

/-- What the scan is in the middle of: grammar text, or a snippet with `nesting` open braces
beside its own, at some place on a line of code. -/
inductive Mode where
  | grammar
  | snippet (nesting : Nat) (line : LineState)
deriving DecidableEq, Repr

/-- The place on a line after a lexeme.  Spacing without line breaks and block comments leave it
as it is. -/
def LineState.after (line : LineState) (kind : TokenKind) (text : List Char) : LineState :=
  match kind with
  | .whitespace => if text.any isLineBreak then .atStart else line
  | .codeBlockComment => line
  | .codePunctuator => if line = .atStart ∧ text = ['#'] then .afterPound else .inside
  | .codeKeyword =>
    if line = .afterPound ∧ String.ofList text = "include" then .afterInclude else .inside
  | _ => .inside

/-- The number of open braces after a lexeme of a snippet, the snippet's own apart. -/
def nestingAfter (nesting : Nat) (kind : TokenKind) (text : List Char) : Nat :=
  if kind = .codePunctuator ∧ text = ['{'] then nesting + 1
  else if kind = .codePunctuator ∧ text = ['}'] then nesting - 1
  else nesting

namespace Mode

/-- The number of open braces: none in grammar text. -/
def depth : Mode → Nat
  | grammar => 0
  | snippet nesting _ => nesting + 1

/-- What begins with `c`. -/
def scan : Mode → Char → List CodePoint → Scan
  | grammar => scanGrammar
  | snippet nesting line => scanCode nesting line

/-- The mode after a lexeme. -/
def after : Mode → TokenKind → List Char → Mode
  | grammar, kind, _ => if kind = .snippetStart then snippet 0 .atStart else grammar
  | snippet nesting line, kind, text =>
    if kind = .snippetEnd then grammar
    else snippet (nestingAfter nesting kind text) (line.after kind text)

end Mode

/-! ## Lexemes -/

/-- A stretch of text that is one thing, and the mode it was met in. -/
structure Lexeme where
  kind : TokenKind
  points : List CodePoint
  fault : Option LexicalFault
  mode : Mode
deriving DecidableEq, Repr

namespace Lexeme

/-- The characters of a lexeme. -/
def text (l : Lexeme) : List Char := l.points.map CodePoint.char

/-- The number of code units a lexeme covers. -/
def width (l : Lexeme) : Nat := CodePoint.totalWidth l.points

/-- The mode after a lexeme. -/
def next (l : Lexeme) : Mode := l.mode.after l.kind l.text

end Lexeme

/-- The lexeme that begins with `p`. -/
def firstLexeme (m : Mode) (p : CodePoint) (rest : List CodePoint) : Lexeme :=
  let s := m.scan p.char rest
  ⟨s.kind, p :: rest.take s.more, s.fault, m⟩

/-- The lexemes of a text of which the first `covered` code points belong to a lexeme that has
begun already. -/
def lexemesFrom (m : Mode) (covered : Nat) : List CodePoint → List Lexeme
  | [] => []
  | p :: rest =>
    match covered with
    | covered + 1 => lexemesFrom m covered rest
    | 0 =>
      let l := firstLexeme m p rest
      l :: lexemesFrom l.next (l.points.length - 1) rest

/-- The lexemes of a text. -/
def lexemes (m : Mode) (points : List CodePoint) : List Lexeme := lexemesFrom m 0 points

/-! ## Lexemes cover the text -/

theorem lexemesFrom_eq_drop (m : Mode) (covered : Nat) (points : List CodePoint) :
    lexemesFrom m covered points = lexemes m (points.drop covered) := by
  induction points generalizing covered with
  | nil => simp [lexemes, lexemesFrom]
  | cons p rest ih =>
    cases covered with
    | zero => rfl
    | succ covered => simpa [lexemesFrom] using ih covered

/-- Scanning goes on behind the first lexeme, in the mode that the lexeme leaves. -/
theorem lexemes_cons (m : Mode) (p : CodePoint) (rest : List CodePoint) :
    lexemes m (p :: rest) =
      firstLexeme m p rest ::
        lexemes (firstLexeme m p rest).next
          (rest.drop ((firstLexeme m p rest).points.length - 1)) := by
  rw [lexemes, lexemesFrom]
  simp only [lexemesFrom_eq_drop]

theorem points_firstLexeme_append (m : Mode) (p : CodePoint) (rest : List CodePoint) :
    (firstLexeme m p rest).points ++ rest.drop ((firstLexeme m p rest).points.length - 1) =
      p :: rest := by
  simp only [firstLexeme, List.cons_append, List.length_cons, List.length_take, Nat.add_sub_cancel,
    List.cons.injEq, true_and]
  rcases Nat.le_total (m.scan p.char rest).more rest.length with h | h
  · rw [Nat.min_eq_left h, List.take_append_drop]
  · rw [Nat.min_eq_right h, List.take_of_length_le h, List.drop_length, List.append_nil]

/-- **Lexemes cover the text.** -/
theorem flatMap_points_lexemes (m : Mode) (points : List CodePoint) :
    (lexemes m points).flatMap Lexeme.points = points := by
  match points with
  | [] => rfl
  | p :: rest =>
    rw [lexemes_cons, List.flatMap_cons, flatMap_points_lexemes, points_firstLexeme_append]
termination_by points.length

theorem points_ne_nil_of_mem {m : Mode} {points : List CodePoint} {l : Lexeme}
    (h : l ∈ lexemes m points) : l.points ≠ [] := by
  match points with
  | [] => exact absurd h List.not_mem_nil
  | p :: rest =>
    rw [lexemes_cons, List.mem_cons] at h
    rcases h with rfl | h
    · exact List.cons_ne_nil _ _
    · exact points_ne_nil_of_mem h
termination_by points.length

end GrammarPaint
