import GrammarPaint.Lexeme.Basic
import GrammarPaint.Text.Document

/-!
# The lexical issues of a document

Lexemes know their text but not where they stand.  Placed one behind the other from the start of
the document, their faults become its lexical issues.  A brace that opens a snippet is at fault if
none of the lexemes behind it closes the snippet.

Issues come out in the order of their starts.  No two start at one place: a lexeme that begins
with a lone surrogate is an unknown character, and such a lexeme has no fault of its own.
-/

set_option autoImplicit false
namespace GrammarPaint

namespace Lexeme

/-- The number of code units that lexemes cover. -/
def totalWidth : List Lexeme → Nat
  | [] => 0
  | l :: lexemes => l.width + totalWidth lexemes

/-- Whether a lexeme opens a snippet that none of `following` closes. -/
def isUnclosed (l : Lexeme) (following : List Lexeme) : Bool :=
  l.kind == .snippetStart && following.all fun f => f.kind != .snippetEnd

/-- The issues of a lexeme that starts at `start` and stands before `following`: its own fault,
then the lone surrogates in its text.  A snippet that is not closed reaches the end. -/
def issues (l : Lexeme) (start : Nat) (following : List Lexeme) : List LexicalIssue :=
  (match l.fault with
    | some fault => [⟨fault, ⟨start, start + l.width⟩⟩]
    | none => []) ++
  (if l.isUnclosed following then
    [⟨.unclosedSnippet, ⟨start, start + l.width + totalWidth following⟩⟩] else []) ++
  (Document.loneSpans start l.points).map (⟨.loneSurrogate, ·⟩)

end Lexeme

/-- The issues of lexemes the first of which starts at `start`. -/
def placeIssues (start : Nat) : List Lexeme → List LexicalIssue
  | [] => []
  | l :: following => l.issues start following ++ placeIssues (start + l.width) following

namespace Document

/-- The lexemes of a document, which begins as grammar text. -/
def lexemes (d : Document) : List Lexeme := GrammarPaint.lexemes .grammar d.points

/-- What is wrong with the text of a document. -/
def lexicalIssues (d : Document) : List LexicalIssue := placeIssues 0 d.lexemes

/-- The lone surrogates of a document as issues. -/
def encodingIssues (d : Document) : List LexicalIssue :=
  d.loneSurrogates.map (⟨.loneSurrogate, ·⟩)

end Document
end GrammarPaint
