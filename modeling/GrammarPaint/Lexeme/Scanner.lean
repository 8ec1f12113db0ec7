import GrammarPaint.Lexeme.Basic
import GrammarPaint.Text.Document
import GrammarPaint.Token.Basic

/-!
# The scan of a document

A scan goes over the code points of a document and hands out a token for every lexeme, in the style
of its kind.  It goes on from what it is in the middle of (`Mode`), which is all it takes to tell
lexemes apart.

One thing shows too late for that.  Whether a `#` begins a directive is up to the word behind it,
and by then the token of the `#` has been handed out.  So a scan keeps the place of the last `#` of
its snippet, and the name of a directive writes the style of keywords there
(`Scanner.markPound`).
-/

set_option autoImplicit false
namespace GrammarPaint

/-- A scan that is under way. -/
structure Scanner where
  /-- What it is in the middle of. -/
  mode : Mode
  /-- The number of code units behind it. -/
  position : Nat
  /-- The place of the last `#` of the snippet among the tokens. -/
  lastPound : Option Nat
  /-- The tokens so far. -/
  tokens : Array Token

/-- Whether nothing but a `#` comes before this on a line of code. -/
def Mode.isAfterPound : Mode → Bool
  | snippet _ .afterPound => true
  | _ => false

/-- Whether a lexeme is a `#` that is all of a punctuator. -/
def Lexeme.isPound (l : Lexeme) : Bool := l.kind == .codePunctuator && l.text == ['#']

namespace Scanner

/-- A document begins as grammar text. -/
def start : Scanner := ⟨.grammar, 0, none, #[]⟩

/-- The tokens with the last `#` in the style of keywords. -/
def markPound (s : Scanner) : Array Token :=
  match s.lastPound with
  | some place => s.tokens.modify place (·.restyle (some .keyword))
  | none => s.tokens

/-- The scan behind one more lexeme.  Directly behind a `#` that is the first on its line, keywords
are the names of directives. -/
def push (s : Scanner) (l : Lexeme) : Scanner where
  mode := s.mode.after l.kind l.text
  position := s.position + l.width
  lastPound :=
    if l.kind = .snippetStart then none
    else if l.isPound then some s.tokens.size
    else s.lastPound
  tokens :=
    (if s.mode.isAfterPound ∧ l.kind = .codeKeyword then s.markPound else s.tokens).push
      (.spelled l.kind (spell l.points) ⟨s.position, s.position + l.width⟩ l.kind.style?)

/-- The scan behind a text of which the first `covered` code points belong to a lexeme that is
behind the scan already. -/
def run (s : Scanner) (covered : Nat) : List CodePoint → Scanner
  | [] => s
  | p :: rest =>
    match covered with
    | covered + 1 => s.run covered rest
    | 0 =>
      let l := firstLexeme s.mode p rest
      (s.push l).run (l.points.length - 1) rest

/-- All tokens, with the one that ends the file. -/
def finish (s : Scanner) : List Token := (s.tokens.push (.endOfFile s.position)).toList

end Scanner

/-- The tokens of a document, styled by kind. -/
def Document.tokens (d : Document) : List Token := (Scanner.start.run 0 d.points).finish

end GrammarPaint
