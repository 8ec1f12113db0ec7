import GrammarPaint.Token.Basic

/-!
# Walking over the tokens that matter

A walk goes through a list of tokens from left to right and stops only at tokens that are not
trivia.  The end-of-file token is a stop that is never left: taking it again and again keeps
answering its position.  A list without such a token ends in a stop past its last token, which
reads as the end of the file too.

Along the way the style of any token can be overwritten; nothing else about the tokens changes.
-/

set_option autoImplicit false
namespace GrammarPaint

/-- A list of tokens and the position of the next one that is not trivia, or past the end. -/
structure Walk where
  tokens : List Token
  position : Nat

namespace Walk

/-- The first position from `position` on that holds no trivia. -/
def nextStop (tokens : List Token) (position : Nat) : Nat :=
  position + ((tokens.drop position).takeWhile (·.kind.isTrivia)).length

/-- A walk at its first stop. -/
def start (tokens : List Token) : Walk := ⟨tokens, nextStop tokens 0⟩

/-- The token the walk stands on. -/
def next? (w : Walk) : Option Token := w.tokens[w.position]?

/-- The kind of the token the walk stands on; past the end, the end of the file. -/
def kind (w : Walk) : TokenKind := kindAt w.tokens w.position

/-- The span of the next token; past the end, the point where the last token ends. -/
def span (w : Walk) : Span :=
  match w.next? with
  | some t => t.span
  | none => .point (match w.tokens.getLast? with
    | some t => t.span.stop
    | none => 0)

/-- Whether the walk stands on the end of the file. -/
def isAtEnd (w : Walk) : Bool := w.kind == .endOfFile

/-- Take the next token: its position, and the walk at the stop after it. -/
def take (w : Walk) : Nat × Walk :=
  (w.position,
    if w.isAtEnd then w else { w with position := nextStop w.tokens (w.position + 1) })

/-- Take the next token if it is of kind `k`. -/
def takeIf (w : Walk) (k : TokenKind) : Option Nat × Walk :=
  if w.kind = k then (some w.take.1, w.take.2) else (none, w)

/-- Overwrite the style of the token at `index`. -/
def restyle (w : Walk) (index : Nat) (style : Option Style) : Walk :=
  { w with tokens := restyleAt w.tokens index style }

/-- Take the next token and give it `style`. -/
def takeStyled (w : Walk) (style : Style) : Nat × Walk :=
  (w.take.1, w.take.2.restyle w.take.1 (some style))

end Walk
end GrammarPaint
