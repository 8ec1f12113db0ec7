import GrammarPaint.Span
import GrammarPaint.Text.Quoted
import GrammarPaint.Token.Kind

/-!
# Tokens

A token is a kind, the name it spells if it is a name, the span it covers and the style it is
shown in.  Only the style ever changes after a token is made, and `Token.restyle` is the one
operation that changes it.

A document's tokens are a plain list.  The second half of the file is what is asked of such a
list by position: `kindAt`, which reads past the end as the end of the file, `tokenAt`, which
refuses to, and `restyleAt`, which ignores positions past the end.
-/

set_option autoImplicit false
namespace GrammarPaint

/-- A token.  Exactly the tokens whose kind is a name carry one. -/
structure Token where
  kind : TokenKind
  name : Option String
  span : Span
  style : Option Style
  isSome_name : name.isSome = kind.isName
deriving DecidableEq

namespace Token

/-- The token of a given kind that covers `span` and is spelled `spelling`; the spelling is kept
for names alone. -/
def spelled (kind : TokenKind) (spelling : String) (span : Span) (style : Option Style) :
    Token where
  kind := kind
  name := if kind.isName then some spelling else none
  span := span
  style := style
  isSome_name := by split <;> simp_all

/-- The empty token that ends a document of `length` code units. -/
def endOfFile (length : Nat) : Token := spelled .endOfFile "" (.point length) none

/-- The token in another style. -/
def restyle (t : Token) (style : Option Style) : Token := { t with style }

/-- Whether a token ends the file. -/
def isEnd (t : Token) : Bool := t.kind == .endOfFile

theorem restyle_restyle (t : Token) (a b : Option Style) :
    (t.restyle a).restyle b = t.restyle b := rfl

theorem restyle_style (t : Token) : t.restyle t.style = t := rfl

/-- A token in a dump: its label, its name in quotes if it has one, its span, and its style if it
has one. -/
def dump (t : Token) : String :=
  let label := match t.name with
    | some name => t.kind.label ++ "(" ++ quoted name ++ ")"
    | none => t.kind.label
  let style := match t.style with
    | some s => " [" ++ s.name ++ "]"
    | none => ""
  label ++ " @ " ++ toString t.span ++ style

end Token

/-! ## Tokens by position -/

/-- A position past the end of a list of tokens. -/
structure OutOfBounds where
  index : Nat
  size : Nat
deriving DecidableEq, Repr

/-- The size of the list and the position past it. -/
def OutOfBounds.message (e : OutOfBounds) : String :=
  s!"index out of bounds: the len is {e.size} but the index is {e.index}"

/-- The token at `index`. -/
def tokenAt (tokens : List Token) (index : Nat) : Except OutOfBounds Token :=
  match tokens[index]? with
  | some t => .ok t
  | none => .error ⟨index, tokens.length⟩

/-- The kind of the token at `index`; past the end, the end of the file. -/
def kindAt (tokens : List Token) (index : Nat) : TokenKind :=
  match tokens[index]? with
  | some t => t.kind
  | none => .endOfFile

/-- The tokens with the style of the one at `index` overwritten; past the end nothing
happens. -/
def restyleAt (tokens : List Token) (index : Nat) (style : Option Style) : List Token :=
  tokens.modify index (·.restyle style)

/-- A list of tokens as one line of text. -/
def dumpTokens (tokens : List Token) : String :=
  "[" ++ ", ".intercalate (tokens.map Token.dump) ++ "]"

theorem tokenAt_eq_ok_iff {tokens : List Token} {index : Nat} {t : Token} :
    tokenAt tokens index = .ok t ↔ tokens[index]? = some t := by
  rw [tokenAt]
  split <;> simp_all

theorem length_restyleAt (tokens : List Token) (index : Nat) (style : Option Style) :
    (restyleAt tokens index style).length = tokens.length := List.length_modify _ _ _

end GrammarPaint
