import GrammarPaint.Text.CodePoint

/-!
# Punctuators of embedded code

Most punctuators are operators, and which one it is depends on up to three characters.  They are
looked up in a table (`codeOperators`) that has the longer ones first, so that the first hit is the
longest.  There is one exception.  After `<`, the pair `::` is read as one piece, so that a global
name can be a template argument: `<::` is `<` before `::`, although `<:` is an operator too.  The
exception ends where the next character shows that no name follows: `<:::` and `<::>` begin with
`<:`.

All punctuators together, those that are no operators included, are `punctuators`, and
`punctuatorLength` says which of them a text begins with in terms of that one list.
-/

set_option autoImplicit false
namespace GrammarPaint

/-! ## Operators -/

/-- The operators of embedded code, the longer ones first. -/
def codeOperators : List (List Char) :=
  [['<', '<', '='], ['>', '>', '='], ['-', '>', '*'],
    ['<', ':'], ['<', '%'], ['<', '<'], ['<', '='], [':', '>'], [':', ':'], ['%', '>'],
    ['%', ':'], ['%', '='], ['+', '='], ['+', '+'], ['-', '='], ['-', '-'], ['-', '>'],
    ['*', '='], ['^', '='], ['&', '&'], ['&', '='], ['|', '|'], ['|', '='], ['!', '='],
    ['=', '='], ['>', '>'], ['>', '='],
    ['<'], ['>'], [':'], ['%'], ['+'], ['-'], ['*'], ['^'], ['&'], ['|'], ['!'], ['=']]

/-- Whether an operator begins with `c`. -/
def opensCodeOperator (c : Char) : Bool :=
  ['<', '>', ':', '%', '+', '-', '*', '^', '&', '|', '!', '='].contains c

/-- Whether the text begins with a `<` that stands before a global name. -/
def opensGlobalName : List Char → Bool
  | '<' :: ':' :: ':' :: after => !(after.head? == some ':' || after.head? == some '>')
  | _ => false

/-- The character `n` places behind the first one of a text that goes on with `rest`: U+0000 where
the text is over. -/
def charBehind (rest : List CodePoint) (n : Nat) : Char :=
  match rest[n]? with
  | some p => p.char
  | none => '\x00'

/-- The length of the operator that begins with the four characters `ahead`. -/
def codeOperatorLength (ahead : List Char) : Nat :=
  if opensGlobalName ahead then 1
  else
    match codeOperators.find? fun w => (w.zip ahead).all fun x => x.1 == x.2 with
    | some w => w.length
    | none => 1

/-! ## All punctuators -/

/-- Every punctuator of embedded code: the operators, and those that have a scan of their own. -/
def punctuators : List (List Char) :=
  codeOperators ++
    [['.', '.', '.'], ['.', '*'], ['.'], ['/', '='], ['/'], ['#', '#'], ['#'],
      ['['], [']'], ['('], [')'], [','], [';'], ['?'], ['~'], ['{'], ['}']]

/-- No punctuator is longer than this. -/
def longestPunctuator : Nat := 3

/-- The length of the punctuator that a text begins with, 0 if it begins with none: the longest one,
or `<` alone before a global name. -/
def punctuatorLength (text : List Char) : Nat :=
  if opensGlobalName text then 1
  else ((punctuators.filter (·.isPrefixOf text)).map List.length).foldl max 0

theorem length_le_longestPunctuator : ∀ p ∈ punctuators, p.length ≤ longestPunctuator := by
  decide

theorem length_punctuator_pos : ∀ p ∈ punctuators, 0 < p.length := by decide

end GrammarPaint
