import GrammarPaint.Lexeme.Scan

/-!
# Scanning grammar text

Grammar text consists of words, operators, strings, character classes, spacing and comments.  A
brace opens a snippet, and what follows it is scanned by other rules
(`GrammarPaint.Lexeme.Snippet`).  A character that fits nothing is unknown, one code point at a
time.
-/

set_option autoImplicit false
namespace GrammarPaint

/-- The operators of one character.  Colons and slashes are not among them, because what follows
them matters. -/
def operatorKind? : Char → Option TokenKind
  | ';' => some .semicolon
  | '?' => some .question
  | '+' => some .plus
  | '!' => some .bang
  | '*' => some .star
  | '=' => some .equals
  | '(' => some .leftParen
  | ')' => some .rightParen
  | '<' => some .leftAngle
  | '>' => some .rightAngle
  | '&' => some .ampersand
  | ',' => some .comma
  | _ => none

/-- The word that begins with `c`. -/
def scanGrammarWord (c : Char) (rest : List CodePoint) : Scan :=
  let more := runLength isWordPart rest
  .plain (grammarWordKind (String.ofList (c :: (rest.take more).map CodePoint.char))) more

/-- What begins with `c` in grammar text.  In strings and character classes a backslash does not
carry the text over a line break. -/
def scanGrammar (c : Char) (rest : List CodePoint) : Scan :=
  if isGrammarSpace c then .plain .whitespace (runLength isGrammarSpace rest)
  else if c.isAlpha then scanGrammarWord c rest
  else match c with
    | '/' => (scanComment? .blockComment .lineComment rest).getD (.plain .slash 0)
    | '"' => (quotedExtent '"' false rest).scan .string .unclosedString
    | '[' => (quotedExtent ']' false rest).scan .characterClass .unclosedCharacterClass
    | '{' => .plain .snippetStart 0
    | ':' => if beginsWith ':' rest then .plain .doubleColon 1 else .plain .colon 0
    | c => match operatorKind? c with
      | some kind => .plain kind 0
      | none => .plain .unknown 0

end GrammarPaint
