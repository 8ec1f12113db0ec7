import GrammarPaint.Lexeme.Number
import GrammarPaint.Lexeme.Punctuator
import GrammarPaint.Lexeme.Scan

/-!
# Scanning snippets

Between braces stands code in the style of C and C++.  What a character begins there depends on
two things about what came before it: how many braces are open inside the snippet, which tells
the brace that closes it from the others, and where on a line of code the scan is (`LineState`),
which tells directives and header names from ordinary code.
-/

set_option autoImplicit false
namespace GrammarPaint

/-- Where on a line of code the scan is.  Spacing within the line and block comments do not
count. -/
inductive LineState where
  /-- Nothing has been met yet on this line, or in this snippet. -/
  | atStart
  /-- Nothing but a `#`. -/
  | afterPound
  /-- Nothing but a `#` and the word `include`. -/
  | afterInclude
  /-- Anything else. -/
  | inside
deriving DecidableEq, Repr

/-! ## Literals -/

/-- The number of code points of a suffix, such as a unit, directly behind a literal. -/
def suffixLength (rest : List CodePoint) : Nat :=
  match rest with
  | [] => 0
  | p :: _ => if isCodeWordStart p.char then runLength isWordPart rest else 0

/-- An extent, and if it is closed the suffix behind it. -/
def Extent.withSuffix (e : Extent) (body : List CodePoint) : Extent :=
  if e.closed then ⟨e.size + suffixLength (body.drop e.size), true⟩ else e

/-- The string or character literal whose quote is followed by `body`, and which has `before`
code points behind its first one up to the body. -/
def scanLiteral (before : Nat) (quote : Char) (body : List CodePoint) : Scan :=
  let e := ((quotedExtent quote true body).withSuffix body).after before
  if quote = '\'' then e.scan .codeChar .unclosedCodeChar
  else e.scan .codeString .unclosedCodeString

/-- Whether `c` may stand in the delimiter of a raw string. -/
def isDelimiterPart (c : Char) : Bool :=
  !(c == '(' || c == ')' || c == '"' || c == ' ' || c == '\\' || c == '\t' || isLineBreak c)

/-- The raw string whose quote is followed by `body`: a delimiter, then text in parentheses up to
the first closing one that is followed by the delimiter and a quote.  Without a parenthesis behind
the delimiter it is an ordinary string. -/
def scanRawLiteral (before : Nat) (body : List CodePoint) : Scan :=
  let delimiter := body.takeWhile fun p => isDelimiterPart p.char
  let inner := body.drop delimiter.length
  if beginsWith '(' inner then
    let close := .scalar ')' :: delimiter ++ [.scalar '"']
    let e := (extentThrough close inner.tail).withSuffix inner.tail
    (e.after (before + delimiter.length + 1)).scan .codeRawString .unclosedRawString
  else scanLiteral before '"' body

/-- The header name that begins with `opening`. -/
def scanHeaderName (opening : Char) (rest : List CodePoint) : Scan :=
  (headerExtent (if opening = '<' then '>' else '"') rest).scan .codeHeaderName
    .unclosedHeaderName

/-! ## Words -/

/-- The word that begins with `c`.  Directly before a quote, a word that says how a literal is
encoded belongs to the literal, and a word that ends in `R` belongs to a raw string; after a `#`
every word is just a word. -/
def scanCodeWord (line : LineState) (c : Char) (rest : List CodePoint) : Scan :=
  let more := runLength isWordPart rest
  let letters := c :: (rest.take more).map CodePoint.char
  let word := String.ofList letters
  let behind := rest.drop more
  if line = .afterPound then .plain (codeWordKind true word) more
  else if beginsWith '\'' behind && encodingMarks.contains word then
    scanLiteral (more + 1) '\'' behind.tail
  else if beginsWith '"' behind && encodingMarks.contains word then
    scanLiteral (more + 1) '"' behind.tail
  else if beginsWith '"' behind && letters.getLast? == some 'R' then
    scanRawLiteral (more + 1) behind.tail
  else .plain (codeWordKind false word) more

/-! ## Everything else -/

/-- The substitution that begins with a dollar sign.  At the end of the document the sign alone
is one; anywhere else it is unknown unless `$`, `_` or `?` follows. -/
def scanSubstitution (rest : List CodePoint) : Scan :=
  match rest with
  | [] => .plain .codeSubstitution 0
  | p :: _ =>
    if p.char == '$' || p.char == '_' || p.char == '?' then .plain .codeSubstitution 1
    else .plain .codeUnknown 0

/-- The operator that begins with `c`. -/
def scanOperator (c : Char) (rest : List CodePoint) : Scan :=
  let ahead := [c, charBehind rest 0, charBehind rest 1, charBehind rest 2]
  .plain .codePunctuator (codeOperatorLength ahead - 1)

/-- The punctuator that begins with `c`, or an unknown character. -/
def scanPunctuator (c : Char) (rest : List CodePoint) : Scan :=
  match c with
  | '.' =>
    if beginsWith '.' rest && beginsWith '.' rest.tail then .plain .codePunctuator 2
    else .plain .codePunctuator (if beginsWith '*' rest then 1 else 0)
  | '/' => .plain .codePunctuator (if beginsWith '=' rest then 1 else 0)
  | '#' => .plain .codePunctuator (if beginsWith '#' rest then 1 else 0)
  | '{' | '}' | '[' | ']' | '(' | ')' | ',' | ';' | '?' | '~' => .plain .codePunctuator 0
  | c => if opensCodeOperator c then scanOperator c rest else .plain .codeUnknown 0

/-- Whether a number begins with `c`. -/
def opensNumber (c : Char) (rest : List CodePoint) : Bool :=
  c.isDigit || (c == '.' && match rest with
    | [] => false
    | p :: _ => p.char.isDigit)

/-- What begins with `c` in a snippet that has `nesting` open braces beside its own. -/
def scanCode (nesting : Nat) (line : LineState) (c : Char) (rest : List CodePoint) : Scan :=
  if isCodeSpace c then .plain .whitespace (runLength isCodeSpace rest)
  else if line = .afterInclude ∧ (c = '<' ∨ c = '"') then scanHeaderName c rest
  else if isCodeWordStart c then scanCodeWord line c rest
  else if opensNumber c rest then .plain .codeNumber (numberTail rest)
  else match c with
    | '/' => (scanComment? .codeBlockComment .codeLineComment rest).getD (scanPunctuator c rest)
    | '\'' | '"' => scanLiteral 0 c rest
    | '$' => scanSubstitution rest
    | '}' => if nesting = 0 then .plain .snippetEnd 0 else .plain .codePunctuator 0
    | c => scanPunctuator c rest

end GrammarPaint
