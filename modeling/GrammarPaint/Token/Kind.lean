import GrammarPaint.Style

/-!
# Kinds of token

A grammar file mixes two languages: the grammar notation, and the code between braces.  One
enumeration serves both.  Each kind has an index below 64, so that a set of kinds fits in the bits
of one number (`GrammarPaint.Token.KindSet`), and the indices leave gaps between the groups:

* 0–2 spacing and comments of grammar text,
* 8–22 operators, 24–26 literals and names, 28–33 keywords of grammar text,
* 36–37 the braces of a snippet, 40–51 what stands between them,
* 62–63 the unknown and the end.

`TokenKind.isTrivia` is the line that matters later: the reading of grammar items
(`GrammarPaint.Item.Reading`) never sees a token on the trivial side of it.
-/

set_option autoImplicit false
namespace GrammarPaint

/-- What a token is, its text apart. -/
inductive TokenKind where
  | whitespace
  | lineComment
  | blockComment
  | semicolon
  | colon
  | doubleColon
  | question
  | plus
  | bang
  | star
  | slash
  | equals
  | leftParen
  | rightParen
  | leftAngle
  | rightAngle
  | ampersand
  | comma
  | string
  | characterClass
  | identifier
  | keywordEof
  | keywordTypedef
  | keywordNamespace
  | keywordCode
  | keywordTrue
  | keywordFalse
  | snippetStart
  | snippetEnd
  | codeSubstitution
  | codeLineComment
  | codeBlockComment
  | codeKeyword
  | codeIdentifier
  | codeString
  | codeRawString
  | codeChar
  | codeHeaderName
  | codeNumber
  | codePunctuator
  | codeUnknown
  | unknown
  | endOfFile
deriving DecidableEq, Repr, Inhabited

namespace TokenKind

/-- Every kind, by increasing index. -/
def all : List TokenKind :=
  [whitespace, lineComment, blockComment, semicolon, colon, doubleColon, question, plus, bang,
    star, slash, equals, leftParen, rightParen, leftAngle, rightAngle, ampersand, comma, string,
    characterClass, identifier, keywordEof, keywordTypedef, keywordNamespace, keywordCode,
    keywordTrue, keywordFalse, snippetStart, snippetEnd, codeSubstitution, codeLineComment,
    codeBlockComment, codeKeyword, codeIdentifier, codeString, codeRawString, codeChar,
    codeHeaderName, codeNumber, codePunctuator, codeUnknown, unknown, endOfFile]

theorem mem_all (k : TokenKind) : k ∈ all := by cases k <;> decide

/-- The place of a kind in a set of kinds. -/
def index : TokenKind → Nat
  | whitespace => 0
  | lineComment => 1
  | blockComment => 2
  | semicolon => 8
  | colon => 9
  | doubleColon => 10
  | question => 11
  | plus => 12
  | bang => 13
  | star => 14
  | slash => 15
  | equals => 16
  | leftParen => 17
  | rightParen => 18
  | leftAngle => 19
  | rightAngle => 20
  | ampersand => 21
  | comma => 22
  | string => 24
  | characterClass => 25
  | identifier => 26
  | keywordEof => 28
  | keywordTypedef => 29
  | keywordNamespace => 30
  | keywordCode => 31
  | keywordTrue => 32
  | keywordFalse => 33
  | snippetStart => 36
  | snippetEnd => 37
  | codeSubstitution => 40
  | codeLineComment => 41
  | codeBlockComment => 42
  | codeKeyword => 43
  | codeIdentifier => 44
  | codeString => 45
  | codeRawString => 46
  | codeChar => 47
  | codeHeaderName => 48
  | codeNumber => 49
  | codePunctuator => 50
  | codeUnknown => 51
  | unknown => 62
  | endOfFile => 63

/-- The kind with a given index, if there is one. -/
def ofIndex? (i : Nat) : Option TokenKind := all.find? (·.index == i)

theorem ofIndex?_index (k : TokenKind) : ofIndex? k.index = some k := by cases k <;> rfl

theorem index_injective {a b : TokenKind} (h : a.index = b.index) : a = b := by
  have hab := congrArg ofIndex? h
  rwa [ofIndex?_index, ofIndex?_index, Option.some.injEq] at hab

theorem index_lt (k : TokenKind) : k.index < 64 := by cases k <;> decide

/-- Kinds that only the inside of a snippet yields, with the brace that closes it. -/
def isCode (k : TokenKind) : Bool := 37 ≤ k.index && k.index ≤ 51

/-- Kinds that say nothing about the structure of a grammar: spacing, comments, and the whole
inside of a snippet.  The brace that opens a snippet is not among them, since a snippet is a term
of an expression. -/
def isTrivia : TokenKind → Bool
  | whitespace | lineComment | blockComment => true
  | k => k.isCode

/-- Kinds whose tokens carry the name they spell. -/
def isName : TokenKind → Bool
  | identifier | codeIdentifier => true
  | _ => false

/-- How diagnostics call a kind. -/
def name : TokenKind → String
  | whitespace => "whitespace"
  | lineComment => "line comment"
  | blockComment => "block comment"
  | semicolon => ";"
  | colon => ":"
  | doubleColon => "::"
  | question => "?"
  | plus => "+"
  | bang => "!"
  | star => "*"
  | slash => "/"
  | equals => "="
  | leftParen => "("
  | rightParen => ")"
  | leftAngle => "<"
  | rightAngle => ">"
  | ampersand => "&"
  | comma => ","
  | string => "string"
  | characterClass => "character class"
  | identifier => "identifier"
  | keywordEof => "EOF"
  | keywordTypedef => "typedef"
  | keywordNamespace => "namespace"
  | keywordCode => "code"
  | keywordTrue => "true"
  | keywordFalse => "false"
  | snippetStart => "\x7b"
  | snippetEnd => "\x7d"
  | codeSubstitution => "substitution"
  | codeLineComment => "code line comment"
  | codeBlockComment => "code block comment"
  | codeKeyword => "code keyword"
  | codeIdentifier => "code identifier"
  | codeString => "code string"
  | codeRawString => "code raw string"
  | codeChar => "code character"
  | codeHeaderName => "header name"
  | codeNumber => "code number"
  | codePunctuator => "code punctuator"
  | codeUnknown => "unknown code"
  | unknown => "unknown"
  | endOfFile => "end of file"

/-- The identifier of a kind in a dump of tokens. -/
def label : TokenKind → String
  | whitespace => "Whitespace"
  | lineComment => "LineComment"
  | blockComment => "BlockComment"
  | semicolon => "Semicolon"
  | colon => "Colon"
  | doubleColon => "ColonColon"
  | question => "QMark"
  | plus => "Plus"
  | bang => "EMark"
  | star => "Star"
  | slash => "FSlash"
  | equals => "Equal"
  | leftParen => "LParen"
  | rightParen => "RParen"
  | leftAngle => "LAngle"
  | rightAngle => "RAngle"
  | ampersand => "Amp"
  | comma => "Comma"
  | string => "String"
  | characterClass => "CharacterClass"
  | identifier => "Ident"
  | keywordEof => "KwEof"
  | keywordTypedef => "KwTypedef"
  | keywordNamespace => "KwNamespace"
  | keywordCode => "KwCode"
  | keywordTrue => "KwTrue"
  | keywordFalse => "KwFalse"
  | snippetStart => "SnippetStart"
  | snippetEnd => "SnippetEnd"
  | codeSubstitution => "CodeSubstitution"
  | codeLineComment => "CodeLineComment"
  | codeBlockComment => "CodeBlockComment"
  | codeKeyword => "CodeKeyword"
  | codeIdentifier => "CodeIdent"
  | codeString => "CodeString"
  | codeRawString => "CodeRawString"
  | codeChar => "CodeChar"
  | codeHeaderName => "CodeHeaderName"
  | codeNumber => "CodeNumber"
  | codePunctuator => "CodePunctuator"
  | codeUnknown => "CodeUnknown"
  | unknown => "Unknown"
  | endOfFile => "Eof"

/-- The kind with a given identifier. -/
def ofLabel? (label : String) : Option TokenKind := all.find? (·.label == label)

/-- The style of a token before anything is known about its surroundings.  Spacing, grammar text
that fits nothing and the end of the file have none. -/
def style? : TokenKind → Option Style
  | whitespace | unknown | endOfFile => none
  | lineComment => some .lineComment
  | blockComment => some .blockComment
  | semicolon | colon | doubleColon | question | plus | bang | star | slash | equals
  | leftParen | rightParen | leftAngle | rightAngle | ampersand | comma => some .operator
  | string => some .string
  | characterClass => some .characterClass
  | identifier => some .identifier
  | keywordEof | keywordTypedef | keywordNamespace | keywordCode | keywordTrue | keywordFalse =>
    some .keyword
  | snippetStart | snippetEnd => some .code
  | codeSubstitution => some .substitution
  | codeLineComment => some .codeLineComment
  | codeBlockComment => some .codeBlockComment
  | codeKeyword => some .codeKeyword
  | codeIdentifier => some .codeIdentifier
  | codeString | codeRawString => some .codeString
  | codeChar => some .codeChar
  | codeHeaderName => some .codeHeaderName
  | codeNumber => some .codeNumber
  | codePunctuator => some .codePunctuator
  | codeUnknown => some .codeUnknown

end TokenKind
end GrammarPaint
