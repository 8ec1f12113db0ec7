import GrammarPaint.Span

/-!
# Lexical issues

Scanning never fails.  What is wrong with a document's text is said beside the lexemes: a fault,
and the span it concerns.
-/

set_option autoImplicit false
namespace GrammarPaint

/-- What can be wrong with a stretch of text. -/
inductive LexicalFault where
  /-- A block comment, in grammar text or in a snippet, that reaches the end of the document. -/
  | unclosedBlockComment
  /-- A grammar string that meets a line break or the end of the document. -/
  | unclosedString
  | unclosedCharacterClass
  | unclosedCodeString
  | unclosedCodeChar
  /-- A raw string whose delimiter never comes back. -/
  | unclosedRawString
  /-- A header name that meets a line break or the end of the document. -/
  | unclosedHeaderName
  /-- A snippet that reaches the end of the document. -/
  | unclosedSnippet
  /-- A surrogate that is not part of a pair. -/
  | loneSurrogate
deriving DecidableEq, Repr

/-- How messages call a fault. -/
def LexicalFault.description : LexicalFault → String
  | unclosedBlockComment => "unterminated block comment"
  | unclosedString => "unterminated string literal"
  | unclosedCharacterClass => "unterminated character class"
  | unclosedCodeString => "unterminated string literal in code snippet"
  | unclosedCodeChar => "unterminated character literal in code snippet"
  | unclosedRawString => "unterminated raw string literal"
  | unclosedHeaderName => "unterminated header name"
  | unclosedSnippet => "unterminated code snippet"
  | loneSurrogate => "lone UTF-16 surrogate"

/-- A fault and the span it concerns. -/
structure LexicalIssue where
  fault : LexicalFault
  span : Span
deriving DecidableEq, Repr

/-- The fault and where it is. -/
def LexicalIssue.message (i : LexicalIssue) : String :=
  i.fault.description ++ " at " ++ toString i.span

end GrammarPaint
