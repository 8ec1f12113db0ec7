/-!
# Styles

A style says *what* a stretch of text is for presentation; the palette decides how each style
looks.  The styles of grammar text come first and those of embedded code after them, and that
order is the one in which palettes are listed.
-/

set_option autoImplicit false
namespace GrammarPaint

/-- What a token is shown as. -/
inductive Style where
  | keyword
  | identifier
  | ruleName
  | typeName
  | resultVariable
  | templateVariable
  | operator
  | lineComment
  | blockComment
  | string
  | characterClass
  /-- The braces of a snippet, and the `&` of a semantic predicate. -/
  | code
  | substitution
  | codeLineComment
  | codeBlockComment
  | codeKeyword
  | codeIdentifier
  | codeString
  | codeChar
  | codeHeaderName
  | codeNumber
  | codePunctuator
  | codeUnknown
deriving DecidableEq, Repr, Inhabited

namespace Style

/-- Every style, in order. -/
def all : List Style :=
  [keyword, identifier, ruleName, typeName, resultVariable, templateVariable, operator,
    lineComment, blockComment, string, characterClass, code, substitution, codeLineComment,
    codeBlockComment, codeKeyword, codeIdentifier, codeString, codeChar, codeHeaderName,
    codeNumber, codePunctuator, codeUnknown]

theorem mem_all (s : Style) : s ∈ all := by cases s <;> decide

theorem nodup_all : all.Nodup := by decide

/-- The position of a style in `Style.all`. -/
def index (s : Style) : Nat := all.idxOf s

theorem all_getElem?_index (s : Style) : all[s.index]? = some s := by cases s <;> rfl

/-- The name of a style in configurations and diagnostics. -/
def name : Style → String
  | keyword => "keyword"
  | identifier => "identifier"
  | ruleName => "rule_name"
  | typeName => "type_name"
  | resultVariable => "result_variable"
  | templateVariable => "template_variable"
  | operator => "operator"
  | lineComment => "line_comment"
  | blockComment => "block_comment"
  | string => "string"
  | characterClass => "character_class"
  | code => "code"
  | substitution => "substitution"
  | codeLineComment => "code_line_comment"
  | codeBlockComment => "code_block_comment"
  | codeKeyword => "code_keyword"
  | codeIdentifier => "code_identifier"
  | codeString => "code_string"
  | codeChar => "code_char"
  | codeHeaderName => "code_header_name"
  | codeNumber => "code_number"
  | codePunctuator => "code_punctuator"
  | codeUnknown => "code_unknown"

/-- The style with a given name. -/
def ofName? (name : String) : Option Style := all.find? (·.name == name)

theorem ofName?_name (s : Style) : ofName? s.name = some s := by cases s <;> decide

end Style
end GrammarPaint
