import GrammarPaint.Token.Kind

/-!
# Characters and words

The classes of characters that scanning tells apart, and the words with a meaning of their own:
the keywords of the grammar notation, the reserved words of embedded code, and the directives
that may follow a `#`.

All classes are ASCII.  A letter or digit of another script is part of no word.
-/

set_option autoImplicit false
namespace GrammarPaint

/-! ## Characters -/

/-- What a line ends with: a carriage return or a line feed. -/
def isLineBreak (c : Char) : Bool := c == '\r' || c == '\n'

/-- Spacing of grammar text. -/
def isGrammarSpace (c : Char) : Bool := c == ' ' || c == '\t' || isLineBreak c

/-- Spacing of embedded code, which has two more spaces: the vertical tab and the form feed. -/
def isCodeSpace (c : Char) : Bool := isGrammarSpace c || c == '\x0b' || c == '\x0c'

/-- What a word goes on with: an ASCII letter, a digit or an underscore. -/
def isWordPart (c : Char) : Bool := c.isAlphanum || c == '_'

/-- What a word of embedded code begins with.  A word of grammar text begins with a letter. -/
def isCodeWordStart (c : Char) : Bool := c.isAlpha || c == '_'

/-! ## Words -/

/-- The kind of a word of grammar text. -/
def grammarWordKind (word : String) : TokenKind :=
  match word with
  | "EOF" => .keywordEof
  | "typedef" => .keywordTypedef
  | "code" => .keywordCode
  | "namespace" => .keywordNamespace
  | "true" => .keywordTrue
  | "false" => .keywordFalse
  | _ => .identifier

/-- The reserved words of embedded code that have a given length. -/
def codeKeywordsOfLength : Nat → List String
  | 2 => ["do", "if", "or"]
  | 3 => ["and", "asm", "for", "int", "new", "not", "try", "xor"]
  | 4 => ["auto", "bool", "case", "char", "else", "enum", "goto", "long", "this", "true", "void"]
  | 5 => ["__asm", "bitor", "break", "catch", "class", "compl", "const", "false", "final", "float",
      "or_eq", "short", "throw", "union", "using", "while"]
  | 6 => ["and_eq", "bitand", "delete", "double", "export", "extern", "friend", "import", "inline",
      "module", "not_eq", "public", "return", "signed", "sizeof", "static", "struct", "switch",
      "typeid", "xor_eq"]
  | 7 => ["_Pragma", "alignas", "alignof", "concept", "default", "defined", "mutable", "nullptr",
      "private", "typedef", "virtual", "wchar_t"]
  | 8 => ["char16_t", "char32_t", "continue", "decltype", "explicit", "noexcept", "operator",
      "override", "register", "requires", "template", "typename", "unsigned", "volatile"]
  | 9 => ["constexpr", "namespace", "protected"]
  | 10 => ["__declspec", "__restrict", "const_cast"]
  | 11 => ["static_cast"]
  | 12 => ["dynamic_cast", "synchronized", "thread_local"]
  | 13 => ["__attribute__", "__extension__", "__has_include", "atomic_cancel", "atomic_commit",
      "static_assert"]
  | 15 => ["atomic_noexcept"]
  | 16 => ["reinterpret_cast", "transaction_safe"]
  | 24 => ["transaction_safe_dynamic"]
  | _ => []

/-- Whether a word is reserved in embedded code.  It is looked up among the words of its length
only. -/
def isCodeKeyword (word : String) : Bool := (codeKeywordsOfLength word.utf8ByteSize).contains word

/-- The words that make a preceding `#` a directive. -/
def directives : List String :=
  ["include", "define", "undef", "if", "ifdef", "ifndef", "else", "elif", "endif", "line",
    "error", "pragma", "warning"]

/-- The words that, directly before a quote, say how a literal is encoded. -/
def encodingMarks : List String := ["u", "U", "u8", "L"]

/-- The kind of a word of embedded code: after a `#` only directives are keywords, elsewhere the
reserved words are. -/
def codeWordKind (afterPound : Bool) (word : String) : TokenKind :=
  if (if afterPound then directives.contains word else isCodeKeyword word) then .codeKeyword
  else .codeIdentifier

end GrammarPaint
