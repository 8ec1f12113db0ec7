import GrammarPaint.Item.Roles
import GrammarPaint.Lexeme.Placement
import GrammarPaint.Lexeme.Scanner

/-!
# The analysis of a document

Everything that is known about a document: its tokens in their final styles, what is wrong with
its text, and what is wrong with its items.
-/

set_option autoImplicit false
namespace GrammarPaint

/-- Tokens and issues of a document. -/
structure Analysis where
  tokens : List Token
  lexicalIssues : List LexicalIssue
  structuralIssues : List StructuralIssue
deriving DecidableEq

namespace Document

/-- The tokens of a document, styled by the roles they play. -/
def styledTokens (d : Document) : List Token := assignRoles d.tokens

/-- Everything that is known about a document. -/
def analysis (d : Document) : Analysis where
  tokens := d.styledTokens
  lexicalIssues := d.lexicalIssues
  structuralIssues := structuralIssues d.tokens

end Document
end GrammarPaint
