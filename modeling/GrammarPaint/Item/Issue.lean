import GrammarPaint.Span
import GrammarPaint.Token.KindSet

/-!
# Structural issues

A grammar file is a sequence of items.  Where a token does not fit the item it stands in, the
reading of items complains: it says what it was reading and what it would have accepted, and
together with the token that it met this is a structural issue.
-/

set_option autoImplicit false
namespace GrammarPaint

/-- What was being read when a token did not fit. -/
inductive Context where
  | typeAlias
  | namespaceDeclaration
  | codeBlock
  | rule
  | templateParameters
  | templateArguments
  | expression
  /-- Between the last part of an item and the semicolon behind it. -/
  | itemEnd
deriving DecidableEq, Repr

/-- How messages call what was being read. -/
def Context.description : Context → String
  | typeAlias => "type alias"
  | namespaceDeclaration => "namespace declaration"
  | codeBlock => "code block"
  | rule => "rule definition"
  | templateParameters => "template parameters"
  | templateArguments => "template arguments"
  | expression => "expression"
  | itemEnd => "end of declaration"

/-- What was being read, and what would have been accepted. -/
structure Complaint where
  context : Context
  expected : KindSet
deriving DecidableEq, Repr

/-- A complaint about the token of kind `found` at `span`. -/
structure StructuralIssue where
  span : Span
  found : TokenKind
  complaint : Complaint
deriving DecidableEq, Repr

/-- What would have been accepted, what was found, and in what. -/
def StructuralIssue.message (i : StructuralIssue) : String :=
  "expected " ++ i.complaint.expected.phrase ++ ", found " ++ KindSet.backticked i.found.name ++
    " in " ++ i.complaint.context.description

end GrammarPaint
