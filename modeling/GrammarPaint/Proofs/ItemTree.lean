import GrammarPaint.Item.Part
import GrammarPaint.Proofs.FileGrammar

/-!
# Items as trees, and their colours

The notation of `GrammarPaint.Item.Part`, taken by its word: parentheses and brackets are closed,
bindings have names and lists have entries.  An `ItemTree` is an item written in it, the expression
of a rule being a `Tree`.

A tree knows the words it is spelled with and how each of them is to be painted
(`ItemTree.coloured`).  Nothing is read here, and the colour of a word follows from its place in
the tree alone: whether it names a rule, a type, a parameter or a result, and whether there is a
`!` above it.
-/

set_option autoImplicit false
namespace GrammarPaint

/-- A word and how it is to be painted. -/
abbrev ColouredWord := Word × Paint

namespace ColouredWord

/-- A word that is not a name and keeps its style. -/
def plain (k : TokenKind) : ColouredWord := (⟨k, none⟩, .keep)

/-- A name in a style. -/
def named (name : String) (style : Style) : ColouredWord := (⟨.identifier, some name⟩, .as style)

/-- The colons of a qualified name. -/
def colons : ColouredWord := (⟨.doubleColon, none⟩, .as .codePunctuator)

/-- A truth value. -/
def truth (value : Bool) : ColouredWord := plain (if value then .keywordTrue else .keywordFalse)

end ColouredWord

open ColouredWord

/-! ## Pieces of items -/

/-- The names of a qualified name. -/
structure QualifiedName where
  first : String
  more : List String

/-- A qualified name is painted as code. -/
def QualifiedName.coloured (q : QualifiedName) : List ColouredWord :=
  named q.first .codeIdentifier ::
    q.more.flatMap fun name => [colons, named name .codeIdentifier]

/-- Entries between angle brackets; without an entry there are no brackets. -/
def bracketed : List (List ColouredWord) → List ColouredWord
  | [] => []
  | entry :: entries =>
    plain .leftAngle :: entry ++ entries.flatMap (plain .comma :: ·) ++ [plain .rightAngle]

/-- A parameter of a rule. -/
inductive Parameter where
  | truth (value : Bool)
  | named (name : String) (type : Option String)

/-- A parameter is a template variable, and what comes behind its colon a type. -/
def Parameter.coloured : Parameter → List ColouredWord
  | truth value => [ColouredWord.truth value]
  | named name none => [ColouredWord.named name .templateVariable]
  | named name (some type) =>
    [ColouredWord.named name .templateVariable, plain .colon, ColouredWord.named type .typeName]

/-- An argument of a reference to a rule. -/
inductive Argument where
  | truth (value : Bool)
  | named (name : String)

/-- An argument is a template variable. -/
def Argument.coloured : Argument → List ColouredWord
  | truth value => [ColouredWord.truth value]
  | named name => [ColouredWord.named name .templateVariable]

/-- A binding names a result, unless it stands under a `!`. -/
def colouredBinding (negated : Bool) : Option String → List ColouredWord
  | none => []
  | some name =>
    [plain .colon, named name (if negated then .identifier else .resultVariable)]

/-- A mark of repetition. -/
inductive Mark where
  | question
  | star
  | plus

/-- The kind of a mark. -/
def Mark.kind : Mark → TokenKind
  | question => .question
  | star => .star
  | plus => .plus

/-! ## Expressions -/

/-- Expressions and their parts, level by level. -/
inductive Tree : Level → Type
  | emptyGroup : Tree .term
  | group (body : Tree .expression) : Tree .term
  | reference (name : String) (arguments : List Argument) (binding : Option String) : Tree .term
  | keywordEof : Tree .term
  | string : Tree .term
  | characterClass (binding : Option String) : Tree .term
  | ampersand (body : Tree .term) : Tree .term
  | bang (body : Tree .term) : Tree .term
  | snippet : Tree .term
  | lastTerm : Tree .moreTerms
  | anotherTerm (first : Tree .term) (marks : List Mark) (more : Tree .moreTerms) :
      Tree .moreTerms
  | sequence (first : Tree .term) (marks : List Mark) (more : Tree .moreTerms) : Tree .sequence
  | lastAlternative : Tree .moreAlternatives
  | anotherAlternative (first : Tree .sequence) (more : Tree .moreAlternatives) :
      Tree .moreAlternatives
  | expression (first : Tree .sequence) (more : Tree .moreAlternatives) : Tree .expression

namespace Tree

/-- Whether a tree is a snippet and nothing else. -/
def isSnippet {level : Level} : Tree level → Bool
  | snippet => true
  | _ => false

/-- The words of a tree, painted.  Under a `!` snippets lose their style and bindings are names
like any other; an `&` directly before a snippet is painted as code. -/
def coloured {level : Level} (negated : Bool) : Tree level → List ColouredWord
  | emptyGroup => [plain .leftParen, plain .rightParen]
  | group body => plain .leftParen :: body.coloured negated ++ [plain .rightParen]
  | reference name arguments binding =>
    named name .ruleName ::
      bracketed (arguments.map Argument.coloured) ++ colouredBinding negated binding
  | keywordEof => [plain .keywordEof]
  | string => [plain .string]
  | characterClass binding => plain .characterClass :: colouredBinding negated binding
  | ampersand body =>
    (⟨.ampersand, none⟩, if body.isSnippet then .as .code else .keep) :: body.coloured negated
  | bang body => plain .bang :: body.coloured true
  | snippet => [(⟨.snippetStart, none⟩, if negated then .set none else .keep)]
  | lastTerm | lastAlternative => []
  | anotherTerm first marks more | sequence first marks more =>
    first.coloured negated ++ marks.map (plain ·.kind) ++ more.coloured negated
  | anotherAlternative first more =>
    plain .slash :: first.coloured negated ++ more.coloured negated
  | expression first more => first.coloured negated ++ more.coloured negated

end Tree

/-! ## Items -/

/-- An item. -/
inductive ItemTree where
  | typeAlias (lead : Bool) (target : QualifiedName) (name : String)
  | namespaceDeclaration (name : QualifiedName)
  | codeBlock (name : String) (hasBody : Bool)
  | rule (name : String) (parameters : List Parameter) (result : Option String)
      (body : Tree .expression)

namespace ItemTree

/-- The names of code blocks that are painted as keywords. -/
def keywordSections : List String := ["license", "header", "source", "class"]

theorem codeSections_eq : codeSections = keywordSections := rfl

/-- The type that a rule results in. -/
def colouredResult : Option String → List ColouredWord
  | none => []
  | some type => [plain .colon, named type .typeName]

/-- The words of an item, painted, with the semicolon behind it. -/
def coloured : ItemTree → List ColouredWord
  | typeAlias lead target name =>
    plain .keywordTypedef :: ((if lead then [colons] else []) ++ (target.coloured ++
      [named name .typeName, plain .semicolon]))
  | namespaceDeclaration name =>
    plain .keywordNamespace :: (name.coloured ++ [plain .semicolon])
  | codeBlock name hasBody =>
    plain .keywordCode ::
      (⟨.identifier, some name⟩, if name ∈ keywordSections then .as .keyword else .keep) ::
      ((if hasBody then [plain .snippetStart] else []) ++ [plain .semicolon])
  | rule name parameters result body =>
    named name .ruleName :: (bracketed (parameters.map Parameter.coloured) ++
      (colouredResult result ++ plain .equals :: (body.coloured false ++ [plain .semicolon])))

end ItemTree

end GrammarPaint
