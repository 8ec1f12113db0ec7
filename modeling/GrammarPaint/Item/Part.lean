import GrammarPaint.Item.Issue

/-!
# The parts of items

The notation of grammar files, as far as colouring needs it:

    item        = alias | namespace | code block | rule
    alias       = 'typedef' ['::'] name ('::' name)* name end
    namespace   = 'namespace' name ('::' name)* end
    code block  = 'code' name [snippet] end
    rule        = name [parameters] [':' name] '=' expression end
    expression  = sequence ('/' sequence)*
    sequence    = (term ('?' | '*' | '+')*)+
    term        = '(' [expression] ')' | name [arguments] [binding] | 'EOF' | string
                | class [binding] | '&' term | '!' term | snippet
    binding     = ':' name
    parameters  = '<' parameter (',' parameter)* '>'
    parameter   = 'true' | 'false' | name [':' name]
    arguments   = '<' argument (',' argument)* '>'
    argument    = 'true' | 'false' | name
    end         = ';'

Reading is more lenient than that: the closing `)` and `>`, the name of a binding, and entries
between commas may be missing, and an item may do without its semicolon where the next one begins.

A reading at some point of the file is described by the list of the parts that are still to come
(`Part`).  One token is enough to decide what becomes of the first of them (`Part.move`): it is
skipped, or it takes the token, or it refuses it.  A token that is taken is painted, which is
where names get their roles.
-/

set_option autoImplicit false
namespace GrammarPaint

/-! ## Words and paint -/

/-- What the reading sees of a token: its kind and, if it is a name, its name. -/
structure Word where
  kind : TokenKind
  name : Option String
deriving DecidableEq, Repr

/-- What the reading sees where there are no more tokens. -/
def Word.ending : Word := ⟨.endOfFile, none⟩

/-- What happens to the style of a token that is taken. -/
inductive Paint where
  | keep
  | set (style : Option Style)
deriving DecidableEq, Repr

/-- Paint in a style. -/
def Paint.as (style : Style) : Paint := .set (some style)

/-! ## What can begin what -/

/-- What an item begins with, and the end of the file. -/
def itemStart : KindSet :=
  {.keywordTypedef, .keywordCode, .keywordNamespace, .identifier, .endOfFile}

/-- What ends a sequence.  Everything else is taken for another term. -/
def sequenceEnd : KindSet :=
  {.rightParen, .semicolon, .doubleColon, .colon, .comma, .equals, .slash, .rightAngle,
    .keywordTypedef, .keywordCode, .keywordNamespace, .unknown, .endOfFile}

/-- What a term begins with. -/
def termStart : KindSet :=
  {.leftParen, .identifier, .keywordEof, .string, .characterClass, .ampersand, .bang,
    .snippetStart}

/-- The marks of repetition behind a term. -/
def repeatMark : KindSet := {.question, .star, .plus}

/-- What may follow the opening bracket of parameters or arguments, or a comma among them. -/
def listEntry : KindSet :=
  {.keywordTrue, .keywordFalse, .identifier, .comma, .rightAngle}

/-- The names of code blocks that read as keywords. -/
def codeSections : List String := ["license", "header", "source", "class"]

/-! ## Parts -/

/-- Something that a reading still expects.  In an expression, `negated` says that the part stands
under a `!`, where nothing takes part in the result: a snippet has no style there, and a binding
names nothing. -/
inductive Part where
  /-- The colons a qualified name may begin with. -/
  | pathLead
  /-- A name of a qualified name. -/
  | pathName (context : Context)
  /-- More of a qualified name. -/
  | pathMore (context : Context)
  /-- The name that an alias introduces. -/
  | aliasName
  /-- The name of a code block. -/
  | sectionName
  /-- The snippet of a code block. -/
  | sectionBody
  | parameters
  | parameter
  /-- What follows the name of a parameter. -/
  | parameterColon
  | parameterType
  | moreParameters
  /-- The colon before the result type of a rule. -/
  | resultColon
  | resultType
  | equalsSign
  | term (negated : Bool)
  | repetition
  | moreTerms (negated : Bool)
  | moreAlternatives (negated : Bool)
  /-- What follows an opening parenthesis. -/
  | group (negated : Bool)
  | groupEnd
  | arguments
  | argument
  | moreArguments
  | bindingColon (negated : Bool)
  | bindingName (negated : Bool)
  | itemEnd
deriving DecidableEq, Repr

/-- The parts of an expression. -/
def expression (negated : Bool) : List Part :=
  [.term negated, .repetition, .moreTerms negated, .moreAlternatives negated]

/-- The parts of a qualified name. -/
def path (context : Context) : List Part := [.pathName context, .pathMore context]

/-- What becomes of the first part still to come: it is skipped and the next part looks at the
same token, it takes the token and other parts come in its place, or it refuses the token. -/
inductive Move where
  | skip
  | take (paint : Paint) (parts : List Part)
  | refuse (complaint : Complaint)
deriving DecidableEq, Repr

namespace Word

/-- Take a word of kind `kind` if it is there. -/
def optional (w : Word) (kind : TokenKind) (paint : Paint) (parts : List Part) : Move :=
  if w.kind = kind then .take paint parts else .skip

/-- Take a word of kind `kind`, which has to be there. -/
def required (w : Word) (kind : TokenKind) (paint : Paint) (parts : List Part)
    (complaint : Complaint) : Move :=
  if w.kind = kind then .take paint parts else .refuse complaint

/-- Take the first word of a term, after which `parts` come.  What follows the word matters for
one of them alone: an `&` before a snippet is a semantic predicate and painted like one. -/
def asTerm (w : Word) (following : TokenKind) (negated : Bool) (parts : List Part) : Move :=
  match w.kind with
  | .leftParen => .take .keep (.group negated :: parts)
  | .identifier => .take (.as .ruleName) (.arguments :: .bindingColon negated :: parts)
  | .keywordEof | .string => .take .keep parts
  | .characterClass => .take .keep (.bindingColon negated :: parts)
  | .ampersand =>
    .take (if following = .snippetStart then .as .code else .keep) (.term negated :: parts)
  | .bang => .take .keep (.term true :: parts)
  | .snippetStart => .take (if negated then .set none else .keep) parts
  | _ => .refuse ⟨.expression, termStart⟩

/-- Take the first word of an entry in a list between angle brackets: `entry` paints a name and
says what comes behind it, and `next` and `more` are the parts of the list that come behind a
comma and behind an entry. -/
def asEntry (w : Word) (entry : Move) (next more : Part) (complaint : Complaint) : Move :=
  match w.kind with
  | .keywordTrue | .keywordFalse => .take .keep [more]
  | .identifier => entry
  | .comma => .take .keep [next]
  | .rightAngle => .take .keep []
  | _ => .refuse complaint

/-- Go on behind an entry of a list between angle brackets.  A missing bracket is no matter. -/
def afterEntry (w : Word) (next : Part) : Move :=
  match w.kind with
  | .comma => .take .keep [next]
  | .rightAngle => .take .keep []
  | _ => .skip

/-- The type of a parameter, or the comma or bracket that does without one. -/
def asParameterType (w : Word) : Move :=
  match w.kind with
  | .identifier => .take (.as .typeName) [.moreParameters]
  | .comma => .take .keep [.parameter]
  | .rightAngle => .take .keep []
  | _ => .refuse ⟨.templateParameters, {.identifier, .comma, .rightAngle}⟩

end Word

/-- What becomes of a part at the word `w`, behind which a word of kind `following` stands. -/
def Part.move (part : Part) (w : Word) (following : TokenKind) : Move :=
  match part with
  | pathLead => w.optional .doubleColon (.as .codePunctuator) []
  | pathName context =>
    w.required .identifier (.as .codeIdentifier) [] ⟨context, {.identifier}⟩
  | pathMore context => w.optional .doubleColon (.as .codePunctuator) (path context)
  | aliasName =>
    w.required .identifier (.as .typeName) [] ⟨.typeAlias, {.identifier, .doubleColon}⟩
  | sectionName =>
    w.required .identifier
      (if w.name.any codeSections.contains then .as .keyword else .keep) []
      ⟨.codeBlock, {.identifier}⟩
  | sectionBody => w.optional .snippetStart .keep []
  | parameters => w.optional .leftAngle .keep [.parameter]
  | parameter =>
    w.asEntry (.take (.as .templateVariable) [.parameterColon]) .parameter .moreParameters
      ⟨.templateParameters, listEntry⟩
  | parameterColon =>
    if w.kind = .colon then .take .keep [.parameterType] else w.asParameterType
  | parameterType => w.asParameterType
  | moreParameters => w.afterEntry .parameter
  | resultColon => w.optional .colon .keep [.resultType]
  | resultType => w.required .identifier (.as .typeName) [] ⟨.rule, {.identifier}⟩
  | equalsSign => w.required .equals .keep [] ⟨.rule, {.equals, .colon, .leftAngle}⟩
  | term negated => w.asTerm following negated []
  | repetition => if w.kind ∈ repeatMark then .take .keep [.repetition] else .skip
  | moreTerms negated =>
    if w.kind ∈ sequenceEnd then .skip
    else w.asTerm following negated [.repetition, .moreTerms negated]
  | moreAlternatives negated => w.optional .slash .keep (expression negated)
  | group negated =>
    if w.kind = .rightParen then .take .keep []
    else w.asTerm following negated
      [.repetition, .moreTerms negated, .moreAlternatives negated, .groupEnd]
  | groupEnd => w.optional .rightParen .keep []
  | arguments => w.optional .leftAngle .keep [.argument]
  | argument =>
    w.asEntry (.take (.as .templateVariable) [.moreArguments]) .argument .moreArguments
      ⟨.templateArguments, listEntry⟩
  | moreArguments => w.afterEntry .argument
  | bindingColon negated => w.optional .colon .keep [.bindingName negated]
  | bindingName negated =>
    w.optional .identifier (.as (if negated then .identifier else .resultVariable)) []
  | itemEnd =>
    if w.kind ∈ itemStart then .skip
    else w.required .semicolon .keep [] ⟨.itemEnd, {.semicolon}⟩

/-- How the item that begins with `w` goes on, and the paint of `w`; none if no item begins with
it. -/
def Word.item? (w : Word) : Option (Paint × List Part) :=
  match w.kind with
  | .keywordTypedef => some (.keep, .pathLead :: path .typeAlias ++ [.aliasName, .itemEnd])
  | .keywordNamespace => some (.keep, path .namespaceDeclaration ++ [.itemEnd])
  | .keywordCode => some (.keep, [.sectionName, .sectionBody, .itemEnd])
  | .identifier =>
    some (.as .ruleName,
      .parameters :: .resultColon :: .equalsSign :: expression false ++ [.itemEnd])
  | _ => none

/-! ## Where there are no more words -/

/-- Past the last word no part takes anything. -/
theorem move_ending_ne_take (part : Part) (paint : Paint) (parts : List Part) :
    part.move .ending .endOfFile ≠ .take paint parts := by
  cases part <;> nofun

end GrammarPaint
