import GrammarPaint.Token.Kind

/-!
# The grammar of grammar files, without a machine

`GrammarPaint.Item.Part` reads items with a stack of parts.  This file says what an item *is*, so
that there is something to hold the reading against.  It knows nothing of parts, paint or
complaints: it speaks of kinds of words alone.

A `Phrase` relates the kinds that stand at some place of a file to those that are left behind it.
Phrases are put together as in any notation for grammars — `all` for one after the other, `any`
for a choice, `opt` and `many` for what may be missing or repeated — with one addition that makes
the grammar deterministic: **what may be missing or repeated is taken whenever the next word can
begin it**.  A part that is left out therefore says what does not come next.

* `ExpressionPhrase` is the recursive core, the expressions;
* `item` is an item, and `GrammarFile` a file that consists of items.
-/

set_option autoImplicit false
namespace GrammarPaint

/-- What a stretch of a file can be: `p ks rest` says that the kinds `ks` begin with one, and that
`rest` is what is left behind it. -/
abbrev Phrase := List TokenKind → List TokenKind → Prop

namespace Phrase

/-! ## Putting phrases together -/

/-- One word of kind `k`. -/
def one (k : TokenKind) : Phrase := fun ks rest => ks = k :: rest

/-- No word at all. -/
def nothing : Phrase := fun ks rest => ks = rest

/-- Phrases one after the other. -/
def all : List Phrase → Phrase
  | [] => nothing
  | p :: ps => fun ks rest => ∃ mid, p ks mid ∧ all ps mid rest

/-- One of some phrases. -/
def any (ps : List Phrase) : Phrase := fun ks rest => ∃ p ∈ ps, p ks rest

/-- A word of kind `k` and then `body`, which is there exactly if the next word is of that
kind. -/
inductive opt (k : TokenKind) (body : Phrase) : Phrase
  | absent {ks : List TokenKind} (h : ks.head? ≠ some k) : opt k body ks ks
  | present {ks rest : List TokenKind} (h : body ks rest) : opt k body (k :: ks) rest

/-- Any number of times a word of kind `k` and then `body`, for as long as the next word is of
that kind. -/
inductive many (k : TokenKind) (body : Phrase) : Phrase
  | done {ks : List TokenKind} (h : ks.head? ≠ some k) : many k body ks ks
  | more {ks mid rest : List TokenKind} (h : body ks mid) (hs : many k body mid rest) :
      many k body (k :: ks) rest

/-- A word of kind `k` that may be missing. -/
def optOne (k : TokenKind) : Phrase := opt k nothing

/-- Any number of times `slot` and a comma, and then `last`. -/
inductive listed (slot last : Phrase) : Phrase
  | last {ks rest : List TokenKind} (h : last ks rest) : listed slot last ks rest
  | slot {ks mid rest : List TokenKind} (h : slot ks (.comma :: mid))
      (hs : listed slot last mid rest) : listed slot last ks rest

end Phrase

open Phrase

/-! ## Lists between angle brackets

Entries may be missing, and so may the closing bracket unless it follows a comma. -/

/-- A truth value. -/
def truthValue : Phrase := any [one .keywordTrue, one .keywordFalse]

/-- What may stand before a comma in a list of parameters. -/
def parameterSlot : Phrase :=
  any [nothing, truthValue, all [one .identifier, optOne .colon, optOne .identifier]]

/-- What a list of parameters ends with. -/
def parameterLast : Phrase :=
  any [one .rightAngle,
    all [truthValue, optOne .rightAngle],
    all [one .identifier, optOne .colon, one .rightAngle],
    all [one .identifier, optOne .colon, one .identifier, optOne .rightAngle]]

/-- Parameters, from behind the opening bracket on. -/
def parameterList : Phrase := listed parameterSlot parameterLast

/-- What may stand before a comma in a list of arguments. -/
def argumentSlot : Phrase := any [nothing, truthValue, one .identifier]

/-- What a list of arguments ends with. -/
def argumentLast : Phrase :=
  any [one .rightAngle, all [truthValue, optOne .rightAngle],
    all [one .identifier, optOne .rightAngle]]

/-- Arguments, from behind the opening bracket on. -/
def argumentList : Phrase := listed argumentSlot argumentLast

/-! ## Expressions -/

/-- A binding, whose name may be missing. -/
def binding : Phrase := opt .colon (optOne .identifier)

/-- Whether a term can begin with a word of kind `k`. -/
def beginsTerm : TokenKind → Bool
  | .leftParen | .identifier | .keywordEof | .string | .characterClass | .ampersand | .bang
  | .snippetStart => true
  | _ => false

/-- Whether a word of kind `k` repeats the term before it. -/
def isMark : TokenKind → Bool
  | .question | .star | .plus => true
  | _ => false

/-- Any number of marks of repetition. -/
def marks : Phrase := fun ks rest => rest = ks.dropWhile isMark

/-- The levels of an expression.  `moreTerms` is what a sequence goes on with behind its first
term, and `moreAlternatives` what an expression goes on with behind its first sequence. -/
inductive Level where
  | term
  | moreTerms
  | sequence
  | moreAlternatives
  | expression
deriving DecidableEq, Repr

/-- The phrases of an expression, level by level. -/
inductive ExpressionPhrase : Level → Phrase
  | emptyGroup {rest : List TokenKind} :
      ExpressionPhrase .term (.leftParen :: .rightParen :: rest) rest
  | group {ks mid rest : List TokenKind} (h : ExpressionPhrase .expression ks mid)
      (hclose : optOne .rightParen mid rest) : ExpressionPhrase .term (.leftParen :: ks) rest
  | reference {ks mid rest : List TokenKind} (hargs : opt .leftAngle argumentList ks mid)
      (hbinding : binding mid rest) : ExpressionPhrase .term (.identifier :: ks) rest
  | keywordEof {rest : List TokenKind} : ExpressionPhrase .term (.keywordEof :: rest) rest
  | string {rest : List TokenKind} : ExpressionPhrase .term (.string :: rest) rest
  | characterClass {ks rest : List TokenKind} (hbinding : binding ks rest) :
      ExpressionPhrase .term (.characterClass :: ks) rest
  | ampersand {ks rest : List TokenKind} (h : ExpressionPhrase .term ks rest) :
      ExpressionPhrase .term (.ampersand :: ks) rest
  | bang {ks rest : List TokenKind} (h : ExpressionPhrase .term ks rest) :
      ExpressionPhrase .term (.bang :: ks) rest
  | snippet {rest : List TokenKind} : ExpressionPhrase .term (.snippetStart :: rest) rest
  | lastTerm {ks : List TokenKind} (h : ∀ k ∈ ks.head?, beginsTerm k = false) :
      ExpressionPhrase .moreTerms ks ks
  | anotherTerm {ks mid mid' rest : List TokenKind} (h : ExpressionPhrase .term ks mid)
      (hmarks : marks mid mid') (hmore : ExpressionPhrase .moreTerms mid' rest) :
      ExpressionPhrase .moreTerms ks rest
  | sequence {ks mid mid' rest : List TokenKind} (h : ExpressionPhrase .term ks mid)
      (hmarks : marks mid mid') (hmore : ExpressionPhrase .moreTerms mid' rest) :
      ExpressionPhrase .sequence ks rest
  | lastAlternative {ks : List TokenKind} (h : ks.head? ≠ some .slash) :
      ExpressionPhrase .moreAlternatives ks ks
  | anotherAlternative {ks mid rest : List TokenKind} (h : ExpressionPhrase .sequence ks mid)
      (hmore : ExpressionPhrase .moreAlternatives mid rest) :
      ExpressionPhrase .moreAlternatives (.slash :: ks) rest
  | expression {ks mid rest : List TokenKind} (h : ExpressionPhrase .sequence ks mid)
      (hmore : ExpressionPhrase .moreAlternatives mid rest) :
      ExpressionPhrase .expression ks rest

/-! ## Items -/

/-- Whether an item, or the end of the file, can stand at a word of kind `k`. -/
def beginsItem : TokenKind → Bool
  | .keywordTypedef | .keywordCode | .keywordNamespace | .identifier | .endOfFile => true
  | _ => false

/-- What ends an item: a semicolon, or nothing in front of the next item or the end of the
file. -/
def itemClose : Phrase :=
  any [one .semicolon, fun ks rest => ks = rest ∧ ∀ k ∈ ks.head?, beginsItem k = true]

/-- The names of a qualified name behind its first. -/
def morePath : Phrase := many .doubleColon (one .identifier)

/-- An item. -/
def item : Phrase :=
  any [
    all [one .keywordTypedef, optOne .doubleColon, one .identifier, morePath, one .identifier,
      itemClose],
    all [one .keywordNamespace, one .identifier, morePath, itemClose],
    all [one .keywordCode, one .identifier, optOne .snippetStart, itemClose],
    all [one .identifier, opt .leftAngle parameterList, opt .colon (one .identifier),
      one .equals, ExpressionPhrase .expression, itemClose]]

/-- A sequence of items and nothing else. -/
inductive GrammarFile : List TokenKind → Prop
  | nil : GrammarFile []
  | cons {ks rest : List TokenKind} (h : item ks rest) (hs : GrammarFile rest) : GrammarFile ks

end GrammarPaint
