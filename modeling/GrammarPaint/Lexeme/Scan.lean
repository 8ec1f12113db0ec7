import GrammarPaint.Lexeme.Extent
import GrammarPaint.Lexeme.Issue

/-!
# What a scan finds

A scan looks at the first character of what is left of a document, and at as much behind it as it
needs, and answers what begins there: a kind, the number of *further* code points that belong to
it, and a fault if it is not closed.  The first code point always belongs to it, so whatever a
scan answers, the text gets shorter.

Comments look the same in grammar text and in snippets, so their scan is here.
-/

set_option autoImplicit false
namespace GrammarPaint

/-- What begins at a code point: its kind, how many further code points belong to it, and what is
wrong with it. -/
structure Scan where
  kind : TokenKind
  more : Nat
  fault : Option LexicalFault
deriving DecidableEq, Repr

/-- Something that nothing is wrong with. -/
def Scan.plain (kind : TokenKind) (more : Nat) : Scan := ⟨kind, more, none⟩

/-- Something that must be closed: it has `fault` if it is not. -/
def Extent.scan (e : Extent) (kind : TokenKind) (fault : LexicalFault) : Scan :=
  ⟨kind, e.size, if e.closed then none else some fault⟩

/-- The comment that begins with a slash before `rest`, if one does.  Block comments have the kind
`block` and do not nest; line comments have the kind `line` and leave the line break out. -/
def scanComment? (block line : TokenKind) (rest : List CodePoint) : Option Scan :=
  if beginsWith '*' rest then
    some (((commentExtent rest.tail).after 1).scan block .unclosedBlockComment)
  else if beginsWith '/' rest then
    some (.plain line (1 + runLength (fun c => !isLineBreak c) rest.tail))
  else none

/-! ## What closes a comment, as a mark -/

/-- What closes a block comment. -/
def commentClose : List CodePoint := [.scalar '*', .scalar '/']

theorem isPrefixOf_commentClose (p : CodePoint) (rest : List CodePoint) :
    commentClose.isPrefixOf (p :: rest) = (p.char == '*' && beginsWith '/' rest) := by
  have hchar {c : Char} (hc : c ≠ '\uFFFD') (p : CodePoint) : (.scalar c == p) = (p.char == c) := by
    rw [Bool.eq_iff_iff, beq_iff_eq, beq_iff_eq]
    exact ⟨fun h => h ▸ rfl, fun h => (CodePoint.eq_scalar_of_char h hc).symm⟩
  cases rest with
  | nil => simp [commentClose, beginsWith, List.isPrefixOf]
  | cons q rest =>
    simp only [commentClose, List.isPrefixOf_cons_cons, List.isPrefixOf, Bool.and_true, beginsWith]
    rw [hchar (by decide), hchar (by decide)]

/-- A comment is closed by the first star with a slash behind it, which is the first occurrence of
both together. -/
theorem commentExtent_eq (points : List CodePoint) :
    commentExtent points = extentThrough commentClose points := by
  induction points with
  | nil => rfl
  | cons p rest ih => rw [commentExtent, extentThrough, isPrefixOf_commentClose, ih]; rfl

end GrammarPaint
