import GrammarPaint.Analysis
import GrammarPaint.Palette

/-!
# Presenting a part of a document

An editor repaints a window of a document, given by an offset and a length.  The whole document is
analysed for that, since what a token is depends on what stands before it, and the tokens are
clipped to the window.  A window that reaches past the document is cut off at its end.

`Document.pieces` is what the window shows of each token, the token that ends the file included.
`Document.presentation` is what is drawn there: runs of text in one look, as long as they can be.
-/

set_option autoImplicit false
namespace GrammarPaint

/-! ## Pieces -/

/-- The part of a token that a window shows. -/
structure Piece where
  span : Span
  style : Option Style
  isEnd : Bool
deriving DecidableEq, Repr

namespace Document

/-- The window of `length` code units from `offset` on, as far as the document goes. -/
def window (d : Document) (offset length : Nat) : Span :=
  ⟨min offset d.length, min (offset + length) d.length⟩

/-- What the window shows of the tokens that do not end before it.  A token behind the window is
shown as an empty piece. -/
def pieces (d : Document) (offset length : Nat) : List Piece :=
  let window := d.window offset length
  (d.styledTokens.filter fun t => t.isEnd || window.start < t.span.stop).map
    fun t => ⟨t.span.clip window, t.style, t.isEnd⟩

end Document

/-! ## Runs -/

/-- A stretch of text in one look. -/
structure Run where
  span : Span
  look : Look
deriving DecidableEq, Repr

/-- Put a run in front of others.  If the first of them looks the same and begins where the run
ends, the two become one. -/
def Run.cons (r : Run) : List Run → List Run
  | [] => [r]
  | s :: runs =>
    if s.look = r.look ∧ s.span.start = r.span.stop then
      ⟨⟨r.span.start, s.span.stop⟩, r.look⟩ :: runs
    else r :: s :: runs

namespace Palette

/-- The look of a piece, as a run of its own. -/
def run (p : Palette) (piece : Piece) : Run := ⟨piece.span, p.resolve piece.style⟩

/-- The runs that pieces make up, the empty ones left out. -/
def runs (p : Palette) (pieces : List Piece) : List Run :=
  ((pieces.filter fun piece => !piece.isEnd && piece.span.length != 0).map p.run).foldr Run.cons []

end Palette

/-- What is drawn in a window. -/
def Document.presentation (d : Document) (p : Palette) (offset length : Nat) : List Run :=
  p.runs (d.pieces offset length)

end GrammarPaint
