import GrammarPaint.Text.Document

/-!
# A cursor over a document

A cursor stands at an offset of a document and reads the code points from there on.  Where the
document has ended it reads U+0000; since a document may hold that character itself,
`Cursor.isAtEnd` is what tells the two apart.

Moving by code points keeps the cursor on the boundaries of the document's code points.  Moving
by units does not: a cursor may come to stand inside a pair, and then reads its second half as a
lone surrogate.
-/

set_option autoImplicit false
namespace GrammarPaint

/-- An offset in a document. -/
structure Cursor where
  document : Document
  position : Nat

namespace Cursor

/-- The character read where a document has ended. -/
def endChar : Char := '\x00'

/-- The cursor at the start of a document. -/
def start (d : Document) : Cursor := ⟨d, 0⟩

/-- The code units from the cursor on. -/
def units (c : Cursor) : List CodeUnit := c.document.units.drop c.position

/-- The code points from the cursor on. -/
def points (c : Cursor) : List CodePoint := CodePoint.decode c.units

/-- Whether the document has ended. -/
def isAtEnd (c : Cursor) : Bool := c.document.length ≤ c.position

/-- The character `n` code points ahead. -/
def ahead (c : Cursor) (n : Nat) : Char :=
  match CodePoint.decodeNth c.units n with
  | some p => p.char
  | none => endChar

/-- The character under the cursor. -/
def current (c : Cursor) : Char := c.ahead 0

/-- Move past one code point; at the end, stay. -/
def advance (c : Cursor) : Cursor :=
  match CodePoint.decodeFirst c.units with
  | none => c
  | some (p, _) => { c with position := c.position + p.width }

/-- Move past the current code point if it reads as `ch`. -/
def skip (c : Cursor) (ch : Char) : Bool × Cursor :=
  if !c.isAtEnd && c.current == ch then (true, c.advance) else (false, c)

/-- Move past code points as long as they satisfy `p`, and stop at the end in any case. -/
def skipWhile (c : Cursor) (p : Char → Bool) : Cursor :=
  { c with position := c.position + CodePoint.widthWhile p c.units }

/-- Whether the units from the cursor on begin with `units`. -/
def startsWith (c : Cursor) (units : List CodeUnit) : Bool :=
  units.isPrefixOf c.units

/-- Move by `n` units, but not past the end. -/
def advanceUnits (c : Cursor) (n : Nat) : Cursor :=
  { c with position := min (c.position + n) c.document.length }

/-- The text from `start` to the cursor. -/
def textFrom (c : Cursor) (start : Nat) : String := c.document.text ⟨start, c.position⟩

/-! ## What a cursor reads are the code points from it on -/

theorem ahead_eq (c : Cursor) (n : Nat) :
    c.ahead n = match c.points[n]? with
      | some p => p.char
      | none => endChar := by
  rw [ahead, CodePoint.decodeNth_eq, points]

theorem skipWhile_eq (c : Cursor) (p : Char → Bool) :
    c.skipWhile p =
      { c with
        position := c.position + CodePoint.totalWidth (c.points.takeWhile fun q => p q.char) } := by
  rw [skipWhile, CodePoint.widthWhile_eq, points]

theorem advance_of_isAtEnd {c : Cursor} (h : c.isAtEnd = true) : c.advance = c := by
  have hdrop : c.units = [] := List.drop_eq_nil_of_le (of_decide_eq_true h)
  simp only [advance, hdrop, CodePoint.decodeFirst]

end Cursor
end GrammarPaint
