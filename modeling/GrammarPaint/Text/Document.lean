import GrammarPaint.Span
import GrammarPaint.Text.CodePoint

/-!
# Documents

A document is a sequence of code units, read by offset.  Reading past its end gives nothing, and
a span that reaches past the end covers what there is.

Text that was encoded from characters has no lone surrogates; units handed in by an editor may,
and `Document.loneSurrogates` says where.
-/

set_option autoImplicit false
namespace GrammarPaint

/-- A sequence of UTF-16 code units. -/
structure Document where
  units : List CodeUnit
deriving DecidableEq, Inhabited

namespace Document

/-- The document that holds a text. -/
def ofText (text : String) : Document := ⟨text.toList.flatMap fun c => (CodePoint.scalar c).units⟩

instance : Append Document := ⟨fun a b => ⟨a.units ++ b.units⟩⟩

/-- The number of code units. -/
def length (d : Document) : Nat := d.units.length

/-- Whether there is no code unit. -/
def isEmpty (d : Document) : Bool := d.units.isEmpty

/-- The code unit at `offset`; none at or past the end. -/
def unitAt? (d : Document) (offset : Nat) : Option CodeUnit := d.units[offset]?

/-- The code points of the whole document. -/
def points (d : Document) : List CodePoint := CodePoint.decode d.units

/-- The code units that `span` covers. -/
def slice (d : Document) (span : Span) : List CodeUnit := (d.units.take span.stop).drop span.start

/-- The text that `span` covers, decoded on its own: a pair that the span cuts in two reads as a
lone surrogate. -/
def text (d : Document) (span : Span) : String := spell (CodePoint.decode (d.slice span))

/-! ## Lone surrogates -/

/-- The spans of the lone surrogates among `points`, the first of which is at `offset`. -/
def loneSpans (offset : Nat) : List CodePoint → List Span
  | [] => []
  | p :: rest =>
    let later := loneSpans (offset + p.width) rest
    if p.isLone then ⟨offset, offset + p.width⟩ :: later else later

/-- The spans of the surrogates among `units` that are not part of a pair.  The first unit is at
`offset`, and nothing is decoded. -/
def loneUnitSpans (offset : Nat) : List CodeUnit → List Span
  | [] => []
  | [u] => if u.isSurrogate then [⟨offset, offset + 1⟩] else []
  | u :: v :: rest =>
    if u.isHighSurrogate && v.isLowSurrogate then loneUnitSpans (offset + 2) rest
    else if u.isSurrogate then ⟨offset, offset + 1⟩ :: loneUnitSpans (offset + 1) (v :: rest)
    else loneUnitSpans (offset + 1) (v :: rest)

/-- The spans of the surrogates that are not part of a pair, in order. -/
def loneSurrogates (d : Document) : List Span := loneUnitSpans 0 d.units

theorem loneSpans_ofUnit (offset : Nat) (u : CodeUnit) (points : List CodePoint) :
    loneSpans offset (.ofUnit u :: points)
      = if u.isSurrogate then ⟨offset, offset + 1⟩ :: loneSpans (offset + 1) points
        else loneSpans (offset + 1) points := by
  rw [loneSpans, CodePoint.isLone_ofUnit, CodePoint.width_ofUnit]

theorem loneUnitSpans_eq (offset : Nat) (us : List CodeUnit) :
    loneUnitSpans offset us = loneSpans offset (CodePoint.decode us) := by
  fun_induction loneUnitSpans offset us with
  | case1 => rfl
  | case2 offset u hu => rw [CodePoint.decode, loneSpans_ofUnit, if_pos hu, loneSpans]
  | case3 offset u hu => rw [CodePoint.decode, loneSpans_ofUnit, if_neg hu, loneSpans]
  | case4 offset u v rest hpair ih =>
    rw [CodePoint.decode, if_pos hpair, loneSpans, CodePoint.width_ofPair hpair, ih]
    rfl
  | case5 offset u v rest hpair hu ih =>
    rw [CodePoint.decode, if_neg hpair, loneSpans_ofUnit, if_pos hu, ih]
  | case6 offset u v rest hpair hu ih =>
    rw [CodePoint.decode, if_neg hpair, loneSpans_ofUnit, if_neg hu, ih]

/-- Decoding finds the same surrogates alone. -/
theorem loneSurrogates_eq (d : Document) : d.loneSurrogates = loneSpans 0 d.points :=
  loneUnitSpans_eq 0 d.units

theorem units_append (a b : Document) : (a ++ b).units = a.units ++ b.units := rfl

theorem slice_eq_nil {d : Document} {span : Span} (h : span.stop ≤ span.start) :
    d.slice span = [] :=
  List.drop_eq_nil_of_le (by simp only [List.length_take]; omega)

/-- The whole span covers the whole document. -/
theorem slice_whole (d : Document) : d.slice ⟨0, d.length⟩ = d.units := by
  simp [slice, length]

end Document
end GrammarPaint
