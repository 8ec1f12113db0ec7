import GrammarPaint.Text.CodePoint
import GrammarPaint.Lexeme.Vocabulary

/-!
# How far a lexeme reaches

Everything here measures, in code points, the part of the text that belongs to something that has
just been opened.  The measures are

* `runLength` — the longest run of characters of a class;
* `extentThrough` — up to and including the first occurrence of a mark, which closes raw strings;
* `commentExtent` — up to and including the slash behind a star that closes a block comment;
* `quotedExtent` — up to and including an unescaped closing character, but not beyond the line;
* `headerExtent` — the same without escapes.

An `Extent` also says whether what was opened is closed.  An extent that is not reaches the line
break or the end of the text that stopped it.  No extent is longer than the text it measures
(`size_extentThrough_le` and its companions).
-/

set_option autoImplicit false
namespace GrammarPaint

/-- The number of leading code points that read as characters of class `p`. -/
def runLength (p : Char → Bool) (points : List CodePoint) : Nat :=
  (points.takeWhile fun q => p q.char).length

/-- Whether the text goes on with the character `c`. -/
def beginsWith (c : Char) : List CodePoint → Bool
  | [] => false
  | p :: _ => p.char == c

/-- A number of code points, and whether they end in what closes them. -/
structure Extent where
  size : Nat
  closed : Bool
deriving DecidableEq, Repr

/-- The extent that has `n` more code points in front. -/
def Extent.after (n : Nat) (e : Extent) : Extent := ⟨n + e.size, e.closed⟩

/-- Up to and including the first occurrence of `mark`. -/
def extentThrough (mark : List CodePoint) : List CodePoint → Extent
  | [] => ⟨0, false⟩
  | p :: rest =>
    if mark.isPrefixOf (p :: rest) then ⟨mark.length, true⟩ else (extentThrough mark rest).after 1

/-- Up to and including the first slash directly behind a star. -/
def commentExtent : List CodePoint → Extent
  | [] => ⟨0, false⟩
  | p :: rest =>
    if p.char == '*' && beginsWith '/' rest then ⟨2, true⟩ else (commentExtent rest).after 1

/-- Up to and including the first `close` that no backslash escapes, unless a line break comes
first.  A backslash escapes whatever follows it; whether that may be a line break is up to
`escapesBreaks`. -/
def quotedExtent (close : Char) (escapesBreaks : Bool) : List CodePoint → Extent
  | [] => ⟨0, false⟩
  | p :: rest =>
    if p.char = close then ⟨1, true⟩
    else if isLineBreak p.char then ⟨0, false⟩
    else if p.char = '\\' then
      match rest with
      | [] => ⟨1, false⟩
      | q :: rest =>
        if isLineBreak q.char && !escapesBreaks then ⟨1, false⟩
        else (quotedExtent close escapesBreaks rest).after 2
    else (quotedExtent close escapesBreaks rest).after 1

/-- Up to and including the first `close`, unless a line break comes first. -/
def headerExtent (close : Char) (points : List CodePoint) : Extent :=
  let size := runLength (fun c => c != close && !isLineBreak c) points
  match points.drop size with
  | [] => ⟨size, false⟩
  | p :: _ => if p.char = close then ⟨size + 1, true⟩ else ⟨size, false⟩

/-! ## Bounds -/

theorem runLength_le (p : Char → Bool) (points : List CodePoint) :
    runLength p points ≤ points.length :=
  (List.takeWhile_sublist _).length_le

theorem size_extentThrough_le (mark points : List CodePoint) :
    (extentThrough mark points).size ≤ points.length := by
  induction points with
  | nil => exact Nat.le_refl 0
  | cons p rest ih =>
    rw [extentThrough]
    split
    · rename_i h
      exact (List.isPrefixOf_iff_prefix.1 h).length_le
    · simp only [Extent.after, List.length_cons]
      omega

theorem size_quotedExtent_le (close : Char) (escapesBreaks : Bool) (points : List CodePoint) :
    (quotedExtent close escapesBreaks points).size ≤ points.length := by
  fun_induction quotedExtent close escapesBreaks points <;>
    simp only [Extent.after, List.length_cons, List.length_nil] at * <;> omega

theorem size_headerExtent_le (close : Char) (points : List CodePoint) :
    (headerExtent close points).size ≤ points.length := by
  have hle := runLength_le (fun c => c != close && !isLineBreak c) points
  rw [headerExtent]
  split
  · exact hle
  · rename_i p rest hdrop
    have hlen := congrArg List.length hdrop
    simp only [List.length_drop, List.length_cons] at hlen
    split
    · simp only
      omega
    · exact hle

end GrammarPaint
