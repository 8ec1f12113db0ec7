import GrammarPaint.Style

/-!
# Palettes

A palette says how each style looks: in which colour, and whether bold or italic.  Text without a
style looks plain whatever the palette (`Look.plain`).

A palette is a function on styles, and since there are finitely many of them two palettes can be
compared.
-/

set_option autoImplicit false
namespace GrammarPaint

/-- A colour by its red, green and blue parts. -/
structure Rgb where
  red : UInt8
  green : UInt8
  blue : UInt8
deriving DecidableEq, Repr

namespace Rgb

/-- The colour without any light. -/
def black : Rgb := ⟨0, 0, 0⟩

/-- The digits of a byte in base sixteen, of which there are always two. -/
def hexByte (b : UInt8) : String :=
  String.ofList [Nat.digitChar (b.toNat / 16), Nat.digitChar (b.toNat % 16)]

instance : ToString Rgb where
  toString c := "#" ++ hexByte c.red ++ hexByte c.green ++ hexByte c.blue

end Rgb

/-- The weight and slant of a font. -/
structure Font where
  bold : Bool
  italic : Bool
deriving DecidableEq, Repr

namespace Font

/-- Neither bold nor italic. -/
def normal : Font := ⟨false, false⟩

/-- The font that the two lowest bits of a number stand for; other bits stand for nothing. -/
def ofBits (bits : Nat) : Font := ⟨bits.testBit 0, bits.testBit 1⟩

/-- The number that stands for a font. -/
def bits (f : Font) : Nat := f.bold.toNat + 2 * f.italic.toNat

theorem ofBits_bits (f : Font) : ofBits f.bits = f := by
  obtain ⟨bold, italic⟩ := f
  cases bold <;> cases italic <;> rfl

end Font

/-- How a stretch of text is drawn. -/
structure Look where
  foreground : Rgb
  font : Font
deriving DecidableEq, Repr

/-- The look of text without a style. -/
def Look.plain : Look := ⟨.black, .normal⟩

/-- The look of each style before anything is changed. -/
def Style.look (s : Style) : Look :=
  match s with
  | .keyword | .codeKeyword => ⟨⟨127, 0, 85⟩, ⟨true, false⟩⟩
  | .ruleName => ⟨⟨0, 80, 50⟩, ⟨false, true⟩⟩
  | .typeName => ⟨⟨0, 80, 50⟩, ⟨true, false⟩⟩
  | .resultVariable => ⟨⟨0, 0, 192⟩, .normal⟩
  | .templateVariable => ⟨⟨100, 70, 50⟩, ⟨true, false⟩⟩
  | .substitution => ⟨⟨100, 70, 50⟩, ⟨true, true⟩⟩
  | .lineComment | .blockComment | .codeLineComment | .codeBlockComment =>
    ⟨⟨63, 127, 95⟩, .normal⟩
  | .characterClass => ⟨⟨42, 0, 255⟩, ⟨false, true⟩⟩
  | .string | .codeString | .codeChar | .codeHeaderName => ⟨⟨42, 0, 255⟩, .normal⟩
  | .code => ⟨⟨100, 40, 128⟩, ⟨true, false⟩⟩
  | .codeUnknown => ⟨⟨224, 0, 0⟩, ⟨true, false⟩⟩
  | .identifier | .operator | .codeIdentifier | .codeNumber | .codePunctuator => .plain

/-- A look for every style. -/
structure Palette where
  look : Style → Look

namespace Palette

/-- The palette in which nothing has been changed. -/
def standard : Palette := ⟨Style.look⟩

/-- The look of text that may have no style. -/
def resolve (p : Palette) : Option Style → Look
  | some s => p.look s
  | none => .plain

/-- Change the look of one style. -/
def set (p : Palette) (s : Style) (l : Look) : Palette :=
  ⟨fun t => if t = s then l else p.look t⟩

/-- The looks of all styles, in the order of the styles. -/
def toList (p : Palette) : List (Style × Look) := Style.all.map fun s => (s, p.look s)

theorem look_set (p : Palette) (s t : Style) (l : Look) :
    (p.set s l).look t = if t = s then l else p.look t := rfl

/-- **A palette is its list of looks.** -/
theorem toList_inj {p q : Palette} : p.toList = q.toList ↔ p = q := by
  refine ⟨fun h => ?_, fun h => h ▸ rfl⟩
  cases p with | mk f
  cases q with | mk g
  congr 1
  funext s
  have hs := List.map_inj_left.1 h s (Style.mem_all s)
  exact (Prod.mk.inj hs).2

instance : DecidableEq Palette := fun _ _ => decidable_of_iff _ toList_inj

end Palette
end GrammarPaint
