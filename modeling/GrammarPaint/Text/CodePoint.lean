/-!
# Code units and code points

Documents are sequences of 16-bit code units, as editors keep them.  A high surrogate with a low
one directly behind it stands for one scalar value; every other unit stands for itself.  A buffer
may break that rule and hold a surrogate without its partner.  Such a unit is kept as it is
(`CodePoint.lone`), so that decoding forgets nothing: **the units of the decoded code points are
the units that were decoded** (`flatMap_units_decode`).  Where a character is wanted, a lone
surrogate reads as U+FFFD.
-/

set_option autoImplicit false
namespace GrammarPaint

/-- A UTF-16 code unit. -/
abbrev CodeUnit := UInt16

namespace CodeUnit

/-- The first unit of a pair. -/
def isHighSurrogate (u : CodeUnit) : Bool := 0xD800 ≤ u && u ≤ 0xDBFF

/-- The second unit of a pair. -/
def isLowSurrogate (u : CodeUnit) : Bool := 0xDC00 ≤ u && u ≤ 0xDFFF

/-- A unit that does not stand for a character by itself. -/
def isSurrogate (u : CodeUnit) : Bool := u.isHighSurrogate || u.isLowSurrogate

end CodeUnit

/-- What a reader of code units meets: a scalar value, or a surrogate without its partner. -/
inductive CodePoint where
  | scalar (c : Char)
  | lone (unit : CodeUnit)
deriving DecidableEq, Repr, Inhabited

namespace CodePoint

/-- The character a code point reads as. -/
def char : CodePoint → Char
  | scalar c => c
  | lone _ => '\uFFFD'

/-- Whether a code point is a surrogate without its partner. -/
def isLone : CodePoint → Bool
  | scalar _ => false
  | lone _ => true

/-- The code units that stand for a code point. -/
def units : CodePoint → List CodeUnit
  | scalar c =>
    if c.toNat < 0x10000 then [c.toNat.toUInt16]
    else [(0xD800 + (c.toNat - 0x10000) / 0x400).toUInt16,
      (0xDC00 + (c.toNat - 0x10000) % 0x400).toUInt16]
  | lone u => [u]

/-- The number of code units that stand for a code point. -/
def width (p : CodePoint) : Nat := p.units.length

theorem width_pos (p : CodePoint) : 0 < p.width := by
  unfold width units
  split
  · split <;> simp
  · simp

/-- The number of code units that stand for code points in a row. -/
def totalWidth : List CodePoint → Nat
  | [] => 0
  | p :: points => p.width + totalWidth points

theorem totalWidth_append (a b : List CodePoint) :
    totalWidth (a ++ b) = totalWidth a + totalWidth b := by
  induction a with
  | nil => exact (Nat.zero_add _).symm
  | cons p a ih => rw [List.cons_append, totalWidth, totalWidth, ih, Nat.add_assoc]

/-- The code point of a unit that is no part of a pair. -/
def ofUnit (u : CodeUnit) : CodePoint :=
  if u.isSurrogate then lone u else scalar (Char.ofNat u.toNat)

/-- The code point of a surrogate pair. -/
def ofPair (high low : CodeUnit) : CodePoint :=
  scalar (Char.ofNat (0x10000 + (high.toNat - 0xD800) * 0x400 + (low.toNat - 0xDC00)))

/-- The code points of a sequence of units.  Pairing is decided from the left, and a high
surrogate pairs with the unit behind it exactly when that is a low one. -/
def decode : List CodeUnit → List CodePoint
  | [] => []
  | [u] => [ofUnit u]
  | u :: v :: rest =>
    if u.isHighSurrogate && v.isLowSurrogate then ofPair u v :: decode rest
    else ofUnit u :: decode (v :: rest)

/-- The first code point of a sequence of units, and the units behind it. -/
def decodeFirst : List CodeUnit → Option (CodePoint × List CodeUnit)
  | [] => none
  | [u] => some (ofUnit u, [])
  | u :: v :: rest =>
    if u.isHighSurrogate && v.isLowSurrogate then some (ofPair u v, rest)
    else some (ofUnit u, v :: rest)

/-- The code point of a sequence of units that has `n` others before it. -/
def decodeNth (us : List CodeUnit) (n : Nat) : Option CodePoint :=
  match n with
  | 0 => (decodeFirst us).map Prod.fst
  | n + 1 => match decodeFirst us with
    | none => none
    | some (_, rest) => decodeNth rest n

/-- The number of units that stand for the leading code points that read as characters of class
`p`. -/
def widthWhile (p : Char → Bool) : List CodeUnit → Nat
  | [] => 0
  | [u] => if p (ofUnit u).char then 1 else 0
  | u :: v :: rest =>
    if u.isHighSurrogate && v.isLowSurrogate then
      if p (ofPair u v).char then 2 + widthWhile p rest else 0
    else if p (ofUnit u).char then 1 + widthWhile p (v :: rest) else 0

/-! ## Decoding forgets nothing -/

theorem toNat_ofNat {n : Nat} (h : n.isValidChar) : (Char.ofNat n).toNat = n := by
  rw [Char.ofNat, dif_pos h]
  rfl

theorem units_ofUnit (u : CodeUnit) : (ofUnit u).units = [u] := by
  unfold ofUnit
  split
  · rfl
  · rename_i h
    have hu := u.toNat_lt
    have hvalid : u.toNat.isValidChar := by
      simp only [CodeUnit.isSurrogate, CodeUnit.isHighSurrogate, CodeUnit.isLowSurrogate,
        Bool.or_eq_true, Bool.and_eq_true, decide_eq_true_eq, UInt16.le_iff_toNat_le] at h
      simp at h
      simp only [Nat.isValidChar]
      omega
    rw [units, toNat_ofNat hvalid, if_pos (by omega)]
    simp

private theorem toUInt16_eq {n : Nat} {u : CodeUnit} (h : n = u.toNat) : n.toUInt16 = u := by
  subst h
  exact UInt16.ofNat_toNat

theorem units_ofPair {high low : CodeUnit} (hhigh : high.isHighSurrogate)
    (hlow : low.isLowSurrogate) : (ofPair high low).units = [high, low] := by
  simp only [CodeUnit.isHighSurrogate, CodeUnit.isLowSurrogate, Bool.and_eq_true,
    decide_eq_true_eq, UInt16.le_iff_toNat_le] at hhigh hlow
  simp at hhigh hlow
  rw [ofPair, units, toNat_ofNat (Or.inr (by omega)), if_neg (by omega)]
  rw [toUInt16_eq (u := high) (by omega), toUInt16_eq (u := low) (by omega)]

/-- **Decoding forgets nothing.** -/
theorem flatMap_units_decode (us : List CodeUnit) : (decode us).flatMap units = us := by
  fun_induction decode us with
  | case1 => rfl
  | case2 u => simp [units_ofUnit]
  | case3 u v rest hpair ih =>
    rw [Bool.and_eq_true] at hpair
    rw [List.flatMap_cons, ih, units_ofPair hpair.1 hpair.2, List.cons_append,
      List.singleton_append]
  | case4 u v rest _ ih =>
    rw [List.flatMap_cons, ih, units_ofUnit, List.singleton_append]

/-! ## Decoding a part agrees with decoding the whole -/

theorem decode_eq (us : List CodeUnit) :
    decode us = match decodeFirst us with
      | none => []
      | some (p, rest) => p :: decode rest := by
  match us with
  | [] => rfl
  | [u] => rfl
  | u :: v :: rest =>
    rw [decode, decodeFirst]
    split <;> rfl

theorem decodeNth_eq (us : List CodeUnit) (n : Nat) : decodeNth us n = (decode us)[n]? := by
  induction n generalizing us with
  | zero =>
    rw [decodeNth, decode_eq]
    cases decodeFirst us <;> rfl
  | succ n ih =>
    rw [decodeNth, decode_eq]
    cases decodeFirst us with
    | none => rfl
    | some first => exact ih first.2

theorem width_ofUnit (u : CodeUnit) : (ofUnit u).width = 1 := by rw [width, units_ofUnit]; rfl

theorem width_ofPair {u v : CodeUnit} (h : (u.isHighSurrogate && v.isLowSurrogate) = true) :
    (ofPair u v).width = 2 := by
  rw [Bool.and_eq_true] at h
  rw [width, units_ofPair h.1 h.2]
  rfl

theorem totalWidth_takeWhile_cons (f : CodePoint → Bool) (q : CodePoint)
    (points : List CodePoint) :
    totalWidth ((q :: points).takeWhile f) =
      if f q then q.width + totalWidth (points.takeWhile f) else 0 := by
  rw [List.takeWhile_cons]
  split <;> rfl

theorem widthWhile_eq (p : Char → Bool) (us : List CodeUnit) :
    widthWhile p us = totalWidth ((decode us).takeWhile fun q => p q.char) := by
  fun_induction widthWhile p us with
  | case1 => rfl
  | case2 u hp => rw [decode, totalWidth_takeWhile_cons, if_pos hp, width_ofUnit]; rfl
  | case3 u hp => rw [decode, totalWidth_takeWhile_cons, if_neg hp]
  | case4 u v rest hpair hp ih =>
    rw [decode, if_pos hpair, totalWidth_takeWhile_cons, if_pos hp, width_ofPair hpair, ih]
  | case5 u v rest hpair hp =>
    rw [decode, if_pos hpair, totalWidth_takeWhile_cons, if_neg hp]
  | case6 u v rest hpair hp ih =>
    rw [decode, if_neg hpair, totalWidth_takeWhile_cons, if_pos hp, width_ofUnit, ih]
  | case7 u v rest hpair hp =>
    rw [decode, if_neg hpair, totalWidth_takeWhile_cons, if_neg hp]

theorem isLone_ofUnit (u : CodeUnit) : (ofUnit u).isLone = u.isSurrogate := by
  unfold ofUnit
  split
  · exact Eq.symm ‹_›
  · exact (Bool.eq_false_iff.2 ‹_›).symm

/-- The character of an unpaired unit is the one with its number, unless it is a surrogate. -/
theorem char_ofUnit (u : CodeUnit) :
    (ofUnit u).char = if u.isSurrogate then '\uFFFD' else Char.ofNat u.toNat := by
  unfold ofUnit
  split <;> rfl

/-- A code point that reads as another character than U+FFFD is that character. -/
theorem eq_scalar_of_char {p : CodePoint} {c : Char} (h : p.char = c) (hc : c ≠ '\uFFFD') :
    p = .scalar c := by
  cases p with
  | scalar d => exact congrArg CodePoint.scalar h
  | lone u => exact absurd h.symm hc

end CodePoint

/-- The text that code points read as. -/
def spell (points : List CodePoint) : String := String.ofList (points.map CodePoint.char)

theorem spell_append (a b : List CodePoint) : spell (a ++ b) = spell a ++ spell b := by
  rw [spell, spell, spell, List.map_append, String.ofList_append]

end GrammarPaint
