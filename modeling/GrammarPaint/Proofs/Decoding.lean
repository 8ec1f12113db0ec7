import GrammarPaint.Text.CodePoint

/-!
# Decoding parts of a text

Decoding pairs surrogates, so it does not commute with cutting a text anywhere.  It does between
code points that it has found (`IsDecoded.middle`), in front of a unit that cannot be the second
half of a pair (`decode_append`) and behind one that cannot be the first (`decode_append_of_last`).

Characters come back from the units they are encoded as (`decode_unitsOf_scalars`), and no boundary
between code points is in the middle of a pair (`not_pair_of_isDecoded`).
-/

set_option autoImplicit false
namespace GrammarPaint

theorem CodeUnit.isHighSurrogate_iff (u : CodeUnit) :
    u.isHighSurrogate = true ↔ 0xD800 ≤ u.toNat ∧ u.toNat ≤ 0xDBFF := by
  rw [isHighSurrogate, Bool.and_eq_true, decide_eq_true_eq, decide_eq_true_eq,
    UInt16.le_iff_toNat_le, UInt16.le_iff_toNat_le]
  rfl

theorem CodeUnit.isLowSurrogate_iff (u : CodeUnit) :
    u.isLowSurrogate = true ↔ 0xDC00 ≤ u.toNat ∧ u.toNat ≤ 0xDFFF := by
  rw [isLowSurrogate, Bool.and_eq_true, decide_eq_true_eq, decide_eq_true_eq,
    UInt16.le_iff_toNat_le, UInt16.le_iff_toNat_le]
  rfl

namespace CodePoint

/-! ## Decoding a stretch of code points again -/

/-- The units of code points in a row. -/
def unitsOf (points : List CodePoint) : List CodeUnit := points.flatMap units

theorem unitsOf_cons (p : CodePoint) (points : List CodePoint) :
    unitsOf (p :: points) = p.units ++ unitsOf points := List.flatMap_cons

theorem unitsOf_append (a b : List CodePoint) : unitsOf (a ++ b) = unitsOf a ++ unitsOf b :=
  List.flatMap_append

theorem length_unitsOf (points : List CodePoint) :
    (unitsOf points).length = totalWidth points := by
  induction points with
  | nil => rfl
  | cons p points ih => rw [unitsOf_cons, List.length_append, ih]; rfl

/-- Code points that decoding their units gives back. -/
def IsDecoded (points : List CodePoint) : Prop := decode (unitsOf points) = points

theorem isDecoded_decode (us : List CodeUnit) : IsDecoded (decode us) := by
  rw [IsDecoded, unitsOf, flatMap_units_decode]

theorem IsDecoded.tail {p : CodePoint} {points : List CodePoint} (h : IsDecoded (p :: points)) :
    IsDecoded points := by
  rw [IsDecoded, decode_eq] at h
  cases hfirst : decodeFirst (unitsOf (p :: points)) with
  | none => simp [hfirst] at h
  | some first =>
    simp only [hfirst, List.cons.injEq] at h
    exact h.2 ▸ isDecoded_decode first.2

theorem IsDecoded.of_append_right {a b : List CodePoint} (h : IsDecoded (a ++ b)) :
    IsDecoded b := by
  induction a with
  | nil => exact h
  | cons p a ih => exact ih h.tail

/-- A unit pairs with the one behind it or it does not, and cutting off what comes later does not
change that. -/
theorem isDecoded_of_decode_eq_append {us : List CodeUnit} {a b : List CodePoint}
    (h : decode us = a ++ b) : IsDecoded a := by
  have hus : us = unitsOf a ++ unitsOf b := by
    rw [← unitsOf_append, ← h, unitsOf, flatMap_units_decode]
  rw [IsDecoded]
  fun_induction decode us generalizing a with
  | case1 =>
    obtain ⟨rfl, -⟩ := List.append_eq_nil_iff.1 h.symm
    rfl
  | case2 u =>
    cases a with
    | nil => rfl
    | cons p a =>
      simp only [List.cons_append, List.cons.injEq] at h
      obtain ⟨rfl, h⟩ := h
      obtain ⟨rfl, -⟩ := List.append_eq_nil_iff.1 h.symm
      rw [unitsOf_cons, units_ofUnit]
      rfl
  | case3 u v rest hpair ih =>
    cases a with
    | nil => rfl
    | cons p a =>
      simp only [List.cons_append, List.cons.injEq] at h
      obtain ⟨rfl, h⟩ := h
      have hunits := hpair
      rw [Bool.and_eq_true] at hunits
      rw [unitsOf_cons, units_ofPair hunits.1 hunits.2] at hus ⊢
      simp only [List.cons_append, List.nil_append, List.cons.injEq, true_and] at hus ⊢
      rw [decode, if_pos hpair, ih h hus]
  | case4 u v rest hpair ih =>
    cases a with
    | nil => rfl
    | cons p a =>
      simp only [List.cons_append, List.cons.injEq] at h
      obtain ⟨rfl, h⟩ := h
      rw [unitsOf_cons, units_ofUnit] at hus ⊢
      simp only [List.cons_append, List.nil_append, List.cons.injEq, true_and] at hus ⊢
      have ha := ih h hus
      cases hrest : unitsOf a with
      | nil =>
        rw [hrest] at ha
        rw [← ha]
        rfl
      | cons w ws =>
        rw [hrest, List.cons_append, List.cons.injEq] at hus
        obtain ⟨rfl, -⟩ := hus
        rw [decode, if_neg hpair, ← hrest, ha]

theorem IsDecoded.middle {a b c : List CodePoint} (h : IsDecoded (a ++ b ++ c)) : IsDecoded b :=
  (isDecoded_of_decode_eq_append (a := a ++ b) h).of_append_right

/-! ## Where a text can be cut -/

theorem totalWidth_decode (us : List CodeUnit) : totalWidth (decode us) = us.length := by
  rw [← length_unitsOf, unitsOf, flatMap_units_decode]

theorem decode_cons {u : CodeUnit} (h : u.isHighSurrogate = false) (us : List CodeUnit) :
    decode (u :: us) = ofUnit u :: decode us := by
  cases us with
  | nil => rfl
  | cons v us => rw [decode, if_neg (by simp [h])]

theorem decode_append {b : List CodeUnit} (h : ∀ u ∈ b.head?, u.isLowSurrogate = false)
    (a : List CodeUnit) : decode (a ++ b) = decode a ++ decode b := by
  fun_induction decode a with
  | case1 => rfl
  | case2 u =>
    cases b with
    | nil => rfl
    | cons v b =>
      rw [List.singleton_append, decode, if_neg (by simp [h v rfl])]
      rfl
  | case3 u v rest hpair ih =>
    rw [List.cons_append, List.cons_append, decode, if_pos hpair, ih]
    rfl
  | case4 u v rest hpair ih =>
    rw [List.cons_append, List.cons_append, decode, if_neg hpair, ← List.cons_append, ih]
    rfl

theorem decode_append_of_last {a : List CodeUnit}
    (h : ∀ u ∈ a.getLast?, u.isHighSurrogate = false) (b : List CodeUnit) :
    decode (a ++ b) = decode a ++ decode b := by
  fun_induction decode a with
  | case1 => rfl
  | case2 u => exact decode_cons (h u rfl) b
  | case3 u v rest hpair ih =>
    have hlast : ∀ w ∈ rest.getLast?, w.isHighSurrogate = false := by
      intro w hw
      refine h w ?_
      rw [List.getLast?_cons, List.getLast?_cons, Option.mem_def.1 hw]
      rfl
    rw [List.cons_append, List.cons_append, decode, if_pos hpair, ih hlast]
    rfl
  | case4 u v rest hpair ih =>
    rw [List.getLast?_cons_cons] at h
    rw [List.cons_append, List.cons_append, decode, if_neg hpair, ← List.cons_append, ih h]
    rfl

theorem eq_nil_of_totalWidth {points : List CodePoint} (h : totalWidth points = 0) :
    points = [] := by
  cases points with
  | nil => rfl
  | cons p points =>
    have hp := width_pos p
    rw [totalWidth] at h
    omega

/-- Code points can be cut at a given width in one way only. -/
theorem append_inj_of_totalWidth {a b c d : List CodePoint} (h : a ++ b = c ++ d)
    (hwidth : totalWidth a = totalWidth c) : a = c ∧ b = d := by
  rcases List.append_eq_append_iff.1 h with ⟨t, rfl, rfl⟩ | ⟨t, rfl, rfl⟩
  · rw [totalWidth_append] at hwidth
    obtain rfl := eq_nil_of_totalWidth (show totalWidth t = 0 by omega)
    simp
  · rw [totalWidth_append] at hwidth
    obtain rfl := eq_nil_of_totalWidth (show totalWidth t = 0 by omega)
    simp

/-! ## Characters come back from their units -/

theorem toNat_toUInt16 {n : Nat} (h : n < 0x10000) : n.toUInt16.toNat = n :=
  UInt16.toNat_ofNat_of_lt h

/-- A character is decoded from its units, whatever comes behind them. -/
theorem decode_units_append (c : Char) (us : List CodeUnit) :
    decode ((scalar c).units ++ us) = scalar c :: decode us := by
  have hvalid : c.toNat < 0xD800 ∨ 0xDFFF < c.toNat ∧ c.toNat < 0x110000 := c.valid
  by_cases hsmall : c.toNat < 0x10000
  · rw [units, if_pos hsmall, List.singleton_append]
    have hunit : c.toNat.toUInt16.toNat = c.toNat := toNat_toUInt16 hsmall
    generalize c.toNat.toUInt16 = u at hunit ⊢
    have hhigh : ¬ CodeUnit.isHighSurrogate u = true := by
      rw [CodeUnit.isHighSurrogate_iff]
      omega
    have hlow : ¬ CodeUnit.isLowSurrogate u = true := by
      rw [CodeUnit.isLowSurrogate_iff]
      omega
    have hlone : ¬ CodeUnit.isSurrogate u = true := by simp [CodeUnit.isSurrogate, hhigh, hlow]
    rw [decode_cons (Bool.eq_false_iff.2 hhigh), ofUnit, if_neg hlone, hunit, Char.ofNat_toNat]
  · rw [units, if_neg hsmall, List.cons_append, List.singleton_append]
    have hfirst : (0xD800 + (c.toNat - 0x10000) / 0x400).toUInt16.toNat
        = 0xD800 + (c.toNat - 0x10000) / 0x400 := toNat_toUInt16 (by omega)
    have hsecond : (0xDC00 + (c.toNat - 0x10000) % 0x400).toUInt16.toNat
        = 0xDC00 + (c.toNat - 0x10000) % 0x400 := toNat_toUInt16 (by omega)
    generalize (0xD800 + (c.toNat - 0x10000) / 0x400).toUInt16 = u at hfirst ⊢
    generalize (0xDC00 + (c.toNat - 0x10000) % 0x400).toUInt16 = v at hsecond ⊢
    have hhigh : CodeUnit.isHighSurrogate u = true := by
      rw [CodeUnit.isHighSurrogate_iff]
      omega
    have hlow : CodeUnit.isLowSurrogate v = true := by
      rw [CodeUnit.isLowSurrogate_iff]
      omega
    have hchar : 0x10000 + (u.toNat - 0xD800) * 0x400 + (v.toNat - 0xDC00) = c.toNat := by omega
    rw [decode, if_pos (by rw [hhigh, hlow]; rfl), ofPair, hchar, Char.ofNat_toNat]

theorem decode_unitsOf_scalars (text : List Char) :
    decode (unitsOf (text.map scalar)) = text.map scalar := by
  induction text with
  | nil => rfl
  | cons c text ih => rw [List.map_cons, unitsOf_cons, decode_units_append, ih]

/-! ## No cut goes through a pair -/

/-- A code point whose last unit is a high surrogate has no other unit. -/
theorem units_of_isHighSurrogate {p : CodePoint} {u : CodeUnit} (hu : u ∈ p.units.getLast?)
    (h : u.isHighSurrogate = true) : p.units = [u] := by
  cases p with
  | lone w =>
    obtain rfl : w = u := Option.some.inj hu
    rfl
  | scalar c =>
    rw [units] at hu ⊢
    split at hu
    · rename_i hsmall
      rw [if_pos hsmall]
      exact congrArg ([·]) (Option.some.inj hu)
    · -- the second unit of a pair is a low surrogate
      obtain rfl : (0xDC00 + (c.toNat - 0x10000) % 0x400).toUInt16 = u := Option.some.inj hu
      rw [CodeUnit.isHighSurrogate_iff, toNat_toUInt16 (by omega)] at h
      omega

/-- No boundary between code points goes through a pair. -/
theorem not_pair_of_isDecoded {a b : List CodePoint} (h : IsDecoded (a ++ b)) {u v : CodeUnit}
    (hu : u ∈ (unitsOf a).getLast?) (hv : v ∈ (unitsOf b).head?) :
    ¬ (u.isHighSurrogate = true ∧ v.isLowSurrogate = true) := by
  rintro ⟨hhigh, hlow⟩
  rcases List.eq_nil_or_concat a with rfl | ⟨a, p, rfl⟩
  · exact nomatch hu
  rw [List.concat_eq_append] at h hu
  have hp : u ∈ p.units.getLast? := by
    obtain ⟨w, ws, hunits⟩ := List.exists_cons_of_length_pos p.width_pos
    rw [unitsOf_append, unitsOf_cons, hunits] at hu
    rw [hunits]
    simpa [unitsOf] using hu
  have hunits := units_of_isHighSurrogate hp hhigh
  obtain ⟨rest, hrest⟩ := List.head?_eq_some_iff.1 hv
  -- the two units would have been decoded as one code point
  have hfirst : IsDecoded (p :: b) := by
    rw [List.append_assoc] at h
    exact h.of_append_right
  rw [IsDecoded, unitsOf_cons, hunits, hrest, List.singleton_append, decode,
    if_pos (by rw [hhigh, hlow]; rfl), List.cons.injEq] at hfirst
  rw [← hfirst.1, units_ofPair hhigh hlow] at hunits
  exact absurd hunits (by simp)

end CodePoint
end GrammarPaint
