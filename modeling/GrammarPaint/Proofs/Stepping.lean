import GrammarPaint.Proofs.Lossless
import GrammarPaint.Text.Cursor
import Mathlib.Logic.Function.Iterate

/-!
# Reading step by step

Three readers of a document pair surrogates, each in its own way.  A cursor looks at one unit and at
the one behind it (`CodePoint.decodeFirst`); the text of a span is decoded as a whole
(`CodePoint.decode`); and the search for surrogates that are alone decodes nothing
(`Document.loneUnitSpans`).  Here they are seen to agree.

What a cursor meets is said once (`CodePoint.IsFirst`): a pair, or a unit that makes none with the
next.  So the code points ahead lose the first of them with each move (`Cursor.points_advance`), and
that is all there is to know about any number of moves: what is read, how far ahead, and where the
cursor stands (`Cursor.ahead_iterate`, `Cursor.position_iterate`).  The stops up to the end of the
document are a list of their own (`Cursor.stops`), and **they read as the text does and stand on the
surrogates that are alone** (`Document.readsAlike`).
-/

set_option autoImplicit false
namespace GrammarPaint

/-! ## The first code point -/

namespace CodePoint

/-- What code units begin with, and what is behind it: a pair, or a unit that makes none with the
next. -/
inductive IsFirst : List CodeUnit → CodePoint → List CodeUnit → Prop
  | pair {u v : CodeUnit} {rest : List CodeUnit}
      (h : (u.isHighSurrogate && v.isLowSurrogate) = true) :
      IsFirst (u :: v :: rest) (ofPair u v) rest
  | unit {u : CodeUnit} {rest : List CodeUnit}
      (h : ∀ v ∈ rest.head?, ¬ (u.isHighSurrogate && v.isLowSurrogate) = true) :
      IsFirst (u :: rest) (ofUnit u) rest

variable {us rest : List CodeUnit} {p : CodePoint}

theorem exists_isFirst (h : us ≠ []) :
    ∃ p rest, decodeFirst us = some (p, rest) ∧ IsFirst us p rest := by
  match us with
  | [] => exact absurd rfl h
  | [u] => exact ⟨_, _, rfl, .unit fun v hv => absurd hv (Option.not_mem_none v)⟩
  | u :: v :: rest =>
    rw [decodeFirst]
    split
    · exact ⟨_, _, rfl, .pair ‹_›⟩
    · refine ⟨_, _, rfl, .unit fun w hw => ?_⟩
      obtain rfl : v = w := Option.some.inj hw
      assumption

namespace IsFirst

variable (h : IsFirst us p rest)
include h

theorem units_append : p.units ++ rest = us := by
  cases h with
  | pair h =>
    rw [Bool.and_eq_true] at h
    rw [units_ofPair h.1 h.2]
    rfl
  | unit h =>
    rw [units_ofUnit]
    rfl

theorem drop_width : us.drop p.width = rest := by
  rw [← h.units_append, width, List.drop_left]

/-- Decoding as a whole begins in the same way. -/
theorem decode_eq : decode us = p :: decode rest := by
  cases h with
  | pair h => rw [decode, if_pos h]
  | unit h =>
    cases rest with
    | nil => rfl
    | cons v rest => rw [decode, if_neg (h v rfl)]

/-- So does the search for surrogates that are alone. -/
theorem loneUnitSpans_eq (offset : Nat) :
    Document.loneUnitSpans offset us
      = (if p.isLone then [⟨offset, offset + 1⟩] else [])
        ++ Document.loneUnitSpans (offset + p.width) rest := by
  cases h with
  | pair h =>
    rw [Document.loneUnitSpans, if_pos h, width_ofPair h]
    rfl
  | @unit u rest h =>
    rw [width_ofUnit, isLone_ofUnit]
    cases rest with
    | nil =>
      rw [Document.loneUnitSpans, Document.loneUnitSpans, List.append_nil]
    | cons v rest =>
      rw [Document.loneUnitSpans, if_neg (h v rfl)]
      split <;> rfl

end IsFirst

end CodePoint

/-! ## Moves of a cursor -/

namespace Cursor

variable {c : Cursor}

theorem units_ne_nil (h : c.isAtEnd = false) : c.units ≠ [] := by
  have hlt : c.position < c.document.length := Nat.not_le.1 (of_decide_eq_false h)
  rw [units, ne_eq, List.drop_eq_nil_iff]
  exact Nat.not_le.2 hlt

theorem points_of_isAtEnd (h : c.isAtEnd = true) : c.points = [] := by
  have hdrop : c.units = [] := List.drop_eq_nil_of_le (of_decide_eq_true h)
  rw [points, hdrop, CodePoint.decode]

/-- **A cursor moves past the code point that it stands on.** -/
theorem exists_advance_eq (h : c.isAtEnd = false) :
    ∃ p, c.advance = { c with position := c.position + p.width } ∧
      CodePoint.IsFirst c.units p c.advance.units := by
  obtain ⟨p, rest, hfirst, hp⟩ := CodePoint.exists_isFirst (units_ne_nil h)
  have hadvance : c.advance = { c with position := c.position + p.width } := by
    rw [advance, hfirst]
  have hrest : c.advance.units = rest := by
    rw [hadvance, units, ← List.drop_drop, ← units, hp.drop_width]
  exact ⟨p, hadvance, hrest ▸ hp⟩

theorem document_advance (c : Cursor) : c.advance.document = c.document := by
  rw [advance]
  split <;> rfl

/-- **A move takes the first of the code points ahead.** -/
theorem points_advance (c : Cursor) : c.advance.points = c.points.tail := by
  cases hend : c.isAtEnd with
  | true => rw [advance_of_isAtEnd hend, points_of_isAtEnd hend, List.tail_nil]
  | false =>
    obtain ⟨p, -, hp⟩ := exists_advance_eq hend
    rw [points, points, hp.decode_eq, List.tail_cons]

theorem position_advance (c : Cursor) :
    c.advance.position = c.position + CodePoint.totalWidth (c.points.take 1) := by
  cases hend : c.isAtEnd with
  | true => rw [advance_of_isAtEnd hend, points_of_isAtEnd hend]; rfl
  | false =>
    obtain ⟨p, hadvance, hp⟩ := exists_advance_eq hend
    rw [hadvance, points, hp.decode_eq]
    rfl

theorem isAtEnd_iff : c.isAtEnd = true ↔ c.points = [] := by
  refine ⟨points_of_isAtEnd, fun h => ?_⟩
  cases hend : c.isAtEnd with
  | true => rfl
  | false =>
    obtain ⟨p, -, hp⟩ := exists_advance_eq hend
    rw [points, hp.decode_eq] at h
    cases h

/-! ### Any number of moves -/

theorem document_iterate (c : Cursor) (n : Nat) : (advance^[n] c).document = c.document := by
  induction n generalizing c with
  | zero => rfl
  | succ n ih => rw [Function.iterate_succ_apply, ih, document_advance]

theorem points_iterate (c : Cursor) (n : Nat) : (advance^[n] c).points = c.points.drop n := by
  induction n generalizing c with
  | zero => rfl
  | succ n ih => rw [Function.iterate_succ_apply, ih, points_advance, List.drop_tail]

theorem position_iterate (c : Cursor) (n : Nat) :
    (advance^[n] c).position = c.position + CodePoint.totalWidth (c.points.take n) := by
  induction n with
  | zero => rfl
  | succ n ih =>
    rw [Function.iterate_succ_apply', position_advance, points_iterate, ih, Nat.add_assoc,
      ← CodePoint.totalWidth_append, ← List.take_add]

/-- **What is read after some moves, however far ahead, is what comes so much later.** -/
theorem ahead_iterate (c : Cursor) (n k : Nat) :
    (advance^[n] c).ahead k = ((c.points.map CodePoint.char)[n + k]?).getD endChar := by
  rw [ahead_eq, points_iterate, List.getElem?_drop, List.getElem?_map]
  cases c.points[n + k]? <;> rfl

/-! ### Stops -/

theorem length_points_advance_lt (h : ¬ c.isAtEnd = true) :
    c.advance.points.length < c.points.length := by
  rw [isAtEnd_iff] at h
  have hpos := List.length_pos_iff.2 h
  rw [points_advance, List.length_tail]
  omega

/-- The cursors on the way from `c` to the end of the document: while the end is not reached, the
cursor moves on. -/
def stops (c : Cursor) : List Cursor :=
  if c.isAtEnd then [] else c :: c.advance.stops
termination_by c.points.length
decreasing_by exact length_points_advance_lt ‹_›

/-- Moves lead from stop to stop, and then to the end. -/
theorem getElem?_stops (c : Cursor) (n : Nat) :
    c.stops[n]? = if (advance^[n] c).isAtEnd then none else some (advance^[n] c) := by
  fun_induction stops c generalizing n with
  | case1 c hend =>
    rw [Function.iterate_fixed (advance_of_isAtEnd hend), if_pos hend, List.getElem?_nil]
  | case2 c hend ih =>
    cases n with
    | zero => exact (if_neg hend).symm
    | succ n => rw [List.getElem?_cons_succ, ih, Function.iterate_succ_apply]

/-- **What is read from stop to stop are the code points ahead.** -/
theorem map_current_stops (c : Cursor) :
    c.stops.map current = c.points.map CodePoint.char := by
  fun_induction stops c with
  | case1 c hend => rw [points_of_isAtEnd hend]; rfl
  | case2 c hend ih =>
    obtain ⟨p, -, hp⟩ := exists_advance_eq (Bool.eq_false_iff.2 hend)
    have hpoints : c.points = p :: c.advance.points := hp.decode_eq
    have hcurrent : c.current = p.char := by rw [current, ahead_eq, hpoints]; rfl
    rw [List.map_cons, ih, hpoints, List.map_cons, hcurrent]

theorem document_eq_of_mem_stops {stop : Cursor} (h : stop ∈ c.stops) :
    stop.document = c.document ∧ stop.isAtEnd = false := by
  obtain ⟨n, hn⟩ := List.mem_iff_getElem?.1 h
  rw [getElem?_stops] at hn
  split at hn
  · cases hn
  · rename_i hend
    obtain rfl := Option.some.inj hn
    exact ⟨document_iterate c n, Bool.eq_false_iff.2 hend⟩

/-! ### Units under the cursor -/

theorem unitAt?_position (c : Cursor) (k : Nat) :
    c.document.unitAt? (c.position + k) = c.units[k]? :=
  List.getElem?_drop.symm

/-- A cursor moves by two units where it stands on a pair, and by one otherwise. -/
theorem width_of_isFirst {p : CodePoint} {rest : List CodeUnit}
    (hp : CodePoint.IsFirst c.units p rest) :
    c.document.IsInPair (c.position + 1) ∧ p.width = 2 ∨
      ¬ c.document.IsInPair (c.position + 1) ∧ p.width = 1 := by
  have hfirst := unitAt?_position c 0
  have hsecond := unitAt?_position c 1
  generalize c.units = us at hp hfirst hsecond
  cases hp with
  | pair h =>
    have hpair := Bool.and_eq_true_iff.1 h
    exact .inl ⟨⟨_, _, _, rfl, hfirst, hsecond, hpair⟩, CodePoint.width_ofPair h⟩
  | unit h =>
    -- a pair around the next place would be made of these two units
    refine .inr ⟨?_, CodePoint.width_ofUnit _⟩
    rintro ⟨i, u, v, hi, hu, hv, hpair⟩
    obtain rfl : c.position = i := Nat.succ.inj hi
    rw [hsecond, List.getElem?_cons_succ, ← List.head?_eq_getElem?] at hv
    rw [← Nat.add_zero c.position, hfirst, List.getElem?_cons_zero] at hu
    obtain rfl := Option.some.inj hu
    exact h v hv (Bool.and_eq_true_iff.2 hpair)

/-- Whether the cursor stands on a surrogate that it leaves by a move of one unit. -/
def isOnLone (c : Cursor) : Bool :=
  (c.document.unitAt? c.position).any CodeUnit.isSurrogate && c.advance.position == c.position + 1

theorem isOnLone_eq {p : CodePoint} {rest : List CodeUnit}
    (hadvance : c.advance.position = c.position + p.width)
    (hp : CodePoint.IsFirst c.units p rest) : c.isOnLone = p.isLone := by
  have hunit := unitAt?_position c 0
  rw [Nat.add_zero] at hunit
  rw [isOnLone, hunit, hadvance]
  generalize c.units = us at hp
  cases hp with
  | pair h =>
    have hne : (c.position + 2 == c.position + 1) = false := beq_eq_false_iff_ne.2 (by omega)
    rw [CodePoint.width_ofPair h, hne, Bool.and_false]
    rfl
  | unit h =>
    rw [CodePoint.width_ofUnit, beq_self_eq_true, Bool.and_true, CodePoint.isLone_ofUnit]
    rfl

/-- **The cursor stands on each surrogate that is alone.** -/
theorem loneUnitSpans_eq (c : Cursor) :
    Document.loneUnitSpans c.position c.units
      = (c.stops.filter isOnLone).map fun c => ⟨c.position, c.position + 1⟩ := by
  fun_induction stops c with
  | case1 c hend =>
    have hunits : c.units = [] := List.drop_eq_nil_of_le (of_decide_eq_true hend)
    rw [hunits]
    rfl
  | case2 c hend ih =>
    obtain ⟨p, hadvance, hp⟩ := exists_advance_eq (Bool.eq_false_iff.2 hend)
    have hposition : c.advance.position = c.position + p.width := by rw [hadvance]
    rw [hp.loneUnitSpans_eq, ← hposition, ih, List.filter_cons, isOnLone_eq hposition hp]
    split <;> rfl

end Cursor

/-! ## The three readers agree -/

namespace Document

open Cursor (advance start)

/-- What it means that a document is read alike unit by unit, step by step, and as a whole.  The
cursor begins at the start of the document, and nothing but `advance` moves it. -/
structure ReadsAlike (d : Document) : Prop where
  /-- The characters under the cursor, up to the end, are those of the text. -/
  current : (start d).stops.map Cursor.current = (d.text ⟨0, d.length⟩).toList
  /-- The stops are where moves lead until the end is reached. -/
  stops : ∀ n, (start d).stops[n]?
    = if (advance^[n] (start d)).isAtEnd then none else some (advance^[n] (start d))
  /-- A move from a pair is by two units. -/
  advance_pair : ∀ c ∈ (start d).stops, d.IsInPair (c.position + 1) →
    c.advance.position = c.position + 2
  /-- Every other move is by one unit. -/
  advance_unit : ∀ c ∈ (start d).stops, ¬ d.IsInPair (c.position + 1) →
    c.advance.position = c.position + 1
  /-- Looking ahead shows the characters of the stops to come, and U+0000 where there are none. -/
  ahead : ∀ n k, (advance^[n] (start d)).ahead k
    = (((start d).stops.map Cursor.current)[n + k]?).getD Cursor.endChar
  /-- Wherever the cursor stands, it cuts the text in two. -/
  text : ∀ n, (advance^[n] (start d)).textFrom 0
      ++ d.text ⟨(advance^[n] (start d)).position, d.length⟩ = d.text ⟨0, d.length⟩
  /-- The surrogates that are alone are the stops at a surrogate that a move of one unit leaves. -/
  encodingIssues : d.encodingIssues
    = ((start d).stops.filter Cursor.isOnLone).map fun c =>
      ⟨.loneSurrogate, ⟨c.position, c.position + 1⟩⟩

variable (d : Document)

theorem points_start : (start d).points = d.points := rfl

theorem toList_text_whole : (d.text ⟨0, d.length⟩).toList = d.points.map CodePoint.char := by
  rw [text_whole, spell, String.toList_ofList]

theorem position_advance_of_mem_stops {d : Document} {c : Cursor} (h : c ∈ (start d).stops) :
    d.IsInPair (c.position + 1) ∧ c.advance.position = c.position + 2 ∨
      ¬ d.IsInPair (c.position + 1) ∧ c.advance.position = c.position + 1 := by
  obtain ⟨hdocument, hend⟩ := Cursor.document_eq_of_mem_stops h
  obtain ⟨p, hadvance, hp⟩ := Cursor.exists_advance_eq hend
  have hposition : c.advance.position = c.position + p.width := by rw [hadvance]
  obtain rfl : c.document = d := hdocument
  rw [hposition]
  exact (Cursor.width_of_isFirst hp).imp (.imp_right (congrArg _)) (.imp_right (congrArg _))

/-- A cursor stands between code points, and the text before it and the text from it on make up the
whole text. -/
theorem text_append_text (n : Nat) :
    (advance^[n] (start d)).textFrom 0 ++ d.text ⟨(advance^[n] (start d)).position, d.length⟩
      = d.text ⟨0, d.length⟩ := by
  obtain ⟨a, b, hpoints, hwidth⟩ : ∃ a b, d.points = a ++ b ∧
      (advance^[n] (start d)).position = CodePoint.totalWidth a := by
    refine ⟨d.points.take n, d.points.drop n, (List.take_append_drop n d.points).symm, ?_⟩
    rw [Cursor.position_iterate, points_start]
    exact Nat.zero_add _
  have hlength : d.length = CodePoint.totalWidth a + CodePoint.totalWidth b := by
    rw [← CodePoint.totalWidth_append, ← hpoints, points, CodePoint.totalWidth_decode, length]
  have hbefore : d.text ⟨0, CodePoint.totalWidth a⟩ = spell a := by
    have htext := text_eq_spell (a := []) (b := a) (c := b) hpoints
    rwa [CodePoint.totalWidth, Nat.zero_add] at htext
  have hbehind : d.text ⟨CodePoint.totalWidth a, d.length⟩ = spell b := by
    rw [hlength]
    exact text_eq_spell (c := []) (by rw [List.append_nil, hpoints])
  have hdocument : (advance^[n] (start d)).document = d := Cursor.document_iterate (start d) n
  rw [Cursor.textFrom, hdocument, hwidth, hbefore, hbehind, text_whole, hpoints, spell_append]

/-- **The three readers agree**, whatever the code units are. -/
theorem readsAlike (d : Document) : d.ReadsAlike where
  current := by rw [Cursor.map_current_stops, points_start, toList_text_whole]
  stops := Cursor.getElem?_stops (start d)
  advance_pair c hc hpair :=
    (position_advance_of_mem_stops hc).elim And.right fun h => absurd hpair h.1
  advance_unit c hc hpair :=
    (position_advance_of_mem_stops hc).elim (fun h => absurd h.1 hpair) And.right
  ahead n k := by rw [Cursor.map_current_stops, Cursor.ahead_iterate]
  text := text_append_text d
  encodingIssues := by
    have hspans : d.loneSurrogates = _ := Cursor.loneUnitSpans_eq (start d)
    rw [Document.encodingIssues, hspans, List.map_map]
    rfl

end Document
end GrammarPaint
