import GrammarPaint.Analysis
import GrammarPaint.Proofs.Fitting
import GrammarPaint.Proofs.TokenText

/-!
# Tokens keep the text

A span is cut out of the code units and decoded from scratch, and a span that begins or stops in
the middle of a surrogate pair reads as something that is not in the document.  No token is cut
out like that, so **what the tokens read, one after the other, is what the document reads**
(`Document.isLossless_tokens`).  A document that holds a text gives that text back.

The surrogates that are alone are reported, by the lexemes they are in and by nothing else
(`Document.filter_loneSurrogate`); a text has none.
-/

set_option autoImplicit false
namespace GrammarPaint

namespace Document

/-! ## Boundaries -/

/-- Whether `offset` is between a high surrogate and the low one behind it. -/
def IsInPair (d : Document) (offset : Nat) : Prop :=
  ∃ i u v, offset = i + 1 ∧ d.unitAt? i = some u ∧ d.unitAt? (i + 1) = some v ∧
    u.isHighSurrogate = true ∧ v.isLowSurrogate = true

theorem not_isInPair {d : Document} {a b : List CodePoint} (h : d.points = a ++ b) :
    ¬ d.IsInPair (CodePoint.totalWidth a) := by
  rintro ⟨i, u, v, hoffset, hu, hv, hpair⟩
  rw [unitAt?, units_eq, h, CodePoint.unitsOf_append] at hu hv
  have hdecoded : CodePoint.IsDecoded (a ++ b) := h ▸ CodePoint.isDecoded_decode d.units
  have hlength := CodePoint.length_unitsOf a
  rw [List.getElem?_append_left (by omega)] at hu
  rw [List.getElem?_append_right (by omega), hlength, hoffset, Nat.sub_self] at hv
  refine CodePoint.not_pair_of_isDecoded hdecoded ?_ ?_ hpair
  · rw [List.getLast?_eq_getElem?, hlength, hoffset, Nat.add_sub_cancel]
    exact hu
  · rw [List.head?_eq_getElem?]
    exact hv

/-- A token begins and stops between code points. -/
theorem exists_points_of_mem_tokens {d : Document} {t : Token} (h : t ∈ d.tokens) :
    ∃ a b c, d.points = a ++ b ++ c ∧ t.span.start = CodePoint.totalWidth a ∧
      t.span.stop = CodePoint.totalWidth (a ++ b) := by
  obtain ⟨before, after, h⟩ := List.append_of_mem h
  rcases exists_split_of_tokens h with rfl | ⟨front, l, back, hls, -, rfl, -⟩
  · refine ⟨d.points, [], [], by simp, ?_, ?_⟩ <;>
      simp [Token.endOfFile, Token.spelled, Span.point, Lexeme.totalWidth_eq, ← points_eq]
  · refine ⟨front.flatMap Lexeme.points, l.points, back.flatMap Lexeme.points, ?_, ?_, ?_⟩
    · rw [points_eq, hls, List.flatMap_append, List.flatMap_cons, List.append_assoc]
    · rw [← Lexeme.totalWidth_eq]
      rfl
    · rw [CodePoint.totalWidth_append, ← Lexeme.totalWidth_eq]
      rfl

/-! ## Text -/

theorem join_map_sight (ls : List Lexeme) :
    String.join ((ls.map Lexeme.sight ++ [Sight.ending]).map Prod.snd)
      = spell (ls.flatMap Lexeme.points) := by
  rw [← String.toList_inj, String.toList_join, spell, String.toList_ofList]
  induction ls with
  | nil => rfl
  | cons l ls ih =>
    rw [List.map_cons, List.cons_append, List.map_cons, List.flatMap_cons, ih, List.flatMap_cons,
      List.map_append, Lexeme.sight, spell, String.toList_ofList]

theorem text_whole (d : Document) : d.text ⟨0, d.length⟩ = spell d.points := by
  rw [text, slice_whole, points]

/-- The tokens of a document read, one after the other, as the document does. -/
theorem join_text_tokens (d : Document) :
    String.join (d.tokens.map (d.text ·.span)) = d.text ⟨0, d.length⟩ := by
  rw [map_text_eq, map_sight_tokens, join_map_sight, ← points_eq, text_whole]

theorem points_ofText (text : String) :
    (ofText text).points = text.toList.map CodePoint.scalar := by
  have hunits : (ofText text).units = CodePoint.unitsOf (text.toList.map CodePoint.scalar) :=
    (List.flatMap_map ..).symm
  rw [points, hunits, CodePoint.decode_unitsOf_scalars]

theorem text_ofText (text : String) :
    (ofText text).text ⟨0, (ofText text).length⟩ = text := by
  have hchar : CodePoint.char ∘ CodePoint.scalar = id := rfl
  rw [text_whole, points_ofText, spell, List.map_map, hchar, List.map_id, String.ofList_toList]

/-! ## Surrogates that are alone -/

theorem loneSpans_append (start : Nat) (a b : List CodePoint) :
    loneSpans start (a ++ b)
      = loneSpans start a ++ loneSpans (start + CodePoint.totalWidth a) b := by
  induction a generalizing start with
  | nil => rfl
  | cons p a ih =>
    rw [List.cons_append, loneSpans, loneSpans, ih, CodePoint.totalWidth, Nat.add_assoc]
    split <;> rfl

theorem filter_loneSurrogate_issues {l : Lexeme} (h : l.FaultFromScan) (start : Nat)
    (following : List Lexeme) :
    (l.issues start following).filter (·.fault == .loneSurrogate)
      = (loneSpans start l.points).map (⟨.loneSurrogate, ·⟩) := by
  have hlone : ∀ i ∈ (loneSpans start l.points).map (LexicalIssue.mk .loneSurrogate),
      (i.fault == .loneSurrogate) = true := by simp
  rw [filter_issues h (by decide), List.filter_append, List.filter_eq_self.2 hlone]
  split <;> rfl

theorem filter_placeIssues {ls : List Lexeme} (h : ∀ l ∈ ls, l.FaultFromScan) (start : Nat) :
    (placeIssues start ls).filter (·.fault == .loneSurrogate)
      = (loneSpans start (ls.flatMap Lexeme.points)).map (⟨.loneSurrogate, ·⟩) := by
  induction ls generalizing start with
  | nil => rfl
  | cons l ls ih =>
    rw [List.forall_mem_cons] at h
    rw [placeIssues, List.filter_append, filter_loneSurrogate_issues h.1, ih h.2, List.flatMap_cons,
      loneSpans_append, List.map_append, Lexeme.width]

/-- **The surrogates that are alone are found**, each of them once. -/
theorem filter_loneSurrogate (d : Document) :
    d.lexicalIssues.filter (·.fault == .loneSurrogate) = d.encodingIssues := by
  have hfaults : ∀ l ∈ d.lexemes, l.FaultFromScan := faultFromScan_of_mem
  rw [lexicalIssues, filter_placeIssues hfaults, ← points_eq, encodingIssues, loneSurrogates_eq]

theorem loneSpans_scalars (start : Nat) (text : List Char) :
    loneSpans start (text.map CodePoint.scalar) = [] := by
  induction text generalizing start with
  | nil => rfl
  | cons c text ih => exact ih _

theorem encodingIssues_ofText (text : String) : (ofText text).encodingIssues = [] := by
  rw [encodingIssues, loneSurrogates_eq, points_ofText, loneSpans_scalars, List.map_nil]

theorem fault_ne_loneSurrogate_of_ofText {text : String} {i : LexicalIssue}
    (h : i ∈ (ofText text).lexicalIssues) : i.fault ≠ .loneSurrogate := by
  have hnone := (filter_loneSurrogate (ofText text)).trans (encodingIssues_ofText text)
  intro hfault
  exact List.filter_eq_nil_iff.1 hnone i h (beq_iff_eq.2 hfault)

/-! ## Nothing is lost -/

/-- What it means that the tokens of a document keep its text. -/
structure IsLossless (d : Document) : Prop where
  /-- No token begins in the middle of a pair. -/
  start_not_isInPair : ∀ t ∈ d.tokens, ¬ d.IsInPair t.span.start
  /-- No token stops in the middle of a pair. -/
  stop_not_isInPair : ∀ t ∈ d.tokens, ¬ d.IsInPair t.span.stop
  /-- The tokens read, one after the other, as the document does. -/
  join_text : String.join (d.tokens.map (d.text ·.span)) = d.text ⟨0, d.length⟩

/-- **Nothing is lost in tokens**, whatever the code units are, and a text that was made a document
is read off its tokens without any surrogate being reported. -/
theorem isLossless_tokens :
    (∀ d : Document, d.IsLossless) ∧
      ∀ text : String, (ofText text).encodingIssues = [] ∧
        (∀ i ∈ (ofText text).analysis.lexicalIssues, i.fault ≠ .loneSurrogate) ∧
        String.join ((ofText text).tokens.map ((ofText text).text ·.span)) = text := by
  constructor
  case left =>
    intro d
    refine ⟨fun t ht => ?_, fun t ht => ?_, d.join_text_tokens⟩
    all_goals obtain ⟨a, b, c, hpoints, hstart, hstop⟩ := exists_points_of_mem_tokens ht
    · rw [hstart]
      exact not_isInPair (hpoints.trans (List.append_assoc a b c))
    · rw [hstop]
      exact not_isInPair hpoints
  case right =>
    intro text
    refine ⟨encodingIssues_ofText text, fun i hi => fault_ne_loneSurrogate_of_ofText hi, ?_⟩
    rw [join_text_tokens, text_ofText]

end Document
end GrammarPaint
