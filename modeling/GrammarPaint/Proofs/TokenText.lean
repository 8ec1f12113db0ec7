import GrammarPaint.Proofs.Decoding
import GrammarPaint.Proofs.Scanning

/-!
# The text of tokens

A token knows its span, and asking the document for the text of that span decodes a piece of it
from scratch.  Lexemes hold the code points they were scanned from.  Here the two are seen to
agree: what is seen of a token in its document is what is seen of its lexeme
(`Document.exists_lexeme_of_tokens`).
-/

set_option autoImplicit false
namespace GrammarPaint

/-- What there is to see of a piece of a document: its kind and its text. -/
abbrev Sight := TokenKind × String

/-- What is seen of a lexeme. -/
def Lexeme.sight (l : Lexeme) : Sight := (l.kind, spell l.points)

/-- What is seen of a token in the document it belongs to. -/
def Document.sight (d : Document) (t : Token) : Sight := (t.kind, d.text t.span)

/-- What is seen of the end of a file. -/
def Sight.ending : Sight := (.endOfFile, "")

namespace Document

theorem units_eq (d : Document) : d.units = CodePoint.unitsOf d.points :=
  (CodePoint.flatMap_units_decode d.units).symm

/-- A span between code points covers the units of the code points in it. -/
theorem slice_eq_unitsOf {d : Document} {a b c : List CodePoint} (h : d.points = a ++ b ++ c) :
    d.slice ⟨CodePoint.totalWidth a, CodePoint.totalWidth a + CodePoint.totalWidth b⟩
      = CodePoint.unitsOf b := by
  rw [slice, units_eq, h, CodePoint.unitsOf_append, ← CodePoint.totalWidth_append,
    List.take_left' (CodePoint.length_unitsOf _), CodePoint.unitsOf_append,
    List.drop_left' (CodePoint.length_unitsOf _)]

/-- The text of a span between code points is spelled by the code points in it. -/
theorem text_eq_spell {d : Document} {a b c : List CodePoint} (h : d.points = a ++ b ++ c) :
    d.text ⟨CodePoint.totalWidth a, CodePoint.totalWidth a + CodePoint.totalWidth b⟩ = spell b := by
  have hd : CodePoint.IsDecoded d.points := CodePoint.isDecoded_decode d.units
  have hb : CodePoint.IsDecoded b := (h ▸ hd).middle
  rw [text, slice_eq_unitsOf h, hb]

theorem sight_token {d : Document} {before : List CodePoint} {l : Lexeme} {after : List CodePoint}
    (following : List Lexeme) (h : d.points = before ++ l.points ++ after) :
    d.sight (l.token (CodePoint.totalWidth before) following) = l.sight :=
  congrArg (Prod.mk l.kind) (text_eq_spell h)

theorem sight_endOfFile (d : Document) (start : Nat) :
    d.sight (.endOfFile start) = Sight.ending := by
  rw [sight, text, slice_eq_nil (by exact Nat.le_refl _)]
  rfl

theorem map_sight_frontTokens {d : Document} {a b : List CodePoint} {front : List Lexeme}
    (back : List Lexeme) (h : d.points = a ++ front.flatMap Lexeme.points ++ b) :
    (frontTokens (CodePoint.totalWidth a) front back).map d.sight = front.map Lexeme.sight := by
  induction front generalizing a with
  | nil => rfl
  | cons l front ih =>
    have hl : d.points = a ++ l.points ++ (front.flatMap Lexeme.points ++ b) := by
      rw [h, List.flatMap_cons]
      simp
    have hfront : d.points = (a ++ l.points) ++ front.flatMap Lexeme.points ++ b := by
      rw [hl, List.append_assoc (a ++ l.points)]
    rw [frontTokens, List.map_cons, sight_token _ hl, Lexeme.width,
      ← CodePoint.totalWidth_append, ih hfront, List.map_cons]

theorem map_sight_placeTokens {d : Document} {a : List CodePoint} {ls : List Lexeme}
    (h : d.points = a ++ ls.flatMap Lexeme.points) :
    (placeTokens (CodePoint.totalWidth a) ls).map d.sight
      = ls.map Lexeme.sight ++ [Sight.ending] := by
  rw [placeTokens_eq, List.map_append, map_sight_frontTokens [] (by rw [h, List.append_nil])]
  exact congrArg (_ ++ [·]) (sight_endOfFile d _)

theorem points_eq (d : Document) : d.points = d.lexemes.flatMap Lexeme.points :=
  (flatMap_points_lexemes _ _).symm

/-- **What is seen of the tokens is what is seen of the lexemes**, and the end of the file. -/
theorem map_sight_tokens (d : Document) :
    d.tokens.map d.sight = d.lexemes.map Lexeme.sight ++ [Sight.ending] := by
  rw [tokens_eq_placeTokens]
  exact map_sight_placeTokens (a := []) d.points_eq

/-- What is seen of the token of a lexeme of the document is what is seen of the lexeme. -/
theorem sight_token_of_lexemes {d : Document} {front back : List Lexeme} {l : Lexeme}
    (h : d.lexemes = front ++ l :: back) :
    d.sight (l.token (Lexeme.totalWidth front) back) = l.sight := by
  have hpoints := d.points_eq
  rw [h, List.flatMap_append, List.flatMap_cons, ← List.append_assoc] at hpoints
  rw [Lexeme.totalWidth_eq]
  exact sight_token back hpoints

/-- **Every token but the last is a lexeme**, and what is seen of the tokens before and after it is
what is seen of lexemes. -/
theorem exists_lexeme_of_tokens {d : Document} {before after : List Token} {t : Token}
    (h : d.tokens = before ++ t :: after) :
    (d.sight t = Sight.ending ∧ t.style = none) ∨
      ∃ front l back, d.lexemes = front ++ l :: back ∧ d.sight t = l.sight ∧
        t.style = l.style back ∧ before.map d.sight = front.map Lexeme.sight ∧
        after.map d.sight = back.map Lexeme.sight ++ [Sight.ending] := by
  rcases exists_split_of_tokens h with rfl | ⟨front, l, back, hls, rfl, rfl, rfl⟩
  · exact .inl ⟨sight_endOfFile d _, rfl⟩
  · have hpoints := d.points_eq
    rw [hls, List.flatMap_append, List.flatMap_cons, ← List.append_assoc] at hpoints
    have hsight := sight_token_of_lexemes hls
    rw [Lexeme.totalWidth_eq] at hsight
    rw [Lexeme.totalWidth_eq]
    refine .inr ⟨front, l, back, hls, hsight, rfl, ?_, ?_⟩
    · exact map_sight_frontTokens (a := []) _ (by rw [hpoints, List.append_assoc]; rfl)
    · rw [Lexeme.width, ← CodePoint.totalWidth_append]
      exact map_sight_placeTokens hpoints

end Document

/-- Paint is not seen. -/
theorem map_sight_paintVisible (d : Document) (paints : List Paint) (tokens : List Token) :
    (paintVisible paints tokens).map d.sight = tokens.map d.sight :=
  map_paintVisible (fun p t => by cases p <;> rfl) paints tokens

theorem map_text_eq (d : Document) (tokens : List Token) :
    tokens.map (d.text ·.span) = (tokens.map d.sight).map Prod.snd := by
  rw [List.map_map]
  rfl

/-- What looks the same reads the same. -/
theorem map_text_of_sight {d e : Document} {a b : List Token}
    (h : b.map e.sight = a.map d.sight) : b.map (e.text ·.span) = a.map (d.text ·.span) := by
  rw [map_text_eq, h, map_text_eq]

end GrammarPaint
