import GrammarPaint.Proofs.Fitting
import GrammarPaint.Proofs.Spans
import GrammarPaint.Proofs.TokenText

/-!
# Tokens tile the document

The tokens of a document cover it from its start to its end, one behind the other, and each of
them covers something; the end of the file comes behind them and nowhere else
(`Document.isTiling_tokens`).  This holds of any code units whatsoever.

No token had to be cut to make it fit: each is as long as the scan that found it says.
-/

set_option autoImplicit false
namespace GrammarPaint

/-- Tokens that cover `length` code units, one behind the other, and the end of the file. -/
structure IsTiling (tokens : List Token) (length : Nat) : Prop where
  /-- The first one begins at the start. -/
  start : tokens.head?.map (·.span.start) = some 0
  /-- Each one begins where the one before it stops. -/
  contiguous : tokens.IsChain fun t u => t.span.stop = u.span.start
  /-- The last one, and no other, is the end of the file and covers nothing. -/
  ending : ∃ body last, tokens = body ++ [last] ∧
    last.kind = .endOfFile ∧ last.span = ⟨length, length⟩ ∧ last.style = none ∧
    ∀ t ∈ body, t.kind ≠ .endOfFile ∧ t.span.start < t.span.stop

theorem start_head?_placeTokens (start : Nat) (ls : List Lexeme) :
    (placeTokens start ls).head?.map (·.span.start) = some start := by
  cases ls <;> rfl

theorem tiles_placeTokens (start : Nat) (ls : List Lexeme) :
    Tiles Token.span start (placeTokens start ls) (start + Lexeme.totalWidth ls) := by
  induction ls generalizing start with
  | nil => exact ⟨rfl, Nat.le_refl _, rfl⟩
  | cons l ls ih =>
    rw [placeTokens, Lexeme.totalWidth, ← Nat.add_assoc]
    exact ⟨rfl, Nat.le_add_right _ _, ih (start + l.width)⟩

theorem span_of_mem_frontTokens {start : Nat} {front back : List Lexeme} {t : Token}
    (h : t ∈ frontTokens start front back) :
    ∃ l ∈ front, t.span.stop = t.span.start + l.width := by
  induction front generalizing start with
  | nil => exact absurd h List.not_mem_nil
  | cons l front ih =>
    rcases List.mem_cons.1 h with rfl | h
    · exact ⟨l, List.mem_cons_self, rfl⟩
    · obtain ⟨k, hk, hspan⟩ := ih h
      exact ⟨k, List.mem_cons_of_mem _ hk, hspan⟩

namespace Document

theorem totalWidth_lexemes (d : Document) : Lexeme.totalWidth d.lexemes = d.length := by
  rw [Lexeme.totalWidth_eq, ← points_eq, points, CodePoint.totalWidth_decode, length]

theorem tiles_tokens (d : Document) : Tiles Token.span 0 d.tokens d.length := by
  have htokens := tiles_placeTokens 0 d.lexemes
  rwa [Nat.zero_add, totalWidth_lexemes, ← tokens_eq_placeTokens] at htokens

/-- The tokens of a document without the end of the file. -/
def body (d : Document) : List Token := frontTokens 0 d.lexemes []

theorem tokens_eq (d : Document) : d.tokens = d.body ++ [.endOfFile d.length] := by
  rw [tokens_eq_placeTokens, placeTokens_eq, Nat.zero_add, totalWidth_lexemes, body]

theorem kind_ne_endOfFile_of_mem_body {d : Document} {t : Token} (h : t ∈ d.body) :
    t.kind ≠ .endOfFile := by
  obtain ⟨l, hl, hkind⟩ := exists_mem_of_mem_frontTokens h
  exact hkind ▸ kind_ne_endOfFile_of_mem hl

theorem start_lt_stop_of_mem_body {d : Document} {t : Token} (h : t ∈ d.body) :
    t.span.start < t.span.stop := by
  obtain ⟨l, hl, hspan⟩ := span_of_mem_frontTokens h
  have hwidth := Lexeme.width_pos (points_ne_nil_of_mem hl)
  omega

/-- **Tokens tile the document**, and none of them is cut to make it fit: it has one code point
more than its scan, at the place where it begins, asks for. -/
theorem isTiling_tokens (d : Document) :
    IsTiling d.tokens d.length ∧
      ∀ before l after, d.lexemes = before ++ l :: after →
        ∃ p rest, d.points = before.flatMap Lexeme.points ++ p :: rest ∧
          l.points.length = (l.mode.scan p.char rest).more + 1 := by
  constructor
  case left =>
    have hstart := start_head?_placeTokens 0 d.lexemes
    rw [← tokens_eq_placeTokens] at hstart
    refine ⟨hstart, d.tiles_tokens.isChain, ?_⟩
    exact ⟨d.body, .endOfFile d.length, d.tokens_eq, rfl, rfl, rfl, fun t ht =>
      ⟨kind_ne_endOfFile_of_mem_body ht, start_lt_stop_of_mem_body ht⟩⟩
  case right =>
    intro before l after h
    obtain ⟨p, rest, hpoints, rfl, -⟩ := lexemes_eq_append h
    exact ⟨p, rest, hpoints, length_points_firstLexeme _ p rest⟩

end Document
end GrammarPaint
