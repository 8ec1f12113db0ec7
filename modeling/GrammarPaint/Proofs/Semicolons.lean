import GrammarPaint.Analysis
import GrammarPaint.Proofs.Braces
import GrammarPaint.Proofs.ItemEnds
import GrammarPaint.Proofs.Locality

/-!
# Semicolons cut documents

Where a document ends in a semicolon of grammar text, whatever is put behind it is analysed as if
it stood alone, and nothing changes about the document itself (`Document.analysedApart`).  Neither
of the two has to be well-formed.

Four things could reach over the semicolon, and none does: surrogates pair over the seam of two
texts only if the first ends in one; no lexeme looks past a semicolon that it does not hold
(`endsPunctuators_semicolon`); no `#` waits for its directive and no brace is open there, since the
scan is in grammar text; and the reading of items starts anew (`readBehind_of_semicolon`).
-/

set_option autoImplicit false
namespace GrammarPaint

open CodePoint

/-! ## Lexemes -/

/-- A semicolon of grammar text. -/
def semicolon : Lexeme := ⟨.semicolon, [.scalar ';'], none, .grammar⟩

/-- A lexeme that is a semicolon is one of grammar text. -/
theorem firstLexeme_of_semicolon {m : Mode} {p : CodePoint} {rest : List CodePoint}
    (h : (firstLexeme m p rest).kind = .semicolon) :
    m = .grammar ∧ p = .scalar ';' ∧ firstLexeme m p rest = semicolon := by
  cases m with
  | grammar =>
    obtain ⟨hc, -⟩ := scanGrammar_of_semicolon h
    obtain rfl := eq_scalar_of_char hc (by decide)
    exact ⟨rfl, rfl, rfl⟩
  | snippet nesting line =>
    have hkind : (scanCode nesting line p.char rest).kind = .semicolon := h
    rcases kind_scanCode nesting line p.char rest with hk | hk <;> rw [hkind] at hk <;>
      exact nomatch hk

namespace Document

variable {d : Document} {before : List Token} {last ending : Token}

/-- The lexemes and the text of a document whose last token is a semicolon. -/
theorem exists_lexemes_of_semicolon (h : d.tokens = before ++ [last, ending])
    (hlast : last.kind = .semicolon) :
    ∃ front, d.lexemes = front ++ [semicolon] ∧ Mode.grammar.afterAll front = .grammar ∧
      d.points = front.flatMap Lexeme.points ++ [.scalar ';'] := by
  rcases exists_split_of_tokens h with rfl | ⟨front, l, back, hls, -, rfl, hback⟩
  · exact nomatch hlast
  have hnone : back = [] := by
    cases back with
    | nil => rfl
    | cons k back => cases back <;> simp [placeTokens] at hback
  subst hnone
  obtain ⟨p, rest, hpoints, hl, hrest⟩ := lexemes_eq_append hls
  have hkind : l.kind = .semicolon := hlast
  rw [hl] at hkind
  obtain ⟨hmode, rfl, hfirst⟩ := firstLexeme_of_semicolon hkind
  rw [hfirst] at hl
  subst hl
  have hnil : rest = [] := by
    have hcover := flatMap_points_lexemes semicolon.next rest
    rwa [show GrammarPaint.lexemes semicolon.next rest = [] from hrest.symm, List.flatMap_nil,
      eq_comm] at hcover
  exact ⟨front, hls, hmode, hnil ▸ hpoints⟩

theorem points_append_of_semicolon {a : List CodePoint} (h : d.points = a ++ [.scalar ';'])
    (e : Document) : (d ++ e).points = d.points ++ e.points := by
  refine decode_append_of_last (fun u hu => ?_) e.units
  rw [units_eq, h, unitsOf_append, List.getLast?_append] at hu
  obtain rfl : (0x3B : CodeUnit) = u := Option.some.inj hu
  decide

/-- **No lexeme reaches over the semicolon.** -/
theorem lexemes_append_of_semicolon (h : d.tokens = before ++ [last, ending])
    (hlast : last.kind = .semicolon) (e : Document) :
    (d ++ e).lexemes = d.lexemes ++ e.lexemes := by
  obtain ⟨front, hls, hmode, hpoints⟩ := exists_lexemes_of_semicolon h hlast
  have hfront := hls
  rw [lexemes, hpoints] at hfront
  have hbehind : GrammarPaint.lexemes .grammar (.scalar ';' :: e.points)
      = semicolon :: e.lexemes := by
    rw [lexemes_cons]
    rfl
  rw [lexemes, points_append_of_semicolon hpoints, hpoints, List.append_assoc,
    List.singleton_append, GrammarPaint.lexemes_append endsPunctuators_semicolon hfront, hmode,
    hbehind, hls, List.append_assoc, List.singleton_append]

/-! ## Tokens and issues -/

theorem body_eq (h : d.tokens = before ++ [last, ending]) : d.body = before ++ [last] := by
  have hall := congrArg List.dropLast (d.tokens_eq.symm.trans h)
  rwa [List.dropLast_concat, List.append_cons, List.dropLast_concat] at hall

theorem endsItems_body (h : d.tokens = before ++ [last, ending])
    (hlast : last.kind = .semicolon) : EndsItems d.body :=
  ⟨fun _ ht => beq_eq_false_iff_ne.2 (kind_ne_endOfFile_of_mem_body ht),
    before, last, body_eq h, hlast⟩

section
variable (h : d.tokens = before ++ [last, ending]) (hlast : last.kind = .semicolon) (e : Document)
include h hlast

theorem tokens_append_of_semicolon :
    (d ++ e).tokens = d.body ++ e.tokens.map (Token.mapSpan (Span.moved 0 d.length)) := by
  obtain ⟨front, hls, -, -⟩ := exists_lexemes_of_semicolon h hlast
  have hfront : frontTokens 0 d.lexemes e.lexemes = d.body := by
    rw [body, hls, frontTokens_append rfl rfl]
  rw [tokens_eq_placeTokens, lexemes_append_of_semicolon h hlast, placeTokens_append, hfront,
    totalWidth_lexemes, placeTokens_moved 0 0, tokens_eq_placeTokens e]

theorem lexicalIssues_append_of_semicolon :
    (d ++ e).lexicalIssues
      = d.lexicalIssues ++ e.lexicalIssues.map (LexicalIssue.mapSpan (Span.moved 0 d.length)) := by
  obtain ⟨front, hls, hmode, -⟩ := exists_lexemes_of_semicolon h hlast
  have hclosed : ClosesAll d.lexemes [] := by
    apply closesAll_of_grammar (m := .grammar)
    rw [hls, afterAll_append, hmode]
    rfl
  have hfront : frontIssues 0 d.lexemes e.lexemes = d.lexicalIssues := by
    rw [lexicalIssues, placeIssues_eq]
    exact frontIssues_congr (hclosed.append_right e.lexemes) hclosed 0
  rw [lexicalIssues, lexemes_append_of_semicolon h hlast, placeIssues_append, hfront,
    totalWidth_lexemes, placeIssues_moved 0 0]
  rfl

theorem styledTokens_append_of_semicolon :
    (d ++ e).styledTokens
      = d.styledTokens.dropLast ++ e.styledTokens.map (Token.mapSpan (Span.moved 0 d.length)) := by
  have hbody := endsItems_body h hlast
  have hfront : d.styledTokens.dropLast = assignRoles d.body := by
    rw [styledTokens, tokens_eq, assignRoles_append_semicolon hbody.not_isEnd hbody.getLast?]
    exact List.dropLast_concat
  rw [hfront, styledTokens, tokens_append_of_semicolon h hlast,
    assignRoles_append_semicolon hbody.not_isEnd hbody.getLast?, assignRoles_map, styledTokens]

theorem map_sight_styledTokens_of_semicolon :
    (d ++ e).styledTokens.map (d ++ e).sight
      = d.styledTokens.dropLast.map d.sight ++ e.styledTokens.map e.sight := by
  have hpaint : ∀ d : Document, d.styledTokens.map d.sight
      = d.lexemes.map Lexeme.sight ++ [Sight.ending] := fun d =>
    (map_sight_paintVisible d _ _).trans d.map_sight_tokens
  rw [List.map_dropLast, hpaint, hpaint, hpaint, List.dropLast_concat,
    lexemes_append_of_semicolon h hlast, List.map_append, List.append_assoc]

theorem structuralIssues_append_of_semicolon :
    structuralIssues (d ++ e).tokens
      = structuralIssues d.tokens
        ++ (structuralIssues e.tokens).map
            (StructuralIssue.mapSpan (Span.moved 0 d.length)) := by
  have hbody := endsItems_body h hlast
  have hfront : structuralIssues d.tokens = structuralIssues d.body := by
    rw [tokens_eq, structuralIssues_append_semicolon hbody.not_isEnd hbody.getLast?]
    exact List.append_nil _
  obtain ⟨t, ht, hend⟩ := e.exists_isEnd_tokens
  rw [hfront, tokens_append_of_semicolon h hlast,
    structuralIssues_append_semicolon hbody.not_isEnd hbody.getLast?,
    structuralIssues_map ⟨t, ht, hend⟩]

end

/-! ## Two documents -/

/-- Whether the last token in front of the end of the file is a semicolon. -/
def EndsInSemicolon (d : Document) : Prop :=
  ∃ before last ending, d.tokens = before ++ [last, ending] ∧ last.kind = .semicolon

/-- Two documents that are analysed apart from each other when one is put behind the other: what is
found in the first stays where it is, and what is found in the second is moved behind it. -/
structure AnalysedApart (d e : Document) : Prop where
  /-- The tokens of the first without the end of the file, and those of the second, in the styles
  that they have there. -/
  tokens : (d ++ e).analysis.tokens = d.analysis.tokens.dropLast
    ++ e.analysis.tokens.map (Token.mapSpan (Span.moved 0 d.length))
  /-- They read the same. -/
  texts : (d ++ e).analysis.tokens.map ((d ++ e).text ·.span)
    = d.analysis.tokens.dropLast.map (d.text ·.span) ++ e.analysis.tokens.map (e.text ·.span)
  /-- The same is wrong with their text. -/
  lexicalIssues : (d ++ e).analysis.lexicalIssues = d.analysis.lexicalIssues
    ++ e.analysis.lexicalIssues.map (LexicalIssue.mapSpan (Span.moved 0 d.length))
  /-- The same is wrong with their items. -/
  structuralIssues : (d ++ e).analysis.structuralIssues = d.analysis.structuralIssues
    ++ e.analysis.structuralIssues.map (StructuralIssue.mapSpan (Span.moved 0 d.length))

/-- **A semicolon of grammar text cuts a document in two**, however malformed the parts are. -/
theorem analysedApart {d : Document} (h : d.EndsInSemicolon) (e : Document) :
    d.AnalysedApart e := by
  obtain ⟨before, last, ending, htokens, hlast⟩ := h
  constructor
  case tokens => exact styledTokens_append_of_semicolon htokens hlast e
  case texts =>
    have hsight := map_sight_styledTokens_of_semicolon htokens hlast e
    rw [map_text_eq, map_text_eq, map_text_eq, ← List.map_append]
    exact congrArg (List.map Prod.snd) hsight
  case lexicalIssues => exact lexicalIssues_append_of_semicolon htokens hlast e
  case structuralIssues => exact structuralIssues_append_of_semicolon htokens hlast e

/-- A document with a directive in a snippet, and with no expression behind its last slash. -/
def cutSample : Document := ofText "r=\x7b#if\n\x7d/;"

/-- The first part ends in a semicolon and is incomplete, and so is a second one that begins with
the rest of a rule and leaves a snippet open. -/
theorem analysedApart_samples :
    let e := ofText "=a;b=\x7b\"\x7d"
    cutSample.EndsInSemicolon ∧ cutSample.AnalysedApart e := by
  intro e
  have h : cutSample.EndsInSemicolon :=
    ⟨cutSample.tokens.take 8, .spelled .semicolon ";" ⟨9, 10⟩ (some .operator), .endOfFile 10,
      by decide +kernel, rfl⟩
  exact ⟨h, analysedApart h e⟩

end Document
end GrammarPaint
