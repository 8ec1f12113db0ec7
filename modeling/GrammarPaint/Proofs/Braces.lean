import GrammarPaint.Proofs.Directives
import GrammarPaint.Proofs.Tiling

/-!
# Snippets are blocks of braces

A document is a sequence of tokens of grammar text and of snippets, and only the last snippet may
lack the brace that closes it (`IsBlocks`).  In a snippet the braces among the punctuators are
counted, and those in strings, comments and header names are not, since nothing else is a
punctuator (`Document.isBraced`).  The brace that closes the snippet is the first one at which no
brace is open.

The scan counts along: the depth of its mode is the number of open braces, as the tokens so far
have them (`Mode.Counts`).  Both follow from what one lexeme does in grammar text
(`firstLexeme_grammar_cases`) and in a snippet (`firstLexeme_snippet_cases`).
-/

set_option autoImplicit false
namespace GrammarPaint

/-! ## Blocks -/

namespace Sight

/-- An opening brace in a snippet. -/
def openBrace : Sight := (.codePunctuator, "\x7b")

/-- A closing brace in a snippet that leaves other braces open. -/
def closeBrace : Sight := (.codePunctuator, "\x7d")

/-- The brace that opens a snippet. -/
def snippetOpening : Sight := (.snippetStart, "\x7b")

/-- The brace that closes a snippet. -/
def snippetClosing : Sight := (.snippetEnd, "\x7d")

/-- What there is in grammar text beside snippets. -/
def IsGrammar (s : Sight) : Prop := s.1.isCode = false ∧ s.1 ≠ .snippetStart ∧ s.1 ≠ .endOfFile

/-- What there is in a snippet. -/
def IsInner (s : Sight) : Prop := (s.1 = .whitespace ∨ s.1.isCode = true) ∧ s.1 ≠ .snippetEnd

end Sight

/-- The number of open braces behind a part of a snippet, with `depth` open braces before it. -/
def depthBehind (depth : Int) (part : List Sight) : Int :=
  depth + part.count .openBrace - part.count .closeBrace

/-- A part of a snippet, with `depth` open braces before it, that does not close the snippet. -/
structure IsInterior (depth : Int) (part : List Sight) : Prop where
  isInner : ∀ s ∈ part, s.IsInner
  /-- At every place in it there is an open brace. -/
  one_le : ∀ front, front <+: part → 1 ≤ depthBehind depth front

/-- Tokens of grammar text and snippets, one after the other. -/
inductive IsBlocks : List Sight → Prop
  | nil : IsBlocks []
  | grammar {s : Sight} {rest : List Sight} : s.IsGrammar → IsBlocks rest → IsBlocks (s :: rest)
  /-- A snippet stops where no brace is open but its own. -/
  | snippet {inside rest : List Sight} : IsInterior 1 inside → depthBehind 1 inside = 1 →
      IsBlocks rest → IsBlocks (.snippetOpening :: (inside ++ .snippetClosing :: rest))
  /-- The last snippet may go on to the end. -/
  | unclosed {inside : List Sight} : IsInterior 1 inside → IsBlocks (.snippetOpening :: inside)

theorem depthBehind_cons (depth : Int) (s : Sight) (part : List Sight) :
    depthBehind depth (s :: part) = depthBehind (depthBehind depth [s]) part := by
  simp only [depthBehind, List.count_cons, List.count_nil]
  omega

theorem depthBehind_cons' (depth : Int) (s : Sight) (part : List Sight) :
    depthBehind depth (s :: part) = depthBehind (depthBehind depth part) [s] := by
  simp only [depthBehind, List.count_cons, List.count_nil]
  omega

theorem isInterior_nil {depth : Int} (h : 1 ≤ depth) : IsInterior depth [] := by
  refine ⟨nofun, fun front hfront => ?_⟩
  rw [List.prefix_nil.1 hfront]
  simpa [depthBehind] using h

theorem IsInterior.cons {depth : Int} {s : Sight} {part : List Sight} (hs : s.IsInner)
    (hdepth : 1 ≤ depth) (h : IsInterior (depthBehind depth [s]) part) :
    IsInterior depth (s :: part) := by
  refine ⟨List.forall_mem_cons.2 ⟨hs, h.isInner⟩, fun front hfront => ?_⟩
  rcases List.prefix_cons_iff.1 hfront with rfl | ⟨front, rfl, hpart⟩
  · simpa [depthBehind] using hdepth
  · rw [depthBehind_cons]
    exact h.one_le front hpart

/-! ## What a lexeme does -/

theorem sight_eq_iff {l : Lexeme} {kind : TokenKind} {text : List Char} :
    l.sight = (kind, String.ofList text) ↔ l.kind = kind ∧ l.text = text := by
  rw [Lexeme.sight, Prod.mk.injEq]
  exact and_congr_right' String.ofList_inj

theorem text_firstLexeme {m : Mode} {p : CodePoint} {rest : List CodePoint}
    (h : (m.scan p.char rest).more = 0) : (firstLexeme m p rest).text = [p.char] := by
  rw [Lexeme.text, firstLexeme, h]
  rfl

/-- **What a lexeme does in grammar text**: it opens a snippet, or the scan stays there. -/
theorem firstLexeme_grammar_cases (p : CodePoint) (rest : List CodePoint) :
    ((firstLexeme .grammar p rest).sight = .snippetOpening ∧
        (firstLexeme .grammar p rest).next = .snippet 0 .atStart) ∨
      ((firstLexeme .grammar p rest).sight.IsGrammar ∧
        (firstLexeme .grammar p rest).next = .grammar) := by
  by_cases hstart : (scanGrammar p.char rest).kind = .snippetStart
  · obtain ⟨hc, hscan⟩ := scanGrammar_of_snippetStart hstart
    have htext : (firstLexeme .grammar p rest).text = [p.char] :=
      text_firstLexeme (congrArg Scan.more hscan)
    rw [hc] at htext
    exact .inl ⟨sight_eq_iff.2 ⟨hstart, htext⟩, if_pos hstart⟩
  · exact .inr ⟨⟨(kind_scanGrammar p.char rest).1, hstart,
      kind_scanGrammar_ne_endOfFile p.char rest⟩, if_neg hstart⟩

/-- A brace that is a punctuator is not the snippet's own. -/
theorem nesting_ne_zero {nesting : Nat} {line : LineState} {p : CodePoint} {rest : List CodePoint}
    (hkind : (firstLexeme (.snippet nesting line) p rest).kind = .codePunctuator)
    (htext : (firstLexeme (.snippet nesting line) p rest).text = ['}']) : nesting ≠ 0 := by
  rintro rfl
  have hc : p.char = '}' := (List.cons.inj htext).1
  have hscan : (scanCode 0 line p.char rest).kind = .codePunctuator := hkind
  rw [hc, scanCode_closing, if_pos rfl] at hscan
  exact nomatch hscan

/-- The scan counts the braces as they are seen. -/
theorem nestingAfter_eq {nesting : Nat} {l : Lexeme}
    (h : l.kind = .codePunctuator → l.text = ['}'] → nesting ≠ 0) :
    (nestingAfter nesting l.kind l.text + 1 : Int) = depthBehind (nesting + 1) [l.sight] := by
  have hopen : l.sight = .openBrace ↔ l.kind = .codePunctuator ∧ l.text = ['{'] := sight_eq_iff
  have hclose : l.sight = .closeBrace ↔ l.kind = .codePunctuator ∧ l.text = ['}'] := sight_eq_iff
  rw [depthBehind, List.count_singleton, List.count_singleton, nestingAfter]
  simp only [beq_iff_eq, hopen, hclose]
  by_cases h1 : l.kind = .codePunctuator ∧ l.text = ['{']
  · simp [h1]
  · by_cases h2 : l.kind = .codePunctuator ∧ l.text = ['}']
    · have hnesting := h h2.1 h2.2
      rw [if_neg h1, if_pos h2, if_neg h1, if_pos h2]
      omega
    · simp [h1, h2]

/-- **What a lexeme does in a snippet**: it closes the snippet if no brace is open but the
snippet's own, or it is counted. -/
theorem firstLexeme_snippet_cases (nesting : Nat) (line : LineState) (p : CodePoint)
    (rest : List CodePoint) :
    ((firstLexeme (.snippet nesting line) p rest).sight = .snippetClosing ∧ nesting = 0 ∧
        (firstLexeme (.snippet nesting line) p rest).next = .grammar) ∨
      ((firstLexeme (.snippet nesting line) p rest).sight.IsInner ∧
        ∃ nesting' line', (firstLexeme (.snippet nesting line) p rest).next
            = .snippet nesting' line' ∧
          (nesting' + 1 : Int) = depthBehind (nesting + 1)
            [(firstLexeme (.snippet nesting line) p rest).sight]) := by
  by_cases hend : (scanCode nesting line p.char rest).kind = .snippetEnd
  · obtain ⟨hc, hnesting, hscan⟩ := scanCode_of_snippetEnd hend
    have htext : (firstLexeme (.snippet nesting line) p rest).text = [p.char] :=
      text_firstLexeme (congrArg Scan.more hscan)
    rw [hc] at htext
    exact .inl ⟨sight_eq_iff.2 ⟨hend, htext⟩, hnesting, if_pos hend⟩
  · refine .inr ⟨⟨kind_scanCode nesting line p.char rest, hend⟩, _, _, if_neg hend, ?_⟩
    exact nestingAfter_eq nesting_ne_zero

/-! ## Documents are blocks -/

/-- What comes in a snippet that has `depth` open braces: the rest of it, and the blocks behind. -/
def InSnippet (depth : Int) (ss : List Sight) : Prop :=
  IsInterior depth ss ∨ ∃ inside rest, ss = inside ++ .snippetClosing :: rest ∧
    IsInterior depth inside ∧ depthBehind depth inside = 1 ∧ IsBlocks rest

/-- What comes in a mode. -/
def Mode.Continues : Mode → List Sight → Prop
  | grammar, ss => IsBlocks ss
  | snippet nesting _, ss => InSnippet (nesting + 1) ss

theorem isBlocks_snippetOpening {ss : List Sight} (h : InSnippet 1 ss) :
    IsBlocks (.snippetOpening :: ss) := by
  rcases h with h | ⟨inside, rest, rfl, hinside, hdepth, hrest⟩
  · exact .unclosed h
  · exact .snippet hinside hdepth hrest

theorem InSnippet.cons {depth : Int} {s : Sight} {ss : List Sight} (hs : s.IsInner)
    (hdepth : 1 ≤ depth) (h : InSnippet (depthBehind depth [s]) ss) :
    InSnippet depth (s :: ss) := by
  rcases h with h | ⟨inside, rest, rfl, hinside, hclosed, hrest⟩
  · exact .inl (h.cons hs hdepth)
  · refine .inr ⟨s :: inside, rest, rfl, hinside.cons hs hdepth, ?_, hrest⟩
    rw [depthBehind_cons, hclosed]

theorem continues_cons {m : Mode} {p : CodePoint} {rest : List CodePoint} {ss : List Sight}
    (h : (firstLexeme m p rest).next.Continues ss) :
    m.Continues ((firstLexeme m p rest).sight :: ss) := by
  cases m with
  | grammar =>
    rcases firstLexeme_grammar_cases p rest with ⟨hsight, hnext⟩ | ⟨hsight, hnext⟩ <;>
      rw [hnext] at h
    · rw [hsight]
      exact isBlocks_snippetOpening h
    · exact .grammar hsight h
  | snippet nesting line =>
    have hdepth : (1 : Int) ≤ nesting + 1 := by omega
    rcases firstLexeme_snippet_cases nesting line p rest with
      ⟨hsight, rfl, hnext⟩ | ⟨hsight, nesting', line', hnext, hcount⟩ <;> rw [hnext] at h
    · rw [hsight]
      exact .inr ⟨[], ss, rfl, isInterior_nil hdepth, rfl, h⟩
    · exact InSnippet.cons hsight hdepth (hcount ▸ h)

/-- **What comes in a mode is what goes with it**: blocks, in grammar text. -/
theorem continues_lexemes (m : Mode) (points : List CodePoint) :
    m.Continues ((lexemes m points).map Lexeme.sight) := by
  match points with
  | [] =>
    cases m with
    | grammar => exact .nil
    | snippet nesting line => exact .inl (isInterior_nil (by omega))
  | p :: rest =>
    rw [lexemes_cons]
    exact continues_cons (continues_lexemes _ _)
termination_by points.length
decreasing_by simp only [List.length_drop, List.length_cons]; omega

/-! ## The scan counts the braces -/

/-- The number of open braces behind what is in `back`, the nearest piece first: none outside
snippets, and in a snippet those that came behind the brace that opens it, and that one. -/
def braceDepth (back : List Sight) : Int :=
  if insideSnippet back then depthBehind 1 (back.takeWhile (·.1 != .snippetStart)) else 0

/-- What a mode knows of the braces before it, the nearest one first. -/
def Mode.Counts (back : List Sight) : Mode → Prop
  | grammar => True
  | snippet nesting _ =>
    (nesting + 1 : Int) = depthBehind 1 (back.takeWhile (·.1 != .snippetStart))

theorem Sight.IsInner.ne_snippetStart {s : Sight} (h : s.IsInner) : s.1 ≠ .snippetStart := by
  intro hstart
  rcases h.1 with hk | hk <;> rw [hstart] at hk <;> exact nomatch hk

/-- Each lexeme is counted. -/
theorem Mode.Counts.next {m : Mode} {back : List Sight} (h : m.Counts back) (p : CodePoint)
    (rest : List CodePoint) :
    (firstLexeme m p rest).next.Counts ((firstLexeme m p rest).sight :: back) := by
  cases m with
  | grammar =>
    rcases firstLexeme_grammar_cases p rest with ⟨hsight, hnext⟩ | ⟨-, hnext⟩ <;> rw [hnext]
    · rw [hsight]
      rfl
    · trivial
  | snippet nesting line =>
    rcases firstLexeme_snippet_cases nesting line p rest with
      ⟨-, -, hnext⟩ | ⟨hsight, nesting', line', hnext, hcount⟩ <;> rw [hnext]
    · trivial
    · have hcounted : (nesting + 1 : Int) = depthBehind 1 (back.takeWhile _) := h
      rw [Counts, List.takeWhile_cons_of_pos (by simp [hsight.ne_snippetStart]), depthBehind_cons',
        ← hcounted, hcount]

/-- A mode that knows whether it is inside a snippet, and counts there, has the depth. -/
theorem Mode.Counts.depth_eq {m : Mode} {back : List Sight} (h : m.Counts back)
    (hm : m.Remembers back) : (m.depth : Int) = braceDepth back := by
  rw [braceDepth]
  cases m with
  | grammar =>
    rw [show insideSnippet back = false from hm]
    rfl
  | snippet nesting line =>
    rw [if_pos hm.1]
    exact h

theorem Mode.Remembers.depth_eq_zero_iff {m : Mode} {back : List Sight} (h : m.Remembers back) :
    m.depth = 0 ↔ insideSnippet back = false := by
  cases m with
  | grammar => exact ⟨fun _ => h, fun _ => rfl⟩
  | snippet nesting line => simp [Mode.depth, h.1]

/-- Where a brace closes, one was open. -/
theorem depth_of_closing {m : Mode} {p : CodePoint} {rest : List CodePoint}
    (h : (firstLexeme m p rest).sight = .closeBrace ∨
      (firstLexeme m p rest).sight = .snippetClosing) :
    m.depth = (firstLexeme m p rest).next.depth + 1 := by
  cases m with
  | grammar =>
    rcases firstLexeme_grammar_cases p rest with ⟨hsight, -⟩ | ⟨hsight, -⟩
    · rw [hsight] at h
      exact absurd h (by decide)
    · rcases h with h | h <;> rw [h] at hsight <;> exact absurd hsight.1 (by decide)
  | snippet nesting line =>
    rcases firstLexeme_snippet_cases nesting line p rest with
      ⟨-, rfl, hnext⟩ | ⟨hsight, nesting', line', hnext, hcount⟩ <;> rw [hnext]
    · rfl
    · rcases h with h | h <;> rw [h] at hsight hcount
      · have hone : depthBehind (nesting + 1) [.closeBrace] = nesting + 1 - 1 := rfl
        rw [hone] at hcount
        simp only [Mode.depth]
        omega
      · exact absurd rfl hsight.2

/-! ## Snippets that are not closed -/

/-- A scan that is in grammar text has closed all snippets. -/
theorem closesAll_of_grammar {front : List Lexeme} {m : Mode} (h : m.afterAll front = .grammar) :
    ClosesAll front [] := by
  rintro before l after rfl hkind
  by_contra hnone
  have hopen : ∀ k ∈ after, k.kind ≠ .snippetEnd := fun k hk hend =>
    hnone ⟨k, List.mem_append_left _ hk, hend⟩
  obtain ⟨nesting, line, hopened⟩ := exists_after_snippetStart (m.afterAll before) l.text
  obtain ⟨nesting', line', hafter⟩ := exists_afterAll_eq_snippet nesting line hopen
  rw [afterAll_append, afterAll_cons, hkind, hopened, hafter] at h
  exact nomatch h

/-- Where all snippets are closed, none is reported. -/
theorem filter_unclosed_frontIssues {front back : List Lexeme} (hclosed : ClosesAll front back)
    (hfaults : ∀ l ∈ front, l.FaultFromScan) (start : Nat) :
    (frontIssues start front back).filter (·.fault == .unclosedSnippet) = [] := by
  induction front generalizing start with
  | nil => rfl
  | cons l front ih =>
    rw [List.forall_mem_cons] at hfaults
    rw [frontIssues, List.filter_append, ih hclosed.tail hfaults.2,
      filter_issues hfaults.1 (by decide), hclosed.isUnclosed_eq_false]
    simp

namespace Document

/-- A brace that opens a snippet is met in grammar text. -/
theorem mode_of_snippetStart {d : Document} {front back : List Lexeme} {l : Lexeme}
    (h : d.lexemes = front ++ l :: back) (hkind : l.kind = .snippetStart) :
    Mode.grammar.afterAll front = .grammar := by
  obtain ⟨p, rest, -, rfl, -⟩ := lexemes_eq_append h
  cases hmode : Mode.grammar.afterAll front with
  | grammar => rfl
  | snippet nesting line =>
    rw [hmode] at hkind
    exact absurd hkind (kind_ne_snippetStart nesting line p.char rest)

theorem filter_unclosedSnippet {d : Document} {front back : List Lexeme} {l : Lexeme}
    (h : d.lexemes = front ++ l :: back) (hkind : l.kind = .snippetStart)
    (hlast : ∀ k ∈ back, k.kind ≠ .snippetStart) :
    d.lexicalIssues.filter (·.fault == .unclosedSnippet)
      = if ∃ k ∈ back, k.kind = .snippetEnd then []
        else [⟨.unclosedSnippet, ⟨Lexeme.totalWidth front, d.length⟩⟩] := by
  have hfaults : ∀ k ∈ d.lexemes, k.FaultFromScan := faultFromScan_of_mem
  rw [h, List.forall_mem_append, List.forall_mem_cons] at hfaults
  -- the snippets before this one are closed before it, and there are none behind it
  have hfront : ClosesAll front (l :: back) :=
    (closesAll_of_grammar (mode_of_snippetStart h hkind)).append_right (l :: back)
  have hback : ClosesAll back [] := by
    rintro before k after rfl hk
    exact absurd hk (hlast k (by simp))
  have hlength : Lexeme.totalWidth front + l.width + Lexeme.totalWidth back = d.length := by
    rw [← totalWidth_lexemes, h, Lexeme.totalWidth_append, Lexeme.totalWidth, Nat.add_assoc]
  rw [lexicalIssues, h, placeIssues_append, placeIssues, List.filter_append, List.filter_append,
    filter_unclosed_frontIssues hfront hfaults.1, placeIssues_eq,
    filter_unclosed_frontIssues hback hfaults.2.2, filter_issues hfaults.2.1 (by decide),
    Nat.zero_add, hlength, if_congr (Lexeme.isUnclosed_iff hkind back) rfl rfl, ite_not]
  split <;> simp

theorem filter_unclosedSnippet_eq_nil {d : Document}
    (h : ∀ l ∈ d.lexemes, l.kind ≠ .snippetStart) :
    d.lexicalIssues.filter (·.fault == .unclosedSnippet) = [] := by
  have hclosed : ClosesAll d.lexemes [] := by
    intro before l after hl hkind
    exact absurd hkind (h l (by rw [hl]; simp))
  rw [lexicalIssues, placeIssues_eq]
  exact filter_unclosed_frontIssues hclosed faultFromScan_of_mem 0

/-- What it means that the snippets of a document are blocks of braces. -/
structure IsBraced (d : Document) : Prop where
  /-- What the tokens look like is what the lexemes look like, and the end of the file. -/
  sights : d.tokens.map d.sight = d.lexemes.map Lexeme.sight ++ [Sight.ending]
  /-- They are tokens of grammar text and snippets. -/
  blocks : IsBlocks (d.lexemes.map Lexeme.sight)
  /-- The scan counts the open braces, before each lexeme and behind it. -/
  depth : ∀ before l after, d.lexemes = before ++ l :: after →
    (l.mode.depth : Int) = braceDepth (lookBack before) ∧
      (l.next.depth : Int) = braceDepth (l.sight :: lookBack before)
  /-- It counts none in grammar text, and only there. -/
  grammar : ∀ before l after, d.lexemes = before ++ l :: after →
    (l.mode.depth = 0 ↔ insideSnippet (lookBack before) = false)
  /-- It never counts down from none. -/
  closing : ∀ l ∈ d.lexemes, l.sight = .closeBrace ∨ l.sight = .snippetClosing →
    l.mode.depth = l.next.depth + 1
  /-- The last snippet is reported, once, exactly if nothing closes it. -/
  unclosed : ∀ before t after, d.tokens = before ++ t :: after → t.kind = .snippetStart →
    (∀ u ∈ after, u.kind ≠ .snippetStart) →
    d.lexicalIssues.filter (·.fault == .unclosedSnippet)
      = if ∃ u ∈ after, u.kind = .snippetEnd then []
        else [⟨.unclosedSnippet, ⟨t.span.start, d.length⟩⟩]
  /-- Without snippets there is nothing to report. -/
  bare : (∀ t ∈ d.tokens, t.kind ≠ .snippetStart) →
    d.lexicalIssues.filter (·.fault == .unclosedSnippet) = []

theorem counts_lookBack {d : Document} {before after : List Lexeme} {l : Lexeme}
    (h : d.lexemes = before ++ l :: after) : l.mode.Counts (lookBack before) := by
  have hm : Mode.grammar.Counts [] := trivial
  have hback := holds_of_lexemes (f := Lexeme.sight) (P := Mode.Counts)
    (fun back m p rest hm => hm.next p rest) hm h
  rwa [List.append_nil] at hback

/-- **The snippets of a document are blocks of braces**, and the scan knows how many are open. -/
theorem isBraced (d : Document) : d.IsBraced := by
  constructor
  case sights => exact d.map_sight_tokens
  case blocks => exact continues_lexemes .grammar d.points
  case depth =>
    intro before l after h
    have hcounts := counts_lookBack h
    have hback := remembers_lookBack h
    refine ⟨hcounts.depth_eq hback, ?_⟩
    obtain ⟨p, rest, -, rfl, -⟩ := lexemes_eq_append h
    exact (hcounts.next p rest).depth_eq (hback.next p rest)
  case grammar => exact fun before l after h => (remembers_lookBack h).depth_eq_zero_iff
  case closing =>
    intro l hl hclosing
    obtain ⟨m, p, rest, rfl⟩ := exists_firstLexeme_of_mem hl
    exact depth_of_closing hclosing
  case unclosed =>
    intro before t after h hkind hlast
    rcases exists_split_of_tokens h with rfl | ⟨front, l, back, hls, -, rfl, rfl⟩
    · exact nomatch hkind
    have hback : ∀ k ∈ back, k.kind ≠ .snippetStart := by
      intro k hk hstart
      obtain ⟨u, hu, hustart⟩ := (exists_kind_placeTokens (by decide) _ back).2 ⟨k, hk, hstart⟩
      exact hlast u hu hustart
    rw [filter_unclosedSnippet hls hkind hback,
      if_congr (exists_kind_placeTokens (by decide) _ back) rfl rfl]
    rfl
  case bare =>
    intro h
    rw [tokens_eq_placeTokens] at h
    refine filter_unclosedSnippet_eq_nil fun l hl hkind => ?_
    obtain ⟨t, ht, hstart⟩ := (exists_kind_placeTokens (by decide) 0 _).2 ⟨l, hl, hkind⟩
    exact h t ht hstart

end Document
end GrammarPaint
