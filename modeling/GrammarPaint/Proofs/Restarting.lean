import GrammarPaint.Proofs.Braces

/-!
# Scanning can start anew in grammar text

Outside snippets the scan has no memory at all.  So where as many snippets are closed as are
opened, what is left of a document is scanned as if the document began there
(`Document.restartsAt`): the same tokens come out, and the same issues, and nothing else than their
places tells the difference.

That the counts agree means that the scan is in grammar text (`afterAll_eq_grammar`).  The cut does
not go through a surrogate pair, since no boundary of a lexeme does (`points_suffix`).
-/

set_option autoImplicit false
namespace GrammarPaint

open CodePoint

/-! ## Counting snippets -/

/-- What a mode knows of the snippets before it: whether one is open. -/
def Mode.Balances (back : List TokenKind) : Mode → Prop
  | grammar => back.count .snippetStart = back.count .snippetEnd
  | snippet _ _ => back.count .snippetStart = back.count .snippetEnd + 1

/-- **Snippets are opened and closed in turn.** -/
theorem Mode.Balances.next {m : Mode} {back : List TokenKind} (h : m.Balances back)
    (p : CodePoint) (rest : List CodePoint) :
    (firstLexeme m p rest).next.Balances ((firstLexeme m p rest).kind :: back) := by
  cases m with
  | grammar =>
    have hback : back.count .snippetStart = back.count .snippetEnd := h
    rcases firstLexeme_grammar_cases p rest with ⟨hsight, hnext⟩ | ⟨hsight, hnext⟩
    · have hkind : (firstLexeme .grammar p rest).kind = .snippetStart := congrArg Prod.fst hsight
      rw [hnext, hkind, Balances, List.count_cons_self, List.count_cons_of_ne (by decide), hback]
    · have hend : (firstLexeme .grammar p rest).kind ≠ .snippetEnd := by
        intro hkind
        have hcode : (firstLexeme .grammar p rest).kind.isCode = false := hsight.1
        rw [hkind] at hcode
        exact absurd hcode (by decide)
      have hstart : (firstLexeme .grammar p rest).kind ≠ .snippetStart := hsight.2.1
      rw [hnext, Balances, List.count_cons_of_ne hstart, List.count_cons_of_ne hend, hback]
  | snippet nesting line =>
    have hback : back.count .snippetStart = back.count .snippetEnd + 1 := h
    rcases firstLexeme_snippet_cases nesting line p rest with
      ⟨hsight, -, hnext⟩ | ⟨hsight, nesting', line', hnext, -⟩
    · have hkind : (firstLexeme (.snippet nesting line) p rest).kind = .snippetEnd :=
        congrArg Prod.fst hsight
      rw [hnext, hkind, Balances, List.count_cons_self, List.count_cons_of_ne (by decide), hback]
    · have hstart : (firstLexeme (.snippet nesting line) p rest).kind ≠ .snippetStart :=
        hsight.ne_snippetStart
      have hend : (firstLexeme (.snippet nesting line) p rest).kind ≠ .snippetEnd := hsight.2
      rw [hnext, Balances, List.count_cons_of_ne hstart, List.count_cons_of_ne hend, hback]

/-- Where all snippets are closed, the scan is in grammar text. -/
theorem afterAll_eq_grammar {points : List CodePoint} {front back : List Lexeme}
    (h : lexemes .grammar points = front ++ back)
    (hclosed : (front.map Lexeme.kind).count .snippetStart
      = (front.map Lexeme.kind).count .snippetEnd) :
    Mode.grammar.afterAll front = .grammar := by
  have hbalance : (Mode.grammar.afterAll front).Balances ((front.map Lexeme.kind).reverse ++ []) :=
    holds_afterAll (P := Mode.Balances) (fun _ _ p rest hm => hm.next p rest) rfl h
  cases hmode : Mode.grammar.afterAll front with
  | grammar => rfl
  | snippet nesting line =>
    rw [hmode, List.append_nil, Mode.Balances, List.count_reverse, List.count_reverse] at hbalance
    omega

namespace Document

/-! ## The rest of a document -/

/-- What is left of a document from `start` on. -/
def suffix (d : Document) (start : Nat) : Document := ⟨d.units.drop start⟩

/-- A boundary between code points cuts the code points as it cuts the units. -/
theorem points_suffix {d : Document} {a b : List CodePoint} (h : d.points = a ++ b) :
    (d.suffix (totalWidth a)).points = b := by
  have hunits : d.units.drop (totalWidth a) = unitsOf b := by
    rw [units_eq, h, unitsOf_append, List.drop_left' (length_unitsOf a)]
  have hdecoded : IsDecoded (a ++ b) := h ▸ isDecoded_decode d.units
  rw [points, suffix, hunits]
  exact hdecoded.of_append_right

variable {d : Document} {front back : List Lexeme}

/-- The lexemes that are left in grammar text are those of what is left of the document. -/
theorem lexemes_suffix (h : d.lexemes = front ++ back)
    (hmode : Mode.grammar.afterAll front = .grammar) :
    (d.suffix (Lexeme.totalWidth front)).lexemes = back := by
  have hpoints := d.points_eq
  rw [h, List.flatMap_append] at hpoints
  have hback := lexemes_afterAll h
  rw [hmode] at hback
  rw [lexemes, Lexeme.totalWidth_eq, points_suffix hpoints, hback]

/-- The issues that begin behind some lexemes are those of the lexemes behind them. -/
theorem filter_lexicalIssues (h : d.lexemes = front ++ back) :
    d.lexicalIssues.filter (Lexeme.totalWidth front ≤ ·.span.start)
      = placeIssues (Lexeme.totalWidth front) back := by
  have hne : ∀ l ∈ front ++ back, l.points ≠ [] := h ▸ fun _ hl => points_ne_nil_of_mem hl
  rw [List.forall_mem_append] at hne
  have hfront : ∀ i ∈ frontIssues 0 front back, i.span.start < Lexeme.totalWidth front := by
    intro i hi
    have hstart := (start_frontIssues hne.1 hi).2
    rwa [Nat.zero_add] at hstart
  have hback : ∀ i ∈ placeIssues (Lexeme.totalWidth front) back,
      Lexeme.totalWidth front ≤ i.span.start := fun i hi => le_start_of_mem_placeIssues hne.2 hi
  rw [lexicalIssues, h, placeIssues_append, Nat.zero_add]
  exact (filter_start_append (fun i : LexicalIssue => i.span.start) hfront hback).2

/-! ## Starting anew -/

/-- Whether the scan can start anew at the `index`-th token, which begins at `start`: what is left
of the document has the tokens and the issues that the document has from there on, and they are
`start` units further to the left. -/
structure RestartsAt (d : Document) (index start : Nat) : Prop where
  /-- The tokens are the same but for their places: their kinds, names and styles. -/
  tokens : d.tokens.drop index
    = (d.suffix start).tokens.map (Token.mapSpan (Span.moved 0 start))
  /-- They read the same. -/
  texts : (d.tokens.drop index).map (d.text ·.span)
    = (d.suffix start).tokens.map ((d.suffix start).text ·.span)
  /-- The issues are those that begin at `start` or behind it, in the same order. -/
  issues : d.lexicalIssues.filter (start ≤ ·.span.start)
    = (d.suffix start).lexicalIssues.map (LexicalIssue.mapSpan (Span.moved 0 start))

theorem restartsAt_of_lexemes (h : d.lexemes = front ++ back)
    (hmode : Mode.grammar.afterAll front = .grammar) :
    d.RestartsAt front.length (Lexeme.totalWidth front) := by
  have hsuffix := lexemes_suffix h hmode
  have hdrop : d.tokens.drop front.length = placeTokens (Lexeme.totalWidth front) back := by
    rw [Document.tokens_eq_placeTokens, h, drop_placeTokens, Nat.zero_add]
  constructor
  case tokens =>
    have hmoved := placeTokens_moved 0 0 (Lexeme.totalWidth front) back
    rw [Nat.zero_add] at hmoved
    rw [hdrop, hmoved, Document.tokens_eq_placeTokens, hsuffix]
  case texts =>
    have hpoints := d.points_eq
    rw [h, List.flatMap_append] at hpoints
    apply map_text_of_sight
    rw [hdrop, map_sight_tokens, hsuffix, Lexeme.totalWidth_eq, map_sight_placeTokens hpoints]
  case issues =>
    have hmoved := placeIssues_moved 0 0 (Lexeme.totalWidth front) back
    rw [Nat.zero_add] at hmoved
    rw [filter_lexicalIssues h, hmoved, lexicalIssues, hsuffix]

/-- **The scan can start anew at any token that is not inside a snippet**: one that has as many
closed snippets before it as there are opened ones. -/
theorem restartsAt {index : Nat} {t : Token} (ht : d.tokens[index]? = some t)
    (hclosed : (d.tokens.take index).countP (·.kind == .snippetStart)
      = (d.tokens.take index).countP (·.kind == .snippetEnd)) :
    d.RestartsAt index t.span.start := by
  -- the token comes behind as many lexemes as tokens, so it is enough to split the lexemes there
  obtain ⟨front, back, hls, rfl, hhead⟩ := exists_split_of_getElem?_tokens ht
  have hstart : t.span.start = Lexeme.totalWidth front := by
    have hfirst := start_head?_placeTokens (Lexeme.totalWidth front) back
    rw [hhead] at hfirst
    exact Option.some.inj hfirst
  have hkinds : (d.tokens.take front.length).map Token.kind = front.map Lexeme.kind := by
    rw [Document.tokens_eq_placeTokens, hls, take_placeTokens, map_kind_frontTokens]
  have hcount : ∀ kind, (d.tokens.take front.length).countP (·.kind == kind)
      = (front.map Lexeme.kind).count kind := by
    intro kind
    rw [← hkinds, List.count_eq_countP, List.countP_map]
    rfl
  rw [hcount, hcount] at hclosed
  rw [hstart]
  exact restartsAt_of_lexemes hls (afterAll_eq_grammar hls hclosed)

/-- A closed snippet with a directive in it, and a string and a snippet that are not closed. -/
def restartSample : Document := ofText "\x7b#if\x7d 'a\n\x7b"

/-- The scan can start anew behind the first snippet. -/
theorem restartsAt_sample : restartSample.RestartsAt 4 5 := by
  have ht : restartSample.tokens[4]? = some (.spelled .whitespace " " ⟨5, 6⟩ none) := by
    decide +kernel
  exact restartsAt ht (by decide +kernel)

end Document
end GrammarPaint
