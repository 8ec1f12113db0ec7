import GrammarPaint.Analysis
import GrammarPaint.Proofs.Locality
import GrammarPaint.Proofs.TokenText

/-!
# Snippets keep to themselves

What stands between the braces of a snippet has no influence on anything outside of it
(`agreeOutside_of_hasSnippet`).

Two documents that differ inside a snippet only are taken apart at its braces.  The lexemes in
front are the same because no lexeme looks past a brace that it does not hold (`lexemes_append`).
Inside, all lexemes are trivia (`isTrivia_of_snippet`), so the reading of items does not see them.
Behind the closing brace the scan is back in grammar text, and starts from there without a memory.
-/

set_option autoImplicit false
namespace GrammarPaint

open CodePoint

/-! ## A document with a snippet -/

/-- The document with `x` between braces, `p` in front and `q` behind. -/
def Document.withSnippet (p x q : List CodeUnit) : Document := ⟨p ++ 0x7B :: (x ++ 0x7D :: q)⟩

/-- Whether a snippet is opened at `start` and closed at `stop`. -/
def HasSnippet (tokens : List Token) (start stop : Nat) : Prop :=
  ∃ before opening inside closing after,
    tokens = before ++ opening :: (inside ++ closing :: after) ∧
    opening.kind = .snippetStart ∧ opening.span.start = start ∧
    closing.kind = .snippetEnd ∧ closing.span.start = stop ∧
    ∀ t ∈ inside, t.kind ≠ .snippetEnd

theorem points_withSnippet (p x q : List CodeUnit) :
    (Document.withSnippet p x q).points
      = decode p ++ .scalar '{' :: (decode x ++ .scalar '}' :: decode q) := by
  have hopen : ofUnit 0x7B = .scalar '{' := by decide
  have hclose : ofUnit 0x7D = .scalar '}' := by decide
  rw [Document.points, Document.withSnippet, decode_append (by simp; decide),
    decode_cons (by decide), decode_append (by simp; decide), decode_cons (by decide), hopen,
    hclose]

/-- The lexeme that opens a snippet. -/
def openingBrace : Lexeme := ⟨.snippetStart, [.scalar '{'], none, .grammar⟩

/-- The lexeme that closes a snippet. -/
def closingBrace (line : LineState) : Lexeme :=
  ⟨.snippetEnd, [.scalar '}'], none, .snippet 0 line⟩

/-! ## Its lexemes -/

theorem firstLexeme_closing {nesting : Nat} {line : LineState} {rest : List CodePoint}
    (h : (firstLexeme (.snippet nesting line) (.scalar '}') rest).kind = .snippetEnd) :
    firstLexeme (.snippet nesting line) (.scalar '}') rest = closingBrace line := by
  have hscan := scanCode_closing nesting line rest
  cases nesting with
  | zero =>
    rw [if_pos rfl] at hscan
    simp only [firstLexeme, Mode.scan, CodePoint.char, hscan, Scan.plain, List.take_zero]
    rfl
  | succ nesting =>
    rw [if_neg (Nat.succ_ne_zero _)] at hscan
    simp only [firstLexeme, Mode.scan, CodePoint.char, hscan, Scan.plain] at h
    cases h

theorem isTrivia_of_isCode {k : TokenKind} (h : k.isCode = true) : k.isTrivia = true := by
  revert h
  cases k <;> decide

theorem isTrivia_firstLexeme (nesting : Nat) (line : LineState) (p : CodePoint)
    (rest : List CodePoint) :
    (firstLexeme (.snippet nesting line) p rest).kind.isTrivia = true := by
  have hkind : (firstLexeme (.snippet nesting line) p rest).kind
      = (scanCode nesting line p.char rest).kind := rfl
  rw [hkind]
  rcases kind_scanCode nesting line p.char rest with hk | hk
  · rw [hk]
    rfl
  · exact isTrivia_of_isCode hk

/-- **Up to the brace that closes it, a snippet holds nothing but trivia.** -/
theorem isTrivia_of_snippet {nesting : Nat} {line : LineState} {points : List CodePoint}
    {inside after : List Lexeme} (h : lexemes (.snippet nesting line) points = inside ++ after)
    (hinside : ∀ l ∈ inside, l.kind ≠ .snippetEnd) : ∀ l ∈ inside, l.kind.isTrivia = true := by
  induction inside generalizing nesting line points with
  | nil => exact fun _ hl => absurd hl List.not_mem_nil
  | cons l inside ih =>
    match points with
    | [] => exact nomatch h
    | p :: rest =>
      rw [lexemes_cons, List.cons_append, List.cons.injEq] at h
      obtain ⟨rfl, h⟩ := h
      rw [List.forall_mem_cons] at hinside
      have hnext : (firstLexeme (.snippet nesting line) p rest).next = .snippet _ _ :=
        if_neg hinside.1
      rw [hnext] at h
      exact List.forall_mem_cons.2 ⟨isTrivia_firstLexeme nesting line p rest, ih h hinside.2⟩

/-- The lexemes of a text and of a brace behind it. -/
def lexemesUpTo (a : List CodePoint) : List Lexeme := lexemes .grammar (a ++ [.scalar '{'])

theorem totalWidth_lexemesUpTo (a : List CodePoint) :
    Lexeme.totalWidth (lexemesUpTo a) = totalWidth a + 1 := by
  rw [Lexeme.totalWidth_eq, lexemesUpTo, flatMap_points_lexemes, totalWidth_append]
  rfl

theorem points_ne_nil_of_mem_lexemesUpTo {a : List CodePoint} {l : Lexeme}
    (h : l ∈ lexemesUpTo a) : l.points ≠ [] := points_ne_nil_of_mem h

/-- **The lexemes up to a snippet are the same before any end of the text**, as no lexeme looks
past a brace that it does not hold. -/
theorem lexemesUpTo_eq {a rest : List CodePoint} {front back : List Lexeme} {l : Lexeme}
    (h : lexemes .grammar (a ++ .scalar '{' :: rest) = front ++ l :: back)
    (hkind : l.kind = .snippetStart) (hwidth : Lexeme.totalWidth front = totalWidth a) :
    lexemesUpTo a = front ++ [openingBrace] ∧ l = openingBrace ∧
      back = lexemes (.snippet 0 .atStart) rest := by
  obtain ⟨p, points, hpoints, rfl, rfl⟩ := lexemes_eq_append h
  rw [Lexeme.totalWidth_eq] at hwidth
  obtain ⟨rfl, hrest⟩ := append_inj_of_totalWidth hpoints hwidth.symm
  obtain ⟨rfl, rfl⟩ := List.cons.inj hrest
  cases hmode : Mode.grammar.afterAll front with
  | grammar =>
    have hfront := lexemes_append endsPunctuators_brace h []
    rw [hmode] at hfront
    exact ⟨hfront, rfl, rfl⟩
  | snippet nesting line =>
    rw [hmode] at hkind
    exact absurd hkind (kind_ne_snippetStart nesting line _ _)

/-- A snippet that is closed where it goes on with a brace. -/
theorem exists_eq_closingBrace {nesting : Nat} {line : LineState} {a rest : List CodePoint}
    {inside back : List Lexeme} {l : Lexeme}
    (h : lexemes (.snippet nesting line) (a ++ .scalar '}' :: rest) = inside ++ l :: back)
    (hinside : ∀ k ∈ inside, k.kind ≠ .snippetEnd) (hkind : l.kind = .snippetEnd)
    (hwidth : Lexeme.totalWidth inside = totalWidth a) :
    ∃ line', l = closingBrace line' ∧ inside.flatMap Lexeme.points = a ∧
      back = lexemes .grammar rest := by
  obtain ⟨nesting', line', hmode⟩ := exists_afterAll_eq_snippet nesting line hinside
  obtain ⟨p, points, hpoints, hl, hback⟩ := lexemes_eq_append h
  rw [Lexeme.totalWidth_eq] at hwidth
  obtain ⟨rfl, hrest⟩ := append_inj_of_totalWidth hpoints hwidth.symm
  obtain ⟨rfl, rfl⟩ := List.cons.inj hrest
  rw [hmode] at hl
  rw [hl] at hkind
  rw [firstLexeme_closing hkind] at hl
  rw [hl] at hback
  exact ⟨line', hl, rfl, hback⟩

/-- The lexemes of a document that has a snippet, taken apart at the braces. -/
theorem exists_lexemes_of_hasSnippet {p x q : List CodeUnit}
    (h : HasSnippet (Document.withSnippet p x q).tokens p.length (p.length + 1 + x.length)) :
    (∃ front, lexemesUpTo (decode p) = front ++ [openingBrace]) ∧
      ∃ inside line, (Document.withSnippet p x q).lexemes
          = lexemesUpTo (decode p)
            ++ (inside ++ closingBrace line :: lexemes .grammar (decode q)) ∧
        inside.flatMap Lexeme.points = decode x ∧ ∀ l ∈ inside, l.kind.isTrivia = true := by
  obtain ⟨before, opening, tokensInside, closing, after, htokens, hopenKind, hopenStart,
    hcloseKind, hcloseStart, hnotEnd⟩ := h
  rcases Document.exists_split_of_tokens htokens with rfl | ⟨front, l, back, hls, -, rfl, hback⟩
  · exact nomatch hopenKind
  have hopen : Lexeme.totalWidth front = totalWidth (decode p) := by
    rw [totalWidth_decode]
    exact hopenStart
  have hlexemes := hls
  rw [Document.lexemes, points_withSnippet] at hls
  obtain ⟨hfront, rfl, rfl⟩ := lexemesUpTo_eq hls hopenKind hopen
  rcases exists_split_of_placeTokens hback.symm with
    rfl | ⟨inside, l, back, hls', rfl, rfl, -⟩
  · exact nomatch hcloseKind
  have hinside : ∀ k ∈ inside, k.kind ≠ .snippetEnd := by
    intro k hk
    obtain ⟨t, ht, hkind⟩ := exists_mem_frontTokens hk
      (Lexeme.totalWidth front + openingBrace.width) (l :: back)
    exact hkind ▸ hnotEnd t ht
  have hclose : Lexeme.totalWidth inside = totalWidth (decode x) := by
    have hstart : Lexeme.totalWidth front + 1 + Lexeme.totalWidth inside
      = p.length + 1 + x.length := hcloseStart
    rw [totalWidth_decode] at hopen ⊢
    omega
  have htrivia := isTrivia_of_snippet hls' hinside
  obtain ⟨line, rfl, hx, rfl⟩ := exists_eq_closingBrace hls' hinside hcloseKind hclose
  refine ⟨⟨front, hfront⟩, inside, line, ?_, hx, htrivia⟩
  rw [hlexemes, hls', hfront, List.append_assoc]
  rfl

/-! ## Its tokens and issues -/

/-- The tokens up to the brace that opens a snippet behind `p`. -/
def tokensUpTo (p : List CodeUnit) : List Token := frontTokens 0 (lexemesUpTo (decode p)) []

/-- The tokens of the brace that closes a snippet before `q`, and of `q`. -/
def tokensFrom (start : Nat) (q : List CodeUnit) : List Token :=
  placeTokens start (closingBrace .inside :: lexemes .grammar (decode q))

/-- The issues up to a snippet behind `p` that is closed. -/
def issuesUpTo (p : List CodeUnit) : List LexicalIssue :=
  frontIssues 0 (lexemesUpTo (decode p)) [closingBrace .inside]

/-- The issues behind a snippet before `q`. -/
def issuesFrom (start : Nat) (q : List CodeUnit) : List LexicalIssue :=
  placeIssues start (closingBrace .inside :: lexemes .grammar (decode q))

/-- The tokens and the issues of a document that has a snippet, taken apart at the braces. -/
theorem exists_parts_of_hasSnippet {p x q : List CodeUnit}
    (h : HasSnippet (Document.withSnippet p x q).tokens p.length (p.length + 1 + x.length)) :
    ∃ tokensInside issuesInside,
      (Document.withSnippet p x q).tokens
        = tokensUpTo p ++ (tokensInside ++ tokensFrom (p.length + 1 + x.length) q) ∧
      (Document.withSnippet p x q).lexicalIssues
        = issuesUpTo p ++ (issuesInside ++ issuesFrom (p.length + 1 + x.length) q) ∧
      (∀ t ∈ tokensInside, t.kind.isTrivia = true) ∧
      (∀ t ∈ tokensInside, p.length < t.span.start ∧ t.span.start < p.length + 1 + x.length) ∧
      ∀ i ∈ issuesInside, p.length < i.span.start ∧ i.span.start < p.length + 1 + x.length := by
  obtain ⟨⟨front, hfront⟩, inside, line, hlexemes, hx, htrivia⟩ := exists_lexemes_of_hasSnippet h
  have hwidth : 0 + Lexeme.totalWidth (lexemesUpTo (decode p)) = p.length + 1 := by
    rw [totalWidth_lexemesUpTo, totalWidth_decode, Nat.zero_add]
  have hwidthInside : Lexeme.totalWidth inside = x.length := by
    rw [Lexeme.totalWidth_eq, hx, totalWidth_decode]
  have hne : ∀ l ∈ inside, l.points ≠ [] := by
    intro l hl
    have hmem : l ∈ (Document.withSnippet p x q).lexemes := by simp [hlexemes, hl]
    exact points_ne_nil_of_mem hmem
  refine ⟨frontTokens (p.length + 1) inside (closingBrace line :: lexemes .grammar (decode q)),
    frontIssues (p.length + 1) inside (closingBrace line :: lexemes .grammar (decode q)),
    ?_, ?_, ?_, ?_, ?_⟩
  · rw [Document.tokens_eq_placeTokens, hlexemes, placeTokens_append, placeTokens_append, hwidth,
      hwidthInside, tokensUpTo, hfront, frontTokens_append rfl rfl]
    rfl
  · have hclosed : frontIssues 0 (lexemesUpTo (decode p))
        (inside ++ closingBrace line :: lexemes .grammar (decode q)) = issuesUpTo p :=
      frontIssues_congr (.of_mem (closingBrace line) (by simp) rfl)
        (.of_mem (closingBrace .inside) List.mem_cons_self rfl) 0
    rw [Document.lexicalIssues, hlexemes, placeIssues_append, placeIssues_append, hwidth,
      hwidthInside, hclosed]
    rfl
  · intro t ht
    obtain ⟨l, hl, hkind⟩ := exists_mem_of_mem_frontTokens ht
    exact hkind ▸ htrivia l hl
  · intro t ht
    have hstart := start_frontTokens hne ht
    rwa [hwidthInside] at hstart
  · intro i hi
    have hstart := start_frontIssues hne hi
    rwa [hwidthInside] at hstart

/-! ## Where they stand -/

theorem start_tokensUpTo {p : List CodeUnit} {t : Token} (h : t ∈ tokensUpTo p) :
    t.span.start < p.length + 1 := by
  have hstart := (start_frontTokens (fun _ hl => points_ne_nil_of_mem_lexemesUpTo hl) h).2
  rwa [totalWidth_lexemesUpTo, totalWidth_decode, Nat.zero_add] at hstart

theorem start_issuesUpTo {p : List CodeUnit} {i : LexicalIssue} (h : i ∈ issuesUpTo p) :
    i.span.start < p.length + 1 := by
  have hstart := (start_frontIssues (fun _ hl => points_ne_nil_of_mem_lexemesUpTo hl) h).2
  rwa [totalWidth_lexemesUpTo, totalWidth_decode, Nat.zero_add] at hstart

theorem start_issuesFrom {start : Nat} {q : List CodeUnit} {i : LexicalIssue}
    (h : i ∈ issuesFrom start q) : start ≤ i.span.start := by
  refine le_start_of_mem_placeIssues (fun l hl => ?_) h
  rcases List.mem_cons.1 hl with rfl | hl
  · exact List.cons_ne_nil _ _
  · exact points_ne_nil_of_mem hl

/-- What begins before an inside, and what begins behind it. -/
theorem filter_outside {α : Type} {a b c : List α} {place n : Nat} (start : α → Nat)
    (ha : ∀ t ∈ a, start t < place) (hb : ∀ t ∈ b, place ≤ start t ∧ start t < place + n)
    (hc : ∀ t ∈ c, place + n ≤ start t) :
    (a ++ (b ++ c)).filter (fun t => start t < place) = a ∧
      (a ++ (b ++ c)).filter (fun t => place + n ≤ start t) = c := by
  constructor
  · refine (filter_start_append start ha ?_).1
    intro t ht
    rcases List.mem_append.1 ht with ht | ht
    · exact (hb t ht).1
    · exact Nat.le_trans (Nat.le_add_right place n) (hc t ht)
  · rw [← List.append_assoc]
    refine (filter_start_append start ?_ hc).2
    intro t ht
    rcases List.mem_append.1 ht with ht | ht
    · exact Nat.lt_of_lt_of_le (ha t ht) (Nat.le_add_right place n)
    · exact (hb t ht).2

/-! ## What is seen of them -/

theorem map_sight_tokensUpTo (p x q : List CodeUnit) :
    (tokensUpTo p).map (Document.withSnippet p x q).sight
      = (lexemesUpTo (decode p)).map Lexeme.sight := by
  have hpoints : (Document.withSnippet p x q).points
      = [] ++ (lexemesUpTo (decode p)).flatMap Lexeme.points
        ++ (decode x ++ .scalar '}' :: decode q) := by
    rw [points_withSnippet, lexemesUpTo, flatMap_points_lexemes]
    simp
  exact Document.map_sight_frontTokens [] hpoints

theorem map_sight_tokensFrom (p x q : List CodeUnit) :
    (tokensFrom (p.length + 1 + x.length) q).map (Document.withSnippet p x q).sight
      = (closingBrace .inside :: lexemes .grammar (decode q)).map Lexeme.sight
        ++ [Sight.ending] := by
  have hpoints : (Document.withSnippet p x q).points
      = (decode p ++ .scalar '{' :: decode x)
        ++ (closingBrace .inside :: lexemes .grammar (decode q)).flatMap Lexeme.points := by
    rw [points_withSnippet, List.flatMap_cons, flatMap_points_lexemes, closingBrace]
    simp
  have hwidth : p.length + 1 + x.length
      = totalWidth (decode p ++ .scalar '{' :: decode x) := by
    rw [totalWidth_append, totalWidth, totalWidth_decode, totalWidth_decode, Nat.add_assoc]
    rfl
  rw [hwidth]
  exact Document.map_sight_placeTokens hpoints

/-! ## The reading passes over the inside -/

/-- The paints that the reading of a document's items asks for. -/
def Document.paints (d : Document) : List Paint := (readItems d.tokens).1.map Verdict.paint

section OneDocument

variable {p x q : List CodeUnit}
variable (h : HasSnippet (Document.withSnippet p x q).tokens p.length (p.length + 1 + x.length))
include h

theorem substance_withSnippet :
    substance (Document.withSnippet p x q).tokens
      = substance (tokensUpTo p) ++ substance (tokensFrom (p.length + 1 + x.length) q) := by
  obtain ⟨inside, -, htokens, -, htrivia, -, -⟩ := exists_parts_of_hasSnippet h
  rw [htokens, substance_append, substance_append, substance_eq_nil htrivia, List.nil_append]

/-- The tokens before a snippet and behind it are painted as if there was nothing inside. -/
theorem filter_tokens_withSnippet :
    (Document.withSnippet p x q).analysis.tokens.filter (fun t => t.span.start < p.length + 1)
        = paintVisible (Document.withSnippet p x q).paints (tokensUpTo p) ∧
      (Document.withSnippet p x q).analysis.tokens.filter
          (fun t => p.length + 1 + x.length ≤ t.span.start)
        = paintVisible
            ((Document.withSnippet p x q).paints.drop (substance (tokensUpTo p)).length)
            (tokensFrom (p.length + 1 + x.length) q) := by
  obtain ⟨inside, -, htokens, -, htrivia, hinside, -⟩ := exists_parts_of_hasSnippet h
  have hpainted : (Document.withSnippet p x q).analysis.tokens
      = paintVisible (Document.withSnippet p x q).paints (Document.withSnippet p x q).tokens := rfl
  rw [hpainted, htokens, paintVisible_append_trivia htrivia]
  refine filter_outside (fun t : Token => t.span.start) (fun t ht => ?_) hinside fun t ht => ?_
  · obtain ⟨u, hu, hspan⟩ := exists_span_of_mem_paintVisible ht
    exact hspan ▸ start_tokensUpTo hu
  · obtain ⟨u, hu, hspan⟩ := exists_span_of_mem_paintVisible ht
    exact hspan ▸ le_start_of_mem_placeTokens hu

/-- The issues before a snippet and behind it are found as if there was nothing inside. -/
theorem filter_lexicalIssues_withSnippet :
    (Document.withSnippet p x q).analysis.lexicalIssues.filter
        (fun i => i.span.start < p.length + 1) = issuesUpTo p ∧
      (Document.withSnippet p x q).analysis.lexicalIssues.filter
        (fun i => p.length + 1 + x.length ≤ i.span.start)
        = issuesFrom (p.length + 1 + x.length) q := by
  obtain ⟨-, inside, -, hissues, -, -, hinside⟩ := exists_parts_of_hasSnippet h
  have hfound : (Document.withSnippet p x q).analysis.lexicalIssues
      = (Document.withSnippet p x q).lexicalIssues := rfl
  rw [hfound, hissues]
  exact filter_outside (fun i : LexicalIssue => i.span.start) (fun _ => start_issuesUpTo)
    hinside fun _ => start_issuesFrom

end OneDocument

/-! ## Two documents -/

/-- Two documents that are analysed alike but for what stands at `place`: a text of `n` units in
the first and one of `m` units in the second. -/
structure Document.AgreeOutside (d e : Document) (place n m : Nat) : Prop where
  /-- The same tokens in the same styles stand before it. -/
  tokens_before : e.analysis.tokens.filter (fun t => t.span.start < place)
    = d.analysis.tokens.filter (fun t => t.span.start < place)
  /-- They read the same. -/
  texts_before : (e.analysis.tokens.filter fun t => t.span.start < place).map (e.text ·.span)
    = (d.analysis.tokens.filter fun t => t.span.start < place).map (d.text ·.span)
  /-- The same tokens in the same styles stand behind it, moved along. -/
  tokens_behind : e.analysis.tokens.filter (fun t => place + m ≤ t.span.start)
    = (d.analysis.tokens.filter fun t => place + n ≤ t.span.start).map
        (Token.mapSpan (Span.moved n m))
  /-- They read the same. -/
  texts_behind : (e.analysis.tokens.filter fun t => place + m ≤ t.span.start).map (e.text ·.span)
    = (d.analysis.tokens.filter fun t => place + n ≤ t.span.start).map (d.text ·.span)
  /-- All that is wrong with the items is the same, moved along if it is behind it. -/
  structuralIssues : e.analysis.structuralIssues
    = d.analysis.structuralIssues.map
        (StructuralIssue.mapSpan (Span.movedFrom (place + n) n m))
  /-- The same is wrong with the text before it. -/
  lexicalIssues_before : e.analysis.lexicalIssues.filter (fun i => i.span.start < place)
    = d.analysis.lexicalIssues.filter (fun i => i.span.start < place)
  /-- The same is wrong with the text behind it, moved along. -/
  lexicalIssues_behind : e.analysis.lexicalIssues.filter (fun i => place + m ≤ i.span.start)
    = (d.analysis.lexicalIssues.filter fun i => place + n ≤ i.span.start).map
        (LexicalIssue.mapSpan (Span.moved n m))

theorem tokensFrom_moved (k n m : Nat) (q : List CodeUnit) :
    tokensFrom (k + m) q = (tokensFrom (k + n) q).map (Token.mapSpan (Span.moved n m)) :=
  placeTokens_moved k n m _

theorem issuesFrom_moved (k n m : Nat) (q : List CodeUnit) :
    issuesFrom (k + m) q = (issuesFrom (k + n) q).map (LexicalIssue.mapSpan (Span.moved n m)) :=
  placeIssues_moved k n m _

section TwoDocuments

variable {p x y q : List CodeUnit}
variable (hx : HasSnippet (Document.withSnippet p x q).tokens p.length (p.length + 1 + x.length))
variable (hy : HasSnippet (Document.withSnippet p y q).tokens p.length (p.length + 1 + y.length))

include hx hy

/-- **The reading sees the same tokens in both documents**, some of them in other places. -/
theorem substance_withSnippet_moved :
    substance (Document.withSnippet p y q).tokens
      = (substance (Document.withSnippet p x q).tokens).map
          (Token.mapSpan (Span.movedFrom (p.length + 1 + x.length) x.length y.length)) := by
  have hkept : (substance (tokensUpTo p)).map
      (Token.mapSpan (Span.movedFrom (p.length + 1 + x.length) x.length y.length))
        = substance (tokensUpTo p) := by
    refine movedFrom_of_lt fun t ht => ?_
    have hstart := start_tokensUpTo (List.mem_filter.1 ht).1
    omega
  have hmoved : (substance (tokensFrom (p.length + 1 + x.length) q)).map
      (Token.mapSpan (Span.movedFrom (p.length + 1 + x.length) x.length y.length))
        = (substance (tokensFrom (p.length + 1 + x.length) q)).map
            (Token.mapSpan (Span.moved x.length y.length)) :=
    movedFrom_of_le fun t ht => le_start_of_mem_placeTokens (List.mem_filter.1 ht).1
  rw [substance_withSnippet hx, substance_withSnippet hy, List.map_append, hkept, hmoved,
    tokensFrom_moved (p.length + 1) x.length y.length]
  exact congrArg (_ ++ ·) List.filter_map

theorem paints_withSnippet :
    (Document.withSnippet p y q).paints = (Document.withSnippet p x q).paints :=
  congrArg (fun read => read.1.map Verdict.paint)
    (readItems_mapSpan (substance_withSnippet_moved hx hy))

end TwoDocuments

/-- **What stands in a snippet has no influence on what is outside of it.** -/
theorem agreeOutside_of_hasSnippet {p x y q : List CodeUnit}
    (hx : HasSnippet (Document.withSnippet p x q).tokens p.length (p.length + 1 + x.length))
    (hy : HasSnippet (Document.withSnippet p y q).tokens p.length (p.length + 1 + y.length)) :
    Document.AgreeOutside (Document.withSnippet p x q) (Document.withSnippet p y q)
      (p.length + 1) x.length y.length := by
  obtain ⟨hbeforeX, hbehindX⟩ := filter_tokens_withSnippet hx
  obtain ⟨hbeforeY, hbehindY⟩ := filter_tokens_withSnippet hy
  obtain ⟨hissueBeforeX, hissueBehindX⟩ := filter_lexicalIssues_withSnippet hx
  obtain ⟨hissueBeforeY, hissueBehindY⟩ := filter_lexicalIssues_withSnippet hy
  have hpaints := paints_withSnippet hx hy
  constructor
  case tokens_before => rw [hbeforeX, hbeforeY, hpaints]
  case texts_before =>
    apply map_text_of_sight
    rw [hbeforeX, hbeforeY, map_sight_paintVisible, map_sight_paintVisible, map_sight_tokensUpTo,
      map_sight_tokensUpTo]
  case tokens_behind =>
    rw [hbehindX, hbehindY, hpaints, tokensFrom_moved (p.length + 1) x.length y.length]
    exact paintVisible_map (g := Token.mapSpan (Span.moved x.length y.length)) (fun _ => rfl)
      (apply_mapSpan _) _ _
  case texts_behind =>
    apply map_text_of_sight
    rw [hbehindX, hbehindY, map_sight_paintVisible, map_sight_paintVisible, map_sight_tokensFrom,
      map_sight_tokensFrom]
  case structuralIssues =>
    exact structuralIssues_mapSpan (substance_withSnippet_moved hx hy)
      (Document.exists_isEnd_tokens _)
  case lexicalIssues_before => rw [hissueBeforeX, hissueBeforeY]
  case lexicalIssues_behind =>
    rw [hissueBehindX, hissueBehindY]
    exact issuesFrom_moved (p.length + 1) x.length y.length q

/-- A text before a snippet. -/
def beforeSample : List CodeUnit := (Document.ofText "r=&").units

/-- A string that holds a brace. -/
def stringSample : List CodeUnit := (Document.ofText "\"\x7d\"").units

/-- A directive that names a header with a brace. -/
def headerSample : List CodeUnit := (Document.ofText "#include <\x7d>").units

/-- A text behind a snippet: a rule that is incomplete. -/
def behindSample : List CodeUnit := (Document.ofText ";a=;").units

/-- Neither of the braces inside closes the snippet, and the one text can stand for the other. -/
theorem agreeOutside_samples :
    let d := Document.withSnippet beforeSample stringSample behindSample
    let e := Document.withSnippet beforeSample headerSample behindSample
    HasSnippet d.tokens 3 7 ∧ HasSnippet e.tokens 3 16 ∧ Document.AgreeOutside d e 4 3 12 := by
  intro d e
  have hd : HasSnippet d.tokens 3 7 :=
    ⟨d.tokens.take 3, .spelled .snippetStart "\x7b" ⟨3, 4⟩ (some .code),
      (d.tokens.drop 4).take 1, .spelled .snippetEnd "\x7d" ⟨7, 8⟩ (some .code), d.tokens.drop 6,
      by decide +kernel, rfl, rfl, rfl, rfl, by decide +kernel⟩
  have he : HasSnippet e.tokens 3 16 :=
    ⟨e.tokens.take 3, .spelled .snippetStart "\x7b" ⟨3, 4⟩ (some .code),
      (e.tokens.drop 4).take 4, .spelled .snippetEnd "\x7d" ⟨16, 17⟩ (some .code),
      e.tokens.drop 9, by decide +kernel, rfl, rfl, rfl, rfl, by decide +kernel⟩
  have hp : beforeSample.length = 3 := by decide +kernel
  have hx : stringSample.length = 3 := by decide +kernel
  have hy : headerSample.length = 12 := by decide +kernel
  have hagree := agreeOutside_of_hasSnippet (p := beforeSample) (x := stringSample)
    (y := headerSample) (q := behindSample)
  rw [hp, hx, hy] at hagree
  exact ⟨hd, he, hagree hd he⟩

end GrammarPaint
