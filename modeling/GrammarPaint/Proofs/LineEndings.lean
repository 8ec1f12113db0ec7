import GrammarPaint.Analysis
import GrammarPaint.Proofs.Returns
import GrammarPaint.Proofs.TokenText

/-!
# Line endings

A document may end its lines with line feeds or with a carriage return in front of each of them.
Here the second comes out of the first (`Document.withReturns`), and **tokens and issues stay the
same but for the places where they are** (`Document.analysis_withReturns`).

The returns come into the lexemes that hold line feeds, and every lexeme stays a lexeme
(`lexemes_withReturns`).  What the scan remembers, what a lexeme is shown as and what it is called
is read off lexemes without line breaks, or asks only whether there is one.  So it remains to see
where lexemes are placed, and that is settled by the width of the text in front of them
(`Document.offsetWithReturns_totalWidth`).

The one thing that must not happen is that a line feed is escaped: of a return and a line feed, a
backslash escapes the return alone.
-/

set_option autoImplicit false
namespace GrammarPaint

variable {points rest : List CodePoint} {p q : CodePoint}

/-! ## Lexemes -/

/-- Both line breaks are spacing, in every mode. -/
theorem exists_spacing (m : Mode) : ∃ space : Char → Bool, space '\r' = true ∧ space '\n' = true ∧
    ∀ c, space c = true → ∀ rest, m.scan c rest = .plain .whitespace (runLength space rest) := by
  cases m with
  | grammar => exact ⟨isGrammarSpace, rfl, rfl, fun c hc rest => if_pos hc⟩
  | snippet nesting line => exact ⟨isCodeSpace, rfl, rfl, fun c hc rest => if_pos hc⟩

/-- The lexeme of the stretched text. -/
def Lexeme.stretched (l : Lexeme) : Lexeme := { l with points := withReturns l.points }

/-- **The lexeme that begins a text begins the stretched text**, stretched. -/
theorem firstLexeme_withReturns (m : Mode) (p : CodePoint) (h : ¬ EscapesFeed rest) :
    ∃ q more, withReturns (p :: rest) = q :: more ∧
      firstLexeme m q more = (firstLexeme m p rest).stretched := by
  by_cases hp : p.char = '\n'
  · obtain ⟨space, hreturn, hfeed, hscan⟩ := exists_spacing m
    refine ⟨.scalar '\r', p :: withReturns rest, withReturns_of_feed hp rest, ?_⟩
    have hrun : runLength space (p :: withReturns rest)
        = stretch rest (runLength space rest) + 1 := by
      rw [runLength_cons, hp, if_pos hfeed, runLength_withReturns (hreturn.trans hfeed.symm)]
    simp only [firstLexeme, Lexeme.stretched, hp, show (CodePoint.scalar '\r').char = '\r' from rfl,
      hscan _ hreturn, hscan _ hfeed, hrun, Scan.plain, List.take_succ_cons, take_stretch,
      withReturns_of_feed hp]
  · refine ⟨p, withReturns rest, withReturns_cons hp rest, ?_⟩
    simp only [firstLexeme, Lexeme.stretched, scan_withReturns m p.char h, Scan.stretched,
      take_stretch, withReturns_cons hp]

/-! ## What is read off a lexeme -/

theorem text_stretched_eq_iff {l : Lexeme} {text : List Char}
    (h : text.any isLineBreak = false) : l.stretched.text = text ↔ l.text = text := by
  rcases exists_first_feed l.points with hnone | ⟨a, b, hl, -⟩
  · rw [Lexeme.text, Lexeme.stretched, withReturns_eq_self hnone]
    rfl
  · -- neither text is one without line breaks
    have hfeed : '\n' ∉ text := fun hmem => List.any_eq_false.1 h _ hmem rfl
    refine iff_of_false (fun heq => hfeed ?_) fun heq => hfeed ?_
    · rw [← heq, Lexeme.text, Lexeme.stretched, hl, withReturns_append, withReturns_of_feed rfl]
      simp [CodePoint.char]
    · rw [← heq, Lexeme.text, hl]
      simp [CodePoint.char]

theorem any_isLineBreak_stretched (l : Lexeme) :
    l.stretched.text.any isLineBreak = l.text.any isLineBreak := by
  rw [Lexeme.text, Lexeme.text, Lexeme.stretched]
  induction l.points with
  | nil => rfl
  | cons p points ih =>
    by_cases hp : p.char = '\n'
    · rw [withReturns_of_feed hp, List.map_cons, List.map_cons, List.any_cons, List.map_cons,
        List.any_cons, hp]
      rfl
    · rw [withReturns_cons hp, List.map_cons, List.map_cons, List.any_cons, List.any_cons, ih]

theorem next_stretched (l : Lexeme) : l.stretched.next = l.next := by
  have hopen : l.stretched.text = ['{'] ↔ l.text = ['{'] := text_stretched_eq_iff rfl
  have hclose : l.stretched.text = ['}'] ↔ l.text = ['}'] := text_stretched_eq_iff rfl
  have hpound : l.stretched.text = ['#'] ↔ l.text = ['#'] := text_stretched_eq_iff rfl
  have hinclude : String.ofList l.stretched.text = "include" ↔
      String.ofList l.text = "include" := by
    have hword : ∀ text, String.ofList text = "include" ↔ text = "include".toList := fun text => by
      rw [← String.toList_inj, String.toList_ofList]
    rw [hword, hword]
    exact text_stretched_eq_iff rfl
  rw [Lexeme.next, Lexeme.next, show l.stretched.mode = l.mode from rfl,
    show l.stretched.kind = l.kind from rfl]
  cases l.mode with
  | grammar => rfl
  | snippet nesting line =>
    simp only [Mode.after, nestingAfter, LineState.after, hopen, hclose, hpound, hinclude,
      any_isLineBreak_stretched]

/-- **The lexemes of a text are the lexemes of the stretched text**, each of them stretched. -/
theorem lexemes_withReturns (m : Mode) {points : List CodePoint} (h : ¬ EscapesFeed points) :
    lexemes m (withReturns points) = (lexemes m points).map Lexeme.stretched := by
  match points with
  | [] => rfl
  | p :: rest =>
    have hrest : ¬ EscapesFeed rest := fun hrest => h (hrest.cons p)
    obtain ⟨q, more, hcons, hfirst⟩ := firstLexeme_withReturns m p hrest
    have hdrop : more.drop ((firstLexeme m q more).points.length - 1)
        = withReturns (rest.drop ((firstLexeme m p rest).points.length - 1)) := by
      have hsplit := points_firstLexeme_append m q more
      rw [← hcons, ← points_firstLexeme_append m p rest, withReturns_append, hfirst] at hsplit
      rw [hfirst]
      exact List.append_cancel_left hsplit
    rw [hcons, lexemes_cons, hdrop, hfirst, next_stretched,
      lexemes_withReturns _ fun hbehind => hrest hbehind.of_drop, ← List.map_cons, ← lexemes_cons]
termination_by points.length

namespace Lexeme

theorem isGap_stretched (l : Lexeme) : l.stretched.isGap = l.isGap := by
  rw [isGap, any_isLineBreak_stretched]
  rfl

theorem isLineFirstPound_stretched (l : Lexeme) :
    l.stretched.isLineFirstPound = l.isLineFirstPound := by
  have hpound : (l.stretched.text == ['#']) = (l.text == ['#']) := by
    rw [Bool.eq_iff_iff, beq_iff_eq, beq_iff_eq]
    exact text_stretched_eq_iff rfl
  rw [isLineFirstPound, isPound, hpound]
  rfl

theorem keywordFollows_stretched (following : List Lexeme) :
    keywordFollows (following.map stretched) = keywordFollows following := by
  have hgap : isGap ∘ stretched = isGap := funext isGap_stretched
  rw [keywordFollows, keywordFollows, List.dropWhile_map, hgap]
  cases following.dropWhile isGap <;> rfl

theorem style_stretched (l : Lexeme) (following : List Lexeme) :
    l.stretched.style (following.map stretched) = l.style following := by
  rw [style, isLineFirstPound_stretched, keywordFollows_stretched]
  rfl

theorem isUnclosed_stretched (l : Lexeme) (following : List Lexeme) :
    l.stretched.isUnclosed (following.map stretched) = l.isUnclosed following := by
  rw [isUnclosed, List.all_map]
  rfl

theorem flatMap_points_stretched (ls : List Lexeme) :
    (ls.map stretched).flatMap Lexeme.points = withReturns (ls.flatMap Lexeme.points) := by
  induction ls with
  | nil => rfl
  | cons l ls ih =>
    rw [List.map_cons, List.flatMap_cons, List.flatMap_cons, ih, withReturns_append]
    rfl

end Lexeme

/-! ## Names -/

theorem isWordPart_of_isAlpha {c : Char} (h : c.isAlpha = true) : isWordPart c = true := by
  rw [isWordPart, Char.isAlphanum, h]
  rfl

theorem scanGrammar_of_isName {c : Char} (h : (scanGrammar c rest).kind.isName = true) :
    isWordPart c = true ∧ (scanGrammar c rest).more = runLength isWordPart rest := by
  unfold scanGrammar at h ⊢
  by_cases hspace : isGrammarSpace c = true
  · rw [if_pos hspace] at h
    exact nomatch h
  · rw [if_neg hspace] at h ⊢
    by_cases halpha : c.isAlpha = true
    · rw [if_pos halpha]
      exact ⟨isWordPart_of_isAlpha halpha, rfl⟩
    · exfalso
      rw [if_neg halpha] at h
      split at h
      · cases hcomment : scanComment? .blockComment .lineComment rest with
        | none =>
          rw [hcomment] at h
          exact nomatch h
        | some s =>
          rw [hcomment, Option.getD_some] at h
          rcases kind_scanComment? hcomment with hk | hk <;> rw [hk] at h <;> exact nomatch h
      · exact nomatch h
      · exact nomatch h
      · exact nomatch h
      · split at h <;> exact nomatch h
      · split at h
        · rename_i k hk
          have hall : ∀ k ∈ operatorKinds, k.isName = false := by decide
          rw [show (Scan.plain k 0).kind = k from rfl, hall k (kind_of_operatorKind? hk).1] at h
          exact nomatch h
        · exact nomatch h

theorem scanCodeWord_of_isName {line : LineState} {c : Char}
    (h : (scanCodeWord line c rest).kind.isName = true) :
    (scanCodeWord line c rest).more = runLength isWordPart rest := by
  have hliteral : ∀ before quote body, (scanLiteral before quote body).kind.isName = false := by
    intro before quote body
    rcases kind_scanLiteral before quote body with hk | hk <;> rw [hk] <;> rfl
  have hraw : ∀ before body, (scanRawLiteral before body).kind.isName = false := by
    intro before body
    rcases kind_scanRawLiteral before body with hk | hk | hk <;> rw [hk] <;> rfl
  rw [scanCodeWord] at h ⊢
  split at h
  · rw [if_pos ‹_›]
    rfl
  · rw [if_neg ‹_›]
    split at h
    · simp [hliteral] at h
    · rw [if_neg ‹_›]
      split at h
      · simp [hliteral] at h
      · rw [if_neg ‹_›]
        split at h
        · simp [hraw] at h
        · rw [if_neg ‹_›]
          rfl

theorem scanCode_of_isName {nesting : Nat} {line : LineState} {c : Char}
    (h : (scanCode nesting line c rest).kind.isName = true) :
    isWordPart c = true ∧ (scanCode nesting line c rest).more = runLength isWordPart rest := by
  cases hspace : isCodeSpace c with
  | true =>
    rw [scanCode_of_space hspace] at h
    exact nomatch h
  | false =>
    by_cases hheader : OpensHeader line c
    · rw [scanCode_of_header hheader] at h
      exact nomatch h
    · cases hword : isCodeWordStart c with
      | true =>
        rw [scanCode_of_word hspace hheader hword] at h ⊢
        refine ⟨?_, scanCodeWord_of_isName h⟩
        rw [isCodeWordStart, Bool.or_eq_true] at hword
        rcases hword with halpha | hunderscore
        · exact isWordPart_of_isAlpha halpha
        · rw [isWordPart, hunderscore, Bool.or_true]
      | false =>
        have hall : ∀ k ∈ signKinds, k.isName = false := by decide
        rw [hall _ (kind_scanCode_of_sign hspace hheader hword).1] at h
        exact nomatch h

/-- A name is a word through and through. -/
theorem isWordPart_of_isName {l : Lexeme} {m : Mode} {p : CodePoint}
    (hl : l = firstLexeme m p rest) (h : l.kind.isName = true) :
    ∀ q ∈ l.points, isWordPart q.char = true := by
  subst hl
  have hscan : isWordPart p.char = true ∧
      (m.scan p.char rest).more = runLength isWordPart rest := by
    cases m with
    | grammar => exact scanGrammar_of_isName h
    | snippet nesting line => exact scanCode_of_isName h
  rw [firstLexeme]
  refine List.forall_mem_cons.2 ⟨hscan.1, fun q hq => ?_⟩
  rw [hscan.2, take_runLength] at hq
  exact List.all_eq_true.1 List.all_takeWhile q hq

/-- A line break that comes into a document does not come into its names. -/
theorem spell_stretched {l : Lexeme} (hl : ∃ m p rest, l = firstLexeme m p rest)
    (h : l.kind.isName = true) : spell l.stretched.points = spell l.points := by
  obtain ⟨m, p, rest, hl⟩ := hl
  refine congrArg spell (withReturns_eq_self fun q hq hfeed => ?_)
  have hpart := isWordPart_of_isName hl h q hq
  rw [hfeed] at hpart
  exact nomatch hpart

/-! ## Documents -/

/-- The code units with a carriage return in front of every line feed. -/
def unitsWithReturns (us : List CodeUnit) : List CodeUnit :=
  us.flatMap fun u => if u = 0x0A then [0x0D, u] else [u]

theorem unitsWithReturns_cons (u : CodeUnit) (us : List CodeUnit) :
    unitsWithReturns (u :: us)
      = if u = 0x0A then 0x0D :: u :: unitsWithReturns us else u :: unitsWithReturns us := by
  rw [unitsWithReturns, List.flatMap_cons]
  split <;> rfl

theorem length_unitsWithReturns (us : List CodeUnit) :
    (unitsWithReturns us).length = us.length + us.count 0x0A := by
  induction us with
  | nil => rfl
  | cons u us ih =>
    rw [unitsWithReturns_cons]
    split
    · rename_i hu
      rw [List.length_cons, List.length_cons, ih, List.length_cons, hu, List.count_cons_self]
      omega
    · rename_i hu
      rw [List.length_cons, ih, List.length_cons, List.count_cons_of_ne hu]
      omega

namespace CodePoint

theorem char_ofUnit_eq_feed_iff {u : CodeUnit} : (ofUnit u).char = '\n' ↔ u = 0x0A := by
  constructor
  case mp =>
    intro h
    have hunits := units_ofUnit u
    rw [eq_scalar_of_char h (by decide)] at hunits
    exact (List.cons.inj hunits).1.symm
  case mpr =>
    rintro rfl
    decide

theorem char_ofPair_ne_feed {u v : CodeUnit} (h : (u.isHighSurrogate && v.isLowSurrogate) = true) :
    (ofPair u v).char ≠ '\n' := by
  intro hfeed
  have hwidth := width_ofPair h
  rw [eq_scalar_of_char hfeed (by decide)] at hwidth
  exact absurd hwidth (by decide)

theorem decode_cons_of_head? {u : CodeUnit} {us : List CodeUnit}
    (h : ∀ v ∈ us.head?, ¬ (u.isHighSurrogate && v.isLowSurrogate) = true) :
    decode (u :: us) = ofUnit u :: decode us := by
  cases us with
  | nil => rfl
  | cons v us => rw [decode, if_neg (h v rfl)]

/-- **A carriage return that comes in front of a line feed pairs with nothing.** -/
theorem decode_unitsWithReturns (us : List CodeUnit) :
    decode (unitsWithReturns us) = withReturns (decode us) := by
  fun_induction decode us with
  | case1 => rfl
  | case2 u =>
    by_cases hu : u = 0x0A
    · subst hu
      rfl
    · rw [unitsWithReturns_cons, if_neg hu,
        withReturns_cons fun h => hu (char_ofUnit_eq_feed_iff.1 h)]
      rfl
  | case3 u v rest hpair ih =>
    have hne : u ≠ 0x0A ∧ v ≠ 0x0A := by
      constructor <;> rintro rfl
      · exact absurd hpair Bool.false_ne_true
      · rw [Bool.and_eq_true] at hpair
        exact absurd hpair.2 Bool.false_ne_true
    rw [unitsWithReturns_cons, if_neg hne.1, unitsWithReturns_cons, if_neg hne.2, decode,
      if_pos hpair, ih, withReturns_cons (char_ofPair_ne_feed hpair)]
  | case4 u v rest hpair ih =>
    have hhead : ∀ w ∈ (unitsWithReturns (v :: rest)).head?, w = 0x0D ∨ w = v := by
      rw [unitsWithReturns_cons]
      split
      · exact fun w hw => .inl (Option.some.inj hw).symm
      · exact fun w hw => .inr (Option.some.inj hw).symm
    by_cases hu : u = 0x0A
    · rw [unitsWithReturns_cons, if_pos hu, decode_cons (by decide), decode_cons (by rw [hu]; rfl),
        ih, withReturns_of_feed (char_ofUnit_eq_feed_iff.2 hu)]
      rfl
    · rw [unitsWithReturns_cons, if_neg hu, decode_cons_of_head? ?_, ih,
        withReturns_cons fun h => hu (char_ofUnit_eq_feed_iff.1 h)]
      intro w hw
      rcases hhead w hw with rfl | rfl
      · rw [show CodeUnit.isLowSurrogate 0x0D = false from rfl, Bool.and_false]
        exact Bool.false_ne_true
      · exact hpair

end CodePoint

namespace Document

/-- The document with a carriage return in front of every line feed. -/
def withReturns (d : Document) : Document := ⟨unitsWithReturns d.units⟩

/-- Where an offset comes to be: there is one more unit before it for each line feed before it. -/
def offsetWithReturns (d : Document) (offset : Nat) : Nat :=
  offset + (d.units.take offset).count 0x0A

/-- Where a span comes to be. -/
def spanWithReturns (d : Document) (s : Span) : Span :=
  ⟨d.offsetWithReturns s.start, d.offsetWithReturns s.stop⟩

variable {d : Document} {a b c : List CodePoint}

theorem points_withReturns (d : Document) :
    d.withReturns.points = GrammarPaint.withReturns d.points :=
  CodePoint.decode_unitsWithReturns d.units

theorem not_escapesFeed (h : ¬ [0x5C, 0x0A] <:+: d.units) : ¬ EscapesFeed d.points := by
  rintro ⟨a, b, hpoints⟩
  refine h ⟨CodePoint.unitsOf a, CodePoint.unitsOf b, ?_⟩
  rw [units_eq, ← hpoints, CodePoint.unitsOf_append, CodePoint.unitsOf_append]
  rfl

theorem offsetWithReturns_totalWidth (h : d.points = a ++ b) :
    d.offsetWithReturns (CodePoint.totalWidth a)
      = CodePoint.totalWidth (GrammarPaint.withReturns a) := by
  have hdecoded : CodePoint.decode (CodePoint.unitsOf a) = a :=
    CodePoint.isDecoded_of_decode_eq_append h
  have hwidth := CodePoint.totalWidth_decode (unitsWithReturns (CodePoint.unitsOf a))
  rw [CodePoint.decode_unitsWithReturns, hdecoded, length_unitsWithReturns,
    CodePoint.length_unitsOf] at hwidth
  rw [offsetWithReturns, units_eq, h, CodePoint.unitsOf_append,
    List.take_left' (CodePoint.length_unitsOf a), hwidth]

theorem spanWithReturns_eq (h : d.points = a ++ b ++ c) :
    d.spanWithReturns ⟨CodePoint.totalWidth a, CodePoint.totalWidth a + CodePoint.totalWidth b⟩
      = ⟨CodePoint.totalWidth (GrammarPaint.withReturns a),
        CodePoint.totalWidth (GrammarPaint.withReturns a)
          + CodePoint.totalWidth (GrammarPaint.withReturns b)⟩ := by
  rw [spanWithReturns, ← CodePoint.totalWidth_append, offsetWithReturns_totalWidth h,
    offsetWithReturns_totalWidth (h.trans (List.append_assoc a b c)), withReturns_append,
    CodePoint.totalWidth_append]

/-! ## Placing -/

theorem loneSpans_withReturns (h : d.points = a ++ b ++ c) :
    loneSpans (CodePoint.totalWidth (GrammarPaint.withReturns a)) (GrammarPaint.withReturns b)
      = (loneSpans (CodePoint.totalWidth a) b).map d.spanWithReturns := by
  induction b generalizing a with
  | nil => rfl
  | cons p b ih =>
    have hp : d.points = a ++ [p] ++ (b ++ c) := by rw [h]; simp
    have hrest := ih (hp.trans (List.append_assoc ..).symm)
    rw [withReturns_append, CodePoint.totalWidth_append, CodePoint.totalWidth_append] at hrest
    by_cases hfeed : p.char = '\n'
    · obtain rfl := CodePoint.eq_scalar_of_char hfeed (by decide)
      rw [withReturns_of_feed hfeed]
      exact hrest
    · have hspan := spanWithReturns_eq hp
      rw [withReturns_cons hfeed] at hrest hspan ⊢
      rw [loneSpans, loneSpans]
      split
      · exact List.cons_eq_cons.2 ⟨hspan.symm, hrest⟩
      · exact hrest

variable {l : Lexeme} {following : List Lexeme}

theorem token_withReturns (hl : ∃ m p rest, l = firstLexeme m p rest)
    (h : d.points = a ++ l.points ++ c) (following : List Lexeme) :
    l.stretched.token (CodePoint.totalWidth (GrammarPaint.withReturns a))
        (following.map Lexeme.stretched)
      = (l.token (CodePoint.totalWidth a) following).mapSpan d.spanWithReturns := by
  have hspelled : ∀ span style, Token.spelled l.kind (spell l.stretched.points) span style
      = Token.spelled l.kind (spell l.points) span style := by
    intro span style
    cases hname : l.kind.isName with
    | true => rw [spell_stretched hl hname]
    | false => simp [Token.spelled, hname]
  rw [Lexeme.token, Lexeme.style_stretched, show l.stretched.kind = l.kind from rfl, hspelled]
  exact congrArg (Token.spelled _ _ · _) (spanWithReturns_eq h).symm

theorem issues_withReturns (h : d.points = a ++ l.points ++ following.flatMap Lexeme.points) :
    l.stretched.issues (CodePoint.totalWidth (GrammarPaint.withReturns a))
        (following.map Lexeme.stretched)
      = (l.issues (CodePoint.totalWidth a) following).map
          (LexicalIssue.mapSpan d.spanWithReturns) := by
  have hown := spanWithReturns_eq h
  have hopen := spanWithReturns_eq (a := a) (b := l.points ++ following.flatMap Lexeme.points)
    (c := []) (by rw [h, List.append_nil, List.append_assoc])
  rw [CodePoint.totalWidth_append, withReturns_append, CodePoint.totalWidth_append,
    ← Nat.add_assoc, ← Nat.add_assoc] at hopen
  have hlone : (loneSpans (CodePoint.totalWidth (GrammarPaint.withReturns a))
      l.stretched.points).map (LexicalIssue.mk .loneSurrogate)
      = ((loneSpans (CodePoint.totalWidth a) l.points).map (LexicalIssue.mk .loneSurrogate)).map
          (LexicalIssue.mapSpan d.spanWithReturns) := by
    rw [Lexeme.stretched, loneSpans_withReturns h, List.map_map, List.map_map]
    rfl
  rw [Lexeme.issues, Lexeme.issues, Lexeme.isUnclosed_stretched, Lexeme.totalWidth_eq,
    Lexeme.flatMap_points_stretched, Lexeme.totalWidth_eq, List.map_append, List.map_append, hlone,
    show l.stretched.fault = l.fault from rfl]
  congr 1
  congr 1
  · cases l.fault with
    | none => rfl
    | some fault => exact congrArg ([LexicalIssue.mk fault ·]) hown.symm
  · split
    · exact congrArg ([LexicalIssue.mk .unclosedSnippet ·]) hopen.symm
    · rfl

theorem placeTokens_withReturns {ls : List Lexeme}
    (hls : ∀ l ∈ ls, ∃ m p rest, l = firstLexeme m p rest)
    (h : d.points = a ++ ls.flatMap Lexeme.points) :
    placeTokens (CodePoint.totalWidth (GrammarPaint.withReturns a)) (ls.map Lexeme.stretched)
      = (placeTokens (CodePoint.totalWidth a) ls).map (Token.mapSpan d.spanWithReturns) := by
  induction ls generalizing a with
  | nil =>
    have hend := offsetWithReturns_totalWidth h
    exact congrArg (fun place => [Token.endOfFile place]) hend.symm
  | cons l ls ih =>
    rw [List.forall_mem_cons] at hls
    have hl : d.points = a ++ l.points ++ ls.flatMap Lexeme.points := by
      rw [h, List.flatMap_cons, List.append_assoc]
    have hrest := ih hls.2 hl
    rw [withReturns_append, CodePoint.totalWidth_append, CodePoint.totalWidth_append] at hrest
    rw [List.map_cons, placeTokens, placeTokens, List.map_cons, token_withReturns hls.1 hl]
    exact congrArg (_ :: ·) hrest

theorem placeIssues_withReturns {ls : List Lexeme} (h : d.points = a ++ ls.flatMap Lexeme.points) :
    placeIssues (CodePoint.totalWidth (GrammarPaint.withReturns a)) (ls.map Lexeme.stretched)
      = (placeIssues (CodePoint.totalWidth a) ls).map
          (LexicalIssue.mapSpan d.spanWithReturns) := by
  induction ls generalizing a with
  | nil => rfl
  | cons l ls ih =>
    have hl : d.points = a ++ l.points ++ ls.flatMap Lexeme.points := by
      rw [h, List.flatMap_cons, List.append_assoc]
    have hrest := ih hl
    rw [withReturns_append, CodePoint.totalWidth_append, CodePoint.totalWidth_append] at hrest
    rw [List.map_cons, placeIssues, placeIssues, List.map_append, issues_withReturns hl]
    exact congrArg (_ ++ ·) hrest

/-! ## Other line endings -/

section

variable (h : ¬ [0x5C, 0x0A] <:+: d.units)

include h

theorem lexemes_withReturns : d.withReturns.lexemes = d.lexemes.map Lexeme.stretched := by
  rw [lexemes, points_withReturns, GrammarPaint.lexemes_withReturns _ (not_escapesFeed h), lexemes]

theorem tokens_withReturns :
    d.withReturns.tokens = d.tokens.map (Token.mapSpan d.spanWithReturns) := by
  rw [tokens_eq_placeTokens, lexemes_withReturns h, tokens_eq_placeTokens]
  exact placeTokens_withReturns (a := []) (fun _ => exists_firstLexeme_of_mem) d.points_eq

theorem lexicalIssues_withReturns :
    d.withReturns.lexicalIssues = d.lexicalIssues.map (LexicalIssue.mapSpan d.spanWithReturns) := by
  rw [lexicalIssues, lexemes_withReturns h, lexicalIssues]
  exact placeIssues_withReturns (a := []) d.points_eq

end

end Document

/-- The analysis with its spans in other places. -/
def Analysis.mapSpan (f : Span → Span) (a : Analysis) : Analysis where
  tokens := a.tokens.map (Token.mapSpan f)
  lexicalIssues := a.lexicalIssues.map (LexicalIssue.mapSpan f)
  structuralIssues := a.structuralIssues.map (StructuralIssue.mapSpan f)

namespace Document

/-- **Line endings do not matter.**  If a document has no backslash directly in front of a line
feed, a carriage return in front of every line feed moves tokens and issues along and changes
nothing else about them.  There may be carriage returns already. -/
theorem analysis_withReturns {d : Document} (h : ¬ [0x5C, 0x0A] <:+: d.units) :
    d.withReturns.analysis = d.analysis.mapSpan d.spanWithReturns := by
  have htokens := tokens_withReturns h
  have hstyled : d.withReturns.styledTokens
      = d.styledTokens.map (Token.mapSpan d.spanWithReturns) := by
    rw [styledTokens, htokens, assignRoles_map, styledTokens]
  have hstructural : structuralIssues d.withReturns.tokens
      = (structuralIssues d.tokens).map (StructuralIssue.mapSpan d.spanWithReturns) := by
    rw [htokens]
    exact structuralIssues_map d.exists_isEnd_tokens _
  rw [analysis, hstyled, lexicalIssues_withReturns h, hstructural]
  rfl

/-- A snippet with a header name that is not closed on its line, and spacing and a comment that go
over several lines. -/
def linesSample : Document := ofText "r=\x7b#include <a\n\x7d;\n\n/*\n*/a"

theorem analysis_withReturns_linesSample :
    ¬ [0x5C, 0x0A] <:+: linesSample.units ∧
      linesSample.withReturns = ofText "r=\x7b#include <a\r\n\x7d;\r\n\r\n/*\r\n*/a" ∧
      linesSample.withReturns.analysis
        = linesSample.analysis.mapSpan linesSample.spanWithReturns :=
  ⟨by decide +kernel, by decide +kernel, analysis_withReturns (by decide +kernel)⟩

end Document
end GrammarPaint
