import GrammarPaint.Proofs.Modes
import GrammarPaint.Proofs.TokenText

/-!
# Directives and header names

Whether a `#` begins a directive, and whether a `<` begins a header name, is settled while a
snippet is scanned, by a state that changes with every lexeme.  Here the same is said about the
tokens that come out, by looking backward from a token over spacing and comments:

* `lineFirst` — nothing comes before it on its line;
* `behindPound` — nothing but a `#` does;
* `behindInclude` — nothing but a `#` and the word `include` does.

All three look at what is seen of the tokens before it, the nearest one first.  `lineState` is the
state that goes with such a list, step by step, and the scan is in that state
(`remembers_of_lexemes`), which settles the kind of a token.

The style of a `#` is written later than its token, at the name of the directive.  Since what is
written there is what can be found by looking ahead (`Document.tokens_eq_placeTokens`), it is read
off the tokens behind the `#`, too.  All other styles go with kinds (`kindsIn`).  Together these are
`Document.directives_of_tokens`.
-/

set_option autoImplicit false
namespace GrammarPaint

/-! ## Tables -/

/-- The names of directives. -/
def directiveNames : List String :=
  ["include", "define", "undef", "if", "ifdef", "ifndef", "else", "elif", "endif", "line",
    "error", "pragma", "warning"]

theorem mem_directives_iff {word : String} : word ∈ directives ↔ word ∈ directiveNames := Iff.rfl

/-- The kinds of the tokens that are shown in a style, as long as it does not matter what stands
around them.  Spacing, grammar text that fits nothing and the end of the file are shown in none. -/
def kindsIn : Style → List TokenKind
  | .keyword =>
    [.keywordEof, .keywordTypedef, .keywordCode, .keywordNamespace, .keywordTrue, .keywordFalse]
  | .identifier => [.identifier]
  | .ruleName | .typeName | .resultVariable | .templateVariable => []
  | .operator =>
    [.semicolon, .question, .plus, .bang, .star, .slash, .equals, .leftParen, .rightParen,
      .ampersand, .leftAngle, .rightAngle, .comma, .colon, .doubleColon]
  | .lineComment => [.lineComment]
  | .blockComment => [.blockComment]
  | .string => [.string]
  | .characterClass => [.characterClass]
  | .code => [.snippetStart, .snippetEnd]
  | .substitution => [.codeSubstitution]
  | .codeLineComment => [.codeLineComment]
  | .codeBlockComment => [.codeBlockComment]
  | .codeKeyword => [.codeKeyword]
  | .codeIdentifier => [.codeIdentifier]
  | .codeString => [.codeString, .codeRawString]
  | .codeChar => [.codeChar]
  | .codeHeaderName => [.codeHeaderName]
  | .codeNumber => [.codeNumber]
  | .codePunctuator => [.codePunctuator]
  | .codeUnknown => [.codeUnknown]

theorem style?_eq_some_iff (kind : TokenKind) (style : Style) :
    kind.style? = some style ↔ kind ∈ kindsIn style := by
  have hall : ∀ k ∈ TokenKind.all, ∀ s ∈ Style.all, k.style? = some s ↔ k ∈ kindsIn s := by
    decide +kernel
  exact hall kind (TokenKind.mem_all kind) style style.mem_all

/-! ## Looking backward -/

namespace Sight

/-- Whether there is a line break in the text. -/
def hasBreak (s : Sight) : Bool := s.2.toList.any isLineBreak

/-- Spacing without a line break, and block comments of code. -/
def isGap (s : Sight) : Bool := (s.1 == .whitespace && !s.hasBreak) || s.1 == .codeBlockComment

/-- What a line of code begins behind. -/
def beginsLine (s : Sight) : Bool := s.1 == .snippetStart || (s.1 == .whitespace && s.hasBreak)

/-- A `#` that is all of a punctuator. -/
def isPound (s : Sight) : Bool := s.1 == .codePunctuator && s.2 == "#"

/-- The word `include`, as a keyword. -/
def isInclude (s : Sight) : Bool := s.1 == .codeKeyword && s.2 == "include"

/-- The name of a directive, as a keyword. -/
def isDirective (s : Sight) : Bool := s.1 == .codeKeyword && directiveNames.contains s.2

/-- Whether the text begins like a header name. -/
def beginsHeader (s : Sight) : Bool :=
  s.2.toList.head? == some '<' || s.2.toList.head? == some '"'

end Sight

/-- Whether `p` holds of the first thing past the gaps, and of what is behind it. -/
def pastGaps (p : Sight → List Sight → Bool) (ss : List Sight) : Bool :=
  match ss.dropWhile Sight.isGap with
  | [] => false
  | s :: more => p s more

/-- Whether a line of code begins here. -/
def lineFirst : List Sight → Bool := pastGaps fun s _ => s.beginsLine

/-- Whether a `#` that is the first on its line comes before this, and nothing else. -/
def behindPound : List Sight → Bool := pastGaps fun s more => s.isPound && lineFirst more

/-- Whether such a `#` and the word `include` come before this, and nothing else. -/
def behindInclude : List Sight → Bool := pastGaps fun s more => s.isInclude && behindPound more

/-- Whether the name of a directive comes next. -/
def directiveFollows : List Sight → Bool := pastGaps fun s _ => s.isDirective

/-- Whether the nearest brace of a snippet opens one. -/
def insideSnippet (back : List Sight) : Bool :=
  match back.find? fun s => s.1 == .snippetStart || s.1 == .snippetEnd with
  | none => false
  | some s => s.1 == .snippetStart

/-! ## The state that goes with what came before -/

/-- The place on a line of code behind `back`, one piece after the other. -/
def lineState : List Sight → LineState
  | [] => .inside
  | s :: back =>
    if s.isGap then lineState back
    else if s.beginsLine then .atStart
    else if s.isPound ∧ lineState back = .atStart then .afterPound
    else if s.isInclude ∧ lineState back = .afterPound then .afterInclude
    else .inside

theorem pastGaps_cons_of_isGap {s : Sight} (h : s.isGap = true)
    (p : Sight → List Sight → Bool) (ss : List Sight) : pastGaps p (s :: ss) = pastGaps p ss := by
  rw [pastGaps, List.dropWhile_cons_of_pos h, pastGaps]

theorem pastGaps_cons {s : Sight} (h : s.isGap = false) (p : Sight → List Sight → Bool)
    (ss : List Sight) : pastGaps p (s :: ss) = p s ss := by
  rw [pastGaps, List.dropWhile_cons_of_neg (by simp [h])]

theorem pastGaps_append {a : List Sight} (h : ∀ s ∈ a, s.isGap = true)
    (p : Sight → List Sight → Bool) (b : List Sight) : pastGaps p (a ++ b) = pastGaps p b := by
  rw [pastGaps, List.dropWhile_append_of_pos h, pastGaps]

theorem Sight.not_isGap_of_isPound {s : Sight} (h : s.isPound = true) : s.isGap = false := by
  simp only [isPound, Bool.and_eq_true, beq_iff_eq] at h
  simp [isGap, h.1]

theorem Sight.not_beginsLine_of_isPound {s : Sight} (h : s.isPound = true) :
    s.beginsLine = false := by
  simp only [isPound, Bool.and_eq_true, beq_iff_eq] at h
  simp [beginsLine, h.1]

theorem Sight.not_of_isInclude {s : Sight} (h : s.isInclude = true) :
    s.beginsLine = false ∧ s.isPound = false := by
  simp only [isInclude, Bool.and_eq_true, beq_iff_eq] at h
  simp [beginsLine, isPound, h.1]

/-- **The state says what looking backward says.** -/
theorem lineState_iff (back : List Sight) :
    (lineFirst back = true ↔ lineState back = .atStart) ∧
      (behindPound back = true ↔ lineState back = .afterPound) ∧
      (behindInclude back = true ↔ lineState back = .afterInclude) := by
  induction back with
  | nil => exact ⟨⟨nofun, nofun⟩, ⟨nofun, nofun⟩, ⟨nofun, nofun⟩⟩
  | cons s back ih =>
    rw [lineFirst, behindPound, behindInclude, lineState]
    cases hgap : s.isGap with
    | true =>
      simp only [pastGaps_cons_of_isGap hgap]
      exact ih
    | false =>
      simp only [pastGaps_cons hgap, Bool.and_eq_true, ih.1, ih.2.1]
      rw [if_neg (by simp)]
      by_cases hline : s.beginsLine = true
      · have hpound : s.isPound ≠ true := fun h => by
          simp [Sight.not_beginsLine_of_isPound h] at hline
        have hinclude : s.isInclude ≠ true := fun h => by
          simp [Sight.not_of_isInclude h] at hline
        simp [hline, hpound, hinclude]
      · by_cases hpound : s.isPound = true ∧ lineState back = .atStart
        · have hinclude : s.isInclude ≠ true := fun h => by
            simp [Sight.not_of_isInclude h] at hpound
          simp [hline, hpound, hinclude]
        · by_cases hinclude : s.isInclude = true ∧ lineState back = .afterPound
          · simp [hline, hinclude]
          · simp [hline, hpound, hinclude]

/-! ## The scan is in that state -/

theorem hasBreak_sight (l : Lexeme) : l.sight.hasBreak = l.text.any isLineBreak := by
  rw [Sight.hasBreak, Lexeme.sight, spell, String.toList_ofList]
  rfl

theorem isGap_sight (l : Lexeme) : l.sight.isGap = l.isGap := by
  rw [Sight.isGap, hasBreak_sight]
  rfl

theorem isGap_of_mem_map_sight {gaps : List Lexeme} (h : ∀ g ∈ gaps, g.isGap = true) :
    ∀ s ∈ gaps.map Lexeme.sight, s.isGap = true := by
  intro s hs
  obtain ⟨g, hg, rfl⟩ := List.mem_map.1 hs
  exact (isGap_sight g).trans (h g hg)

theorem isPound_sight (l : Lexeme) : l.sight.isPound = l.isPound := by
  rw [Bool.eq_iff_iff, Lexeme.isPound_iff, Sight.isPound, Bool.and_eq_true, beq_iff_eq, beq_iff_eq]
  exact and_congr_right' String.ofList_inj

theorem isInclude_sight (l : Lexeme) :
    l.sight.isInclude = true ↔ l.kind = .codeKeyword ∧ String.ofList l.text = "include" := by
  rw [Sight.isInclude, Bool.and_eq_true, beq_iff_eq, beq_iff_eq]
  rfl

/-- A lexeme of a snippet takes the scan from one state to the next. -/
theorem lineState_cons {l : Lexeme} {back : List Sight} (h : l.kind ≠ .snippetStart) :
    lineState (l.sight :: back) = (lineState back).after l.kind l.text := by
  have hkind : l.sight.1 = l.kind := rfl
  simp only [lineState, isPound_sight, Lexeme.isPound_iff, isInclude_sight, Sight.isGap,
    Sight.beginsLine, hasBreak_sight, hkind]
  cases hk : l.kind with
  | snippetStart => exact absurd hk h
  | whitespace =>
    rw [LineState.after]
    cases l.text.any isLineBreak <;> rfl
  | codePunctuator =>
    rw [LineState.after]
    simp [and_comm]
  | codeKeyword =>
    rw [LineState.after]
    simp [and_comm]
  | _ => simp [LineState.after]

/-- What a mode knows of the lexemes before it, the nearest one first. -/
def Mode.Remembers (back : List Sight) : Mode → Prop
  | grammar => insideSnippet back = false
  | snippet _ line => insideSnippet back = true ∧ line = lineState back

theorem insideSnippet_cons_of_brace {s : Sight} (h : s.1 = .snippetStart ∨ s.1 = .snippetEnd)
    (back : List Sight) : insideSnippet (s :: back) = (s.1 == .snippetStart) := by
  rw [insideSnippet, List.find?_cons_of_pos (by rcases h with h | h <;> simp [h])]

theorem insideSnippet_cons {s : Sight} (hstart : s.1 ≠ .snippetStart) (hend : s.1 ≠ .snippetEnd)
    (back : List Sight) : insideSnippet (s :: back) = insideSnippet back := by
  rw [insideSnippet, List.find?_cons_of_neg (by simp [hstart, hend]), insideSnippet]

theorem Mode.Remembers.after {m : Mode} {back : List Sight} (h : m.Remembers back)
    {l : Lexeme} (hl : m ≠ .grammar → l.kind ≠ .snippetStart) :
    (m.after l.kind l.text).Remembers (l.sight :: back) := by
  cases m with
  | grammar =>
    rw [Mode.after]
    by_cases hstart : l.kind = .snippetStart
    · rw [if_pos hstart]
      refine ⟨(insideSnippet_cons_of_brace (.inl hstart) back).trans (beq_iff_eq.2 hstart), ?_⟩
      have hgap : l.sight.isGap = false := by simp [Sight.isGap, Lexeme.sight, hstart]
      have hline : l.sight.beginsLine = true := by simp [Sight.beginsLine, Lexeme.sight, hstart]
      rw [lineState, hgap, hline]
      rfl
    · rw [if_neg hstart, Remembers]
      by_cases hend : l.kind = .snippetEnd
      · rw [insideSnippet_cons_of_brace (.inr hend)]
        exact beq_eq_false_iff_ne.2 hstart
      · rw [insideSnippet_cons hstart hend]
        exact h
  | snippet nesting line =>
    have hstart := hl (by simp)
    rw [Mode.after]
    by_cases hend : l.kind = .snippetEnd
    · rw [if_pos hend, Remembers, insideSnippet_cons_of_brace (.inr hend)]
      exact beq_eq_false_iff_ne.2 hstart
    · rw [if_neg hend]
      refine ⟨(insideSnippet_cons hstart hend back).trans h.1, ?_⟩
      rw [lineState_cons hstart, h.2]

theorem Mode.Remembers.next {m : Mode} {back : List Sight} (h : m.Remembers back) (p : CodePoint)
    (rest : List CodePoint) :
    (firstLexeme m p rest).next.Remembers ((firstLexeme m p rest).sight :: back) := by
  refine h.after fun hne => ?_
  cases m with
  | grammar => exact absurd rfl hne
  | snippet nesting line => exact kind_ne_snippetStart nesting line p.char rest

/-- **The mode of a lexeme knows what comes before it.** -/
theorem remembers_of_lexemes {m : Mode} {points : List CodePoint} {before after : List Lexeme}
    {l : Lexeme} {back : List Sight} (hm : m.Remembers back)
    (h : lexemes m points = before ++ l :: after) :
    l.mode.Remembers ((before.map Lexeme.sight).reverse ++ back) :=
  holds_of_lexemes (P := Mode.Remembers) (fun _ _ p rest hm => hm.next p rest) hm h

namespace Document

variable {d : Document} {before after : List Lexeme} {l : Lexeme}

/-- What is seen before a lexeme, the nearest first. -/
def lookBack (before : List Lexeme) : List Sight := (before.map Lexeme.sight).reverse

theorem remembers_lookBack (h : d.lexemes = before ++ l :: after) :
    l.mode.Remembers (lookBack before) := by
  have hm : Mode.grammar.Remembers [] := rfl
  have hback := remembers_of_lexemes hm h
  rwa [List.append_nil] at hback

/-- What belongs inside a snippet is inside a snippet. -/
theorem insideSnippet_of_isCode (h : d.lexemes = before ++ l :: after)
    (hcode : l.kind.isCode = true) : insideSnippet (lookBack before) = true := by
  obtain ⟨p, rest, -, hl, -⟩ := lexemes_eq_append h
  have hback := remembers_lookBack h
  rw [mode_eq_afterAll h] at hback
  cases hmode : Mode.grammar.afterAll before with
  | grammar =>
    rw [hl, hmode] at hcode
    exact absurd hcode (by simp [firstLexeme, Mode.scan, kind_scanGrammar])
  | snippet nesting line => rw [hmode] at hback; exact hback.1

/-- Inside a snippet, a lexeme is scanned in the state that goes with what is before it. -/
theorem exists_scanCode (h : d.lexemes = before ++ l :: after)
    (hinside : insideSnippet (lookBack before) = true) :
    ∃ nesting p rest, l = firstLexeme (.snippet nesting (lineState (lookBack before))) p rest := by
  obtain ⟨p, rest, -, hl, -⟩ := lexemes_eq_append h
  have hback := remembers_lookBack h
  rw [mode_eq_afterAll h] at hback
  cases hmode : Mode.grammar.afterAll before with
  | grammar =>
    rw [hmode] at hback
    exact absurd (hinside.symm.trans hback) nofun
  | snippet nesting line =>
    rw [hmode] at hback
    rw [hmode, hback.2] at hl
    exact ⟨nesting, p, rest, hl⟩

/-- Behind a `#` that is first on its line, words are told apart by the names of directives. -/
theorem kind_of_behindPound (h : d.lexemes = before ++ l :: after)
    (hpound : behindPound (lookBack before) = true)
    (hk : l.kind = .codeKeyword ∨ l.kind = .codeIdentifier) :
    l.kind = .codeKeyword ↔ spell l.points ∈ directiveNames := by
  have hcode : l.kind.isCode = true := by rcases hk with hk | hk <;> rw [hk] <;> rfl
  obtain ⟨nesting, p, rest, rfl⟩ := exists_scanCode h (insideSnippet_of_isCode h hcode)
  rw [(lineState_iff _).2.1] at hpound
  rw [hpound] at hk ⊢
  have hscan := scanCode_afterPound hk
  have hkind : (firstLexeme (.snippet nesting .afterPound) p rest).kind
      = codeWordKind true (spell (firstLexeme (.snippet nesting .afterPound) p rest).points) := by
    simp only [firstLexeme, Mode.scan, hscan, Scan.plain, spell, List.map_cons]
  rw [hkind, codeWordKind, ← mem_directives_iff]
  simp

theorem beginsHeader_firstLexeme (m : Mode) (p : CodePoint) (rest : List CodePoint) :
    (firstLexeme m p rest).sight.beginsHeader = true ↔ p.char = '<' ∨ p.char = '"' := by
  simp [Sight.beginsHeader, Lexeme.sight, firstLexeme, spell]

/-- Header names are what begins like one behind an `include`. -/
theorem kind_eq_codeHeaderName_iff (h : d.lexemes = before ++ l :: after) :
    l.kind = .codeHeaderName ↔ insideSnippet (lookBack before) = true ∧
      l.sight.beginsHeader = true ∧ behindInclude (lookBack before) = true := by
  have hiff : insideSnippet (lookBack before) = true → (l.kind = .codeHeaderName ↔
      l.sight.beginsHeader = true ∧ behindInclude (lookBack before) = true) := by
    intro hinside
    obtain ⟨nesting, p, rest, rfl⟩ := exists_scanCode h hinside
    rw [beginsHeader_firstLexeme, (lineState_iff _).2.2]
    exact kind_scanCode_eq_codeHeaderName_iff.trans and_comm
  constructor
  · intro hk
    have hinside := insideSnippet_of_isCode h (by rw [hk]; rfl)
    exact ⟨hinside, (hiff hinside).1 hk⟩
  · rintro ⟨hinside, hheader⟩
    exact (hiff hinside).2 hheader

/-! ## The style of a `#` -/

theorem isLineFirstPound_eq (h : d.lexemes = before ++ l :: after) :
    l.isLineFirstPound = (l.sight.isPound && lineFirst (lookBack before)) := by
  rw [isPound_sight, Lexeme.isLineFirstPound]
  cases hpound : l.isPound with
  | false => rfl
  | true =>
    obtain ⟨nesting, p, rest, hl⟩ :=
      exists_scanCode h (insideSnippet_of_isCode h (by rw [(Lexeme.isPound_iff.1 hpound).1]; rfl))
    have hmode : l.mode = .snippet nesting (lineState (lookBack before)) := by rw [hl]; rfl
    rw [hmode, Bool.true_and, Bool.true_and, Bool.eq_iff_iff, (lineState_iff _).1]
    cases lineState (lookBack before) <;> simp

theorem behindPound_append {gaps : List Lexeme} (h : d.lexemes = before ++ l :: after)
    (hpound : l.isLineFirstPound = true) (hgaps : ∀ g ∈ gaps, g.isGap = true) :
    behindPound (lookBack (before ++ l :: gaps)) = true := by
  rw [isLineFirstPound_eq h, Bool.and_eq_true] at hpound
  have hback : lookBack (before ++ l :: gaps)
      = (gaps.map Lexeme.sight).reverse ++ l.sight :: lookBack before := by
    simp [lookBack]
  have hall : ∀ s ∈ (gaps.map Lexeme.sight).reverse, s.isGap = true := by
    intro s hs
    exact isGap_of_mem_map_sight hgaps s (List.mem_reverse.1 hs)
  rw [behindPound, hback, pastGaps_append hall, pastGaps_cons (Sight.not_isGap_of_isPound hpound.1),
    Bool.and_eq_true]
  exact hpound

/-- What follows a `#` that is first on its line is a keyword if it is the name of a directive. -/
theorem keywordFollows_eq (h : d.lexemes = before ++ l :: after)
    (hpound : l.isLineFirstPound = true) :
    Lexeme.keywordFollows after
      = directiveFollows (after.map Lexeme.sight ++ [Sight.ending]) := by
  have hsplit : after = after.takeWhile Lexeme.isGap ++ after.dropWhile Lexeme.isGap :=
    List.takeWhile_append_dropWhile.symm
  have hgaps : ∀ g ∈ after.takeWhile Lexeme.isGap, g.isGap = true :=
    List.all_eq_true.1 List.all_takeWhile
  have hahead : directiveFollows (after.map Lexeme.sight ++ [Sight.ending])
      = directiveFollows ((after.dropWhile Lexeme.isGap).map Lexeme.sight ++ [Sight.ending]) := by
    conv => lhs; rw [hsplit]
    rw [List.map_append, List.append_assoc, directiveFollows,
      pastGaps_append (isGap_of_mem_map_sight hgaps)]
  rw [hahead, Lexeme.keywordFollows]
  cases hdrop : after.dropWhile Lexeme.isGap with
  | nil => rfl
  | cons m more =>
    have hm : m.isGap = false := by
      simpa [hdrop] using List.head?_dropWhile_not Lexeme.isGap after
    rw [hdrop] at hsplit
    have hlexemes : d.lexemes = (before ++ l :: after.takeWhile Lexeme.isGap) ++ m :: more := by
      rw [h, List.append_assoc, List.cons_append, ← hsplit]
    have hkind := kind_of_behindPound hlexemes (behindPound_append h hpound hgaps)
    rw [List.map_cons, List.cons_append, directiveFollows,
      pastGaps_cons ((isGap_sight m).trans hm), Bool.eq_iff_iff, Sight.isDirective,
      Bool.and_eq_true, beq_iff_eq, beq_iff_eq, List.contains_iff_mem]
    exact ⟨fun hk => ⟨hk, (hkind (.inl hk)).1 hk⟩, And.left⟩

theorem style_eq (h : d.lexemes = before ++ l :: after) :
    l.style after = if l.sight.isPound = true ∧ lineFirst (lookBack before) = true ∧
        directiveFollows (after.map Lexeme.sight ++ [Sight.ending]) = true
      then some .keyword else l.kind.style? := by
  have hpound := isLineFirstPound_eq h
  rw [Lexeme.style]
  cases hl : l.isLineFirstPound with
  | false =>
    rw [hl] at hpound
    rw [Bool.false_and, if_neg Bool.false_ne_true, if_neg]
    rintro ⟨hp, hline, -⟩
    simp [hp, hline] at hpound
  | true =>
    rw [hl, eq_comm, Bool.and_eq_true] at hpound
    simp only [keywordFollows_eq h hl, hpound.1, hpound.2, Bool.true_and, true_and]

/-! ## Tokens -/

/-- **Directives and header names can be read off the tokens.**

* A `#` is shown as a keyword exactly if it is the first on its line and the name of a directive
  comes next.
* A word behind such a `#` is a keyword exactly if it is the name of a directive.
* A token is a header name exactly if it is inside a snippet, begins like one, and the word
  `include` behind such a `#` comes before it.
* Every other token is shown as its kind is (`kindsIn`). -/
theorem directives_of_tokens {d : Document} {before after : List Token} {t : Token}
    (h : d.tokens = before ++ t :: after) :
    let back := (before.map d.sight).reverse
    let ahead := after.map d.sight
    ((d.sight t).isPound = true →
      (t.style = some .keyword ↔ lineFirst back = true ∧ directiveFollows ahead = true)) ∧
    (behindPound back = true → t.kind = .codeKeyword ∨ t.kind = .codeIdentifier →
      (t.kind = .codeKeyword ↔ d.text t.span ∈ directiveNames)) ∧
    (t.kind = .codeHeaderName ↔ insideSnippet back = true ∧
      (d.sight t).beginsHeader = true ∧ behindInclude back = true) ∧
    (¬ ((d.sight t).isPound = true ∧ lineFirst back = true ∧ directiveFollows ahead = true) →
      ∀ style, t.style = some style ↔ t.kind ∈ kindsIn style) := by
  have hfst : t.kind = (d.sight t).1 := rfl
  have hsnd : d.text t.span = (d.sight t).2 := rfl
  intro back ahead
  rw [hfst, hsnd]
  rcases exists_lexeme_of_tokens h with
    ⟨hsight, hstyle⟩ | ⟨lsBefore, l, lsAfter, hls, hsight, hstyle, hbefore, hafter⟩
  · rw [hsight, hstyle]
    refine ⟨nofun, fun _ hk => ?_, ⟨nofun, fun hk => absurd hk.2.1 (by decide)⟩,
      fun _ => style?_eq_some_iff .endOfFile⟩
    rcases hk with hk | hk <;> exact nomatch hk
  · have hback : back = lookBack lsBefore := congrArg List.reverse hbefore
    have hahead : ahead = lsAfter.map Lexeme.sight ++ [Sight.ending] := hafter
    have hpound : l.sight.isPound = true → l.kind.style? = some .codePunctuator := fun hp => by
      rw [isPound_sight] at hp
      rw [(Lexeme.isPound_iff.1 hp).1]
      rfl
    rw [hsight, hstyle, hback, hahead, style_eq hls]
    refine ⟨fun hp => ?_, fun hb hk => kind_of_behindPound hls hb hk,
      kind_eq_codeHeaderName_iff hls, fun hne style => ?_⟩
    · rw [hpound hp]
      split
      · rename_i hall
        exact iff_of_true rfl hall.2
      · rename_i hnot
        exact iff_of_false nofun fun hall => hnot ⟨hp, hall⟩
    · rw [if_neg hne]
      exact style?_eq_some_iff l.kind style

/-- A snippet with an `include` on its second line. -/
def includeSample : Document := ofText "\x7b\n # include <a>\x7d"

/-- The `#` in it. -/
def samplePound : Token := .spelled .codePunctuator "#" ⟨3, 4⟩ (some .keyword)

/-- The header name in it. -/
def sampleHeader : Token := .spelled .codeHeaderName "<a>" ⟨13, 16⟩ (some .codeHeaderName)

/-- The `#` is in the style of keywords because it is the first on its line and the name of a
directive comes next.  What is behind the `include` is a header name, in the style of these. -/
theorem directives_includeSample :
    let d := includeSample
    (d.tokens = d.tokens.take 2 ++ samplePound :: d.tokens.drop 3 ∧
      lineFirst ((d.tokens.take 2).map d.sight).reverse = true ∧
      directiveFollows ((d.tokens.drop 3).map d.sight) = true) ∧
    (d.tokens = d.tokens.take 6 ++ sampleHeader :: d.tokens.drop 7 ∧
      behindInclude ((d.tokens.take 6).map d.sight).reverse = true ∧
      ∀ style, sampleHeader.style = some style ↔ sampleHeader.kind ∈ kindsIn style) := by
  intro d
  have hpound : d.tokens = d.tokens.take 2 ++ samplePound :: d.tokens.drop 3 := by decide +kernel
  have hheader : d.tokens = d.tokens.take 6 ++ sampleHeader :: d.tokens.drop 7 := by
    decide +kernel
  obtain ⟨hstyle, -, -, -⟩ := directives_of_tokens hpound
  obtain ⟨-, -, hname, hother⟩ := directives_of_tokens hheader
  exact ⟨⟨hpound, (hstyle (by decide +kernel)).1 rfl⟩,
    ⟨hheader, (hname.1 rfl).2.2, hother fun hall => absurd hall.1 (by decide +kernel)⟩⟩

end Document

end GrammarPaint
