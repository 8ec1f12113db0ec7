import GrammarPaint.Lexeme.Basic
import GrammarPaint.Proofs.LongestMatch

/-!
# What a scan finds in each mode

The mode before a lexeme is the result of the lexemes before it (`mode_eq_afterAll`), so what every
lexeme keeps true of the mode and of the lexemes so far is true all along (`holds_afterAll`).  The
kind of a lexeme tells where in the rules of its mode it comes from:

* grammar text has no lexemes that belong inside a snippet, and opens one with a brace alone
  (`kind_scanGrammar`), and a snippet has nothing else beside spacing (`kind_scanCode`) and opens
  no other (`kind_ne_snippetStart`);
* words of code come from one rule, header names from another
  (`kind_scanCode_eq_codeHeaderName_iff`), and everything else from the remaining ones
  (`kind_scanCode_of_sign`).
-/

set_option autoImplicit false
namespace GrammarPaint

/-! ## Modes along a run -/

/-- The mode after lexemes in a row. -/
def Mode.afterAll (m : Mode) (ls : List Lexeme) : Mode :=
  ls.foldl (fun m l => m.after l.kind l.text) m

theorem afterAll_append (m : Mode) (a b : List Lexeme) :
    m.afterAll (a ++ b) = (m.afterAll a).afterAll b := List.foldl_append

theorem afterAll_cons (m : Mode) (l : Lexeme) (ls : List Lexeme) :
    m.afterAll (l :: ls) = (m.after l.kind l.text).afterAll ls := rfl

/-- **A lexeme is what its mode makes of the text behind the lexemes before it**, and scanning goes
on behind it in the mode that it leaves. -/
theorem lexemes_eq_append {m : Mode} {points : List CodePoint} {before after : List Lexeme}
    {l : Lexeme} (h : lexemes m points = before ++ l :: after) :
    ∃ p rest, points = before.flatMap Lexeme.points ++ p :: rest ∧
      l = firstLexeme (m.afterAll before) p rest ∧
      after = lexemes l.next (rest.drop (l.points.length - 1)) := by
  induction before generalizing m points with
  | nil =>
    match points with
    | [] => exact nomatch h
    | p :: rest =>
      rw [lexemes_cons, List.nil_append, List.cons.injEq] at h
      obtain ⟨rfl, rfl⟩ := h
      exact ⟨p, rest, rfl, rfl, rfl⟩
  | cons k before ih =>
    match points with
    | [] => exact nomatch h
    | q :: more =>
      rw [lexemes_cons, List.cons_append, List.cons.injEq] at h
      obtain ⟨rfl, h⟩ := h
      obtain ⟨p, rest, hpoints, hl, hafter⟩ := ih h
      refine ⟨p, rest, ?_, hl, hafter⟩
      rw [List.flatMap_cons, List.append_assoc, ← hpoints, points_firstLexeme_append]

/-- **The scan has no memory but its mode**: what is behind some lexemes is scanned as a text of its
own. -/
theorem lexemes_afterAll {m : Mode} {points : List CodePoint} {before after : List Lexeme}
    (h : lexemes m points = before ++ after) :
    lexemes (m.afterAll before) (after.flatMap Lexeme.points) = after := by
  induction before generalizing m points with
  | nil =>
    obtain rfl : lexemes m points = after := h
    exact congrArg (lexemes m) (flatMap_points_lexemes m points)
  | cons k before ih =>
    match points with
    | [] => exact nomatch h
    | p :: rest =>
      rw [lexemes_cons, List.cons_append, List.cons.injEq] at h
      obtain ⟨rfl, h⟩ := h
      exact ih h

theorem mode_eq_afterAll {m : Mode} {points : List CodePoint} {before after : List Lexeme}
    {l : Lexeme} (h : lexemes m points = before ++ l :: after) : l.mode = m.afterAll before := by
  obtain ⟨p, rest, -, rfl, -⟩ := lexemes_eq_append h
  rfl

theorem exists_firstLexeme_of_mem {m : Mode} {points : List CodePoint} {l : Lexeme}
    (h : l ∈ lexemes m points) : ∃ m' p rest, l = firstLexeme m' p rest := by
  obtain ⟨before, after, h⟩ := List.append_of_mem h
  obtain ⟨p, rest, -, hl, -⟩ := lexemes_eq_append h
  exact ⟨_, p, rest, hl⟩

/-- **What every lexeme keeps true is true all along.**  Here `P` speaks of what there is to say
about the lexemes so far, the nearest one first, and of the mode behind them. -/
theorem holds_afterAll {α : Type} {f : Lexeme → α} {P : List α → Mode → Prop}
    (hstep : ∀ back m p rest, P back m →
      P (f (firstLexeme m p rest) :: back) (firstLexeme m p rest).next)
    {m : Mode} {points : List CodePoint} {before after : List Lexeme} {back : List α}
    (hm : P back m) (h : lexemes m points = before ++ after) :
    P ((before.map f).reverse ++ back) (m.afterAll before) := by
  induction before generalizing m points back with
  | nil => exact hm
  | cons k before ih =>
    match points with
    | [] => exact nomatch h
    | p :: rest =>
      rw [lexemes_cons, List.cons_append, List.cons.injEq] at h
      obtain ⟨rfl, h⟩ := h
      rw [List.map_cons, List.reverse_cons, List.append_assoc]
      exact ih (hstep back m p rest hm) h

/-- What every lexeme keeps true is true at every lexeme. -/
theorem holds_of_lexemes {α : Type} {f : Lexeme → α} {P : List α → Mode → Prop}
    (hstep : ∀ back m p rest, P back m →
      P (f (firstLexeme m p rest) :: back) (firstLexeme m p rest).next)
    {m : Mode} {points : List CodePoint} {before after : List Lexeme} {l : Lexeme} {back : List α}
    (hm : P back m) (h : lexemes m points = before ++ l :: after) :
    P ((before.map f).reverse ++ back) l.mode := by
  rw [mode_eq_afterAll h]
  exact holds_afterAll hstep hm h

/-- Behind a brace that opens a snippet is a snippet. -/
theorem exists_after_snippetStart (m : Mode) (text : List Char) :
    ∃ nesting line, m.after .snippetStart text = .snippet nesting line := by
  cases m with
  | grammar => exact ⟨0, .atStart, rfl⟩
  | snippet nesting line => exact ⟨_, _, rfl⟩

/-- It takes the brace that closes a snippet to get out of it. -/
theorem exists_afterAll_eq_snippet (nesting : Nat) (line : LineState) {ls : List Lexeme}
    (h : ∀ l ∈ ls, l.kind ≠ .snippetEnd) :
    ∃ nesting' line', (Mode.snippet nesting line).afterAll ls = .snippet nesting' line' := by
  induction ls generalizing nesting line with
  | nil => exact ⟨nesting, line, rfl⟩
  | cons l ls ih =>
    rw [List.forall_mem_cons] at h
    rw [afterAll_cons, Mode.after, if_neg h.1]
    exact ih _ _ h.2

/-! ## Kinds in grammar text -/

theorem kind_scanComment? {block line : TokenKind} {rest : List CodePoint} {s : Scan}
    (h : scanComment? block line rest = some s) : s.kind = block ∨ s.kind = line := by
  rw [scanComment?] at h
  split at h
  · obtain rfl := Option.some.inj h
    exact .inl rfl
  · split at h
    · obtain rfl := Option.some.inj h
      exact .inr rfl
    · exact nomatch h

/-- The kinds of the operators of one character. -/
def operatorKinds : List TokenKind :=
  [.semicolon, .question, .plus, .bang, .star, .equals, .leftParen, .rightParen, .leftAngle,
    .rightAngle, .ampersand, .comma]

/-- The kinds of what else there is in grammar text, the brace that opens a snippet apart. -/
def grammarKinds : List TokenKind :=
  [.whitespace, .lineComment, .blockComment, .slash, .string, .characterClass, .colon,
    .doubleColon, .identifier, .keywordEof, .keywordTypedef, .keywordCode, .keywordNamespace,
    .keywordTrue, .keywordFalse, .unknown]

theorem kind_scanGrammarWord (c : Char) (rest : List CodePoint) :
    (scanGrammarWord c rest).kind ∈ grammarKinds := by
  simp only [scanGrammarWord, Scan.plain]
  unfold grammarWordKind
  split <;> decide

theorem kind_of_operatorKind? {c : Char} {k : TokenKind} (h : operatorKind? c = some k) :
    k ∈ operatorKinds ∧ (k = .semicolon → c = ';') := by
  unfold operatorKind? at h
  split at h <;> cases h <;> first | exact ⟨by decide, fun _ => rfl⟩ | exact ⟨by decide, nofun⟩

/-- **What begins with `c` in grammar text** is the brace that opens a snippet, an operator of one
character, or something of another kind. -/
theorem scanGrammar_cases (c : Char) (rest : List CodePoint) :
    (c = '{' ∧ scanGrammar c rest = .plain .snippetStart 0) ∨
      (∃ k, operatorKind? c = some k ∧ scanGrammar c rest = .plain k 0) ∨
      (scanGrammar c rest).kind ∈ grammarKinds := by
  unfold scanGrammar
  split
  · exact .inr (.inr List.mem_cons_self)
  · split
    · exact .inr (.inr (kind_scanGrammarWord c rest))
    · split
      · refine .inr (.inr ?_)
        cases h : scanComment? .blockComment .lineComment rest with
        | none => decide
        | some s =>
          rw [Option.getD_some]
          rcases kind_scanComment? h with h | h <;> rw [h] <;> decide
      · exact .inr (.inr (show TokenKind.string ∈ grammarKinds by decide))
      · exact .inr (.inr (show TokenKind.characterClass ∈ grammarKinds by decide))
      · exact .inl ⟨rfl, rfl⟩
      · exact .inr (.inr (by split <;> decide))
      · split
        · rename_i k hk
          exact .inr (.inl ⟨k, hk, rfl⟩)
        · exact .inr (.inr (by decide))

/-- The brace that opens a snippet is all of its lexeme. -/
theorem scanGrammar_of_snippetStart {c : Char} {rest : List CodePoint}
    (h : (scanGrammar c rest).kind = .snippetStart) :
    c = '{' ∧ scanGrammar c rest = .plain .snippetStart 0 := by
  rcases scanGrammar_cases c rest with hs | ⟨k, hk, hs⟩ | hs
  · exact hs
  · rw [hs] at h
    obtain rfl : k = .snippetStart := h
    exact absurd (kind_of_operatorKind? hk).1 (by decide)
  · exact absurd (h ▸ hs) (by decide)

/-- Grammar text has no lexemes that belong inside a snippet, and it takes a brace to open one. -/
theorem kind_scanGrammar (c : Char) (rest : List CodePoint) :
    (scanGrammar c rest).kind.isCode = false ∧
      ((scanGrammar c rest).kind = .snippetStart → c = '{') := by
  refine ⟨?_, fun h => (scanGrammar_of_snippetStart h).1⟩
  rcases scanGrammar_cases c rest with ⟨-, h⟩ | ⟨k, hk, h⟩ | h
  · rw [h]
    rfl
  · have hall : ∀ k ∈ operatorKinds, k.isCode = false := by decide
    rw [h]
    exact hall k (kind_of_operatorKind? hk).1
  · have hall : ∀ k ∈ grammarKinds, k.isCode = false := by decide
    exact hall _ h

/-- A semicolon of grammar text is all of its lexeme. -/
theorem scanGrammar_of_semicolon {c : Char} {rest : List CodePoint}
    (h : (scanGrammar c rest).kind = .semicolon) :
    c = ';' ∧ scanGrammar c rest = .plain .semicolon 0 := by
  rcases scanGrammar_cases c rest with ⟨-, hs⟩ | ⟨k, hk, hs⟩ | hs
  · rw [hs] at h
    exact nomatch h
  · rw [hs] at h
    obtain rfl : k = .semicolon := h
    exact ⟨(kind_of_operatorKind? hk).2 rfl, hs⟩
  · exact absurd (h ▸ hs) (by decide)

theorem kind_scanGrammar_ne_endOfFile (c : Char) (rest : List CodePoint) :
    (scanGrammar c rest).kind ≠ .endOfFile := by
  rcases scanGrammar_cases c rest with ⟨-, h⟩ | ⟨k, hk, h⟩ | h
  · rw [h]
    nofun
  · rw [h]
    rintro rfl
    exact absurd (kind_of_operatorKind? hk).1 (by decide)
  · intro hend
    exact absurd (hend ▸ h) (by decide)

/-! ## Kinds in snippets -/

theorem kind_codeWordKind (afterPound : Bool) (word : String) :
    codeWordKind afterPound word = .codeKeyword ∨
      codeWordKind afterPound word = .codeIdentifier :=
  (Decidable.em _).imp (fun h => if_pos h) (fun h => if_neg h)

theorem kind_scanLiteral (before : Nat) (quote : Char) (body : List CodePoint) :
    (scanLiteral before quote body).kind = .codeChar ∨
      (scanLiteral before quote body).kind = .codeString := by
  rw [scanLiteral]
  split
  · exact .inl rfl
  · exact .inr rfl

theorem kind_scanRawLiteral (before : Nat) (body : List CodePoint) :
    (scanRawLiteral before body).kind = .codeRawString ∨
      (scanRawLiteral before body).kind = .codeChar ∨
      (scanRawLiteral before body).kind = .codeString := by
  rw [scanRawLiteral]
  split
  · exact .inl rfl
  · exact .inr (kind_scanLiteral ..)

/-- The kinds of words, and of the literals that a word can begin. -/
def wordKinds : List TokenKind :=
  [.codeKeyword, .codeIdentifier, .codeRawString, .codeChar, .codeString]

theorem kind_scanCodeWord (line : LineState) (c : Char) (rest : List CodePoint) :
    (scanCodeWord line c rest).kind ∈ wordKinds := by
  have hplain : ∀ afterPound word, codeWordKind afterPound word ∈ wordKinds := by
    intro afterPound word
    rcases kind_codeWordKind afterPound word with h | h <;> rw [h] <;> decide
  have hliteral : ∀ before quote body, (scanLiteral before quote body).kind ∈ wordKinds := by
    intro before quote body
    rcases kind_scanLiteral before quote body with h | h <;> rw [h] <;> decide
  rw [scanCodeWord]
  repeat' split
  · exact hplain ..
  · exact hliteral ..
  · exact hliteral ..
  · rcases kind_scanRawLiteral _ _ with h | h | h <;> rw [h] <;> decide
  · exact hplain ..

theorem kind_scanPunctuator (c : Char) (rest : List CodePoint) :
    (scanPunctuator c rest).kind = .codeUnknown ∨
      (scanPunctuator c rest).kind = .codePunctuator := by
  rw [scanPunctuator_eq]
  split
  · exact .inl rfl
  · exact .inr rfl

theorem kind_scanSubstitution (rest : List CodePoint) :
    (scanSubstitution rest).kind = .codeUnknown ∨
      (scanSubstitution rest).kind = .codeSubstitution := by
  unfold scanSubstitution
  split
  · exact .inr rfl
  · split
    · exact .inr rfl
    · exact .inl rfl

/-- The kinds of what is neither spacing nor a header name nor begins like a word. -/
def signKinds : List TokenKind :=
  [.codeNumber, .codeBlockComment, .codeLineComment, .codePunctuator, .codeUnknown, .codeChar,
    .codeString, .codeSubstitution, .snippetEnd]

/-- Whether a header name begins with `c`. -/
def OpensHeader (line : LineState) (c : Char) : Prop :=
  line = .afterInclude ∧ (c = '<' ∨ c = '"')

theorem scanCode_of_space {nesting : Nat} {line : LineState} {c : Char} {rest : List CodePoint}
    (h : isCodeSpace c = true) :
    scanCode nesting line c rest = .plain .whitespace (runLength isCodeSpace rest) := if_pos h

theorem not_isCodeSpace_of_opensHeader {line : LineState} {c : Char} (h : OpensHeader line c) :
    isCodeSpace c = false := by
  rcases h.2 with rfl | rfl <;> decide

theorem scanCode_of_header {nesting : Nat} {line : LineState} {c : Char} {rest : List CodePoint}
    (h : OpensHeader line c) : scanCode nesting line c rest = scanHeaderName c rest :=
  (if_neg (by simp [not_isCodeSpace_of_opensHeader h])).trans (if_pos h)

theorem scanCode_of_word {nesting : Nat} {line : LineState} {c : Char} {rest : List CodePoint}
    (hspace : isCodeSpace c = false) (hheader : ¬ OpensHeader line c)
    (h : isCodeWordStart c = true) : scanCode nesting line c rest = scanCodeWord line c rest :=
  (if_neg (by simp [hspace])).trans ((if_neg hheader).trans (if_pos h))

/-- The brace that closes a snippet is one of the signs, and takes a brace. -/
theorem kind_scanCode_of_sign {nesting : Nat} {line : LineState} {c : Char}
    {rest : List CodePoint} (hspace : isCodeSpace c = false) (hheader : ¬ OpensHeader line c)
    (hword : isCodeWordStart c = false) :
    (scanCode nesting line c rest).kind ∈ signKinds ∧
      ((scanCode nesting line c rest).kind = .snippetEnd → c = '}') := by
  have hpunctuator : (scanPunctuator c rest).kind ∈ signKinds ∧
      (scanPunctuator c rest).kind ≠ .snippetEnd := by
    rcases kind_scanPunctuator c rest with h | h <;> rw [h] <;> decide
  rw [OpensHeader] at hheader
  unfold scanCode
  rw [if_neg (by simp [hspace]), if_neg hheader, if_neg (by simp [hword])]
  split
  · exact ⟨List.mem_cons_self, nofun⟩
  · split
    · cases h : scanComment? .codeBlockComment .codeLineComment rest with
      | none => exact ⟨hpunctuator.1, fun hk => absurd hk hpunctuator.2⟩
      | some s =>
        rw [Option.getD_some]
        rcases kind_scanComment? h with h | h <;> rw [h] <;> exact ⟨by decide, nofun⟩
    · rcases kind_scanLiteral 0 '\'' rest with h | h <;> rw [h] <;> exact ⟨by decide, nofun⟩
    · rcases kind_scanLiteral 0 '"' rest with h | h <;> rw [h] <;> exact ⟨by decide, nofun⟩
    · rcases kind_scanSubstitution rest with h | h <;> rw [h] <;> exact ⟨by decide, nofun⟩
    · exact ⟨by split <;> decide, fun _ => rfl⟩
    · exact ⟨hpunctuator.1, fun hk => absurd hk hpunctuator.2⟩

/-- **A snippet holds nothing but spacing and what belongs inside a snippet.** -/
theorem kind_scanCode (nesting : Nat) (line : LineState) (c : Char) (rest : List CodePoint) :
    (scanCode nesting line c rest).kind = .whitespace ∨
      (scanCode nesting line c rest).kind.isCode = true := by
  cases hspace : isCodeSpace c with
  | true => exact .inl (by rw [scanCode_of_space hspace]; rfl)
  | false =>
    refine .inr ?_
    by_cases hheader : OpensHeader line c
    · rw [scanCode_of_header hheader]
      rfl
    · cases hword : isCodeWordStart c with
      | true =>
        rw [scanCode_of_word hspace hheader hword]
        have hall : ∀ k ∈ wordKinds, k.isCode = true := by decide
        exact hall _ (kind_scanCodeWord ..)
      | false =>
        have hall : ∀ k ∈ signKinds, k.isCode = true := by decide
        exact hall _ (kind_scanCode_of_sign hspace hheader hword).1

theorem kind_ne_snippetStart (nesting : Nat) (line : LineState) (c : Char)
    (rest : List CodePoint) : (scanCode nesting line c rest).kind ≠ .snippetStart := by
  intro h
  rcases kind_scanCode nesting line c rest with hk | hk <;> rw [h] at hk <;> exact nomatch hk

/-- A closing brace closes the snippet if no other brace is open. -/
theorem scanCode_closing (nesting : Nat) (line : LineState) (rest : List CodePoint) :
    scanCode nesting line '}' rest
      = if nesting = 0 then .plain .snippetEnd 0 else .plain .codePunctuator 0 := by
  have hheader : ¬ (line = .afterInclude ∧ ('}' = '<' ∨ '}' = '"')) := by simp
  have hnumber : opensNumber '}' rest = false := rfl
  rw [scanCode, if_neg (by decide), if_neg hheader, if_neg (by decide), if_neg (by simp [hnumber])]

/-- It takes a brace to close a snippet, and no other brace may be open. -/
theorem scanCode_of_snippetEnd {nesting : Nat} {line : LineState} {c : Char}
    {rest : List CodePoint} (h : (scanCode nesting line c rest).kind = .snippetEnd) :
    c = '}' ∧ nesting = 0 ∧ scanCode nesting line c rest = .plain .snippetEnd 0 := by
  have hc : c = '}' := by
    cases hspace : isCodeSpace c with
    | true => rw [scanCode_of_space hspace] at h; exact nomatch h
    | false =>
      by_cases hheader : OpensHeader line c
      · rw [scanCode_of_header hheader] at h
        exact nomatch h
      · cases hword : isCodeWordStart c with
        | true =>
          rw [scanCode_of_word hspace hheader hword] at h
          exact absurd (h ▸ kind_scanCodeWord line c rest) (by decide)
        | false => exact (kind_scanCode_of_sign hspace hheader hword).2 h
  subst hc
  rw [scanCode_closing] at h ⊢
  split at h
  · rename_i hnesting
    exact ⟨rfl, hnesting, if_pos hnesting⟩
  · exact nomatch h

/-- A header name comes from a place behind an `include`, and from nowhere else. -/
theorem kind_scanCode_eq_codeHeaderName_iff {nesting : Nat} {line : LineState} {c : Char}
    {rest : List CodePoint} :
    (scanCode nesting line c rest).kind = .codeHeaderName ↔ OpensHeader line c := by
  refine ⟨fun h => ?_, fun h => by rw [scanCode_of_header h]; rfl⟩
  by_cases hheader : OpensHeader line c
  · exact hheader
  · exfalso
    cases hspace : isCodeSpace c with
    | true => rw [scanCode_of_space hspace] at h; exact nomatch h
    | false =>
      cases hword : isCodeWordStart c with
      | true =>
        rw [scanCode_of_word hspace hheader hword] at h
        exact absurd (h ▸ kind_scanCodeWord line c rest) (by decide)
      | false => exact absurd (h ▸ (kind_scanCode_of_sign hspace hheader hword).1) (by decide)

/-- A word behind a `#` is a keyword if it is the name of a directive. -/
theorem scanCode_afterPound {nesting : Nat} {c : Char} {rest : List CodePoint}
    (h : (scanCode nesting .afterPound c rest).kind = .codeKeyword ∨
      (scanCode nesting .afterPound c rest).kind = .codeIdentifier) :
    scanCode nesting .afterPound c rest = .plain
      (codeWordKind true (String.ofList
        (c :: (rest.take (runLength isWordPart rest)).map CodePoint.char)))
      (runLength isWordPart rest) := by
  have hheader : ¬ OpensHeader .afterPound c := fun hc => nomatch hc.1
  cases hspace : isCodeSpace c with
  | true => rw [scanCode_of_space hspace] at h; rcases h with h | h <;> exact nomatch h
  | false =>
    cases hword : isCodeWordStart c with
    | true => rw [scanCode_of_word hspace hheader hword, scanCodeWord, if_pos rfl]
    | false =>
      have hsign : (scanCode nesting .afterPound c rest).kind ∈ signKinds :=
        (kind_scanCode_of_sign hspace hheader hword).1
      rcases h with h | h <;> exact absurd (h ▸ hsign) (by decide)

/-! ## Kinds in all modes -/

/-- No lexeme is the end of the file. -/
theorem kind_ne_endOfFile_of_mem {m : Mode} {points : List CodePoint} {l : Lexeme}
    (h : l ∈ lexemes m points) : l.kind ≠ .endOfFile := by
  obtain ⟨m', p, rest, rfl⟩ := exists_firstLexeme_of_mem h
  cases m' with
  | grammar => exact kind_scanGrammar_ne_endOfFile p.char rest
  | snippet nesting line =>
    intro hend
    have hkind : (scanCode nesting line p.char rest).kind = .endOfFile := hend
    rcases kind_scanCode nesting line p.char rest with hk | hk <;> rw [hkind] at hk <;>
      exact nomatch hk

end GrammarPaint
