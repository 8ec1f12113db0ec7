import GrammarPaint.Proofs.RawStrings

/-!
# What a token begins with

The first characters of a token settle what it is, together with what came before it.  This file
has the three things that are needed to say so:

* `GrammarForm` and `CodeForm` list what a character can begin in grammar text and in a snippet,
  with the scan that belongs to it;
* `Document.Begins` says what a document reads like from an offset on, whatever stands before it;
* for a token that comes from a scan, what is read from its start on is what the scan was given
  (`Document.Scanned.begins_iff`), and its text is what the scan took of it
  (`Document.Scanned.text_eq`).

`IsLongest` is what several of these scans have in common: out of everything of some class that the
text begins with, they take the longest.
-/

set_option autoImplicit false
namespace GrammarPaint

/-! ## Forms -/

section Forms

variable {nesting : Nat} {line : LineState} {c : Char} {rest : List CodePoint}
  {kinds : List TokenKind} {s : Scan}

/-- The kinds of what is neither spacing nor a word nor a comment in grammar text. -/
def grammarSignKinds : List TokenKind :=
  [.slash, .string, .characterClass, .snippetStart, .colon, .doubleColon, .unknown] ++ operatorKinds

/-- The kinds of words of grammar text. -/
def grammarWordKinds : List TokenKind :=
  [.identifier, .keywordEof, .keywordTypedef, .keywordCode, .keywordNamespace, .keywordTrue,
    .keywordFalse]

theorem kind_scanGrammarWord_mem (c : Char) (rest : List CodePoint) :
    (scanGrammarWord c rest).kind ∈ grammarWordKinds := by
  simp only [scanGrammarWord, Scan.plain]
  unfold grammarWordKind
  split <;> decide

/-- What can begin with `c` in grammar text, and of what kinds it is. -/
inductive GrammarForm (c : Char) (rest : List CodePoint) : List TokenKind → Scan → Prop
  | space : isGrammarSpace c = true →
      GrammarForm c rest [.whitespace] (.plain .whitespace (runLength isGrammarSpace rest))
  | word : c.isAlpha = true → GrammarForm c rest grammarWordKinds (scanGrammarWord c rest)
  | comment {s : Scan} : c = '/' → scanComment? .blockComment .lineComment rest = some s →
      GrammarForm c rest [.blockComment, .lineComment] s
  | sign {s : Scan} : s.kind ∈ grammarSignKinds → GrammarForm c rest grammarSignKinds s

theorem exists_grammarForm (c : Char) (rest : List CodePoint) :
    ∃ kinds, GrammarForm c rest kinds (scanGrammar c rest) := by
  unfold scanGrammar
  split
  · rename_i h
    exact ⟨_, .space h⟩
  · split
    · rename_i h
      exact ⟨_, .word h⟩
    · split
      · cases h : scanComment? .blockComment .lineComment rest with
        | none => exact ⟨_, .sign (by decide)⟩
        | some s => exact ⟨_, .comment rfl h⟩
      · exact ⟨_, .sign (show TokenKind.string ∈ _ by decide)⟩
      · exact ⟨_, .sign (show TokenKind.characterClass ∈ _ by decide)⟩
      · exact ⟨_, .sign (by decide)⟩
      · exact ⟨_, .sign (by split <;> decide)⟩
      · split
        · rename_i k hk
          exact ⟨_, .sign (List.mem_append_right _ (kind_of_operatorKind? hk).1)⟩
        · exact ⟨_, .sign (by decide)⟩

theorem GrammarForm.kind_mem (h : GrammarForm c rest kinds s) : s.kind ∈ kinds := by
  cases h with
  | space => exact List.mem_singleton_self _
  | word => exact kind_scanGrammarWord_mem c rest
  | comment _ hcomment => rcases kind_scanComment? hcomment with h | h <;> simp [h]
  | sign hkind => exact hkind

/-- What can begin with `c` in a snippet, and of what kinds it is.  A closing brace that does not
close the snippet is a punctuator like others. -/
inductive CodeForm (nesting : Nat) (line : LineState) (c : Char) (rest : List CodePoint) :
    List TokenKind → Scan → Prop
  | space : isCodeSpace c = true → CodeForm nesting line c rest [.whitespace]
      (.plain .whitespace (runLength isCodeSpace rest))
  | header : OpensHeader line c →
      CodeForm nesting line c rest [.codeHeaderName] (scanHeaderName c rest)
  | word : isCodeWordStart c = true →
      CodeForm nesting line c rest wordKinds (scanCodeWord line c rest)
  | number : opensNumber c rest = true →
      CodeForm nesting line c rest [.codeNumber] (.plain .codeNumber (numberTail rest))
  | comment {s : Scan} : c = '/' →
      scanComment? .codeBlockComment .codeLineComment rest = some s →
      CodeForm nesting line c rest [.codeBlockComment, .codeLineComment] s
  | literal : c = '\'' ∨ c = '"' →
      CodeForm nesting line c rest [.codeChar, .codeString] (scanLiteral 0 c rest)
  | substitution : c = '$' →
      CodeForm nesting line c rest [.codeUnknown, .codeSubstitution] (scanSubstitution rest)
  | closing : c = '}' → nesting = 0 →
      CodeForm nesting line c rest [.snippetEnd] (.plain .snippetEnd 0)
  | punctuator :
      CodeForm nesting line c rest [.codeUnknown, .codePunctuator] (scanPunctuator c rest)

/-- A closing brace is all of a punctuator. -/
theorem scanPunctuator_closing (rest : List CodePoint) :
    scanPunctuator '}' rest = .plain .codePunctuator 0 := rfl

theorem exists_codeForm (nesting : Nat) (line : LineState) (c : Char) (rest : List CodePoint) :
    ∃ kinds, CodeForm nesting line c rest kinds (scanCode nesting line c rest) := by
  unfold scanCode
  split
  · rename_i h
    exact ⟨_, .space h⟩
  · split
    · rename_i h
      exact ⟨_, .header h⟩
    · split
      · rename_i h
        exact ⟨_, .word h⟩
      · split
        · rename_i h
          exact ⟨_, .number h⟩
        · split
          · cases h : scanComment? .codeBlockComment .codeLineComment rest with
            | none => exact ⟨_, .punctuator⟩
            | some s => exact ⟨_, .comment rfl h⟩
          · exact ⟨_, .literal (.inl rfl)⟩
          · exact ⟨_, .literal (.inr rfl)⟩
          · exact ⟨_, .substitution rfl⟩
          · split
            · rename_i h
              exact ⟨_, .closing rfl h⟩
            · rw [← scanPunctuator_closing rest]
              exact ⟨_, .punctuator⟩
          · exact ⟨_, .punctuator⟩

theorem CodeForm.kind_mem (h : CodeForm nesting line c rest kinds s) : s.kind ∈ kinds := by
  cases h with
  | space => exact List.mem_singleton_self _
  | header => exact List.mem_singleton_self _
  | word => exact kind_scanCodeWord line c rest
  | number => exact List.mem_singleton_self _
  | comment _ hcomment => rcases kind_scanComment? hcomment with h | h <;> simp [h]
  | literal => rcases kind_scanLiteral 0 c rest with h | h <;> simp [h]
  | substitution => rcases kind_scanSubstitution rest with h | h <;> simp [h]
  | closing => exact List.mem_singleton_self _
  | punctuator => rcases kind_scanPunctuator c rest with h | h <;> simp [h]

end Forms

/-! ## Modes -/

/-- Whether the mode is inside a snippet. -/
def Mode.isSnippet : Mode → Bool
  | grammar => false
  | snippet .. => true

/-- Whether a snippet is open can be seen from what came before. -/
theorem Mode.Remembers.insideSnippet_eq {m : Mode} {back : List Sight} (h : m.Remembers back) :
    insideSnippet back = m.isSnippet := by
  cases m with
  | grammar => exact h
  | snippet nesting line => exact h.1

/-! ## Beginnings of code points -/

section Beginnings

variable {c : Char} {w : List Char} {points : List CodePoint}

/-- What the characters of code points begin with, the first code point reads as. -/
theorem exists_of_cons_isPrefix (h : c :: w <+: points.map CodePoint.char) :
    ∃ p rest, points = p :: rest ∧ c = p.char ∧ w <+: rest.map CodePoint.char := by
  cases points with
  | nil => simp at h
  | cons p rest =>
    rw [List.map_cons, List.cons_prefix_cons] at h
    exact ⟨p, rest, rfl, h.1, h.2⟩

/-- A text without U+FFFD is read from its own code points only. -/
theorem map_scalar_isPrefix_iff (hw : '\uFFFD' ∉ w) (points : List CodePoint) :
    w.map .scalar <+: points ↔ w <+: points.map CodePoint.char := by
  induction w generalizing points with
  | nil => simp
  | cons c w ih =>
    rw [List.mem_cons, not_or] at hw
    cases points with
    | nil => simp
    | cons p points =>
      have hhead : CodePoint.scalar c = p ↔ c = p.char :=
        ⟨fun h => h ▸ rfl, fun h => (CodePoint.eq_scalar_of_char h.symm (Ne.symm hw.1)).symm⟩
      rw [List.map_cons, List.map_cons, List.cons_prefix_cons, List.cons_prefix_cons, hhead,
        ih hw.2]

end Beginnings

namespace Document

/-! ## What is read from an offset on -/

/-- The characters of a document from `offset` on. -/
def textFrom (d : Document) (offset : Nat) : List Char := (d.text ⟨offset, d.length⟩).toList

/-- Whether the text of a document begins with `w` at `offset`. -/
def Begins (d : Document) (offset : Nat) (w : List Char) : Prop := w <+: d.textFrom offset

variable {d : Document} {t : Token} {m : Mode} {a b rest : List CodePoint} {p : CodePoint}
  {q : Nat} {w : List Char}

theorem textFrom_eq (h : d.points = a ++ b) :
    d.textFrom (CodePoint.totalWidth a) = b.map CodePoint.char := by
  have hend : d.length = CodePoint.totalWidth a + CodePoint.totalWidth b := by
    rw [← totalWidth_eq_length h, CodePoint.totalWidth_append]
  have htext := text_eq_spell (h.trans (List.append_nil (a ++ b)).symm)
  rw [textFrom, hend, htext, spell, String.toList_ofList]

theorem lt_length_of_begins (h : d.Begins q w) (hw : w ≠ []) : q < d.length := by
  refine Nat.lt_of_not_le fun hle => hw (List.prefix_nil.1 ?_)
  rwa [Begins, textFrom, text, slice_eq_nil hle] at h

/-- The text begins with a mark where the units of the mark stand, inside a pair or not. -/
theorem begins_iff_of_isMark (hmark : CodePoint.IsMark (w.map .scalar)) (hw : '\uFFFD' ∉ w) :
    d.Begins q w ↔ CodePoint.unitsOf (w.map .scalar) <+: d.units.drop q := by
  have hslice : d.slice ⟨q, d.length⟩ = d.units.drop q := by
    rw [slice, length, List.take_length]
  have hunits : CodePoint.unitsOf (CodePoint.decode (d.units.drop q)) = d.units.drop q :=
    CodePoint.flatMap_units_decode _
  have hiff := hmark.isPrefix_iff (CodePoint.isDecoded_decode (d.units.drop q))
  rw [hunits, map_scalar_isPrefix_iff hw] at hiff
  rw [hiff, Begins, textFrom, text, hslice, spell, String.toList_ofList]

/-! ## The token behind a token -/

/-- Each token begins where the one before it stops. -/
theorem start_eq_stop {before after : List Token} {u : Token}
    (h : d.tokens = before ++ t :: u :: after) : u.span.start = t.span.stop := by
  have hchain := d.tiles_tokens.isChain
  rw [h] at hchain
  exact (List.isChain_cons_cons.1 (List.isChain_append.1 hchain).2.1).1.symm

/-- Only behind the end of the file there is no token. -/
theorem exists_next {before after : List Token} (h : d.tokens = before ++ t :: after)
    (hkind : t.kind ≠ .endOfFile) : ∃ u rest, after = u :: rest := by
  cases after with
  | cons u rest => exact ⟨u, rest, rfl⟩
  | nil =>
    have hlast := (List.append_inj' (h.symm.trans d.tokens_eq) rfl).2
    exact absurd (congrArg Token.kind (List.singleton_inj.1 hlast)) hkind

/-- Only braces of snippets change whether a snippet is open. -/
theorem insideSnippet_behind {before : List Token} (hstart : t.kind ≠ .snippetStart)
    (hend : t.kind ≠ .snippetEnd) : insideSnippet ((before ++ [t]).map d.sight).reverse
      = insideSnippet (before.map d.sight).reverse := by
  rw [List.map_append, List.reverse_append]
  exact insideSnippet_cons hstart hend _

/-! ## Tokens that come from a scan -/

/-- A token that covers something comes from a scan. -/
theorem exists_scanned_of_begins {before after : List Token} (h : d.tokens = before ++ t :: after)
    (hbegins : d.Begins t.span.start w) (hw : w ≠ []) :
    ∃ m a p rest, d.Scanned t m a p rest ∧ m.Remembers (before.map d.sight).reverse := by
  have hmem : t ∈ d.tokens := by rw [h]; exact List.mem_append_right _ List.mem_cons_self
  exact exists_scanned h (kind_ne_endOfFile_of_lt hmem (lt_length_of_begins hbegins hw))

/-- Inside a snippet, a token that covers something comes from a snippet. -/
theorem exists_scanned_inside {before after : List Token} (h : d.tokens = before ++ t :: after)
    (hinside : insideSnippet (before.map d.sight).reverse = true)
    (hbegins : d.Begins t.span.start w) (hw : w ≠ []) : ∃ nesting line a p rest,
      d.Scanned t (.snippet nesting line) a p rest ∧
        (Mode.snippet nesting line).Remembers (before.map d.sight).reverse := by
  obtain ⟨m, a, p, rest, hscanned, hremembers⟩ := exists_scanned_of_begins h hbegins hw
  cases m with
  | grammar =>
    rw [hremembers.insideSnippet_eq] at hinside
    exact absurd hinside Bool.false_ne_true
  | snippet nesting line => exact ⟨nesting, line, a, p, rest, hscanned, hremembers⟩

namespace Scanned

theorem textFrom_eq (h : d.Scanned t m a p rest) :
    d.textFrom t.span.start = (p :: rest).map CodePoint.char := by
  rw [h.start_eq, Document.textFrom_eq h.points_eq]

theorem begins_iff (h : d.Scanned t m a p rest) :
    d.Begins t.span.start w ↔ w <+: p.char :: rest.map CodePoint.char := by
  rw [Begins, h.textFrom_eq, List.map_cons]

theorem begins_pair (h : d.Scanned t m a p rest) {c e : Char} (hc : p.char = c)
    (he : beginsWith e rest = true) : d.Begins t.span.start [c, e] := by
  rw [h.begins_iff, List.cons_prefix_cons, ← beginsWith_iff]
  exact ⟨hc.symm, he⟩

/-- The scan takes a part of the document, and leaves the rest. -/
theorem points_eq_append (h : d.Scanned t m a p rest) :
    d.points = a ++ (p :: rest.take (m.scan p.char rest).more)
      ++ rest.drop (m.scan p.char rest).more := by
  rw [h.points_eq, List.append_assoc, List.cons_append, List.take_append_drop]

/-- The text of a token is what the scan took. -/
theorem text_eq (h : d.Scanned t m a p rest) :
    d.text t.span = spell (p :: rest.take (m.scan p.char rest).more) := by
  have hspan : t.span = ⟨CodePoint.totalWidth a, CodePoint.totalWidth a
      + CodePoint.totalWidth (p :: rest.take (m.scan p.char rest).more)⟩ := by
    rw [← CodePoint.totalWidth_append, ← h.start_eq, ← h.stop_eq]
  rw [hspan, text_eq_spell h.points_eq_append]

theorem toList_text (h : d.Scanned t m a p rest) :
    (d.text t.span).toList
      = p.char :: (rest.take (m.scan p.char rest).more).map CodePoint.char := by
  rw [h.text_eq, spell, String.toList_ofList, List.map_cons]

end Scanned

end Document
end GrammarPaint
