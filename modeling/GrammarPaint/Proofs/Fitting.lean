import GrammarPaint.Lexeme.Placement
import GrammarPaint.Proofs.Modes

/-!
# Scans stay within the text

A scan answers how many further code points belong to what it has found.  `firstLexeme` would cut
an answer that is too large, but it never has to: **no scan asks for more than there is**
(`fits_scan`), so a lexeme is exactly as long as its scan says (`length_points_firstLexeme`).

The same walk over the scans settles what they can find wrong (`scanFaults`): something that was
opened and is not closed.  That a snippet is not closed, or that a surrogate is alone, is seen when
lexemes are placed, and no scan says so.
-/

set_option autoImplicit false
namespace GrammarPaint

/-- What can be wrong with what a scan finds. -/
def scanFaults : List LexicalFault :=
  [.unclosedBlockComment, .unclosedString, .unclosedCharacterClass, .unclosedCodeString,
    .unclosedCodeChar, .unclosedRawString, .unclosedHeaderName]

/-- An answer about a text of `n` further code points that stays within the text. -/
structure Scan.Fits (s : Scan) (n : Nat) : Prop where
  more_le : s.more ≤ n
  fault_mem : ∀ fault, s.fault = some fault → fault ∈ scanFaults

theorem fits_plain {kind : TokenKind} {more n : Nat} (h : more ≤ n) :
    (Scan.plain kind more).Fits n := ⟨h, nofun⟩

theorem fits_extent {e : Extent} {kind : TokenKind} {fault : LexicalFault} {n : Nat}
    (hsize : e.size ≤ n) (hfault : fault ∈ scanFaults) : (e.scan kind fault).Fits n := by
  refine ⟨hsize, fun found h => ?_⟩
  simp only [Extent.scan] at h
  split at h
  · exact nomatch h
  · exact Option.some.inj h ▸ hfault

theorem length_tail_of_beginsWith {c : Char} {rest : List CodePoint} (h : beginsWith c rest = true) :
    rest.tail.length + 1 = rest.length := by
  cases rest with
  | nil => exact nomatch h
  | cons p rest => rfl

/-! ## Grammar text -/

theorem fits_scanComment? {block line : TokenKind} {rest : List CodePoint} {s : Scan}
    (h : scanComment? block line rest = some s) : s.Fits rest.length := by
  rw [scanComment?, commentExtent_eq] at h
  split at h
  · rename_i hopens
    obtain rfl := Option.some.inj h
    have hlen := length_tail_of_beginsWith hopens
    have hsize := size_extentThrough_le commentClose rest.tail
    exact fits_extent (by simp only [Extent.after]; omega) (by decide)
  · split at h
    · rename_i hopens
      obtain rfl := Option.some.inj h
      have hlen := length_tail_of_beginsWith hopens
      have hrun := runLength_le (fun c => !isLineBreak c) rest.tail
      exact fits_plain (by omega)
    · cases h

theorem fits_scanGrammar (c : Char) (rest : List CodePoint) :
    (scanGrammar c rest).Fits rest.length := by
  unfold scanGrammar
  split
  · exact fits_plain (runLength_le _ _)
  · split
    · exact fits_plain (runLength_le _ _)
    · split
      · cases h : scanComment? .blockComment .lineComment rest with
        | none => exact fits_plain (Nat.zero_le _)
        | some s => exact fits_scanComment? h
      · exact fits_extent (size_quotedExtent_le _ _ _) (by decide)
      · exact fits_extent (size_quotedExtent_le _ _ _) (by decide)
      · exact fits_plain (Nat.zero_le _)
      · split
        · rename_i hopens
          have hlen := length_tail_of_beginsWith hopens
          exact fits_plain (by omega)
        · exact fits_plain (Nat.zero_le _)
      · split <;> exact fits_plain (Nat.zero_le _)

/-! ## Literals of snippets -/

theorem suffixLength_le (rest : List CodePoint) : suffixLength rest ≤ rest.length := by
  unfold suffixLength
  split
  · exact Nat.zero_le _
  · split
    · exact runLength_le _ _
    · exact Nat.zero_le _

theorem size_withSuffix_le {e : Extent} {body : List CodePoint} (h : e.size ≤ body.length) :
    (e.withSuffix body).size ≤ body.length := by
  rw [Extent.withSuffix]
  split
  · have hsuffix := suffixLength_le (body.drop e.size)
    rw [List.length_drop] at hsuffix
    simp only
    omega
  · exact h

theorem fits_scanLiteral (before : Nat) (quote : Char) (body : List CodePoint) :
    (scanLiteral before quote body).Fits (before + body.length) := by
  have hsize := size_withSuffix_le (size_quotedExtent_le quote true body)
  rw [scanLiteral]
  split <;> exact fits_extent (Nat.add_le_add_left hsize before) (by decide)

theorem fits_scanRawLiteral (before : Nat) (body : List CodePoint) :
    (scanRawLiteral before body).Fits (before + body.length) := by
  rw [scanRawLiteral]
  have hdelimiter := runLength_le isDelimiterPart body
  rw [runLength] at hdelimiter
  generalize (body.takeWhile fun q => isDelimiterPart q.char) = delimiter at hdelimiter ⊢
  simp only
  split
  · rename_i hopens
    have hlen := length_tail_of_beginsWith hopens
    rw [List.length_drop] at hlen
    have hsize := size_withSuffix_le (size_extentThrough_le
      (.scalar ')' :: delimiter ++ [.scalar '"']) (body.drop delimiter.length).tail)
    exact fits_extent (by simp only [Extent.after]; omega) (by decide)
  · exact fits_scanLiteral ..

theorem fits_scanHeaderName (opening : Char) (rest : List CodePoint) :
    (scanHeaderName opening rest).Fits rest.length :=
  fits_extent (size_headerExtent_le _ _) (by decide)

/-! ## Words and signs of snippets -/

theorem fits_scanCodeWord (line : LineState) (c : Char) (rest : List CodePoint) :
    (scanCodeWord line c rest).Fits rest.length := by
  have hrun := runLength_le isWordPart rest
  -- a literal behind the word has the word and a quote before its body
  have hquote : ∀ {quote : Char}, beginsWith quote (rest.drop (runLength isWordPart rest)) = true →
      runLength isWordPart rest + 1 + (rest.drop (runLength isWordPart rest)).tail.length
        = rest.length := by
    intro quote hopens
    have hlen := length_tail_of_beginsWith hopens
    rw [List.length_drop] at hlen
    omega
  rw [scanCodeWord]
  simp only [Bool.and_eq_true]
  split
  · exact fits_plain hrun
  · split
    · rename_i h
      exact hquote h.1 ▸ fits_scanLiteral ..
    · split
      · rename_i h
        exact hquote h.1 ▸ fits_scanLiteral ..
      · split
        · rename_i h
          exact hquote h.1 ▸ fits_scanRawLiteral ..
        · exact fits_plain hrun

theorem fits_scanSubstitution (rest : List CodePoint) :
    (scanSubstitution rest).Fits rest.length := by
  unfold scanSubstitution
  split
  · exact fits_plain (Nat.zero_le _)
  · split
    · exact fits_plain (by simp)
    · exact fits_plain (Nat.zero_le _)

theorem punctuatorLength_le (text : List Char) : punctuatorLength text ≤ text.length := by
  rw [punctuatorLength]
  split
  · rename_i h
    obtain ⟨after, rfl, -⟩ := opensGlobalName_iff.1 h
    simp
  · rw [List.foldl_max, Nat.zero_max]
    cases hmax : ((punctuators.filter (·.isPrefixOf text)).map List.length).max? with
    | none => exact Nat.zero_le _
    | some n =>
      obtain ⟨mark, hmark, rfl⟩ := List.mem_map.1 (List.max?_eq_some_iff.1 hmax).1
      exact (List.isPrefixOf_iff_prefix.1 (List.mem_filter.1 hmark).2).length_le

theorem fits_scanPunctuator (c : Char) (rest : List CodePoint) :
    (scanPunctuator c rest).Fits rest.length := by
  have hle := punctuatorLength_le (c :: (rest.take longestPunctuator).map CodePoint.char)
  rw [List.length_cons, List.length_map, List.length_take] at hle
  rw [scanPunctuator_eq]
  split
  · exact fits_plain (Nat.zero_le _)
  · rename_i more h
    exact fits_plain (by omega)

theorem fits_scanCode (nesting : Nat) (line : LineState) (c : Char) (rest : List CodePoint) :
    (scanCode nesting line c rest).Fits rest.length := by
  unfold scanCode
  split
  · exact fits_plain (runLength_le _ _)
  · split
    · exact fits_scanHeaderName c rest
    · split
      · exact fits_scanCodeWord line c rest
      · split
        · exact fits_plain (numberTail_le rest)
        · split
          · cases h : scanComment? .codeBlockComment .codeLineComment rest with
            | none => exact fits_scanPunctuator '/' rest
            | some s => exact fits_scanComment? h
          · exact Nat.zero_add rest.length ▸ fits_scanLiteral 0 '\'' rest
          · exact Nat.zero_add rest.length ▸ fits_scanLiteral 0 '"' rest
          · exact fits_scanSubstitution rest
          · split <;> exact fits_plain (Nat.zero_le _)
          · exact fits_scanPunctuator c rest

/-! ## Lexemes -/

/-- **No scan asks for more than there is**, and what it finds wrong is of its own kind. -/
theorem fits_scan (m : Mode) (c : Char) (rest : List CodePoint) :
    (m.scan c rest).Fits rest.length := by
  cases m with
  | grammar => exact fits_scanGrammar c rest
  | snippet nesting line => exact fits_scanCode nesting line c rest

/-- A lexeme is as long as its scan says. -/
theorem length_points_firstLexeme (m : Mode) (p : CodePoint) (rest : List CodePoint) :
    (firstLexeme m p rest).points.length = (m.scan p.char rest).more + 1 := by
  have hle := (fits_scan m p.char rest).more_le
  rw [firstLexeme, List.length_cons, List.length_take, Nat.min_eq_left hle]

/-- Whether what is wrong with a lexeme, if anything is, is what a scan can find. -/
def Lexeme.FaultFromScan (l : Lexeme) : Prop := ∀ fault, l.fault = some fault → fault ∈ scanFaults

/-- What is wrong with a lexeme by itself is that something in it is not closed. -/
theorem faultFromScan_of_mem {m : Mode} {points : List CodePoint} :
    ∀ l ∈ lexemes m points, l.FaultFromScan := by
  intro l h
  obtain ⟨m', p, rest, rfl⟩ := exists_firstLexeme_of_mem h
  exact (fits_scan m' p.char rest).fault_mem

/-- Of what is not a fault of its own, a lexeme has only that it is not closed and the surrogates
that are alone in it. -/
theorem filter_issues {l : Lexeme} (h : l.FaultFromScan) {fault : LexicalFault}
    (hfault : fault ∉ scanFaults) (start : Nat) (following : List Lexeme) :
    (l.issues start following).filter (·.fault == fault)
      = ((if l.isUnclosed following then [LexicalIssue.mk .unclosedSnippet
              ⟨start, start + l.width + Lexeme.totalWidth following⟩] else [])
          ++ (Document.loneSpans start l.points).map (LexicalIssue.mk .loneSurrogate)).filter
            (·.fault == fault) := by
  rw [Lexeme.issues, List.append_assoc, List.filter_append]
  cases hown : l.fault with
  | none => rfl
  | some own =>
    have hne : own ≠ fault := fun heq => hfault (heq ▸ h own hown)
    rw [List.filter_cons_of_neg (by simpa using hne)]
    rfl

end GrammarPaint
