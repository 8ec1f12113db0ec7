import GrammarPaint.Proofs.Locality

/-!
# What is not closed

A scan finds fault with what is opened and not closed.  What it has found then ends where the text
does, or in front of the line break that it cannot go over, and its kind is one that the fault is
named for (`ends_scan`).

A surrogate that is alone begins nothing that could be closed (`fault_scan_of_isLone`).  So what has
a fault of its own does not begin with one, and the two are never reported at the same place.
-/

set_option autoImplicit false
namespace GrammarPaint

/-! ## Faults -/

/-- The kinds of what can have a fault. -/
def LexicalFault.kinds : LexicalFault → List TokenKind
  | unclosedBlockComment => [.blockComment, .codeBlockComment]
  | unclosedString => [.string]
  | unclosedCharacterClass => [.characterClass]
  | unclosedCodeString => [.codeString]
  | unclosedCodeChar => [.codeChar]
  | unclosedRawString => [.codeRawString]
  | unclosedHeaderName => [.codeHeaderName]
  | unclosedSnippet | loneSurrogate => []

/-- Whether a line break ends what has the fault, as well as the end of the document. -/
def LexicalFault.atBreak : LexicalFault → Bool
  | unclosedString | unclosedCharacterClass | unclosedCodeString | unclosedCodeChar
  | unclosedHeaderName => true
  | _ => false

/-- Whether a text is over or, if a line break counts, goes on with one. -/
def IsOver (atBreak : Bool) (points : List CodePoint) : Prop :=
  points = [] ∨ atBreak = true ∧ ∃ q rest, points = q :: rest ∧ isLineBreak q.char = true

/-- An answer about a text whose fault, if there is one, is right: the kind is one that it is named
for, and the text is over behind what was found. -/
def Scan.Ends (s : Scan) (rest : List CodePoint) : Prop :=
  ∀ fault, s.fault = some fault → s.kind ∈ fault.kinds ∧ IsOver fault.atBreak (rest.drop s.more)

theorem ends_plain {kind : TokenKind} {more : Nat} {rest : List CodePoint} :
    (Scan.plain kind more).Ends rest := nofun

theorem ends_extent {e : Extent} {kind : TokenKind} {fault : LexicalFault}
    {rest : List CodePoint} (hkind : kind ∈ fault.kinds)
    (h : e.closed = false → IsOver fault.atBreak (rest.drop e.size)) :
    (e.scan kind fault).Ends rest := by
  intro found hfound
  cases hclosed : e.closed with
  | true => simp [Extent.scan, hclosed] at hfound
  | false =>
    obtain rfl : fault = found := by simpa [Extent.scan, hclosed] using hfound
    exact ⟨hkind, h hclosed⟩

/-! ## Extents -/

theorem isOver_extentThrough {mark points : List CodePoint}
    (h : (extentThrough mark points).closed = false) :
    IsOver false (points.drop (extentThrough mark points).size) := by
  induction points with
  | nil => exact .inl rfl
  | cons p rest ih =>
    rw [extentThrough] at h ⊢
    split at h
    · cases h
    · rename_i hmark
      rw [if_neg hmark, size_after, Nat.add_comm, List.drop_succ_cons]
      exact ih h

theorem isOver_quotedExtent {close : Char} {escapesBreaks : Bool} {points : List CodePoint}
    (h : (quotedExtent close escapesBreaks points).closed = false) :
    IsOver true (points.drop (quotedExtent close escapesBreaks points).size) := by
  fun_induction quotedExtent close escapesBreaks points with
  | case1 | case4 => exact .inl rfl
  | case2 => cases h
  | case3 p rest _ hbreak => exact .inr ⟨rfl, p, rest, rfl, hbreak⟩
  | case5 p _ _ _ q rest hbreak =>
    rw [Bool.and_eq_true] at hbreak
    exact .inr ⟨rfl, q, rest, rfl, hbreak.1⟩
  | case6 p _ _ _ q rest _ ih =>
    rw [size_after, Nat.add_comm, List.drop_succ_cons, List.drop_succ_cons]
    exact ih h
  | case7 p rest _ _ _ ih =>
    rw [size_after, Nat.add_comm, List.drop_succ_cons]
    exact ih h

/-- A run stops in front of what is not of its class. -/
theorem exists_of_drop_runLength {p : Char → Bool} {points rest : List CodePoint} {q : CodePoint}
    (h : points.drop (runLength p points) = q :: rest) : p q.char = false := by
  induction points with
  | nil => exact nomatch h
  | cons r points ih =>
    rw [runLength_cons] at h
    split at h
    · exact ih h
    · rename_i hr
      obtain ⟨rfl, -⟩ := List.cons.inj h
      exact Bool.eq_false_iff.2 hr

theorem isOver_headerExtent {close : Char} {points : List CodePoint}
    (h : (headerExtent close points).closed = false) :
    IsOver true (points.drop (headerExtent close points).size) := by
  rw [headerExtent] at h ⊢
  split at h
  · exact .inl ‹_›
  · rename_i q rest hdrop
    split at h
    · cases h
    · rename_i hclose
      have hq := exists_of_drop_runLength hdrop
      simp only [Bool.and_eq_false_iff, bne_eq_false_iff_eq, Bool.not_eq_false'] at hq
      rw [if_neg hclose]
      exact .inr ⟨rfl, q, rest, hdrop, hq.resolve_left hclose⟩

/-! ## Scans -/

theorem ends_scanComment? {block line : TokenKind} {rest : List CodePoint} {s : Scan}
    (hblock : block ∈ LexicalFault.unclosedBlockComment.kinds)
    (h : scanComment? block line rest = some s) : s.Ends rest := by
  rw [scanComment?, commentExtent_eq] at h
  split at h
  · obtain rfl := Option.some.inj h
    refine ends_extent hblock fun hopen => ?_
    rw [size_after, ← List.drop_drop, List.drop_one]
    exact isOver_extentThrough hopen
  · split at h
    · obtain rfl := Option.some.inj h
      exact ends_plain
    · cases h

theorem ends_scanGrammar (c : Char) (rest : List CodePoint) : (scanGrammar c rest).Ends rest := by
  unfold scanGrammar
  split
  · exact ends_plain
  · split
    · exact ends_plain
    · split
      · cases h : scanComment? .blockComment .lineComment rest with
        | none => exact ends_plain
        | some s => exact ends_scanComment? (by decide) h
      · exact ends_extent (by decide) isOver_quotedExtent
      · exact ends_extent (by decide) isOver_quotedExtent
      · exact ends_plain
      · split <;> exact ends_plain
      · split <;> exact ends_plain

/-! ## Scans of snippets -/

theorem closed_withSuffix (e : Extent) (body : List CodePoint) :
    (e.withSuffix body).closed = e.closed := by
  rw [Extent.withSuffix]
  split
  · exact Eq.symm ‹_›
  · rfl

/-- What is not closed has no suffix. -/
theorem isOver_withSuffix {e : Extent} {body : List CodePoint} {atBreak : Bool}
    (h : e.closed = false → IsOver atBreak (body.drop e.size))
    (hopen : (e.withSuffix body).closed = false) :
    IsOver atBreak (body.drop (e.withSuffix body).size) := by
  rw [closed_withSuffix] at hopen
  rw [Extent.withSuffix, if_neg (by simp [hopen])]
  exact h hopen

theorem ends_scanLiteral (before : Nat) (quote : Char) (rest : List CodePoint) :
    (scanLiteral before quote (rest.drop before)).Ends rest := by
  have hopen : (((quotedExtent quote true (rest.drop before)).withSuffix
      (rest.drop before)).after before).closed = false → IsOver true (rest.drop
        (((quotedExtent quote true (rest.drop before)).withSuffix
          (rest.drop before)).after before).size) := by
    intro h
    rw [size_after, ← List.drop_drop]
    exact isOver_withSuffix isOver_quotedExtent h
  rw [scanLiteral]
  split <;> exact ends_extent (by decide) hopen

theorem ends_scanRawLiteral (before : Nat) (rest : List CodePoint) :
    (scanRawLiteral before (rest.drop before)).Ends rest := by
  rw [scanRawLiteral]
  generalize ((rest.drop before).takeWhile fun q => isDelimiterPart q.char) = delimiter
  simp only [List.drop_drop, List.tail_drop]
  split
  · refine ends_extent (by decide) fun hopen => ?_
    rw [size_after, ← List.drop_drop]
    exact isOver_withSuffix isOver_extentThrough hopen
  · exact ends_scanLiteral before '"' rest

theorem ends_scanHeaderName (opening : Char) (rest : List CodePoint) :
    (scanHeaderName opening rest).Ends rest :=
  ends_extent (by decide) isOver_headerExtent

theorem ends_scanCodeWord (line : LineState) (c : Char) (rest : List CodePoint) :
    (scanCodeWord line c rest).Ends rest := by
  rw [scanCodeWord]
  simp only [List.tail_drop]
  split
  · exact ends_plain
  · split
    · exact ends_scanLiteral _ _ rest
    · split
      · exact ends_scanLiteral _ _ rest
      · split
        · exact ends_scanRawLiteral _ rest
        · exact ends_plain

theorem ends_scanSubstitution (rest : List CodePoint) : (scanSubstitution rest).Ends rest := by
  unfold scanSubstitution
  split
  · exact ends_plain
  · split <;> exact ends_plain

theorem ends_scanPunctuator (c : Char) (rest : List CodePoint) :
    (scanPunctuator c rest).Ends rest := by
  rw [scanPunctuator_eq]
  split <;> exact ends_plain

theorem ends_scanCode (nesting : Nat) (line : LineState) (c : Char) (rest : List CodePoint) :
    (scanCode nesting line c rest).Ends rest := by
  unfold scanCode
  split
  · exact ends_plain
  · split
    · exact ends_scanHeaderName c rest
    · split
      · exact ends_scanCodeWord line c rest
      · split
        · exact ends_plain
        · split
          · cases h : scanComment? .codeBlockComment .codeLineComment rest with
            | none => exact ends_scanPunctuator '/' rest
            | some s => exact ends_scanComment? (by decide) h
          · exact ends_scanLiteral 0 '\'' rest
          · exact ends_scanLiteral 0 '"' rest
          · exact ends_scanSubstitution rest
          · split <;> exact ends_plain
          · exact ends_scanPunctuator c rest

/-! ## Lexemes -/

/-- **What a scan finds fault with ends where it cannot go on**, and the fault is named for its
kind. -/
theorem ends_scan (m : Mode) (c : Char) (rest : List CodePoint) : (m.scan c rest).Ends rest := by
  cases m with
  | grammar => exact ends_scanGrammar c rest
  | snippet nesting line => exact ends_scanCode nesting line c rest

/-- Nothing is wrong with what begins with a surrogate that is alone. -/
theorem fault_scan_of_isLone (m : Mode) {p : CodePoint} (h : p.isLone = true)
    (rest : List CodePoint) : (m.scan p.char rest).fault = none := by
  cases p with
  | scalar c => exact nomatch h
  | lone u =>
    cases m with
    | grammar => rfl
    | snippet nesting line =>
      have hheader : ¬ (line = .afterInclude ∧ ('\uFFFD' = '<' ∨ '\uFFFD' = '"')) := by simp
      have hscan : scanCode nesting line '\uFFFD' rest = scanPunctuator '\uFFFD' rest := by
        unfold scanCode
        rw [if_neg (by decide), if_neg hheader]
        rfl
      rw [Mode.scan, show (CodePoint.lone u).char = '\uFFFD' from rfl, hscan]
      rfl

end GrammarPaint
