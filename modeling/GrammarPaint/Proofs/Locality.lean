import GrammarPaint.Proofs.Fitting

/-!
# How far ahead a scan looks

A scan looks at all that is left of a document, but what it finds depends on little of it: on what
belongs to the lexeme, on one code point behind that, and, where a punctuator begins, on three
code points.  So the text `w ++ s` may be given another end `s'` without changing the lexeme that
begins it, if the lexeme ends inside `w`.

This is seen measure by measure, then scan by scan (`scanGrammar_append`, `scanCode_append`), and
then for a whole lexeme (`firstLexeme_append`).  Where a code point that ends all punctuators stands
between two texts, the lexemes of the first do not depend on the second (`lexemes_append`).
-/

set_option autoImplicit false
namespace GrammarPaint

variable {w s : List CodePoint}

/-! ## Measures -/

theorem runLength_cons (p : Char → Bool) (q : CodePoint) (points : List CodePoint) :
    runLength p (q :: points) = if p q.char then runLength p points + 1 else 0 := by
  rw [runLength, List.takeWhile_cons]
  split <;> rfl

theorem takeWhile_append {p : Char → Bool} (h : runLength p (w ++ s) < w.length)
    (s' : List CodePoint) :
    (w ++ s').takeWhile (fun q => p q.char) = (w ++ s).takeWhile (fun q => p q.char) := by
  induction w with
  | nil => exact absurd h (Nat.not_lt_zero _)
  | cons q w ih =>
    rw [List.cons_append, runLength_cons] at h
    rw [List.cons_append, List.cons_append, List.takeWhile_cons, List.takeWhile_cons]
    split
    · rename_i hq
      rw [if_pos hq, List.length_cons, Nat.add_lt_add_iff_right] at h
      rw [ih h]
    · rfl

theorem runLength_append {p : Char → Bool} (h : runLength p (w ++ s) < w.length)
    (s' : List CodePoint) : runLength p (w ++ s') = runLength p (w ++ s) := by
  rw [runLength, takeWhile_append h s', runLength]

theorem all_of_le_runLength {p : Char → Bool} (h : w.length ≤ runLength p (w ++ s)) :
    ∀ q ∈ w, p q.char = true := by
  induction w with
  | nil => nofun
  | cons q w ih =>
    rw [List.cons_append, runLength_cons] at h
    split at h
    · rename_i hq
      exact List.forall_mem_cons.2 ⟨hq, ih (Nat.le_of_succ_le_succ h)⟩
    · exact absurd h (Nat.not_succ_le_zero _)

/-- An extent that is closed holds the mark, and one that is not reaches the end. -/
theorem extentThrough_spec (mark points : List CodePoint) :
    mark.length ≤ (extentThrough mark points).size ∨
      (extentThrough mark points).size = points.length := by
  induction points with
  | nil => exact .inr rfl
  | cons q points ih =>
    rw [extentThrough]
    split
    · exact .inl (Nat.le_refl _)
    · simp only [Extent.after, List.length_cons]
      omega

theorem isPrefixOf_append {mark : List CodePoint} (h : mark.length ≤ w.length)
    (s : List CodePoint) : mark.isPrefixOf (w ++ s) = mark.isPrefixOf w := by
  rw [Bool.eq_iff_iff, List.isPrefixOf_iff_prefix, List.isPrefixOf_iff_prefix]
  constructor
  · intro hs
    exact List.prefix_of_prefix_length_le hs (List.prefix_append w s) h
  · intro hw
    exact hw.trans (List.prefix_append w s)

theorem extentThrough_append {mark : List CodePoint}
    (h : (extentThrough mark (w ++ s)).size < w.length) (s' : List CodePoint) :
    extentThrough mark (w ++ s') = extentThrough mark (w ++ s) := by
  induction w with
  | nil => exact absurd h (Nat.not_lt_zero _)
  | cons q w ih =>
    have hspec := extentThrough_spec mark (w ++ s)
    have hlen : (w ++ s).length = w.length + s.length := List.length_append
    rw [List.cons_append, extentThrough] at h ⊢
    rw [List.cons_append, extentThrough]
    have hmark : mark.length ≤ (q :: w).length := by
      split at h <;> simp only [Extent.after, List.length_cons] at h ⊢ <;> omega
    rw [← List.cons_append, ← List.cons_append] at *
    rw [isPrefixOf_append hmark] at h
    rw [isPrefixOf_append hmark, isPrefixOf_append hmark]
    split
    · rfl
    · rename_i hp
      rw [if_neg hp] at h
      rw [ih (by simp only [Extent.after, List.length_cons] at h; omega)]

theorem quotedExtent_cons (close : Char) (escapesBreaks : Bool) (q : CodePoint)
    (points : List CodePoint) :
    quotedExtent close escapesBreaks (q :: points)
      = if q.char = close then ⟨1, true⟩
        else if isLineBreak q.char then ⟨0, false⟩
        else if q.char = '\\' then
          match points with
          | [] => ⟨1, false⟩
          | r :: points =>
            if isLineBreak r.char && !escapesBreaks then ⟨1, false⟩
            else (quotedExtent close escapesBreaks points).after 2
        else (quotedExtent close escapesBreaks points).after 1 :=
  quotedExtent.eq_def close escapesBreaks (q :: points)

theorem quotedExtent_append {close : Char} {escapesBreaks : Bool}
    (h : (quotedExtent close escapesBreaks (w ++ s)).size < w.length) (s' : List CodePoint) :
    quotedExtent close escapesBreaks (w ++ s') = quotedExtent close escapesBreaks (w ++ s) := by
  induction hlen : w.length using Nat.strongRecOn generalizing w with
  | ind n ih =>
  subst hlen
  cases w with
  | nil => exact absurd h (Nat.not_lt_zero _)
  | cons q w =>
    rw [List.cons_append, quotedExtent_cons] at h ⊢
    rw [List.cons_append, quotedExtent_cons]
    by_cases hclose : q.char = close
    · rw [if_pos hclose, if_pos hclose]
    · by_cases hbreak : isLineBreak q.char = true
      · rw [if_neg hclose, if_neg hclose, if_pos hbreak, if_pos hbreak]
      · rw [if_neg hclose, if_neg hbreak] at h
        rw [if_neg hclose, if_neg hclose, if_neg hbreak, if_neg hbreak]
        by_cases hescape : q.char = '\\'
        · rw [if_pos hescape] at h
          rw [if_pos hescape, if_pos hescape]
          cases w with
          | nil =>
            -- the escaped code point is not in `w`, and the extent ends behind it
            exfalso
            rw [List.nil_append] at h
            split at h
            · exact absurd h (Nat.lt_irrefl 1)
            · split at h <;> simp [Extent.after] at h
          | cons r w =>
            simp only [List.cons_append] at h ⊢
            split
            · rfl
            · rename_i hr
              rw [if_neg hr] at h
              simp only [Extent.after, List.length_cons] at h
              rw [ih w.length (by simp only [List.length_cons]; omega) (by omega) rfl]
        · rw [if_neg hescape] at h
          simp only [Extent.after, List.length_cons] at h
          rw [if_neg hescape, if_neg hescape,
            ih w.length (by simp only [List.length_cons]; omega) (by omega) rfl]

theorem headerExtent_append {close : Char} (h : (headerExtent close (w ++ s)).size < w.length)
    (s' : List CodePoint) : headerExtent close (w ++ s') = headerExtent close (w ++ s) := by
  have hrun : runLength (fun c => c != close && !isLineBreak c) (w ++ s) < w.length := by
    rw [headerExtent] at h
    split at h
    · exact h
    · split at h
      · exact Nat.lt_of_succ_lt h
      · exact h
  rw [headerExtent, headerExtent, runLength_append hrun s']
  generalize runLength (fun c => c != close && !isLineBreak c) (w ++ s) = size at hrun
  rw [List.drop_append_of_le_length (Nat.le_of_lt hrun),
    List.drop_append_of_le_length (Nat.le_of_lt hrun), List.drop_eq_getElem_cons hrun]
  rfl

theorem numberTail_cons (q : CodePoint) (points : List CodePoint) :
    numberTail (q :: points)
      = if q.char == 'e' || q.char == 'E' then
          match points with
          | [] => 1
          | r :: more =>
            if r.char == '+' || r.char == '-' then numberTail more + 2
            else numberTail (r :: more) + 1
        else if q.char == '.' || isWordPart q.char then numberTail points + 1
        else 0 :=
  numberTail.eq_def (q :: points)

theorem numberTail_append (h : numberTail (w ++ s) < w.length) (s' : List CodePoint) :
    numberTail (w ++ s') = numberTail (w ++ s) := by
  induction hlen : w.length using Nat.strongRecOn generalizing w with
  | ind n ih =>
  subst hlen
  cases w with
  | nil => exact absurd h (Nat.not_lt_zero _)
  | cons q w =>
    rw [List.cons_append, numberTail_cons] at h ⊢
    rw [List.cons_append, numberTail_cons]
    by_cases he : (q.char == 'e' || q.char == 'E') = true
    · rw [if_pos he] at h
      rw [if_pos he, if_pos he]
      cases w with
      | nil =>
        -- what is behind the `e` is not in `w`, and the `e` is part of the number
        exfalso
        rw [List.nil_append] at h
        split at h
        · exact absurd h (Nat.lt_irrefl 1)
        · split at h <;> simp at h
      | cons r w =>
        simp only [List.cons_append] at h ⊢
        by_cases hsign : (r.char == '+' || r.char == '-') = true
        · rw [if_pos hsign] at h
          simp only [List.length_cons] at h
          rw [if_pos hsign, if_pos hsign,
            ih w.length (by simp only [List.length_cons]; omega) (by omega) rfl]
        · rw [if_neg hsign] at h
          simp only [List.length_cons] at h
          rw [if_neg hsign, if_neg hsign, ← List.cons_append, ← List.cons_append,
            ih (r :: w).length (by simp only [List.length_cons]; omega)
              (by simp only [List.cons_append, List.length_cons]; omega) rfl]
    · rw [if_neg he] at h
      rw [if_neg he, if_neg he]
      split
      · rename_i hpart
        rw [if_pos hpart, List.length_cons] at h
        rw [ih w.length (by simp only [List.length_cons]; omega) (by omega) rfl]
      · rfl

/-! ## Scans -/

theorem more_scan (e : Extent) (kind : TokenKind) (fault : LexicalFault) :
    (e.scan kind fault).more = e.size := rfl

theorem size_after (n : Nat) (e : Extent) : (e.after n).size = n + e.size := rfl

theorem ne_nil_of_lt {n : Nat} (h : n < w.length) : w ≠ [] := by
  rintro rfl
  exact Nat.not_lt_zero _ h

theorem beginsWith_append {c : Char} (h : w ≠ []) (s s' : List CodePoint) :
    beginsWith c (w ++ s') = beginsWith c (w ++ s) := by
  cases w with
  | nil => exact absurd rfl h
  | cons q w => rfl

theorem scanComment?_append {block line : TokenKind} (hw : w ≠ [])
    (h : ∀ found, scanComment? block line (w ++ s) = some found → found.more < w.length)
    (s' : List CodePoint) :
    scanComment? block line (w ++ s') = scanComment? block line (w ++ s) := by
  cases w with
  | nil => exact absurd rfl hw
  | cons q w =>
    rw [scanComment?, commentExtent_eq] at h
    rw [scanComment?, scanComment?, commentExtent_eq, commentExtent_eq, beginsWith_append hw s s',
      beginsWith_append hw s s']
    split
    · rename_i hblock
      rw [if_pos hblock] at h
      have hmore := h _ rfl
      rw [more_scan, size_after, Nat.add_comm, List.length_cons, Nat.add_lt_add_iff_right] at hmore
      rw [List.cons_append, List.tail_cons, List.cons_append, List.tail_cons,
        extentThrough_append hmore s']
    · rename_i hblock
      rw [if_neg hblock] at h
      split
      · rename_i hline
        rw [if_pos hline] at h
        have hmore : 1 + _ < _ := h _ rfl
        rw [Nat.add_comm, List.length_cons, Nat.add_lt_add_iff_right] at hmore
        rw [List.cons_append, List.tail_cons, List.cons_append, List.tail_cons,
          runLength_append hmore s']
      · rfl

theorem scanGrammarWord_append {c : Char} (h : (scanGrammarWord c (w ++ s)).more < w.length)
    (s' : List CodePoint) : scanGrammarWord c (w ++ s') = scanGrammarWord c (w ++ s) := by
  have hrun : runLength isWordPart (w ++ s) < w.length := h
  rw [scanGrammarWord, scanGrammarWord, runLength_append hrun s',
    List.take_append_of_le_length (Nat.le_of_lt hrun),
    List.take_append_of_le_length (Nat.le_of_lt hrun)]

/-- **A lexeme of grammar text is settled by its text and one code point behind it.** -/
theorem scanGrammar_append {c : Char} (h : (scanGrammar c (w ++ s)).more < w.length)
    (s' : List CodePoint) : scanGrammar c (w ++ s') = scanGrammar c (w ++ s) := by
  have hw := ne_nil_of_lt h
  unfold scanGrammar at h ⊢
  by_cases hspace : isGrammarSpace c = true
  · rw [if_pos hspace] at h
    rw [if_pos hspace, if_pos hspace, runLength_append h s']
  · rw [if_neg hspace] at h
    rw [if_neg hspace, if_neg hspace]
    by_cases halpha : c.isAlpha = true
    · rw [if_pos halpha] at h
      rw [if_pos halpha, if_pos halpha, scanGrammarWord_append h s']
    · rw [if_neg halpha] at h
      rw [if_neg halpha, if_neg halpha]
      split at h
      · rw [scanComment?_append hw (fun found hfound => by rwa [hfound] at h) s']
      · rw [quotedExtent_append h s']
      · rw [quotedExtent_append h s']
      · rfl
      · simp only [beginsWith_append hw s s']
      · rfl

/-! ## Scans of snippets -/

theorem suffixLength_append (h : suffixLength (w ++ s) < w.length) (s' : List CodePoint) :
    suffixLength (w ++ s') = suffixLength (w ++ s) := by
  cases w with
  | nil => exact absurd h (Nat.not_lt_zero _)
  | cons q w =>
    simp only [suffixLength, List.cons_append] at h ⊢
    split
    · rename_i hq
      rw [if_pos hq, ← List.cons_append] at h
      rw [← List.cons_append, ← List.cons_append, runLength_append h s']
    · rfl

theorem size_le_withSuffix (e : Extent) (body : List CodePoint) :
    e.size ≤ (e.withSuffix body).size := by
  rw [Extent.withSuffix]
  split
  · exact Nat.le_add_right _ _
  · exact Nat.le_refl _

theorem withSuffix_append {e : Extent} (h : (e.withSuffix (w ++ s)).size < w.length)
    (s' : List CodePoint) : e.withSuffix (w ++ s') = e.withSuffix (w ++ s) := by
  have hsize : e.size ≤ w.length :=
    Nat.le_trans (size_le_withSuffix e (w ++ s)) (Nat.le_of_lt h)
  rw [Extent.withSuffix] at h ⊢
  rw [Extent.withSuffix]
  split
  · rename_i hclosed
    rw [if_pos hclosed, List.drop_append_of_le_length hsize] at h
    have hsuffix : suffixLength (w.drop e.size ++ s) < (w.drop e.size).length := by
      rw [List.length_drop]
      exact Nat.lt_sub_of_add_lt (by rwa [Nat.add_comm])
    rw [List.drop_append_of_le_length hsize, List.drop_append_of_le_length hsize,
      suffixLength_append hsuffix s']
  · rfl

theorem scanLiteral_append {before : Nat} {quote : Char}
    (h : (scanLiteral before quote (w ++ s)).more < before + w.length) (s' : List CodePoint) :
    scanLiteral before quote (w ++ s') = scanLiteral before quote (w ++ s) := by
  have hmore : (scanLiteral before quote (w ++ s)).more
      = before + ((quotedExtent quote true (w ++ s)).withSuffix (w ++ s)).size := by
    rw [scanLiteral]
    split <;> rfl
  rw [hmore, Nat.add_lt_add_iff_left] at h
  have hquoted : (quotedExtent quote true (w ++ s)).size < w.length :=
    Nat.lt_of_le_of_lt (size_le_withSuffix _ _) h
  rw [scanLiteral, scanLiteral, quotedExtent_append hquoted s', withSuffix_append h s']

theorem le_more_scanLiteral (before : Nat) (quote : Char) (body : List CodePoint) :
    before + (quotedExtent quote true body).size ≤ (scanLiteral before quote body).more := by
  rw [scanLiteral]
  split <;> exact Nat.add_le_add_left (size_le_withSuffix _ _) before

/-- What can stand in a delimiter does not end an ordinary string. -/
theorem length_le_quotedExtent (hw : ∀ q ∈ w, isDelimiterPart q.char = true)
    (s : List CodePoint) : w.length ≤ (quotedExtent '"' true (w ++ s)).size := by
  induction w with
  | nil => exact Nat.zero_le _
  | cons q w ih =>
    have hq := hw q List.mem_cons_self
    have hle := ih fun r hr => hw r (List.mem_cons_of_mem _ hr)
    simp only [isDelimiterPart, Bool.not_eq_true', Bool.or_eq_false_iff, beq_eq_false_iff_ne] at hq
    rw [List.cons_append, quotedExtent_cons, if_neg (by simp [hq]), if_neg (by simp [hq]),
      if_neg (by simp [hq])]
    simp only [Extent.after, List.length_cons]
    omega

/-- A delimiter that does not end in `w` takes the literal out of `w`, raw or not. -/
theorem runLength_delimiter_lt {before : Nat}
    (h : (scanRawLiteral before (w ++ s)).more < before + w.length) :
    runLength isDelimiterPart (w ++ s) < w.length := by
  rcases Nat.lt_or_ge (runLength isDelimiterPart (w ++ s)) w.length with hlt | hge
  · exact hlt
  · exfalso
    rw [scanRawLiteral] at h
    split at h
    · rw [more_scan, size_after, ← runLength] at h
      omega
    · have hquoted := length_le_quotedExtent (all_of_le_runLength hge) s
      have hmore := le_more_scanLiteral before '"' (w ++ s)
      omega

theorem scanRawLiteral_append {before : Nat}
    (h : (scanRawLiteral before (w ++ s)).more < before + w.length) (s' : List CodePoint) :
    scanRawLiteral before (w ++ s') = scanRawLiteral before (w ++ s) := by
  have hrun := runLength_delimiter_lt h
  rw [scanRawLiteral] at h ⊢
  rw [scanRawLiteral]
  rw [takeWhile_append hrun s']
  rw [runLength] at hrun
  generalize ((w ++ s).takeWhile fun q => isDelimiterPart q.char) = delimiter at h hrun ⊢
  have hle := Nat.le_of_lt hrun
  have hlen : (w.drop (delimiter.length + 1)).length = w.length - (delimiter.length + 1) :=
    List.length_drop
  simp only [List.drop_append_of_le_length hle, List.drop_eq_getElem_cons hrun,
    List.cons_append, List.tail_cons, beginsWith] at h ⊢
  split
  · rename_i hopen
    rw [if_pos hopen, more_scan, size_after] at h
    have hsuffix : ((extentThrough (.scalar ')' :: (delimiter ++ [.scalar '"']))
        (w.drop (delimiter.length + 1) ++ s)).withSuffix
          (w.drop (delimiter.length + 1) ++ s)).size
        < (w.drop (delimiter.length + 1)).length := by omega
    have hclose := Nat.lt_of_le_of_lt (size_le_withSuffix _ _) hsuffix
    rw [extentThrough_append hclose s', withSuffix_append hsuffix s']
  · rename_i hopen
    rw [if_neg hopen] at h
    exact scanLiteral_append h s'

theorem scanHeaderName_append {opening : Char}
    (h : (scanHeaderName opening (w ++ s)).more < w.length) (s' : List CodePoint) :
    scanHeaderName opening (w ++ s') = scanHeaderName opening (w ++ s) := by
  rw [scanHeaderName, scanHeaderName, headerExtent_append h s']

theorem le_more_scanRawLiteral (before : Nat) (body : List CodePoint) :
    before ≤ (scanRawLiteral before body).more := by
  rw [scanRawLiteral]
  split
  · rw [more_scan, size_after]
    omega
  · exact Nat.le_trans (Nat.le_add_right _ _) (le_more_scanLiteral ..)

theorem runLength_le_more_scanCodeWord (line : LineState) (c : Char) (rest : List CodePoint) :
    runLength isWordPart rest ≤ (scanCodeWord line c rest).more := by
  have hliteral : ∀ quote body, runLength isWordPart rest
      ≤ (scanLiteral (runLength isWordPart rest + 1) quote body).more := fun quote body =>
    Nat.le_trans (by omega) (le_more_scanLiteral _ quote body)
  rw [scanCodeWord]
  split
  · exact Nat.le_refl _
  · split
    · exact hliteral ..
    · split
      · exact hliteral ..
      · split
        · exact Nat.le_trans (Nat.le_succ _) (le_more_scanRawLiteral ..)
        · exact Nat.le_refl _

theorem scanCodeWord_append {line : LineState} {c : Char}
    (h : (scanCodeWord line c (w ++ s)).more < w.length) (s' : List CodePoint) :
    scanCodeWord line c (w ++ s') = scanCodeWord line c (w ++ s) := by
  have hrun := Nat.lt_of_le_of_lt (runLength_le_more_scanCodeWord line c (w ++ s)) h
  rw [scanCodeWord] at h ⊢
  rw [scanCodeWord, runLength_append hrun s']
  generalize runLength isWordPart (w ++ s) = more at h hrun ⊢
  have hle := Nat.le_of_lt hrun
  have hlen : (w.drop (more + 1)).length = w.length - (more + 1) := List.length_drop
  simp only [List.drop_append_of_le_length hle, List.take_append_of_le_length hle,
    List.drop_eq_getElem_cons hrun, List.cons_append, List.tail_cons, beginsWith] at h ⊢
  split
  · rfl
  · rename_i hline
    rw [if_neg hline] at h
    split
    · rename_i hquote
      rw [if_pos hquote] at h
      exact scanLiteral_append (by omega) s'
    · rename_i hquote
      rw [if_neg hquote] at h
      split
      · rename_i hquotes
        rw [if_pos hquotes] at h
        exact scanLiteral_append (by omega) s'
      · rename_i hquotes
        rw [if_neg hquotes] at h
        split
        · rename_i hraw
          rw [if_pos hraw] at h
          exact scanRawLiteral_append (by omega) s'
        · rfl

theorem scanSubstitution_append (hw : w ≠ []) (s s' : List CodePoint) :
    scanSubstitution (w ++ s') = scanSubstitution (w ++ s) := by
  cases w with
  | nil => exact absurd rfl hw
  | cons q w => rfl

theorem opensNumber_append {c : Char} (hw : w ≠ []) (s s' : List CodePoint) :
    opensNumber c (w ++ s') = opensNumber c (w ++ s) := by
  cases w with
  | nil => exact absurd rfl hw
  | cons q w => rfl

/-- Whether the two texts have the same punctuator at their start. -/
def SamePunctuator (c : Char) (a b : List CodePoint) : Prop :=
  punctuatorLength (c :: (a.take longestPunctuator).map CodePoint.char)
    = punctuatorLength (c :: (b.take longestPunctuator).map CodePoint.char)

theorem scanPunctuator_congr {c : Char} {a b : List CodePoint} (h : SamePunctuator c a b) :
    scanPunctuator c a = scanPunctuator c b := by
  rw [scanPunctuator_eq, scanPunctuator_eq, h]

/-- **A lexeme of a snippet is settled by its text and one code point behind it**, and by the
punctuator that it begins with. -/
theorem scanCode_append {nesting : Nat} {line : LineState} {c : Char}
    (h : (scanCode nesting line c (w ++ s)).more < w.length) {s' : List CodePoint}
    (hpunctuator : SamePunctuator c (w ++ s') (w ++ s)) :
    scanCode nesting line c (w ++ s') = scanCode nesting line c (w ++ s) := by
  have hw := ne_nil_of_lt h
  have hscan := scanPunctuator_congr hpunctuator
  by_cases hspace : isCodeSpace c = true
  · rw [scanCode_of_space hspace] at h
    rw [scanCode_of_space hspace, scanCode_of_space hspace, runLength_append h s']
  · have hnot : isCodeSpace c = false := Bool.eq_false_iff.2 hspace
    by_cases hheader : OpensHeader line c
    · rw [scanCode_of_header hheader] at h
      rw [scanCode_of_header hheader, scanCode_of_header hheader, scanHeaderName_append h s']
    · by_cases hword : isCodeWordStart c = true
      · rw [scanCode_of_word hnot hheader hword] at h
        rw [scanCode_of_word hnot hheader hword, scanCode_of_word hnot hheader hword,
          scanCodeWord_append h s']
      · rw [OpensHeader] at hheader
        unfold scanCode at h ⊢
        rw [if_neg hspace, if_neg hheader, if_neg hword] at h
        rw [if_neg hspace, if_neg hspace, if_neg hheader, if_neg hheader, if_neg hword,
          if_neg hword, opensNumber_append hw s s']
        split
        · rename_i hnumber
          rw [if_pos hnumber] at h
          rw [numberTail_append h s']
        · rename_i hnumber
          rw [if_neg hnumber] at h
          split at h
          · rw [scanComment?_append hw (fun found hfound => by rwa [hfound] at h) s', hscan]
          · rw [scanLiteral_append (by rwa [Nat.zero_add]) s']
          · rw [scanLiteral_append (by rwa [Nat.zero_add]) s']
          · exact scanSubstitution_append hw s s'
          · rfl
          · exact hscan

/-! ## Lexemes -/

/-- **A lexeme that ends inside `w` does not depend on what comes behind `w`**, as long as the same
punctuator begins it. -/
theorem firstLexeme_append {m : Mode} {p : CodePoint}
    (h : (firstLexeme m p (w ++ s)).points.length ≤ w.length) {s' : List CodePoint}
    (hpunctuator : SamePunctuator p.char (w ++ s') (w ++ s)) :
    firstLexeme m p (w ++ s') = firstLexeme m p (w ++ s) := by
  rw [length_points_firstLexeme] at h
  have hmore : (m.scan p.char (w ++ s)).more < w.length := h
  have hscan : m.scan p.char (w ++ s') = m.scan p.char (w ++ s) := by
    cases m with
    | grammar => exact scanGrammar_append hmore s'
    | snippet nesting line => exact scanCode_append hmore hpunctuator
  rw [firstLexeme, firstLexeme, hscan, List.take_append_of_le_length (Nat.le_of_lt hmore),
    List.take_append_of_le_length (Nat.le_of_lt hmore)]

/-! ## Separators -/

/-- Whether no punctuator goes on with `b`. -/
def Foreign (b : Char) : Prop := ∀ mark ∈ punctuators, b ∉ mark.tail

instance (b : Char) : Decidable (Foreign b) :=
  inferInstanceAs (Decidable (∀ mark ∈ punctuators, b ∉ mark.tail))

/-- Punctuators are ASCII. -/
theorem foreign_of_le {b : Char} (h : 0x80 ≤ b.toNat) : Foreign b := by
  have hall : (punctuators.all fun mark => mark.tail.all fun c => c.toNat < 0x80) = true := by
    decide
  simp only [List.all_eq_true, decide_eq_true_eq] at hall
  intro mark hmark hb
  exact Nat.not_lt.2 h (hall mark hmark b hb)

theorem Foreign.ne_colon {b : Char} (h : Foreign b) : b ≠ ':' := by
  rintro rfl
  exact absurd h (by decide)

theorem Foreign.ne_rightAngle {b : Char} (h : Foreign b) : b ≠ '>' := by
  rintro rfl
  exact absurd h (by decide)

theorem isPrefixOf_foreign {b : Char} {mark : List Char} (hmark : b ∉ mark) (t s : List Char) :
    mark.isPrefixOf (t ++ b :: s) = mark.isPrefixOf t := by
  induction mark generalizing t with
  | nil => simp
  | cons c mark ih =>
    rw [List.mem_cons, not_or] at hmark
    cases t with
    | nil => simp [List.isPrefixOf, Ne.symm hmark.1]
    | cons d t => rw [List.cons_append, List.isPrefixOf, List.isPrefixOf, ih hmark.2]

theorem opensGlobalName_foreign {b : Char} (hb : Foreign b) (c : Char) (t s : List Char) :
    opensGlobalName (c :: (t ++ b :: s)) = opensGlobalName (c :: t) := by
  have hcolon := hb.ne_colon
  have hangle := hb.ne_rightAngle
  rw [Bool.eq_iff_iff, opensGlobalName_iff, opensGlobalName_iff]
  match t with
  | [] => simp [hcolon]
  | [d] => simp [hcolon]
  | [d, e] => simp [hcolon, hangle, and_assoc]
  | d :: e :: f :: t => simp [and_assoc]

/-- **A punctuator ends in front of what is foreign to it**, as if the text ended there. -/
theorem punctuatorLength_foreign {b : Char} (hb : Foreign b) (c : Char) (t s : List Char) :
    punctuatorLength (c :: (t ++ b :: s)) = punctuatorLength (c :: t) := by
  have hfilter : punctuators.filter (·.isPrefixOf (c :: (t ++ b :: s)))
      = punctuators.filter (·.isPrefixOf (c :: t)) := by
    refine List.filter_congr fun mark hmark => ?_
    have htail := hb mark hmark
    cases mark with
    | nil => rfl
    | cons d mark =>
      rw [List.tail_cons] at htail
      rw [List.isPrefixOf, List.isPrefixOf, isPrefixOf_foreign htail]
  rw [punctuatorLength, punctuatorLength, opensGlobalName_foreign hb, hfilter]

theorem samePunctuator_append {b : CodePoint} (hb : Foreign b.char) (c : Char)
    (u s : List CodePoint) : SamePunctuator c (u ++ b :: s) u := by
  rw [SamePunctuator]
  rcases Nat.lt_or_ge u.length longestPunctuator with hlt | hge
  · obtain ⟨n, hn⟩ : ∃ n, longestPunctuator - u.length = n + 1 :=
      ⟨longestPunctuator - u.length - 1, by omega⟩
    rw [List.take_append, List.take_of_length_le (Nat.le_of_lt hlt), hn, List.take_succ_cons,
      List.map_append, List.map_cons, punctuatorLength_foreign hb]
  · rw [List.take_append_of_le_length hge]

theorem samePunctuator_of_foreign {b b' : CodePoint} (hb : Foreign b.char) (hb' : Foreign b'.char)
    (c : Char) (u s s' : List CodePoint) : SamePunctuator c (u ++ b' :: s') (u ++ b :: s) :=
  (samePunctuator_append hb' c u s').trans (samePunctuator_append hb c u s).symm

/-- Whether no punctuator that begins in front of `b` depends on what is behind it. -/
def EndsPunctuators (b : CodePoint) : Prop :=
  ∀ (c : Char) (u s s' : List CodePoint), SamePunctuator c (u ++ b :: s') (u ++ b :: s)

theorem endsPunctuators_of_foreign {b : CodePoint} (h : Foreign b.char) : EndsPunctuators b :=
  samePunctuator_of_foreign h h

/-- No punctuator goes on with the brace that opens a snippet. -/
theorem endsPunctuators_brace : EndsPunctuators (.scalar '{') :=
  endsPunctuators_of_foreign (by decide)

/-- No punctuator goes on with a semicolon. -/
theorem endsPunctuators_semicolon : EndsPunctuators (.scalar ';') :=
  endsPunctuators_of_foreign (by decide)

/-- A lexeme that ends in front of such a code point, or with it, does not look past it. -/
theorem firstLexeme_congr {m : Mode} {p b : CodePoint} {a rest : List CodePoint}
    (hb : EndsPunctuators b) (h : (firstLexeme m p (a ++ b :: rest)).points.length ≤ a.length + 1)
    (rest' : List CodePoint) :
    firstLexeme m p (a ++ b :: rest') = firstLexeme m p (a ++ b :: rest) := by
  have hseen : ∀ t, a ++ b :: t = (a ++ [b]) ++ t := fun t => by simp
  have hsame := hb p.char a rest rest'
  rw [hseen rest, hseen rest'] at hsame
  rw [hseen rest] at h
  rw [hseen rest, hseen rest', firstLexeme_append (by simpa using h) hsame]

/-- **Lexemes in front of such a code point stay what they are** if the text behind it changes. -/
theorem lexemes_append {m : Mode} {b : CodePoint} {ls after : List Lexeme} {rest : List CodePoint}
    (hb : EndsPunctuators b)
    (hls : lexemes m (ls.flatMap Lexeme.points ++ b :: rest) = ls ++ after)
    (rest' : List CodePoint) :
    lexemes m (ls.flatMap Lexeme.points ++ b :: rest')
      = ls ++ lexemes (m.afterAll ls) (b :: rest') := by
  induction ls generalizing m with
  | nil => rfl
  | cons l ls ih =>
    have hmem : l ∈ lexemes m ((l :: ls).flatMap Lexeme.points ++ b :: rest) := by
      rw [hls]
      exact List.mem_cons_self
    obtain ⟨q, tail, hq⟩ := List.exists_cons_of_ne_nil (points_ne_nil_of_mem hmem)
    rw [List.flatMap_cons, hq, List.cons_append, List.cons_append, lexemes_cons, List.cons_append,
      List.cons.injEq] at hls
    obtain ⟨hfirst, hrest⟩ := hls
    have hlen : (firstLexeme m q (tail ++ ls.flatMap Lexeme.points ++ b :: rest)).points.length
        ≤ (tail ++ ls.flatMap Lexeme.points).length + 1 := by
      rw [hfirst, hq]
      simp
    have hsame : firstLexeme m q (tail ++ ls.flatMap Lexeme.points ++ b :: rest') = l := by
      rw [firstLexeme_congr hb hlen, hfirst]
    have hdrop : ∀ t, (tail ++ ls.flatMap Lexeme.points ++ b :: t).drop (l.points.length - 1)
        = ls.flatMap Lexeme.points ++ b :: t := by
      intro t
      rw [hq, List.length_cons, Nat.add_sub_cancel, List.append_assoc, List.drop_left]
    rw [hfirst, hdrop] at hrest
    rw [List.flatMap_cons, hq, List.cons_append, List.cons_append, lexemes_cons, hsame, hdrop,
      ih hrest]
    have hmode : l.mode = m := by
      rw [← hfirst]
      rfl
    rw [Lexeme.next, hmode]
    rfl

end GrammarPaint
