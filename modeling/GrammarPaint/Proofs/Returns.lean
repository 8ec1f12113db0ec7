import GrammarPaint.Proofs.Locality

/-!
# Carriage returns in front of line feeds

A text has other line ends if a carriage return comes in front of every line feed (`withReturns`).
Whatever is measured in the text then grows by the returns that come into it (`stretch`), and
nothing else about it changes: spacing goes on through both characters, and where one of them
stops something, the other does too.

There is one thing that tells the two line ends apart.  A backslash escapes a single character, so
a line feed behind one would be escaped, and of a return with a line feed the return alone.  This is
what `EscapesFeed` is about.

This is seen measure by measure, then scan by scan; `scan_withReturns` puts the scans together.
-/

set_option autoImplicit false
namespace GrammarPaint

/-- The text with a carriage return in front of every line feed. -/
def withReturns : List CodePoint → List CodePoint
  | [] => []
  | p :: points =>
    if p.char = '\n' then .scalar '\r' :: p :: withReturns points else p :: withReturns points

/-- The number of code points that the first `n` ones become. -/
def stretch (points : List CodePoint) (n : Nat) : Nat := (withReturns (points.take n)).length

/-- Whether a backslash stands directly in front of a line feed. -/
def EscapesFeed (points : List CodePoint) : Prop := [.scalar '\\', .scalar '\n'] <:+: points

variable {points rest : List CodePoint} {p q : CodePoint}

theorem ne_feed {c : Char} (h : isLineBreak c = false) : c ≠ '\n' := by
  rintro rfl
  exact nomatch h

theorem ne_return {c : Char} (h : isLineBreak c = false) : c ≠ '\r' := by
  rintro rfl
  exact nomatch h

/-! ## Texts -/

theorem withReturns_of_feed (h : p.char = '\n') (points : List CodePoint) :
    withReturns (p :: points) = .scalar '\r' :: p :: withReturns points := if_pos h

theorem withReturns_cons (h : p.char ≠ '\n') (points : List CodePoint) :
    withReturns (p :: points) = p :: withReturns points := if_neg h

theorem withReturns_append (a b : List CodePoint) :
    withReturns (a ++ b) = withReturns a ++ withReturns b := by
  induction a with
  | nil => rfl
  | cons p a ih =>
    rw [List.cons_append, withReturns, withReturns, ih]
    split <;> rfl

theorem exists_withReturns_eq_cons (p : CodePoint) (points : List CodePoint) :
    ∃ q more, withReturns (p :: points) = q :: more := by
  rw [withReturns]
  split <;> exact ⟨_, _, rfl⟩

theorem withReturns_eq_self (h : ∀ q ∈ points, q.char ≠ '\n') : withReturns points = points := by
  induction points with
  | nil => rfl
  | cons q points ih =>
    rw [List.forall_mem_cons] at h
    rw [withReturns_cons h.1, ih h.2]

/-- A text that has a line feed falls into what comes before the first one and what is behind it. -/
theorem exists_first_feed (points : List CodePoint) :
    (∀ q ∈ points, q.char ≠ '\n') ∨
      ∃ a b, points = a ++ .scalar '\n' :: b ∧ ∀ q ∈ a, q.char ≠ '\n' := by
  induction points with
  | nil => exact .inl nofun
  | cons p points ih =>
    by_cases hp : p.char = '\n'
    · exact .inr ⟨[], points, congrArg (· :: points) (CodePoint.eq_scalar_of_char hp (by decide)),
        nofun⟩
    · rcases ih with h | ⟨a, b, rfl, ha⟩
      · exact .inl (List.forall_mem_cons.2 ⟨hp, h⟩)
      · exact .inr ⟨p :: a, b, rfl, List.forall_mem_cons.2 ⟨hp, ha⟩⟩

theorem EscapesFeed.cons (h : EscapesFeed rest) (p : CodePoint) : EscapesFeed (p :: rest) :=
  List.IsInfix.trans h (List.suffix_cons p rest).isInfix

theorem EscapesFeed.of_drop {n : Nat} (h : EscapesFeed (rest.drop n)) : EscapesFeed rest :=
  List.IsInfix.trans h (List.drop_suffix n rest).isInfix

theorem ne_feed_of_not_escapesFeed (h : ¬ EscapesFeed (p :: q :: rest)) (hp : p.char = '\\') :
    q.char ≠ '\n' := by
  intro hq
  obtain rfl := CodePoint.eq_scalar_of_char hp (by decide)
  obtain rfl := CodePoint.eq_scalar_of_char hq (by decide)
  exact h ⟨[], rest, rfl⟩

/-! ## Stretching -/

theorem stretch_zero (points : List CodePoint) : stretch points 0 = 0 := rfl

theorem stretch_add (points : List CodePoint) (n m : Nat) :
    stretch points (n + m) = stretch points n + stretch (points.drop n) m := by
  rw [stretch, List.take_add, withReturns_append, List.length_append, stretch, stretch]

theorem stretch_cons_of_feed (h : p.char = '\n') (points : List CodePoint) (n : Nat) :
    stretch (p :: points) (n + 1) = stretch points n + 2 := by
  rw [stretch, List.take_succ_cons, withReturns_of_feed h]
  rfl

theorem stretch_cons (h : p.char ≠ '\n') (points : List CodePoint) (n : Nat) :
    stretch (p :: points) (n + 1) = stretch points n + 1 := by
  rw [stretch, List.take_succ_cons, withReturns_cons h]
  rfl

theorem stretch_eq_self {n : Nat} (hle : n ≤ points.length)
    (h : ∀ q ∈ points.take n, q.char ≠ '\n') : stretch points n = n := by
  rw [stretch, withReturns_eq_self h, List.length_take_of_le hle]

theorem take_stretch (points : List CodePoint) (n : Nat) :
    (withReturns points).take (stretch points n) = withReturns (points.take n) := by
  have hsplit := withReturns_append (points.take n) (points.drop n)
  rw [List.take_append_drop] at hsplit
  rw [hsplit, stretch, List.take_left]

theorem drop_stretch (points : List CodePoint) (n : Nat) :
    (withReturns points).drop (stretch points n) = withReturns (points.drop n) := by
  have hsplit := withReturns_append (points.take n) (points.drop n)
  rw [List.take_append_drop] at hsplit
  rw [hsplit, stretch, List.drop_left]

/-- The extent of the stretched text. -/
def Extent.stretched (e : Extent) (points : List CodePoint) : Extent :=
  ⟨stretch points e.size, e.closed⟩

theorem stretched_after (e : Extent) (n : Nat) (points : List CodePoint) :
    (e.after n).stretched points = (e.stretched (points.drop n)).after (stretch points n) := by
  rw [Extent.stretched, size_after, stretch_add]
  rfl

theorem stretched_after_one (e : Extent) (h : p.char ≠ '\n') (points : List CodePoint) :
    (e.after 1).stretched (p :: points) = (e.stretched points).after 1 := by
  rw [stretched_after, stretch_cons h]
  rfl

theorem stretched_after_of_feed (e : Extent) (h : p.char = '\n') (points : List CodePoint) :
    (e.after 1).stretched (p :: points) = ((e.stretched points).after 1).after 1 := by
  rw [stretched_after, stretch_cons_of_feed h, Extent.after, Extent.after, Extent.after,
    ← Nat.add_assoc]
  rfl

/-! ## Measures -/

/-- A run of spacing takes the returns in. -/
theorem runLength_withReturns {f : Char → Bool} (h : f '\r' = f '\n') (points : List CodePoint) :
    runLength f (withReturns points) = stretch points (runLength f points) := by
  induction points with
  | nil => rfl
  | cons q points ih =>
    by_cases hq : q.char = '\n'
    · rw [withReturns_of_feed hq, runLength_cons, runLength_cons, runLength_cons, hq, ih,
        show (CodePoint.scalar '\r').char = '\r' from rfl, h]
      split
      · rw [stretch_cons_of_feed hq]
      · rfl
    · rw [withReturns_cons hq, runLength_cons, runLength_cons, ih]
      split
      · rw [stretch_cons hq]
      · rfl

/-- What does not go over line breaks does not change. -/
theorem takeWhile_withReturns {f : Char → Bool} (hreturn : f '\r' = false) (hfeed : f '\n' = false)
    (points : List CodePoint) :
    (withReturns points).takeWhile (fun q => f q.char) = points.takeWhile fun q => f q.char := by
  induction points with
  | nil => rfl
  | cons q points ih =>
    by_cases hq : q.char = '\n'
    · rw [withReturns_of_feed hq, List.takeWhile_cons_of_neg (by simp [CodePoint.char, hreturn]),
        List.takeWhile_cons_of_neg (by simp [hq, hfeed])]
    · rw [withReturns_cons hq, List.takeWhile_cons, List.takeWhile_cons, ih]

theorem runLength_withReturns_of_breaks {f : Char → Bool} (hreturn : f '\r' = false)
    (hfeed : f '\n' = false) (points : List CodePoint) :
    runLength f (withReturns points) = runLength f points :=
  congrArg List.length (takeWhile_withReturns hreturn hfeed points)

theorem stretch_runLength {f : Char → Bool} (hreturn : f '\r' = false) (hfeed : f '\n' = false)
    (points : List CodePoint) : stretch points (runLength f points) = runLength f points := by
  rw [← runLength_withReturns (hreturn.trans hfeed.symm),
    runLength_withReturns_of_breaks hreturn hfeed]

theorem take_runLength (f : Char → Bool) (points : List CodePoint) :
    points.take (runLength f points) = points.takeWhile fun q => f q.char :=
  (List.prefix_iff_eq_take.1 (List.takeWhile_prefix _)).symm

theorem take_runLength_withReturns {f : Char → Bool} (hreturn : f '\r' = false)
    (hfeed : f '\n' = false) (points : List CodePoint) :
    (withReturns points).take (runLength f points) = points.take (runLength f points) := by
  rw [take_runLength f points, ← takeWhile_withReturns hreturn hfeed, ← take_runLength,
    runLength_withReturns_of_breaks hreturn hfeed]

theorem isPrefixOf_withReturns {mark : List CodePoint}
    (h : ∀ q ∈ mark, isLineBreak q.char = false) (points : List CodePoint) :
    mark.isPrefixOf (withReturns points) = mark.isPrefixOf points := by
  induction mark generalizing points with
  | nil => rw [List.isPrefixOf_nil_left, List.isPrefixOf_nil_left]
  | cons r mark ih =>
    rw [List.forall_mem_cons] at h
    cases points with
    | nil => rfl
    | cons q points =>
      by_cases hq : q.char = '\n'
      · have hreturn : r ≠ .scalar '\r' := by
          rintro rfl
          exact nomatch h.1
        have hfeed : r ≠ q := by
          rintro rfl
          exact ne_feed h.1 hq
        rw [withReturns_of_feed hq, List.isPrefixOf, List.isPrefixOf, beq_false_of_ne hreturn,
          beq_false_of_ne hfeed, Bool.false_and, Bool.false_and]
      · rw [withReturns_cons hq, List.isPrefixOf, List.isPrefixOf, ih h.2]

theorem extentThrough_withReturns {mark : List CodePoint}
    (h : ∀ q ∈ mark, isLineBreak q.char = false) (points : List CodePoint) :
    extentThrough mark (withReturns points) = (extentThrough mark points).stretched points := by
  induction points with
  | nil => rfl
  | cons p points ih =>
    have hmark := isPrefixOf_withReturns h (p :: points)
    cases hmatch : mark.isPrefixOf (p :: points) with
    | true =>
      have hfound := List.isPrefixOf_iff_prefix.1 hmatch
      have hstretch : stretch (p :: points) mark.length = mark.length := by
        refine stretch_eq_self hfound.length_le fun q hq => ne_feed (h q ?_)
        rwa [← List.prefix_iff_eq_take.1 hfound] at hq
      obtain ⟨q, more, hcons⟩ := exists_withReturns_eq_cons p points
      rw [hcons, hmatch] at hmark
      rw [hcons, extentThrough, if_pos hmark, extentThrough, if_pos hmatch, Extent.stretched,
        hstretch]
    | false =>
      rw [hmatch] at hmark
      by_cases hp : p.char = '\n'
      · have hfeed : mark.isPrefixOf (p :: withReturns points) = false := by
          cases mark with
          | nil => exact absurd hmatch.symm Bool.false_ne_true
          | cons r mark =>
            have hr : r ≠ p := by
              rintro rfl
              exact ne_feed (h r List.mem_cons_self) hp
            rw [List.isPrefixOf, beq_false_of_ne hr, Bool.false_and]
        rw [withReturns_of_feed hp] at hmark ⊢
        rw [extentThrough, if_neg (by simp [hmark]), extentThrough, if_neg (by simp [hfeed]), ih,
          extentThrough, if_neg (by simp [hmatch]), stretched_after_of_feed _ hp]
      · rw [withReturns_cons hp] at hmark ⊢
        rw [extentThrough, if_neg (by simp [hmark]), ih, extentThrough,
          if_neg (by simp [hmatch]), stretched_after_one _ hp]

theorem quotedExtent_withReturns {close : Char} (hclose : isLineBreak close = false)
    {escapesBreaks : Bool} {points : List CodePoint} (h : ¬ EscapesFeed points) :
    quotedExtent close escapesBreaks (withReturns points)
      = (quotedExtent close escapesBreaks points).stretched points := by
  fun_induction quotedExtent close escapesBreaks points with
  | case1 => rfl
  | case2 p rest hp =>
    have hfeed : p.char ≠ '\n' := hp ▸ ne_feed hclose
    rw [withReturns_cons hfeed, quotedExtent_cons, if_pos hp, Extent.stretched, stretch_cons hfeed]
    rfl
  | case3 p rest hp hbreak =>
    by_cases hfeed : p.char = '\n'
    · have hreturn : (CodePoint.scalar '\r').char ≠ close := (ne_return hclose).symm
      rw [withReturns_of_feed hfeed, quotedExtent_cons, if_neg hreturn]
      exact if_pos rfl
    · rw [withReturns_cons hfeed, quotedExtent_cons, if_neg hp, if_pos hbreak]
      rfl
  | case4 p hp hbreak hescape =>
    have hfeed : p.char ≠ '\n' := ne_feed (Bool.eq_false_iff.2 hbreak)
    rw [withReturns_cons hfeed, withReturns, quotedExtent_cons, if_neg hp, if_neg hbreak,
      if_pos hescape, Extent.stretched, stretch_cons hfeed]
    rfl
  | case5 p hp hbreak hescape q rest hq =>
    have hfeed : p.char ≠ '\n' := ne_feed (Bool.eq_false_iff.2 hbreak)
    have hnext := ne_feed_of_not_escapesFeed h hescape
    rw [withReturns_cons hfeed, withReturns_cons hnext, quotedExtent_cons, if_neg hp,
      if_neg hbreak, if_pos hescape, Extent.stretched, stretch_cons hfeed]
    exact if_pos hq
  | case6 p hp hbreak hescape q rest hq ih =>
    have hfeed : p.char ≠ '\n' := ne_feed (Bool.eq_false_iff.2 hbreak)
    have hnext := ne_feed_of_not_escapesFeed h hescape
    have hrest := ih fun hrest => h ((hrest.cons q).cons p)
    rw [withReturns_cons hfeed, withReturns_cons hnext, quotedExtent_cons, if_neg hp,
      if_neg hbreak, if_pos hescape, stretched_after, stretch_cons hfeed, stretch_cons hnext]
    exact (if_neg hq).trans (congrArg (Extent.after 2) hrest)
  | case7 p rest hp hbreak hescape ih =>
    have hfeed : p.char ≠ '\n' := ne_feed (Bool.eq_false_iff.2 hbreak)
    rw [withReturns_cons hfeed, quotedExtent_cons, if_neg hp, if_neg hbreak, if_neg hescape,
      stretched_after_one _ hfeed, ih fun hrest => h (hrest.cons p)]

theorem headerExtent_withReturns {close : Char} (hclose : isLineBreak close = false)
    (points : List CodePoint) :
    headerExtent close (withReturns points) = (headerExtent close points).stretched points := by
  have hreturn : (('\r' : Char) != close && !isLineBreak '\r') = false := Bool.and_false _
  have hfeed : (('\n' : Char) != close && !isLineBreak '\n') = false := Bool.and_false _
  have hrun := runLength_withReturns_of_breaks (f := fun c => c != close && !isLineBreak c) hreturn
    hfeed points
  have hstretch := stretch_runLength (f := fun c => c != close && !isLineBreak c) hreturn hfeed
    points
  have hdrop := drop_stretch points (runLength (fun c => c != close && !isLineBreak c) points)
  rw [hstretch] at hdrop
  rw [headerExtent, headerExtent, hrun, hdrop]
  generalize runLength (fun c => c != close && !isLineBreak c) points = size at hstretch
  cases hrest : points.drop size with
  | nil => rw [withReturns, Extent.stretched, hstretch]
  | cons q more =>
    by_cases hq : q.char = '\n'
    · have hne : q.char ≠ close := hq ▸ (ne_feed hclose).symm
      have hne' : (CodePoint.scalar '\r').char ≠ close := (ne_return hclose).symm
      simp only [withReturns_of_feed hq, if_neg hne, if_neg hne', Extent.stretched, hstretch]
    · simp only [withReturns_cons hq]
      split
      · rw [Extent.stretched, stretch_add, hstretch, hrest, stretch_cons hq]
        rfl
      · rw [Extent.stretched, hstretch]

theorem numberTail_withReturns (points : List CodePoint) :
    numberTail (withReturns points) = stretch points (numberTail points) := by
  fun_induction numberTail points with
  | case1 => rfl
  | case2 p hp =>
    have hfeed : p.char ≠ '\n' := fun hfeed => by simp [hfeed] at hp
    rw [withReturns_cons hfeed, withReturns, numberTail_cons, if_pos hp, stretch_cons hfeed]
    rfl
  | case3 p hp q more hq ih =>
    have hfeed : p.char ≠ '\n' := fun hfeed => by simp [hfeed] at hp
    have hnext : q.char ≠ '\n' := fun hnext => by simp [hnext] at hq
    rw [withReturns_cons hfeed, withReturns_cons hnext, numberTail_cons, if_pos hp,
      stretch_cons hfeed, stretch_cons hnext, ← ih]
    exact if_pos hq
  | case4 p hp q more hq ih =>
    have hfeed : p.char ≠ '\n' := fun hfeed => by simp [hfeed] at hp
    obtain ⟨r, tail, hcons⟩ := exists_withReturns_eq_cons q more
    have hr : ¬ (r.char == '+' || r.char == '-') = true := by
      rw [withReturns] at hcons
      split at hcons
      · obtain ⟨rfl, -⟩ := List.cons.inj hcons
        decide
      · obtain ⟨rfl, -⟩ := List.cons.inj hcons
        exact hq
    rw [withReturns_cons hfeed, numberTail_cons, if_pos hp, hcons, stretch_cons hfeed, ← ih, hcons]
    exact if_neg hr
  | case5 p rest hp hq ih =>
    have hfeed : p.char ≠ '\n' := by
      intro hfeed
      rw [hfeed] at hq
      exact absurd hq Bool.false_ne_true
    rw [withReturns_cons hfeed, numberTail_cons, if_neg hp, if_pos hq, stretch_cons hfeed, ih]
  | case6 p rest hp hq =>
    by_cases hfeed : p.char = '\n'
    · rw [withReturns_of_feed hfeed, numberTail_cons, if_neg (by decide), if_neg (by decide),
        stretch_zero]
    · rw [withReturns_cons hfeed, numberTail_cons, if_neg hp, if_neg hq, stretch_zero]

/-! ## Scans -/

/-- The answer about the stretched text. -/
def Scan.stretched (s : Scan) (rest : List CodePoint) : Scan :=
  ⟨s.kind, stretch rest s.more, s.fault⟩

theorem scan_stretched (e : Extent) (kind : TokenKind) (fault : LexicalFault)
    (rest : List CodePoint) :
    (e.stretched rest).scan kind fault = (e.scan kind fault).stretched rest := rfl

theorem plain_stretched (kind : TokenKind) (more : Nat) (rest : List CodePoint) :
    Scan.plain kind (stretch rest more) = (Scan.plain kind more).stretched rest := rfl

theorem beginsWith_withReturns {c : Char} (hc : isLineBreak c = false) (points : List CodePoint) :
    beginsWith c (withReturns points) = beginsWith c points := by
  cases points with
  | nil => rfl
  | cons p points =>
    by_cases hp : p.char = '\n'
    · have hreturn : beginsWith c (.scalar '\r' :: p :: withReturns points) = false :=
        beq_false_of_ne (ne_return hc).symm
      have hfeed : beginsWith c (p :: points) = false :=
        beq_false_of_ne (hp ▸ (ne_feed hc).symm)
      rw [withReturns_of_feed hp, hreturn, hfeed]
    · rw [withReturns_cons hp]
      rfl

/-- A character that is no line break stays the first one, and what is behind it is stretched. -/
theorem tail_withReturns {c : Char} (hc : isLineBreak c = false)
    (h : beginsWith c points = true) :
    (withReturns points).tail = withReturns points.tail ∧ stretch points 1 = 1 := by
  cases points with
  | nil => exact nomatch h
  | cons p points =>
    have hp : p.char ≠ '\n' := by
      rw [beq_iff_eq.1 h]
      exact ne_feed hc
    exact ⟨by rw [withReturns_cons hp]; rfl, stretch_cons hp points 0⟩

theorem scanComment?_withReturns (block line : TokenKind) (rest : List CodePoint) :
    scanComment? block line (withReturns rest)
      = (scanComment? block line rest).map (·.stretched rest) := by
  rw [scanComment?, scanComment?, commentExtent_eq, commentExtent_eq,
    beginsWith_withReturns rfl, beginsWith_withReturns rfl]
  split
  · rename_i hblock
    obtain ⟨htail, hone⟩ := tail_withReturns rfl hblock
    rw [htail, extentThrough_withReturns (by decide), Option.map_some, ← scan_stretched,
      stretched_after, hone, List.drop_one]
  · split
    · rename_i hline
      obtain ⟨htail, hone⟩ := tail_withReturns rfl hline
      rw [htail, runLength_withReturns rfl, Option.map_some, ← plain_stretched, stretch_add, hone,
        List.drop_one]
    · rfl

theorem scanGrammarWord_withReturns (c : Char) (rest : List CodePoint) :
    scanGrammarWord c (withReturns rest) = (scanGrammarWord c rest).stretched rest := by
  rw [scanGrammarWord, scanGrammarWord, runLength_withReturns_of_breaks rfl rfl,
    take_runLength_withReturns rfl rfl, ← plain_stretched, stretch_runLength rfl rfl]

theorem scanGrammar_withReturns (c : Char) (h : ¬ EscapesFeed rest) :
    scanGrammar c (withReturns rest) = (scanGrammar c rest).stretched rest := by
  unfold scanGrammar
  by_cases hspace : isGrammarSpace c = true
  · rw [if_pos hspace, if_pos hspace, runLength_withReturns rfl, plain_stretched]
  · rw [if_neg hspace, if_neg hspace]
    by_cases halpha : c.isAlpha = true
    · rw [if_pos halpha, if_pos halpha, scanGrammarWord_withReturns]
    · rw [if_neg halpha, if_neg halpha]
      split
      · rw [scanComment?_withReturns]
        cases scanComment? .blockComment .lineComment rest <;> rfl
      · rw [quotedExtent_withReturns rfl h, scan_stretched]
      · rw [quotedExtent_withReturns rfl h, scan_stretched]
      · rfl
      · rw [beginsWith_withReturns rfl]
        split
        · rename_i hcolon
          rw [← plain_stretched, (tail_withReturns rfl hcolon).2]
        · rfl
      · split <;> rfl

/-! ## Scans of snippets -/

theorem suffixLength_withReturns (rest : List CodePoint) :
    suffixLength (withReturns rest) = stretch rest (suffixLength rest) := by
  cases rest with
  | nil => rfl
  | cons p rest =>
    by_cases hp : p.char = '\n'
    · have hfeed : suffixLength (p :: rest) = 0 := by
        rw [suffixLength, hp]
        rfl
      rw [withReturns_of_feed hp, hfeed]
      rfl
    · have hrun := runLength_withReturns (f := isWordPart) rfl (p :: rest)
      rw [withReturns_cons hp] at hrun ⊢
      rw [suffixLength, suffixLength, hrun]
      split <;> rfl

theorem withSuffix_withReturns (e : Extent) (body : List CodePoint) :
    (e.stretched body).withSuffix (withReturns body) = (e.withSuffix body).stretched body := by
  rw [Extent.withSuffix, Extent.withSuffix, show (e.stretched body).closed = e.closed from rfl]
  split
  · rw [Extent.stretched, Extent.stretched, drop_stretch, suffixLength_withReturns, stretch_add]
  · rfl

theorem scanLiteral_withReturns (before : Nat) {quote : Char} (hquote : isLineBreak quote = false)
    (h : ¬ EscapesFeed rest) :
    scanLiteral (stretch rest before) quote (withReturns (rest.drop before))
      = (scanLiteral before quote (rest.drop before)).stretched rest := by
  rw [scanLiteral, scanLiteral, quotedExtent_withReturns hquote fun hbody => h hbody.of_drop,
    withSuffix_withReturns, ← stretched_after]
  split <;> rfl

theorem scanRawLiteral_withReturns (before : Nat) (h : ¬ EscapesFeed rest) :
    scanRawLiteral (stretch rest before) (withReturns (rest.drop before))
      = (scanRawLiteral before (rest.drop before)).stretched rest := by
  have hlength := stretch_runLength (f := isDelimiterPart) rfl rfl (rest.drop before)
  have hdelimiter : ∀ q ∈ (rest.drop before).takeWhile (fun q => isDelimiterPart q.char),
      isLineBreak q.char = false := by
    intro q hq
    have hpart := List.all_eq_true.1 List.all_takeWhile q hq
    simp only [isDelimiterPart, Bool.not_eq_true', Bool.or_eq_false_iff] at hpart
    exact hpart.2
  rw [scanRawLiteral, scanRawLiteral, takeWhile_withReturns rfl rfl]
  rw [runLength] at hlength
  generalize ((rest.drop before).takeWhile fun q => isDelimiterPart q.char) = delimiter
    at hlength hdelimiter ⊢
  have hinner := drop_stretch (rest.drop before) delimiter.length
  rw [hlength] at hinner
  rw [hinner, beginsWith_withReturns rfl]
  split
  · rename_i hopen
    obtain ⟨htail, hone⟩ := tail_withReturns rfl hopen
    have hmark : ∀ q ∈ CodePoint.scalar ')' :: delimiter ++ [.scalar '"'],
        isLineBreak q.char = false := by
      simp only [List.cons_append, List.forall_mem_cons, List.forall_mem_append]
      exact ⟨rfl, hdelimiter, rfl, List.forall_mem_nil _⟩
    have hbefore : stretch rest (before + delimiter.length + 1)
        = stretch rest before + delimiter.length + 1 := by
      rw [Nat.add_assoc, stretch_add, stretch_add, hlength, hone, Nat.add_assoc]
    dsimp only
    rw [htail, extentThrough_withReturns hmark, withSuffix_withReturns, ← scan_stretched,
      stretched_after, hbefore, List.tail_drop, List.drop_drop, ← Nat.add_assoc]
  · exact scanLiteral_withReturns before rfl h

theorem scanHeaderName_withReturns (opening : Char) (rest : List CodePoint) :
    scanHeaderName opening (withReturns rest) = (scanHeaderName opening rest).stretched rest := by
  rw [scanHeaderName, scanHeaderName, headerExtent_withReturns (by split <;> rfl), scan_stretched]

theorem scanCodeWord_withReturns (line : LineState) (c : Char) (h : ¬ EscapesFeed rest) :
    scanCodeWord line c (withReturns rest) = (scanCodeWord line c rest).stretched rest := by
  have hmore := stretch_runLength (f := isWordPart) rfl rfl rest
  have hbehind := drop_stretch rest (runLength isWordPart rest)
  have htake := take_runLength_withReturns (f := isWordPart) rfl rfl rest
  rw [hmore] at hbehind
  rw [scanCodeWord, scanCodeWord, runLength_withReturns_of_breaks rfl rfl, htake, hbehind]
  generalize runLength isWordPart rest = more at hmore
  simp only [beginsWith_withReturns (c := '\'') rfl, beginsWith_withReturns (c := '"') rfl]
  have hquote : ∀ {quote : Char}, isLineBreak quote = false →
      beginsWith quote (rest.drop more) = true → stretch rest (more + 1) = more + 1 ∧
        (withReturns (rest.drop more)).tail = withReturns (rest.drop (more + 1)) ∧
        (rest.drop more).tail = rest.drop (more + 1) := by
    intro quote hquote hbegins
    obtain ⟨htail, hone⟩ := tail_withReturns hquote hbegins
    rw [stretch_add, hmore, hone, htail, List.tail_drop]
    exact ⟨rfl, rfl, rfl⟩
  split
  · rw [← plain_stretched, hmore]
  · split
    · rename_i hliteral
      rw [Bool.and_eq_true] at hliteral
      obtain ⟨hstretch, htail, htail'⟩ := hquote rfl hliteral.1
      rw [htail, htail', ← scanLiteral_withReturns _ rfl h, hstretch]
    · split
      · rename_i hliteral
        rw [Bool.and_eq_true] at hliteral
        obtain ⟨hstretch, htail, htail'⟩ := hquote rfl hliteral.1
        rw [htail, htail', ← scanLiteral_withReturns _ rfl h, hstretch]
      · split
        · rename_i hraw
          rw [Bool.and_eq_true] at hraw
          obtain ⟨hstretch, htail, htail'⟩ := hquote rfl hraw.1
          rw [htail, htail', ← scanRawLiteral_withReturns _ h, hstretch]
        · rw [← plain_stretched, hmore]

theorem scanSubstitution_withReturns (rest : List CodePoint) :
    scanSubstitution (withReturns rest) = (scanSubstitution rest).stretched rest := by
  cases rest with
  | nil => rfl
  | cons p rest =>
    by_cases hp : p.char = '\n'
    · rw [withReturns_of_feed hp, scanSubstitution, scanSubstitution, hp]
      rfl
    · rw [withReturns_cons hp, scanSubstitution, scanSubstitution]
      split
      · rw [← plain_stretched, stretch_cons hp]
        rfl
      · rfl

theorem scanPunctuator_withReturns (c : Char) (rest : List CodePoint) :
    scanPunctuator c (withReturns rest) = (scanPunctuator c rest).stretched rest := by
  rcases exists_first_feed rest with hnone | ⟨a, b, rfl, ha⟩
  · have hmore := (fits_scanPunctuator c rest).more_le
    rw [withReturns_eq_self hnone, Scan.stretched,
      stretch_eq_self hmore fun q hq => hnone q (List.mem_of_mem_take hq)]
  · -- as if the text ended in front of its first line feed
    have hmore := (fits_scanPunctuator c a).more_le
    have hfeed := scanPunctuator_congr (samePunctuator_append (b := .scalar '\n') (by decide) c a b)
    have hreturn := scanPunctuator_congr (samePunctuator_append (b := .scalar '\r') (by decide) c a
      (.scalar '\n' :: withReturns b))
    have hstretch : stretch (a ++ .scalar '\n' :: b) (scanPunctuator c a).more
        = (scanPunctuator c a).more := by
      rw [stretch, List.take_append_of_le_length hmore, ← stretch]
      exact stretch_eq_self hmore fun q hq => ha q (List.mem_of_mem_take hq)
    rw [withReturns_append, withReturns_eq_self ha, withReturns_of_feed rfl, hreturn, hfeed,
      Scan.stretched, hstretch]

theorem opensNumber_withReturns (c : Char) (rest : List CodePoint) :
    opensNumber c (withReturns rest) = opensNumber c rest := by
  cases rest with
  | nil => rfl
  | cons p rest =>
    by_cases hp : p.char = '\n'
    · rw [withReturns_of_feed hp, opensNumber, opensNumber, hp]
      rfl
    · rw [withReturns_cons hp]
      rfl

theorem scanCode_withReturns (nesting : Nat) (line : LineState) (c : Char)
    (h : ¬ EscapesFeed rest) :
    scanCode nesting line c (withReturns rest) = (scanCode nesting line c rest).stretched rest := by
  by_cases hspace : isCodeSpace c = true
  · rw [scanCode_of_space hspace, scanCode_of_space hspace, runLength_withReturns rfl,
      plain_stretched]
  · have hnot : isCodeSpace c = false := Bool.eq_false_iff.2 hspace
    by_cases hheader : OpensHeader line c
    · rw [scanCode_of_header hheader, scanCode_of_header hheader, scanHeaderName_withReturns]
    · by_cases hword : isCodeWordStart c = true
      · rw [scanCode_of_word hnot hheader hword, scanCode_of_word hnot hheader hword,
          scanCodeWord_withReturns line c h]
      · rw [OpensHeader] at hheader
        unfold scanCode
        rw [if_neg hspace, if_neg hspace, if_neg hheader, if_neg hheader, if_neg hword,
          if_neg hword, opensNumber_withReturns]
        split
        · rw [numberTail_withReturns, plain_stretched]
        · split
          · rw [scanComment?_withReturns, scanPunctuator_withReturns]
            cases scanComment? .codeBlockComment .codeLineComment rest <;> rfl
          · exact scanLiteral_withReturns 0 rfl h
          · exact scanLiteral_withReturns 0 rfl h
          · exact scanSubstitution_withReturns rest
          · split <;> rfl
          · exact scanPunctuator_withReturns c rest

/-- **A scan finds the same in the stretched text**, stretched. -/
theorem scan_withReturns (m : Mode) (c : Char) (h : ¬ EscapesFeed rest) :
    m.scan c (withReturns rest) = (m.scan c rest).stretched rest := by
  cases m with
  | grammar => exact scanGrammar_withReturns c h
  | snippet nesting line => exact scanCode_withReturns nesting line c h

end GrammarPaint
