import GrammarPaint.Proofs.Units

/-!
# Where quoted text ends

A scan of quoted text goes from its opening on, and takes two code points at a time where there is a
backslash (`quotedExtent`).  Here the same end is found by looking at one place only: a unit is
escaped if there is an odd number of backslashes directly before it, as far as they are inside the
text (`Document.IsEscaped`), and quoted text ends at the first unit that can end it and is not
escaped (`Document.exists_isLeast_quotedExtent`).

* `Document.EndsOnLine` — strings and character classes of grammar text are closed on their line, or
  not at all;
* `Document.EndsLiteral` — literals of code go over line breaks that are escaped, and have a suffix.

A literal may have something in front of its quote (`HasLiteral`).  With that, **all quoted tokens
of a document end where their backslashes say** (`Document.endsQuoted`).
-/

set_option autoImplicit false
namespace GrammarPaint

/-- The kind of literals in such quotes. -/
def literalKind (quote : Char) : TokenKind := if quote = '\'' then .codeChar else .codeString

/-- The fault of literals in such quotes. -/
def literalFault (quote : Char) : LexicalFault :=
  if quote = '\'' then .unclosedCodeChar else .unclosedCodeString

theorem ne_literalKind {k : TokenKind} (h : k ∉ [.codeChar, .codeString]) (quote : Char) :
    k ≠ literalKind quote := by
  rintro rfl
  rw [literalKind] at h
  split at h <;> exact absurd (by decide) h

theorem scanLiteral_eq (before : Nat) (quote : Char) (body : List CodePoint) :
    scanLiteral before quote body
      = (((quotedExtent quote true body).withSuffix body).after before).scan (literalKind quote)
        (literalFault quote) := by
  rw [scanLiteral, literalKind, literalFault]
  split <;> rfl

namespace Document

/-! ## Backslashes -/

/-- The number of backslashes directly before `q`, as far as they are above `s`. -/
def backslashes (d : Document) (s : Nat) : Nat → Nat
  | 0 => 0
  | q + 1 => if s < q ∧ d.charAt? q = some '\\' then d.backslashes s q + 1 else 0

/-- Whether the unit at `q` is escaped, in text that was opened at `s`. -/
def IsEscaped (d : Document) (s q : Nat) : Prop := d.backslashes s q % 2 = 1

/-- Whether text that was opened at `s` and is closed by `close` ends at `q`, with this character or
in front of it.  Whether a line break can be escaped is up to `escapesBreaks`. -/
def EndsQuote (d : Document) (s : Nat) (close : Char) (escapesBreaks : Bool) (q : Nat) : Prop :=
  q = d.length ∨ d.charAt? q = some close ∧ ¬ d.IsEscaped s q ∨
    d.Reads isLineBreak q ∧ (escapesBreaks = true → ¬ d.IsEscaped s q)

variable {d : Document} {t : Token} {m : Mode} {a b rest : List CodePoint} {p : CodePoint}
  {s q : Nat} {close quote : Char} {escapesBreaks : Bool} {kind : TokenKind} {fault : LexicalFault}

theorem not_isEscaped_succ (d : Document) (s : Nat) : ¬ d.IsEscaped s (s + 1) := by
  rw [IsEscaped, backslashes, if_neg fun h => Nat.lt_irrefl s h.1]
  decide

/-- What comes behind a code point is escaped if this is a backslash and is not escaped itself. -/
theorem isEscaped_behind (h : d.points = a ++ p :: b) (hs : s < CodePoint.totalWidth a) :
    d.IsEscaped s (CodePoint.totalWidth (a ++ [p])) ↔
      p.char = '\\' ∧ ¬ d.IsEscaped s (CodePoint.totalWidth a) := by
  obtain ⟨k, hk⟩ : ∃ k, p.width = k + 1 := Nat.exists_eq_succ_of_ne_zero (Nat.ne_of_gt p.width_pos)
  have hlast : d.charAt? (CodePoint.totalWidth a + k) = some '\\' ↔ p.char = '\\' :=
    charAt?_iff h (by decide) (Nat.le_add_right _ _) (by omega)
  rw [totalWidth_concat, IsEscaped, hk, ← Nat.add_assoc, backslashes]
  by_cases hp : p.char = '\\'
  · obtain rfl : k = 0 := by
      have hwidth := CodePoint.width_of_char (p := p) (by rw [hp]; decide)
      omega
    rw [if_pos ⟨hs, hlast.2 hp⟩, IsEscaped]
    simp only [hp, true_and, Nat.add_zero]
    omega
  · rw [if_neg fun hand => hp (hlast.1 hand.2)]
    simp [hp]

/-! ## Where quoted text ends -/

/-- Text goes on through what is neither the closing character nor a line break, and through what is
escaped. -/
theorem isLeast_behind (h : d.points = a ++ p :: b) (hclose : close.toNat < 0x80)
    (hc : p.char = close → d.IsEscaped s (CodePoint.totalWidth a))
    (hbreak : isLineBreak p.char = true →
      escapesBreaks = true ∧ d.IsEscaped s (CodePoint.totalWidth a))
    (hleast : IsLeast
      {q | CodePoint.totalWidth (a ++ [p]) ≤ q ∧ d.EndsQuote s close escapesBreaks q} q) :
    IsLeast {q | CodePoint.totalWidth a ≤ q ∧ d.EndsQuote s close escapesBreaks q} q := by
  rw [totalWidth_concat] at hleast
  refine isLeast_of_skip (Nat.le_add_right _ _) (fun r hle hlt => ?_) hleast
  have hfirst : p.char.toNat < 0x80 → r = CodePoint.totalWidth a := fun hp => by
    have hwidth := CodePoint.width_of_char hp
    omega
  rintro (rfl | ⟨hr, hnot⟩ | ⟨hr, hnot⟩)
  · have hlength := totalWidth_front_le (h.trans (List.append_cons a p b))
    rw [totalWidth_concat] at hlength
    omega
  · have hp := (charAt?_iff h hclose hle hlt).1 hr
    obtain rfl := hfirst (hp ▸ hclose)
    exact hnot (hc hp)
  · have hp := (reads_iff h isAscii_isLineBreak hle hlt).1 hr
    obtain rfl := hfirst (toNat_lt_of_isLineBreak hp)
    exact hnot (hbreak hp).1 (hbreak hp).2

/-- Where text stops that ends at `q`: behind the closing character if it is closed, and in front of
what it cannot go over if it is not. -/
def ClosesAt (d : Document) (close : Char) (closed : Bool) (q stop : Nat) : Prop :=
  if closed = true then d.charAt? q = some close ∧ stop = q + 1
  else (q = d.length ∨ d.Reads isLineBreak q) ∧ stop = q

/-- **Quoted text ends where the first thing is that can end it and is not escaped.** -/
theorem exists_isLeast_quotedExtent (hclose : close.toNat < 0x80) (h : d.points = a ++ b)
    (hs : s < CodePoint.totalWidth a) (hescaped : ¬ d.IsEscaped s (CodePoint.totalWidth a))
    (escapesBreaks : Bool) :
    ∃ q, IsLeast {q | CodePoint.totalWidth a ≤ q ∧ d.EndsQuote s close escapesBreaks q} q ∧
      d.ClosesAt close (quotedExtent close escapesBreaks b).closed q
        (CodePoint.totalWidth (a ++ b.take (quotedExtent close escapesBreaks b).size)) := by
  have hpast (a : List CodePoint) (p : CodePoint) (hs : s < CodePoint.totalWidth a) :
      s < CodePoint.totalWidth (a ++ [p]) := by rw [totalWidth_concat]; omega
  fun_induction quotedExtent close escapesBreaks b generalizing a with
  | case1 =>
    rw [List.append_nil] at h
    have hlength := totalWidth_eq_length h
    exact ⟨_, isLeast_here (.inl hlength), .inl hlength, by rw [List.take_nil, List.append_nil]⟩
  | case2 p rest hp =>
    have hat : d.charAt? (CodePoint.totalWidth a) = some close :=
      (charAt?_here h hclose).2 hp
    refine ⟨_, isLeast_here (.inr (.inl ⟨hat, hescaped⟩)), hat, ?_⟩
    rw [List.take_succ_cons, List.take_zero, totalWidth_concat_of_char (hp ▸ hclose)]
  | case3 p rest hp hbreak =>
    have hat : d.Reads isLineBreak (CodePoint.totalWidth a) :=
      (reads_here h isAscii_isLineBreak).2 hbreak
    exact ⟨_, isLeast_here (.inr (.inr ⟨hat, fun _ => hescaped⟩)), .inr hat,
      by rw [List.take_zero, List.append_nil]⟩
  | case4 p hp hbreak hslash =>
    -- a backslash at the end of the document escapes nothing
    have hlength := totalWidth_eq_length h
    exact ⟨_, isLeast_behind h hclose (absurd · hp) (absurd · hbreak) (isLeast_here (.inl hlength)),
      .inl hlength, rfl⟩
  | case5 p hp hbreak hslash q rest hq =>
    -- nor does one in front of a line break that cannot be escaped
    rw [Bool.and_eq_true, Bool.not_eq_true'] at hq
    have hat : d.Reads isLineBreak (CodePoint.totalWidth (a ++ [p])) :=
      (reads_here (h.trans (List.append_cons a p _)) isAscii_isLineBreak).2 hq.1
    refine ⟨_, isLeast_behind h hclose (absurd · hp) (absurd · hbreak)
      (isLeast_here (.inr (.inr ⟨hat, fun htrue => ?_⟩))), .inr hat, rfl⟩
    exact absurd (hq.2.symm.trans htrue) Bool.false_ne_true
  | case6 p hp hbreak hslash q rest hq ih =>
    have hbehind : d.points = (a ++ [p]) ++ q :: rest := h.trans (List.append_cons a p _)
    have hescapes := (isEscaped_behind h hs).2 ⟨hslash, hescaped⟩
    obtain ⟨r, hleast, hcloses⟩ := ih (hbehind.trans (List.append_cons _ q _))
      (hpast _ q (hpast a p hs))
      fun hr => ((isEscaped_behind hbehind (hpast a p hs)).1 hr).2 hescapes
    refine ⟨r, isLeast_behind h hclose (absurd · hp) (absurd · hbreak)
      (isLeast_behind hbehind hclose (fun _ => hescapes) (fun hq' => ⟨?_, hescapes⟩) hleast), ?_⟩
    · simpa [hq'] using hq
    · rw [size_after, Nat.add_comm, List.take_succ_cons, List.take_succ_cons, List.append_cons,
        List.append_cons]
      exact hcloses
  | case7 p rest hp hbreak hslash ih =>
    obtain ⟨r, hleast, hcloses⟩ := ih (h.trans (List.append_cons a p _)) (hpast a p hs)
      fun hr => hslash ((isEscaped_behind h hs).1 hr).1
    refine ⟨r, isLeast_behind h hclose (absurd · hp) (absurd · hbreak) hleast, ?_⟩
    rw [size_after, Nat.add_comm, List.take_succ_cons, List.append_cons]
    exact hcloses

/-- Text that is opened by a code point of one unit is quoted from this unit on. -/
theorem exists_isLeast_opened (hclose : close.toNat < 0x80) (h : d.points = a ++ p :: b)
    (hp : p.char.toNat < 0x80) (escapesBreaks : Bool) :
    ∃ q, IsLeast {q | CodePoint.totalWidth a < q ∧
        d.EndsQuote (CodePoint.totalWidth a) close escapesBreaks q} q ∧
      d.ClosesAt close (quotedExtent close escapesBreaks b).closed q
        (CodePoint.totalWidth (a ++ p :: b.take (quotedExtent close escapesBreaks b).size)) := by
  have hbody := totalWidth_concat_of_char (a := a) hp
  have hquoted := exists_isLeast_quotedExtent (s := CodePoint.totalWidth a)
    hclose (h.trans (List.append_cons a p b)) (by omega) (hbody ▸ not_isEscaped_succ d _)
    escapesBreaks
  rw [hbody, ← List.append_cons] at hquoted
  exact hquoted

/-! ## Strings and character classes of grammar text -/

/-- Whether `q` is where text that was opened at `s` is closed: the first `close` that is not
escaped, and no line break comes before it. -/
def IsClosedAt (d : Document) (s : Nat) (close : Char) (q : Nat) : Prop :=
  IsLeast {q | s < q ∧ d.charAt? q = some close ∧ ¬ d.IsEscaped s q} q ∧
    ∀ r, s < r → r < q → ¬ d.Reads isLineBreak r

/-- How a string or character class ends: behind what closes it, and then nothing is wrong with it,
or in front of the next line break, or with the document. -/
structure EndsOnLine (d : Document) (t : Token) (close : Char) (fault : LexicalFault) : Prop where
  closed : ∀ q, d.IsClosedAt t.span.start close q → t.span.stop = q + 1 ∧ d.IsFaultless t
  unclosed : (¬ ∃ q, d.IsClosedAt t.span.start close q) →
    IsLeast {q | t.span.start < q ∧ (q = d.length ∨ d.Reads isLineBreak q)} t.span.stop ∧
      ⟨fault, t.span⟩ ∈ d.lexicalIssues

theorem not_isLineBreak_of_charAt? (hbreak : isLineBreak close = false)
    (h : d.charAt? q = some close) : ¬ d.Reads isLineBreak q := by
  rintro ⟨c, hc, hcbreak⟩
  obtain rfl := Option.some.inj (h.symm.trans hc)
  exact absurd (hbreak.symm.trans hcbreak) nofun

theorem not_isEscaped_of_endsQuote (hbreak : isLineBreak close = false)
    (hat : d.charAt? q = some close) (h : d.EndsQuote s close escapesBreaks q) :
    ¬ d.IsEscaped s q := by
  rcases h with rfl | ⟨-, h⟩ | ⟨h, -⟩
  · exact absurd (lt_length_of_charAt? hat) (Nat.lt_irrefl _)
  · exact h
  · exact absurd h (not_isLineBreak_of_charAt? hbreak hat)

section OnLine

variable (hbreak : isLineBreak close = false)
  (hleast : IsLeast {q | s < q ∧ d.EndsQuote s close false q} q)
include hbreak hleast

/-- Text that ends with the closing character is closed there. -/
theorem isClosedAt_of_isLeast (hat : d.charAt? q = some close) : d.IsClosedAt s close q := by
  have hescaped := not_isEscaped_of_endsQuote hbreak hat hleast.1.2
  refine ⟨⟨⟨hleast.1.1, hat, hescaped⟩, fun r hr => hleast.2 ⟨hr.1, .inr (.inl hr.2)⟩⟩, ?_⟩
  intro r hlt hr hreads
  have hends : d.EndsQuote s close false r := .inr (.inr ⟨hreads, (absurd · Bool.false_ne_true)⟩)
  exact Nat.not_le_of_lt hr (hleast.2 ⟨hlt, hends⟩)

/-- Text that ends without it is not closed anywhere. -/
theorem not_isClosedAt_of_isLeast (hq : q = d.length ∨ d.Reads isLineBreak q) (r : Nat) :
    ¬ d.IsClosedAt s close r := by
  intro hr
  obtain ⟨hlt, hat, hescaped⟩ := hr.1.1
  have hle : q ≤ r := hleast.2 ⟨hlt, .inr (.inl ⟨hat, hescaped⟩)⟩
  rcases hq with rfl | hq
  · exact Nat.not_lt_of_le hle (lt_length_of_charAt? hat)
  · rcases Nat.lt_or_eq_of_le hle with hbefore | rfl
    · exact hr.2 q hleast.1.1 hbefore hq
    · exact not_isLineBreak_of_charAt? hbreak hat hq

end OnLine

/-- It ends in front of the first line break, or with the document. -/
theorem isLeast_isLineBreak (hleast : IsLeast {q | s < q ∧ d.EndsQuote s close false q} q)
    (hq : q = d.length ∨ d.Reads isLineBreak q) :
    IsLeast {q | s < q ∧ (q = d.length ∨ d.Reads isLineBreak q)} q :=
  ⟨⟨hleast.1.1, hq⟩, fun _ hr => hleast.2
    ⟨hr.1, hr.2.imp_right fun hreads => .inr ⟨hreads, (absurd · Bool.false_ne_true)⟩⟩⟩

/-- **What is scanned up to a closing character ends on its line.** -/
theorem endsOnLine (h : d.Scanned t m a p rest) (hp : p.char.toNat < 0x80)
    (hclose : close.toNat < 0x80) (hbreak : isLineBreak close = false)
    (hkind : kind ≠ .snippetStart)
    (hscan : m.scan p.char rest = (quotedExtent close false rest).scan kind fault) :
    d.EndsOnLine t close fault := by
  obtain ⟨q, hleast, hcloses⟩ := exists_isLeast_opened hclose h.points_eq hp false
  have hstop : t.span.stop
      = CodePoint.totalWidth (a ++ p :: rest.take (quotedExtent close false rest).size) := by
    rw [h.stop_eq, hscan]
    rfl
  rw [← h.start_eq] at hleast
  rw [← hstop] at hcloses
  cases hclosed : (quotedExtent close false rest).closed with
  | true =>
    rw [hclosed] at hcloses
    obtain ⟨hat, hend⟩ := hcloses
    have hhere := isClosedAt_of_isLeast hbreak hleast hat
    refine ⟨fun r hr => ?_, fun hnone => absurd ⟨q, hhere⟩ hnone⟩
    obtain rfl := hr.1.unique hhere.1
    exact ⟨hend, h.faultless_of_closed hscan hkind hclosed⟩
  | false =>
    rw [hclosed] at hcloses
    obtain ⟨hq, rfl⟩ := hcloses
    exact ⟨fun r hr => absurd hr (not_isClosedAt_of_isLeast hbreak hleast hq r),
      fun _ => ⟨isLeast_isLineBreak hleast hq, h.fault_of_open hscan hclosed⟩⟩

/-! ## Literals of code -/

/-- Whether a suffix that begins at `start`, if one does, ends at `stop`. -/
def EndsSuffix (d : Document) (start stop : Nat) : Prop :=
  (d.Reads isCodeWordStart start → IsLeast {q | start ≤ q ∧ ¬ d.Reads isWordPart q} stop) ∧
    (¬ d.Reads isCodeWordStart start → stop = start)

theorem endsSuffix (h : d.points = a ++ b) :
    d.EndsSuffix (CodePoint.totalWidth a)
      (CodePoint.totalWidth (a ++ b.take (suffixLength b))) := by
  cases b with
  | nil =>
    rw [List.take_nil, List.append_nil]
    rw [List.append_nil] at h
    exact ⟨fun hreads => absurd (totalWidth_eq_length h) (Nat.ne_of_lt hreads.lt_length),
      fun _ => rfl⟩
  | cons p b =>
    rw [EndsSuffix, reads_here h isAscii_isCodeWordStart, suffixLength]
    refine ⟨fun hp => ?_, fun hp => ?_⟩
    · rw [if_pos hp]
      exact isLeast_runLength h isAscii_isWordPart
    · rw [if_neg hp, List.take_zero, List.append_nil]

/-- What is closed may have a suffix. -/
theorem endsSuffix_withSuffix {e : Extent} {body : List CodePoint} (h : d.points = a ++ body)
    (hclosed : e.closed = true) :
    d.EndsSuffix (CodePoint.totalWidth (a ++ body.take e.size))
      (CodePoint.totalWidth (a ++ body.take (e.withSuffix body).size)) := by
  rw [Extent.withSuffix, if_pos hclosed, List.take_add, ← List.append_assoc]
  refine endsSuffix ?_
  rw [h, List.append_assoc, List.take_append_drop]

/-- What is not closed has none. -/
theorem withSuffix_of_open {e : Extent} (h : e.closed = false) (body : List CodePoint) :
    e.withSuffix body = e := if_neg (by simp [h])

/-- Whether a literal whose quote is at `s` stops at `q`: the same quote is there or a line break,
and it is not escaped. -/
def StopsLiteral (d : Document) (s : Nat) (quote : Char) (q : Nat) : Prop :=
  (d.charAt? q = some quote ∨ d.Reads isLineBreak q) ∧ ¬ d.IsEscaped s q

/-- How a literal of code ends whose quote is at `s`: behind the same quote and a suffix, and then
nothing is wrong with it, or in front of a line break, or with the document. -/
structure EndsLiteral (d : Document) (t : Token) (s : Nat) (quote : Char) (fault : LexicalFault) :
    Prop where
  atFirst : ∀ q, IsLeast {q | s < q ∧ d.StopsLiteral s quote q} q →
    (d.charAt? q = some quote → d.EndsSuffix (q + 1) t.span.stop ∧ d.IsFaultless t) ∧
      (d.Reads isLineBreak q → t.span.stop = q ∧ ⟨fault, t.span⟩ ∈ d.lexicalIssues)
  atEnd : (∀ q, s < q → ¬ d.StopsLiteral s quote q) →
    t.span.stop = d.length ∧ ⟨fault, t.span⟩ ∈ d.lexicalIssues

/-- Where line breaks can be escaped, text ends with what stops a literal, or with the document. -/
theorem stopsLiteral_cases (h : IsLeast {q | s < q ∧ d.EndsQuote s quote true q} q) :
    IsLeast {q | s < q ∧ d.StopsLiteral s quote q} q ∨
      q = d.length ∧ ∀ r, s < r → ¬ d.StopsLiteral s quote r := by
  have hiff : ∀ r, d.EndsQuote s quote true r ↔ r = d.length ∨ d.StopsLiteral s quote r :=
    fun r => by simp [EndsQuote, StopsLiteral, or_and_right]
  simp only [hiff] at h
  rcases h.1.2 with hlength | hq
  · refine .inr ⟨hlength, fun r hlt hr => ?_⟩
    have hle : d.length ≤ r := hlength ▸ h.2 ⟨hlt, .inr hr⟩
    rcases hr.1 with hat | hat
    · exact Nat.not_lt_of_le hle (lt_length_of_charAt? hat)
    · exact Nat.not_lt_of_le hle hat.lt_length
  · exact .inl ⟨⟨h.1.1, hq⟩, fun r hr => h.2 ⟨hr.1, .inr hr.2⟩⟩

/-- **What is scanned as a literal ends like one.** -/
theorem endsLiteral {w body : List CodePoint} {x : CodePoint} (h : d.Scanned t m a p rest)
    (hsplit : p :: rest = w ++ x :: body) (hx : x.char.toNat < 0x80)
    (hquote : quote.toNat < 0x80) (hbreak : isLineBreak quote = false)
    (hscan : m.scan p.char rest = scanLiteral w.length quote body) :
    d.EndsLiteral t (CodePoint.totalWidth (a ++ w)) quote (literalFault quote) := by
  have hopened : d.points = (a ++ w) ++ x :: body := by rw [h.points_eq, hsplit, List.append_assoc]
  obtain ⟨q, hleast, hcloses⟩ := exists_isLeast_opened hquote hopened hx true
  rw [scanLiteral_eq] at hscan
  have hstop := h.stop_eq_behind hsplit (by rw [hscan]; exact size_after _ _)
  cases hclosed : (quotedExtent quote true body).closed with
  | true =>
    rw [hclosed] at hcloses
    obtain ⟨hat, hbody⟩ := hcloses
    rcases stopsLiteral_cases hleast with hfirst | ⟨rfl, -⟩
    · have hsuffix : d.EndsSuffix (q + 1) t.span.stop := by
        have hwith := endsSuffix_withSuffix (hopened.trans (List.append_cons _ x body)) hclosed
        rwa [← List.append_cons, ← List.append_cons, hbody, ← hstop] at hwith
      have hfaultless : d.IsFaultless t := by
        refine h.faultless_of_closed hscan (ne_literalKind (by decide) quote).symm ?_
        exact (closed_withSuffix _ body).trans hclosed
      refine ⟨fun r hr => ?_, fun hnone => absurd hfirst.1.2 (hnone q hfirst.1.1)⟩
      obtain rfl := hr.unique hfirst
      exact ⟨fun _ => ⟨hsuffix, hfaultless⟩, (absurd · (not_isLineBreak_of_charAt? hbreak hat))⟩
    · exact absurd (lt_length_of_charAt? hat) (Nat.lt_irrefl _)
  | false =>
    rw [hclosed] at hcloses
    obtain ⟨hq, hbody⟩ := hcloses
    rw [withSuffix_of_open hclosed, hbody] at hstop
    have hissue := h.fault_of_open hscan ((closed_withSuffix _ body).trans hclosed)
    rcases stopsLiteral_cases hleast with hfirst | ⟨rfl, hnone⟩
    · refine ⟨fun r hr => ?_, fun hnone => absurd hfirst.1.2 (hnone q hfirst.1.1)⟩
      obtain rfl := hr.unique hfirst
      refine ⟨fun hat => ?_, fun _ => ⟨hstop, hissue⟩⟩
      rcases hq with rfl | hq
      · exact absurd (lt_length_of_charAt? hat) (Nat.lt_irrefl _)
      · exact absurd hq (not_isLineBreak_of_charAt? hbreak hat)
    · exact ⟨fun r hr => absurd hr.1.2 (hnone r hr.1.1), fun _ => ⟨hstop, hissue⟩⟩

end Document

/-! ## What is scanned as quoted text -/

theorem scanGrammarWord_not_quoted (c : Char) (rest : List CodePoint) :
    (scanGrammarWord c rest).kind ≠ .string ∧ (scanGrammarWord c rest).kind ≠ .characterClass := by
  simp only [scanGrammarWord, Scan.plain]
  unfold grammarWordKind
  split <;> decide

/-- Strings and character classes of grammar text are what begins like one. -/
theorem opening_of_scanGrammar {c : Char} {rest : List CodePoint} :
    ((scanGrammar c rest).kind = .string → c = '"') ∧
      ((scanGrammar c rest).kind = .characterClass → c = '[') := by
  unfold scanGrammar
  split
  · exact ⟨nofun, nofun⟩
  · split
    · have hword := scanGrammarWord_not_quoted c rest
      exact ⟨(absurd · hword.1), (absurd · hword.2)⟩
    · split
      · cases hcomment : scanComment? .blockComment .lineComment rest with
        | none => exact ⟨nofun, nofun⟩
        | some s =>
          rw [Option.getD_some]
          rcases kind_scanComment? hcomment with hkind | hkind <;> rw [hkind] <;>
            exact ⟨nofun, nofun⟩
      · exact ⟨fun _ => rfl, nofun⟩
      · exact ⟨nofun, fun _ => rfl⟩
      · exact ⟨nofun, nofun⟩
      · split <;> exact ⟨nofun, nofun⟩
      · split
        · rename_i kind hkind
          have hall : ∀ k ∈ operatorKinds, k ≠ .string ∧ k ≠ .characterClass := by decide
          have hoperator := hall kind (kind_of_operatorKind? hkind).1
          exact ⟨(absurd · hoperator.1), (absurd · hoperator.2)⟩
        · exact ⟨nofun, nofun⟩

/-- The words that say how a literal is encoded. -/
def literalMarks : List String := ["u", "U", "u8", "L"]

theorem mem_encodingMarks_iff {word : String} : word ∈ encodingMarks ↔ word ∈ literalMarks :=
  Iff.rfl

/-- What may stand in front of the quote of a literal: nothing or how it is encoded, and for strings
also a word that ends in `R`. -/
def IsLiteralPrefix (quote : Char) (word : String) : Prop :=
  word = "" ∨ word ∈ literalMarks ∨ quote = '"' ∧ word.toList.getLast? = some 'R'

/-- Text in which a literal is found: its prefix, its quote and what follows. -/
def HasLiteral (quote : Char) (points : List CodePoint) (s : Scan) : Prop :=
  ∃ w x body, points = w ++ x :: body ∧ x.char = quote ∧ IsLiteralPrefix quote (spell w) ∧
    s = scanLiteral w.length quote body

theorem exists_of_beginsWith {c : Char} {points : List CodePoint}
    (h : beginsWith c points = true) : ∃ x, points = x :: points.tail ∧ x.char = c := by
  cases points with
  | nil => exact nomatch h
  | cons x points => exact ⟨x, rfl, beq_iff_eq.1 h⟩

section Code

variable {quote c : Char} {p : CodePoint} {rest : List CodePoint}

/-- Literals are told apart by their quotes. -/
theorem eq_of_kind_scanLiteral (hc : c = '"' ∨ c = '\'') (hquote : quote = '"' ∨ quote = '\'')
    {before : Nat} {body : List CodePoint}
    (h : (scanLiteral before c body).kind = literalKind quote) : c = quote := by
  rw [scanLiteral_eq] at h
  rcases hc with rfl | rfl <;> rcases hquote with rfl | rfl <;> first | rfl | exact nomatch h

/-- **A word is just a word, or it is the prefix of a literal, or of a raw string.** -/
theorem scanCodeWord_cases (line : LineState) (p : CodePoint) (rest : List CodePoint) :
    let more := runLength isWordPart rest
    let word := spell (p :: rest.take more)
    let behind := rest.drop more
    (∃ k, (k = .codeKeyword ∨ k = .codeIdentifier) ∧
        scanCodeWord line p.char rest = .plain k more) ∨
      (∃ c, (c = '"' ∨ c = '\'') ∧ beginsWith c behind = true ∧ word ∈ encodingMarks ∧
        scanCodeWord line p.char rest = scanLiteral (more + 1) c behind.tail) ∨
      (beginsWith '"' behind = true ∧ word.toList.getLast? = some 'R' ∧
        scanCodeWord line p.char rest = scanRawLiteral (more + 1) behind.tail) := by
  intro more word behind
  have hplain : ∀ afterPound, codeWordKind afterPound word = .codeKeyword ∨
      codeWordKind afterPound word = .codeIdentifier := (kind_codeWordKind · word)
  rw [scanCodeWord]
  split
  · exact .inl ⟨_, hplain true, rfl⟩
  · split
    · rename_i h
      rw [Bool.and_eq_true, List.contains_iff_mem] at h
      exact .inr (.inl ⟨'\'', .inr rfl, h.1, h.2, rfl⟩)
    · split
      · rename_i h
        rw [Bool.and_eq_true, List.contains_iff_mem] at h
        exact .inr (.inl ⟨'"', .inl rfl, h.1, h.2, rfl⟩)
      · split
        · rename_i h
          rw [Bool.and_eq_true, beq_iff_eq] at h
          refine .inr (.inr ⟨h.1, ?_, rfl⟩)
          rw [show word.toList = _ from String.toList_ofList]
          exact h.2
        · exact .inl ⟨_, hplain false, rfl⟩

/-- A word is cut off in front of a quote. -/
theorem exists_word_split
    (hquote : beginsWith quote (rest.drop (runLength isWordPart rest)) = true) :
    ∃ w x body, p :: rest = w ++ x :: body ∧ x.char = quote ∧
      w = p :: rest.take (runLength isWordPart rest) ∧ w.length = runLength isWordPart rest + 1 ∧
      body = (rest.drop (runLength isWordPart rest)).tail := by
  obtain ⟨x, hx, hchar⟩ := exists_of_beginsWith hquote
  refine ⟨_, x, _, ?_, hchar, rfl, ?_, rfl⟩
  · rw [List.cons_append, ← hx, List.take_append_drop]
  · rw [List.length_cons, List.length_take, Nat.min_eq_left (runLength_le _ _)]

/-- A word in front of a quote is the prefix of a literal. -/
theorem hasLiteral_of_word
    (hquote : beginsWith quote (rest.drop (runLength isWordPart rest)) = true)
    (hword : IsLiteralPrefix quote (spell (p :: rest.take (runLength isWordPart rest)))) :
    HasLiteral quote (p :: rest) (scanLiteral (runLength isWordPart rest + 1) quote
      (rest.drop (runLength isWordPart rest)).tail) := by
  obtain ⟨w, x, body, hsplit, hchar, rfl, hlength, rfl⟩ := exists_word_split (p := p) hquote
  exact ⟨_, x, _, hsplit, hchar, hword, by rw [hlength]⟩

theorem hasLiteral_scanCodeWord (hquote : quote = '"' ∨ quote = '\'') {line : LineState}
    (h : (scanCodeWord line p.char rest).kind = literalKind quote) :
    HasLiteral quote (p :: rest) (scanCodeWord line p.char rest) := by
  rcases scanCodeWord_cases line p rest with
    ⟨k, hk, hscan⟩ | ⟨c, hc, hbegins, hmark, hscan⟩ | ⟨hbegins, hlast, hscan⟩ <;> rw [hscan] at h ⊢
  · rcases hk with rfl | rfl
    · exact absurd h (ne_literalKind (k := .codeKeyword) (by decide) quote)
    · exact absurd h (ne_literalKind (k := .codeIdentifier) (by decide) quote)
  · obtain rfl := eq_of_kind_scanLiteral hc hquote h
    exact hasLiteral_of_word hbegins (.inr (.inl (mem_encodingMarks_iff.1 hmark)))
  · rw [scanRawLiteral] at h ⊢
    split
    · rename_i hparen
      rw [if_pos hparen] at h
      exact absurd h (ne_literalKind (k := .codeRawString) (by decide) quote)
    · rename_i hparen
      rw [if_neg hparen] at h
      obtain rfl := eq_of_kind_scanLiteral (.inl rfl) hquote h
      exact hasLiteral_of_word hbegins (.inr (.inr ⟨rfl, hlast⟩))

/-- Of the signs, quotes begin literals, and nothing else does. -/
theorem scanCode_of_sign {nesting : Nat} {line : LineState} (hspace : isCodeSpace c = false)
    (hheader : ¬ OpensHeader line c) (hword : isCodeWordStart c = false) :
    (c = '"' ∨ c = '\'') ∧ scanCode nesting line c rest = scanLiteral 0 c rest ∨
      (scanCode nesting line c rest).kind ∉ [.codeChar, .codeString] := by
  have hpunctuator : (scanPunctuator c rest).kind ∉ [.codeChar, .codeString] := by
    rcases kind_scanPunctuator c rest with h | h <;> rw [h] <;> decide
  rw [OpensHeader] at hheader
  unfold scanCode
  rw [if_neg (by simp [hspace]), if_neg hheader, if_neg (by simp [hword])]
  split
  · exact .inr (show TokenKind.codeNumber ∉ _ by decide)
  · split
    · refine .inr ?_
      cases h : scanComment? .codeBlockComment .codeLineComment rest with
      | none => exact hpunctuator
      | some s =>
        rw [Option.getD_some]
        rcases kind_scanComment? h with h | h <;> rw [h] <;> decide
    · exact .inl ⟨.inr rfl, rfl⟩
    · exact .inl ⟨.inl rfl, rfl⟩
    · refine .inr ?_
      rcases kind_scanSubstitution rest with h | h <;> rw [h] <;> decide
    · refine .inr ?_
      split <;> decide
    · exact .inr hpunctuator

/-- **Literals of code are what has a quote**, with a prefix or without. -/
theorem hasLiteral_scanCode (hquote : quote = '"' ∨ quote = '\'') {nesting : Nat}
    {line : LineState} (h : (scanCode nesting line p.char rest).kind = literalKind quote) :
    HasLiteral quote (p :: rest) (scanCode nesting line p.char rest) := by
  cases hspace : isCodeSpace p.char with
  | true =>
    rw [scanCode_of_space hspace] at h
    exact absurd h (ne_literalKind (k := .whitespace) (by decide) quote)
  | false =>
    by_cases hheader : OpensHeader line p.char
    · rw [scanCode_of_header hheader] at h
      exact absurd h (ne_literalKind (k := .codeHeaderName) (by decide) quote)
    · cases hword : isCodeWordStart p.char with
      | true =>
        rw [scanCode_of_word hspace hheader hword] at h ⊢
        exact hasLiteral_scanCodeWord hquote h
      | false =>
        rcases scanCode_of_sign hspace hheader hword with ⟨hchar, hscan⟩ | hkind
        · rw [hscan] at h ⊢
          obtain rfl := eq_of_kind_scanLiteral hchar hquote h
          exact ⟨[], p, rest, rfl, rfl, .inl rfl, rfl⟩
        · exact absurd h (ne_literalKind hkind quote)

end Code

/-! ## Tokens -/

namespace Document

/-- A token that is a literal of code: its quote is behind its prefix, if it has one, and it ends as
what has its quote there. -/
def IsLiteral (d : Document) (t : Token) (quote : Char) (fault : LexicalFault) : Prop :=
  ∃ s, t.span.start ≤ s ∧ IsLiteralPrefix quote (d.text ⟨t.span.start, s⟩) ∧
    d.charAt? s = some quote ∧ d.EndsLiteral t s quote fault

/-- How quoted tokens end. -/
structure EndsQuoted (d : Document) : Prop where
  string : ∀ t ∈ d.tokens, t.kind = .string →
    d.charAt? t.span.start = some '"' ∧ d.EndsOnLine t '"' .unclosedString
  characterClass : ∀ t ∈ d.tokens, t.kind = .characterClass →
    d.charAt? t.span.start = some '[' ∧ d.EndsOnLine t ']' .unclosedCharacterClass
  codeString : ∀ t ∈ d.tokens, t.kind = .codeString → d.IsLiteral t '"' .unclosedCodeString
  codeChar : ∀ t ∈ d.tokens, t.kind = .codeChar → d.IsLiteral t '\'' .unclosedCodeChar

variable {d : Document} {t : Token}

/-- What does not belong inside a snippet comes from grammar text. -/
theorem exists_scanned_grammar (h : t ∈ d.tokens) (hkind : t.kind ≠ .endOfFile)
    (hspace : t.kind ≠ .whitespace) (hcode : t.kind.isCode = false) :
    ∃ a p rest, d.Scanned t .grammar a p rest := by
  obtain ⟨before, after, hsplit⟩ := List.append_of_mem h
  obtain ⟨m, a, p, rest, hscanned, -⟩ := exists_scanned hsplit hkind
  cases m with
  | grammar => exact ⟨a, p, rest, hscanned⟩
  | snippet nesting line =>
    rcases kind_scanCode nesting line p.char rest with hk | hk
    · exact absurd (hscanned.kind_eq.trans hk) hspace
    · exact absurd (hcode.symm.trans ((congrArg _ hscanned.kind_eq).trans hk)) nofun

/-- What belongs inside a snippet comes from a snippet. -/
theorem exists_scanned_code {before after : List Token} (h : d.tokens = before ++ t :: after)
    (hcode : t.kind.isCode = true) : ∃ nesting line a p rest,
      d.Scanned t (.snippet nesting line) a p rest ∧
        (Mode.snippet nesting line).Remembers (before.map d.sight).reverse := by
  obtain ⟨m, a, p, rest, hscanned, hremembers⟩ := exists_scanned h fun hend => by
    rw [hend] at hcode
    exact nomatch hcode
  cases m with
  | grammar =>
    rw [hscanned.kind_eq] at hcode
    exact absurd ((kind_scanGrammar p.char rest).1.symm.trans hcode) nofun
  | snippet nesting line => exact ⟨nesting, line, a, p, rest, hscanned, hremembers⟩

theorem isLiteral {quote : Char} (hquote : quote = '"' ∨ quote = '\'') (h : t ∈ d.tokens)
    (hkind : t.kind = literalKind quote) : d.IsLiteral t quote (literalFault quote) := by
  obtain ⟨before, after, hsplit⟩ := List.append_of_mem h
  have hcode : t.kind.isCode = true := by
    rw [hkind]
    rcases hquote with rfl | rfl <;> rfl
  obtain ⟨nesting, line, a, p, rest, hscanned, -⟩ := exists_scanned_code hsplit hcode
  obtain ⟨w, x, body, hpoints, rfl, hprefix, hscan⟩ :=
    hasLiteral_scanCode hquote (hscanned.kind_eq.symm.trans hkind)
  have hascii : x.char.toNat < 0x80 := by rcases hquote with hx | hx <;> rw [hx] <;> decide
  have hbreak : isLineBreak x.char = false := by
    rcases hquote with hx | hx <;> rw [hx] <;> decide
  have hword : d.points = a ++ w ++ x :: body := by
    rw [hscanned.points_eq, hpoints, List.append_assoc]
  refine ⟨CodePoint.totalWidth (a ++ w), ?_, ?_, ?_,
    endsLiteral hscanned hpoints hascii hascii hbreak hscan⟩
  · rw [hscanned.start_eq, CodePoint.totalWidth_append]
    exact Nat.le_add_right _ _
  · rw [hscanned.start_eq, CodePoint.totalWidth_append, text_eq_spell hword]
    exact hprefix
  · exact (charAt?_here hword hascii).2 rfl

/-- A token of a kind of which all are opened by one character and scanned up to another. -/
theorem endsOnLine_of_kind {opening close : Char} {kind : TokenKind} {fault : LexicalFault}
    (h : t ∈ d.tokens) (hkind : t.kind = kind)
    (hnot : kind ∉ [.endOfFile, .whitespace, .snippetStart] ∧ kind.isCode = false)
    (hascii : opening.toNat < 0x80 ∧ close.toNat < 0x80 ∧ isLineBreak close = false)
    (hopening : ∀ c rest, (scanGrammar c rest).kind = kind → c = opening)
    (hscan : ∀ rest, scanGrammar opening rest = (quotedExtent close false rest).scan kind fault) :
    d.charAt? t.span.start = some opening ∧ d.EndsOnLine t close fault := by
  subst hkind
  simp only [List.mem_cons, List.not_mem_nil, or_false, not_or] at hnot
  obtain ⟨⟨hend, hspace, hstart⟩, hcode⟩ := hnot
  obtain ⟨a, p, rest, hscanned⟩ := exists_scanned_grammar h hend hspace hcode
  obtain rfl := hopening _ _ hscanned.kind_eq.symm
  refine ⟨?_, endsOnLine hscanned hascii.1 hascii.2.1 hascii.2.2 hstart (hscan rest)⟩
  rw [hscanned.start_eq]
  exact (charAt?_here hscanned.points_eq hascii.1).2 rfl

end Document
end GrammarPaint
