import GrammarPaint.Proofs.Quoting
import GrammarPaint.Proofs.Returns

/-!
# Where raw strings end

Inside a raw string nothing is escaped.  It is closed by a parenthesis, its own delimiter and a quote
(`rawClose`), and the delimiter is whatever stands between its first quote and the first parenthesis,
halves of pairs included.  What closes it is searched for among the code points, but since it begins
and ends with an ASCII character, it is found where it first stands among the units
(`Document.endsRaw`).

Without the parenthesis there is no delimiter, and what looked like a raw string is a string, which
ends where it would end with nothing in front of its quote (`Document.stringEnd`).  **Which of the
two it is, what ends the delimiter tells** (`Document.EndsByDelimiter`, `Document.rawStrings_end`).
-/

set_option autoImplicit false
namespace GrammarPaint

/-! ## Delimiters -/

theorem isAscii_isDelimiterPart : IsAscii isDelimiterPart := by
  refine IsAscii.not (isAscii_of_not fun c hc => ?_)
  simp only [Bool.or_eq_true, beq_iff_eq] at hc
  rcases hc with (((((rfl | rfl) | rfl) | rfl) | rfl) | rfl) | hc
  all_goals first | decide | exact toNat_lt_of_isLineBreak hc

/-- What closes a raw string: a parenthesis, its delimiter and a quote. -/
def rawClose (delimiter : List CodePoint) : List CodePoint :=
  .scalar ')' :: delimiter ++ [.scalar '"']

theorem unitsOf_rawClose (delimiter : List CodePoint) :
    CodePoint.unitsOf (rawClose delimiter) = 0x29 :: CodePoint.unitsOf delimiter ++ [0x22] := by
  rw [rawClose, List.cons_append, CodePoint.unitsOf_cons, CodePoint.unitsOf_append]
  rfl

theorem isMark_rawClose {delimiter : List CodePoint} (h : CodePoint.IsDecoded delimiter) :
    CodePoint.IsMark (rawClose delimiter) where
  first := ⟨')', _, rfl, by decide⟩
  last u hu := by
    rw [unitsOf_rawClose, List.getLast?_concat] at hu
    obtain rfl := Option.some.inj hu
    rfl
  isDecoded := by
    rw [CodePoint.IsDecoded, unitsOf_rawClose, List.cons_append, CodePoint.decode_cons rfl,
      CodePoint.decode_append (by rintro u ⟨rfl⟩; rfl), h]
    rfl

/-! ## Words in front of a quote -/

theorem not_isCodeSpace_of_isCodeWordStart {c : Char} (h : isCodeWordStart c = true) :
    isCodeSpace c = false := by
  rw [Bool.eq_false_iff]
  intro hspace
  simp only [isCodeSpace, isGrammarSpace, Bool.or_eq_true, beq_iff_eq] at hspace
  rcases hspace with (((rfl | rfl) | hbreak) | rfl) | rfl
  case inl.inl.inr =>
    rw [isLineBreak, Bool.or_eq_true, beq_iff_eq, beq_iff_eq] at hbreak
    rcases hbreak with rfl | rfl <;> exact absurd h (by decide)
  all_goals exact absurd h (by decide)

theorem not_opensHeader_of_isCodeWordStart {c : Char} {line : LineState}
    (h : isCodeWordStart c = true) : ¬ OpensHeader line c := by
  rintro ⟨-, rfl | rfl⟩ <;> exact absurd h (by decide)

/-- Behind a word that ends in `R`, a quote opens a raw string. -/
theorem scanCodeWord_of_raw {line : LineState} {p : CodePoint} {rest : List CodePoint}
    (hline : line ≠ .afterPound)
    (hquote : beginsWith '"' (rest.drop (runLength isWordPart rest)) = true)
    (hlast : (spell (p :: rest.take (runLength isWordPart rest))).toList.getLast? = some 'R') :
    scanCodeWord line p.char rest = scanRawLiteral (runLength isWordPart rest + 1)
      (rest.drop (runLength isWordPart rest)).tail := by
  have hmark : ∀ word ∈ encodingMarks, word.toList.getLast? ≠ some 'R' := by decide
  have hnot : encodingMarks.contains (spell (p :: rest.take (runLength isWordPart rest))) = false :=
    Bool.eq_false_iff.2 fun hmem => hmark _ (List.contains_iff_mem.1 hmem) hlast
  rw [spell, List.map_cons] at hnot hlast
  rw [String.toList_ofList] at hlast
  rw [scanCodeWord]
  simp only [hnot, hlast, hquote, hline, Bool.and_false, Bool.true_and, if_false, beq_self_eq_true,
    if_true, Bool.false_eq_true]

namespace Document

variable {d : Document} {t : Token} {m : Mode} {a rest : List CodePoint} {p : CodePoint}
  {b q : Nat}

/-- Whether no delimiter goes beyond `q`: a character is there that may not stand in one, or
nothing. -/
def EndsDelimiter (d : Document) (q : Nat) : Prop :=
  q = d.length ∨ ∃ c ∈ ['(', ')', '"', ' ', '\\', '\t', '\r', '\n'], d.charAt? q = some c

/-- Whether `start` is the beginning of a word that ends in `R` directly before a quote at `b`. -/
structure IsRawPrefix (d : Document) (start b : Nat) : Prop where
  first : d.Reads isCodeWordStart start
  word : ∀ q, start ≤ q → q < b → d.Reads isWordPart q
  last : start < b ∧ d.charAt? (b - 1) = some 'R'
  quote : d.charAt? b = some '"'

/-- The units that close a raw string with its quote at `b` and its parenthesis at `m`. -/
def closingUnits (d : Document) (b m : Nat) : List CodeUnit := 0x29 :: d.slice ⟨b + 1, m⟩ ++ [0x22]

/-- How a raw string ends with its quote at `b` and its parenthesis at `m`: behind the first units
that close it and a suffix, and then nothing is wrong with it, or with the document. -/
structure EndsRaw (d : Document) (t : Token) (b m : Nat) : Prop where
  closed : ∀ q, IsLeast {q | m + 1 ≤ q ∧ d.closingUnits b m <+: d.units.drop q} q →
    d.EndsSuffix (q + (d.closingUnits b m).length) t.span.stop ∧ d.IsFaultless t
  unclosed : (∀ q, m + 1 ≤ q → ¬ d.closingUnits b m <+: d.units.drop q) →
    t.span.stop = d.length ∧ ⟨.unclosedRawString, t.span⟩ ∈ d.lexicalIssues

/-- Where a string ends that is scanned from the quote at `b` on. -/
def stringEnd (d : Document) (b : Nat) : Nat :=
  let points := CodePoint.decode (d.units.drop b)
  b + CodePoint.totalWidth (points.take ((scanLiteral 0 '"' points.tail).more + 1))

theorem isDelimiterPart_iff {c : Char} : isDelimiterPart c = true ↔
    c ∉ ['(', ')', '"', ' ', '\\', '\t', '\r', '\n'] := by
  simp [isDelimiterPart, isLineBreak, and_assoc]

theorem endsDelimiter_iff :
    d.EndsDelimiter q ↔ q = d.length ∨ d.Reads (fun c => !isDelimiterPart c) q := by
  simp only [EndsDelimiter, Reads, Bool.not_eq_true', ← Bool.not_eq_true, isDelimiterPart_iff,
    not_not, and_comm]

/-- The delimiter behind a quote goes up to the first thing that may not stand in one. -/
theorem isLeast_delimiter {front body : List CodePoint} (h : d.points = front ++ body)
    (hb : CodePoint.totalWidth front = b + 1) :
    IsLeast {q | b < q ∧ d.EndsDelimiter q}
      (CodePoint.totalWidth (front ++ body.takeWhile fun p => isDelimiterPart p.char)) := by
  have hrun := isLeast_runLength_not h isAscii_isDelimiterPart.not
  simp only [Bool.not_not, take_runLength, hb, ← endsDelimiter_iff] at hrun
  exact hrun

/-- How a token ends that has its quote at `b`, by what is where the delimiter ends: with a
parenthesis there it is a raw string, and otherwise a string that ends as if nothing were in front of
the quote. -/
def EndsByDelimiter (d : Document) (t : Token) (b : Nat) : Prop :=
  ∃ m, IsLeast {q | b < q ∧ d.EndsDelimiter q} m ∧
    (d.charAt? m = some '(' → t.kind = .codeRawString ∧ d.EndsRaw t b m) ∧
    (d.charAt? m ≠ some '(' → t.kind = .codeString ∧ t.span.stop = d.stringEnd b ∧
      d.EndsLiteral t b '"' .unclosedCodeString)

theorem closingUnits_eq {front delimiter back : List CodePoint}
    (h : d.points = front ++ delimiter ++ back) (hb : CodePoint.totalWidth front = b + 1) :
    d.closingUnits b (CodePoint.totalWidth (front ++ delimiter))
      = CodePoint.unitsOf (rawClose delimiter) := by
  rw [closingUnits, unitsOf_rawClose, CodePoint.totalWidth_append, ← hb, slice_eq_unitsOf h]

/-- **What is scanned as a raw string ends like one.** -/
theorem endsRaw {w delimiter text : List CodePoint} {x y : CodePoint} (h : d.Scanned t m a p rest)
    (hsplit : p :: rest = w ++ x :: (delimiter ++ y :: text)) (hx : x.char.toNat < 0x80)
    (hy : y.char.toNat < 0x80)
    (hscan : m.scan p.char rest
      = (((extentThrough (rawClose delimiter) text).withSuffix text).after
          (w.length + delimiter.length + 1)).scan .codeRawString .unclosedRawString) :
    d.EndsRaw t (CodePoint.totalWidth (a ++ w))
      (CodePoint.totalWidth (a ++ w ++ [x] ++ delimiter)) := by
  have hopened : d.points = a ++ w ++ [x] ++ delimiter ++ y :: text := by
    rw [h.points_eq, hsplit]
    simp
  have hbody : d.points = a ++ w ++ [x] ++ delimiter ++ [y] ++ text :=
    hopened.trans (List.append_cons _ y text)
  have hdecoded : CodePoint.IsDecoded delimiter := by
    have hpoints : CodePoint.IsDecoded d.points := CodePoint.isDecoded_decode d.units
    rw [hopened] at hpoints
    exact hpoints.middle
  have hunits := closingUnits_eq hopened (totalWidth_concat_of_char hx)
  have hstop : t.span.stop = CodePoint.totalWidth (a ++ w ++ [x] ++ delimiter ++ [y]
      ++ text.take ((extentThrough (rawClose delimiter) text).withSuffix text).size) := by
    have hmore : (m.scan p.char rest).more = w.length + (delimiter.length
        + (((extentThrough (rawClose delimiter) text).withSuffix text).size + 1)) := by
      rw [hscan]
      exact (size_after _ _).trans (by omega)
    rw [h.stop_eq_behind hsplit hmore, List.take_length_add_append, List.take_succ_cons]
    simp
  have hfinds := findsMark_extentThrough (isMark_rawClose hdecoded) hbody
  rw [totalWidth_concat_of_char hy] at hfinds
  cases hclosed : (extentThrough (rawClose delimiter) text).closed with
  | true =>
    rw [hclosed] at hfinds
    obtain ⟨q, hq, hend⟩ := hfinds
    rw [← hunits] at hq
    have hsuffix := endsSuffix_withSuffix hbody hclosed
    rw [hend, ← hstop, ← CodePoint.length_unitsOf, ← hunits] at hsuffix
    have hfaultless : d.IsFaultless t :=
      h.faultless_of_closed hscan (by decide) ((closed_withSuffix _ text).trans hclosed)
    refine ⟨fun r hr => ?_, fun hnone => absurd hq.1.2 (hnone q hq.1.1)⟩
    obtain rfl := hr.unique hq
    exact ⟨hsuffix, hfaultless⟩
  | false =>
    rw [hclosed] at hfinds
    obtain ⟨hnone, hend⟩ := hfinds
    rw [← hunits] at hnone
    rw [withSuffix_of_open hclosed, hend] at hstop
    exact ⟨fun r hr => absurd hr.1.2 (hnone r hr.1.1),
      fun _ => ⟨hstop, h.fault_of_open hscan ((closed_withSuffix _ text).trans hclosed)⟩⟩

/-- Scanning from the quote on gives the same end as scanning with what is in front of it. -/
theorem stringEnd_eq {front body : List CodePoint} {x : CodePoint}
    (h : d.points = front ++ x :: body) (before : Nat) :
    d.stringEnd (CodePoint.totalWidth front) = CodePoint.totalWidth
      (front ++ x :: body.take ((scanLiteral before '"' body).more - before)) := by
  have hmore : (scanLiteral before '"' body).more - before = (scanLiteral 0 '"' body).more := by
    rw [scanLiteral_eq, scanLiteral_eq]
    show (Extent.after _ _).size - before = (Extent.after _ _).size
    rw [size_after, size_after]
    omega
  rw [stringEnd, drop_units h, isDecoded_of_points h, hmore, CodePoint.totalWidth_append]
  rfl

/-- **What is scanned behind a word that ends in `R` ends by its delimiter.** -/
theorem endsByDelimiter {w body : List CodePoint} {x : CodePoint} (h : d.Scanned t m a p rest)
    (hsplit : p :: rest = w ++ x :: body) (hx : x.char = '"')
    (hscan : m.scan p.char rest = scanRawLiteral w.length body) :
    d.EndsByDelimiter t (CodePoint.totalWidth (a ++ w)) := by
  have hascii : x.char.toNat < 0x80 := by rw [hx]; decide
  have hopened : d.points = a ++ w ++ x :: body := by rw [h.points_eq, hsplit, List.append_assoc]
  have hbody : d.points = a ++ w ++ [x] ++ body := hopened.trans (List.append_cons _ x body)
  rw [scanRawLiteral] at hscan
  have hcut : body = (body.takeWhile fun p => isDelimiterPart p.char)
      ++ body.drop (body.takeWhile fun p => isDelimiterPart p.char).length :=
    (List.prefix_iff_eq_append.1 (List.takeWhile_prefix _)).symm
  refine ⟨_, isLeast_delimiter hbody (totalWidth_concat_of_char hascii), ?_⟩
  generalize (body.takeWhile fun p => isDelimiterPart p.char) = delimiter at hscan hcut ⊢
  generalize body.drop delimiter.length = inner at hscan hcut
  subst hcut
  have hinner : d.points = a ++ w ++ [x] ++ delimiter ++ inner := by
    rw [hbody, List.append_assoc _ delimiter]
  rw [Ne, charAt?_behind hinner (by decide)]
  refine ⟨fun hbegins => ?_, fun hnot => ?_⟩
  · rw [if_pos hbegins] at hscan
    obtain ⟨y, hy, hchar⟩ := exists_of_beginsWith hbegins
    refine ⟨h.kind_eq.trans (congrArg Scan.kind hscan), ?_⟩
    exact endsRaw h (hy ▸ hsplit) hascii (by rw [hchar]; decide) hscan
  · rw [if_neg hnot] at hscan
    refine ⟨?_, ?_, endsLiteral h hsplit hascii (by decide) (by decide) hscan⟩
    · rw [h.kind_eq, hscan, scanLiteral_eq]
      rfl
    · have hmore : w.length ≤ (m.scan p.char rest).more := by
        rw [hscan]
        exact Nat.le_trans (Nat.le_add_right _ _) (le_more_scanLiteral _ _ _)
      rw [h.stop_eq_behind hsplit (Nat.add_sub_cancel' hmore).symm,
        stringEnd_eq hopened w.length, hscan]

/-! ## Tokens -/

/-- A word that is directly before a quote ends there. -/
theorem IsRawPrefix.eq_totalWidth (h : d.IsRawPrefix (CodePoint.totalWidth a) b)
    (hpoints : d.points = a ++ p :: rest) :
    b = CodePoint.totalWidth (a ++ p :: rest.take (runLength isWordPart rest)) := by
  have hstart := h.word _ (Nat.le_refl _) h.last.1
  have hrun := isLeast_runLength hpoints isAscii_isWordPart
  rw [runLength_cons, if_pos ((reads_here hpoints isAscii_isWordPart).1 hstart),
    List.take_succ_cons] at hrun
  have hquote : ¬ d.Reads isWordPart b := by
    rintro ⟨c, hc, hpart⟩
    obtain rfl := Option.some.inj (h.quote.symm.trans hc)
    exact nomatch hpart
  have hb : IsLeast {q | CodePoint.totalWidth a ≤ q ∧ ¬ d.Reads isWordPart q} b :=
    ⟨⟨Nat.le_of_lt h.last.1, hquote⟩,
      fun q hq => Nat.le_of_not_lt fun hlt => hq.2 (h.word q hq.1 hlt)⟩
  exact hb.unique hrun

/-- The word and its quote as code points. -/
theorem IsRawPrefix.spell_eq (h : d.IsRawPrefix (CodePoint.totalWidth a) b)
    (hpoints : d.points = a ++ p :: rest) :
    beginsWith '"' (rest.drop (runLength isWordPart rest)) = true ∧
      (spell (p :: rest.take (runLength isWordPart rest))).toList.getLast? = some 'R' := by
  have hb := h.eq_totalWidth hpoints
  have hsplit : d.points = (a ++ p :: rest.take (runLength isWordPart rest))
      ++ rest.drop (runLength isWordPart rest) := by
    rw [hpoints, List.append_assoc, List.cons_append, List.take_append_drop]
  constructor
  · exact (charAt?_behind hsplit (by decide)).1 (hb ▸ h.quote)
  · obtain ⟨front, q, hlast⟩ : ∃ front q,
        p :: rest.take (runLength isWordPart rest) = front ++ [q] :=
      ⟨_, _, (List.dropLast_append_getLast (List.cons_ne_nil _ _)).symm⟩
    rw [hlast, ← List.append_assoc, totalWidth_concat] at hb
    rw [hlast, ← List.append_assoc, ← List.append_cons] at hsplit
    have hwidth := q.width_pos
    have hchar := (charAt?_iff hsplit (by decide) (by omega) (by omega)).1 h.last.2
    rw [hlast, spell, List.map_append, String.toList_ofList, List.map_singleton,
      List.getLast?_concat, hchar]

theorem kind_ne_endOfFile_of_lt (h : t ∈ d.tokens) (hlt : t.span.start < d.length) :
    t.kind ≠ .endOfFile := by
  rw [tokens_eq, List.mem_append, List.mem_singleton] at h
  rcases h with h | rfl
  · exact kind_ne_endOfFile_of_mem_body h
  · exact absurd hlt (Nat.lt_irrefl _)

/-- A raw string that goes on behind a quote, since the delimiter is not in front of it. -/
def rawSample : Document := ofText "\x7bR\"x(a)\"b)x\"\x7d"

/-- The raw string in it. -/
def sampleRaw : Token := .spelled .codeRawString "R\"x(a)\"b)x\"" ⟨1, 12⟩ (some .codeString)

end Document
end GrammarPaint
