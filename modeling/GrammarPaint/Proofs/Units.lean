import Mathlib.Order.Bounds.Basic
import GrammarPaint.Proofs.Directives
import GrammarPaint.Proofs.Reporting

/-!
# Reading a document by its units

Scans go through code points, and say where something ends by how many of them belong to it.  A
document is read by offset, unit after unit, and half of a pair of surrogates reads as U+FFFD
(`Document.charAt?`).  Both see the same where it matters:

* a class that tells only ASCII characters apart (`IsAscii`) holds of every unit of a code point or
  of none (`Document.reads_iff`);
* so a run of code points of such a class is a run of units (`Document.isLeast_runLength`).

Every token comes from a scan at the place where it starts.  `Document.Scanned` says what there is
to know about the two: the kind, where the token stops, and what is wrong with it.
-/

set_option autoImplicit false
namespace GrammarPaint

/-! ## Classes of ASCII characters -/

/-- A class of characters to which all beyond ASCII belong, or none of them. -/
def IsAscii (f : Char → Bool) : Prop := ∀ c, 0x80 ≤ c.toNat → f c = f '\uFFFD'

theorem isAscii_of_not {f : Char → Bool} (h : ∀ c, f c = true → c.toNat < 0x80) : IsAscii f := by
  have hfalse : ∀ c, 0x80 ≤ c.toNat → f c = false := fun c hc =>
    Bool.eq_false_iff.2 fun hf => Nat.not_lt.2 hc (h c hf)
  intro c hc
  rw [hfalse c hc, hfalse _ (by decide)]

theorem IsAscii.not {f : Char → Bool} (h : IsAscii f) : IsAscii fun c => !f c :=
  fun c hc => congrArg (!·) (h c hc)

theorem isAscii_beq {c : Char} (h : c.toNat < 0x80) : IsAscii (· == c) :=
  isAscii_of_not fun _ hd => beq_iff_eq.1 hd ▸ h

theorem toNat_lt_of_isLineBreak {c : Char} (h : isLineBreak c = true) : c.toNat < 0x80 := by
  rw [isLineBreak, Bool.or_eq_true, beq_iff_eq, beq_iff_eq] at h
  rcases h with rfl | rfl <;> decide

theorem isAscii_isLineBreak : IsAscii isLineBreak := isAscii_of_not fun _ => toNat_lt_of_isLineBreak

theorem toNat_lt_of_isAlphanum {c : Char} (h : c.isAlphanum = true) : c.toNat < 0x80 := by
  have hupper (h : c.isUpper = true) : c ≤ 'Z' := (of_decide_eq_true h).2
  have hlower (h : c.isLower = true) : c ≤ 'z' := of_decide_eq_true (Bool.and_eq_true_iff.1 h).2
  have hdigit (h : c.isDigit = true) : c ≤ '9' := of_decide_eq_true (Bool.and_eq_true_iff.1 h).2
  have hbound {e : Char} (he : e.toNat < 0x80) (h : c ≤ e) : c.toNat < 0x80 :=
    Nat.lt_of_le_of_lt h he
  rcases Bool.or_eq_true_iff.1 h with halpha | h
  · rcases Bool.or_eq_true_iff.1 halpha with h | h
    · exact hbound (by decide) (hupper h)
    · exact hbound (by decide) (hlower h)
  · exact hbound (by decide) (hdigit h)

theorem isAscii_isWordPart : IsAscii isWordPart := by
  refine isAscii_of_not fun c hc => ?_
  rw [isWordPart, Bool.or_eq_true, beq_iff_eq] at hc
  rcases hc with hc | rfl
  · exact toNat_lt_of_isAlphanum hc
  · decide

theorem isAscii_isCodeWordStart : IsAscii isCodeWordStart := by
  refine isAscii_of_not fun c hc => ?_
  rw [isCodeWordStart, Bool.or_eq_true, beq_iff_eq] at hc
  rcases hc with hc | rfl
  · exact toNat_lt_of_isAlphanum (by rw [Char.isAlphanum, hc, Bool.true_or])
  · decide

theorem toNat_le_of_isCodeSpace {c : Char} (h : isCodeSpace c = true) : c.toNat ≤ 32 := by
  simp only [isCodeSpace, isGrammarSpace, isLineBreak, Bool.or_eq_true, beq_iff_eq] at h
  rcases h with (((rfl | rfl) | rfl | rfl) | rfl) | rfl <;> decide

theorem isAscii_isCodeSpace : IsAscii isCodeSpace :=
  isAscii_of_not fun _ hc => Nat.lt_of_le_of_lt (toNat_le_of_isCodeSpace hc) (by decide)

theorem isAscii_isGrammarSpace : IsAscii isGrammarSpace :=
  isAscii_of_not fun c hc =>
    have hspace : isCodeSpace c = true := by rw [isCodeSpace, hc]; rfl
    Nat.lt_of_le_of_lt (toNat_le_of_isCodeSpace hspace) (by decide)

/-! ## What is least -/

section Least

variable {P : Nat → Prop} {m n q : Nat}

theorem isLeast_here (h : P n) : IsLeast {q | n ≤ q ∧ P q} n :=
  ⟨⟨Nat.le_refl n, h⟩, fun _ hq => hq.1⟩

/-- Where nothing is found, one may look from further on. -/
theorem isLeast_of_skip (hle : m ≤ n) (hskip : ∀ q, m ≤ q → q < n → ¬ P q)
    (h : IsLeast {q | n ≤ q ∧ P q} q) : IsLeast {q | m ≤ q ∧ P q} q := by
  refine ⟨⟨Nat.le_trans hle h.1.1, h.1.2⟩, fun r hr => ?_⟩
  rcases Nat.lt_or_ge r n with hlt | hge
  · exact absurd hr.2 (hskip r hr.1 hlt)
  · exact h.2 ⟨hge, hr.2⟩

end Least

theorem CodePoint.width_of_char {p : CodePoint} (h : p.char.toNat < 0x80) : p.width = 1 := by
  cases p with
  | lone u => rfl
  | scalar c =>
    have hc : c.toNat < 0x10000 := Nat.lt_trans h (by decide)
    rw [width, units, if_pos hc]
    rfl

/-- Code points that can be searched for by their units: they begin with an ASCII character, and the
last unit does not pair with what comes behind them. -/
structure CodePoint.IsMark (mark : List CodePoint) : Prop where
  first : ∃ c rest, mark = .scalar c :: rest ∧ c.toNat < 0x80
  last : ∀ u ∈ (unitsOf mark).getLast?, u.isHighSurrogate = false
  isDecoded : IsDecoded mark

/-- At the beginning of a code point, a mark is found by its units. -/
theorem CodePoint.IsMark.isPrefix_iff {mark points : List CodePoint} (h : IsMark mark)
    (hpoints : IsDecoded points) : unitsOf mark <+: unitsOf points ↔ mark <+: points := by
  constructor
  · rintro ⟨us, hus⟩
    refine ⟨decode us, ?_⟩
    rw [← hpoints, ← hus, decode_append_of_last h.last, h.isDecoded]
  · rintro ⟨rest, rfl⟩
    exact ⟨unitsOf rest, (unitsOf_append mark rest).symm⟩

namespace Document

/-! ## Characters of units -/

/-- The character that the unit at `offset` is by itself; half of a pair reads as U+FFFD. -/
def charAt? (d : Document) (offset : Nat) : Option Char :=
  (d.unitAt? offset).map fun u => (CodePoint.ofUnit u).char

/-- Whether the unit at `offset` is a character of class `f`. -/
def Reads (d : Document) (f : Char → Bool) (offset : Nat) : Prop :=
  ∃ c, d.charAt? offset = some c ∧ f c = true

variable {d : Document} {a b : List CodePoint} {p : CodePoint} {f : Char → Bool} {q : Nat}

theorem reads_beq_iff {c : Char} : d.Reads (· == c) q ↔ d.charAt? q = some c := by
  simp [Reads]

theorem totalWidth_eq_length (h : d.points = a) : CodePoint.totalWidth a = d.length :=
  h ▸ CodePoint.totalWidth_decode d.units

theorem totalWidth_front_le (h : d.points = a ++ b) : CodePoint.totalWidth a ≤ d.length := by
  rw [← totalWidth_eq_length h, CodePoint.totalWidth_append]
  exact Nat.le_add_right _ _

theorem lt_length_of_charAt? {c : Char} (h : d.charAt? q = some c) : q < d.length := by
  obtain ⟨u, hu, -⟩ := Option.map_eq_some_iff.1 h
  exact (List.getElem?_eq_some_iff.1 hu).1

theorem Reads.lt_length (h : d.Reads f q) : q < d.length := lt_length_of_charAt? h.choose_spec.1

/-- Each unit of a code point reads like the code point, as far as ASCII goes. -/
theorem exists_charAt? (h : d.points = a ++ p :: b) (hle : CodePoint.totalWidth a ≤ q)
    (hlt : q < CodePoint.totalWidth a + p.width) :
    ∃ c, d.charAt? q = some c ∧ ∀ f, IsAscii f → f c = f p.char := by
  obtain ⟨k, rfl⟩ := Nat.exists_eq_add_of_le hle
  have hk : k < p.width := Nat.lt_of_add_lt_add_left hlt
  have hmem : p ∈ d.points := by rw [h]; exact List.mem_append_right _ List.mem_cons_self
  rw [charAt?, unitAt?_of_points h hk]
  rcases CodePoint.exists_of_mem_decode hmem with ⟨u, rfl⟩ | ⟨u, v, rfl, hhigh, hlow⟩
  · have hwidth := CodePoint.width_ofUnit u
    obtain rfl : k = 0 := by omega
    rw [CodePoint.units_ofUnit]
    exact ⟨_, rfl, fun f _ => rfl⟩
  · have hpair : (u.isHighSurrogate && v.isLowSurrogate) = true := by rw [hhigh, hlow]; rfl
    have hwidth := CodePoint.width_ofPair hpair
    have hsurrogate : ∀ w : CodeUnit, w.isSurrogate = true → (CodePoint.ofUnit w).char = '\uFFFD' :=
      fun w hw => by rw [CodePoint.char_ofUnit, if_pos hw]
    have hwide : 0x80 ≤ (CodePoint.ofPair u v).char.toNat := by
      refine Nat.le_of_not_lt fun hlt => ?_
      rw [CodePoint.width_of_char hlt] at hwidth
      omega
    refine ⟨'\uFFFD', ?_, fun f hf => (hf _ hwide).symm⟩
    rw [CodePoint.units_ofPair hhigh hlow]
    rcases (by omega : k = 0 ∨ k = 1) with rfl | rfl
    · exact congrArg some (hsurrogate u (by rw [CodeUnit.isSurrogate, hhigh]; rfl))
    · exact congrArg some (hsurrogate v (by rw [CodeUnit.isSurrogate, hlow, Bool.or_true]))

/-- **A class of ASCII characters holds of each unit of a code point, or of none.** -/
theorem reads_iff (h : d.points = a ++ p :: b) (hf : IsAscii f) (hle : CodePoint.totalWidth a ≤ q)
    (hlt : q < CodePoint.totalWidth a + p.width) : d.Reads f q ↔ f p.char = true := by
  obtain ⟨c, hc, hsame⟩ := exists_charAt? h hle hlt
  rw [← hsame f hf, Reads, hc]
  simp

theorem charAt?_iff (h : d.points = a ++ p :: b) {c : Char} (hc : c.toNat < 0x80)
    (hle : CodePoint.totalWidth a ≤ q) (hlt : q < CodePoint.totalWidth a + p.width) :
    d.charAt? q = some c ↔ p.char = c := by
  rw [← reads_beq_iff, reads_iff h (isAscii_beq hc) hle hlt, beq_iff_eq]

/-- A code point is read at its first unit. -/
theorem reads_here (h : d.points = a ++ p :: b) (hf : IsAscii f) :
    d.Reads f (CodePoint.totalWidth a) ↔ f p.char = true :=
  reads_iff h hf (Nat.le_refl _) (Nat.lt_add_of_pos_right p.width_pos)

theorem charAt?_here (h : d.points = a ++ p :: b) {c : Char} (hc : c.toNat < 0x80) :
    d.charAt? (CodePoint.totalWidth a) = some c ↔ p.char = c :=
  charAt?_iff h hc (Nat.le_refl _) (Nat.lt_add_of_pos_right p.width_pos)

theorem charAt?_behind (h : d.points = a ++ b) {c : Char} (hc : c.toNat < 0x80) :
    d.charAt? (CodePoint.totalWidth a) = some c ↔ beginsWith c b = true := by
  cases b with
  | nil =>
    rw [List.append_nil] at h
    refine iff_of_false (fun hat => ?_) Bool.false_ne_true
    exact Nat.ne_of_lt (lt_length_of_charAt? hat) (totalWidth_eq_length h)
  | cons p b => rw [charAt?_here h hc, beginsWith, beq_iff_eq]

/-! ## Runs -/

theorem totalWidth_concat (a : List CodePoint) (p : CodePoint) :
    CodePoint.totalWidth (a ++ [p]) = CodePoint.totalWidth a + p.width := by
  rw [CodePoint.totalWidth_append, CodePoint.totalWidth, CodePoint.totalWidth, Nat.add_zero]

theorem totalWidth_concat_of_char (hp : p.char.toNat < 0x80) :
    CodePoint.totalWidth (a ++ [p]) = CodePoint.totalWidth a + 1 := by
  rw [totalWidth_concat, CodePoint.width_of_char hp]

/-- **A run of code points is a run of units**, up to the first one that is not of the class. -/
theorem isLeast_runLength (h : d.points = a ++ b) (hf : IsAscii f) :
    IsLeast {q | CodePoint.totalWidth a ≤ q ∧ ¬ d.Reads f q}
      (CodePoint.totalWidth (a ++ b.take (runLength f b))) := by
  induction b generalizing a with
  | nil =>
    rw [List.append_nil] at h
    rw [List.take_nil, List.append_nil]
    exact isLeast_here fun hreads => Nat.ne_of_lt hreads.lt_length (totalWidth_eq_length h)
  | cons p b ih =>
    rw [runLength_cons]
    split
    · rename_i hp
      have hb : d.points = (a ++ [p]) ++ b := by rw [h, List.append_assoc, List.singleton_append]
      have hrest := ih hb
      rw [List.append_assoc, List.singleton_append, totalWidth_concat] at hrest
      refine isLeast_of_skip (Nat.le_add_right _ _) (fun q hle hlt hnot => hnot ?_) hrest
      exact (reads_iff h hf hle hlt).2 hp
    · rename_i hp
      rw [List.take_zero, List.append_nil]
      refine isLeast_here fun hreads => hp ?_
      exact (reads_here h hf).1 hreads

/-- What no run of a class goes on with is of the opposite class, or the end of the document. -/
theorem not_reads_not_iff (hle : q ≤ d.length) :
    ¬ d.Reads (fun c => !f c) q ↔ q = d.length ∨ d.Reads f q := by
  rcases Nat.lt_or_eq_of_le hle with hlt | rfl
  · obtain ⟨c, hc⟩ : ∃ c, d.charAt? q = some c := by
      rw [charAt?, unitAt?, List.getElem?_eq_getElem hlt]
      exact ⟨_, rfl⟩
    simp [Reads, hc, Nat.ne_of_lt hlt]
  · exact iff_of_true (fun h => Nat.lt_irrefl _ h.lt_length) (.inl rfl)

/-- A run of what is not of a class ends in front of the first that is, or with the document. -/
theorem isLeast_runLength_not (h : d.points = a ++ b) (hf : IsAscii f) :
    IsLeast {q | CodePoint.totalWidth a ≤ q ∧ (q = d.length ∨ d.Reads f q)}
      (CodePoint.totalWidth (a ++ b.take (runLength (fun c => !f c) b))) := by
  have hrun := isLeast_runLength h hf.not
  have hle : CodePoint.totalWidth (a ++ b.take (runLength (fun c => !f c) b)) ≤ d.length := by
    refine totalWidth_front_le (b := b.drop (runLength (fun c => !f c) b)) ?_
    rw [h, List.append_assoc, List.take_append_drop]
  refine ⟨⟨hrun.1.1, (not_reads_not_iff hle).1 hrun.1.2⟩, fun q hq => ?_⟩
  rcases Nat.le_total q d.length with hq' | hq'
  · exact hrun.2 ⟨hq.1, (not_reads_not_iff hq').2 hq.2⟩
  · exact Nat.le_trans hle hq'

/-! ## Marks -/

theorem isDecoded_of_points (h : d.points = a ++ b) : CodePoint.IsDecoded b := by
  have hpoints : CodePoint.IsDecoded d.points := CodePoint.isDecoded_decode d.units
  rw [h] at hpoints
  exact hpoints.of_append_right

theorem drop_units (h : d.points = a ++ b) :
    d.units.drop (CodePoint.totalWidth a) = CodePoint.unitsOf b := by
  rw [units_eq, h, CodePoint.unitsOf_append, List.drop_left' (CodePoint.length_unitsOf a)]

/-- Where a mark stands, its first character is read. -/
theorem charAt?_of_mark {c : Char} {mark : List CodePoint} (hc : c.toNat < 0x80)
    (h : CodePoint.unitsOf (.scalar c :: mark) <+: d.units.drop q) : d.charAt? q = some c := by
  have hunits : (CodePoint.scalar c).units = [c.toNat.toUInt16] :=
    if_pos (Nat.lt_trans hc (by decide))
  have hchar : CodePoint.ofUnit c.toNat.toUInt16 = .scalar c := by
    have hdecode := CodePoint.decode_units_append c []
    rw [hunits] at hdecode
    exact (List.cons.inj hdecode).1
  obtain ⟨us, hus⟩ := h
  rw [CodePoint.unitsOf_cons, hunits, List.singleton_append, List.cons_append] at hus
  rw [charAt?, unitAt?, ← List.head?_drop, ← hus, List.head?_cons, Option.map_some, hchar]
  rfl

/-- Where a mark was searched for from `start` on, and the search stopped at `stop`. -/
def FindsMark (d : Document) (mark : List CodePoint) (start : Nat) (found : Bool) (stop : Nat) :
    Prop :=
  if found = true then
    ∃ q, IsLeast {q | start ≤ q ∧ CodePoint.unitsOf mark <+: d.units.drop q} q ∧
      stop = q + CodePoint.totalWidth mark
  else (∀ q, start ≤ q → ¬ CodePoint.unitsOf mark <+: d.units.drop q) ∧ stop = d.length

theorem FindsMark.of_skip {mark : List CodePoint} {m n stop : Nat} {found : Bool} (hle : m ≤ n)
    (hskip : ∀ q, m ≤ q → q < n → ¬ CodePoint.unitsOf mark <+: d.units.drop q)
    (h : d.FindsMark mark n found stop) : d.FindsMark mark m found stop := by
  cases found with
  | true =>
    obtain ⟨q, hq, hstop⟩ := h
    exact ⟨q, isLeast_of_skip hle hskip hq, hstop⟩
  | false =>
    refine ⟨fun q hq => ?_, h.2⟩
    exact (Nat.lt_or_ge q n).elim (hskip q hq) (h.1 q)

/-- **Searching among code points finds the first place among the units.**  A mark that begins with
an ASCII character does not begin inside a pair. -/
theorem findsMark_extentThrough {mark : List CodePoint} (hmark : CodePoint.IsMark mark)
    (h : d.points = a ++ b) :
    d.FindsMark mark (CodePoint.totalWidth a) (extentThrough mark b).closed
      (CodePoint.totalWidth (a ++ b.take (extentThrough mark b).size)) := by
  obtain ⟨c, front, hfront, hc⟩ := hmark.first
  induction b generalizing a with
  | nil =>
    rw [List.append_nil] at h
    have hlength := totalWidth_eq_length h
    refine ⟨fun q hq hprefix => ?_, by rw [List.take_nil, List.append_nil, hlength]⟩
    have hlt := lt_length_of_charAt? (charAt?_of_mark hc (hfront ▸ hprefix))
    omega
  | cons p b ih =>
    have hhere := hmark.isPrefix_iff (isDecoded_of_points h)
    rw [← drop_units h] at hhere
    rw [extentThrough]
    split
    · rename_i hprefix
      rw [List.isPrefixOf_iff_prefix] at hprefix
      refine ⟨_, isLeast_here (hhere.2 hprefix), ?_⟩
      rw [← List.prefix_iff_eq_take.1 hprefix, CodePoint.totalWidth_append]
    · rename_i hprefix
      rw [List.isPrefixOf_iff_prefix] at hprefix
      have hrest := ih (h.trans (List.append_cons a p b))
      rw [← List.append_cons, ← List.take_succ_cons, totalWidth_concat] at hrest
      rw [size_after, Nat.add_comm]
      refine hrest.of_skip (Nat.le_add_right _ _) fun q hle hlt hq => hprefix ?_
      have hp := (charAt?_iff h hc hle hlt).1 (charAt?_of_mark hc (hfront ▸ hq))
      have hwidth := CodePoint.width_of_char (p := p) (hp ▸ hc)
      obtain rfl : q = CodePoint.totalWidth a := by omega
      exact hhere.1 hq

/-! ## Tokens and scans -/

/-- Whether nothing is wrong inside a token but surrogates that are alone. -/
def IsFaultless (d : Document) (t : Token) : Prop :=
  ∀ i ∈ d.lexicalIssues, t.span.start ≤ i.span.start → i.span.start < t.span.stop →
    i.fault = .loneSurrogate

/-- A token that comes from the scan of `p` in the mode `m`, with `rest` behind it. -/
structure Scanned (d : Document) (t : Token) (m : Mode) (a : List CodePoint) (p : CodePoint)
    (rest : List CodePoint) : Prop where
  points_eq : d.points = a ++ p :: rest
  start_eq : t.span.start = CodePoint.totalWidth a
  kind_eq : t.kind = (m.scan p.char rest).kind
  stop_eq : t.span.stop = CodePoint.totalWidth (a ++ p :: rest.take (m.scan p.char rest).more)
  fault_mem : ∀ fault, (m.scan p.char rest).fault = some fault → ⟨fault, t.span⟩ ∈ d.lexicalIssues
  faultless : (m.scan p.char rest).fault = none → t.kind ≠ .snippetStart → d.IsFaultless t

section Scanned

variable {t : Token} {m : Mode} {rest : List CodePoint} {e : Extent} {kind : TokenKind}
  {fault : LexicalFault}

/-- Nothing is wrong with what had to be closed and is. -/
theorem Scanned.faultless_of_closed (h : d.Scanned t m a p rest)
    (hscan : m.scan p.char rest = e.scan kind fault) (hkind : kind ≠ .snippetStart)
    (hclosed : e.closed = true) : d.IsFaultless t := by
  refine h.faultless ?_ ?_
  · rw [hscan]
    exact if_pos hclosed
  · rw [h.kind_eq, hscan]
    exact hkind

theorem Scanned.fault_of_open (h : d.Scanned t m a p rest)
    (hscan : m.scan p.char rest = e.scan kind fault) (hopen : e.closed = false) :
    ⟨fault, t.span⟩ ∈ d.lexicalIssues := by
  refine h.fault_mem fault ?_
  rw [hscan]
  exact if_neg (by simp [hopen])

/-- Where a token stops that goes `n` code points beyond one inside it. -/
theorem Scanned.stop_eq_behind {w body : List CodePoint} {x : CodePoint} {n : Nat}
    (h : d.Scanned t m a p rest) (hsplit : p :: rest = w ++ x :: body)
    (hmore : (m.scan p.char rest).more = w.length + n) :
    t.span.stop = CodePoint.totalWidth (a ++ w ++ x :: body.take n) := by
  rw [h.stop_eq, hmore, ← List.take_succ_cons, hsplit, Nat.add_assoc, List.take_length_add_append,
    List.take_succ_cons, List.append_assoc]

end Scanned

theorem isFaultless_token {front back : List Lexeme} {l : Lexeme}
    (h : d.lexemes = front ++ l :: back) (hfault : l.fault = none)
    (hkind : l.kind ≠ .snippetStart) :
    d.IsFaultless (l.token (Lexeme.totalWidth front) back) := by
  have hpoints : ∀ k ∈ d.lexemes, k.points ≠ [] := fun _ => points_ne_nil_of_mem
  rw [h, List.forall_mem_append, List.forall_mem_cons] at hpoints
  intro i hi hstart hstop
  simp only [Lexeme.token, Token.spelled] at hstart hstop
  rw [lexicalIssues, h, placeIssues_append, placeIssues, Nat.zero_add, List.mem_append,
    List.mem_append] at hi
  rcases hi with hi | hi | hi
  · have hbefore := (start_frontIssues hpoints.1 hi).2
    omega
  · rw [Lexeme.issues, hfault, Lexeme.isUnclosed, beq_false_of_ne hkind] at hi
    obtain ⟨s, -, rfl⟩ := List.mem_map.1 (show i ∈ List.map _ _ from hi)
    rfl
  · have hbehind := le_start_of_mem_placeIssues hpoints.2.2 hi
    omega

/-- **Every token but the last comes from a scan**, in a mode that knows what comes before it. -/
theorem exists_scanned {before after : List Token} {t : Token} (h : d.tokens = before ++ t :: after)
    (hkind : t.kind ≠ .endOfFile) :
    ∃ m a p rest, d.Scanned t m a p rest ∧ m.Remembers (before.map d.sight).reverse := by
  rcases exists_split_of_tokens h with rfl | ⟨front, l, back, hls, hbefore, ht, -⟩
  · exact absurd rfl hkind
  obtain ⟨p, rest, hpoints, hl, -⟩ := lexemes_eq_append hls
  have hsight : before.map d.sight = front.map Lexeme.sight := by
    rw [hbefore]
    exact map_sight_frontTokens (a := []) _ (by rw [hpoints]; rfl)
  have hremembers := remembers_lookBack hls
  have hscan : l.fault = (l.mode.scan p.char rest).fault := by rw [hl]; rfl
  refine ⟨l.mode, _, p, rest, ⟨hpoints, ?_, ?_, ?_, fun fault hfault => ?_, fun hfault hkind => ?_⟩,
    hsight ▸ hremembers⟩
  · rw [ht, ← Lexeme.totalWidth_eq]
    rfl
  · rw [ht, hl]
    rfl
  · rw [ht, CodePoint.totalWidth_append, ← Lexeme.totalWidth_eq, hl]
    rfl
  · rw [lexicalIssues, hls, placeIssues_append, placeIssues, Nat.zero_add, Lexeme.issues,
      hscan, hfault, ht]
    simp [Lexeme.token, Token.spelled]
  · rw [ht] at hkind ⊢
    exact isFaultless_token hls (hscan.trans hfault) hkind

end Document
end GrammarPaint
