import GrammarPaint.Proofs.Openings

/-!
# How far comments reach

Comments begin and end alike in grammar text and in snippets; only their kinds differ
(`Mode.blockKind`, `Mode.lineKind`).  Two characters settle that one begins, and nothing else does
(`scan_of_comment`, `exists_scanComment?_of_kind`).

A block comment goes up to the first place where it is closed.  The scan looks for that place from
behind the two characters on, so that the star that opens a comment does not close it, and a comment
that is closed nowhere takes the rest of the document (`Document.endsBlock`).  A line comment stops
in front of the line break (`Document.endsLine`).
-/

set_option autoImplicit false
namespace GrammarPaint

/-! ## Scans -/

/-- The kind of block comments. -/
def Mode.blockKind : Mode → TokenKind
  | grammar => .blockComment
  | snippet .. => .codeBlockComment

/-- The kind of line comments. -/
def Mode.lineKind : Mode → TokenKind
  | grammar => .lineComment
  | snippet .. => .codeLineComment

section Scans

variable {m : Mode} {back : List Sight} {block line : TokenKind} {c : Char} {p : CodePoint}
  {rest : List CodePoint} {s : Scan}

theorem Mode.Remembers.commentKinds (h : m.Remembers back) :
    m.blockKind = (if insideSnippet back then .codeBlockComment else .blockComment) ∧
      m.lineKind = if insideSnippet back then .codeLineComment else .lineComment := by
  rw [h.insideSnippet_eq]
  cases m <;> exact ⟨rfl, rfl⟩

theorem scanComment?_star (h : p.char = '*') (rest : List CodePoint) :
    scanComment? block line (p :: rest)
      = some (((extentThrough commentClose rest).after 1).scan block .unclosedBlockComment) := by
  rw [← commentExtent_eq]
  exact if_pos (beq_iff_eq.2 h)

theorem scanComment?_slash (h : p.char = '/') (rest : List CodePoint) :
    scanComment? block line (p :: rest)
      = some (.plain line (1 + runLength (fun c => !isLineBreak c) rest)) := by
  rw [scanComment?, if_neg (by simp [beginsWith, h]), if_pos (by simp [beginsWith, h])]
  rfl

/-- What a comment begins with behind its slash. -/
theorem kind_of_scanComment? (h : scanComment? block line rest = some s) :
    s.kind = block ∧ beginsWith '*' rest = true ∨ s.kind = line ∧ beginsWith '/' rest = true := by
  rw [scanComment?] at h
  split at h
  · rename_i hstar
    obtain rfl := Option.some.inj h
    exact .inl ⟨rfl, hstar⟩
  · split at h
    · rename_i hslash
      obtain rfl := Option.some.inj h
      exact .inr ⟨rfl, hslash⟩
    · cases h

/-- A slash begins a comment wherever one can begin. -/
theorem scan_of_comment (m : Mode) (hc : c = '/')
    (h : scanComment? m.blockKind m.lineKind rest = some s) : m.scan c rest = s := by
  subst hc
  cases m with
  | grammar =>
    have hcomment : scanGrammar '/' rest
        = (scanComment? .blockComment .lineComment rest).getD (.plain .slash 0) := rfl
    exact hcomment.trans (congrArg (Option.getD · _) h)
  | snippet nesting state =>
    have hheader : ¬ (state = .afterInclude ∧ ('/' = '<' ∨ '/' = '"')) := by simp
    have hnumber : opensNumber '/' rest = false := rfl
    have hcomment : scanCode nesting state '/' rest
        = (scanComment? .codeBlockComment .codeLineComment rest).getD
          (scanPunctuator '/' rest) := by
      rw [scanCode, if_neg (by decide), if_neg hheader, if_neg (by decide),
        if_neg (by simp [hnumber])]
    exact hcomment.trans (congrArg (Option.getD · _) h)

/-- The kinds of comments. -/
def commentKinds : List TokenKind :=
  [.blockComment, .lineComment, .codeBlockComment, .codeLineComment]

/-- **Nothing but a slash begins a comment.** -/
theorem exists_scanComment?_of_kind (h : (m.scan c rest).kind ∈ commentKinds) :
    c = '/' ∧ scanComment? m.blockKind m.lineKind rest = some (m.scan c rest) := by
  cases m with
  | grammar =>
    obtain ⟨kinds, hform⟩ := exists_grammarForm c rest
    rw [Mode.scan] at h ⊢
    generalize scanGrammar c rest = s at h hform ⊢
    have hkind := hform.kind_mem
    cases hform with
    | comment hc hcomment => exact ⟨hc, hcomment⟩
    | _ => exact absurd hkind ((show ∀ k ∈ commentKinds, k ∉ _ by decide) _ h)
  | snippet nesting state =>
    obtain ⟨kinds, hform⟩ := exists_codeForm nesting state c rest
    rw [Mode.scan] at h ⊢
    generalize scanCode nesting state c rest = s at h hform ⊢
    have hkind := hform.kind_mem
    cases hform with
    | comment hc hcomment => exact ⟨hc, hcomment⟩
    | _ => exact absurd hkind ((show ∀ k ∈ commentKinds, k ∉ _ by decide) _ h)

end Scans

/-! ## Tokens -/

theorem isMark_commentClose : CodePoint.IsMark commentClose where
  first := ⟨'*', _, rfl, by decide⟩
  last u hu := by
    obtain rfl : 0x2F = u := Option.some.inj hu
    rfl
  isDecoded := CodePoint.decode_unitsOf_scalars ['*', '/']

namespace Document

/-- How a block comment ends: behind the first place where it is closed.  If there is none, it ends
with the document, and something is wrong with it then and only then. -/
structure EndsBlock (d : Document) (t : Token) : Prop where
  closed : ∀ q, IsLeast {q | t.span.start + 2 ≤ q ∧ d.Begins q ['*', '/']} q → t.span.stop = q + 2
  unclosed : (∀ q, t.span.start + 2 ≤ q → ¬ d.Begins q ['*', '/']) → t.span.stop = d.length
  fault_iff : ⟨.unclosedBlockComment, t.span⟩ ∈ d.lexicalIssues ↔
    ∀ q, t.span.start + 2 ≤ q → ¬ d.Begins q ['*', '/']

/-- A line comment ends in front of the first line break, or with the document. -/
def EndsLine (d : Document) (t : Token) : Prop :=
  IsLeast {q | t.span.start < q ∧ (q = d.length ∨ d.Reads isLineBreak q)} t.span.stop

variable {d : Document} {t : Token} {m : Mode} {a body : List CodePoint} {p x : CodePoint} {q : Nat}

theorem begins_commentClose_iff :
    d.Begins q ['*', '/'] ↔ CodePoint.unitsOf commentClose <+: d.units.drop q :=
  begins_iff_of_isMark isMark_commentClose (by decide)

/-- The two characters that open a comment are a unit each. -/
theorem Scanned.totalWidth_opened (h : d.Scanned t m a p (x :: body)) (hp : p.char.toNat < 0x80)
    (hx : x.char.toNat < 0x80) : CodePoint.totalWidth (a ++ [p] ++ [x]) = t.span.start + 2 := by
  rw [totalWidth_concat_of_char hx, totalWidth_concat_of_char hp, h.start_eq]

theorem Scanned.stop_eq_opened (h : d.Scanned t m a p (x :: body)) {n : Nat}
    (hmore : (m.scan p.char (x :: body)).more = 1 + n) :
    t.span.stop = CodePoint.totalWidth (a ++ [p] ++ [x] ++ body.take n) := by
  rw [h.stop_eq, hmore, Nat.add_comm, List.take_succ_cons, List.append_cons, List.append_cons]

/-- **What is scanned as a block comment ends like one.** -/
theorem endsBlock (h : d.Scanned t m a p (x :: body)) (hp : p.char = '/') (hx : x.char = '*')
    {kind : TokenKind} (hscan : m.scan p.char (x :: body)
      = ((extentThrough commentClose body).after 1).scan kind .unclosedBlockComment)
    (hkind : kind ≠ .snippetStart) : d.EndsBlock t := by
  have hopened := h.totalWidth_opened (by rw [hp]; decide) (by rw [hx]; decide)
  have hstop := h.stop_eq_opened (n := (extentThrough commentClose body).size) (by rw [hscan]; rfl)
  have hfinds := findsMark_extentThrough isMark_commentClose
    (h.points_eq.trans ((List.append_cons a p _).trans (List.append_cons _ x body)))
  simp only [hopened, ← hstop] at hfinds
  cases hclosed : (extentThrough commentClose body).closed with
  | true =>
    obtain ⟨q, hq, hend⟩ := hclosed ▸ hfinds
    simp only [← begins_commentClose_iff] at hq
    have hend : t.span.stop = q + 2 := hend
    have hfaultless := h.faultless_of_closed hscan hkind hclosed
    refine ⟨fun r hr => hr.unique hq ▸ hend, fun hnone => absurd hq.1.2 (hnone q hq.1.1), ?_⟩
    refine iff_of_false (fun hmem => ?_) fun hnone => hnone q hq.1.1 hq.1.2
    have hlt : t.span.start < t.span.stop := by
      have hle := hq.1.1
      omega
    exact nomatch hfaultless _ hmem (Nat.le_refl _) hlt
  | false =>
    obtain ⟨hnone, hend⟩ := hclosed ▸ hfinds
    simp only [← begins_commentClose_iff] at hnone
    exact ⟨fun q hq => absurd hq.1.2 (hnone q hq.1.1), fun _ => hend,
      iff_of_true (h.fault_of_open hscan hclosed) hnone⟩

/-- **What is scanned as a line comment ends with its line.** -/
theorem endsLine (h : d.Scanned t m a p (x :: body)) (hp : p.char = '/') (hx : x.char = '/')
    {kind : TokenKind} (hscan : m.scan p.char (x :: body)
      = .plain kind (1 + runLength (fun c => !isLineBreak c) body)) : d.EndsLine t := by
  have hpascii : p.char.toNat < 0x80 := by rw [hp]; decide
  have hopened := h.totalWidth_opened hpascii (by rw [hx]; decide)
  have hbody : d.points = a ++ [p] ++ [x] ++ body :=
    h.points_eq.trans ((List.append_cons a p _).trans (List.append_cons _ x body))
  have hrun := isLeast_runLength_not hbody isAscii_isLineBreak
  rw [hopened, ← h.stop_eq_opened (by rw [hscan]; rfl)] at hrun
  refine isLeast_of_skip (m := t.span.start + 1) (Nat.le_succ _) (fun q hle hlt => ?_) hrun
  -- the second slash is neither a line break nor the end
  obtain rfl : q = CodePoint.totalWidth (a ++ [p]) := by
    rw [totalWidth_concat_of_char hpascii, ← h.start_eq]
    omega
  have hsecond : d.points = a ++ [p] ++ x :: body := h.points_eq.trans (List.append_cons a p _)
  rintro (hend | hbreak)
  · have hslash := (charAt?_here hsecond (by decide)).2 hx
    exact Nat.ne_of_lt (lt_length_of_charAt? hslash) hend
  · rw [reads_here hsecond isAscii_isLineBreak, hx] at hbreak
    exact absurd hbreak (by decide)

/-- The comments of a document: what begins like a comment is one, of the kind that belongs to where
it is, and ends like one, and nothing else is a comment. -/
structure HasComments (d : Document) : Prop where
  block : ∀ before t after, d.tokens = before ++ t :: after → d.Begins t.span.start ['/', '*'] →
    t.kind = (if insideSnippet (before.map d.sight).reverse then .codeBlockComment
      else .blockComment) ∧ d.EndsBlock t
  line : ∀ before t after, d.tokens = before ++ t :: after → d.Begins t.span.start ['/', '/'] →
    t.kind = (if insideSnippet (before.map d.sight).reverse then .codeLineComment
      else .lineComment) ∧ d.EndsLine t
  begins_block : ∀ t ∈ d.tokens, t.kind = .blockComment ∨ t.kind = .codeBlockComment →
    d.Begins t.span.start ['/', '*']
  begins_line : ∀ t ∈ d.tokens, t.kind = .lineComment ∨ t.kind = .codeLineComment →
    d.Begins t.span.start ['/', '/']

/-- A token that begins with two ASCII characters comes from a scan of both. -/
theorem exists_scanned_of_begins_pair {before after : List Token} {c e : Char}
    (h : d.tokens = before ++ t :: after) (hbegins : d.Begins t.span.start [c, e]) :
    ∃ m a p x body, d.Scanned t m a p (x :: body) ∧ p.char = c ∧ x.char = e ∧
      m.Remembers (before.map d.sight).reverse := by
  obtain ⟨m, a, p, rest, hscanned, hremembers⟩ :=
    exists_scanned_of_begins h hbegins (List.cons_ne_nil _ _)
  rw [hscanned.begins_iff, List.cons_prefix_cons] at hbegins
  cases rest with
  | nil => simp at hbegins
  | cons x body =>
    rw [List.map_cons, List.cons_prefix_cons] at hbegins
    exact ⟨m, a, p, x, body, hscanned, hbegins.1.symm, hbegins.2.1.symm, hremembers⟩

/-- What a comment of a document begins with. -/
theorem begins_of_mem_commentKinds (h : t ∈ d.tokens) (hkind : t.kind ∈ commentKinds) :
    ∃ m : Mode, t.kind = m.blockKind ∧ d.Begins t.span.start ['/', '*'] ∨
      t.kind = m.lineKind ∧ d.Begins t.span.start ['/', '/'] := by
  obtain ⟨before, after, hsplit⟩ := List.append_of_mem h
  obtain ⟨m, a, p, rest, hscanned, -⟩ := exists_scanned hsplit fun hend => by
    rw [hend] at hkind
    exact absurd hkind (by decide)
  rw [hscanned.kind_eq] at hkind ⊢
  obtain ⟨hp, hcomment⟩ := exists_scanComment?_of_kind hkind
  rcases kind_of_scanComment? hcomment with ⟨hkind, hstar⟩ | ⟨hkind, hslash⟩
  · exact ⟨m, .inl ⟨hkind, hscanned.begins_pair hp hstar⟩⟩
  · exact ⟨m, .inr ⟨hkind, hscanned.begins_pair hp hslash⟩⟩

/-- **Comments reach as far as they do in C**, in grammar text and in snippets. -/
theorem hasComments (d : Document) : d.HasComments where
  block before t after h hbegins := by
    obtain ⟨m, a, p, x, body, hscanned, hp, hx, hremembers⟩ :=
      exists_scanned_of_begins_pair h hbegins
    have hscan := scan_of_comment m hp (scanComment?_star hx body)
    refine ⟨?_, endsBlock hscanned hp hx hscan (by cases m <;> simp [Mode.blockKind])⟩
    rw [hscanned.kind_eq, hscan, ← hremembers.commentKinds.1]
    rfl
  line before t after h hbegins := by
    obtain ⟨m, a, p, x, body, hscanned, hp, hx, hremembers⟩ :=
      exists_scanned_of_begins_pair h hbegins
    have hscan := scan_of_comment m hp (scanComment?_slash hx body)
    refine ⟨?_, endsLine hscanned hp hx hscan⟩
    rw [hscanned.kind_eq, hscan, ← hremembers.commentKinds.2]
    rfl
  begins_block t ht hkind := by
    obtain ⟨m, ⟨-, hbegins⟩ | ⟨hline, -⟩⟩ :=
      begins_of_mem_commentKinds ht (by rcases hkind with h | h <;> rw [h] <;> decide)
    · exact hbegins
    · cases m <;> simp [hline, Mode.lineKind] at hkind
  begins_line t ht hkind := by
    obtain ⟨m, ⟨hblock, -⟩ | ⟨-, hbegins⟩⟩ :=
      begins_of_mem_commentKinds ht (by rcases hkind with h | h <;> rw [h] <;> decide)
    · cases m <;> simp [hblock, Mode.blockKind] at hkind
    · exact hbegins

end Document
end GrammarPaint
