import GrammarPaint.Proofs.Lossless
import GrammarPaint.Proofs.Tiling
import GrammarPaint.Proofs.Unclosed

/-!
# Where lexical issues are

No two lexical issues begin at the same place (`Document.pairwise_lexicalIssues`).  A surrogate is
reported where it is alone and nowhere else (`Document.mem_loneSurrogates_iff`).  All that is not
closed is reported at the one token that it is, and that token stops at the end of the document or
in front of the line break that ended it (`Document.exists_token_of_issue`).

`Document.reports` puts these together.
-/

set_option autoImplicit false
namespace GrammarPaint

/-! ## Things that begin in order -/

section Order

variable {α : Type} {f : α → Nat} {xs : List α} {keep : α → Bool}

/-- Of things that begin one behind the other, one is the only one that begins where it does. -/
theorem filter_eq_singleton (h : xs.Pairwise fun x y => f x < f y) {x : α} (hx : x ∈ xs)
    (hkeep : keep x = true) (hsame : ∀ y ∈ xs, keep y = true → f y = f x) :
    xs.filter keep = [x] := by
  obtain ⟨a, b, rfl⟩ := List.append_of_mem hx
  obtain ⟨-, hb, ha⟩ := List.pairwise_append.1 h
  have hbefore : a.filter keep = [] := by
    rw [List.filter_eq_nil_iff]
    intro y hy hk
    have hlt := ha y hy x List.mem_cons_self
    have heq := hsame y (List.mem_append_left _ hy) hk
    omega
  have hbehind : b.filter keep = [] := by
    rw [List.filter_eq_nil_iff]
    intro y hy hk
    have hlt := List.rel_of_pairwise_cons hb hy
    have heq := hsame y (List.mem_append_right _ (List.mem_cons_of_mem _ hy)) hk
    omega
  rw [List.filter_append, List.filter_cons_of_pos hkeep, hbefore, hbehind, List.nil_append]

theorem length_filter_le_one (h : xs.Pairwise fun x y => f x < f y)
    (hsame : ∀ x ∈ xs, keep x = true → ∀ y ∈ xs, keep y = true → f y = f x) :
    (xs.filter keep).length ≤ 1 := by
  cases hfilter : xs.filter keep with
  | nil => exact Nat.zero_le 1
  | cons x rest =>
    obtain ⟨hx, hkeep⟩ := List.mem_filter.1 (hfilter ▸ List.mem_cons_self (l := rest))
    rw [← hfilter, filter_eq_singleton h hx hkeep (hsame x hx hkeep)]
    exact Nat.le_refl 1

end Order

/-! ## Surrogates that are alone -/

namespace CodePoint

/-- A decoded code point stands for a unit or for a pair. -/
theorem exists_of_mem_decode {p : CodePoint} {us : List CodeUnit} (h : p ∈ decode us) :
    (∃ u, p = ofUnit u) ∨
      ∃ u v, p = ofPair u v ∧ u.isHighSurrogate = true ∧ v.isLowSurrogate = true := by
  fun_induction decode us with
  | case1 => exact absurd h List.not_mem_nil
  | case2 u => exact .inl ⟨u, List.mem_singleton.1 h⟩
  | case3 u v rest hpair ih =>
    rw [Bool.and_eq_true] at hpair
    rcases List.mem_cons.1 h with rfl | h
    · exact .inr ⟨u, v, rfl, hpair⟩
    · exact ih h
  | case4 u v rest _ ih =>
    rcases List.mem_cons.1 h with rfl | h
    · exact .inl ⟨u, rfl⟩
    · exact ih h

/-- Every place in a text is in one of its code points. -/
theorem exists_split_of_lt_totalWidth {points : List CodePoint} {offset : Nat}
    (h : offset < totalWidth points) :
    ∃ a p b k, points = a ++ p :: b ∧ offset = totalWidth a + k ∧ k < p.width := by
  induction points generalizing offset with
  | nil => exact absurd h (Nat.not_lt_zero _)
  | cons p points ih =>
    by_cases hp : offset < p.width
    · exact ⟨[], p, points, offset, rfl, (Nat.zero_add _).symm, hp⟩
    · rw [totalWidth] at h
      obtain ⟨a, q, b, k, rfl, hoffset, hk⟩ :=
        ih (show offset - p.width < totalWidth points by omega)
      exact ⟨p :: a, q, b, k, rfl, by rw [totalWidth]; omega, hk⟩

end CodePoint

namespace Document

theorem mem_loneSpans_iff {start : Nat} {points : List CodePoint} {s : Span} :
    s ∈ loneSpans start points ↔
      ∃ a p b, points = a ++ p :: b ∧ p.isLone = true ∧
        s = ⟨start + CodePoint.totalWidth a, start + CodePoint.totalWidth a + p.width⟩ := by
  constructor
  case mpr =>
    rintro ⟨a, p, b, rfl, hp, rfl⟩
    rw [loneSpans_append, loneSpans, if_pos hp]
    exact List.mem_append_right _ List.mem_cons_self
  case mp =>
    intro h
    induction points generalizing start with
    | nil => exact absurd h List.not_mem_nil
    | cons p points ih =>
      have hlater : s ∈ loneSpans (start + p.width) points → ∃ a q b, p :: points = a ++ q :: b ∧
          q.isLone = true ∧
          s = ⟨start + CodePoint.totalWidth a, start + CodePoint.totalWidth a + q.width⟩ := by
        intro h
        obtain ⟨a, q, b, rfl, hq, rfl⟩ := ih h
        exact ⟨p :: a, q, b, rfl, hq, by rw [CodePoint.totalWidth, Nat.add_assoc]⟩
      rw [loneSpans] at h
      split at h
      · rename_i hp
        rcases List.mem_cons.1 h with rfl | h
        · exact ⟨[], p, points, rfl, hp, rfl⟩
        · exact hlater h
      · exact hlater h

variable {d : Document} {a b : List CodePoint} {p : CodePoint}

theorem unitAt?_of_points (h : d.points = a ++ p :: b) {k : Nat} (hk : k < p.width) :
    d.unitAt? (CodePoint.totalWidth a + k) = p.units[k]? := by
  rw [unitAt?, units_eq, h, CodePoint.unitsOf_append, ← CodePoint.length_unitsOf,
    List.getElem?_append_right (Nat.le_add_right _ _), Nat.add_sub_cancel_left,
    CodePoint.unitsOf_cons, List.getElem?_append_left hk]

/-- Whether the unit at `offset` is a surrogate that is not part of a pair. -/
def IsAlone (d : Document) (offset : Nat) : Prop :=
  (∃ u, d.unitAt? offset = some u ∧ u.isSurrogate = true) ∧
    ¬ d.IsInPair offset ∧ ¬ d.IsInPair (offset + 1)

/-- A code point that is a surrogate without its partner is one in the document. -/
theorem isAlone_of_isLone (h : d.points = a ++ p :: b) (hp : p.isLone = true) :
    d.IsAlone (CodePoint.totalWidth a) ∧ p.width = 1 := by
  have hmem : p ∈ d.points := by rw [h]; exact List.mem_append_right _ List.mem_cons_self
  rcases CodePoint.exists_of_mem_decode hmem with ⟨u, rfl⟩ | ⟨u, v, rfl, -⟩
  · have hwidth := CodePoint.width_ofUnit u
    have hunit := unitAt?_of_points h (k := 0) (by omega)
    have hbehind : d.points = (a ++ [CodePoint.ofUnit u]) ++ b := by
      rw [h, List.append_assoc, List.singleton_append]
    have hpair := not_isInPair hbehind
    rw [CodePoint.totalWidth_append, CodePoint.totalWidth, hwidth] at hpair
    rw [CodePoint.units_ofUnit] at hunit
    rw [CodePoint.isLone_ofUnit] at hp
    exact ⟨⟨⟨u, hunit, hp⟩, not_isInPair h, hpair⟩, hwidth⟩
  · exact absurd hp Bool.false_ne_true

/-- **A surrogate is reported where it is alone**, and nowhere else. -/
theorem mem_loneSurrogates_iff {s : Span} :
    s ∈ d.loneSurrogates ↔ ∃ offset, d.IsAlone offset ∧ s = ⟨offset, offset + 1⟩ := by
  rw [loneSurrogates_eq, mem_loneSpans_iff]
  constructor
  case mp =>
    rintro ⟨a, p, b, hpoints, hp, rfl⟩
    obtain ⟨halone, hwidth⟩ := isAlone_of_isLone hpoints hp
    exact ⟨_, halone, by rw [hwidth, Nat.zero_add]⟩
  case mpr =>
    rintro ⟨offset, ⟨⟨u, hu, hsurrogate⟩, hin, hout⟩, rfl⟩
    have hlt : offset < CodePoint.totalWidth d.points := by
      rw [points, CodePoint.totalWidth_decode]
      exact (List.getElem?_eq_some_iff.1 hu).1
    obtain ⟨a, p, b, k, hpoints, rfl, hk⟩ := CodePoint.exists_split_of_lt_totalWidth hlt
    have hmem : p ∈ d.points := by rw [hpoints]; exact List.mem_append_right _ List.mem_cons_self
    rw [unitAt?_of_points hpoints hk] at hu
    rcases CodePoint.exists_of_mem_decode hmem with ⟨w, rfl⟩ | ⟨high, low, rfl, hhigh, hlow⟩
    · have hwidth := CodePoint.width_ofUnit w
      obtain rfl : k = 0 := by omega
      obtain rfl : w = u := by
        rw [CodePoint.units_ofUnit] at hu
        exact Option.some.inj hu
      refine ⟨a, _, b, hpoints, (CodePoint.isLone_ofUnit w).trans hsurrogate, ?_⟩
      rw [hwidth, Nat.zero_add, Nat.add_zero]
    · -- a surrogate in a pair is on one side or the other of the place between its units
      have hunits := CodePoint.units_ofPair hhigh hlow
      have hwidth : (CodePoint.ofPair high low).width = 2 := by rw [CodePoint.width, hunits]; rfl
      have hfirst := unitAt?_of_points hpoints (k := 0) (by omega)
      have hsecond := unitAt?_of_points hpoints (k := 1) (by omega)
      rw [hunits] at hfirst hsecond
      have hpair : d.IsInPair (CodePoint.totalWidth a + 1) :=
        ⟨_, high, low, rfl, hfirst, hsecond, hhigh, hlow⟩
      rcases (by omega : k = 0 ∨ k = 1) with rfl | rfl
      · exact absurd hpair hout
      · exact absurd hpair hin

theorem mem_loneSurrogate_iff {s : Span} :
    ⟨.loneSurrogate, s⟩ ∈ d.lexicalIssues ↔
      ∃ offset, d.IsAlone offset ∧ s = ⟨offset, offset + 1⟩ := by
  have hfilter : ⟨.loneSurrogate, s⟩ ∈ d.lexicalIssues.filter (·.fault == .loneSurrogate) ↔
      s ∈ d.loneSurrogates := by
    rw [filter_loneSurrogate, encodingIssues]
    simp
  rw [← mem_loneSurrogates_iff, ← hfilter, List.mem_filter]
  simp

end Document

/-! ## One place, one issue -/

theorem pairwise_loneSpans (start : Nat) (points : List CodePoint) :
    (Document.loneSpans start points).Pairwise fun s t => s.start < t.start := by
  induction points generalizing start with
  | nil => exact .nil
  | cons p points ih =>
    rw [Document.loneSpans]
    split
    · refine List.pairwise_cons.2 ⟨fun s hs => ?_, ih _⟩
      have hp := p.width_pos
      have hlater := (start_loneSpans hs).1
      simp only
      omega
    · exact ih _

/-- A text that does not begin with a surrogate alone has none at its start. -/
theorem lt_start_of_mem_loneSpans {start : Nat} {p : CodePoint} {points : List CodePoint} {s : Span}
    (hp : p.isLone = false) (h : s ∈ Document.loneSpans start (p :: points)) : start < s.start := by
  rw [Document.loneSpans, if_neg (by simp [hp])] at h
  have hwidth := p.width_pos
  have hlater := (start_loneSpans h).1
  omega

theorem snippetStart_not_mem_kinds (fault : LexicalFault) : .snippetStart ∉ fault.kinds := by
  cases fault <;> decide

/-- A brace that opens a snippet is not a surrogate. -/
theorem isLone_of_snippetStart {m : Mode} {p : CodePoint} {rest : List CodePoint}
    (h : (m.scan p.char rest).kind = .snippetStart) : p.isLone = false := by
  cases m with
  | snippet nesting line => exact absurd h (kind_ne_snippetStart nesting line p.char rest)
  | grammar =>
    rw [CodePoint.eq_scalar_of_char (scanGrammar_of_snippetStart h).1 (by decide)]
    rfl

/-- A lexeme has one issue of its own at most, and then no surrogate is reported where it begins. -/
theorem issues_firstLexeme_cases (m : Mode) (p : CodePoint) (rest : List CodePoint) (start : Nat)
    (following : List Lexeme) :
    let l := firstLexeme m p rest
    let lone := (Document.loneSpans start l.points).map (LexicalIssue.mk .loneSurrogate)
    l.issues start following = lone ∨
      ∃ i, l.issues start following = i :: lone ∧ i.span.start = start ∧ p.isLone = false := by
  intro l lone
  cases hfault : l.fault with
  | some fault =>
    have hkind : l.kind ≠ .snippetStart := by
      intro hkind
      have hmem : l.kind ∈ fault.kinds := (ends_scan m p.char rest fault hfault).1
      exact snippetStart_not_mem_kinds fault (hkind ▸ hmem)
    have hp : p.isLone = false := by
      refine Bool.eq_false_iff.2 fun hp => ?_
      rw [show l.fault = none from fault_scan_of_isLone m hp rest] at hfault
      exact nomatch hfault
    refine .inr ⟨⟨fault, ⟨start, start + l.width⟩⟩, ?_, rfl, hp⟩
    rw [Lexeme.issues, hfault, Lexeme.isUnclosed, beq_false_of_ne hkind]
    rfl
  | none =>
    cases hopen : l.isUnclosed following with
    | true =>
      refine .inr ⟨⟨.unclosedSnippet, ⟨start, start + l.width + Lexeme.totalWidth following⟩⟩, ?_,
        rfl, ?_⟩
      · rw [Lexeme.issues, hfault, hopen]
        rfl
      · rw [Lexeme.isUnclosed, Bool.and_eq_true, beq_iff_eq] at hopen
        exact isLone_of_snippetStart hopen.1
    | false =>
      rw [Lexeme.issues, hfault, hopen]
      exact .inl rfl

theorem pairwise_issues (m : Mode) (p : CodePoint) (rest : List CodePoint) (start : Nat)
    (following : List Lexeme) :
    ((firstLexeme m p rest).issues start following).Pairwise
      fun i j => i.span.start < j.span.start := by
  have hlone : ((Document.loneSpans start (firstLexeme m p rest).points).map
      (LexicalIssue.mk .loneSurrogate)).Pairwise fun i j => i.span.start < j.span.start :=
    List.pairwise_map.2 (pairwise_loneSpans _ _)
  rcases issues_firstLexeme_cases m p rest start following with h | ⟨i, h, hi, hp⟩
  · rw [h]
    exact hlone
  · rw [h]
    refine List.pairwise_cons.2 ⟨fun j hj => ?_, hlone⟩
    obtain ⟨s, hs, rfl⟩ := List.mem_map.1 hj
    rw [hi]
    exact lt_start_of_mem_loneSpans hp hs

/-- The issues of lexemes begin one behind the other. -/
theorem pairwise_placeIssues {ls : List Lexeme} (h : ∀ l ∈ ls, ∃ m p rest, l = firstLexeme m p rest)
    (start : Nat) :
    (placeIssues start ls).Pairwise fun i j => i.span.start < j.span.start := by
  have hpoints : ∀ l ∈ ls, l.points ≠ [] := by
    intro l hl
    obtain ⟨m, p, rest, rfl⟩ := h l hl
    exact List.cons_ne_nil _ _
  induction ls generalizing start with
  | nil => exact .nil
  | cons l ls ih =>
    rw [List.forall_mem_cons] at h hpoints
    obtain ⟨m, p, rest, hl⟩ := h.1
    rw [placeIssues, List.pairwise_append]
    refine ⟨hl ▸ pairwise_issues m p rest start ls, ih h.2 _ hpoints.2, fun i hi j hj => ?_⟩
    exact Nat.lt_of_lt_of_le (start_issues hpoints.1 hi).2
      (le_start_of_mem_placeIssues hpoints.2 hj)

/-- Tokens begin one behind the other. -/
theorem pairwise_placeTokens {ls : List Lexeme} (h : ∀ l ∈ ls, l.points ≠ []) (start : Nat) :
    (placeTokens start ls).Pairwise fun t u => t.span.start < u.span.start := by
  induction ls generalizing start with
  | nil => exact List.pairwise_singleton _ _
  | cons l ls ih =>
    rw [List.forall_mem_cons] at h
    refine List.pairwise_cons.2 ⟨fun t ht => ?_, ih h.2 _⟩
    have hwidth := Lexeme.width_pos h.1
    have hlater := le_start_of_mem_placeTokens ht
    simp only [Lexeme.token, Token.spelled]
    omega

/-- An issue is the issue of a lexeme. -/
theorem exists_split_of_mem_placeIssues {start : Nat} {ls : List Lexeme} {i : LexicalIssue}
    (h : i ∈ placeIssues start ls) :
    ∃ front l back, ls = front ++ l :: back ∧
      i ∈ l.issues (start + Lexeme.totalWidth front) back := by
  induction ls generalizing start with
  | nil => exact absurd h List.not_mem_nil
  | cons k ls ih =>
    rcases List.mem_append.1 h with h | h
    · exact ⟨[], k, ls, rfl, h⟩
    · obtain ⟨front, l, back, rfl, hi⟩ := ih h
      exact ⟨k :: front, l, back, rfl, by rwa [Lexeme.totalWidth, ← Nat.add_assoc]⟩

/-- What is neither alone nor a snippet is a lexeme with a fault. -/
theorem fault_of_mem_issues {l : Lexeme} {start : Nat} {following : List Lexeme} {i : LexicalIssue}
    (h : i ∈ l.issues start following) (hlone : i.fault ≠ .loneSurrogate)
    (hsnippet : i.fault ≠ .unclosedSnippet) :
    l.fault = some i.fault ∧ i.span = ⟨start, start + l.width⟩ := by
  rw [Lexeme.issues, List.mem_append, List.mem_append] at h
  rcases h with (h | h) | h
  · cases hfault : l.fault with
    | none => simp [hfault] at h
    | some fault =>
      rw [hfault] at h
      obtain rfl := List.mem_singleton.1 h
      exact ⟨rfl, rfl⟩
  · split at h
    · obtain rfl := List.mem_singleton.1 h
      exact absurd rfl hsnippet
    · exact absurd h List.not_mem_nil
  · obtain ⟨s, -, rfl⟩ := List.mem_map.1 h
    exact absurd rfl hlone

namespace Document

/-! ## What is not closed -/

/-- Whether `offset` is the end of the document or, if a line break counts, in front of one. -/
def StopsAt (d : Document) (atBreak : Bool) (offset : Nat) : Prop :=
  offset = d.length ∨
    atBreak = true ∧ (d.unitAt? offset = some 0x0D ∨ d.unitAt? offset = some 0x0A)

variable {d : Document}

theorem stopsAt_of_isOver {a b : List CodePoint} (h : d.points = a ++ b) {atBreak : Bool}
    (hover : IsOver atBreak b) : d.StopsAt atBreak (CodePoint.totalWidth a) := by
  rcases hover with rfl | ⟨hbreak, q, rest, rfl, hq⟩
  · left
    rw [length, ← CodePoint.totalWidth_decode d.units, ← points, h, List.append_nil]
  · refine .inr ⟨hbreak, ?_⟩
    have hunit := unitAt?_of_points h (k := 0) q.width_pos
    rw [isLineBreak, Bool.or_eq_true, beq_iff_eq, beq_iff_eq] at hq
    rw [Nat.add_zero] at hunit
    rcases hq with hq | hq
    · rw [hunit, CodePoint.eq_scalar_of_char hq (by decide)]
      exact .inl rfl
    · rw [hunit, CodePoint.eq_scalar_of_char hq (by decide)]
      exact .inr rfl

theorem pairwise_lexicalIssues (d : Document) :
    d.lexicalIssues.Pairwise fun i j => i.span.start < j.span.start :=
  pairwise_placeIssues (fun _ => exists_firstLexeme_of_mem) 0

theorem pairwise_tokens (d : Document) :
    d.tokens.Pairwise fun t u => t.span.start < u.span.start := by
  rw [tokens_eq_placeTokens]
  exact pairwise_placeTokens (fun _ => points_ne_nil_of_mem) 0

/-- **What is not closed is reported at the token that it is**, which stops where it could not go
on. -/
theorem exists_token_of_issue {i : LexicalIssue} (h : i ∈ d.lexicalIssues)
    (hlone : i.fault ≠ .loneSurrogate) (hsnippet : i.fault ≠ .unclosedSnippet) :
    ∃ t ∈ d.tokens, t.span = i.span ∧ t.kind ∈ i.fault.kinds ∧
      d.StopsAt i.fault.atBreak t.span.stop := by
  obtain ⟨front, l, back, hlexemes, hi⟩ := exists_split_of_mem_placeIssues h
  rw [Nat.zero_add] at hi
  obtain ⟨hfault, hspan⟩ := fault_of_mem_issues hi hlone hsnippet
  have htoken := getElem?_tokens hlexemes
  obtain ⟨p, rest, hpoints, rfl, -⟩ := lexemes_eq_append hlexemes
  obtain ⟨hkind, hover⟩ := ends_scan _ p.char rest i.fault hfault
  refine ⟨_, List.mem_of_getElem? htoken, hspan.symm, hkind, ?_⟩
  generalize Mode.grammar.afterAll front = m at hover ⊢
  have hsplit : d.points = (front.flatMap Lexeme.points ++ (firstLexeme m p rest).points)
      ++ rest.drop (m.scan p.char rest).more := by
    have hlength := length_points_firstLexeme m p rest
    rw [hpoints, List.append_assoc, ← points_firstLexeme_append m p rest, hlength,
      Nat.add_sub_cancel]
  have hstop := stopsAt_of_isOver hsplit hover
  rw [CodePoint.totalWidth_append, ← Lexeme.totalWidth_eq, ← Lexeme.width] at hstop
  simpa [Lexeme.token, Token.spelled] using hstop

/-- What it means that lexical issues and the tokens of a document belong together. -/
structure Reports (d : Document) : Prop where
  /-- Issues begin one behind the other. -/
  increasing : d.lexicalIssues.Pairwise fun i j => i.span.start < j.span.start
  /-- The surrogates that are reported are those that are not part of a pair. -/
  surrogates : ∀ s, ⟨.loneSurrogate, s⟩ ∈ d.lexicalIssues ↔
    ∃ offset, d.IsAlone offset ∧ s = ⟨offset, offset + 1⟩
  /-- What else is reported, but for snippets, is one token, of a kind that the fault is named
  for, and the token stops where nothing can close it any more. -/
  unclosed : ∀ i ∈ d.lexicalIssues, i.fault ≠ .loneSurrogate → i.fault ≠ .unclosedSnippet →
    ∃ t, d.tokens.filter (·.span == i.span) = [t] ∧ t.kind ∈ i.fault.kinds ∧
      d.StopsAt i.fault.atBreak t.span.stop
  /-- No token is reported twice. -/
  once : ∀ t ∈ d.tokens, (d.lexicalIssues.filter (·.span == t.span)).length ≤ 1

/-- **Lexical issues and tokens belong together**, whatever the code units of the document are. -/
theorem reports (d : Document) : d.Reports where
  increasing := d.pairwise_lexicalIssues
  surrogates s := mem_loneSurrogate_iff
  unclosed := by
    intro i hi hlone hsnippet
    obtain ⟨t, ht, hspan, hkind, hstop⟩ := exists_token_of_issue hi hlone hsnippet
    refine ⟨t, filter_eq_singleton d.pairwise_tokens ht (beq_iff_eq.2 hspan) ?_, hkind, hstop⟩
    intro u _ hu
    rw [hspan, beq_iff_eq.1 hu]
  once := by
    intro t _
    refine length_filter_le_one d.pairwise_lexicalIssues fun i _ hi j _ hj => ?_
    rw [beq_iff_eq.1 hi, beq_iff_eq.1 hj]

/-- A surrogate inside a token is reported beside the token. -/
example : (Document.mk [0x22, 0xD800]).lexicalIssues
    = [⟨.unclosedString, ⟨0, 2⟩⟩, ⟨.loneSurrogate, ⟨1, 2⟩⟩] := by decide +kernel

end Document
end GrammarPaint
