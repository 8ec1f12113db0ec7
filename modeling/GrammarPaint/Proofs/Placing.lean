import GrammarPaint.Lexeme.Placement
import GrammarPaint.Lexeme.Scanner
import GrammarPaint.Proofs.Moving

/-!
# Placing lexemes

Placed one behind the other, lexemes become tokens and issues (`placeTokens`, `placeIssues`).  Here
the style of a `#` is not written when the word behind it is met, as a scan does, but read off what
follows (`Lexeme.style`); `Document.tokens_eq_placeTokens` says that this comes to the same.

A split of the lexemes is a split of the tokens and of the issues: `frontTokens` and `frontIssues`
are what the lexemes before the split become, and they keep to the left of it
(`start_frontTokens`, `start_frontIssues`).

Behind a split, everything moves along with the place of the split (`placeTokens_moved`,
`placeIssues_moved`).
-/

set_option autoImplicit false
namespace GrammarPaint

/-! ## Tokens that look ahead -/

namespace Lexeme

/-- A lexeme that leaves the place on a line of code as it is: spacing without line breaks, or a
block comment. -/
def isGap (l : Lexeme) : Bool :=
  (l.kind == .whitespace && !l.text.any isLineBreak) || l.kind == .codeBlockComment

/-- Whether a lexeme is a `#` with nothing before it on its line. -/
def isLineFirstPound (l : Lexeme) : Bool :=
  l.isPound &&
    match l.mode with
    | .snippet _ .atStart => true
    | _ => false

/-- Whether the lexeme after the gaps that a text begins with is a keyword of embedded code. -/
def keywordFollows (following : List Lexeme) : Bool :=
  match following.dropWhile isGap with
  | [] => false
  | l :: _ => l.kind == .codeKeyword

/-- The style of a lexeme that stands before `following`. -/
def style (l : Lexeme) (following : List Lexeme) : Option Style :=
  if l.isLineFirstPound && keywordFollows following then some .keyword else l.kind.style?

/-- The token of a lexeme that starts at `start` and stands before `following`. -/
def token (l : Lexeme) (start : Nat) (following : List Lexeme) : Token :=
  .spelled l.kind (spell l.points) ⟨start, start + l.width⟩ (l.style following)

end Lexeme

/-- The tokens of lexemes the first of which starts at `start`, and the token that ends the
file. -/
def placeTokens (start : Nat) : List Lexeme → List Token
  | [] => [.endOfFile start]
  | l :: following => l.token start following :: placeTokens (start + l.width) following

/-! ## Moving -/

theorem loneSpans_moved (k n m : Nat) (points : List CodePoint) :
    Document.loneSpans (k + m) points
      = (Document.loneSpans (k + n) points).map (Span.moved n m) := by
  induction points generalizing k with
  | nil => rfl
  | cons p points ih =>
    rw [Document.loneSpans, Document.loneSpans, Nat.add_right_comm, ih, Nat.add_right_comm k n]
    split
    · rw [List.map_cons, Nat.add_right_comm k p.width n, Nat.add_right_comm k p.width m,
        moved_span]
    · rfl

namespace Lexeme

theorem token_moved (l : Lexeme) (k n m : Nat) (following : List Lexeme) :
    l.token (k + m) following = (l.token (k + n) following).mapSpan (Span.moved n m) := by
  simp only [token, Token.spelled, Token.mapSpan, moved_span]

theorem issues_moved (l : Lexeme) (k n m : Nat) (following : List Lexeme) :
    l.issues (k + m) following
      = (l.issues (k + n) following).map (LexicalIssue.mapSpan (Span.moved n m)) := by
  rw [issues, issues, List.map_append, List.map_append, loneSpans_moved k n m, List.map_map,
    List.map_map]
  congr 1
  congr 1
  · cases l.fault with
    | none => rfl
    | some fault => simp [LexicalIssue.mapSpan, moved_span]
  · split
    · simp only [List.map_cons, List.map_nil, LexicalIssue.mapSpan, Nat.add_assoc (k + m),
        Nat.add_assoc (k + n), moved_span]
    · rfl

end Lexeme

/-- **Tokens move along with the place where they begin.** -/
theorem placeTokens_moved (k n m : Nat) (ls : List Lexeme) :
    placeTokens (k + m) ls = (placeTokens (k + n) ls).map (Token.mapSpan (Span.moved n m)) := by
  induction ls generalizing k with
  | nil =>
    simp [placeTokens, Token.endOfFile, Token.spelled, Token.mapSpan, Span.point, Span.moved]
  | cons l ls ih =>
    rw [placeTokens, placeTokens, List.map_cons, l.token_moved k n m, Nat.add_right_comm, ih,
      Nat.add_right_comm k n]

/-- **Issues move along with the place where they begin.** -/
theorem placeIssues_moved (k n m : Nat) (ls : List Lexeme) :
    placeIssues (k + m) ls
      = (placeIssues (k + n) ls).map (LexicalIssue.mapSpan (Span.moved n m)) := by
  induction ls generalizing k with
  | nil => rfl
  | cons l ls ih =>
    rw [placeIssues, placeIssues, List.map_append, l.issues_moved k n m, Nat.add_right_comm, ih,
      Nat.add_right_comm k n]

/-- The tokens that are placed end with the end of the file. -/
theorem exists_isEnd_placeTokens (start : Nat) (ls : List Lexeme) :
    ∃ t ∈ placeTokens start ls, t.isEnd = true := by
  induction ls generalizing start with
  | nil => exact ⟨_, List.mem_cons_self, rfl⟩
  | cons l ls ih =>
    obtain ⟨t, ht, hend⟩ := ih (start + l.width)
    exact ⟨t, List.mem_cons_of_mem _ ht, hend⟩

/-! ## Splits -/

/-- The tokens of the first of some lexemes. -/
def frontTokens (start : Nat) : List Lexeme → List Lexeme → List Token
  | [], _ => []
  | l :: front, back => l.token start (front ++ back) :: frontTokens (start + l.width) front back

/-- The issues of the first of some lexemes. -/
def frontIssues (start : Nat) : List Lexeme → List Lexeme → List LexicalIssue
  | [], _ => []
  | l :: front, back =>
    l.issues start (front ++ back) ++ frontIssues (start + l.width) front back

namespace Lexeme

theorem totalWidth_append (a b : List Lexeme) :
    totalWidth (a ++ b) = totalWidth a + totalWidth b := by
  induction a with
  | nil => exact (Nat.zero_add _).symm
  | cons l a ih => rw [List.cons_append, totalWidth, totalWidth, ih, Nat.add_assoc]

theorem totalWidth_eq (ls : List Lexeme) :
    totalWidth ls = CodePoint.totalWidth (ls.flatMap Lexeme.points) := by
  induction ls with
  | nil => rfl
  | cons l ls ih => rw [totalWidth, ih, List.flatMap_cons, CodePoint.totalWidth_append, width]

theorem width_pos {l : Lexeme} (h : l.points ≠ []) : 0 < l.width := by
  obtain ⟨p, points, hpoints⟩ := List.exists_cons_of_ne_nil h
  have hp := p.width_pos
  rw [width, hpoints, CodePoint.totalWidth]
  omega

end Lexeme

/-! ## What lexemes look for behind them

A `#` looks for a directive, and a brace that opens a snippet for the brace that closes it.  Where
neither goes on looking, it does not matter what comes next. -/

namespace Lexeme

theorem isUnclosed_iff {l : Lexeme} (h : l.kind = .snippetStart) (following : List Lexeme) :
    l.isUnclosed following = true ↔ ¬ ∃ f ∈ following, f.kind = .snippetEnd := by
  simp [isUnclosed, h]

theorem keywordFollows_append {l : Lexeme} (hgap : l.isGap = false) (front back : List Lexeme) :
    keywordFollows (front ++ l :: back) = keywordFollows (front ++ [l]) := by
  induction front with
  | nil =>
    rw [List.nil_append, List.nil_append, keywordFollows, keywordFollows,
      List.dropWhile_cons_of_neg (by simp [hgap]), List.dropWhile_cons_of_neg (by simp [hgap])]
  | cons k front ih =>
    rw [keywordFollows, keywordFollows] at ih ⊢
    rw [List.cons_append, List.cons_append]
    by_cases hk : k.isGap = true
    · rw [List.dropWhile_cons_of_pos hk, List.dropWhile_cons_of_pos hk]
      exact ih
    · rw [List.dropWhile_cons_of_neg hk, List.dropWhile_cons_of_neg hk]

end Lexeme

/-- Tokens up to a lexeme that is no gap and no `#` do not depend on what comes behind it. -/
theorem frontTokens_append {l : Lexeme} (hgap : l.isGap = false)
    (hpound : l.isLineFirstPound = false) (start : Nat) (front back : List Lexeme) :
    frontTokens start (front ++ [l]) back = frontTokens start (front ++ [l]) [] := by
  induction front generalizing start with
  | nil =>
    simp only [List.nil_append, frontTokens, Lexeme.token, Lexeme.style, hpound, Bool.false_and]
  | cons k front ih =>
    rw [List.cons_append, frontTokens, frontTokens, ih, Lexeme.token, Lexeme.token, Lexeme.style,
      Lexeme.style, List.append_assoc, List.singleton_append,
      Lexeme.keywordFollows_append hgap front back, List.append_nil]

/-- Every snippet that `front` opens is closed in `front` or in `back`. -/
def ClosesAll (front back : List Lexeme) : Prop :=
  ∀ before l after, front = before ++ l :: after → l.kind = .snippetStart →
    ∃ closing ∈ after ++ back, closing.kind = .snippetEnd

theorem ClosesAll.of_mem {front back : List Lexeme} (closing : Lexeme) (hmem : closing ∈ back)
    (hkind : closing.kind = .snippetEnd) : ClosesAll front back :=
  fun _ _ _ _ _ => ⟨closing, List.mem_append_right _ hmem, hkind⟩

theorem ClosesAll.append_right {front back : List Lexeme} (h : ClosesAll front back)
    (more : List Lexeme) : ClosesAll front (back ++ more) := by
  intro before l after hfront hkind
  obtain ⟨closing, hmem, hclosing⟩ := h before l after hfront hkind
  exact ⟨closing, by rw [← List.append_assoc]; exact List.mem_append_left _ hmem, hclosing⟩

theorem ClosesAll.tail {l : Lexeme} {front back : List Lexeme} (h : ClosesAll (l :: front) back) :
    ClosesAll front back :=
  fun before k after hfront => h (l :: before) k after (congrArg (l :: ·) hfront)

theorem ClosesAll.isUnclosed_eq_false {l : Lexeme} {front back : List Lexeme}
    (h : ClosesAll (l :: front) back) : l.isUnclosed (front ++ back) = false := by
  rw [Lexeme.isUnclosed]
  by_cases hkind : l.kind = .snippetStart
  · obtain ⟨closing, hmem, hclosing⟩ := h [] l front rfl hkind
    rw [Bool.and_eq_false_iff]
    refine .inr (List.all_eq_false.2 ⟨closing, hmem, ?_⟩)
    simp [hclosing]
  · simp [hkind]

/-- Issues do not depend on what comes behind, where no snippet is left open. -/
theorem frontIssues_congr {front back back' : List Lexeme} (h : ClosesAll front back)
    (h' : ClosesAll front back') (start : Nat) :
    frontIssues start front back = frontIssues start front back' := by
  induction front generalizing start with
  | nil => rfl
  | cons l front ih =>
    rw [frontIssues, frontIssues, ih h.tail h'.tail, Lexeme.issues, Lexeme.issues,
      h.isUnclosed_eq_false, h'.isUnclosed_eq_false]
    rfl

/-! ## Splits of the result -/

theorem placeTokens_append (start : Nat) (front back : List Lexeme) :
    placeTokens start (front ++ back)
      = frontTokens start front back ++ placeTokens (start + Lexeme.totalWidth front) back := by
  induction front generalizing start with
  | nil => rfl
  | cons l front ih =>
    rw [List.cons_append, placeTokens, ih, frontTokens, Lexeme.totalWidth, Nat.add_assoc,
      List.cons_append]

theorem placeIssues_append (start : Nat) (front back : List Lexeme) :
    placeIssues start (front ++ back)
      = frontIssues start front back ++ placeIssues (start + Lexeme.totalWidth front) back := by
  induction front generalizing start with
  | nil => rfl
  | cons l front ih =>
    rw [List.cons_append, placeIssues, ih, frontIssues, Lexeme.totalWidth, Nat.add_assoc,
      List.append_assoc]

theorem placeTokens_eq (start : Nat) (ls : List Lexeme) :
    placeTokens start ls
      = frontTokens start ls [] ++ [.endOfFile (start + Lexeme.totalWidth ls)] := by
  have hall := placeTokens_append start ls []
  rwa [List.append_nil] at hall

theorem placeIssues_eq (start : Nat) (ls : List Lexeme) :
    placeIssues start ls = frontIssues start ls [] := by
  have hall := placeIssues_append start ls []
  rwa [List.append_nil, placeIssues, List.append_nil] at hall

theorem length_placeTokens (start : Nat) (ls : List Lexeme) :
    (placeTokens start ls).length = ls.length + 1 := by
  induction ls generalizing start with
  | nil => rfl
  | cons l ls ih => rw [placeTokens, List.length_cons, ih, List.length_cons]

theorem length_frontTokens (start : Nat) (front back : List Lexeme) :
    (frontTokens start front back).length = front.length := by
  induction front generalizing start with
  | nil => rfl
  | cons l front ih => rw [frontTokens, List.length_cons, ih, List.length_cons]

/-- A place among the tokens is a place among the lexemes. -/
theorem take_placeTokens (start : Nat) (front back : List Lexeme) :
    (placeTokens start (front ++ back)).take front.length = frontTokens start front back := by
  rw [placeTokens_append, List.take_left' (length_frontTokens start front back)]

theorem drop_placeTokens (start : Nat) (front back : List Lexeme) :
    (placeTokens start (front ++ back)).drop front.length
      = placeTokens (start + Lexeme.totalWidth front) back := by
  rw [placeTokens_append, List.drop_left' (length_frontTokens start front back)]

theorem getElem?_placeTokens (start : Nat) (front : List Lexeme) (l : Lexeme)
    (back : List Lexeme) :
    (placeTokens start (front ++ l :: back))[front.length]?
      = some (l.token (start + Lexeme.totalWidth front) back) := by
  rw [← List.head?_drop, drop_placeTokens]
  rfl

/-- The lexemes before the token at an index, and those from there on. -/
theorem exists_split_of_getElem? {start i : Nat} {ls : List Lexeme} {t : Token}
    (h : (placeTokens start ls)[i]? = some t) :
    ∃ front back, ls = front ++ back ∧ front.length = i ∧
      (placeTokens (start + Lexeme.totalWidth front) back).head? = some t := by
  have hindex : i < (placeTokens start ls).length := (List.getElem?_eq_some_iff.1 h).1
  rw [length_placeTokens] at hindex
  have hlen : (ls.take i).length = i := List.length_take_of_le (Nat.le_of_lt_succ hindex)
  refine ⟨ls.take i, ls.drop i, (List.take_append_drop i ls).symm, hlen, ?_⟩
  rw [← drop_placeTokens, List.take_append_drop, hlen, List.head?_drop, h]

/-- **A token ends the file, or it splits the lexemes.** -/
theorem exists_split_of_placeTokens {start : Nat} {ls : List Lexeme} {before after : List Token}
    {t : Token} (h : placeTokens start ls = before ++ t :: after) :
    t = .endOfFile (start + Lexeme.totalWidth ls) ∨
      ∃ front l back, ls = front ++ l :: back ∧ before = frontTokens start front (l :: back) ∧
        t = l.token (start + Lexeme.totalWidth front) back ∧
        after = placeTokens (start + Lexeme.totalWidth front + l.width) back := by
  induction before generalizing start ls with
  | nil =>
    cases ls with
    | nil =>
      obtain ⟨rfl, -⟩ := List.cons.inj h
      exact .inl rfl
    | cons l back =>
      obtain ⟨rfl, rfl⟩ := List.cons.inj h
      exact .inr ⟨[], l, back, rfl, rfl, rfl, rfl⟩
  | cons u before ih =>
    cases ls with
    | nil => simp [placeTokens] at h
    | cons k ls =>
      rw [placeTokens, List.cons_append, List.cons.injEq] at h
      obtain ⟨rfl, h⟩ := h
      rcases ih h with rfl | ⟨front, l, back, rfl, rfl, rfl, rfl⟩
      · exact .inl (by rw [Lexeme.totalWidth, Nat.add_assoc])
      · refine .inr ⟨k :: front, l, back, rfl, rfl, ?_, ?_⟩ <;>
          rw [Lexeme.totalWidth, Nat.add_assoc start]

theorem map_kind_frontTokens (start : Nat) (front back : List Lexeme) :
    (frontTokens start front back).map Token.kind = front.map Lexeme.kind := by
  induction front generalizing start with
  | nil => rfl
  | cons l front ih => rw [frontTokens, List.map_cons, List.map_cons, ih]; rfl

/-- What a kind there is among the tokens there is among the lexemes, but for the end of the
file. -/
theorem exists_kind_placeTokens {kind : TokenKind} (h : kind ≠ .endOfFile) (start : Nat)
    (ls : List Lexeme) :
    (∃ t ∈ placeTokens start ls, t.kind = kind) ↔ ∃ l ∈ ls, l.kind = kind := by
  have hkinds : (placeTokens start ls).map Token.kind = ls.map Lexeme.kind ++ [.endOfFile] := by
    rw [placeTokens_eq, List.map_append, map_kind_frontTokens]
    rfl
  rw [← List.mem_map, ← List.mem_map, hkinds, List.mem_append, List.mem_singleton, or_iff_left h]

theorem exists_mem_frontTokens {front : List Lexeme} {l : Lexeme} (h : l ∈ front) (start : Nat)
    (back : List Lexeme) : ∃ t ∈ frontTokens start front back, t.kind = l.kind := by
  have hmem : l.kind ∈ front.map Lexeme.kind := List.mem_map_of_mem h
  rw [← map_kind_frontTokens start front back] at hmem
  exact List.mem_map.1 hmem

theorem exists_mem_of_mem_frontTokens {front : List Lexeme} {start : Nat} {back : List Lexeme}
    {t : Token} (h : t ∈ frontTokens start front back) : ∃ l ∈ front, l.kind = t.kind := by
  have hmem : t.kind ∈ (frontTokens start front back).map Token.kind := List.mem_map_of_mem h
  rw [map_kind_frontTokens] at hmem
  exact List.mem_map.1 hmem

/-! ## Where things begin -/

/-- What begins before a place, and what begins there or behind it. -/
theorem filter_start_append {α : Type} {a b : List α} {place : Nat} (start : α → Nat)
    (ha : ∀ x ∈ a, start x < place) (hb : ∀ x ∈ b, place ≤ start x) :
    (a ++ b).filter (fun x => start x < place) = a ∧
      (a ++ b).filter (fun x => place ≤ start x) = b := by
  have hbefore : a.filter (fun x => start x < place) = a ∧
      a.filter (fun x => place ≤ start x) = [] := by
    rw [List.filter_eq_self, List.filter_eq_nil_iff]
    simpa using ha
  have hbehind : b.filter (fun x => start x < place) = [] ∧
      b.filter (fun x => place ≤ start x) = b := by
    rw [List.filter_eq_self, List.filter_eq_nil_iff]
    simpa using hb
  rw [List.filter_append, List.filter_append, hbefore.1, hbefore.2, hbehind.1, hbehind.2,
    List.append_nil, List.nil_append]
  exact ⟨rfl, rfl⟩

theorem le_start_of_mem_placeTokens {start : Nat} {ls : List Lexeme} {t : Token}
    (h : t ∈ placeTokens start ls) : start ≤ t.span.start := by
  induction ls generalizing start with
  | nil =>
    obtain rfl := List.mem_singleton.1 h
    exact Nat.le_refl _
  | cons l ls ih =>
    rcases List.mem_cons.1 h with rfl | h
    · exact Nat.le_refl _
    · exact Nat.le_trans (Nat.le_add_right _ _) (ih h)

theorem start_frontTokens {start : Nat} {front back : List Lexeme} {t : Token}
    (hpoints : ∀ l ∈ front, l.points ≠ []) (h : t ∈ frontTokens start front back) :
    start ≤ t.span.start ∧ t.span.start < start + Lexeme.totalWidth front := by
  induction front generalizing start with
  | nil => exact absurd h List.not_mem_nil
  | cons l front ih =>
    rw [Lexeme.totalWidth]
    rcases List.mem_cons.1 h with rfl | h
    · have hwidth := Lexeme.width_pos (hpoints l List.mem_cons_self)
      exact ⟨Nat.le_refl _, by simp only [Lexeme.token, Token.spelled]; omega⟩
    · have hstart := ih (fun k hk => hpoints k (List.mem_cons_of_mem _ hk)) h
      omega

theorem start_loneSpans {start : Nat} {points : List CodePoint} {s : Span}
    (h : s ∈ Document.loneSpans start points) :
    start ≤ s.start ∧ s.start < start + CodePoint.totalWidth points := by
  induction points generalizing start with
  | nil => exact absurd h List.not_mem_nil
  | cons p points ih =>
    have hp := p.width_pos
    have hlater : s ∈ Document.loneSpans (start + p.width) points →
        start ≤ s.start ∧ s.start < start + CodePoint.totalWidth (p :: points) := by
      intro h
      have hs := ih h
      rw [CodePoint.totalWidth]
      omega
    rw [Document.loneSpans] at h
    split at h
    · rcases List.mem_cons.1 h with rfl | h
      · rw [CodePoint.totalWidth]
        exact ⟨Nat.le_refl _, by simp only; omega⟩
      · exact hlater h
    · exact hlater h

theorem start_issues {start : Nat} {l : Lexeme} {following : List Lexeme} {i : LexicalIssue}
    (hpoints : l.points ≠ []) (h : i ∈ l.issues start following) :
    start ≤ i.span.start ∧ i.span.start < start + l.width := by
  have hwidth := Lexeme.width_pos hpoints
  rw [Lexeme.issues, List.mem_append, List.mem_append] at h
  rcases h with (h | h) | h
  · cases hfault : l.fault with
    | none => simp [hfault] at h
    | some fault =>
      simp only [hfault, List.mem_singleton] at h
      rw [h]
      exact ⟨Nat.le_refl _, by simp only; omega⟩
  · split at h
    · obtain rfl := List.mem_singleton.1 h
      exact ⟨Nat.le_refl _, by simp only; omega⟩
    · exact absurd h List.not_mem_nil
  · obtain ⟨s, hs, rfl⟩ := List.mem_map.1 h
    exact start_loneSpans hs

theorem start_frontIssues {start : Nat} {front back : List Lexeme} {i : LexicalIssue}
    (hpoints : ∀ l ∈ front, l.points ≠ []) (h : i ∈ frontIssues start front back) :
    start ≤ i.span.start ∧ i.span.start < start + Lexeme.totalWidth front := by
  induction front generalizing start with
  | nil => exact absurd h List.not_mem_nil
  | cons l front ih =>
    rw [Lexeme.totalWidth]
    rcases List.mem_append.1 h with h | h
    · have hstart := start_issues (hpoints l List.mem_cons_self) h
      omega
    · have hstart := ih (fun k hk => hpoints k (List.mem_cons_of_mem _ hk)) h
      omega

theorem le_start_of_mem_placeIssues {start : Nat} {ls : List Lexeme} {i : LexicalIssue}
    (hpoints : ∀ l ∈ ls, l.points ≠ []) (h : i ∈ placeIssues start ls) :
    start ≤ i.span.start := by
  rw [placeIssues_eq] at h
  exact (start_frontIssues hpoints h).1

end GrammarPaint
