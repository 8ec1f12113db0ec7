import GrammarPaint.Proofs.Placing

/-!
# What a scan writes

A scan writes the style of a `#` when it comes to the name of a directive, and placed lexemes look
for that name ahead (`Lexeme.style`).  Here the two are seen to be the same.

All that a lexeme at the end can change is the style of one `#`, the one that is the first on its
line and has nothing but gaps behind it (`openPound`, `frontTokens_singleton`).  A scan that is
directly behind such a `#` has kept its place (`Scanner.IsBehind`).  So with each lexeme that is
pushed the tokens of the scan stay those of the lexemes behind it (`Scanner.IsBehind.push`), and
in the end they are those of all lexemes (`Document.tokens_eq_placeTokens`).
-/

set_option autoImplicit false
namespace GrammarPaint

/-! ## The `#` that may begin a directive -/

namespace Lexeme

/-- The place of the `#` that the name of a directive behind `ls` belongs to: it is the first on its
line, and there are only gaps behind it. -/
def openPound : List Lexeme → Option Nat
  | [] => none
  | l :: ls => if l.isLineFirstPound && ls.all isGap then some 0 else (openPound ls).map (· + 1)

theorem isPound_iff {l : Lexeme} :
    l.isPound = true ↔ l.kind = .codePunctuator ∧ l.text = ['#'] := by
  rw [isPound, Bool.and_eq_true, beq_iff_eq, beq_iff_eq]

theorem isPound_of_isLineFirstPound {l : Lexeme} (h : l.isLineFirstPound = true) :
    l.isPound = true :=
  (Bool.and_eq_true_iff.1 h).1

theorem isGap_eq_false {l : Lexeme} (h : l.kind ≠ .whitespace ∧ l.kind ≠ .codeBlockComment) :
    l.isGap = false := by
  rw [isGap, beq_eq_false_iff_ne.2 h.1, beq_eq_false_iff_ne.2 h.2]
  rfl

theorem isGap_of_isPound {l : Lexeme} (h : l.isPound = true) : l.isGap = false := by
  refine isGap_eq_false ?_
  rw [(isPound_iff.1 h).1]
  decide

/-- Behind one more lexeme: a gap leaves a `#` open, and anything else does not, but for a `#` that
is the first on its line itself. -/
theorem openPound_concat (ls : List Lexeme) (l : Lexeme) :
    openPound (ls ++ [l])
      = if l.isGap then openPound ls else if l.isLineFirstPound then some ls.length else none := by
  induction ls with
  | nil =>
    rw [List.nil_append, openPound, openPound, List.all_nil, Bool.and_true]
    cases hpound : l.isLineFirstPound with
    | false => cases l.isGap <;> rfl
    | true => rw [isGap_of_isPound (isPound_of_isLineFirstPound hpound)]; rfl
  | cons k ls ih =>
    rw [List.cons_append, openPound, ih, openPound, List.all_append, List.all_cons, List.all_nil,
      Bool.and_true]
    cases l.isGap with
    | true => rw [Bool.and_true, if_pos rfl, if_pos rfl]
    | false =>
      rw [Bool.and_false, Bool.and_false, if_neg Bool.false_ne_true, if_neg Bool.false_ne_true,
        if_neg Bool.false_ne_true]
      cases l.isLineFirstPound <;> rfl

theorem openPound_of_all_isGap {ls : List Lexeme} (h : ls.all isGap = true) :
    openPound ls = none := by
  induction ls with
  | nil => rfl
  | cons l ls ih =>
    rw [List.all_cons, Bool.and_eq_true] at h
    have hpound : l.isLineFirstPound = false :=
      Bool.eq_false_iff.2 fun hpound =>
        Bool.eq_false_iff.1 (isGap_of_isPound (isPound_of_isLineFirstPound hpound)) h.1
    rw [openPound, hpound, Bool.false_and, if_neg Bool.false_ne_true, ih h.2, Option.map_none]

/-! ## What a lexeme at the end changes -/

theorem keywordFollows_concat (ls : List Lexeme) (l : Lexeme) :
    keywordFollows (ls ++ [l])
      = if ls.all isGap then l.kind == .codeKeyword else keywordFollows ls := by
  induction ls with
  | nil =>
    rw [List.nil_append, List.all_nil, if_pos rfl, keywordFollows]
    cases hgap : l.isGap with
    | false => rw [List.dropWhile_cons_of_neg (by rw [hgap]; exact Bool.false_ne_true)]
    | true =>
      rw [List.dropWhile_cons_of_pos hgap, List.dropWhile_nil]
      refine (beq_eq_false_iff_ne.2 fun hkind => ?_).symm
      rw [isGap_eq_false (by rw [hkind]; decide)] at hgap
      cases hgap
  | cons k ls ih =>
    rw [keywordFollows, keywordFollows] at ih ⊢
    rw [List.cons_append, List.all_cons]
    cases hgap : k.isGap with
    | false =>
      have hnot : ¬ k.isGap = true := Bool.eq_false_iff.1 hgap
      rw [List.dropWhile_cons_of_neg hnot, List.dropWhile_cons_of_neg hnot]
      rfl
    | true =>
      rw [List.dropWhile_cons_of_pos hgap, List.dropWhile_cons_of_pos hgap, ih, Bool.true_and]

theorem style_concat (k l : Lexeme) (ls : List Lexeme) :
    k.style (ls ++ [l])
      = if (k.isLineFirstPound && ls.all isGap) = true ∧ l.kind = .codeKeyword then some .keyword
        else k.style ls := by
  rw [style, keywordFollows_concat, style]
  cases hgaps : ls.all isGap with
  | false => simp
  | true =>
    have hnone : keywordFollows ls = false := by
      rw [keywordFollows, ← List.append_nil ls,
        List.dropWhile_append_of_pos (List.all_eq_true.1 hgaps)]
      rfl
    simp [hnone]

end Lexeme

open Lexeme (openPound)

theorem frontTokens_concat (start : Nat) (front back : List Lexeme) (l : Lexeme) :
    frontTokens start (front ++ [l]) back
      = frontTokens start front (l :: back)
        ++ [l.token (start + Lexeme.totalWidth front) back] := by
  induction front generalizing start with
  | nil => rfl
  | cons k front ih =>
    rw [List.cons_append, frontTokens, ih, frontTokens, Lexeme.totalWidth, Nat.add_assoc,
      List.append_assoc, List.singleton_append, List.cons_append]

theorem frontTokens_singleton_of_ne {l : Lexeme} (h : l.kind ≠ .codeKeyword) (start : Nat)
    (ls : List Lexeme) : frontTokens start ls [l] = frontTokens start ls [] := by
  induction ls generalizing start with
  | nil => rfl
  | cons k ls ih =>
    rw [frontTokens, frontTokens, ih, Lexeme.token, Lexeme.token, Lexeme.style_concat,
      if_neg fun hall => h hall.2, List.append_nil]

/-- **A keyword at the end writes the style of the `#` that is open.** -/
theorem frontTokens_singleton {l : Lexeme} (h : l.kind = .codeKeyword) (start : Nat)
    (ls : List Lexeme) :
    frontTokens start ls [l]
      = (openPound ls).elim (frontTokens start ls [])
          fun place => restyleAt (frontTokens start ls []) place (some .keyword) := by
  induction ls generalizing start with
  | nil => rfl
  | cons k ls ih =>
    rw [frontTokens, frontTokens, ih, Lexeme.token, Lexeme.style_concat, List.append_nil, openPound]
    cases hopen : k.isLineFirstPound && ls.all Lexeme.isGap with
    | true =>
      rw [Lexeme.openPound_of_all_isGap (Bool.and_eq_true_iff.1 hopen).2, if_pos ⟨rfl, h⟩,
        if_pos rfl]
      rfl
    | false =>
      rw [if_neg fun hall => Bool.false_ne_true hall.1, if_neg Bool.false_ne_true]
      cases openPound ls <;> rfl

/-! ## A scan under way -/

theorem isAfterPound_after (l : Lexeme) :
    (l.mode.after l.kind l.text).isAfterPound
      = if l.isGap then l.mode.isAfterPound else l.isLineFirstPound := by
  rw [Lexeme.isGap, Lexeme.isLineFirstPound, Lexeme.isPound]
  cases l.mode with
  | grammar =>
    have hafter : (Mode.grammar.after l.kind l.text).isAfterPound = false := by
      rw [Mode.after]
      split <;> rfl
    rw [hafter, Bool.and_false]
    split <;> rfl
  | snippet nesting line =>
    rw [Mode.after]
    cases l.kind with
    | whitespace =>
      rw [if_neg (by decide), LineState.after]
      cases l.text.any isLineBreak <;> rfl
    | codePunctuator =>
      rw [if_neg (by decide), LineState.after]
      cases line <;> by_cases htext : l.text = ['#'] <;> simp [htext, Mode.isAfterPound]
    | codeKeyword =>
      rw [if_neg (by decide), LineState.after]
      split <;> rfl
    | _ => rfl

namespace Scanner

/-- What there is to say of a scan that is behind some lexemes. -/
structure IsBehind (s : Scanner) (ls : List Lexeme) : Prop where
  position : s.position = Lexeme.totalWidth ls
  tokens : s.tokens.toList = frontTokens 0 ls []
  /-- Where the name of a directive can come next, the place of its `#` is known. -/
  pound : openPound ls = if s.mode.isAfterPound then s.lastPound else none

theorem isBehind_start : start.IsBehind [] := ⟨rfl, rfl, rfl⟩

theorem toList_markPound (s : Scanner) :
    s.markPound.toList
      = s.lastPound.elim s.tokens.toList fun place =>
          restyleAt s.tokens.toList place (some .keyword) := by
  rw [markPound]
  cases s.lastPound with
  | none => rfl
  | some place => exact Array.toList_modify

variable {s : Scanner} {ls : List Lexeme}

theorem IsBehind.push (h : s.IsBehind ls) {l : Lexeme} (hmode : l.mode = s.mode) :
    (s.push l).IsBehind (ls ++ [l]) where
  position := by
    rw [Scanner.push, h.position, Lexeme.totalWidth_append]
    rfl
  tokens := by
    have htoken : Token.spelled l.kind (spell l.points) ⟨s.position, s.position + l.width⟩
        l.kind.style? = l.token (0 + Lexeme.totalWidth ls) [] := by
      rw [Lexeme.token, Lexeme.style, Lexeme.keywordFollows, List.dropWhile_nil, Bool.and_false,
        if_neg Bool.false_ne_true, Nat.zero_add, h.position]
    rw [Scanner.push, Array.toList_push, frontTokens_concat, htoken]
    congr 1
    by_cases hkind : l.kind = .codeKeyword
    · rw [frontTokens_singleton hkind, h.pound, ← h.tokens]
      cases s.mode.isAfterPound with
      | true => rw [if_pos ⟨rfl, hkind⟩, if_pos rfl, toList_markPound]
      | false => rw [if_neg fun hall => Bool.false_ne_true hall.1, if_neg Bool.false_ne_true]; rfl
    · rw [frontTokens_singleton_of_ne hkind, if_neg fun hall => hkind hall.2, h.tokens]
  pound := by
    have hsize : s.tokens.size = ls.length := by
      rw [← Array.length_toList, h.tokens, length_frontTokens]
    rw [Lexeme.openPound_concat, h.pound, Scanner.push, ← hmode, isAfterPound_after]
    cases hgap : l.isGap with
    | true =>
      have hstart : l.kind ≠ .snippetStart := fun hkind => by
        rw [Lexeme.isGap_eq_false (by rw [hkind]; decide)] at hgap
        cases hgap
      have hpound : ¬ l.isPound = true := fun hpound => by
        rw [Lexeme.isGap_of_isPound hpound] at hgap
        cases hgap
      rw [if_pos rfl, if_pos rfl, if_neg hstart, if_neg hpound]
    | false =>
      rw [if_neg Bool.false_ne_true, if_neg Bool.false_ne_true]
      cases hfirst : l.isLineFirstPound with
      | false => rfl
      | true =>
        have hpound := Lexeme.isPound_of_isLineFirstPound hfirst
        have hstart : l.kind ≠ .snippetStart := by
          rw [(Lexeme.isPound_iff.1 hpound).1]
          decide
        rw [if_pos rfl, if_pos rfl, if_neg hstart, if_pos hpound, hsize]

theorem IsBehind.run (h : s.IsBehind ls) (covered : Nat) (points : List CodePoint) :
    (s.run covered points).IsBehind (ls ++ lexemesFrom s.mode covered points) := by
  induction points generalizing s ls covered with
  | nil => rwa [lexemesFrom, List.append_nil]
  | cons p rest ih =>
    cases covered with
    | succ covered => exact ih h covered
    | zero =>
      have hstep := h.push (l := firstLexeme s.mode p rest) rfl
      rw [lexemesFrom, List.append_cons]
      exact ih hstep ((firstLexeme s.mode p rest).points.length - 1)

end Scanner

namespace Document

/-- **A scan writes what lexemes find ahead.** -/
theorem tokens_eq_placeTokens (d : Document) : d.tokens = placeTokens 0 d.lexemes := by
  have hbehind : (Scanner.start.run 0 d.points).IsBehind d.lexemes :=
    Scanner.isBehind_start.run 0 d.points
  rw [tokens, Scanner.finish, Array.toList_push, hbehind.tokens, hbehind.position, placeTokens_eq,
    Nat.zero_add]

/-- **A token ends the file, or it splits the lexemes of the document.** -/
theorem exists_split_of_tokens {d : Document} {before after : List Token} {t : Token}
    (h : d.tokens = before ++ t :: after) :
    t = .endOfFile (Lexeme.totalWidth d.lexemes) ∨
      ∃ front l back, d.lexemes = front ++ l :: back ∧ before = frontTokens 0 front (l :: back) ∧
        t = l.token (Lexeme.totalWidth front) back ∧
        after = placeTokens (Lexeme.totalWidth front + l.width) back := by
  rw [tokens_eq_placeTokens] at h
  have hsplit := exists_split_of_placeTokens h
  simp only [Nat.zero_add] at hsplit
  exact hsplit

theorem getElem?_tokens {d : Document} {front back : List Lexeme} {l : Lexeme}
    (h : d.lexemes = front ++ l :: back) :
    d.tokens[front.length]? = some (l.token (Lexeme.totalWidth front) back) := by
  rw [tokens_eq_placeTokens, h, getElem?_placeTokens, Nat.zero_add]

/-- The lexemes before the token at an index, and those from there on. -/
theorem exists_split_of_getElem?_tokens {d : Document} {i : Nat} {t : Token}
    (h : d.tokens[i]? = some t) :
    ∃ front back, d.lexemes = front ++ back ∧ front.length = i ∧
      (placeTokens (Lexeme.totalWidth front) back).head? = some t := by
  rw [tokens_eq_placeTokens] at h
  obtain ⟨front, back, hls, hlength, hhead⟩ := exists_split_of_getElem? h
  rw [Nat.zero_add] at hhead
  exact ⟨front, back, hls, hlength, hhead⟩

theorem exists_isEnd_tokens (d : Document) : ∃ t ∈ d.tokens, t.isEnd = true := by
  rw [tokens_eq_placeTokens]
  exact exists_isEnd_placeTokens 0 d.lexemes

end Document

end GrammarPaint
