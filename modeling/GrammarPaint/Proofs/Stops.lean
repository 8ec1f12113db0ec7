import GrammarPaint.Proofs.ItemEnds
import GrammarPaint.Token.Walk

/-!
# From stop to stop

A walk stands on tokens that are not trivia, one after the other, and it never leaves the end of the
file (`Walk.IsStop`).  A reading of items sees the same tokens as a list (`visible`).  Here the two
are put together: what a reading sees from a stop on (`Walk.ahead`) is the token at the stop and
what it sees from the next stop on (`Walk.exists_ahead_eq_cons`), or nothing where the file ends.
-/

set_option autoImplicit false
namespace GrammarPaint
namespace Walk

/-! ## What a walk shows -/

/-- What a reading sees of the token that a walk stands on. -/
def word (w : Walk) : Word :=
  match w.next? with
  | some t => t.word
  | none => .ending

/-- The kind of the token at the next stop. -/
def following (w : Walk) : TokenKind := w.take.2.kind

/-- The number of tokens from here on. -/
def rest (w : Walk) : Nat := w.tokens.length - w.position

variable {w : Walk}

theorem kind_word (w : Walk) : w.word.kind = w.kind := by
  rw [word, kind, kindAt, next?]
  cases w.tokens[w.position]? <;> rfl

theorem isAtEnd_iff : w.isAtEnd = true ↔ w.kind = .endOfFile := by rw [isAtEnd, beq_iff_eq]

/-- The token that ends a file reads like the place past its last token. -/
theorem word_of_ending (h : w.kind = .endOfFile) : w.word = .ending := by
  have hkind := kind_word w
  rw [h] at hkind
  rw [word] at hkind ⊢
  split
  · rename_i t ht
    rw [ht] at hkind
    have hname := t.isSome_name
    rw [show t.kind = .endOfFile from hkind] at hname
    have hnone : t.name = none := Option.not_isSome_iff_eq_none.1 (hname ▸ Bool.false_ne_true)
    rw [Token.word, hnone, show t.kind = .endOfFile from hkind, Word.ending]
  · rfl

theorem take_of_ending (h : w.kind = .endOfFile) : w.take.2 = w := if_pos (isAtEnd_iff.2 h)

theorem following_of_ending (h : w.kind = .endOfFile) : w.following = .endOfFile := by
  rw [following, take_of_ending h, h]

/-- At the end of the file no part takes anything. -/
theorem kind_ne_of_take {part : Part} {paint : Paint} {taken : List Part}
    (h : part.move w.word w.following = .take paint taken) : w.kind ≠ .endOfFile := by
  intro hend
  rw [word_of_ending hend, following_of_ending hend] at h
  exact move_ending_ne_take part paint taken h

theorem position_lt_length (h : w.kind ≠ .endOfFile) : w.position < w.tokens.length := by
  refine Nat.lt_of_not_le fun hle => h ?_
  rw [kind, kindAt, List.getElem?_eq_none hle]

theorem take_eq (h : w.kind ≠ .endOfFile) :
    w.take.2 = { w with position := nextStop w.tokens (w.position + 1) } :=
  if_neg (mt isAtEnd_iff.1 h)

theorem tokens_take (w : Walk) : w.take.2.tokens = w.tokens := by
  rw [take]
  split <;> rfl

theorem position_lt_take (h : w.kind ≠ .endOfFile) : w.position < w.take.2.position := by
  rw [take_eq h]
  exact Nat.lt_of_lt_of_le (Nat.lt_succ_self _) (Nat.le_add_right _ _)

theorem rest_take_lt (h : w.kind ≠ .endOfFile) : w.take.2.rest < w.rest := by
  have hlt := position_lt_take h
  have hle := position_lt_length h
  rw [rest, rest, tokens_take]
  omega

/-! ## Stops -/

section Gap

variable {tokens : List Token} {p q : Nat}

/-- The trivia in front of the next stop. -/
def gap (tokens : List Token) (p : Nat) : List Token :=
  (tokens.drop p).takeWhile (·.kind.isTrivia)

theorem isTrivia_of_mem_gap {t : Token} (h : t ∈ gap tokens p) : t.kind.isTrivia = true :=
  List.all_eq_true.1 List.all_takeWhile t h

theorem gap_append_drop (tokens : List Token) (p : Nat) :
    gap tokens p ++ tokens.drop (nextStop tokens p) = tokens.drop p := by
  rw [nextStop, ← List.drop_drop]
  exact List.prefix_iff_eq_append.1 (List.takeWhile_prefix _)

theorem drop_nextStop (tokens : List Token) (p : Nat) :
    tokens.drop (nextStop tokens p) = (tokens.drop p).dropWhile (·.kind.isTrivia) := by
  have hsplit : gap tokens p ++ tokens.drop (nextStop tokens p)
      = gap tokens p ++ (tokens.drop p).dropWhile (·.kind.isTrivia) := by
    rw [gap_append_drop]
    exact List.takeWhile_append_dropWhile.symm
  exact List.append_cancel_left hsplit

theorem nextStop_le (h : p ≤ tokens.length) : nextStop tokens p ≤ tokens.length := by
  have hle : (gap tokens p).length ≤ (tokens.drop p).length :=
    (List.takeWhile_sublist _).length_le
  rw [List.length_drop] at hle
  rw [nextStop, ← gap]
  omega

/-- What a walk goes over without stopping is trivia. -/
theorem isTrivia_kindAt (hp : p ≤ q) (hq : q < nextStop tokens p) :
    (kindAt tokens q).isTrivia = true := by
  obtain ⟨k, rfl⟩ := Nat.exists_eq_add_of_le hp
  have hk : k < (gap tokens p).length := Nat.lt_of_add_lt_add_left hq
  rw [kindAt, ← List.getElem?_drop, ← gap_append_drop, List.getElem?_append_left hk,
    List.getElem?_eq_getElem hk]
  exact isTrivia_of_mem_gap (List.getElem_mem hk)

theorem isTrivia_kindAt_nextStop (tokens : List Token) (p : Nat) :
    (kindAt tokens (nextStop tokens p)).isTrivia = false := by
  have hhead := List.head?_dropWhile_not (fun t : Token => t.kind.isTrivia) (tokens.drop p)
  rw [kindAt, ← List.head?_drop, drop_nextStop]
  split at hhead
  · rename_i t ht
    rw [ht]
    simpa using hhead
  · rename_i hnone
    rw [hnone]
    rfl

/-- The positions of the tokens before `position` that are not trivia. -/
def stopsBefore (tokens : List Token) (position : Nat) : List Nat :=
  (List.range position).filter fun q => !(kindAt tokens q).isTrivia

theorem stopsBefore_succ (tokens : List Token) (p : Nat) :
    stopsBefore tokens (p + 1)
      = stopsBefore tokens p ++ if (kindAt tokens p).isTrivia then [] else [p] := by
  rw [stopsBefore, List.range_succ, List.filter_append, ← stopsBefore, List.filter_cons,
    List.filter_nil]
  cases (kindAt tokens p).isTrivia <;> rfl

/-- There is no stop before the next one. -/
theorem stopsBefore_nextStop (tokens : List Token) (p : Nat) :
    stopsBefore tokens (nextStop tokens p) = stopsBefore tokens p := by
  have hgap : ∀ q ≤ nextStop tokens p, p ≤ q →
      stopsBefore tokens q = stopsBefore tokens p := by
    intro q hq hle
    induction hle with
    | refl => rfl
    | @step q hle ih =>
      rw [stopsBefore_succ, isTrivia_kindAt hle hq, if_pos rfl, List.append_nil,
        ih (Nat.le_of_succ_le hq)]
  exact hgap _ (Nat.le_refl _) (Nat.le_add_right _ _)

theorem isPrefix_stopsBefore (tokens : List Token) (h : p ≤ q) :
    stopsBefore tokens p <+: stopsBefore tokens q := by
  induction h with
  | refl => exact List.prefix_rfl
  | step _ ih =>
    rw [stopsBefore_succ]
    exact ih.trans (List.prefix_append _ _)

/-- Trivia is not seen. -/
theorem visible_drop_nextStop (tokens : List Token) (p : Nat) :
    visible (tokens.drop (nextStop tokens p)) = visible (tokens.drop p) := by
  have hgap : ∀ t ∈ gap tokens p, t.isEnd = false := by
    intro t ht
    have htrivia := isTrivia_of_mem_gap ht
    rw [Token.isEnd, beq_eq_false_iff_ne]
    rintro hend
    rw [hend] at htrivia
    exact nomatch htrivia
  rw [← gap_append_drop tokens p, visible_append hgap,
    substance_eq_nil fun _ => isTrivia_of_mem_gap, List.nil_append]

end Gap

/-- A walk that stands on a token which is not trivia, or past the last one, and that has not left
the end of the file. -/
structure IsStop (w : Walk) : Prop where
  le_length : w.position ≤ w.tokens.length
  not_isTrivia : w.kind.isTrivia = false
  not_isEnd : ∀ q < w.position, kindAt w.tokens q ≠ .endOfFile

theorem isStop_start (tokens : List Token) : (start tokens).IsStop where
  le_length := nextStop_le (Nat.zero_le _)
  not_isTrivia := isTrivia_kindAt_nextStop tokens 0
  not_isEnd q hq hend := by
    have htrivia := isTrivia_kindAt (Nat.zero_le q) hq
    rw [show kindAt tokens q = .endOfFile from hend] at htrivia
    exact nomatch htrivia

theorem IsStop.take (h : w.IsStop) (hend : w.kind ≠ .endOfFile) : w.take.2.IsStop := by
  rw [take_eq hend]
  refine ⟨nextStop_le (position_lt_length hend), isTrivia_kindAt_nextStop _ _, fun q hq hq' => ?_⟩
  rcases Nat.lt_or_ge q (w.position + 1) with hlt | hge
  · rcases Nat.lt_succ_iff_lt_or_eq.1 hlt with hlt | rfl
    · exact h.not_isEnd q hlt hq'
    · exact hend hq'
  · have htrivia := isTrivia_kindAt hge hq
    rw [show kindAt w.tokens q = .endOfFile from hq'] at htrivia
    exact nomatch htrivia

/-- Where a walk stands is the next of the stops. -/
theorem IsStop.stopsBefore_take (h : w.IsStop) (hend : w.kind ≠ .endOfFile) :
    stopsBefore w.take.2.tokens w.take.2.position
      = stopsBefore w.tokens w.position ++ [w.position] := by
  have htrivia : (kindAt w.tokens w.position).isTrivia = false := h.not_isTrivia
  rw [take_eq hend, stopsBefore_nextStop, stopsBefore_succ, htrivia]
  rfl

theorem IsStop.isEnd_getElem (h : w.IsStop) {q : Nat} (hq : q < w.position)
    (hlt : q < w.tokens.length) : w.tokens[q].isEnd = false := by
  have hnot := h.not_isEnd q hq
  rw [kindAt, List.getElem?_eq_getElem hlt] at hnot
  exact beq_eq_false_iff_ne.2 hnot

theorem IsStop.isEnd_take (h : w.IsStop) : ∀ t ∈ w.tokens.take w.position, t.isEnd = false := by
  intro t ht
  obtain ⟨q, hq, rfl⟩ := List.mem_take_iff_getElem.1 ht
  exact h.isEnd_getElem (Nat.lt_of_lt_of_le hq (Nat.min_le_left _ _)) _

theorem IsStop.position_le (h : w.IsStop) : w.position ≤ w.tokens.findIdx Token.isEnd := by
  refine Nat.le_of_not_lt fun hlt => ?_
  have hfind : w.tokens.findIdx Token.isEnd < w.tokens.length :=
    Nat.lt_of_lt_of_le hlt h.le_length
  exact absurd List.findIdx_getElem (Bool.eq_false_iff.1 (h.isEnd_getElem hlt hfind))

/-- **A walk ends on the first token that ends the file**, or past the last token. -/
theorem IsStop.position_eq (h : w.IsStop) (hend : w.kind = .endOfFile) :
    w.position = w.tokens.findIdx Token.isEnd := by
  rcases Nat.lt_or_eq_of_le h.le_length with hlt | hlength
  · rw [kind, kindAt, List.getElem?_eq_getElem hlt] at hend
    exact ((List.findIdx_eq hlt (p := Token.isEnd)).2
      ⟨beq_iff_eq.2 hend, fun q hq => h.isEnd_getElem hq _⟩).symm
  · rw [hlength]
    refine (List.findIdx_eq_length_of_false fun t ht => ?_).symm
    obtain ⟨q, hq, rfl⟩ := List.getElem_of_mem ht
    exact h.isEnd_getElem (hlength ▸ hq) hq

/-- Where a walk ends is where the file does. -/
theorem IsStop.span_eq (h : w.IsStop) (hend : w.kind = .endOfFile) : w.span = endSpan w.tokens := by
  have hfind := find?_isEnd_append h.isEnd_take (w.tokens.drop w.position)
  rw [List.take_append_drop] at hfind
  rw [kind, kindAt] at hend
  rw [span, next?, endSpan, hfind]
  cases hget : w.tokens[w.position]? with
  | some t =>
    rw [hget] at hend
    obtain ⟨hlt, rfl⟩ := List.getElem?_eq_some_iff.1 hget
    have hisEnd : w.tokens[w.position].isEnd = true := beq_iff_eq.2 hend
    rw [List.drop_eq_getElem_cons hlt, List.find?_cons_of_pos hisEnd]
  | none =>
    rw [List.drop_eq_nil_of_le (List.getElem?_eq_none_iff.1 hget), List.find?_nil]
    cases w.tokens.getLast? <;> rfl

/-! ## What is ahead -/

/-- What a reading sees from here on. -/
def ahead (w : Walk) : List Token := visible (w.tokens.drop w.position)

theorem ahead_start (tokens : List Token) : (start tokens).ahead = visible tokens :=
  visible_drop_nextStop tokens 0

theorem ahead_of_ending (h : w.kind = .endOfFile) : w.ahead = [] := by
  rw [kind, kindAt] at h
  rw [ahead, visible]
  split at h
  · rename_i t ht
    obtain ⟨hlt, rfl⟩ := List.getElem?_eq_some_iff.1 ht
    rw [List.drop_eq_getElem_cons hlt, List.takeWhile_cons_of_neg (by simp [Token.isEnd, h])]
    rfl
  · rename_i hnone
    rw [List.drop_eq_nil_of_le (List.getElem?_eq_none_iff.1 hnone)]
    rfl

/-- **What is ahead is the token at hand, and what is ahead of the next stop.** -/
theorem exists_ahead_eq_cons (h : w.IsStop) (hend : w.kind ≠ .endOfFile) :
    ∃ t, w.next? = some t ∧ w.ahead = t :: w.take.2.ahead := by
  have hlt := position_lt_length hend
  have hget : w.tokens[w.position]? = some w.tokens[w.position] := List.getElem?_eq_getElem hlt
  refine ⟨w.tokens[w.position], hget, ?_⟩
  have hkind : w.kind = w.tokens[w.position].kind := by rw [kind, kindAt, hget]
  have htrivia : w.tokens[w.position].kind.isTrivia = false := hkind ▸ h.not_isTrivia
  have hnot : w.tokens[w.position].isEnd = false :=
    beq_eq_false_iff_ne.2 (hkind ▸ hend)
  rw [ahead, ahead, take_eq hend, visible_drop_nextStop, List.drop_eq_getElem_cons hlt, visible,
    List.takeWhile_cons_of_pos (by simp [hnot]), List.filter_cons_of_pos (by simp [htrivia])]
  rfl

theorem firstKind_ahead (h : w.IsStop) : firstKind (w.ahead.map Token.word) = w.kind := by
  by_cases hend : w.kind = .endOfFile
  · rw [ahead_of_ending hend, hend]
    rfl
  · obtain ⟨t, ht, hahead⟩ := exists_ahead_eq_cons h hend
    rw [hahead, kind, kindAt, show w.tokens[w.position]? = some t from ht]
    rfl

end Walk
end GrammarPaint
