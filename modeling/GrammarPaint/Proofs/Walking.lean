import GrammarPaint.Proofs.Restyling
import GrammarPaint.Proofs.Stops

/-!
# Walks of any length

A walk is asked for the token at hand, told to take it and told to restyle tokens, in any order and
as often as one likes (`Operation`).  Two things are kept apart here.

* **Styles are not seen.**  A walk over tokens without their styles answers the same, a token that
  it shows apart, and comes to the same place (`Walk.run_plain`).  So it is enough to count stops
  where no token is ever restyled.
* **Stops are taken in order.**  What one operation does to the positions taken so far
  (`Walk.Tally`) is what it does to the stops behind the walk, up to the end of the file, which is
  never left.

The styles themselves are those of the last writes (`overwrite`), wherever these were made.
`Walk.keepsToStops` puts these together.
-/

set_option autoImplicit false
namespace GrammarPaint

/-! ## Operations -/

/-- What a walk can be asked, or told to do. -/
inductive Operation where
  | kind
  | next
  | span
  | check (k : TokenKind)
  | isAtEnd
  | take
  | takeStyled (style : Style)
  | takeIf (k : TokenKind)
  | restyle (index : Nat) (style : Option Style)
deriving DecidableEq

/-- What a walk answers. -/
inductive Answer where
  | kind (k : TokenKind)
  | token (t : Option Token)
  | span (s : Span)
  | truth (b : Bool)
  /-- The token at `position` was taken. -/
  | taken (position : Nat)
  /-- The next token is of another kind. -/
  | refused
  | silence
deriving DecidableEq

/-- The position that was taken, if one was. -/
def Answer.taken? : Answer → Option Nat
  | taken position => some position
  | _ => none

/-- The answer without the style of a token in it; silence is none. -/
def Answer.plain? : Answer → Option Answer
  | token t => some (token (t.map Token.plain))
  | silence => none
  | a => some a

/-- The operation without the style that it writes; what does nothing but write is none. -/
def Operation.plain? : Operation → Option Operation
  | takeStyled _ => some take
  | restyle _ _ => none
  | op => some op

/-- The position and the style that an operation writes, when it was answered. -/
def Operation.write? : Operation → Answer → Option (Nat × Option Style)
  | takeStyled style, .taken position => some (position, some style)
  | restyle index style, _ => some (index, style)
  | _, _ => none

namespace Walk

/-- The answer to an operation, and the walk after it. -/
def step (w : Walk) : Operation → Answer × Walk
  | .kind => (.kind w.kind, w)
  | .next => (.token w.next?, w)
  | .span => (.span w.span, w)
  | .check k => (.truth (w.kind == k), w)
  | .isAtEnd => (.truth w.isAtEnd, w)
  | .take => (.taken w.take.1, w.take.2)
  | .takeStyled style => (.taken (w.takeStyled style).1, (w.takeStyled style).2)
  | .takeIf k => ((w.takeIf k).1.elim .refused .taken, (w.takeIf k).2)
  | .restyle index style => (.silence, w.restyle index style)

/-- The answers to operations one after the other, and the walk after the last. -/
def run (w : Walk) : List Operation → List Answer × Walk
  | [] => ([], w)
  | op :: ops => ((w.step op).1 :: ((w.step op).2.run ops).1, ((w.step op).2.run ops).2)

end Walk

/-! ## Writes -/

/-- The tokens after writes of styles, one after the other. -/
def overwrite (tokens : List Token) (writes : List (Nat × Option Style)) : List Token :=
  writes.foldl (fun tokens write => restyleAt tokens write.1 write.2) tokens

/-- The last of the writes at a position. -/
def lastWrite (writes : List (Nat × Option Style)) (index : Nat) : Option (Option Style) :=
  writes.reverse.lookup index

/-- The writes that answered operations make. -/
def writes (ops : List Operation) (answers : List Answer) : List (Nat × Option Style) :=
  (ops.zip answers).filterMap fun p => p.1.write? p.2

theorem writes_cons (op : Operation) (ops : List Operation) (a : Answer) (answers : List Answer) :
    writes (op :: ops) (a :: answers) = (op.write? a).toList ++ writes ops answers := by
  rw [writes, List.zip_cons_cons, List.filterMap_cons, ← writes]
  cases op.write? a <;> rfl

theorem overwrite_append (tokens : List Token) (a b : List (Nat × Option Style)) :
    overwrite tokens (a ++ b) = overwrite (overwrite tokens a) b :=
  List.foldl_append

theorem getElem?_restyleAt (tokens : List Token) (index : Nat) (style : Option Style) (i : Nat) :
    (restyleAt tokens index style)[i]?
      = tokens[i]?.map fun t => if i = index then t.restyle style else t := by
  rw [restyleAt, List.getElem?_modify]
  simp only [eq_comm (a := index)]
  rfl

theorem lastWrite_cons (write : Nat × Option Style) (rest : List (Nat × Option Style)) (i : Nat) :
    lastWrite (write :: rest) i
      = (lastWrite rest i).or (if i = write.1 then some write.2 else none) := by
  rw [lastWrite, List.reverse_cons, List.lookup_append, lastWrite, List.lookup_cons]
  split <;> simp_all

/-- **The last write wins.** -/
theorem getElem?_overwrite (tokens : List Token) (writes : List (Nat × Option Style)) (i : Nat) :
    (overwrite tokens writes)[i]?
      = tokens[i]?.map fun t => (lastWrite writes i).elim t t.restyle := by
  induction writes generalizing tokens with
  | nil => exact Option.map_id'.symm
  | cons write rest ih =>
    rw [overwrite, List.foldl_cons, ← overwrite, ih, getElem?_restyleAt, Option.map_map]
    refine congrArg (Option.map · tokens[i]?) (funext fun t => ?_)
    rw [lastWrite_cons, Function.comp_apply]
    cases lastWrite rest i with
    | none => split <;> rfl
    | some style => split <;> rfl

namespace Walk

theorem tokens_takeIf (w : Walk) (k : TokenKind) : (w.takeIf k).2.tokens = w.tokens := by
  rw [takeIf]
  split
  · exact tokens_take w
  · rfl

/-- An operation changes tokens by what it writes. -/
theorem tokens_step (w : Walk) (op : Operation) :
    (w.step op).2.tokens = overwrite w.tokens (op.write? (w.step op).1).toList := by
  cases op with
  | kind | next | span | check | isAtEnd => rfl
  | take => exact tokens_take w
  | takeStyled style => exact congrArg (restyleAt · w.position (some style)) (tokens_take w)
  | takeIf k => exact tokens_takeIf w k
  | restyle => rfl

theorem tokens_run (w : Walk) (ops : List Operation) :
    (w.run ops).2.tokens = overwrite w.tokens (writes ops (w.run ops).1) := by
  induction ops generalizing w with
  | nil => rfl
  | cons op ops ih =>
    rw [run, ih, tokens_step, writes_cons, overwrite_append]

/-! ## Styles are not seen -/

/-- The walk over the tokens without their styles. -/
def plain (w : Walk) : Walk := { w with tokens := w.tokens.map Token.plain }

section Plain

variable (tokens : List Token) (w : Walk)

theorem nextStop_map_plain (p : Nat) :
    nextStop (tokens.map Token.plain) p = nextStop tokens p := by
  rw [nextStop, ← List.map_drop, List.takeWhile_map, List.length_map, nextStop]
  rfl

theorem stopsBefore_map_plain (p : Nat) :
    stopsBefore (tokens.map Token.plain) p = stopsBefore tokens p := by
  rw [stopsBefore, stopsBefore]
  exact congrArg (List.filter · _) (funext fun q => by rw [kindAt_map_plain])

theorem map_plain_restyleAt (index : Nat) (style : Option Style) :
    (restyleAt tokens index style).map Token.plain = tokens.map Token.plain := by
  refine List.ext_getElem? fun i => ?_
  rw [List.getElem?_map, getElem?_restyleAt, List.getElem?_map, Option.map_map]
  refine congrArg (Option.map · tokens[i]?) (funext fun t => ?_)
  rw [Function.comp_apply]
  split <;> rfl

theorem plain_start : (start tokens).plain = start (tokens.map Token.plain) := by
  rw [start, start, nextStop_map_plain]
  rfl

theorem plain_restyle (index : Nat) (style : Option Style) :
    (w.restyle index style).plain = w.plain :=
  congrArg (Walk.mk · w.position) (map_plain_restyleAt w.tokens index style)

theorem kind_plain : w.plain.kind = w.kind := kindAt_map_plain w.tokens w.position

theorem next?_plain : w.plain.next? = w.next?.map Token.plain := List.getElem?_map

theorem span_plain : w.plain.span = w.span := by
  rw [span, next?_plain, span, plain, List.getLast?_map]
  cases w.next? with
  | some t => rfl
  | none => cases w.tokens.getLast? <;> rfl

theorem take_plain : w.plain.take = (w.take.1, w.take.2.plain) := by
  rw [take, isAtEnd, kind_plain, take, isAtEnd]
  split
  · rfl
  · rw [plain, plain, nextStop_map_plain]

theorem takeIf_plain (k : TokenKind) :
    w.plain.takeIf k = ((w.takeIf k).1, (w.takeIf k).2.plain) := by
  rw [takeIf, kind_plain, take_plain, takeIf]
  split <;> rfl

theorem plain_takeStyled (style : Style) : (w.takeStyled style).2.plain = w.take.2.plain :=
  plain_restyle w.take.2 _ _

end Plain

theorem step_of_plain?_eq_none (w : Walk) {op : Operation} (h : op.plain? = none) :
    (w.step op).1.plain? = none ∧ (w.step op).2.plain = w.plain := by
  cases op with
  | restyle index style => exact ⟨rfl, plain_restyle w index style⟩
  | _ => cases h

theorem step_of_plain?_eq_some (w : Walk) {op bare : Operation} (h : op.plain? = some bare) :
    (w.step op).1.plain? = some (w.plain.step bare).1 ∧
      (w.step op).2.plain = (w.plain.step bare).2 := by
  cases op <;> cases h
  case kind =>
    rw [step, step, kind_plain]
    exact ⟨rfl, rfl⟩
  case next =>
    rw [step, step, next?_plain]
    exact ⟨rfl, rfl⟩
  case span =>
    rw [step, step, span_plain]
    exact ⟨rfl, rfl⟩
  case check k =>
    rw [step, step, kind_plain]
    exact ⟨rfl, rfl⟩
  case isAtEnd =>
    rw [step, step, isAtEnd, isAtEnd, kind_plain]
    exact ⟨rfl, rfl⟩
  case take =>
    rw [step, step, take_plain]
    exact ⟨rfl, rfl⟩
  case takeStyled style =>
    rw [step, step, take_plain]
    exact ⟨rfl, plain_takeStyled w style⟩
  case takeIf k =>
    rw [step, step, takeIf_plain]
    refine ⟨?_, rfl⟩
    cases (w.takeIf k).1 <;> rfl

/-- **Styles are not seen.**  Without the styles of the tokens and without writing any, a walk
answers the same and comes to the same place. -/
theorem run_plain (w : Walk) (ops : List Operation) :
    w.plain.run (ops.filterMap Operation.plain?)
      = ((w.run ops).1.filterMap Answer.plain?, (w.run ops).2.plain) := by
  induction ops generalizing w with
  | nil => rfl
  | cons op ops ih =>
    cases hop : op.plain? with
    | none =>
      obtain ⟨hanswer, hlater⟩ := step_of_plain?_eq_none w hop
      rw [List.filterMap_cons_none hop, run, List.filterMap_cons_none hanswer, ← ih, hlater]
    | some bare =>
      obtain ⟨hanswer, hlater⟩ := step_of_plain?_eq_some w hop
      rw [List.filterMap_cons_some hop, run, run, List.filterMap_cons_some hanswer, ← hlater, ih]

/-! ## Stops are taken in order -/

/-- **An operation takes the next token, or leaves the walk where it is.** -/
theorem step_cases (w : Walk) (op : Operation) :
    (w.step op).1.taken? = some w.position ∧ (w.step op).2.plain = w.plain.take.2 ∨
      (w.step op).1.taken? = none ∧ (w.step op).2.plain = w.plain := by
  cases op with
  | kind | next | span | check | isAtEnd => exact .inr ⟨rfl, rfl⟩
  | take => exact .inl ⟨rfl, by rw [take_plain]; rfl⟩
  | takeStyled style => exact .inl ⟨rfl, by rw [take_plain]; exact plain_takeStyled w style⟩
  | restyle index style => exact .inr ⟨rfl, plain_restyle w index style⟩
  | takeIf k =>
    rw [step, takeIf]
    split
    · exact .inl ⟨rfl, by rw [take_plain]⟩
    · exact .inr ⟨rfl, rfl⟩

/-- A walk that stands at a stop, and the positions taken so far: the stops before it, and then the
end of the file again and again. -/
structure Tally (w : Walk) (positions : List Nat) : Prop where
  isStop : w.IsStop
  positions_eq : ∃ m, positions = stopsBefore w.tokens w.position ++ List.replicate m w.position ∧
    (m ≠ 0 → w.kind = .endOfFile)

theorem tally_start (tokens : List Token) : (start tokens).Tally [] where
  isStop := isStop_start tokens
  positions_eq := by
    refine ⟨0, ?_, fun h => absurd rfl h⟩
    rw [List.replicate_zero, List.append_nil]
    exact (stopsBefore_nextStop tokens 0).symm

namespace Tally

variable {w : Walk} {positions : List Nat}

/-- One more token is taken. -/
theorem take (h : w.Tally positions) : w.take.2.Tally (positions ++ [w.position]) := by
  obtain ⟨m, hpositions, hm⟩ := h.positions_eq
  by_cases hend : w.kind = .endOfFile
  · rw [take_of_ending hend]
    refine ⟨h.isStop, m + 1, ?_, fun _ => hend⟩
    rw [hpositions, List.append_assoc, List.replicate_succ']
  · -- the end of the file was not taken before
    have hzero : m = 0 := Decidable.not_not.1 (mt hm hend)
    refine ⟨h.isStop.take hend, 0, ?_, fun h => absurd rfl h⟩
    rw [hpositions, hzero, List.replicate_zero, List.replicate_zero, List.append_nil,
      List.append_nil, h.isStop.stopsBefore_take hend]

/-- **What is taken is the next stop**, or the end of the file when there are no more stops. -/
theorem eq_of_getElem? (h : w.Tally positions) {n p : Nat} (hp : positions[n]? = some p) :
    p = ((stopsBefore w.tokens (w.tokens.findIdx Token.isEnd))[n]?).getD
      (w.tokens.findIdx Token.isEnd) := by
  obtain ⟨m, hpositions, hm⟩ := h.positions_eq
  rw [hpositions] at hp
  rcases Nat.lt_or_ge n (stopsBefore w.tokens w.position).length with hlt | hle
  · rw [List.getElem?_append_left hlt] at hp
    obtain ⟨back, hback⟩ := isPrefix_stopsBefore w.tokens h.isStop.position_le
    rw [← hback, List.getElem?_append_left hlt, hp]
    rfl
  · rw [List.getElem?_append_right hle, List.getElem?_replicate] at hp
    split at hp
    · rename_i hlt
      have hend := h.isStop.position_eq (hm (by omega))
      obtain rfl := Option.some.inj hp
      rw [← hend, List.getElem?_eq_none hle]
      rfl
    · cases hp

end Tally

/-- **What one operation takes is counted**, and the tokens stay the same but for their styles. -/
theorem Tally.step {w : Walk} {positions : List Nat} (h : w.plain.Tally positions)
    (op : Operation) :
    (w.step op).2.plain.Tally (positions ++ (w.step op).1.taken?.toList) ∧
      (w.step op).2.plain.tokens = w.plain.tokens := by
  rcases step_cases w op with ⟨htaken, hlater⟩ | ⟨htaken, hlater⟩
  · rw [htaken, hlater]
    exact ⟨h.take, tokens_take _⟩
  · rw [htaken, hlater, Option.toList_none, List.append_nil]
    exact ⟨h, rfl⟩

/-- **What any number of operations takes is counted.** -/
theorem Tally.run {w : Walk} {positions : List Nat} (h : w.plain.Tally positions)
    (ops : List Operation) :
    (w.run ops).2.plain.Tally (positions ++ (w.run ops).1.filterMap Answer.taken?) ∧
      (w.run ops).2.plain.tokens = w.plain.tokens := by
  induction ops generalizing w positions with
  | nil => exact ⟨(List.append_nil positions).symm ▸ h, rfl⟩
  | cons op ops ih =>
    obtain ⟨hstep, htokens⟩ := h.step op
    obtain ⟨hrun, hrest⟩ := ih hstep
    refine ⟨?_, hrest.trans htokens⟩
    have hsplit : ((w.step op).1 :: ((w.step op).2.run ops).1).filterMap Answer.taken?
        = (w.step op).1.taken?.toList
          ++ ((w.step op).2.run ops).1.filterMap Answer.taken? := by
      rw [List.filterMap_cons]
      cases (w.step op).1.taken? <;> rfl
    rw [Walk.run, hsplit, ← List.append_assoc]
    exact hrun

/-! ## What a walk does -/

variable (tokens : List Token) (ops : List Operation)

/-- The walk over `tokens` after `ops`. -/
def after : Walk := ((start tokens).run ops).2

/-- What a walk over `tokens` answers to `ops`. -/
def answers : List Answer := ((start tokens).run ops).1

/-- The positions that `ops` take from a walk over `tokens`. -/
def takenBy : List Nat := (answers tokens ops).filterMap Answer.taken?

theorem findIdx_map_plain :
    (tokens.map Token.plain).findIdx Token.isEnd = tokens.findIdx Token.isEnd :=
  List.findIdx_map tokens Token.plain Token.isEnd

theorem tally_takenBy : (after tokens ops).plain.Tally (takenBy tokens ops) ∧
    (after tokens ops).plain.tokens = tokens.map Token.plain := by
  have htally : (start tokens).plain.Tally [] := by
    rw [plain_start]
    exact tally_start _
  exact htally.run ops

theorem position_after : (after tokens ops).position = tokens.length ∨
    ∃ t, tokens[(after tokens ops).position]? = some t ∧ t.kind.isTrivia = false := by
  obtain ⟨htally, htokens⟩ := tally_takenBy tokens ops
  have htrivia : (kindAt tokens (after tokens ops).position).isTrivia = false := by
    rw [← kindAt_map_plain, ← htokens]
    exact htally.isStop.not_isTrivia
  have hle : (after tokens ops).position ≤ tokens.length := by
    rw [← List.length_map Token.plain, ← htokens]
    exact htally.isStop.le_length
  rcases Nat.lt_or_eq_of_le hle with hlt | hlength
  · rw [kindAt, List.getElem?_eq_getElem hlt] at htrivia
    exact .inr ⟨_, List.getElem?_eq_getElem hlt, htrivia⟩
  · exact .inl hlength

theorem eq_of_getElem?_takenBy {n p : Nat} (hp : (takenBy tokens ops)[n]? = some p) :
    p = (stopsBefore tokens (tokens.findIdx Token.isEnd))[n]?.getD
      (tokens.findIdx Token.isEnd) := by
  obtain ⟨htally, htokens⟩ := tally_takenBy tokens ops
  have hstop := htally.eq_of_getElem? hp
  rwa [htokens, stopsBefore_map_plain, findIdx_map_plain] at hstop

theorem takeIf_of_eq_none {w : Walk} {k : TokenKind} (h : (w.takeIf k).1 = none) :
    w.kind ≠ k ∧ (w.takeIf k).2 = w := by
  have hk : w.kind ≠ k := by
    intro hk
    rw [takeIf, if_pos hk] at h
    cases h
  rw [takeIf, if_neg hk]
  exact ⟨hk, rfl⟩

/-- What a walk over `tokens` does when it is asked `ops`. -/
structure KeepsToStops : Prop where
  /-- It stands on a token that is not trivia, or past the last token. -/
  position : (after tokens ops).position = tokens.length ∨
    ∃ t, tokens[(after tokens ops).position]? = some t ∧ t.kind.isTrivia = false
  /-- What is taken are the tokens that are not trivia, in order, up to the first one that ends the
  file, which is taken again and again. -/
  taken : ∀ n p : Nat, (takenBy tokens ops)[n]? = some p →
    p = (stopsBefore tokens (tokens.findIdx Token.isEnd))[n]?.getD (tokens.findIdx Token.isEnd)
  /-- It refuses to take a token of another kind only, and then it stays as it is. -/
  refused : ∀ k, ((after tokens ops).takeIf k).1 = none →
    (after tokens ops).kind ≠ k ∧ ((after tokens ops).takeIf k).2 = after tokens ops
  /-- Other styles, or the same ones written elsewhere in between, make no difference to where it
  comes and to what it answers, but for the style of a token that it shows. -/
  unseen : ∀ others, others.filterMap Operation.plain? = ops.filterMap Operation.plain? →
    (answers tokens others).filterMap Answer.plain? = (answers tokens ops).filterMap Answer.plain? ∧
      (after tokens others).position = (after tokens ops).position
  /-- The tokens differ in the styles that were written, and the last write at a position wins. -/
  styles : ∀ i, (after tokens ops).tokens[i]? = tokens[i]?.map fun t =>
    (lastWrite (writes ops (answers tokens ops)) i).elim t t.restyle

/-- **A walk keeps to the stops**, whatever it is asked and whatever is written on the way. -/
theorem keepsToStops : KeepsToStops tokens ops where
  position := position_after tokens ops
  taken _ _ := eq_of_getElem?_takenBy tokens ops
  refused _ := takeIf_of_eq_none
  unseen others h := by
    have hruns := run_plain (start tokens) others
    rw [h, run_plain] at hruns
    obtain ⟨hanswers, hwalks⟩ := Prod.mk.inj hruns
    have hplace := congrArg Walk.position hwalks
    exact ⟨hanswers.symm, hplace.symm⟩
  styles i := by
    rw [after, tokens_run, getElem?_overwrite]
    rfl

end Walk
end GrammarPaint
