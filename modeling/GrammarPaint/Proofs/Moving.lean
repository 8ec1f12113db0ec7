import GrammarPaint.Lexeme.Issue
import GrammarPaint.Proofs.Painting

/-!
# Tokens in other places

The reading of items never looks at spans: it only passes them on.  So if the tokens that are not
trivia stand in other places, the same verdicts are given, and the same complaints are made about
them in their new places (`readItems_mapSpan`, `structuralIssues_mapSpan`).
-/

set_option autoImplicit false
namespace GrammarPaint

/-! ## Moving spans -/

/-- The span behind something that was `n` units long and is now `m` units long. -/
def Span.moved (n m : Nat) (s : Span) : Span := ⟨s.start - n + m, s.stop - n + m⟩

/-- The same for spans that begin at `place` or behind it; others stay where they are. -/
def Span.movedFrom (place n m : Nat) (s : Span) : Span :=
  if place ≤ s.start then s.moved n m else s

/-- The token in another place. -/
def Token.mapSpan (f : Span → Span) (t : Token) : Token := { t with span := f t.span }

/-- The issue in another place. -/
def LexicalIssue.mapSpan (f : Span → Span) (i : LexicalIssue) : LexicalIssue :=
  { i with span := f i.span }

/-- The issue in another place. -/
def StructuralIssue.mapSpan (f : Span → Span) (i : StructuralIssue) : StructuralIssue :=
  { i with span := f i.span }

theorem moved_span (k n m width : Nat) :
    Span.moved n m ⟨k + n, k + n + width⟩ = ⟨k + m, k + m + width⟩ := by
  simp only [Span.moved, Span.mk.injEq]
  omega

theorem apply_mapSpan (f : Span → Span) (p : Paint) (t : Token) :
    p.apply (t.mapSpan f) = (p.apply t).mapSpan f := by
  cases p <;> rfl

theorem movedFrom_of_lt {place n m : Nat} {tokens : List Token}
    (h : ∀ t ∈ tokens, t.span.start < place) :
    tokens.map (Token.mapSpan (Span.movedFrom place n m)) = tokens := by
  refine (List.map_congr_left fun t ht => ?_).trans (List.map_id tokens)
  rw [Token.mapSpan, Span.movedFrom, if_neg (Nat.not_le.2 (h t ht))]
  rfl

theorem movedFrom_of_le {place n m : Nat} {tokens : List Token}
    (h : ∀ t ∈ tokens, place ≤ t.span.start) :
    tokens.map (Token.mapSpan (Span.movedFrom place n m))
      = tokens.map (Token.mapSpan (Span.moved n m)) := by
  refine List.map_congr_left fun t ht => ?_
  rw [Token.mapSpan, Span.movedFrom, if_pos (h t ht), Token.mapSpan]

/-! ## Reading -/

theorem find?_isEnd_substance (tokens : List Token) :
    (substance tokens).find? Token.isEnd = tokens.find? Token.isEnd := by
  induction tokens with
  | nil => rfl
  | cons t tokens ih =>
    cases htrivia : t.kind.isTrivia with
    | true =>
      rw [substance_cons_of_isTrivia htrivia, ih,
        List.find?_cons_of_neg (by simp [not_isEnd_of_isTrivia htrivia])]
    | false => rw [substance_cons htrivia, List.find?_cons, List.find?_cons, ih]

variable {f : Span → Span} {a b : List Token}

theorem visible_mapSpan (h : substance b = (substance a).map (Token.mapSpan f)) :
    visible b = (visible a).map (Token.mapSpan f) := by
  rw [visible_eq_takeWhile, h, List.takeWhile_map, visible_eq_takeWhile]
  rfl

/-- **Verdicts do not depend on where tokens stand.** -/
theorem readItems_mapSpan (h : substance b = (substance a).map (Token.mapSpan f)) :
    readItems b = readItems a := by
  rw [readItems, visible_mapSpan h, List.map_map, readItems]
  rfl

theorem endSpan_mapSpan (h : substance b = (substance a).map (Token.mapSpan f))
    (hend : ∃ t ∈ a, t.isEnd = true) : endSpan b = f (endSpan a) := by
  obtain ⟨t, ht⟩ := Option.isSome_iff_exists.1 (List.find?_isSome.2 hend)
  have hb : b.find? Token.isEnd = some (t.mapSpan f) := by
    rw [← find?_isEnd_substance, h, List.find?_map]
    exact congrArg (Option.map _) ((find?_isEnd_substance a).trans ht)
  rw [endSpan, endSpan, ht, hb]
  rfl

/-- **Complaints move along with the tokens that they are about.** -/
theorem structuralIssues_mapSpan (h : substance b = (substance a).map (Token.mapSpan f))
    (hend : ∃ t ∈ a, t.isEnd = true) :
    structuralIssues b = (structuralIssues a).map (StructuralIssue.mapSpan f) := by
  rw [structuralIssues, readItems_mapSpan h, visible_mapSpan h, endSpan_mapSpan h hend,
    structuralIssues, List.map_append, List.zip_map_left, List.filterMap_map, List.map_filterMap]
  congr 1
  · refine congrArg (List.filterMap · _) (funext fun p => ?_)
    simp only [Function.comp_apply, Option.map_map]
    rfl
  · cases (readItems a).2.complaintAtEnd <;> rfl

/-! ## Whole lists in other places -/

theorem substance_map (f : Span → Span) (tokens : List Token) :
    substance (tokens.map (Token.mapSpan f)) = (substance tokens).map (Token.mapSpan f) :=
  List.filter_map

/-- **Tokens have the same roles in other places.** -/
theorem assignRoles_map (f : Span → Span) (tokens : List Token) :
    assignRoles (tokens.map (Token.mapSpan f)) = (assignRoles tokens).map (Token.mapSpan f) := by
  rw [assignRoles, readItems_mapSpan (substance_map f tokens), assignRoles]
  exact paintVisible_map (g := Token.mapSpan f) (fun _ => rfl) (apply_mapSpan f) _ _

theorem structuralIssues_map {tokens : List Token} (hend : ∃ t ∈ tokens, t.isEnd = true)
    (f : Span → Span) :
    structuralIssues (tokens.map (Token.mapSpan f))
      = (structuralIssues tokens).map (StructuralIssue.mapSpan f) :=
  structuralIssues_mapSpan (substance_map f tokens) hend

end GrammarPaint
