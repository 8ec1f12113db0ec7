import GrammarPaint.Item.Roles

/-!
# What painting leaves alone

The reading of items sees a list of tokens without its trivia, and paints it as it stands.  Here
the two are related: the visible tokens are a prefix of the tokens that are not trivia
(`visible_eq_takeWhile`), painting the whole list paints those one after the other
(`substance_paintVisible`), and trivia are left alone (`getElem?_paintVisible_of_isTrivia`).
-/

set_option autoImplicit false
namespace GrammarPaint

/-- The tokens that are not trivia. -/
def substance (tokens : List Token) : List Token := tokens.filter fun t => !t.kind.isTrivia

theorem substance_cons_of_isTrivia {t : Token} (h : t.kind.isTrivia = true)
    (tokens : List Token) : substance (t :: tokens) = substance tokens :=
  List.filter_cons_of_neg (by simp [h])

theorem substance_cons {t : Token} (h : t.kind.isTrivia = false) (tokens : List Token) :
    substance (t :: tokens) = t :: substance tokens :=
  List.filter_cons_of_pos (by simp [h])

theorem substance_append (a b : List Token) : substance (a ++ b) = substance a ++ substance b :=
  List.filter_append ..

theorem not_isTrivia_of_mem_substance {tokens : List Token} {t : Token}
    (h : t ∈ substance tokens) : t.kind.isTrivia = false := by
  simpa using (List.mem_filter.1 h).2

theorem substance_eq_self {tokens : List Token}
    (h : ∀ t ∈ tokens, t.kind.isTrivia = false) : substance tokens = tokens :=
  List.filter_eq_self.2 fun t ht => by simp [h t ht]

theorem substance_eq_nil {tokens : List Token}
    (h : ∀ t ∈ tokens, t.kind.isTrivia = true) : substance tokens = [] :=
  List.filter_eq_nil_iff.2 fun t ht => by simp [h t ht]

theorem not_isEnd_of_isTrivia {t : Token} (h : t.kind.isTrivia = true) : t.isEnd = false := by
  cases hend : t.isEnd with
  | false => rfl
  | true =>
    rw [eq_of_beq hend] at h
    exact nomatch h

/-- What is visible is what comes before the end of the file, trivia left out. -/
theorem visible_eq_takeWhile (tokens : List Token) :
    visible tokens = (substance tokens).takeWhile fun t => !t.isEnd := by
  induction tokens with
  | nil => rfl
  | cons t tokens ih =>
    rw [visible] at ih ⊢
    cases htrivia : t.kind.isTrivia with
    | true =>
      have hend := not_isEnd_of_isTrivia htrivia
      rw [substance_cons_of_isTrivia htrivia, ← ih, List.takeWhile_cons_of_pos (by simp [hend]),
        List.filter_cons_of_neg (by simp [htrivia])]
    | false =>
      rw [substance_cons htrivia]
      cases hend : t.isEnd with
      | true => simp [hend]
      | false =>
        rw [List.takeWhile_cons_of_pos (by simp [hend]),
          List.takeWhile_cons_of_pos (by simp [hend]),
          List.filter_cons_of_pos (by simp [htrivia]), ih]

/-! ## Painting -/

theorem paintVisible_nil (tokens : List Token) : paintVisible [] tokens = tokens := by
  cases tokens <;> rfl

theorem paintVisible_cons_of_isTrivia {t : Token} (h : t.kind.isTrivia = true)
    (paints : List Paint) (tokens : List Token) :
    paintVisible paints (t :: tokens) = t :: paintVisible paints tokens := by
  cases paints with
  | nil => rw [paintVisible_nil, paintVisible_nil]
  | cons p paints => rw [paintVisible, if_pos h]

theorem paintVisible_cons {t : Token} (h : t.kind.isTrivia = false) (p : Paint)
    (paints : List Paint) (tokens : List Token) :
    paintVisible (p :: paints) (t :: tokens) = p.apply t :: paintVisible paints tokens := by
  rw [paintVisible, if_neg (by simp [h])]

/-- Trivia are not painted. -/
theorem getElem?_paintVisible_of_isTrivia {tokens : List Token} {i : Nat} {t : Token}
    (ht : tokens[i]? = some t) (htrivia : t.kind.isTrivia = true) (paints : List Paint) :
    (paintVisible paints tokens)[i]? = some t := by
  fun_induction paintVisible paints tokens generalizing i with
  | case1 p paints u tokens hu ih =>
    cases i with
    | zero => exact ht
    | succ i => exact ih ht
  | case2 p paints u tokens hu ih =>
    cases i with
    | zero =>
      simp only [List.getElem?_cons_zero, Option.some.injEq] at ht
      exact absurd (ht ▸ htrivia) hu
    | succ i => exact ih ht
  | case3 => exact ht

/-- The tokens that are not trivia are painted one after the other. -/
theorem substance_paintVisible (paints : List Paint) (tokens : List Token) :
    substance (paintVisible paints tokens) = paintVisible paints (substance tokens) := by
  induction tokens generalizing paints with
  | nil => simp [substance, paintVisible]
  | cons t tokens ih =>
    cases htrivia : t.kind.isTrivia with
    | true =>
      rw [paintVisible_cons_of_isTrivia htrivia, substance_cons_of_isTrivia htrivia,
        substance_cons_of_isTrivia htrivia, ih]
    | false =>
      cases paints with
      | nil => rw [paintVisible_nil, paintVisible_nil]
      | cons p paints =>
        have hp : (p.apply t).kind.isTrivia = false := by rwa [kind_apply]
        rw [paintVisible_cons htrivia, substance_cons hp, substance_cons htrivia,
          paintVisible_cons htrivia, ih]

/-- Painting goes through a list from left to right, and uses up a paint at each token that is not
trivia. -/
theorem paintVisible_append (paints : List Paint) (a b : List Token) :
    paintVisible paints (a ++ b)
      = paintVisible paints a ++ paintVisible (paints.drop (substance a).length) b := by
  induction a generalizing paints with
  | nil => cases paints <;> rfl
  | cons t a ih =>
    rw [List.cons_append]
    cases htrivia : t.kind.isTrivia with
    | true =>
      rw [paintVisible_cons_of_isTrivia htrivia, paintVisible_cons_of_isTrivia htrivia, ih,
        substance_cons_of_isTrivia htrivia, List.cons_append]
    | false =>
      cases paints with
      | nil => rw [List.drop_nil, paintVisible_nil, paintVisible_nil, paintVisible_nil]; rfl
      | cons p paints =>
        rw [paintVisible_cons htrivia, paintVisible_cons htrivia, ih, substance_cons htrivia,
          List.length_cons, List.drop_succ_cons, List.cons_append]

/-- With a paint for each token that is not trivia, more paints change nothing. -/
theorem paintVisible_append_paints {paints : List Paint} {tokens : List Token}
    (hlen : paints.length = (substance tokens).length) (more : List Paint) :
    paintVisible (paints ++ more) tokens = paintVisible paints tokens := by
  induction tokens generalizing paints with
  | nil => cases paints <;> cases more <;> rfl
  | cons t tokens ih =>
    cases htrivia : t.kind.isTrivia with
    | true =>
      rw [substance_cons_of_isTrivia htrivia] at hlen
      rw [paintVisible_cons_of_isTrivia htrivia, paintVisible_cons_of_isTrivia htrivia, ih hlen]
    | false =>
      rw [substance_cons htrivia] at hlen
      obtain ⟨p, paints, rfl⟩ := List.exists_cons_of_length_eq_add_one hlen
      rw [List.cons_append, paintVisible_cons htrivia, paintVisible_cons htrivia,
        ih (by simpa using hlen)]

/-- With a paint for each, tokens that are not trivia are painted in turn. -/
theorem paintVisible_eq_zipWith {paints : List Paint} {tokens : List Token}
    (htrivia : ∀ t ∈ tokens, t.kind.isTrivia = false) (hlen : paints.length = tokens.length) :
    paintVisible paints tokens = List.zipWith Paint.apply paints tokens := by
  induction tokens generalizing paints with
  | nil =>
    rw [List.length_nil, List.length_eq_zero_iff] at hlen
    rw [hlen, paintVisible_nil]
    rfl
  | cons t tokens ih =>
    obtain ⟨p, paints, rfl⟩ := List.exists_cons_of_length_eq_add_one hlen
    rw [paintVisible_cons (htrivia t List.mem_cons_self),
      ih (fun u hu => htrivia u (List.mem_cons_of_mem _ hu)) (by simpa using hlen)]
    rfl

theorem paintVisible_of_isTrivia {tokens : List Token}
    (h : ∀ t ∈ tokens, t.kind.isTrivia = true) (paints : List Paint) :
    paintVisible paints tokens = tokens := by
  induction tokens with
  | nil => cases paints <;> rfl
  | cons t tokens ih =>
    rw [paintVisible_cons_of_isTrivia (h t List.mem_cons_self),
      ih fun u hu => h u (List.mem_cons_of_mem _ hu)]

/-- Painting passes over trivia in the middle. -/
theorem paintVisible_append_trivia {inside : List Token}
    (h : ∀ t ∈ inside, t.kind.isTrivia = true) (paints : List Paint) (front back : List Token) :
    paintVisible paints (front ++ (inside ++ back))
      = paintVisible paints front
        ++ (inside ++ paintVisible (paints.drop (substance front).length) back) := by
  rw [paintVisible_append, paintVisible_append, paintVisible_of_isTrivia h, substance_eq_nil h,
    List.length_nil, List.drop_zero]

/-- What paint does not change about a token, painting does not change. -/
theorem map_paintVisible {α : Type} {f : Token → α} (hf : ∀ p t, f (Paint.apply p t) = f t)
    (paints : List Paint) (tokens : List Token) :
    (paintVisible paints tokens).map f = tokens.map f := by
  fun_induction paintVisible paints tokens with
  | case1 p paints t tokens h ih => rw [List.map_cons, List.map_cons, ih]
  | case2 p paints t tokens h ih => rw [List.map_cons, List.map_cons, ih, hf]
  | case3 => rfl

theorem exists_span_of_mem_paintVisible {paints : List Paint} {tokens : List Token} {t : Token}
    (h : t ∈ paintVisible paints tokens) : ∃ u ∈ tokens, u.span = t.span := by
  have hmem : t.span ∈ (paintVisible paints tokens).map Token.span := List.mem_map_of_mem h
  rw [map_paintVisible (fun p t => by cases p <;> rfl)] at hmem
  exact List.mem_map.1 hmem

/-- What is done to tokens without a look at their style may be done before they are painted. -/
theorem paintVisible_map {g : Token → Token} (hkind : ∀ t, (g t).kind = t.kind)
    (hg : ∀ p t, Paint.apply p (g t) = g (Paint.apply p t)) (paints : List Paint)
    (tokens : List Token) :
    paintVisible paints (tokens.map g) = (paintVisible paints tokens).map g := by
  induction tokens generalizing paints with
  | nil => cases paints <;> rfl
  | cons t tokens ih =>
    rw [List.map_cons]
    cases htrivia : t.kind.isTrivia with
    | true =>
      rw [paintVisible_cons_of_isTrivia (by rw [hkind, htrivia]),
        paintVisible_cons_of_isTrivia htrivia, ih, List.map_cons]
    | false =>
      cases paints with
      | nil => rw [paintVisible_nil, paintVisible_nil, List.map_cons]
      | cons p paints =>
        rw [paintVisible_cons (by rw [hkind, htrivia]), paintVisible_cons htrivia, ih,
          List.map_cons, hg]

end GrammarPaint
