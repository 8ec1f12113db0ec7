import GrammarPaint.Analysis
import GrammarPaint.Proofs.Moving

/-!
# What repainting sees and what it changes

Tokens are repainted by a reading that passes over trivia and never asks for a style.  Two things
follow for any list of tokens, whether or not it is the tokens of a document.

* **Trivia are invisible.**  Lists that are the same without their trivia have the same roles and
  the same complaints made about them (`overlooksTrivia`).
* **Styles are all that changes**, and not much about them: no token is repainted from the end of
  the file on, and none in a style that is not for its kind (`recolours_assignRoles`).  What there
  is for a kind is a list of styles (`TokenKind.roles`), and the list is empty for all kinds but
  four.
-/

set_option autoImplicit false
namespace GrammarPaint

/-! ## Trivia -/

theorem substance_substance (tokens : List Token) :
    substance (substance tokens) = substance tokens :=
  substance_eq_self fun _ => not_isTrivia_of_mem_substance

section SameSubstance

variable {a b : List Token} (h : substance a = substance b)
include h

/-- The same tokens are tokens in the same places. -/
theorem substance_eq_map_id : substance a = (substance b).map (Token.mapSpan id) := by
  rw [h]
  exact (List.map_id _).symm

theorem substance_assignRoles_congr : substance (assignRoles a) = substance (assignRoles b) := by
  rw [assignRoles, substance_paintVisible, readItems_mapSpan (substance_eq_map_id h), h,
    ← substance_paintVisible, assignRoles]

theorem structuralIssues_congr (hend : ∃ t ∈ b, t.isEnd = true) :
    structuralIssues a = structuralIssues b := by
  rw [structuralIssues_mapSpan (substance_eq_map_id h) hend]
  exact List.map_id _

end SameSubstance

/-- Trivia do not take part in what becomes of tokens. -/
structure OverlooksTrivia (tokens : List Token) : Prop where
  /-- Tokens can be repainted before or after their trivia are left out. -/
  roles : substance (assignRoles tokens) = assignRoles (substance tokens)
  /-- The same is wrong with them without their trivia. -/
  issues : structuralIssues tokens = structuralIssues (substance tokens)
  /-- The trivia themselves stay as they are. -/
  trivia : ∀ (i : Nat) (t : Token), tokens[i]? = some t → t.kind.isTrivia = true →
    (assignRoles tokens)[i]? = some t
  /-- Trivia may stand in other places, and may be others. -/
  elsewhere : ∀ others : List Token, substance others = substance tokens →
    substance (assignRoles others) = substance (assignRoles tokens) ∧
      structuralIssues others = structuralIssues tokens

/-- A rule that breaks off, with spacing and comments around its tokens and a snippet among
them. -/
def brokenSample : List Token := (Document.ofText " r /**/ = \x7b x \x7d ( // ").tokens

/-- The styles that a role can give to a token of a kind. -/
def TokenKind.roles : TokenKind → List (Option Style)
  | identifier =>
    [some .ruleName, some .typeName, some .codeIdentifier, some .templateVariable,
      some .resultVariable, some .identifier, some .keyword]
  | doubleColon => [some .codePunctuator]
  | ampersand => [some .code]
  | snippetStart => [none]
  | _ => []

/-- Paint that leaves a token of kind `k` alone or gives it a style for its kind. -/
def Paint.Suits (k : TokenKind) : Paint → Prop
  | keep => True
  | set style => style ∈ k.roles

instance (k : TokenKind) (paint : Paint) : Decidable (paint.Suits k) :=
  match paint with
  | .keep => inferInstanceAs (Decidable True)
  | .set style => inferInstanceAs (Decidable (style ∈ k.roles))

/-- A move that paints a word of kind `k`, if it takes one, as suits it. -/
def Move.Suits (k : TokenKind) : Move → Prop
  | .take paint _ => paint.Suits k
  | _ => True

variable {w : Word}

theorem suits_optional {k : TokenKind} {paint : Paint} {parts : List Part} (h : paint.Suits k) :
    (w.optional k paint parts).Suits w.kind := by
  rw [Word.optional]
  split
  · rename_i hk
    exact hk.symm ▸ h
  · trivial

theorem suits_required {k : TokenKind} {paint : Paint} {parts : List Part}
    {complaint : Complaint} (h : paint.Suits k) :
    (w.required k paint parts complaint).Suits w.kind := by
  rw [Word.required]
  split
  · rename_i hk
    exact hk.symm ▸ h
  · trivial

theorem suits_asTerm {following : TokenKind} {negated : Bool} {parts : List Part} :
    (w.asTerm following negated parts).Suits w.kind := by
  obtain ⟨k, name⟩ := w
  cases k with
  | identifier => exact show Paint.Suits .identifier (.as .ruleName) by decide
  | ampersand =>
    show Paint.Suits .ampersand (if following = .snippetStart then .as .code else .keep)
    split <;> decide
  | snippetStart =>
    show Paint.Suits .snippetStart (if negated then .set none else .keep)
    split <;> decide
  | _ => trivial

theorem suits_asEntry {paint : Paint} {parts : List Part} {next more : Part}
    {complaint : Complaint} (h : paint.Suits .identifier) :
    (w.asEntry (.take paint parts) next more complaint).Suits w.kind := by
  obtain ⟨k, name⟩ := w
  cases k with
  | identifier => exact h
  | _ => trivial

theorem suits_afterEntry {next : Part} : (w.afterEntry next).Suits w.kind := by
  unfold Word.afterEntry
  split <;> trivial

theorem suits_asParameterType : w.asParameterType.Suits w.kind := by
  obtain ⟨k, name⟩ := w
  cases k with
  | identifier => exact show Paint.Suits .identifier (.as .typeName) by decide
  | _ => trivial

/-- **A word that is taken is painted as suits its kind.** -/
theorem suits_move (part : Part) (following : TokenKind) :
    (part.move w following).Suits w.kind := by
  cases part with
  | pathLead | pathMore => exact suits_optional (by decide)
  | pathName | aliasName | resultType => exact suits_required (by decide)
  | sectionName =>
    refine suits_required ?_
    split <;> decide
  | bindingName negated => exact suits_optional (by cases negated <;> decide)
  | sectionBody | parameters | resultColon | moreAlternatives | groupEnd | arguments
  | bindingColon => exact suits_optional trivial
  | equalsSign => exact suits_required trivial
  | parameter | argument => exact suits_asEntry (by decide)
  | parameterColon =>
    rw [Part.move]
    split
    · trivial
    · exact suits_asParameterType
  | parameterType => exact suits_asParameterType
  | moreParameters | moreArguments => exact suits_afterEntry
  | term => exact suits_asTerm
  | repetition =>
    rw [Part.move]
    split <;> trivial
  | moreTerms | group =>
    rw [Part.move]
    split
    · trivial
    · exact suits_asTerm
  | itemEnd =>
    rw [Part.move]
    split
    · trivial
    · exact suits_required trivial

theorem suits_item? {begun : Paint × List Part} (h : w.item? = some begun) :
    begun.1.Suits w.kind := by
  obtain ⟨k, name⟩ := w
  cases k with
  | identifier =>
    cases h
    exact show Paint.Suits .identifier (.as .ruleName) by decide
  | keywordTypedef | keywordNamespace | keywordCode =>
    cases h
    trivial
  | _ => exact nomatch h

theorem suits_settle {following : TokenKind} {parts : List Part} {settled : Paint × List Part}
    (h : settle w following parts = .ok settled) : settled.1.Suits w.kind := by
  rcases settle_ok_cases h with ⟨-, hitem⟩ | ⟨skipped, part, rest, taken, -, -, hmove, -⟩
  · exact suits_item? hitem
  · have hsuits := suits_move (w := w) part following
    rwa [hmove] at hsuits

theorem suits_resume (w : Word) : (resume w).1.Suits w.kind := by
  rw [resume]
  split
  · exact suits_item? ‹_›
  · trivial

/-- **Every verdict paints as suits the word that it is on.** -/
theorem suits_step (r : Reading) (w : Word) (following : TokenKind) :
    (r.step w following).1.paint.Suits w.kind := by
  cases r with
  | expecting parts =>
    rw [Reading.step]
    split
    · exact suits_settle ‹_›
    · exact suits_resume w
  | skipping => exact suits_resume w

theorem substance_eq_visible_append_substance (tokens : List Token) :
    substance tokens
      = visible tokens ++ substance (tokens.dropWhile fun t => !t.isEnd) := by
  rw [show visible tokens = substance (tokens.takeWhile fun t => !t.isEnd) from rfl,
    ← substance_append, List.takeWhile_append_dropWhile]

theorem suits_readItems (tokens : List Token) :
    ∀ p ∈ (substance tokens).zip ((readItems tokens).1.map Verdict.paint),
      p.2.Suits p.1.kind := by
  rw [substance_eq_visible_append_substance, List.zip_map_right,
    ← List.append_nil (readItems tokens).1, List.zip_append (length_readItems tokens).symm,
    List.zip_nil_right, List.append_nil]
  intro p hp
  obtain ⟨⟨t, v⟩, hmem, rfl⟩ := List.mem_map.1 hp
  exact (forall_readItems (I := fun _ => True) (P := fun w v => v.paint.Suits w.kind)
    (fun r w following _ => ⟨suits_step r w following, trivial⟩) trivial tokens).1 (t, v) hmem

/-! ## Tokens before and behind the end of the file -/

/-- A token in a style that paint suiting its kind can leave it in. -/
theorem apply_of_suits {p : Paint} {t : Token} (h : p.Suits t.kind) :
    ∃ style, p.apply t = t.restyle style ∧ (style = t.style ∨ style ∈ t.kind.roles) := by
  cases p with
  | keep => exact ⟨t.style, rfl, .inl rfl⟩
  | set style => exact ⟨style, rfl, .inr h⟩

theorem getElem?_paintVisible_of_suits {paints : List Paint} {tokens : List Token}
    (h : ∀ p ∈ (substance tokens).zip paints, p.2.Suits p.1.kind) {i : Nat} {t : Token}
    (ht : tokens[i]? = some t) :
    ∃ style, (paintVisible paints tokens)[i]? = some (t.restyle style) ∧
      (style = t.style ∨ style ∈ t.kind.roles) := by
  fun_induction paintVisible paints tokens generalizing i with
  | case1 p paints u tokens hu ih =>
    rw [substance_cons_of_isTrivia hu] at h
    cases i with
    | zero => exact ⟨t.style, ht, .inl rfl⟩
    | succ i => exact ih h ht
  | case2 p paints u tokens hu ih =>
    rw [substance_cons (by simpa using hu), List.zip_cons_cons, List.forall_mem_cons] at h
    cases i with
    | zero =>
      obtain rfl : u = t := Option.some.inj ht
      obtain ⟨style, happly, hstyle⟩ := apply_of_suits h.1
      exact ⟨style, congrArg some happly, hstyle⟩
    | succ i => exact ih h.2 ht
  | case3 => exact ⟨t.style, ht, .inl rfl⟩

/-- Only what comes before the end of the file is repainted. -/
theorem assignRoles_eq_append (tokens : List Token) :
    assignRoles tokens
      = paintVisible ((readItems tokens).1.map Verdict.paint) (tokens.takeWhile fun t => !t.isEnd)
        ++ tokens.dropWhile fun t => !t.isEnd := by
  calc assignRoles tokens
      = paintVisible ((readItems tokens).1.map Verdict.paint)
          ((tokens.takeWhile fun t => !t.isEnd) ++ tokens.dropWhile fun t => !t.isEnd) := by
        rw [List.takeWhile_append_dropWhile, assignRoles]
    _ = _ := by
        have hlen := length_readItems tokens
        rw [visible, ← substance, ← List.length_map (f := Verdict.paint)] at hlen
        rw [paintVisible_append, ← hlen, List.drop_length, paintVisible_nil]

theorem length_takeWhile_le_of_isEnd {tokens : List Token} {i : Nat} {t : Token}
    (ht : tokens[i]? = some t) (hend : t.isEnd = true) :
    (tokens.takeWhile fun t => !t.isEnd).length ≤ i := by
  refine Nat.le_of_not_lt fun hlt => ?_
  rw [← List.takeWhile_append_dropWhile (p := fun t => !t.isEnd) (l := tokens),
    List.getElem?_append_left hlt] at ht
  have hall := List.all_eq_true.1 List.all_takeWhile t (List.mem_of_getElem? ht)
  simp [hend] at hall

theorem kindAt_eq (tokens : List Token) (i : Nat) :
    kindAt tokens i = ((tokens.map Token.kind)[i]?).getD .endOfFile := by
  rw [kindAt, List.getElem?_map]
  cases tokens[i]? <;> rfl

/-- Tokens of which some are shown in other styles, as the roles of tokens make it. -/
structure Recolours (before after : List Token) : Prop where
  /-- Number, order, kinds, names and spans stay. -/
  frame : after.map (fun t => (t.kind, t.name, t.span))
    = before.map fun t => (t.kind, t.name, t.span)
  /-- Kinds by position stay, past the end as well. -/
  kinds : ∀ i, kindAt after i = kindAt before i
  /-- Nothing changes from the end of the file on. -/
  ending : ∀ (i j : Nat) (t : Token), before[i]? = some t → t.isEnd = true → i ≤ j →
    after[j]? = before[j]?
  /-- A style that changes becomes one for the kind. -/
  styles : ∀ (i : Nat) (t u : Token), before[i]? = some t → after[i]? = some u →
    u.style = t.style ∨ u.style ∈ t.kind.roles

/-- **Roles change styles alone**, before the end of the file alone, and to styles for the kind. -/
theorem recolours_assignRoles (tokens : List Token) : Recolours tokens (assignRoles tokens) where
  frame := map_paintVisible (fun p t => by cases p <;> rfl) _ _
  kinds := fun i => by rw [kindAt_eq, kind_assignRoles, ← kindAt_eq]
  ending := fun i j t ht hend hij => by
    have hle := Nat.le_trans (length_takeWhile_le_of_isEnd ht hend) hij
    calc (assignRoles tokens)[j]?
        = (tokens.dropWhile fun t => !t.isEnd)[j - (tokens.takeWhile fun t => !t.isEnd).length]? := by
          rw [assignRoles_eq_append, List.getElem?_append_right (by rwa [length_paintVisible]),
            length_paintVisible]
      _ = ((tokens.takeWhile fun t => !t.isEnd) ++ tokens.dropWhile fun t => !t.isEnd)[j]? :=
          (List.getElem?_append_right hle).symm
      _ = tokens[j]? := by rw [List.takeWhile_append_dropWhile]
  styles := fun i t u ht hu => by
    obtain ⟨style, hpainted, hstyle⟩ := getElem?_paintVisible_of_suits (suits_readItems tokens) ht
    obtain rfl : u = t.restyle style := Option.some.inj (hu.symm.trans hpainted)
    exact hstyle

end GrammarPaint
