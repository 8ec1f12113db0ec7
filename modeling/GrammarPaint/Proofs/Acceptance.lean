import GrammarPaint.Proofs.Soundness

/-!
# The reading accepts exactly its grammar

`GrammarPaint.Proofs.FileGrammar` says what a file of items is and `GrammarPaint.Item.Reading`
reads one.  Here the two are shown to agree: **there is nothing to complain about exactly if the
visible tokens form a file** (`structuralIssues_eq_nil_iff_grammarFile`).

What is read is what the grammar describes (`GrammarPaint.Proofs.Soundness`); the other half
follows the phrases.  The difficulty is that a phrase may end where the reading would complain
rather than stop: an expression that is followed by a comma, say.  Nothing can come of such a
phrase, since no item goes on with a comma there.  `Live` names the words that something can come
of, and a phrase in front of one is read to its end.
-/

set_option autoImplicit false
namespace GrammarPaint

open Phrase

/-! ## What can follow an expression -/

/-- Whether an expression, or anything inside one, can be followed by a word of kind `k` in a file
that the grammar describes. -/
def Live (k : TokenKind) : Prop :=
  beginsTerm k = true ∨ isMark k = true ∨ beginsItem k = true ∨
    k ∈ [.rightParen, .slash, .semicolon]

theorem live_of_beginsTerm {k : TokenKind} (h : beginsTerm k = true) : Live k := .inl h

theorem Live.ne_comma {k : TokenKind} (h : Live k) : k ≠ .comma := by
  rintro rfl
  revert h
  simp [Live, beginsTerm, isMark, beginsItem]

/-- Where a sequence cannot go on with another term, its parts are skipped. -/
theorem moveAt_moreTerms_of_live {negated : Bool} {k : TokenKind} (hlive : Live k)
    (hterm : beginsTerm k = false) (hmark : isMark k = false) :
    (Part.moreTerms negated).moveAt k = .skip := by
  revert hlive hterm hmark
  cases k <;> simp [Live, beginsTerm, isMark, beginsItem] <;> rfl

theorem exists_beginsTerm {level : Level} {ks rest : List TokenKind}
    (h : ExpressionPhrase level ks rest) :
    level = .term ∨ level = .sequence ∨ level = .expression →
      ∃ k ks', ks = k :: ks' ∧ beginsTerm k = true := by
  induction h with
  | lastTerm | anotherTerm | lastAlternative | anotherAlternative => simp
  | sequence _ _ _ ih | expression _ _ ih => exact fun _ => ih (by simp)
  | _ => exact fun _ => ⟨_, _, rfl, rfl⟩

/-- What an expression goes on with is live if what it leaves is. -/
theorem live_of_more {level : Level} {ks rest : List TokenKind}
    (h : ExpressionPhrase level ks rest) (hlevel : level = .moreTerms ∨ level = .moreAlternatives)
    (hlive : Live (headKind rest)) : Live (headKind ks) := by
  cases h with
  | lastTerm | lastAlternative => exact hlive
  | anotherTerm h =>
    obtain ⟨k, ks', rfl, hk⟩ := exists_beginsTerm h (by simp)
    exact live_of_beginsTerm hk
  | anotherAlternative => simp [Live, headKind_cons]
  | _ => simp at hlevel

theorem live_of_marks {ks rest : List TokenKind} (h : marks ks rest)
    (hlive : Live (headKind rest)) : Live (headKind ks) := by
  cases ks with
  | nil => exact .inr (.inr (.inl rfl))
  | cons k ks =>
    by_cases hk : isMark k = true
    · exact .inr (.inl hk)
    · rw [marks, List.dropWhile_cons_of_neg hk] at h
      exact h ▸ hlive

theorem not_isMark_of_marks {ks rest : List TokenKind} (h : marks ks rest) :
    isMark (headKind rest) = false := by
  induction ks with
  | nil => rw [show rest = [] from h]; rfl
  | cons k ks ih =>
    by_cases hk : isMark k = true
    · rw [marks, List.dropWhile_cons_of_pos hk] at h
      exact ih h
    · rw [marks, List.dropWhile_cons_of_neg hk] at h
      rw [h, headKind_cons]
      simpa using hk

/-! ## Words that may be missing or repeated -/

/-- A required word, read. -/
theorem reads_one {part : Part} {k : TokenKind} (hpart : part.moveAt k = .take .keep [])
    {ks rest : List TokenKind} (h : one k ks rest) : Reads [part] ks rest := by
  subst h
  exact .take hpart .nil .nil

/-- What may be missing, read by a part that is skipped where it is missing. -/
theorem reads_opt {part : Part} {k : TokenKind} {taken : List Part} {body : Phrase}
    {ks rest : List TokenKind}
    (hpart : ∀ j, part.moveAt j = if j = k then .take .keep taken else .skip)
    (hk : k ≠ .endOfFile) (h : opt k body ks rest)
    (hbody : ∀ {ks}, body ks rest → Reads taken ks rest) : Reads [part] ks rest := by
  cases h with
  | absent h =>
    exact .skip ((hpart _).trans (if_neg (headKind_ne_of_head? hk h))) .nil
  | present h => exact .take ((hpart k).trans (if_pos rfl)) (hbody h) .nil

theorem reads_optOne {part : Part} {k : TokenKind} {ks rest : List TokenKind}
    (hpart : ∀ j, part.moveAt j = if j = k then .take .keep [] else .skip)
    (hk : k ≠ .endOfFile) (h : optOne k ks rest) : Reads [part] ks rest := by
  refine reads_opt hpart hk h fun h => ?_
  rw [show _ = rest from h]
  exact .nil

theorem reads_marks {ks rest : List TokenKind} (h : marks ks rest) :
    Reads [.repetition] ks rest := by
  induction ks with
  | nil =>
    rw [show rest = [] from h]
    exact .skip rfl .nil
  | cons k ks ih =>
    by_cases hk : isMark k = true
    · rw [marks, List.dropWhile_cons_of_pos hk] at h
      refine .take ?_ (ih h) .nil
      rw [Part.moveAt, Part.move, if_pos (mem_repeatMark_iff.2 hk)]
      rfl
    · rw [marks, List.dropWhile_cons_of_neg hk] at h
      subst h
      exact .skip (moveAt_repetition_of_not_isMark (by simpa [headKind_cons] using hk)) .nil

theorem reads_morePath {context : Context} {ks rest : List TokenKind} (h : morePath ks rest) :
    Reads [.pathMore context] ks rest := by
  induction h with
  | done h =>
    refine .skip ?_ .nil
    exact (unpainted_optional ..).trans (if_neg (headKind_ne_of_head? (by simp) h))
  | more hname _ ih =>
    refine .take rfl ?_ .nil
    subst hname
    exact .take rfl .nil ih

/-! ## Lists between angle brackets

A list is read to its end if no comma follows: behind a comma it would go on. -/

/-- Behind an entry, in front of a comma. -/
theorem reads_more_comma {more next : Part} {ks rest : List TokenKind}
    (hmore : ∀ j, more.moveAt j = (Word.afterEntry ⟨j, none⟩ next).unpainted)
    (h : Reads [next] ks rest) : Reads [more] (.comma :: ks) rest :=
  .take (hmore .comma) h .nil

/-- Behind the last entry. -/
theorem reads_more_last {more next : Part} {ks rest : List TokenKind}
    (hmore : ∀ j, more.moveAt j = (Word.afterEntry ⟨j, none⟩ next).unpainted)
    (h : optOne .rightAngle ks rest) (hrest : headKind rest ≠ .comma) : Reads [more] ks rest := by
  cases h with
  | absent h =>
    refine .skip ?_ .nil
    have hne := headKind_ne_of_head? (by simp) h
    rw [hmore]
    revert hrest hne
    generalize headKind ks = k
    cases k <;> simp [Word.afterEntry, Move.unpainted]
  | present h => exact .take (hmore .rightAngle) (h ▸ .nil) .nil

theorem moveAt_parameterColon {k : TokenKind} (hk : k ≠ .colon) :
    Part.parameterColon.moveAt k = Part.parameterType.moveAt k := by
  rw [Part.moveAt, Part.move, if_neg hk]
  rfl

theorem reads_parameterColon {ks mid rest : List TokenKind} (hcolon : optOne .colon ks mid)
    (h : Reads [.parameterType] mid rest) : Reads [.parameterColon] ks rest := by
  cases hcolon with
  | absent hne =>
    have hne := headKind_ne_of_head? (by simp) hne
    cases h with
    | skip hskip hs => exact .skip ((moveAt_parameterColon hne).trans hskip) hs
    | take htake hmid hs => exact .take ((moveAt_parameterColon hne).trans htake) hmid hs
  | present hmid => exact .take rfl (hmid ▸ h) .nil

theorem reads_truthValue {part more : Part} {ks mid rest : List TokenKind}
    (hpart : ∀ k, k = .keywordTrue ∨ k = .keywordFalse → part.moveAt k = .take .keep [more])
    (h : truthValue ks mid) (hmore : Reads [more] mid rest) : Reads [part] ks rest := by
  simp only [truthValue, any_cons_iff] at h
  rcases h with rfl | rfl | h
  · exact .take (hpart _ (.inl rfl)) hmore .nil
  · exact .take (hpart _ (.inr rfl)) hmore .nil
  · exact absurd h not_any_nil

theorem reads_parameterList {ks rest : List TokenKind} (h : parameterList ks rest)
    (hrest : headKind rest ≠ .comma) : Reads [.parameter] ks rest := by
  have hmore : ∀ j, Part.moreParameters.moveAt j
      = (Word.afterEntry ⟨j, none⟩ .parameter).unpainted := fun _ => rfl
  have htruth : ∀ k, k = .keywordTrue ∨ k = .keywordFalse →
      Part.parameter.moveAt k = .take .keep [.moreParameters] := by
    rintro k (rfl | rfl) <;> rfl
  induction h with
  | last h =>
    simp only [parameterLast, any_cons_iff] at h
    rcases h with rfl | ⟨a, hvalue, b, hclose, rfl⟩ | ⟨a, rfl, b, hcolon, c, rfl, rfl⟩ |
      ⟨a, rfl, b, hcolon, c, rfl, d, hclose, rfl⟩ | h
    · exact .take rfl .nil .nil
    · exact reads_truthValue htruth hvalue (reads_more_last hmore hclose hrest)
    · exact .take rfl (reads_parameterColon hcolon (.take rfl .nil .nil)) .nil
    · refine .take rfl (reads_parameterColon hcolon ?_) .nil
      exact .take rfl (reads_more_last hmore hclose hrest) .nil
    · exact absurd h not_any_nil
  | slot h _ ih =>
    have hnext := ih hrest
    simp only [parameterSlot, any_cons_iff] at h
    rcases h with rfl | hvalue | ⟨a, rfl, b, hcolon, c, hname, rfl⟩ | h
    · exact .take rfl hnext .nil
    · exact reads_truthValue htruth hvalue (reads_more_comma hmore hnext)
    · refine .take rfl (reads_parameterColon hcolon ?_) .nil
      cases hname with
      | absent _ => exact .take rfl hnext .nil
      | present h => exact h ▸ .take rfl (reads_more_comma hmore hnext) .nil
    · exact absurd h not_any_nil

theorem reads_argumentList {ks rest : List TokenKind} (h : argumentList ks rest)
    (hrest : headKind rest ≠ .comma) : Reads [.argument] ks rest := by
  have hmore : ∀ j, Part.moreArguments.moveAt j
      = (Word.afterEntry ⟨j, none⟩ .argument).unpainted := fun _ => rfl
  have htruth : ∀ k, k = .keywordTrue ∨ k = .keywordFalse →
      Part.argument.moveAt k = .take .keep [.moreArguments] := by
    rintro k (rfl | rfl) <;> rfl
  induction h with
  | last h =>
    simp only [argumentLast, any_cons_iff] at h
    rcases h with rfl | ⟨a, hvalue, b, hclose, rfl⟩ | ⟨a, rfl, b, hclose, rfl⟩ | h
    · exact .take rfl .nil .nil
    · exact reads_truthValue htruth hvalue (reads_more_last hmore hclose hrest)
    · exact .take rfl (reads_more_last hmore hclose hrest) .nil
    · exact absurd h not_any_nil
  | slot h _ ih =>
    have hnext := ih hrest
    simp only [argumentSlot, any_cons_iff] at h
    rcases h with rfl | hvalue | rfl | h
    · exact .take rfl hnext .nil
    · exact reads_truthValue htruth hvalue (reads_more_comma hmore hnext)
    · exact .take rfl (reads_more_comma hmore hnext) .nil
    · exact absurd h not_any_nil

/-! ## Expressions -/

theorem moveAt_term_ne_skip {negated : Bool} {k : TokenKind} :
    (Part.term negated).moveAt k ≠ .skip := by
  cases k <;> nofun

theorem reads_moreTerms {negated : Bool} {ks mid rest : List TokenKind}
    (hterm : Reads [.term negated] ks mid)
    (hmore : Reads [.repetition, .moreTerms negated] mid rest) :
    Reads [.moreTerms negated] ks rest := by
  cases hterm with
  | skip hskip => exact absurd hskip moveAt_term_ne_skip
  | take htake hmid hs =>
    cases hs
    exact .take (moveAt_moreTerms_of_term htake) (hmid.append hmore) .nil

theorem reads_group {negated : Bool} {ks mid rest : List TokenKind}
    (hexpression : Reads (expression negated) ks mid) (hclose : Reads [.groupEnd] mid rest) :
    Reads [.group negated] ks rest := by
  cases hexpression with
  | skip hskip => exact absurd hskip moveAt_term_ne_skip
  | take htake hmid hs =>
    exact .take (moveAt_group_of_term htake) (hmid.append (hs.append hclose)) .nil

theorem reads_binding {negated : Bool} {ks rest : List TokenKind} (h : binding ks rest) :
    Reads [.bindingColon negated] ks rest :=
  reads_opt (fun _ => unpainted_optional ..) (by simp) h
    (reads_optOne (fun _ => unpainted_optional ..) (by simp))

theorem headKind_ne_comma_of_binding {ks rest : List TokenKind} (h : binding ks rest)
    (hlive : Live (headKind rest)) : headKind ks ≠ .comma := by
  cases h with
  | absent => exact hlive.ne_comma
  | present => simp [headKind_cons]

theorem reads_reference {negated : Bool} {ks mid rest : List TokenKind}
    (hargs : opt .leftAngle argumentList ks mid) (hbinding : binding mid rest)
    (hlive : Live (headKind rest)) : Reads [.arguments, .bindingColon negated] ks rest := by
  refine Reads.append (a := [.arguments]) ?_ (reads_binding hbinding)
  exact reads_opt (fun _ => unpainted_optional ..) (by simp) hargs fun h =>
    reads_argumentList h (headKind_ne_comma_of_binding hbinding hlive)

/-- **An expression is read to its end**, and so is every part of one, if the word behind it can
follow an expression at all. -/
theorem reads_of_expressionPhrase {level : Level} {ks rest : List TokenKind}
    (h : ExpressionPhrase level ks rest) (hlive : Live (headKind rest))
    (hmark : level = .moreTerms → isMark (headKind ks) = false) (negated : Bool) :
    Reads (level.parts negated) ks rest := by
  induction h generalizing negated with
  | emptyGroup => exact .take rfl (.take rfl .nil .nil) .nil
  | @group _ mid _ _ hclose ih =>
    have hmid : Live (headKind mid) := by
      cases hclose with
      | absent => exact hlive
      | present => exact .inr (.inr (.inr (by simp [headKind_cons])))
    refine .take rfl (reads_group (ih hmid (by simp) negated) ?_) .nil
    exact reads_optOne (fun _ => unpainted_optional ..) (by simp) hclose
  | reference hargs hbinding => exact .take rfl (reads_reference hargs hbinding hlive) .nil
  | characterClass hbinding => exact .take rfl (reads_binding hbinding) .nil
  | ampersand _ ih => exact .take rfl (ih hlive (by simp) negated) .nil
  | bang _ ih => exact .take rfl (ih hlive (by simp) true) .nil
  | keywordEof | string | snippet => exact .take rfl .nil .nil
  | @lastTerm ks hterm =>
    refine .skip (moveAt_moreTerms_of_live hlive ?_ (hmark rfl)) .nil
    cases ks with
    | nil => rfl
    | cons k ks => exact hterm k rfl
  | anotherTerm _ hmarks hmore ih ihmore =>
    have hmid := live_of_more hmore (.inl rfl) hlive
    refine reads_moreTerms (ih (live_of_marks hmarks hmid) (by simp) negated) ?_
    exact (reads_marks hmarks).append
      (ihmore hlive (fun _ => not_isMark_of_marks hmarks) negated)
  | sequence _ hmarks hmore ih ihmore =>
    have hmid := live_of_more hmore (.inl rfl) hlive
    refine (ih (live_of_marks hmarks hmid) (by simp) negated).append ?_
    exact (reads_marks hmarks).append
      (ihmore hlive (fun _ => not_isMark_of_marks hmarks) negated)
  | lastAlternative h =>
    refine .skip ?_ .nil
    exact (unpainted_optional ..).trans (if_neg (headKind_ne_of_head? (by simp) h))
  | anotherAlternative _ hmore ih ihmore =>
    have hmid := live_of_more hmore (.inr rfl) hlive
    exact .take rfl ((ih hmid (by simp) negated).append (ihmore hlive (by simp) negated)) .nil
  | expression _ hmore ih ihmore =>
    have hmid := live_of_more hmore (.inr rfl) hlive
    exact (ih hmid (by simp) negated).append (ihmore hlive (by simp) negated)

/-! ## Items -/

theorem reads_itemClose {ks rest : List TokenKind} (h : itemClose ks rest) :
    Reads [.itemEnd] ks rest := by
  simp only [itemClose, any_cons_iff] at h
  rcases h with rfl | ⟨rfl, hitem⟩ | h
  · exact .take rfl .nil .nil
  · refine .skip ?_ .nil
    cases ks with
    | nil => rfl
    | cons k ks =>
      have hk := hitem k rfl
      revert hk
      rw [headKind_cons]
      cases k <;> simp [beginsItem] <;> rfl
  · exact absurd h not_any_nil

theorem live_of_itemClose {ks rest : List TokenKind} (h : itemClose ks rest) :
    Live (headKind ks) := by
  simp only [itemClose, any_cons_iff] at h
  rcases h with rfl | ⟨rfl, hitem⟩ | h
  · simp [Live, headKind_cons]
  · cases ks with
    | nil => exact .inr (.inr (.inl rfl))
    | cons k ks => exact .inr (.inr (.inl (hitem k rfl)))
  · exact absurd h not_any_nil

theorem reads_of_item {ks rest : List TokenKind} (h : item ks rest) :
    ∃ k ks' parts, ks = k :: ks' ∧ itemParts? k = some parts ∧ Reads parts ks' rest := by
  simp only [item, any_cons_iff] at h
  rcases h with ⟨ks, rfl, a, hlead, b, rfl, c, hmore, d, rfl, e, hclose, rfl⟩ |
    ⟨ks, rfl, b, rfl, c, hmore, d, hclose, rfl⟩ |
    ⟨ks, rfl, b, rfl, c, hsnippet, d, hclose, rfl⟩ |
    ⟨ks, rfl, a, hparameters, b, hresult, c, rfl, d, hexpression, e, hclose, rfl⟩ | h
  · refine ⟨_, ks, _, rfl, rfl, ?_⟩
    have hpath : Reads [.pathLead] ks _ :=
      reads_optOne (fun _ => unpainted_optional ..) (by simp) hlead
    have hname : Reads [.aliasName, .itemEnd] _ _ :=
      .take (k := .identifier) rfl .nil (reads_itemClose hclose)
    exact hpath.append (.take rfl .nil ((reads_morePath hmore).append hname))
  · refine ⟨_, _, _, rfl, rfl, .take rfl .nil ?_⟩
    exact (reads_morePath hmore).append (reads_itemClose hclose)
  · refine ⟨_, _, _, rfl, rfl, .take rfl .nil ?_⟩
    have hbody : Reads [.sectionBody] b c :=
      reads_optOne (fun _ => unpainted_optional ..) (by simp) hsnippet
    exact hbody.append (reads_itemClose hclose)
  · refine ⟨_, ks, _, rfl, rfl, ?_⟩
    have hcomma : headKind a ≠ .comma := by
      cases hresult <;> simp [headKind_cons]
    have hfirst : Reads [.parameters] ks a :=
      reads_opt (fun _ => unpainted_optional ..) (by simp) hparameters fun h =>
        reads_parameterList h hcomma
    have hsecond : Reads [.resultColon] a (.equals :: c) :=
      reads_opt (fun _ => unpainted_optional ..) (by simp) hresult (reads_one rfl)
    have hequals : Reads [.equalsSign] (.equals :: c) c := .take rfl .nil .nil
    have hbody : Reads (expression false) c d :=
      reads_of_expressionPhrase hexpression (live_of_itemClose hclose) (by simp) false
    exact hfirst.append (hsecond.append (hequals.append
      (hbody.append (reads_itemClose hclose))))
  · exact absurd h not_any_nil

/-! ## Both together -/

theorem accepts_nil_iff_grammarFile {ks : List TokenKind} : Accepts [] ks ↔ GrammarFile ks := by
  constructor
  · intro h
    induction hn : ks.length using Nat.strongRecOn generalizing ks with
    | ind n ih =>
      subst hn
      cases ks with
      | nil => exact .nil
      | cons k ks =>
        obtain ⟨parts, rest, hk, hreads, hrest⟩ := accepts_nil_cons_iff.1 h
        exact .cons (item_of_reads hk hreads)
          (ih rest.length (Nat.lt_succ_of_le hreads.length_le) hrest rfl)
  · intro h
    induction h with
    | nil => exact accepts_nil_nil
    | cons hitem _ ih =>
      obtain ⟨k, ks', parts, rfl, hk, hreads⟩ := reads_of_item hitem
      exact accepts_nil_cons_iff.2 ⟨parts, _, hk, hreads, ih⟩

/-- **The reading accepts exactly its grammar**: there is nothing to complain about if and only if
the visible tokens, up to the end of the file, form a sequence of items. -/
theorem structuralIssues_eq_nil_iff_grammarFile (tokens : List Token) :
    structuralIssues tokens = [] ↔ GrammarFile ((visible tokens).map Token.kind) := by
  rw [structuralIssues_eq_nil_iff_accepts, accepts_nil_iff_grammarFile]

end GrammarPaint
