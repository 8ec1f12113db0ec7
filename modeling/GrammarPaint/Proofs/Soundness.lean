import GrammarPaint.Proofs.FileGrammar
import GrammarPaint.Proofs.Parts

/-!
# What is read is what the grammar describes

Every part stands for a phrase of the grammar (`Part.phrase`).  One look at each part shows that
its moves respect that phrase: a part that is skipped stands for a phrase that may be missing
(`phrase_of_skip`), and a part that takes a word stands for one that begins with it
(`phrase_of_take`).  So what parts in a row read is what they stand for (`phrase_of_reads`), and
what is read of an item is an item (`item_of_reads`).
-/

set_option autoImplicit false
namespace GrammarPaint

open Phrase

/-! ## Small facts about phrases -/

theorem any_cons_iff {p : Phrase} {ps : List Phrase} {ks rest : List TokenKind} :
    any (p :: ps) ks rest ↔ p ks rest ∨ any ps ks rest := by
  simp [any]

theorem not_any_nil {ks rest : List TokenKind} : ¬any [] ks rest := fun ⟨_, h, _⟩ => nomatch h

theorem head?_ne_of_headKind {ks : List TokenKind} {k : TokenKind} (h : headKind ks ≠ k) :
    ks.head? ≠ some k := by
  rintro hk
  cases ks with
  | nil => exact nomatch hk
  | cons j ks => exact h (Option.some.inj hk)

theorem headKind_ne_of_head? {ks : List TokenKind} {k : TokenKind} (hk : k ≠ .endOfFile)
    (h : ks.head? ≠ some k) : headKind ks ≠ k := by
  cases ks with
  | nil => exact hk.symm
  | cons j ks => exact fun hj => h (congrArg some hj)

/-! ## The phrase of a part -/

/-- What comes behind the name of a parameter and its colon. -/
def parameterTail : Phrase :=
  any [all [optOne .identifier, one .comma, parameterList], one .rightAngle,
    all [one .identifier, optOne .rightAngle]]

/-- How a list between angle brackets goes on behind an entry. -/
def listTail (list : Phrase) : Phrase := any [all [one .comma, list], optOne .rightAngle]

/-- The phrase that a part stands for. -/
def Part.phrase : Part → Phrase
  | .pathLead => optOne .doubleColon
  | .pathName _ | .aliasName | .sectionName | .resultType => one .identifier
  | .pathMore _ => morePath
  | .sectionBody => optOne .snippetStart
  | .parameters => opt .leftAngle parameterList
  | .parameter => parameterList
  | .parameterColon => all [optOne .colon, parameterTail]
  | .parameterType => parameterTail
  | .moreParameters => listTail parameterList
  | .resultColon => opt .colon (one .identifier)
  | .equalsSign => one .equals
  | .term _ => ExpressionPhrase .term
  | .repetition => marks
  | .moreTerms _ => ExpressionPhrase .moreTerms
  | .moreAlternatives _ => ExpressionPhrase .moreAlternatives
  | .group _ => any [one .rightParen, all [ExpressionPhrase .expression, optOne .rightParen]]
  | .groupEnd => optOne .rightParen
  | .arguments => opt .leftAngle argumentList
  | .argument => argumentList
  | .moreArguments => listTail argumentList
  | .bindingColon _ => binding
  | .bindingName _ => optOne .identifier
  | .itemEnd => itemClose

/-- The phrase that parts in a row stand for. -/
def partsPhrase (parts : List Part) : Phrase := all (parts.map Part.phrase)

theorem partsPhrase_nil_iff {ks rest : List TokenKind} : partsPhrase [] ks rest ↔ ks = rest :=
  Iff.rfl

theorem partsPhrase_cons_iff {part : Part} {parts : List Part} {ks rest : List TokenKind} :
    partsPhrase (part :: parts) ks rest
      ↔ ∃ mid, part.phrase ks mid ∧ partsPhrase parts mid rest := Iff.rfl

theorem partsPhrase_singleton_iff {part : Part} {ks rest : List TokenKind} :
    partsPhrase [part] ks rest ↔ part.phrase ks rest := by
  simp [partsPhrase_cons_iff, partsPhrase_nil_iff]

/-! ## Parts that are skipped -/

theorem moveAt_optional_eq_skip {w : Word} {k : TokenKind} {paint : Paint} {parts : List Part} :
    (w.optional k paint parts).unpainted = .skip ↔ w.kind ≠ k := by
  rw [unpainted_optional]
  split <;> simp_all

theorem moveAt_required_ne_skip {w : Word} {k : TokenKind} {paint : Paint} {parts : List Part}
    {c : Complaint} : (w.required k paint parts c).unpainted ≠ .skip := by
  rw [unpainted_required]
  split <;> simp

/-- What kinds a part can be skipped at, apart from those parts that are optional or required. -/
theorem not_beginsTerm_of_skip {negated : Bool} {k : TokenKind}
    (h : (Part.moreTerms negated).moveAt k = .skip) : beginsTerm k = false := by
  cases k <;> first | rfl | exact absurd h (by nofun)

theorem not_isMark_of_skip {k : TokenKind} (h : Part.repetition.moveAt k = .skip) :
    isMark k = false := by
  cases k <;> first | rfl | exact absurd h (by nofun)

theorem beginsItem_of_skip {k : TokenKind} (h : Part.itemEnd.moveAt k = .skip) :
    beginsItem k = true := by
  cases k <;> first | rfl | exact absurd h (by nofun)

theorem ne_rightAngle_of_skip {k : TokenKind} {part : Part}
    (hpart : part = .moreParameters ∨ part = .moreArguments) (h : part.moveAt k = .skip) :
    k ≠ .rightAngle := by
  rintro rfl
  rcases hpart with rfl | rfl <;> nomatch h

theorem marks_self {ks : List TokenKind} (h : isMark (headKind ks) = false) : marks ks ks := by
  cases ks with
  | nil => rfl
  | cons k ks => exact (List.dropWhile_cons_of_neg (by simpa [headKind_cons] using h)).symm

theorem of_mem_head? {ks : List TokenKind} {k : TokenKind} (h : k ∈ ks.head?) :
    headKind ks = k := by
  rw [headKind, List.headD_eq_head?_getD, Option.mem_def.1 h, Option.getD_some]

/-- A part that is skipped stands for a phrase that may be missing. -/
theorem phrase_of_skip {part : Part} {ks : List TokenKind}
    (h : part.moveAt (headKind ks) = .skip) : part.phrase ks ks := by
  cases part with
  | pathLead | sectionBody | parameters | resultColon | groupEnd | arguments | bindingColon
  | bindingName =>
    exact .absent (head?_ne_of_headKind (moveAt_optional_eq_skip.1 h))
  | pathMore => exact .done (head?_ne_of_headKind (moveAt_optional_eq_skip.1 h))
  | moreAlternatives =>
    exact .lastAlternative (head?_ne_of_headKind (moveAt_optional_eq_skip.1 h))
  | pathName | aliasName | sectionName | resultType | equalsSign =>
    exact absurd h moveAt_required_ne_skip
  | parameter | parameterColon | parameterType | argument | term | group =>
    exfalso
    generalize headKind ks = k at h
    cases k <;> nomatch h
  | moreParameters =>
    have hne := head?_ne_of_headKind (ne_rightAngle_of_skip (.inl rfl) h)
    exact any_cons_iff.2 (.inr (any_cons_iff.2 (.inl (.absent hne))))
  | moreArguments =>
    have hne := head?_ne_of_headKind (ne_rightAngle_of_skip (.inr rfl) h)
    exact any_cons_iff.2 (.inr (any_cons_iff.2 (.inl (.absent hne))))
  | repetition => exact marks_self (not_isMark_of_skip h)
  | moreTerms =>
    exact .lastTerm fun k hk => of_mem_head? hk ▸ not_beginsTerm_of_skip h
  | itemEnd =>
    refine any_cons_iff.2 (.inr (any_cons_iff.2 (.inl ⟨rfl, fun k hk => ?_⟩)))
    exact of_mem_head? hk ▸ beginsItem_of_skip h

/-! ## Parts that take a word -/

theorem moveAt_optional_eq_take {w : Word} {k : TokenKind} {paint : Paint}
    {parts taken : List Part} :
    (w.optional k paint parts).unpainted = .take .keep taken ↔ w.kind = k ∧ parts = taken := by
  rw [unpainted_optional]
  split <;> simp_all

theorem moveAt_required_eq_take {w : Word} {k : TokenKind} {paint : Paint}
    {parts taken : List Part} {c : Complaint} :
    (w.required k paint parts c).unpainted = .take .keep taken ↔ w.kind = k ∧ parts = taken := by
  rw [unpainted_required]
  split <;> simp_all

/-- A word that is taken for the first of a term begins one, and the parts that come behind the
term are still there when it is over. -/
theorem term_of_asTerm {negated : Bool} {k : TokenKind} {parts taken : List Part}
    {ks rest : List TokenKind}
    (h : (Word.asTerm ⟨k, none⟩ .endOfFile negated parts).unpainted = .take .keep taken)
    (hrest : partsPhrase taken ks rest) :
    ∃ mid, ExpressionPhrase .term (k :: ks) mid ∧ partsPhrase parts mid rest := by
  cases k <;> cases h
  case leftParen =>
    obtain ⟨mid, hgroup, hparts⟩ := hrest
    rcases any_cons_iff.1 hgroup with rfl | hgroup
    · exact ⟨mid, .emptyGroup, hparts⟩
    · obtain ⟨mid', hexpression, mid'', hclose, rfl⟩ :=
        (any_cons_iff.1 hgroup).resolve_right not_any_nil
      exact ⟨mid'', .group hexpression hclose, hparts⟩
  case identifier =>
    obtain ⟨mid, hargs, mid', hbinding, hparts⟩ := hrest
    exact ⟨mid', .reference hargs hbinding, hparts⟩
  case characterClass =>
    obtain ⟨mid, hbinding, hparts⟩ := hrest
    exact ⟨mid, .characterClass hbinding, hparts⟩
  case ampersand =>
    obtain ⟨mid, hterm, hparts⟩ := hrest
    exact ⟨mid, .ampersand hterm, hparts⟩
  case bang =>
    obtain ⟨mid, hterm, hparts⟩ := hrest
    exact ⟨mid, .bang hterm, hparts⟩
  case keywordEof => exact ⟨ks, .keywordEof, hrest⟩
  case string => exact ⟨ks, .string, hrest⟩
  case snippetStart => exact ⟨ks, .snippet, hrest⟩

/-- A term and the parts that come behind the first term of an expression make an expression. -/
theorem expression_of_term {negated : Bool} {parts : List Part} {ks mid rest : List TokenKind}
    (hterm : ExpressionPhrase .term ks mid)
    (hmore : partsPhrase
      (.repetition :: .moreTerms negated :: .moreAlternatives negated :: parts) mid rest) :
    ∃ mid', ExpressionPhrase .expression ks mid' ∧ partsPhrase parts mid' rest := by
  obtain ⟨a, hmarks, b, hterms, c, halternatives, hparts⟩ := hmore
  exact ⟨c, .expression (.sequence hterm hmarks hterms) halternatives, hparts⟩

/-! ### Lists between angle brackets -/

theorem listed_of_listTail {slot last : Phrase} {ks mid rest : List TokenKind}
    (hslot : slot ks mid) (hlast : ∀ {rest}, optOne .rightAngle mid rest → last ks rest)
    (htail : listTail (listed slot last) mid rest) : listed slot last ks rest := by
  rcases any_cons_iff.1 htail with ⟨_, rfl, mid', hlist, rfl⟩ | hclose
  · exact .slot hslot hlist
  · exact .last (hlast ((any_cons_iff.1 hclose).resolve_right not_any_nil))

theorem truthValue_cons {k : TokenKind} (h : k = .keywordTrue ∨ k = .keywordFalse)
    (ks : List TokenKind) : truthValue (k :: ks) ks := by
  rcases h with rfl | rfl
  · exact any_cons_iff.2 (.inl rfl)
  · exact any_cons_iff.2 (.inr (any_cons_iff.2 (.inl rfl)))

theorem parameterList_of_truthValue {k : TokenKind}
    (h : k = .keywordTrue ∨ k = .keywordFalse) {ks rest : List TokenKind}
    (htail : listTail parameterList ks rest) : parameterList (k :: ks) rest := by
  have hvalue := truthValue_cons h ks
  refine listed_of_listTail ?_ (fun hclose => ?_) htail
  · simp only [parameterSlot, any_cons_iff]
    exact .inr (.inl hvalue)
  · simp only [parameterLast, any_cons_iff]
    exact .inr (.inl ⟨ks, hvalue, _, hclose, rfl⟩)

theorem parameterList_of_identifier {ks rest : List TokenKind}
    (h : all [optOne .colon, parameterTail] ks rest) : parameterList (.identifier :: ks) rest := by
  obtain ⟨mid, hcolon, _, htail, rfl⟩ := h
  simp only [parameterTail, any_cons_iff] at htail
  rcases htail with ⟨a, hname, b, rfl, c, hlist, rfl⟩ | rfl | hlast | hnone
  · refine .slot ?_ hlist
    simp only [parameterSlot, any_cons_iff]
    exact .inr (.inr (.inl ⟨ks, rfl, mid, hcolon, _, hname, rfl⟩))
  · refine .last ?_
    simp only [parameterLast, any_cons_iff]
    exact .inr (.inr (.inl ⟨ks, rfl, _, hcolon, _, rfl, rfl⟩))
  · refine .last ?_
    simp only [parameterLast, any_cons_iff]
    exact .inr (.inr (.inr (.inl ⟨ks, rfl, mid, hcolon, hlast⟩)))
  · exact absurd hnone not_any_nil

theorem parameterTail_of_take {k : TokenKind} {taken : List Part} {ks rest : List TokenKind}
    (h : (Word.asParameterType ⟨k, none⟩).unpainted = .take .keep taken)
    (hrest : partsPhrase taken ks rest) : parameterTail (k :: ks) rest := by
  simp only [parameterTail, any_cons_iff]
  cases k <;> cases h
  case identifier =>
    obtain ⟨_, htail, rfl⟩ := hrest
    rcases any_cons_iff.1 htail with hlist | hclose
    · exact .inl ⟨ks, .present rfl, hlist⟩
    · exact .inr (.inr (.inl
        ⟨ks, rfl, _, (any_cons_iff.1 hclose).resolve_right not_any_nil, rfl⟩))
  case comma => exact .inl ⟨_, .absent (by simp), ks, rfl, hrest⟩
  case rightAngle => exact .inr (.inl (congrArg _ hrest))

theorem argumentList_of_truthValue {k : TokenKind}
    (h : k = .keywordTrue ∨ k = .keywordFalse) {ks rest : List TokenKind}
    (htail : listTail argumentList ks rest) : argumentList (k :: ks) rest := by
  have hvalue := truthValue_cons h ks
  refine listed_of_listTail ?_ (fun hclose => ?_) htail
  · simp only [argumentSlot, any_cons_iff]
    exact .inr (.inl hvalue)
  · simp only [argumentLast, any_cons_iff]
    exact .inr (.inl ⟨ks, hvalue, _, hclose, rfl⟩)

theorem argumentList_of_identifier {ks rest : List TokenKind}
    (htail : listTail argumentList ks rest) : argumentList (.identifier :: ks) rest := by
  refine listed_of_listTail ?_ (fun hclose => ?_) htail
  · simp only [argumentSlot, any_cons_iff]
    exact .inr (.inr (.inl rfl))
  · simp only [argumentLast, any_cons_iff]
    exact .inr (.inr (.inl ⟨ks, rfl, _, hclose, rfl⟩))

theorem parameterList_of_take {k : TokenKind} {taken : List Part} {ks rest : List TokenKind}
    (h : Part.parameter.moveAt k = .take .keep taken) (hrest : partsPhrase taken ks rest) :
    parameterList (k :: ks) rest := by
  cases k <;> cases h
  case keywordTrue =>
    exact parameterList_of_truthValue (.inl rfl) (partsPhrase_singleton_iff.1 hrest)
  case keywordFalse =>
    exact parameterList_of_truthValue (.inr rfl) (partsPhrase_singleton_iff.1 hrest)
  case identifier => exact parameterList_of_identifier (partsPhrase_singleton_iff.1 hrest)
  case comma => exact .slot (any_cons_iff.2 (.inl rfl)) (partsPhrase_singleton_iff.1 hrest)
  case rightAngle => exact .last (any_cons_iff.2 (.inl (congrArg _ hrest)))

theorem argumentList_of_take {k : TokenKind} {taken : List Part} {ks rest : List TokenKind}
    (h : Part.argument.moveAt k = .take .keep taken) (hrest : partsPhrase taken ks rest) :
    argumentList (k :: ks) rest := by
  cases k <;> cases h
  case keywordTrue =>
    exact argumentList_of_truthValue (.inl rfl) (partsPhrase_singleton_iff.1 hrest)
  case keywordFalse =>
    exact argumentList_of_truthValue (.inr rfl) (partsPhrase_singleton_iff.1 hrest)
  case identifier => exact argumentList_of_identifier (partsPhrase_singleton_iff.1 hrest)
  case comma => exact .slot (any_cons_iff.2 (.inl rfl)) (partsPhrase_singleton_iff.1 hrest)
  case rightAngle => exact .last (any_cons_iff.2 (.inl (congrArg _ hrest)))

theorem listTail_of_take (next : Part) {k : TokenKind} {taken : List Part}
    {ks rest : List TokenKind}
    (h : (Word.afterEntry ⟨k, none⟩ next).unpainted = .take .keep taken)
    (hrest : partsPhrase taken ks rest) : listTail next.phrase (k :: ks) rest := by
  cases k <;> cases h
  case comma => exact any_cons_iff.2 (.inl ⟨ks, rfl, hrest⟩)
  case rightAngle => exact any_cons_iff.2 (.inr (any_cons_iff.2 (.inl (.present hrest))))

/-! ### All parts -/

/-- A part that takes a word stands for a phrase that begins with it. -/
theorem phrase_of_take {part : Part} {taken : List Part} {k : TokenKind}
    {ks rest : List TokenKind} (h : part.moveAt k = .take .keep taken)
    (hrest : partsPhrase taken ks rest) : part.phrase (k :: ks) rest := by
  cases part with
  | pathLead | sectionBody | groupEnd | bindingName =>
    obtain ⟨rfl, rfl⟩ := moveAt_optional_eq_take.1 h
    exact .present hrest
  | parameters | resultColon | arguments | bindingColon =>
    obtain ⟨rfl, rfl⟩ := moveAt_optional_eq_take.1 h
    exact .present (partsPhrase_singleton_iff.1 hrest)
  | pathMore =>
    obtain ⟨rfl, rfl⟩ := moveAt_optional_eq_take.1 h
    obtain ⟨mid, hname, hmore⟩ := hrest
    exact .more hname (partsPhrase_singleton_iff.1 hmore)
  | moreAlternatives negated =>
    obtain ⟨rfl, rfl⟩ := moveAt_optional_eq_take.1 h
    obtain ⟨a, hterm, b, hmarks, c, hterms, hmore⟩ := hrest
    exact .anotherAlternative (.sequence hterm hmarks hterms) (partsPhrase_singleton_iff.1 hmore)
  | pathName | aliasName | sectionName | resultType | equalsSign =>
    obtain ⟨rfl, rfl⟩ := moveAt_required_eq_take.1 h
    exact congrArg _ hrest
  | parameter => exact parameterList_of_take h hrest
  | parameterColon =>
    simp only [Part.moveAt, Part.move] at h
    split at h
    · rename_i hk
      cases h
      exact ⟨ks, hk ▸ .present rfl, hrest⟩
    · rename_i hk
      exact ⟨k :: ks, .absent (by simpa using hk), _, parameterTail_of_take h hrest, rfl⟩
  | parameterType => exact parameterTail_of_take h hrest
  | argument => exact argumentList_of_take h hrest
  | term =>
    obtain ⟨mid, hterm, rfl⟩ := term_of_asTerm h hrest
    exact hterm
  | group =>
    simp only [Part.moveAt, Part.move] at h
    split at h
    · rename_i hk
      cases h
      exact any_cons_iff.2 (.inl (by rw [one, hk, hrest]))
    · obtain ⟨mid, hterm, hmore⟩ := term_of_asTerm h hrest
      obtain ⟨mid', hexpression, hclose⟩ := expression_of_term hterm hmore
      refine any_cons_iff.2 (.inr (any_cons_iff.2 (.inl ⟨mid', hexpression, hclose⟩)))
  | moreParameters => exact listTail_of_take .parameter h hrest
  | moreArguments => exact listTail_of_take .argument h hrest
  | repetition =>
    simp only [Part.moveAt, Part.move] at h
    split at h
    · rename_i hk
      cases h
      rw [Part.phrase, marks, List.dropWhile_cons_of_pos (mem_repeatMark_iff.1 hk)]
      exact partsPhrase_singleton_iff.1 hrest
    · cases h
  | moreTerms =>
    simp only [Part.moveAt, Part.move] at h
    split at h
    · cases h
    · obtain ⟨mid, hterm, a, hmarks, hterms⟩ := term_of_asTerm h hrest
      exact .anotherTerm hterm hmarks (partsPhrase_singleton_iff.1 hterms)
  | itemEnd =>
    simp only [Part.moveAt, Part.move] at h
    split at h
    · cases h
    · obtain ⟨rfl, rfl⟩ := moveAt_required_eq_take.1 h
      exact any_cons_iff.2 (.inl (congrArg _ hrest))

/-! ## Parts in a row -/

/-- **What is read is what the parts stand for.** -/
theorem phrase_of_reads {parts : List Part} {ks rest : List TokenKind}
    (h : Reads parts ks rest) : partsPhrase parts ks rest := by
  induction h with
  | nil => rfl
  | skip h _ ih => exact ⟨_, phrase_of_skip h, ih⟩
  | take h _ _ ihmid ih => exact ⟨_, phrase_of_take h ihmid, ih⟩

theorem item_of_reads {k : TokenKind} {parts : List Part} {ks rest : List TokenKind}
    (hk : itemParts? k = some parts) (h : Reads parts ks rest) : item (k :: ks) rest := by
  have hparts := phrase_of_reads h
  simp only [item, any_cons_iff]
  cases k <;> cases hk
  case keywordTypedef => exact .inl ⟨ks, rfl, hparts⟩
  case keywordNamespace => exact .inr (.inl ⟨ks, rfl, hparts⟩)
  case keywordCode => exact .inr (.inr (.inl ⟨ks, rfl, hparts⟩))
  case identifier =>
    obtain ⟨a, hparameters, b, hresult, c, hequals, d, hterm, hmore⟩ := hparts
    obtain ⟨e, hexpression, hclose⟩ := expression_of_term hterm hmore
    exact .inr (.inr (.inr (.inl
      ⟨ks, rfl, a, hparameters, b, hresult, c, hequals, e, hexpression, hclose⟩)))

end GrammarPaint
