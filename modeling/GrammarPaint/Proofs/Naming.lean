import GrammarPaint.Proofs.ItemTree
import GrammarPaint.Proofs.Repainting
import GrammarPaint.Proofs.Restyling
import GrammarPaint.Proofs.Separators

/-!
# No name is lost

A reading that has met trouble skips words until it finds an item, but it does not skip names: a
name begins a rule.  So however malformed a file is, every name before its end is given a role
(`settlesNames`).  The one name that is not is that of a code block, unless it reads as a keyword.

The reason is in what parts do with a name.  All but one of them paint it, if they take it, in a
style that depends on the part alone (`names_move`).  The one that does not is the name of a code
block, and **that is expected directly behind `code` and nowhere else** (`Reading.Behind`), because
`code` begins an item wherever it stands.
-/

set_option autoImplicit false
namespace GrammarPaint

/-! ## Where the name of a code block is expected -/

/-- Whether a reading does not expect the name of a code block. -/
def Reading.NoSection : Reading → Prop
  | expecting parts => Part.sectionName ∉ parts
  | skipping => True

/-- Whether a reading expects the name of a code block next, if at all. -/
def Reading.SectionFirst : Reading → Prop
  | expecting parts => Part.sectionName ∉ parts.tail
  | skipping => True

theorem Reading.NoSection.sectionFirst {r : Reading} (h : r.NoSection) : r.SectionFirst := by
  cases r with
  | expecting parts => exact fun hmem => h (List.mem_of_mem_tail hmem)
  | skipping => trivial

theorem sectionFirst_resume (w : Word) : (resume w).2.SectionFirst := by
  obtain ⟨k, name⟩ := w
  cases k with
  | identifier | keywordTypedef | keywordNamespace | keywordCode | semicolon =>
    exact show Part.sectionName ∉ List.tail _ by decide
  | _ => trivial

section NoSection

variable {w : Word} (hw : w.kind ≠ .keywordCode)
include hw

theorem noSection_item? {begun : Paint × List Part} (h : w.item? = some begun) :
    Part.sectionName ∉ begun.2 := by
  unfold Word.item? at h
  split at h <;> cases h <;> first | contradiction | decide

theorem noSection_resume : (resume w).2.NoSection := by
  rw [resume]
  split
  · exact noSection_item? hw ‹_›
  · split
    · exact List.not_mem_nil
    · trivial

/-- It takes a `code` to expect the name of a code block. -/
theorem noSection_step {r : Reading} (h : r.SectionFirst) (following : TokenKind) :
    (r.step w following).2.NoSection := by
  cases r with
  | skipping => exact noSection_resume hw
  | expecting parts =>
    rw [Reading.step]
    split
    · rename_i paint settled hsettle
      rcases settle_ok_cases hsettle with
        ⟨-, hitem⟩ | ⟨skipped, part, rest, taken, rfl, -, hmove, hrest⟩
      · exact noSection_item? hw hitem
      · have hframe := keepsFrame_move part w following
        rw [hmove] at hframe
        have htail : Part.sectionName ∉ (skipped ++ part :: rest).tail := h
        obtain rfl : settled = taken ++ rest := hrest
        intro hmem
        rcases List.mem_append.1 hmem with htaken | hbehind
        · exact absurd (hframe _ htaken).symm Bool.false_ne_true
        · cases skipped <;> simp_all
    · exact noSection_resume hw

end NoSection

/-- What a reading is like behind the word `last`, or at its beginning: behind a keyword it expects
the rest of the item, and it takes a `code` to expect the name of a code block. -/
structure Reading.Behind (last : Option Word) (r : Reading) : Prop where
  keyword : ∀ v ∈ last, v.kind.isItemKeyword = true → r = (resume v).2
  noSection : (∀ v ∈ last, v.kind ≠ .keywordCode) → r.NoSection

theorem Reading.Behind.sectionFirst {last : Option Word} {r : Reading} (h : r.Behind last) :
    r.SectionFirst := by
  by_cases hcode : ∃ v ∈ last, v.kind = .keywordCode
  · obtain ⟨v, hv, hkind⟩ := hcode
    rw [h.keyword v hv (by rw [hkind]; rfl)]
    exact sectionFirst_resume v
  · exact (h.noSection fun v hv hkind => hcode ⟨v, hv, hkind⟩).sectionFirst

/-- **Wherever a reading stands, a word leaves it behind that word.** -/
theorem Reading.Behind.step {last : Option Word} {r : Reading} (h : r.Behind last) (w : Word)
    (following : TokenKind) : (r.step w following).2.Behind (some w) where
  keyword := by
    intro v hv hkey
    obtain rfl : w = v := Option.some.inj hv
    rw [step_itemKeyword hkey]
  noSection := fun hcode => noSection_step (hcode w rfl) h.sectionFirst following

theorem behind_start : Reading.start.Behind none := ⟨nofun, fun _ => List.not_mem_nil⟩

/-! ## What becomes of a name -/

/-- The styles that show what a name is for. -/
def nameStyles : List Style :=
  [.ruleName, .typeName, .codeIdentifier, .templateVariable, .resultVariable, .identifier]

/-- Paint that shows what a name is for. -/
def Paint.Names (p : Paint) : Prop := ∃ style ∈ nameStyles, p = .as style

/-- A move that takes a word as a name that is for something, if it takes it. -/
def Move.Names : Move → Prop
  | .take paint _ => paint.Names
  | _ => True

section Name

variable {w : Word} (hw : w.kind = .identifier)
include hw

/-- **Every part but one paints the names that it takes.** -/
theorem names_move {part : Part} (h : part ≠ .sectionName) (following : TokenKind) :
    (part.move w following).Names := by
  obtain ⟨k, name⟩ := w
  obtain rfl : k = .identifier := hw
  cases part with
  | pathName | aliasName | parameter | parameterColon | parameterType | resultType | term
  | argument => exact ⟨_, by decide, rfl⟩
  | moreTerms =>
    rw [Part.move, if_neg (show TokenKind.identifier ∉ sequenceEnd by decide)]
    exact ⟨_, by decide, rfl⟩
  | group => exact ⟨_, by decide, rfl⟩
  | bindingName negated =>
    refine ⟨_, ?_, rfl⟩
    cases negated <;> decide
  | repetition =>
    rw [Part.move, if_neg (show TokenKind.identifier ∉ repeatMark by decide)]
    trivial
  | itemEnd =>
    rw [Part.move, if_pos (show TokenKind.identifier ∈ itemStart by decide)]
    trivial
  | sectionName => exact absurd rfl h
  | _ => trivial

theorem names_resume : (resume w).1.Names := by
  rw [resume, Word.item?, hw]
  exact ⟨.ruleName, by decide, rfl⟩

/-- **A name is painted**, unless the name of a code block is expected. -/
theorem names_step {r : Reading} (h : r.NoSection) (following : TokenKind) :
    (r.step w following).1.paint.Names := by
  cases r with
  | skipping => exact names_resume hw
  | expecting parts =>
    rw [Reading.step]
    split
    · rename_i paint settled hsettle
      rcases settle_ok_cases hsettle with
        ⟨-, hitem⟩ | ⟨skipped, part, rest, taken, rfl, -, hmove, -⟩
      · rw [Word.item?, hw] at hitem
        cases hitem
        exact ⟨.ruleName, by decide, rfl⟩
      · have hpart : part ≠ .sectionName := by
          rintro rfl
          exact h (by simp)
        have hnames := names_move hw hpart following
        rwa [hmove] at hnames
    · exact names_resume hw

/-- Behind `code`, a name is a keyword or left alone. -/
theorem paint_step_code {v : Word} (hv : v.kind = .keywordCode) (following : TokenKind) :
    ((resume v).2.step w following).1.paint
      = if w.name.any ItemTree.keywordSections.contains then .as .keyword else .keep := by
  rw [← ItemTree.codeSections_eq]
  obtain ⟨k, name⟩ := w
  obtain ⟨k', name'⟩ := v
  obtain rfl : k = .identifier := hw
  obtain rfl : k' = .keywordCode := hv
  rfl

/-- Behind `typedef` and `namespace`, a name begins a qualified name. -/
theorem paint_step_path {v : Word} (hv : v.kind = .keywordTypedef ∨ v.kind = .keywordNamespace)
    (following : TokenKind) :
    ((resume v).2.step w following).1.paint = .as .codeIdentifier := by
  obtain ⟨k, name⟩ := w
  obtain ⟨k', name'⟩ := v
  obtain rfl : k = .identifier := hw
  obtain rfl | rfl : k' = .keywordTypedef ∨ k' = .keywordNamespace := hv <;> rfl

end Name

/-! ## Names among tokens -/

/-- Whether the token at `i` is `t`, and a name before the end of the file. -/
structure NameAt (tokens : List Token) (i : Nat) (t : Token) : Prop where
  getElem? : tokens[i]? = some t
  kind : t.kind = .identifier
  not_isEnd : ∀ u ∈ tokens.take i, u.isEnd = false

/-- The last token before position `i` that is not trivial. -/
def lastBefore? (tokens : List Token) (i : Nat) : Option Token :=
  (substance (tokens.take i)).getLast?

/-- Whether a name is that of a code block that reads as a keyword. -/
def Token.namesSection (t : Token) : Bool := t.name.any ItemTree.keywordSections.contains

variable {tokens : List Token} {i : Nat} {t : Token}

/-- What paint falls on a name is up to a reading behind the token before it. -/
theorem NameAt.exists_step (h : NameAt tokens i t) : ∃ (r : Reading) (following : TokenKind),
    r.Behind ((lastBefore? tokens i).map Token.word) ∧
      paintAt tokens i = (r.step t.word following).1.paint := by
  obtain ⟨back, hsplit, hlen⟩ := exists_eq_append_of_getElem? h.getElem?
  have hend : t.isEnd = false := by rw [Token.isEnd, h.kind]; rfl
  have htrivia : t.kind.isTrivia = false := by rw [h.kind]; rfl
  have hback : visible (t :: back) = t :: visible back := by
    rw [visible_eq_takeWhile, substance_cons htrivia, List.takeWhile_cons_of_pos (by simp [hend]),
      visible_eq_takeWhile]
  have hvisible : (visible tokens).map Token.word
      = (substance (tokens.take i)).map Token.word ++ t.word :: (visible back).map Token.word := by
    rw [← List.map_cons, ← hback, ← List.map_append, ← visible_append h.not_isEnd, ← hsplit]
  obtain ⟨r, hr, hverdict⟩ := exists_step_of_read (P := fun last r => r.Behind last)
    (fun _ _ w following hr => hr.step w following) behind_start
    ((substance (tokens.take i)).map Token.word) t.word ((visible back).map Token.word)
  refine ⟨r, firstKind ((visible back).map Token.word), ?_, ?_⟩
  · rwa [List.getLast?_map, Option.or_none] at hr
  · rw [← hvisible, List.length_map] at hverdict
    rw [paintAt, kindAt, h.getElem?, readItems, List.getElem?_map, hverdict]
    simp [htrivia]

theorem NameAt.getElem?_assignRoles (h : NameAt tokens i t) :
    (assignRoles tokens)[i]? = some ((paintAt tokens i).apply t) := by
  rw [GrammarPaint.getElem?_assignRoles, h.getElem?, Option.map_some]

section Behind

variable (h : NameAt tokens i t)
include h

/-- Behind `code`, a name is a keyword or left alone. -/
theorem paintAt_of_code (hcode : ∃ u ∈ lastBefore? tokens i, u.kind = .keywordCode) :
    paintAt tokens i = if t.namesSection then .as .keyword else .keep := by
  obtain ⟨r, following, hr, hpaint⟩ := h.exists_step
  obtain ⟨u, hu, hkind⟩ := hcode
  have hword : u.word ∈ (lastBefore? tokens i).map Token.word := Option.mem_map_of_mem _ hu
  rw [hpaint, hr.keyword u.word hword (by rw [Token.word, hkind]; rfl)]
  exact paint_step_code (w := t.word) h.kind hkind following

/-- Behind `typedef` and `namespace`, a name begins a qualified name. -/
theorem paintAt_of_path
    (hpath : ∃ u ∈ lastBefore? tokens i, u.kind = .keywordTypedef ∨ u.kind = .keywordNamespace) :
    paintAt tokens i = .as .codeIdentifier := by
  obtain ⟨r, following, hr, hpaint⟩ := h.exists_step
  obtain ⟨u, hu, hkind⟩ := hpath
  have hword : u.word ∈ (lastBefore? tokens i).map Token.word := Option.mem_map_of_mem _ hu
  have hkey : u.word.kind.isItemKeyword = true := by
    rcases hkind with hkind | hkind <;> rw [Token.word, hkind] <;> rfl
  rw [hpaint, hr.keyword u.word hword hkey]
  exact paint_step_path (w := t.word) h.kind hkind following

/-- **Anywhere else, a name shows what it is for.** -/
theorem names_paintAt (hcode : ∀ u ∈ lastBefore? tokens i, u.kind ≠ .keywordCode) :
    (paintAt tokens i).Names := by
  obtain ⟨r, following, hr, hpaint⟩ := h.exists_step
  rw [hpaint]
  refine names_step h.kind (hr.noSection fun v hv => ?_) following
  obtain ⟨u, hu, rfl⟩ := Option.map_eq_some_iff.1 hv
  exact hcode u hu

end Behind

/-- No paint falls on what is behind the end of the file. -/
theorem paintAt_of_isEnd (h : ∃ u ∈ tokens.take i, u.isEnd = true) : paintAt tokens i = .keep := by
  obtain ⟨u, hu, hend⟩ := h
  obtain ⟨j, hj⟩ := List.mem_iff_getElem?.1 hu
  have hlt : j < (tokens.take i).length := (List.getElem?_eq_some_iff.1 hj).1
  have hle : (tokens.takeWhile fun t => !t.isEnd).length ≤ j := by
    refine length_takeWhile_le_of_isEnd (t := u) ?_ hend
    rwa [List.getElem?_take_of_lt (by rw [List.length_take] at hlt; omega)] at hj
  have hvisible : (tokens.takeWhile fun t => !t.isEnd) <+: tokens.take i :=
    List.prefix_of_prefix_length_le (List.takeWhile_prefix _) (List.take_prefix i tokens)
      (by omega)
  have hlen : ((readItems tokens).1.map Verdict.paint).length
      ≤ (substance (tokens.take i)).length := by
    rw [List.length_map, length_readItems]
    exact (hvisible.sublist.filter _).length_le
  rw [paintAt, List.getElem?_eq_none hlen]
  split <;> rfl

/-- What becomes of the names before the end of the file. -/
structure SettlesNames (tokens : List Token) : Prop where
  /-- A name is given a style for a name, and its own style does not matter, unless it is that of a
  code block that does not read as a keyword. -/
  classified : ∀ i t, NameAt tokens i t →
    ((∃ u ∈ lastBefore? tokens i, u.kind = .keywordCode) → t.namesSection = true) →
    ∃ style ∈ TokenKind.identifier.roles, ∀ others, SameButStyles tokens others →
      (assignRoles others)[i]? = some (t.restyle style)
  /-- That one is left alone. -/
  kept : ∀ i t, NameAt tokens i t → (∃ u ∈ lastBefore? tokens i, u.kind = .keywordCode) →
    t.namesSection = false → (assignRoles tokens)[i]? = some t
  /-- The others behind `code` become keywords. -/
  sections : ∀ i t, NameAt tokens i t → (∃ u ∈ lastBefore? tokens i, u.kind = .keywordCode) →
    t.namesSection = true → (assignRoles tokens)[i]? = some (t.restyle (some .keyword))
  /-- No name anywhere else becomes one. -/
  keyword : ∀ i t, NameAt tokens i t → (∀ u ∈ lastBefore? tokens i, u.kind ≠ .keywordCode) →
    ∀ u ∈ (assignRoles tokens)[i]?, u.style ≠ some .keyword
  /-- Names behind `typedef` and `namespace` become names of code. -/
  paths : ∀ i t, NameAt tokens i t →
    (∃ u ∈ lastBefore? tokens i, u.kind = .keywordTypedef ∨ u.kind = .keywordNamespace) →
    (assignRoles tokens)[i]? = some (t.restyle (some .codeIdentifier))
  /-- From the end of the file on, no name becomes anything. -/
  ended : ∀ (i : Nat) (t : Token), tokens[i]? = some t → (∃ u ∈ tokens.take i, u.isEnd = true) →
    (assignRoles tokens)[i]? = some t

/-- **No name is lost**, however malformed the file is. -/
theorem settlesNames (tokens : List Token) : SettlesNames tokens where
  classified := fun i t h hsection => by
    obtain ⟨style, hstyle, hpaint⟩ :
        ∃ style, some style ∈ TokenKind.identifier.roles ∧ paintAt tokens i = .as style := by
      by_cases hcode : ∃ u ∈ lastBefore? tokens i, u.kind = .keywordCode
      · exact ⟨.keyword, by decide, by rw [paintAt_of_code h hcode, if_pos (hsection hcode)]⟩
      · obtain ⟨style, hmem, hpaint⟩ :=
          names_paintAt h fun u hu hkind => hcode ⟨u, hu, hkind⟩
        have hall : ∀ style ∈ nameStyles, some style ∈ TokenKind.identifier.roles := by decide
        exact ⟨style, hall style hmem, hpaint⟩
    refine ⟨some style, hstyle, fun others hsame => ?_⟩
    rw [hsame.getElem?_assignRoles_of_set hpaint, h.getElem?, Option.map_some]
  kept := fun i t h hcode hsection => by
    rw [h.getElem?_assignRoles, paintAt_of_code h hcode, if_neg (by simp [hsection])]
    rfl
  sections := fun i t h hcode hsection => by
    rw [h.getElem?_assignRoles, paintAt_of_code h hcode, if_pos hsection]
    rfl
  keyword := fun i t h hcode u hu => by
    obtain ⟨style, hmem, hpaint⟩ := names_paintAt h hcode
    rw [h.getElem?_assignRoles, hpaint] at hu
    obtain rfl := Option.some.inj hu
    have hall : ∀ style ∈ nameStyles, some style ≠ some Style.keyword := by decide
    exact hall style hmem
  paths := fun i t h hpath => by
    rw [h.getElem?_assignRoles, paintAt_of_path h hpath]
    rfl
  ended := fun i t ht hend => by
    rw [getElem?_assignRoles, ht, paintAt_of_isEnd hend]
    rfl

end GrammarPaint
