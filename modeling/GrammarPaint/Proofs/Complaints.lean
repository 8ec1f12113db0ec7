import Mathlib.Data.List.Chain
import GrammarPaint.Analysis
import GrammarPaint.Proofs.ItemEnds
import GrammarPaint.Proofs.Parts

/-!
# What complaints expect

A complaint says what would have been accepted in place of the word that it is about, so that word
should not be among what it expects.  Whether it is depends on more than the part that refuses the
word, since the parts in front of it may have been looked for in vain, or may have been taken
already.  There are two such sets:

* the name of an alias expects `::` as well, and this is right: the name only ever comes behind
  more of a qualified name, which would have taken a `::` (`Reading.LeadsUp`);
* the `=` of a rule expects `:` and `<` as well, and this is right behind the name of the rule
  alone.  A rule that has its parameters or its result type refuses a second `<` or `:` and says
  that it expects one (`structuralIssues_twoLists`).

**There is no other complaint that expects what it was made about** (`found_mem_expected_iff`).
-/

set_option autoImplicit false
namespace GrammarPaint

/-! ## What parts refuse -/

/-- The complaint about a rule that does not go on with `=`. -/
def missingEquals : Complaint := ⟨.rule, {.equals, .colon, .leftAngle}⟩

/-- A complaint about a word of kind `k` that expects other words, or else is about a rule that
does not go on with `=`. -/
def Complaint.IsFair (c : Complaint) (k : TokenKind) : Prop :=
  k ∉ c.expected ∨ c = missingEquals ∧ k ≠ .equals

/-- A move whose complaint, if it makes one about a word of kind `k`, is fair. -/
def Move.IsFair (k : TokenKind) : Move → Prop
  | .refuse complaint => complaint.IsFair k
  | _ => True

variable {w : Word}

theorem isFair_optional {k : TokenKind} {paint : Paint} {parts : List Part} :
    (w.optional k paint parts).IsFair w.kind := by
  rw [Word.optional]
  split <;> trivial

theorem isFair_required {k : TokenKind} {paint : Paint} {parts : List Part}
    {complaint : Complaint} (h : w.kind ≠ k → complaint.IsFair w.kind) :
    (w.required k paint parts complaint).IsFair w.kind := by
  rw [Word.required]
  split
  · trivial
  · exact h ‹_›

/-- A required word that is the only one expected. -/
theorem isFair_required_only {k : TokenKind} {paint : Paint} {parts : List Part}
    {context : Context} : (w.required k paint parts ⟨context, {k}⟩).IsFair w.kind :=
  isFair_required fun hk => .inl (mt KindSet.mem_singleton_iff.1 hk)

theorem isFair_asTerm {following : TokenKind} {negated : Bool} {parts : List Part} :
    (w.asTerm following negated parts).IsFair w.kind := by
  unfold Word.asTerm
  split <;> first | trivial | refine .inl fun hk => ?_
  simp only [termStart, KindSet.mem_insert_iff, KindSet.mem_singleton_iff] at hk
  grind

theorem isFair_afterEntry {next : Part} : (w.afterEntry next).IsFair w.kind := by
  unfold Word.afterEntry
  split <;> trivial

theorem isFair_asEntry {entry : Move} {next more : Part} {context : Context}
    (h : entry.IsFair w.kind) :
    (w.asEntry entry next more ⟨context, listEntry⟩).IsFair w.kind := by
  unfold Word.asEntry
  split <;> first | exact h | trivial | refine .inl fun hk => ?_
  simp only [listEntry, KindSet.mem_insert_iff, KindSet.mem_singleton_iff] at hk
  grind

theorem isFair_asParameterType : w.asParameterType.IsFair w.kind := by
  unfold Word.asParameterType
  split <;> first | trivial | refine .inl fun hk => ?_
  simp only [KindSet.mem_insert_iff, KindSet.mem_singleton_iff] at hk
  grind

/-- **No part refuses a word that it expects**, except where it lists what parts in front of it
would have taken. -/
theorem isFair_move {part : Part} (h : part = .aliasName → w.kind ≠ .doubleColon)
    (following : TokenKind) : (part.move w following).IsFair w.kind := by
  cases part with
  | pathLead | pathMore | sectionBody | parameters | resultColon | moreAlternatives | groupEnd
  | arguments | bindingColon | bindingName => exact isFair_optional
  | pathName | sectionName | resultType => exact isFair_required_only
  | aliasName =>
    refine isFair_required fun hk => .inl ?_
    simp [KindSet.mem_insert_iff, KindSet.mem_singleton_iff, hk, h rfl]
  | equalsSign => exact isFair_required fun hk => .inr ⟨rfl, hk⟩
  | parameter | argument => exact isFair_asEntry trivial
  | parameterColon =>
    rw [Part.move]
    split
    · trivial
    · exact isFair_asParameterType
  | parameterType => exact isFair_asParameterType
  | moreParameters | moreArguments => exact isFair_afterEntry
  | term => exact isFair_asTerm
  | repetition =>
    rw [Part.move]
    split <;> trivial
  | moreTerms | group =>
    rw [Part.move]
    split
    · trivial
    · exact isFair_asTerm
  | itemEnd =>
    rw [Part.move]
    split
    · trivial
    · exact isFair_required_only

/-! ## What stands in front of the name of an alias -/

/-- The name of an alias comes directly behind more of a qualified name, and any other part may come
behind any part. -/
def Part.LeadsTo (a b : Part) : Prop := b = .aliasName → ∃ context, a = .pathMore context

/-- Parts that may come behind `a`, and each behind the one in front of it. -/
def LeadsUp (a : Part) (parts : List Part) : Prop := List.IsChain Part.LeadsTo (a :: parts)

theorem LeadsUp.append {a : Part} {taken parts : List Part}
    (htaken : ∀ part ∈ taken, part.isFrame = false)
    (h : LeadsUp (taken.getLast?.getD a) parts) : LeadsUp a (taken ++ parts) := by
  induction taken generalizing a with
  | nil => exact h
  | cons b taken ih =>
    rw [List.forall_mem_cons] at htaken
    rw [List.getLast?_cons, Option.getD_some] at h
    refine List.isChain_cons_cons.2 ⟨?_, ih htaken.2 h⟩
    rintro rfl
    cases htaken.1

/-- A word that is taken leaves the name of an alias behind more of a qualified name. -/
theorem LeadsUp.take {part : Part} {parts taken : List Part} {following : TokenKind}
    {paint : Paint} (h : LeadsUp part parts) (hmove : part.move w following = .take paint taken) :
    LeadsUp .itemEnd (taken ++ parts) := by
  have hframe := keepsFrame_move part w following
  rw [hmove] at hframe
  refine .append hframe ?_
  cases parts with
  | nil => exact List.isChain_singleton _
  | cons next parts =>
    obtain ⟨hlead, hparts⟩ := List.isChain_cons_cons.1 h
    refine List.isChain_cons_cons.2 ⟨fun hnext => ?_, hparts⟩
    obtain ⟨context, rfl⟩ := hlead hnext
    rw [Part.move, Word.optional] at hmove
    split at hmove
    · cases hmove
      exact ⟨context, rfl⟩
    · cases hmove

theorem leadsUp_item? {begun : Paint × List Part} (h : w.item? = some begun) :
    LeadsUp .itemEnd begun.2 := by
  unfold Word.item? at h
  split at h <;> cases h <;> simp [LeadsUp, Part.LeadsTo, path, expression]

theorem leadsUp_settle {following : TokenKind} {a : Part} {parts : List Part}
    {settled : Paint × List Part} (hparts : LeadsUp a parts)
    (h : settle w following parts = .ok settled) : LeadsUp .itemEnd settled.2 := by
  rcases settle_ok_cases h with ⟨-, hitem⟩ | ⟨skipped, part, rest, taken, rfl, -, hmove, hrest⟩
  · exact leadsUp_item? hitem
  · have hchain : List.IsChain Part.LeadsTo ((a :: skipped) ++ part :: rest) := hparts
    have htail : LeadsUp part rest := hchain.right_of_append
    exact hrest ▸ htail.take hmove

/-- A reading that expects the name of an alias behind more of a qualified name only. -/
def Reading.LeadsUp : Reading → Prop
  | expecting parts => GrammarPaint.LeadsUp .itemEnd parts
  | skipping => True

theorem leadsUp_resume (w : Word) : (resume w).2.LeadsUp := by
  rw [resume]
  split
  · exact leadsUp_item? ‹_›
  · split
    · exact List.isChain_singleton _
    · trivial

theorem leadsUp_step {r : Reading} (h : r.LeadsUp) (w : Word) (following : TokenKind) :
    (r.step w following).2.LeadsUp := by
  cases r with
  | expecting parts =>
    rw [Reading.step]
    split
    · exact leadsUp_settle h ‹_›
    · exact leadsUp_resume w
  | skipping => exact leadsUp_resume w

/-! ## What a reading complains about -/

theorem ne_doubleColon_of_skip {context : Context} {following : TokenKind}
    (h : (Part.pathMore context).move w following = .skip) : w.kind ≠ .doubleColon := by
  intro hw
  rw [Part.move, Word.optional, if_pos hw] at h
  cases h

/-- The part in front of the name of an alias has skipped a word that the name refuses. -/
theorem isFair_settle {following : TokenKind} {parts : List Part} {complaint : Complaint}
    (hparts : LeadsUp .itemEnd parts) (h : settle w following parts = .error complaint) :
    complaint.IsFair w.kind := by
  rcases settle_error_cases h with ⟨-, hitem, rfl⟩ | ⟨skipped, part, rest, rfl, hskipped, hmove⟩
  · refine .inl fun hw => ?_
    rw [Word.item?, KindSet.mem_singleton_iff.1 hw] at hitem
    cases hitem
  · have hchain : List.IsChain Part.LeadsTo ((.itemEnd :: skipped) ++ part :: rest) := hparts
    obtain ⟨-, -, hlead⟩ := List.isChain_append.1 hchain
    have hfair : (part.move w following).IsFair w.kind := by
      refine isFair_move (fun hpart => ?_) following
      obtain ⟨context, hcontext⟩ := hlead _ List.getLast?_cons part rfl hpart
      cases hlast : skipped.getLast? with
      | none => simp [hlast] at hcontext
      | some last =>
        rw [hlast, Option.getD_some] at hcontext
        exact ne_doubleColon_of_skip (hcontext ▸ hskipped last (List.mem_of_getLast? hlast))
    rwa [hmove] at hfair

theorem isFair_missing {parts : List Part} {complaint : Complaint}
    (h : missing parts = some complaint) : complaint.IsFair .endOfFile := by
  obtain ⟨part, -, hrefuse⟩ := exists_refuse_of_missing h
  have hfair : (part.move .ending .endOfFile).IsFair .endOfFile :=
    isFair_move (w := .ending) (fun _ => by decide) .endOfFile
  rwa [hrefuse] at hfair

theorem isFair_step {r : Reading} (h : r.LeadsUp) (w : Word) (following : TokenKind) :
    ∀ c ∈ (r.step w following).1.complaint, c.IsFair w.kind := by
  intro c hc
  cases r with
  | expecting parts =>
    rw [Reading.step] at hc
    split at hc
    · cases hc
    · rename_i refused hsettle
      cases hc
      exact isFair_settle h hsettle
  | skipping => cases hc

theorem isFair_of_mem {tokens : List Token} {i : StructuralIssue}
    (h : i ∈ structuralIssues tokens) : i.complaint.IsFair i.found := by
  obtain ⟨hwords, -⟩ := forall_readItems (I := Reading.LeadsUp)
    (P := fun w v => ∀ c ∈ v.complaint, c.IsFair w.kind)
    (fun r w following hr => ⟨isFair_step hr w following, leadsUp_step hr w following⟩)
    (List.isChain_singleton _) tokens
  rw [structuralIssues_eq, List.mem_append] at h
  rcases h with h | h
  · obtain ⟨⟨t, v⟩, hmem, hv⟩ := List.mem_filterMap.1 h
    obtain ⟨c, hc, rfl⟩ := Option.map_eq_some_iff.1 hv
    exact hwords (t, v) hmem c hc
  · obtain ⟨c, hc, rfl⟩ := Option.map_eq_some_iff.1 (Option.mem_toList.1 h)
    cases hlast : (readItems tokens).2 with
    | expecting parts =>
      rw [hlast] at hc
      exact isFair_missing hc
    | skipping =>
      rw [hlast] at hc
      cases hc

/-- **A complaint expects what it was made about in one case alone**: a rule does not go on with
`=`, but with a `<` or a `:`, and is said to lack one. -/
theorem found_mem_expected_iff {tokens : List Token} {i : StructuralIssue}
    (h : i ∈ structuralIssues tokens) :
    i.found ∈ i.complaint.expected
      ↔ i.complaint = missingEquals ∧ (i.found = .colon ∨ i.found = .leftAngle) := by
  have hmem (k : TokenKind) :
      k ∈ missingEquals.expected ↔ k = .equals ∨ k = .colon ∨ k = .leftAngle := by
    simp only [missingEquals, KindSet.mem_insert_iff, KindSet.mem_singleton_iff]
  constructor
  · intro hfound
    rcases isFair_of_mem h with hnot | ⟨hc, hne⟩
    · exact absurd hfound hnot
    · rw [hc, hmem] at hfound
      exact ⟨hc, hfound.resolve_left hne⟩
  · rintro ⟨hc, hfound⟩
    rw [hc, hmem]
    exact .inr hfound

/-- A rule with a list of parameters and, behind it, an empty one. -/
def twoLists : Document := .ofText "a<T><>=[b];"

/-- The second list is refused by a complaint that expects it. -/
theorem structuralIssues_twoLists :
    structuralIssues twoLists.tokens = [⟨⟨4, 5⟩, .leftAngle, missingEquals⟩] ∧
      TokenKind.leftAngle ∈ missingEquals.expected := by
  decide +kernel

theorem found_mem_expected_twoLists :
    let i : StructuralIssue := ⟨⟨4, 5⟩, .leftAngle, missingEquals⟩
    i ∈ structuralIssues twoLists.tokens ∧
      (i.found ∈ i.complaint.expected
        ↔ i.complaint = missingEquals ∧ (i.found = .colon ∨ i.found = .leftAngle)) := by
  intro i
  have hi : i ∈ structuralIssues twoLists.tokens := by decide +kernel
  exact ⟨hi, found_mem_expected_iff hi⟩

end GrammarPaint
