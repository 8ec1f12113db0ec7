import GrammarPaint.Proofs.Moving

/-!
# A semicolon ends whatever item it stands in

However malformed a file is, a semicolon leaves the reading of items where it began
(`step_semicolon`): either the end of an item takes it, or the item is given up at it or before it
and the reading goes on behind it.  That the end of an item is the last of its parts is an
invariant of the reading (`Reading.OneItem`), preserved by every step.

A reading looks one word ahead, but only from an `&`, and only for a snippet.  So where one list of
tokens stands behind another, the reading of the second goes on from where the reading of the first
stops (`readBehind`).  If the first list ends in a semicolon, this is where every reading begins, and
the two lists are read as if each were alone (`assignRoles_append_semicolon`,
`structuralIssues_append_semicolon`).
-/

set_option autoImplicit false
namespace GrammarPaint

/-! ## The word ahead -/

section WordAhead

variable {w : Word} {following following' : TokenKind}
  (h : w.kind = .ampersand → (following = .snippetStart ↔ following' = .snippetStart))
include h

theorem asTerm_following (negated : Bool) (parts : List Part) :
    w.asTerm following negated parts = w.asTerm following' negated parts := by
  obtain ⟨k, name⟩ := w
  cases k with
  | ampersand => simp only [Word.asTerm, h rfl]
  | _ => rfl

theorem move_following (part : Part) : part.move w following = part.move w following' := by
  cases part with
  | term | moreTerms | group => simp only [Part.move, asTerm_following h]
  | _ => rfl

theorem settle_following (parts : List Part) :
    settle w following parts = settle w following' parts := by
  induction parts with
  | nil => rfl
  | cons part parts ih => rw [settle, settle, ih, move_following h]

theorem step_following (r : Reading) : r.step w following = r.step w following' := by
  cases r with
  | expecting parts => rw [Reading.step, settle_following h]; rfl
  | skipping => rfl

end WordAhead

/-- **A reading goes on from where it stands**, unless an `&` looked ahead for a snippet that comes
only now. -/
theorem read_append {a b : List Word}
    (h : ∀ w ∈ a.getLast?, w.kind = .ampersand → firstKind b ≠ .snippetStart) (r : Reading) :
    r.read (a ++ b) = ((r.read a).1 ++ ((r.read a).2.read b).1, ((r.read a).2.read b).2) := by
  induction a generalizing r with
  | nil => rfl
  | cons w a ih =>
    have hstep : r.step w (firstKind (a ++ b)) = r.step w (firstKind a) := by
      cases a with
      | nil =>
        refine step_following (fun hw => iff_of_false (h w rfl hw) ?_) r
        exact show TokenKind.endOfFile ≠ .snippetStart by decide
      | cons v a => rfl
    have hlast : ∀ w ∈ a.getLast?, w.kind = .ampersand → firstKind b ≠ .snippetStart := by
      intro v hv
      refine h v ?_
      rw [List.getLast?_cons, Option.mem_def.1 hv]
      rfl
    rw [List.cons_append, Reading.read, hstep, ih hlast, Reading.read]
    rfl

/-! ## The end of an item is its last part -/

/-- Nothing is to come behind the end of an item. -/
def OneItem (parts : List Part) : Prop := Part.itemEnd ∉ parts.dropLast

theorem OneItem.of_append {front parts : List Part} (h : OneItem (front ++ parts)) :
    OneItem parts := by
  cases parts with
  | nil => exact List.not_mem_nil
  | cons part parts =>
    rw [OneItem, List.dropLast_append_of_ne_nil (List.cons_ne_nil _ _)] at h
    exact fun hmem => h (List.mem_append_right _ hmem)

theorem OneItem.append {taken parts : List Part} (htaken : Part.itemEnd ∉ taken)
    (h : OneItem parts) : OneItem (taken ++ parts) := by
  rw [OneItem]
  cases parts with
  | nil =>
    rw [List.append_nil]
    exact fun hmem => htaken ((List.dropLast_sublist _).subset hmem)
  | cons part parts =>
    rw [List.dropLast_append_of_ne_nil (List.cons_ne_nil _ _), List.mem_append]
    exact fun hmem => hmem.elim htaken h

/-- A move that puts no end of an item among what is still to come. -/
def Move.WithinItem : Move → Prop
  | .take _ taken => Part.itemEnd ∉ taken
  | _ => True

/-- The parts that an item has to come from its beginning on.  No other part puts them there. -/
def Part.isFrame : Part → Bool
  | pathLead | aliasName | sectionName | sectionBody | parameters | resultColon | equalsSign
  | itemEnd => true
  | _ => false

/-- A move that leaves the frame of the item as it is. -/
def Move.KeepsFrame : Move → Prop
  | .take _ taken => ∀ part ∈ taken, part.isFrame = false
  | _ => True

theorem keepsFrame_optional {w : Word} {k : TokenKind} {paint : Paint} {parts : List Part}
    (h : ∀ part ∈ parts, part.isFrame = false) : (w.optional k paint parts).KeepsFrame := by
  rw [Word.optional]
  split
  · exact h
  · trivial

theorem keepsFrame_required {w : Word} {k : TokenKind} {paint : Paint} {complaint : Complaint} :
    (w.required k paint [] complaint).KeepsFrame := by
  rw [Word.required]
  split
  · exact List.forall_mem_nil _
  · trivial

theorem keepsFrame_asTerm {w : Word} {following : TokenKind} {negated : Bool} {parts : List Part}
    (h : ∀ part ∈ parts, part.isFrame = false) :
    (w.asTerm following negated parts).KeepsFrame := by
  unfold Word.asTerm
  split <;> first | trivial | exact h | simpa [Move.KeepsFrame, Part.isFrame] using h

theorem keepsFrame_afterEntry {w : Word} {next : Part} (h : next.isFrame = false) :
    (w.afterEntry next).KeepsFrame := by
  unfold Word.afterEntry
  split <;> first | trivial | simp [Move.KeepsFrame, h]

theorem keepsFrame_asEntry {w : Word} {entry : Move} {next more : Part} {complaint : Complaint}
    (hentry : entry.KeepsFrame) (hnext : next.isFrame = false) (hmore : more.isFrame = false) :
    (w.asEntry entry next more complaint).KeepsFrame := by
  unfold Word.asEntry
  split <;> first | exact hentry | trivial | simp [Move.KeepsFrame, hnext, hmore]

theorem keepsFrame_asParameterType (w : Word) : w.asParameterType.KeepsFrame := by
  unfold Word.asParameterType
  split <;> first | trivial | simp [Move.KeepsFrame, Part.isFrame]

/-- **The frame of an item is there from its beginning.** -/
theorem keepsFrame_move (part : Part) (w : Word) (following : TokenKind) :
    (part.move w following).KeepsFrame := by
  cases part with
  | pathLead | pathMore | sectionBody | parameters | resultColon | moreAlternatives | groupEnd
  | arguments | bindingColon | bindingName =>
    exact keepsFrame_optional (by simp [path, expression, Part.isFrame])
  | pathName | aliasName | sectionName | resultType | equalsSign => exact keepsFrame_required
  | parameter | argument =>
    exact keepsFrame_asEntry (by simp [Move.KeepsFrame, Part.isFrame]) rfl rfl
  | parameterColon =>
    rw [Part.move]
    split
    · simp [Move.KeepsFrame, Part.isFrame]
    · exact keepsFrame_asParameterType w
  | parameterType => exact keepsFrame_asParameterType w
  | moreParameters | moreArguments => exact keepsFrame_afterEntry rfl
  | term => exact keepsFrame_asTerm (List.forall_mem_nil _)
  | repetition =>
    rw [Part.move]
    split
    · simp [Move.KeepsFrame, Part.isFrame]
    · trivial
  | moreTerms =>
    rw [Part.move]
    split
    · trivial
    · exact keepsFrame_asTerm (by simp [Part.isFrame])
  | group =>
    rw [Part.move]
    split
    · simp [Move.KeepsFrame]
    · exact keepsFrame_asTerm (by simp [Part.isFrame])
  | itemEnd =>
    rw [Part.move]
    split
    · trivial
    · exact keepsFrame_required

/-- **No part has the end of an item to come behind it.** -/
theorem withinItem_move (part : Part) (w : Word) (following : TokenKind) :
    (part.move w following).WithinItem := by
  have hframe := keepsFrame_move part w following
  cases hmove : part.move w following with
  | take paint taken =>
    rw [hmove] at hframe
    exact fun hmem => Bool.noConfusion (hframe _ hmem)
  | skip | refuse => trivial

theorem oneItem_item? {w : Word} {begun : Paint × List Part} (h : w.item? = some begun) :
    OneItem begun.2 := by
  unfold Word.item? at h
  split at h <;> cases h <;> rw [OneItem] <;> decide

theorem oneItem_settle {w : Word} {following : TokenKind} {parts : List Part}
    {settled : Paint × List Part} (hparts : OneItem parts)
    (h : settle w following parts = .ok settled) : OneItem settled.2 := by
  rcases settle_ok_cases h with ⟨-, hitem⟩ | ⟨skipped, part, rest, taken, rfl, -, hmove, hrest⟩
  · exact oneItem_item? hitem
  · have hwithin := withinItem_move part w following
    rw [hmove] at hwithin
    rw [List.append_cons] at hparts
    exact hrest ▸ .append hwithin hparts.of_append

/-- A reading that expects the parts of one item, or none. -/
def Reading.OneItem : Reading → Prop
  | expecting parts => GrammarPaint.OneItem parts
  | skipping => True

theorem oneItem_resume (w : Word) : (resume w).2.OneItem := by
  rw [resume]
  split
  · exact oneItem_item? ‹_›
  · split
    · exact List.not_mem_nil
    · trivial

theorem oneItem_step {r : Reading} (h : r.OneItem) (w : Word) (following : TokenKind) :
    (r.step w following).2.OneItem := by
  cases r with
  | expecting parts =>
    rw [Reading.step]
    split
    · exact oneItem_settle h ‹_›
    · exact oneItem_resume w
  | skipping => exact oneItem_resume w

/-! ## Semicolons -/

section Semicolon

variable {w : Word} (hw : w.kind = .semicolon)
include hw

/-- Only the end of an item takes a semicolon. -/
theorem eq_itemEnd_of_take {part : Part} {following : TokenKind} {paint : Paint}
    {taken : List Part} (h : part.move w following = .take paint taken) :
    part = .itemEnd ∧ taken = [] := by
  obtain ⟨k, name⟩ := w
  obtain rfl : k = .semicolon := hw
  cases part with
  | repetition =>
    rw [Part.move, if_neg (show TokenKind.semicolon ∉ repeatMark by decide)] at h
    exact nomatch h
  | moreTerms =>
    rw [Part.move, if_pos (show TokenKind.semicolon ∈ sequenceEnd by decide)] at h
    exact nomatch h
  | itemEnd =>
    rw [Part.move, if_neg (show TokenKind.semicolon ∉ itemStart by decide)] at h
    cases h
    exact ⟨rfl, rfl⟩
  | _ => cases h

theorem settle_semicolon {following : TokenKind} {parts : List Part}
    {settled : Paint × List Part} (hparts : OneItem parts)
    (h : settle w following parts = .ok settled) : settled.2 = [] := by
  rcases settle_ok_cases h with ⟨-, hitem⟩ | ⟨skipped, part, rest, taken, rfl, -, hmove, hrest⟩
  · rw [Word.item?, hw] at hitem
    cases hitem
  · obtain ⟨rfl, rfl⟩ := eq_itemEnd_of_take hw hmove
    rw [hrest]
    cases rest with
    | nil => rfl
    | cons next rest => exact absurd List.mem_cons_self hparts.of_append

/-- **A semicolon leaves the reading where it began.** -/
theorem step_semicolon {r : Reading} (h : r.OneItem) (following : TokenKind) :
    (r.step w following).2 = .start := by
  have hresume : (resume w).2 = .start := by
    rw [resume, Word.item?, hw]
    rfl
  cases r with
  | expecting parts =>
    rw [Reading.step]
    split
    · rename_i paint settled hsettle
      exact congrArg Reading.expecting (settle_semicolon hw h hsettle)
    · exact hresume
  | skipping => exact hresume

theorem read_concat_semicolon {r : Reading} (h : r.OneItem) (words : List Word) :
    (r.read (words ++ [w])).2 = .start := by
  induction words generalizing r with
  | nil => exact step_semicolon hw h _
  | cons v words ih => exact ih (oneItem_step h v _)

end Semicolon

/-! ## One list of tokens behind another -/

theorem visible_append {front : List Token} (h : ∀ t ∈ front, t.isEnd = false)
    (back : List Token) : visible (front ++ back) = substance front ++ visible back := by
  rw [visible, List.takeWhile_append_of_pos (by simpa using h), List.filter_append]
  rfl

theorem visible_eq_substance {front : List Token} (h : ∀ t ∈ front, t.isEnd = false) :
    visible front = substance front := by
  have hall := visible_append h []
  rwa [List.append_nil, show visible [] = [] from rfl, List.append_nil] at hall

theorem find?_isEnd_append {front : List Token} (h : ∀ t ∈ front, t.isEnd = false)
    (back : List Token) : (front ++ back).find? Token.isEnd = back.find? Token.isEnd := by
  rw [List.find?_append, List.find?_eq_none.2 (by simpa using h), Option.none_or]

theorem endSpan_append {front back : List Token} (h : ∀ t ∈ front, t.isEnd = false)
    (hback : back ≠ []) : endSpan (front ++ back) = endSpan back := by
  rw [endSpan, find?_isEnd_append h, List.getLast?_append, List.getLast?_eq_some_getLast hback,
    Option.some_or, endSpan, List.getLast?_eq_some_getLast hback]

/-- The complaints in verdicts on tokens. -/
def complaintsAbout (tokens : List Token) (verdicts : List Verdict) : List StructuralIssue :=
  (tokens.zip verdicts).filterMap fun p => p.2.complaint.map (⟨p.1.span, p.1.kind, ·⟩)

/-- The complaint of a reading for which the file ends at `place`. -/
def complaintsAt (place : Span) (r : Reading) : List StructuralIssue :=
  (r.complaintAtEnd.map (⟨place, .endOfFile, ·⟩)).toList

theorem structuralIssues_eq (tokens : List Token) :
    structuralIssues tokens = complaintsAbout (visible tokens) (readItems tokens).1
      ++ complaintsAt (endSpan tokens) (readItems tokens).2 := rfl

/-- What a reading that has come through `front` makes of `back`. -/
def readBehind (front back : List Token) : List Verdict × Reading :=
  (readItems front).2.read ((visible back).map Token.word)

section Behind

variable {front back : List Token} (hend : ∀ t ∈ front, t.isEnd = false)
  (hahead : ∀ t ∈ (substance front).getLast?,
    t.kind = .ampersand → firstKind ((visible back).map Token.word) ≠ .snippetStart)
include hend hahead

theorem readItems_append :
    readItems (front ++ back)
      = ((readItems front).1 ++ (readBehind front back).1, (readBehind front back).2) := by
  rw [readItems, visible_append hend, List.map_append, read_append, readBehind, readItems,
    visible_eq_substance hend]
  simpa [Token.word] using hahead

/-- Tokens are painted alike behind others and alone if the verdicts on them paint alike. -/
theorem assignRoles_append
    (h : (readBehind front back).1.map Verdict.paint = (readItems back).1.map Verdict.paint) :
    assignRoles (front ++ back) = assignRoles front ++ assignRoles back := by
  have hlen : ((readItems front).1.map Verdict.paint).length = (substance front).length := by
    rw [List.length_map, length_readItems, visible_eq_substance hend]
  rw [assignRoles, readItems_append hend hahead, List.map_append, paintVisible_append,
    paintVisible_append_paints hlen, ← hlen, List.drop_left, h, assignRoles, assignRoles]

theorem structuralIssues_append_eq :
    structuralIssues (front ++ back)
      = complaintsAbout (visible front) (readItems front).1
        ++ (complaintsAbout (visible back) (readBehind front back).1
          ++ complaintsAt (endSpan (front ++ back)) (readBehind front back).2) := by
  rw [structuralIssues_eq, readItems_append hend hahead, visible_append hend,
    ← visible_eq_substance hend, complaintsAbout, List.zip_append (length_readItems front).symm,
    List.filterMap_append, List.append_assoc]
  rfl

end Behind

/-! ## Tokens that end in a semicolon -/

/-- Tokens that end whatever item they are in the middle of: the last one is a semicolon, and there
is no end of the file among them. -/
structure EndsItems (tokens : List Token) : Prop where
  not_isEnd : ∀ t ∈ tokens, t.isEnd = false
  semicolon : ∃ before t, tokens = before ++ [t] ∧ t.kind = .semicolon

theorem EndsItems.getLast? {tokens : List Token} (h : EndsItems tokens) :
    ∃ t ∈ (substance tokens).getLast?, t.kind = .semicolon := by
  obtain ⟨before, t, rfl, hkind⟩ := h.semicolon
  have htrivia : t.kind.isTrivia = false := by rw [hkind]; rfl
  refine ⟨t, ?_, hkind⟩
  rw [substance_append, substance_cons htrivia]
  exact List.getLast?_concat

section Semicolon

variable {front : List Token} (hend : ∀ t ∈ front, t.isEnd = false)
  (hlast : ∃ t ∈ (substance front).getLast?, t.kind = .semicolon) (back : List Token)
include hend hlast

theorem readItems_of_semicolon : (readItems front).2 = .start := by
  obtain ⟨t, ht, hkind⟩ := hlast
  obtain ⟨before, hbefore⟩ := List.getLast?_eq_some_iff.1 ht
  rw [readItems, visible_eq_substance hend, hbefore, List.map_append]
  exact read_concat_semicolon (r := .start) hkind List.not_mem_nil _

/-- **What stands behind a semicolon is read as if nothing came before it.** -/
theorem readBehind_of_semicolon : readBehind front back = readItems back := by
  rw [readBehind, readItems_of_semicolon hend hlast, readItems]

omit hend in
theorem not_ahead_of_semicolon {next : TokenKind} :
    ∀ t ∈ (substance front).getLast?, t.kind = .ampersand → next ≠ .snippetStart := by
  obtain ⟨t, ht, hkind⟩ := hlast
  intro u hu hu'
  rw [Option.mem_unique hu ht, hkind] at hu'
  exact nomatch hu'

/-- **A semicolon separates roles.** -/
theorem assignRoles_append_semicolon :
    assignRoles (front ++ back) = assignRoles front ++ assignRoles back :=
  assignRoles_append hend (not_ahead_of_semicolon hlast)
    (by rw [readBehind_of_semicolon hend hlast])

/-- **A semicolon separates complaints.** -/
theorem structuralIssues_append_semicolon :
    structuralIssues (front ++ back) = structuralIssues front ++ structuralIssues back := by
  have hfront : complaintsAt (endSpan front) (readItems front).2 = [] := by
    rw [readItems_of_semicolon hend hlast]
    rfl
  have hback : complaintsAt (endSpan (front ++ back)) (readItems back).2
      = complaintsAt (endSpan back) (readItems back).2 := by
    cases back with
    | nil => rfl
    | cons t back => rw [endSpan_append hend (List.cons_ne_nil t back)]
  rw [structuralIssues_append_eq hend (not_ahead_of_semicolon hlast),
    readBehind_of_semicolon hend hlast, hback, ← structuralIssues_eq back,
    structuralIssues_eq front, hfront, List.append_nil]

end Semicolon

end GrammarPaint
