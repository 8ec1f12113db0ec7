import GrammarPaint.Item.Roles
import GrammarPaint.Proofs.FileGrammar

/-!
# What parts make of kinds

The reading of items works through a stack of parts, word by word.  Two things make it easier to
talk about.

* **Only kinds matter for where it goes.**  The name of a word and the kind of the next one decide
  about paint and about nothing else (`settle_eq_follow`), so `Accepts` runs the reading on kinds.
* **The stack can be cut.**  `Reads parts ks rest` says what `parts` make of `ks` all by
  themselves: they take words until they are used up, and `rest` is left.  What is below them in
  the stack sees `rest` and nothing else (`accepts_append_iff`).
-/

set_option autoImplicit false
namespace GrammarPaint

/-- The kind of the first of some words; where there is none, the end of the file. -/
def headKind (ks : List TokenKind) : TokenKind := ks.headD .endOfFile

theorem headKind_cons (k : TokenKind) (ks : List TokenKind) : headKind (k :: ks) = k := rfl

/-! ## Paint does not matter -/

namespace Move

/-- A move without its paint. -/
def unpainted : Move → Move
  | .take _ parts => .take .keep parts
  | m => m

theorem unpainted_eq_take {m : Move} {parts : List Part} :
    m.unpainted = .take .keep parts ↔ ∃ paint, m = .take paint parts := by
  cases m <;> simp [unpainted]

end Move

theorem unpainted_optional (w : Word) (k : TokenKind) (paint : Paint) (parts : List Part) :
    (w.optional k paint parts).unpainted = if w.kind = k then .take .keep parts else .skip := by
  rw [Word.optional]
  split <;> rfl

theorem unpainted_required (w : Word) (k : TokenKind) (paint : Paint) (parts : List Part)
    (c : Complaint) :
    (w.required k paint parts c).unpainted
      = if w.kind = k then .take .keep parts else .refuse c := by
  rw [Word.required]
  split <;> rfl

theorem unpainted_asTerm (w : Word) (following following' : TokenKind) (name : Option String)
    (negated : Bool) (parts : List Part) :
    (w.asTerm following negated parts).unpainted
      = (Word.asTerm ⟨w.kind, name⟩ following' negated parts).unpainted := by
  obtain ⟨k, n⟩ := w
  cases k <;> rfl

/-- What a part makes of a word of kind `k`. -/
def Part.moveAt (part : Part) (k : TokenKind) : Move := (part.move ⟨k, none⟩ .endOfFile).unpainted

/-- **A part looks at the kind of a word.**  Everything else goes into the paint. -/
theorem unpainted_move (part : Part) (w : Word) (following : TokenKind) :
    (part.move w following).unpainted = part.moveAt w.kind := by
  cases part with
  | term | moreTerms | group =>
    simp only [Part.moveAt, Part.move]
    repeat' split
    all_goals first | rfl | exact unpainted_asTerm ..
  | itemEnd =>
    simp only [Part.moveAt, Part.move]
    split
    · rfl
    · simp only [unpainted_required]
  | _ =>
    simp only [Part.moveAt, Part.move, unpainted_optional, unpainted_required, Word.asEntry,
      Word.afterEntry, Word.asParameterType]

theorem move_eq_skip_iff {part : Part} {w : Word} {following : TokenKind} :
    part.move w following = .skip ↔ part.moveAt w.kind = .skip := by
  rw [← unpainted_move part w following]
  cases part.move w following <;> simp [Move.unpainted]

theorem moveAt_eq_take_iff {part : Part} {k : TokenKind} {taken : List Part} :
    part.moveAt k = .take .keep taken
      ↔ ∃ paint, part.move ⟨k, none⟩ .endOfFile = .take paint taken :=
  Move.unpainted_eq_take

theorem moveAt_endOfFile_ne_take (part : Part) (paint : Paint) (parts : List Part) :
    part.moveAt .endOfFile ≠ .take paint parts := by
  intro h
  cases part <;> exact absurd h (by nofun)

/-- The parts of each level of an expression. -/
def Level.parts (negated : Bool) : Level → List Part
  | .term => [.term negated]
  | .moreTerms => [.moreTerms negated]
  | .sequence => [.term negated, .repetition, .moreTerms negated]
  | .moreAlternatives => [.moreAlternatives negated]
  | .expression => GrammarPaint.expression negated

theorem mem_repeatMark_iff {k : TokenKind} : k ∈ repeatMark ↔ isMark k = true := by
  cases k <;> decide

theorem moveAt_repetition_of_not_isMark {k : TokenKind} (h : isMark k = false) :
    Part.repetition.moveAt k = .skip := by
  rw [Part.moveAt, Part.move, if_neg fun hk => by simp [mem_repeatMark_iff.1 hk] at h]
  rfl

/-- What begins a term is taken for one. -/
theorem exists_move_term {negated : Bool} {w : Word} (following : TokenKind)
    (h : beginsTerm w.kind = true) :
    ∃ paint taken, (Part.term negated).move w following = .take paint taken := by
  obtain ⟨k, name⟩ := w
  cases k <;> first | exact ⟨_, _, rfl⟩ | simp [beginsTerm] at h

/-- A term that is taken begins like one, and what comes behind it is put below its own parts. -/
theorem asTerm_append {w : Word} {following : TokenKind} {negated : Bool} {paint : Paint}
    {taken : List Part} (h : w.asTerm following negated [] = .take paint taken)
    (parts : List Part) :
    beginsTerm w.kind = true ∧ w.asTerm following negated parts = .take paint (taken ++ parts) := by
  obtain ⟨k, name⟩ := w
  cases k <;> cases h <;> exact ⟨rfl, rfl⟩

theorem not_mem_sequenceEnd {k : TokenKind} (h : beginsTerm k = true) : k ∉ sequenceEnd := by
  revert h
  cases k <;> decide

/-- Where a term comes behind another, it is taken as it would be on its own. -/
theorem move_moreTerms_of_term {negated : Bool} {w : Word} {following : TokenKind} {paint : Paint}
    {taken : List Part} (h : (Part.term negated).move w following = .take paint taken) :
    (Part.moreTerms negated).move w following
      = .take paint (taken ++ [.repetition, .moreTerms negated]) := by
  obtain ⟨hbegins, hmove⟩ := asTerm_append h [.repetition, .moreTerms negated]
  rw [Part.move, if_neg (not_mem_sequenceEnd hbegins), hmove]

/-- Where an expression comes in a group, its first term is taken as it would be on its own. -/
theorem move_group_of_term {negated : Bool} {w : Word} {following : TokenKind} {paint : Paint}
    {taken : List Part} (h : (Part.term negated).move w following = .take paint taken) :
    (Part.group negated).move w following
      = .take paint (taken ++ ([.repetition, .moreTerms negated, .moreAlternatives negated] ++
          [.groupEnd])) := by
  obtain ⟨hbegins, hmove⟩ := asTerm_append h
    [.repetition, .moreTerms negated, .moreAlternatives negated, .groupEnd]
  rw [Part.move, if_neg, hmove]
  · rfl
  · intro hk
    rw [hk] at hbegins
    exact nomatch hbegins

theorem moveAt_moreTerms_of_term {negated : Bool} {k : TokenKind} {taken : List Part}
    (h : (Part.term negated).moveAt k = .take .keep taken) :
    (Part.moreTerms negated).moveAt k
      = .take .keep (taken ++ [.repetition, .moreTerms negated]) := by
  obtain ⟨paint, hmove⟩ := moveAt_eq_take_iff.1 h
  exact moveAt_eq_take_iff.2 ⟨paint, move_moreTerms_of_term hmove⟩

theorem moveAt_group_of_term {negated : Bool} {k : TokenKind} {taken : List Part}
    (h : (Part.term negated).moveAt k = .take .keep taken) :
    (Part.group negated).moveAt k
      = .take .keep (taken ++ ([.repetition, .moreTerms negated, .moreAlternatives negated] ++
          [.groupEnd])) := by
  obtain ⟨paint, hmove⟩ := moveAt_eq_take_iff.1 h
  exact moveAt_eq_take_iff.2 ⟨paint, move_group_of_term hmove⟩

/-- How the item that begins with a word of kind `k` goes on. -/
def itemParts? (k : TokenKind) : Option (List Part) := (Word.item? ⟨k, none⟩).map Prod.snd

theorem map_snd_item? (w : Word) : w.item?.map Prod.snd = itemParts? w.kind := rfl

/-- What `settle` makes of a word of kind `k`, apart from its paint. -/
def follow (k : TokenKind) : List Part → Except Complaint (List Part)
  | [] => match itemParts? k with
    | some parts => .ok parts
    | none => .error ⟨.rule, {.identifier}⟩
  | part :: parts => match part.moveAt k with
    | .skip => follow k parts
    | .take _ taken => .ok (taken ++ parts)
    | .refuse complaint => .error complaint

theorem settle_eq_follow (w : Word) (following : TokenKind) (parts : List Part) :
    (settle w following parts).map Prod.snd = follow w.kind parts := by
  induction parts with
  | nil =>
    rw [settle, follow, ← map_snd_item?]
    cases w.item? <;> rfl
  | cons part parts ih =>
    rw [settle, follow, ← unpainted_move part w following]
    cases part.move w following with
    | skip => exact ih
    | take => rfl
    | refuse => rfl

/-! ## Reading without a complaint -/

/-- Whether the reading that expects `parts` goes through words of the kinds `ks`, and the end of
the file behind them, without a complaint. -/
def Accepts : List Part → List TokenKind → Prop
  | parts, [] => missing parts = none
  | parts, k :: ks => match follow k parts with
    | .ok parts => Accepts parts ks
    | .error _ => False

/-- Whether a reading has nothing to complain about. -/
def Reading.IsClean (read : List Verdict × Reading) : Prop :=
  (∀ v ∈ read.1, v.complaint = none) ∧ read.2.complaintAtEnd = none

theorem isClean_read_iff (parts : List Part) (words : List Word) :
    Reading.IsClean ((Reading.expecting parts).read words)
      ↔ Accepts parts (words.map Word.kind) := by
  induction words generalizing parts with
  | nil => simp [Reading.IsClean, Reading.read, Reading.complaintAtEnd, Accepts]
  | cons w words ih =>
    rw [List.map_cons, Accepts, ← settle_eq_follow w (firstKind words)]
    cases h : settle w (firstKind words) parts with
    | error c =>
      simp [Reading.IsClean, Reading.read, Reading.step, h, Except.map]
    | ok found =>
      simp only [Except.map, ← ih]
      simp [Reading.IsClean, Reading.read, Reading.step, h]

theorem structuralIssues_eq_nil_iff_isClean (tokens : List Token) :
    structuralIssues tokens = [] ↔ Reading.IsClean (readItems tokens) := by
  have hlen := length_readItems tokens
  rw [structuralIssues, List.append_eq_nil_iff, List.filterMap_eq_nil_iff, Reading.IsClean]
  refine and_congr ⟨fun h v hv => ?_, fun h p hp => ?_⟩ ?_
  · obtain ⟨i, hi, rfl⟩ := List.mem_iff_getElem.1 hv
    have hmem := List.getElem_mem (l := (visible tokens).zip (readItems tokens).1) (n := i)
      (by rw [List.length_zip]; omega)
    simpa using h _ hmem
  · simp [h p.2 (List.of_mem_zip hp).2]
  · cases (readItems tokens).2.complaintAtEnd <;> simp

/-- There is nothing to complain about exactly if the kinds of the visible tokens are accepted. -/
theorem structuralIssues_eq_nil_iff_accepts (tokens : List Token) :
    structuralIssues tokens = [] ↔ Accepts [] ((visible tokens).map Token.kind) := by
  rw [structuralIssues_eq_nil_iff_isClean, readItems, Reading.start, isClean_read_iff,
    List.map_map]
  rfl

theorem follow_endOfFile_ne_ok (parts taken : List Part) : follow .endOfFile parts ≠ .ok taken := by
  induction parts with
  | nil => nofun
  | cons part parts ih =>
    rw [follow]
    cases hmove : part.moveAt .endOfFile with
    | skip => exact ih
    | take paint taken => exact absurd hmove (moveAt_endOfFile_ne_take part paint taken)
    | refuse => nofun

/-- What is accepted does not hold the end of the file. -/
theorem not_mem_of_accepts {parts : List Part} {ks : List TokenKind} (h : Accepts parts ks) :
    .endOfFile ∉ ks := by
  induction ks generalizing parts with
  | nil => exact List.not_mem_nil
  | cons k ks ih =>
    rw [Accepts] at h
    split at h
    · rename_i parts hfollow
      rw [List.mem_cons, not_or]
      refine ⟨?_, ih h⟩
      rintro rfl
      exact follow_endOfFile_ne_ok _ _ hfollow
    · exact h.elim

/-! ## Cutting the stack -/

/-- What `parts` make of words of the kinds `ks`: they are used up when `rest` is left. -/
inductive Reads : List Part → List TokenKind → List TokenKind → Prop
  | nil {ks : List TokenKind} : Reads [] ks ks
  | skip {part : Part} {parts : List Part} {ks rest : List TokenKind}
      (h : part.moveAt (headKind ks) = .skip) (hs : Reads parts ks rest) :
      Reads (part :: parts) ks rest
  | take {part : Part} {parts taken : List Part} {k : TokenKind} {ks mid rest : List TokenKind}
      (h : part.moveAt k = .take .keep taken) (hmid : Reads taken ks mid)
      (hs : Reads parts mid rest) : Reads (part :: parts) (k :: ks) rest

theorem Reads.length_le {parts : List Part} {ks rest : List TokenKind} (h : Reads parts ks rest) :
    rest.length ≤ ks.length := by
  induction h with
  | nil => exact Nat.le_refl _
  | skip _ _ ih => exact ih
  | take _ _ _ ihmid ihs => exact Nat.le_succ_of_le (Nat.le_trans ihs ihmid)

theorem Reads.append {a b : List Part} {ks mid rest : List TokenKind} (ha : Reads a ks mid)
    (hb : Reads b mid rest) : Reads (a ++ b) ks rest := by
  induction ha with
  | nil => exact hb
  | skip h _ ih => exact .skip h (ih hb)
  | take h hmid _ _ ih => exact .take h hmid (ih hb)

theorem missing_cons (part : Part) (parts : List Part) :
    missing (part :: parts) = match part.moveAt .endOfFile with
      | .refuse complaint => some complaint
      | _ => missing parts := by
  have hmove : _ = part.moveAt .endOfFile := unpainted_move part .ending .endOfFile
  rw [missing, ← hmove]
  cases part.move .ending .endOfFile <;> rfl

theorem accepts_skip_iff {part : Part} {parts : List Part} {ks : List TokenKind}
    (h : part.moveAt (headKind ks) = .skip) : Accepts (part :: parts) ks ↔ Accepts parts ks := by
  cases ks with
  | nil => rw [Accepts, Accepts, missing_cons, show part.moveAt .endOfFile = .skip from h]
  | cons k ks => rw [Accepts, Accepts, follow, show part.moveAt k = .skip from h]

theorem accepts_take_iff {part : Part} {parts taken : List Part} {k : TokenKind}
    {ks : List TokenKind} (h : part.moveAt k = .take .keep taken) :
    Accepts (part :: parts) (k :: ks) ↔ Accepts (taken ++ parts) ks := by
  rw [Accepts, follow, h]

/-- What an accepting reading can do with the first part. -/
theorem moveAt_of_accepts {part : Part} {parts : List Part} {ks : List TokenKind}
    (h : Accepts (part :: parts) ks) :
    part.moveAt (headKind ks) = .skip ∨
      ∃ k ks' taken, ks = k :: ks' ∧ part.moveAt k = .take .keep taken := by
  cases ks with
  | nil =>
    rw [Accepts, missing_cons] at h
    cases hmove : part.moveAt .endOfFile with
    | skip => exact .inl hmove
    | take paint taken => exact absurd hmove (moveAt_endOfFile_ne_take _ _ _)
    | refuse c => simp [hmove] at h
  | cons k ks =>
    rw [Accepts, follow] at h
    cases hmove : part.moveAt k with
    | skip => exact .inl hmove
    | take paint taken =>
      have hkeep : (part.moveAt k) = .take .keep taken := by
        rw [Part.moveAt] at hmove ⊢
        cases hm : part.move ⟨k, none⟩ .endOfFile <;> simp_all [Move.unpainted]
      exact .inr ⟨k, ks, taken, rfl, hkeep⟩
    | refuse c => simp [hmove] at h

theorem accepts_append_of_reads {parts stack : List Part} {ks rest : List TokenKind}
    (h : Reads parts ks rest) (hrest : Accepts stack rest) : Accepts (parts ++ stack) ks := by
  induction h generalizing stack with
  | nil => exact hrest
  | skip h _ ih => exact (accepts_skip_iff h).2 (ih hrest)
  | take h _ _ ihmid ihs =>
    rw [List.cons_append, accepts_take_iff h]
    exact ihmid (ihs hrest)

theorem exists_reads_of_accepts {parts stack : List Part} {ks : List TokenKind}
    (h : Accepts (parts ++ stack) ks) : ∃ rest, Reads parts ks rest ∧ Accepts stack rest := by
  -- on the words that are left, and below that on the parts that are to be used up
  induction hn : ks.length using Nat.strongRecOn generalizing parts stack ks with
  | ind n ihn =>
    subst hn
    induction parts with
    | nil => exact ⟨ks, .nil, h⟩
    | cons part parts ihp =>
      rw [List.cons_append] at h
      rcases moveAt_of_accepts h with hskip | ⟨k, ks, taken, rfl, htake⟩
      · obtain ⟨rest, hreads, hrest⟩ := ihp ((accepts_skip_iff hskip).1 h)
        exact ⟨rest, .skip hskip hreads, hrest⟩
      · obtain ⟨mid, htaken, hmid⟩ :=
          ihn ks.length (Nat.lt_succ_self _) ((accepts_take_iff htake).1 h) rfl
        obtain ⟨rest, hreads, hrest⟩ :=
          ihn mid.length (Nat.lt_succ_of_le htaken.length_le) hmid rfl
        exact ⟨rest, .take htake htaken hreads, hrest⟩

/-- **The stack can be cut** between any two of its parts. -/
theorem accepts_append_iff {parts stack : List Part} {ks : List TokenKind} :
    Accepts (parts ++ stack) ks ↔ ∃ rest, Reads parts ks rest ∧ Accepts stack rest :=
  ⟨exists_reads_of_accepts, fun ⟨_, h, hrest⟩ => accepts_append_of_reads h hrest⟩

/-- A file is accepted item by item. -/
theorem accepts_nil_cons_iff {k : TokenKind} {ks : List TokenKind} :
    Accepts [] (k :: ks)
      ↔ ∃ parts rest, itemParts? k = some parts ∧ Reads parts ks rest ∧ Accepts [] rest := by
  rw [Accepts, follow]
  cases itemParts? k with
  | none => simp
  | some parts =>
    have hcut : Accepts (parts ++ []) ks ↔ _ := accepts_append_iff
    rw [List.append_nil] at hcut
    simp [hcut]

theorem accepts_nil_nil : Accepts [] [] := rfl

end GrammarPaint
