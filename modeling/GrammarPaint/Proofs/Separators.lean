import GrammarPaint.Analysis
import GrammarPaint.Proofs.ItemEnds
import GrammarPaint.Proofs.Parts

/-!
# What separates tokens

Two kinds of word stop whatever trouble comes before them: a semicolon, and a keyword that begins an
item.  However malformed the tokens on either side are, the two sides are painted as if each were
alone (`separates`).

The two work in different ways.  A semicolon leaves the reading where it began.  A keyword begins
its item wherever the reading stands, since no part takes one: **to every part a keyword is what the
end of the file is** (`moveAt_itemKeyword`).  What the reading would have complained about at the
end of the first side, it complains about at the keyword.
-/

set_option autoImplicit false
namespace GrammarPaint

/-! ## Keywords that begin items -/

/-- The keywords that begin items. -/
def TokenKind.isItemKeyword : TokenKind → Bool
  | keywordTypedef | keywordCode | keywordNamespace => true
  | _ => false

/-- **To every part, a keyword that begins items is what the end of the file is.** -/
theorem moveAt_itemKeyword {k : TokenKind} (h : k.isItemKeyword = true) (part : Part) :
    part.moveAt k = part.moveAt .endOfFile := by
  cases k with
  | keywordTypedef | keywordCode | keywordNamespace => cases part <;> rfl
  | _ => exact nomatch h

theorem exists_item? {w : Word} (h : w.kind.isItemKeyword = true) :
    ∃ begun, w.item? = some begun := by
  obtain ⟨k, name⟩ := w
  cases k with
  | keywordTypedef | keywordCode | keywordNamespace => exact ⟨_, rfl⟩
  | _ => exact nomatch h

section ItemKeyword

variable {w : Word} (h : w.kind.isItemKeyword = true)
include h

/-- A keyword meets the complaint that the end of the file would meet; without one, it begins its
item. -/
theorem settle_itemKeyword (following : TokenKind) {begun : Paint × List Part}
    (hbegun : w.item? = some begun) (parts : List Part) :
    settle w following parts
      = match missing parts with
        | some complaint => .error complaint
        | none => .ok begun := by
  induction parts with
  | nil =>
    rw [settle, hbegun]
    rfl
  | cons part parts ih =>
    have hmove := (unpainted_move part w following).trans (moveAt_itemKeyword h part)
    rw [settle, missing_cons, ← hmove]
    cases htake : part.move w following with
    | skip => exact ih
    | take paint taken =>
      rw [htake] at hmove
      exact absurd hmove.symm (moveAt_endOfFile_ne_take part _ _)
    | refuse complaint => rfl

/-- **A keyword begins its item wherever the reading stands.** -/
theorem step_itemKeyword (following : TokenKind) (r : Reading) :
    r.step w following = (⟨(resume w).1, r.complaintAtEnd⟩, (resume w).2) := by
  obtain ⟨begun, hbegun⟩ := exists_item? h
  cases r with
  | expecting parts =>
    rw [Reading.step, settle_itemKeyword h following hbegun, Reading.complaintAtEnd, resume, hbegun]
    cases missing parts <;> rfl
  | skipping => rfl

end ItemKeyword

/-! ## A keyword behind other tokens -/

/-- The issue about `t`, if it was about the end of the file. -/
def StructuralIssue.foundAt (t : Token) (i : StructuralIssue) : StructuralIssue :=
  if i.found = .endOfFile then { i with span := t.span, found := t.kind } else i

theorem complaintsAbout_cons (t : Token) (tokens : List Token) (v : Verdict)
    (verdicts : List Verdict) :
    complaintsAbout (t :: tokens) (v :: verdicts)
      = (v.complaint.map (⟨t.span, t.kind, ·⟩)).toList ++ complaintsAbout tokens verdicts := by
  rw [complaintsAbout, List.zip_cons_cons, List.filterMap_cons]
  cases v.complaint <;> rfl

/-- Complaints about tokens stay where they are. -/
theorem map_foundAt_complaintsAbout {tokens : List Token} (h : ∀ t ∈ tokens, t.isEnd = false)
    (next : Token) (verdicts : List Verdict) :
    (complaintsAbout tokens verdicts).map (·.foundAt next) = complaintsAbout tokens verdicts := by
  refine (List.map_congr_left fun i hi => ?_).trans (List.map_id _)
  obtain ⟨⟨t, v⟩, hmem, hv⟩ := List.mem_filterMap.1 hi
  obtain ⟨c, -, rfl⟩ := Option.map_eq_some_iff.1 hv
  exact if_neg (beq_eq_false_iff_ne.1 (h t (List.of_mem_zip hmem).1))

/-- The complaint about the end of the file is made about the token that is found there. -/
theorem map_foundAt_complaintsAt (next : Token) (place : Span) (r : Reading) :
    (complaintsAt place r).map (·.foundAt next)
      = (r.complaintAtEnd.map (⟨next.span, next.kind, ·⟩)).toList := by
  rw [complaintsAt]
  cases r.complaintAtEnd <;> rfl

section Keyword

variable {front back : List Token} (hend : ∀ t ∈ front, t.isEnd = false) {t : Token}
  (ht : t ∈ (substance back).head?) (hkey : t.kind.isItemKeyword = true)

include ht hkey

theorem exists_visible_eq_cons : ∃ rest, visible back = t :: rest := by
  obtain ⟨rest, hrest⟩ := List.head?_eq_some_iff.1 ht
  have hnot : t.isEnd = false := by
    cases hend : t.isEnd with
    | false => rfl
    | true =>
      rw [eq_of_beq hend] at hkey
      exact nomatch hkey
  refine ⟨rest.takeWhile fun t => !t.isEnd, ?_⟩
  rw [visible_eq_takeWhile, hrest, List.takeWhile_cons_of_pos (by simp [hnot])]

/-- What comes behind a keyword is read as if nothing came before it, and the keyword itself but for
the complaint that is made at it. -/
theorem exists_readBehind_eq (front : List Token) : ∃ paint verdicts last,
    readItems back = (⟨paint, none⟩ :: verdicts, last) ∧
      readBehind front back
        = (⟨paint, (readItems front).2.complaintAtEnd⟩ :: verdicts, last) := by
  obtain ⟨rest, hrest⟩ := exists_visible_eq_cons ht hkey
  have hstep := step_itemKeyword (w := t.word) hkey (firstKind (rest.map Token.word))
  refine ⟨(resume t.word).1, ((resume t.word).2.read (rest.map Token.word)).1,
    ((resume t.word).2.read (rest.map Token.word)).2, ?_, ?_⟩
  · rw [readItems, hrest, List.map_cons, Reading.read, hstep]
    rfl
  · rw [readBehind, hrest, List.map_cons, Reading.read, hstep]

theorem firstKind_ne_snippetStart :
    firstKind ((visible back).map Token.word) ≠ .snippetStart := by
  obtain ⟨rest, hrest⟩ := exists_visible_eq_cons ht hkey
  intro hfirst
  rw [hrest] at hfirst
  rw [show t.kind = .snippetStart from hfirst] at hkey
  exact nomatch hkey

include hend

/-- **A keyword separates roles.** -/
theorem assignRoles_append_keyword :
    assignRoles (front ++ back) = assignRoles front ++ assignRoles back := by
  obtain ⟨paint, verdicts, last, hback, hbehind⟩ := exists_readBehind_eq ht hkey front
  refine assignRoles_append hend (fun _ _ _ => firstKind_ne_snippetStart ht hkey) ?_
  rw [hback, hbehind]
  rfl

/-- **A keyword separates complaints**, but takes upon itself the one about the end of what comes
before it. -/
theorem structuralIssues_append_keyword :
    structuralIssues (front ++ back)
      = (structuralIssues front).map (·.foundAt t) ++ structuralIssues back := by
  obtain ⟨rest, hrest⟩ := exists_visible_eq_cons ht hkey
  obtain ⟨paint, verdicts, last, hback, hbehind⟩ := exists_readBehind_eq ht hkey front
  have hne : back ≠ [] := by
    rintro rfl
    exact nomatch ht
  have hfront : ∀ u ∈ visible front, u.isEnd = false := fun u hu =>
    hend u (List.mem_filter.1 (visible_eq_substance hend ▸ hu)).1
  rw [structuralIssues_append_eq hend (fun _ _ _ => firstKind_ne_snippetStart ht hkey), hbehind,
    endSpan_append hend hne, structuralIssues_eq front, List.map_append,
    map_foundAt_complaintsAbout hfront, map_foundAt_complaintsAt, structuralIssues_eq back, hback,
    hrest, complaintsAbout_cons, complaintsAbout_cons]
  simp

end Keyword

/-! ## Both -/

/-- **Semicolons and keywords separate.**  Behind a semicolon and in front of a keyword that begins
an item, tokens are painted and complained about as if they were alone, except that a complaint
about the end of what comes before a keyword is made about the keyword. -/
theorem separates {front : List Token} (hend : ∀ t ∈ front, t.isEnd = false)
    (back : List Token) :
    ((∃ t ∈ (substance front).getLast?, t.kind = .semicolon) →
      assignRoles (front ++ back) = assignRoles front ++ assignRoles back ∧
        structuralIssues (front ++ back) = structuralIssues front ++ structuralIssues back) ∧
    ∀ t ∈ (substance back).head?, t.kind.isItemKeyword = true →
      assignRoles (front ++ back) = assignRoles front ++ assignRoles back ∧
        structuralIssues (front ++ back)
          = (structuralIssues front).map (·.foundAt t) ++ structuralIssues back := by
  constructor
  · intro hlast
    exact ⟨assignRoles_append_semicolon hend hlast back,
      structuralIssues_append_semicolon hend hlast back⟩
  · intro t ht hkey
    exact ⟨assignRoles_append_keyword hend ht hkey, structuralIssues_append_keyword hend ht hkey⟩

/-- The tokens of a text without the end of the file. -/
def tokensOfText (text : String) : List Token := (Document.ofText text).tokens.dropLast

/-- A rule breaks off inside a list of arguments, inside a group, under a `!`: once in front of a
keyword, and once at a semicolon that has a comment behind it. -/
theorem separates_samples :
    let broken := tokensOfText "r=!(a<"
    let ended := tokensOfText "r=!(a<; // "
    let back := (Document.ofText " code x:").tokens
    let keyword : Token := .spelled .keywordCode "code" ⟨1, 5⟩ (some .keyword)
    ((∀ t ∈ ended, t.isEnd = false) ∧
      (∃ t ∈ (substance ended).getLast?, t.kind = .semicolon) ∧
      assignRoles (ended ++ back) = assignRoles ended ++ assignRoles back ∧
      structuralIssues (ended ++ back) = structuralIssues ended ++ structuralIssues back) ∧
    (∀ t ∈ broken, t.isEnd = false) ∧
    keyword ∈ (substance back).head? ∧ keyword.kind.isItemKeyword = true ∧
    assignRoles (broken ++ back) = assignRoles broken ++ assignRoles back ∧
    structuralIssues (broken ++ back)
      = (structuralIssues broken).map (·.foundAt keyword) ++ structuralIssues back := by
  intro broken ended back keyword
  have hended : ∀ t ∈ ended, t.isEnd = false := by decide +kernel
  have hlast : ∃ t ∈ (substance ended).getLast?, t.kind = .semicolon :=
    ⟨.spelled .semicolon ";" ⟨6, 7⟩ (some .operator), by decide +kernel, rfl⟩
  have hbroken : ∀ t ∈ broken, t.isEnd = false := by decide +kernel
  have hkeyword : keyword ∈ (substance back).head? := by decide +kernel
  exact ⟨⟨hended, hlast, (separates hended back).1 hlast⟩, hbroken, hkeyword, rfl,
    (separates hbroken back).2 keyword hkeyword rfl⟩

end GrammarPaint
