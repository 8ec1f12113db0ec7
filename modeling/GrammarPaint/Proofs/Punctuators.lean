import GrammarPaint.Proofs.Comments
import GrammarPaint.Proofs.Numbers

/-!
# Punctuators of a document

That a scan of a punctuator takes the longest one is known (`punctuatorForm`).  Here it is said
about tokens, and two things come with it.

A `<` before a global name is cut off in the middle of the longer `<:`.  So it has to be seen that
what is left over is a token of its own: the next one is `::` (`Document.next_of_opensGlobalName`).

And the other way round, what begins like a punctuator in a snippet is one.  The few exceptions are
what is tried before punctuators: comments, numbers, header names, and the brace that closes the
snippet (`Document.isOther_of_begins`).
-/

set_option autoImplicit false
namespace GrammarPaint

section Scans

variable {nesting : Nat} {line : LineState} {c : Char} {w text : List Char} {p : CodePoint}
  {rest : List CodePoint}

/-- What is a punctuator in a snippet comes from the scan of punctuators. -/
theorem scanCode_of_kind (h : (scanCode nesting line c rest).kind = .codePunctuator) :
    scanCode nesting line c rest = scanPunctuator c rest := by
  obtain ⟨kinds, hform⟩ := exists_codeForm nesting line c rest
  have hkind := hform.kind_mem
  rw [h] at hkind
  generalize scanCode nesting line c rest = s at hform ⊢
  cases hform with
  | punctuator => rfl
  | _ => exact absurd hkind (by decide)

/-- What a scan of a punctuator takes of the text. -/
theorem taken_of_isPrefix (h : w <+: (p :: rest).map CodePoint.char) (hw : 0 < w.length) :
    p.char :: (rest.take (w.length - 1)).map CodePoint.char = w := by
  obtain ⟨n, hn⟩ := Nat.exists_eq_add_of_lt hw
  rw [Nat.zero_add] at hn
  rw [hn, Nat.add_sub_cancel, ← List.map_cons, ← List.take_succ_cons, List.map_take, ← hn]
  exact (List.prefix_iff_eq_take.1 h).symm

/-- What begins a punctuator is one by itself, and begins no word, literal or substitution. -/
theorem opening_of_mem_punctuators (hw : w ∈ punctuators) (hc : w.head? = some c) :
    [c] ∈ punctuators ∧ isCodeSpace c = false ∧ isCodeWordStart c = false ∧ c.isDigit = false ∧
      c ≠ '\'' ∧ c ≠ '"' ∧ c ≠ '$' := by
  have hall : (punctuators.all fun w => w.head?.all fun c => punctuators.contains [c] &&
      !isCodeSpace c && !isCodeWordStart c && !c.isDigit && c != '\'' && c != '"' && c != '$')
        = true := by decide
  have hknown := List.all_eq_true.1 hall w hw
  rw [hc] at hknown
  simpa [and_assoc] using hknown

/-- Before a global name, the scan stops behind the first character. -/
theorem more_of_opensGlobalName (h : opensGlobalName (c :: rest.map CodePoint.char) = true) :
    (scanPunctuator c rest).more = 0 := by
  have hform := punctuatorForm c rest
  generalize scanPunctuator c rest = s at hform ⊢
  cases hform with
  | unknown => rfl
  | globalName => rfl
  | longest hnot => exact absurd h (by simp [hnot])

/-- A longest punctuator is `::` where the text begins with it. -/
theorem eq_colons_of_isLongest (h : IsLongest (· ∈ punctuators) w text)
    (hbegins : [':', ':'] <+: text) : w = [':', ':'] := by
  obtain ⟨behind, rfl⟩ := hbegins
  have hw := mem_punctuatorsWith h.holds h.begins
  rw [show punctuatorsWith ':' = [[':', '>'], [':', ':'], [':']] by decide] at hw
  simp only [List.mem_cons, List.not_mem_nil, or_false] at hw
  rcases hw with rfl | rfl | rfl
  · exact absurd h.begins (by simp [List.cons_prefix_cons])
  · rfl
  · exact absurd (h.longest [':', ':'] (by decide) ⟨behind, rfl⟩) (by decide)

end Scans

namespace Document

/-- Whether the text at `offset` begins with a `<` before a global name. -/
def OpensGlobalName (d : Document) (offset : Nat) : Prop :=
  d.Begins offset ['<', ':', ':'] ∧ ¬ d.Begins offset ['<', ':', ':', ':'] ∧
    ¬ d.Begins offset ['<', ':', ':', '>']

/-- What a token in a snippet can be instead of a punctuator, although it begins like one. -/
inductive IsOther (d : Document) (t : Token) : Prop
  | lineComment : t.kind = .codeLineComment → d.Begins t.span.start ['/', '/'] → IsOther d t
  | blockComment : t.kind = .codeBlockComment → d.Begins t.span.start ['/', '*'] → IsOther d t
  | number {c : Char} : t.kind = .codeNumber → c.isDigit = true →
      d.Begins t.span.start ['.', c] → IsOther d t
  | headerName : t.kind = .codeHeaderName → d.Begins t.span.start ['<'] → IsOther d t
  | closing : t.kind = .snippetEnd → d.Begins t.span.start ['\x7d'] → IsOther d t

/-- The punctuators of a document: they are the longest that the text begins with, `<` before `::`
apart, and what begins like one in a snippet is one, or one of a few other things. -/
structure HasPunctuators (d : Document) : Prop where
  member : ∀ t ∈ d.tokens, t.kind = .codePunctuator → (d.text t.span).toList ∈ punctuators
  longest : ∀ t ∈ d.tokens, t.kind = .codePunctuator → ¬ d.OpensGlobalName t.span.start →
    IsLongest (· ∈ punctuators) (d.text t.span).toList (d.textFrom t.span.start)
  globalName : ∀ before t after, d.tokens = before ++ t :: after → t.kind = .codePunctuator →
    d.OpensGlobalName t.span.start → d.text t.span = "<" ∧
      ∃ u, after.head? = some u ∧ u.kind = .codePunctuator ∧ d.text u.span = "::"
  opening : ∀ before t after, d.tokens = before ++ t :: after →
    insideSnippet (before.map d.sight).reverse = true → ∀ w ∈ punctuators, ∀ c, w.head? = some c →
    d.Begins t.span.start [c] → t.kind = .codePunctuator ∨ d.IsOther t

variable {d : Document} {t : Token} {before after : List Token} {v w : List Char} {c e : Char}
  {q : Nat}

theorem Begins.head_eq (h : d.Begins q (c :: w)) (h' : d.Begins q (e :: v)) : c = e := by
  obtain ⟨more, hmore⟩ := h
  obtain ⟨more', hmore'⟩ := h'
  exact (List.cons.inj (hmore.trans hmore'.symm)).1

/-- A punctuator of a document comes from the scan of punctuators, in a snippet. -/
theorem exists_scanned_punctuator (h : d.tokens = before ++ t :: after)
    (hkind : t.kind = .codePunctuator) : ∃ m a p rest, d.Scanned t m a p rest ∧
      m.scan p.char rest = scanPunctuator p.char rest ∧
      insideSnippet (before.map d.sight).reverse = true := by
  obtain ⟨nesting, line, a, p, rest, hscanned, hremembers⟩ :=
    exists_scanned_code h (by rw [hkind]; rfl)
  exact ⟨_, a, p, rest, hscanned, scanCode_of_kind (hscanned.kind_eq.symm.trans hkind),
    hremembers.1⟩

theorem Scanned.opensGlobalName_iff {m : Mode} {a rest : List CodePoint} {p : CodePoint}
    (h : d.Scanned t m a p rest) : d.OpensGlobalName t.span.start ↔
      opensGlobalName (p.char :: rest.map CodePoint.char) = true := by
  rw [OpensGlobalName, h.begins_iff, h.begins_iff, h.begins_iff, opensGlobalName_iff_isPrefix]

/-- **Punctuators are longest matches.** -/
theorem isLongest_of_kind (h : t ∈ d.tokens) (hkind : t.kind = .codePunctuator)
    (hglobal : ¬ d.OpensGlobalName t.span.start) :
    IsLongest (· ∈ punctuators) (d.text t.span).toList (d.textFrom t.span.start) := by
  obtain ⟨before, after, hsplit⟩ := List.append_of_mem h
  obtain ⟨m, a, p, rest, hscanned, hscan, -⟩ := exists_scanned_punctuator hsplit hkind
  have hform := punctuatorForm p.char rest
  have hkind := hscanned.kind_eq.symm.trans hkind
  rw [hscanned.opensGlobalName_iff] at hglobal
  rw [hscanned.toList_text, hscanned.textFrom_eq]
  rw [← hscan] at hform
  generalize m.scan p.char rest = s at hform hkind ⊢
  cases hform with
  | unknown => exact nomatch hkind
  | globalName hopens => exact absurd hopens hglobal
  | longest _ hlongest =>
    rw [Scan.plain, taken_of_isPrefix hlongest.begins (length_punctuator_pos _ hlongest.holds)]
    exact hlongest

/-- **What begins like a punctuator is one**, unless something else is tried before. -/
theorem isOther_of_begins (h : d.tokens = before ++ t :: after)
    (hinside : insideSnippet (before.map d.sight).reverse = true) (hw : w ∈ punctuators)
    (hc : w.head? = some c) (hbegins : d.Begins t.span.start [c]) :
    t.kind = .codePunctuator ∨ d.IsOther t := by
  obtain ⟨hsingle, hspace, hword, hdigit, hquote, hquotes, hdollar⟩ :=
    opening_of_mem_punctuators hw hc
  obtain ⟨nesting, line, a, p, rest, hscanned, -⟩ :=
    exists_scanned_inside h hinside hbegins (List.cons_ne_nil _ _)
  obtain rfl : c = p.char := (List.cons_prefix_cons.1 (hscanned.begins_iff.1 hbegins)).1
  obtain ⟨kinds, hform⟩ := exists_codeForm nesting line p.char rest
  have hkind : t.kind = (scanCode nesting line p.char rest).kind := hscanned.kind_eq
  generalize scanCode nesting line p.char rest = s at hform hkind
  cases hform with
  | space h => exact absurd h (by simp [hspace])
  | header h => exact .inr (.headerName hkind (h.2.resolve_right hquotes ▸ hbegins))
  | word h => exact absurd h (by simp [hword])
  | number h =>
    obtain ⟨e, he, hfirst | hpoint⟩ := hscanned.opensNumber_iff.2 h
    · obtain rfl := hfirst.head_eq hbegins
      exact absurd he (by simp [hdigit])
    · exact .inr (.number hkind he hpoint)
  | comment hslash hcomment =>
    rcases kind_of_scanComment? hcomment with ⟨hblock, hstar⟩ | ⟨hline, hnext⟩
    · exact .inr (.blockComment (hkind.trans hblock) (hscanned.begins_pair hslash hstar))
    · exact .inr (.lineComment (hkind.trans hline) (hscanned.begins_pair hslash hnext))
  | literal h => exact absurd h (by simp [hquote, hquotes])
  | substitution h => exact absurd h hdollar
  | closing h => exact .inr (.closing hkind (h ▸ hbegins))
  | punctuator =>
    have hform := punctuatorForm p.char rest
    generalize scanPunctuator p.char rest = s at hform hkind
    cases hform with
    | unknown hnone => exact absurd (by simp) (hnone [p.char] hsingle)
    | globalName => exact .inl hkind
    | longest => exact .inl hkind

/-- In a snippet, `::` is a punctuator of its own. -/
theorem sight_of_begins (h : d.tokens = before ++ t :: after)
    (hinside : insideSnippet (before.map d.sight).reverse = true)
    (hbegins : d.Begins t.span.start [':', ':']) :
    t.kind = .codePunctuator ∧ d.text t.span = "::" := by
  have hcolon : d.Begins t.span.start [':'] :=
    List.IsPrefix.trans (List.prefix_append [':'] [':']) hbegins
  have hkind : t.kind = .codePunctuator := by
    refine (isOther_of_begins h hinside (w := [':']) (by decide) rfl hcolon).resolve_right ?_
    intro hother
    cases hother with
    | lineComment _ hslash => exact absurd (hslash.head_eq hbegins) (by decide)
    | blockComment _ hslash => exact absurd (hslash.head_eq hbegins) (by decide)
    | number _ _ hpoint => exact absurd (hpoint.head_eq hbegins) (by decide)
    | headerName _ hangle => exact absurd (hangle.head_eq hbegins) (by decide)
    | closing _ hbrace => exact absurd (hbrace.head_eq hbegins) (by decide)
  have hnot : ¬ d.OpensGlobalName t.span.start := fun hopens =>
    absurd (hbegins.head_eq hopens.1) (by decide)
  have hlongest := isLongest_of_kind (by rw [h]; simp) hkind hnot
  exact ⟨hkind, String.toList_inj.1 (eq_colons_of_isLongest hlongest hbegins)⟩

/-- **Behind a `<` that is cut off before a global name, the name begins.** -/
theorem next_of_opensGlobalName (h : d.tokens = before ++ t :: after)
    (hkind : t.kind = .codePunctuator) (hglobal : d.OpensGlobalName t.span.start) :
    d.text t.span = "<" ∧
      ∃ u, after.head? = some u ∧ u.kind = .codePunctuator ∧ d.text u.span = "::" := by
  obtain ⟨m, a, p, rest, hscanned, hscan, hinside⟩ := exists_scanned_punctuator h hkind
  have hmore : (m.scan p.char rest).more = 0 :=
    hscan ▸ more_of_opensGlobalName (hscanned.opensGlobalName_iff.1 hglobal)
  obtain ⟨hp, hname⟩ := List.cons_prefix_cons.1 (hscanned.begins_iff.1 hglobal.1)
  have htext := hscanned.toList_text
  have hstop := hscanned.stop_eq
  rw [hmore] at htext hstop
  refine ⟨String.toList_inj.1 (htext.trans (by rw [← hp]; rfl)), ?_⟩
  obtain ⟨u, back, rfl⟩ := exists_next h (by rw [hkind]; decide)
  have hu : d.tokens = (before ++ [t]) ++ u :: back := by rw [h, List.append_cons]
  have hbegins : d.Begins u.span.start [':', ':'] := by
    have hrest : d.points = (a ++ [p]) ++ rest := by rw [hscanned.points_eq, List.append_cons]
    rw [start_eq_stop h, hstop, List.take_zero, Begins, textFrom_eq hrest]
    exact hname
  have hbehind : insideSnippet ((before ++ [t]).map d.sight).reverse = true := by
    rw [insideSnippet_behind (by simp [hkind]) (by simp [hkind]), hinside]
  exact ⟨u, rfl, sight_of_begins hu hbehind hbegins⟩

/-- **Punctuators of a document are longest matches**, and what begins like one is one. -/
theorem hasPunctuators (d : Document) : d.HasPunctuators where
  member t ht hkind := by
    by_cases hglobal : d.OpensGlobalName t.span.start
    · obtain ⟨before, after, h⟩ := List.append_of_mem ht
      rw [(next_of_opensGlobalName h hkind hglobal).1]
      decide
    · exact (isLongest_of_kind ht hkind hglobal).holds
  longest _ ht hkind hglobal := isLongest_of_kind ht hkind hglobal
  globalName _ _ _ h hkind hglobal := next_of_opensGlobalName h hkind hglobal
  opening _ _ _ h hinside _ hw _ hc hbegins := isOther_of_begins h hinside hw hc hbegins

end Document
end GrammarPaint
