import GrammarPaint.Proofs.Openings

/-!
# Words of a document

Words are runs: they go on as long as there is something a word can go on with.  What such a run is
depends on where it stands.  In grammar text it is one of six keywords or an identifier, and that is
all.  In a snippet a run may also be the front of a literal.  This is settled before the run is
looked up among the reserved words, so a token that is a word is known not to be followed by the
quotes that would have made it something else (`scanCodeWord_of_kind`).

Reserved words are looked up among those of the same length.  As every list of them holds words of
one length only, it does not matter which list a word is in (`isCodeKeyword_iff`).

Spacing is a run as well, and so no spacing stands behind other spacing.
-/

set_option autoImplicit false
namespace GrammarPaint

/-! ## Tables -/

/-- The keywords of grammar text. -/
def grammarKeywords : List (String × TokenKind) :=
  [("EOF", .keywordEof), ("typedef", .keywordTypedef), ("code", .keywordCode),
    ("namespace", .keywordNamespace), ("true", .keywordTrue), ("false", .keywordFalse)]

theorem grammarWordKind_eq (word : String) :
    grammarWordKind word = (grammarKeywords.lookup word).getD .identifier := by
  unfold grammarWordKind
  split
  case h_7 =>
    rename_i heof htypedef hcode hnamespace htrue hfalse
    have hne {key : String} (h : word = key → False) : (word == key) = false := beq_false_of_ne h
    simp only [grammarKeywords, List.lookup_cons, List.lookup_nil, hne heof, hne htypedef, hne hcode,
      hne hnamespace, hne htrue, hne hfalse, Option.getD_none]
  all_goals rfl

/-- The words of one list are of one length. -/
theorem utf8ByteSize_of_mem {n : Nat} {word : String} (h : word ∈ codeKeywordsOfLength n) :
    word.utf8ByteSize = n := by
  revert word
  unfold codeKeywordsOfLength
  split
  case h_16 => exact fun h => absurd h List.not_mem_nil
  all_goals decide

/-- **A word is reserved whatever list it is in.** -/
theorem isCodeKeyword_iff {word : String} :
    isCodeKeyword word = true ↔ ∃ n, word ∈ codeKeywordsOfLength n := by
  rw [isCodeKeyword, List.contains_iff_mem]
  constructor
  · exact fun h => ⟨_, h⟩
  · rintro ⟨n, h⟩
    rwa [utf8ByteSize_of_mem h]

theorem codeWordKind_eq_codeKeyword_iff {word : String} :
    codeWordKind false word = .codeKeyword ↔ ∃ n, word ∈ codeKeywordsOfLength n := by
  rw [← isCodeKeyword_iff, codeWordKind]
  cases isCodeKeyword word <;> simp

/-! ## Scans -/

section Scans

variable {m : Mode} {back : List Sight} {nesting : Nat} {line : LineState} {c : Char}
  {p : CodePoint} {rest : List CodePoint}

/-- What is a word in grammar text comes from the scan of words. -/
theorem scanGrammar_of_kind (h : (scanGrammar c rest).kind ∈ grammarWordKinds) :
    c.isAlpha = true ∧ scanGrammar c rest = scanGrammarWord c rest := by
  obtain ⟨kinds, hform⟩ := exists_grammarForm c rest
  generalize scanGrammar c rest = s at h hform ⊢
  have hkind := hform.kind_mem
  cases hform with
  | word hc => exact ⟨hc, rfl⟩
  | _ => exact absurd hkind ((show ∀ k ∈ grammarWordKinds, k ∉ _ by decide) _ h)

/-- What is a word in a snippet comes from the scan of words. -/
theorem scanCode_of_wordKind (h : (scanCode nesting line c rest).kind = .codeKeyword ∨
    (scanCode nesting line c rest).kind = .codeIdentifier) :
    isCodeWordStart c = true ∧ scanCode nesting line c rest = scanCodeWord line c rest := by
  obtain ⟨kinds, hform⟩ := exists_codeForm nesting line c rest
  generalize scanCode nesting line c rest = s at h hform ⊢
  have hkind := hform.kind_mem
  cases hform with
  | word hc => exact ⟨hc, rfl⟩
  | _ => rcases h with h | h <;> rw [h] at hkind <;> exact absurd hkind (by decide)

theorem not_word_scanLiteral (before : Nat) (quote : Char) (body : List CodePoint) :
    ¬ ((scanLiteral before quote body).kind = .codeKeyword ∨
      (scanLiteral before quote body).kind = .codeIdentifier) := by
  rcases kind_scanLiteral before quote body with h | h <;> simp [h]

theorem not_word_scanRawLiteral (before : Nat) (body : List CodePoint) :
    ¬ ((scanRawLiteral before body).kind = .codeKeyword ∨
      (scanRawLiteral before body).kind = .codeIdentifier) := by
  rcases kind_scanRawLiteral before body with h | h | h <;> simp [h]

/-- What is a word is all of the run. -/
theorem more_scanCodeWord (h : (scanCodeWord line p.char rest).kind = .codeKeyword ∨
    (scanCodeWord line p.char rest).kind = .codeIdentifier) :
    (scanCodeWord line p.char rest).more = runLength isWordPart rest := by
  rcases scanCodeWord_cases line p rest with ⟨k, -, hscan⟩ | ⟨c, -, -, -, hscan⟩ | ⟨-, -, hscan⟩ <;>
    rw [hscan] at h ⊢
  · rfl
  · exact absurd h (not_word_scanLiteral _ _ _)
  · exact absurd h (not_word_scanRawLiteral _ _)

/-- **A word is looked up only if it is no part of a literal.** -/
theorem scanCodeWord_of_kind (hline : line ≠ .afterPound)
    (h : (scanCodeWord line p.char rest).kind = .codeKeyword ∨
      (scanCodeWord line p.char rest).kind = .codeIdentifier) :
    let word := spell (p :: rest.take (runLength isWordPart rest))
    let behind := rest.drop (runLength isWordPart rest)
    (scanCodeWord line p.char rest).kind = codeWordKind false word ∧
      (word ∈ encodingMarks → beginsWith '\'' behind = false ∧ beginsWith '"' behind = false) ∧
      (word.toList.getLast? = some 'R' → beginsWith '"' behind = false) := by
  intro word behind
  have hletters : word.toList
      = p.char :: (rest.take (runLength isWordPart rest)).map CodePoint.char := String.toList_ofList
  rw [hletters]
  rw [scanCodeWord, if_neg hline] at h ⊢
  split at h
  · exact absurd h (not_word_scanLiteral _ _ _)
  · rename_i hquote
    split at h
    · exact absurd h (not_word_scanLiteral _ _ _)
    · rename_i hquotes
      split at h
      · exact absurd h (not_word_scanRawLiteral _ _)
      · rename_i hraw
        rw [if_neg hquote, if_neg hquotes, if_neg hraw]
        rw [Bool.and_eq_true, List.contains_iff_mem] at hquote hquotes
        rw [Bool.and_eq_true, beq_iff_eq] at hraw
        simp only [← Bool.not_eq_true]
        exact ⟨rfl, fun hmark => ⟨fun h => hquote ⟨h, hmark⟩, fun h => hquotes ⟨h, hmark⟩⟩,
          fun hlast h => hraw ⟨h, hlast⟩⟩

/-- The spacing of a mode. -/
def Mode.isSpace : Mode → Char → Bool
  | grammar => isGrammarSpace
  | snippet .. => isCodeSpace

theorem Mode.isAscii_isSpace (m : Mode) : IsAscii m.isSpace := by
  cases m with
  | grammar => exact isAscii_isGrammarSpace
  | snippet nesting state => exact isAscii_isCodeSpace

theorem Mode.Remembers.isSpace_eq (h : m.Remembers back) :
    m.isSpace = if insideSnippet back then isCodeSpace else isGrammarSpace := by
  rw [h.insideSnippet_eq]
  cases m <;> rfl

/-- Spacing is a run. -/
theorem scan_of_whitespace (h : (m.scan c rest).kind = .whitespace) :
    m.isSpace c = true ∧ (m.scan c rest).more = runLength m.isSpace rest := by
  cases m with
  | grammar =>
    obtain ⟨kinds, hform⟩ := exists_grammarForm c rest
    rw [Mode.scan] at h ⊢
    generalize scanGrammar c rest = s at h hform ⊢
    have hkind := hform.kind_mem
    rw [h] at hkind
    cases hform with
    | space hc => exact ⟨hc, rfl⟩
    | _ => exact absurd hkind (by decide)
  | snippet nesting state =>
    obtain ⟨kinds, hform⟩ := exists_codeForm nesting state c rest
    rw [Mode.scan] at h ⊢
    generalize scanCode nesting state c rest = s at h hform ⊢
    have hkind := hform.kind_mem
    rw [h] at hkind
    cases hform with
    | space hc => exact ⟨hc, rfl⟩
    | _ => exact absurd hkind (by decide)

end Scans

/-! ## Tokens -/

namespace Document

/-- Whether a token is a word that begins with a character of class `start`: nothing behind it is
what a word goes on with. -/
structure IsWord (d : Document) (t : Token) (start : Char → Bool) : Prop where
  spelled : ∃ c w, (d.text t.span).toList = c :: w ∧ start c = true ∧ ∀ e ∈ w, isWordPart e = true
  ends : ¬ d.Reads isWordPart t.span.stop

/-- Whether a token is a keyword exactly if its word is reserved, and no part of a literal. -/
structure IsLookedUp (d : Document) (t : Token) : Prop where
  keyword : t.kind = .codeKeyword ↔ ∃ n, d.text t.span ∈ codeKeywordsOfLength n
  mark : d.text t.span ∈ literalMarks →
    d.charAt? t.span.stop ≠ some '\'' ∧ d.charAt? t.span.stop ≠ some '"'
  raw : (d.text t.span).toList.getLast? = some 'R' → d.charAt? t.span.stop ≠ some '"'

/-- The words of a document, and its spacing. -/
structure HasWords (d : Document) : Prop where
  name : ∀ t ∈ d.tokens, t.kind = .identifier ∨ t.kind = .codeIdentifier →
    t.name = some (d.text t.span)
  grammarWord : ∀ t ∈ d.tokens, t.kind ∈ grammarWordKinds → d.IsWord t Char.isAlpha ∧
    t.kind = (grammarKeywords.lookup (d.text t.span)).getD .identifier
  codeWord : ∀ t ∈ d.tokens, t.kind = .codeKeyword ∨ t.kind = .codeIdentifier →
    d.IsWord t isCodeWordStart
  lookedUp : ∀ before t after, d.tokens = before ++ t :: after →
    behindPound (before.map d.sight).reverse = false →
    t.kind = .codeKeyword ∨ t.kind = .codeIdentifier → d.IsLookedUp t
  spacing : ∀ before t u after, d.tokens = before ++ t :: u :: after →
    t.kind = .whitespace → u.kind ≠ .whitespace

variable {d : Document} {t : Token} {before after : List Token}

section Scanned

variable {m : Mode} {a rest : List CodePoint} {p : CodePoint} {f : Char → Bool}

/-- Behind a run stands nothing of its class. -/
theorem Scanned.not_reads_stop (h : d.Scanned t m a p rest) (hf : IsAscii f)
    (hmore : (m.scan p.char rest).more = runLength f rest) : ¬ d.Reads f t.span.stop := by
  have hrest : d.points = (a ++ [p]) ++ rest := by rw [h.points_eq, List.append_cons]
  rw [h.stop_eq, hmore, List.append_cons]
  exact (isLeast_runLength hrest hf).1.2

theorem Scanned.charAt?_stop (h : d.Scanned t m a p rest) {c : Char} (hc : c.toNat < 0x80) :
    d.charAt? t.span.stop = some c ↔
      beginsWith c (rest.drop (m.scan p.char rest).more) = true := by
  rw [h.stop_eq, charAt?_behind h.points_eq_append hc]

theorem Scanned.isWord (h : d.Scanned t m a p rest) (hf : f p.char = true)
    (hmore : (m.scan p.char rest).more = runLength isWordPart rest) : d.IsWord t f where
  spelled := by
    refine ⟨p.char, _, h.toList_text, hf, fun e he => ?_⟩
    rw [hmore, take_runLength] at he
    obtain ⟨q, hq, rfl⟩ := List.mem_map.1 he
    exact List.all_eq_true.1 List.all_takeWhile q hq
  ends := h.not_reads_stop isAscii_isWordPart hmore

end Scanned

/-- **Names are the text of their tokens.** -/
theorem name_eq_some (h : t ∈ d.tokens) (hname : t.kind.isName = true) :
    t.name = some (d.text t.span) := by
  obtain ⟨before, after, hsplit⟩ := List.append_of_mem h
  rcases exists_split_of_tokens hsplit with rfl | ⟨front, l, back, hls, -, rfl, -⟩
  · exact nomatch hname
  · have htext := congrArg Prod.snd (sight_token_of_lexemes hls)
    exact (if_pos hname).trans (congrArg some htext.symm)

/-- **Words of grammar text are keywords or identifiers by their spelling.** -/
theorem isWord_of_mem_grammarWordKinds (h : t ∈ d.tokens) (hkind : t.kind ∈ grammarWordKinds) :
    d.IsWord t Char.isAlpha ∧
      t.kind = (grammarKeywords.lookup (d.text t.span)).getD .identifier := by
  have hall : ∀ k ∈ grammarWordKinds, k ≠ .endOfFile ∧ k ≠ .whitespace ∧ k.isCode = false := by
    decide
  obtain ⟨hend, hspace, hcode⟩ := hall _ hkind
  obtain ⟨a, p, rest, hscanned⟩ := exists_scanned_grammar h hend hspace hcode
  obtain ⟨halpha, hscan⟩ := scanGrammar_of_kind (hscanned.kind_eq ▸ hkind)
  have hmore : (Mode.grammar.scan p.char rest).more = runLength isWordPart rest := by
    rw [Mode.scan, hscan]
    rfl
  refine ⟨hscanned.isWord halpha hmore, ?_⟩
  rw [hscanned.kind_eq, hscanned.text_eq, hmore, ← grammarWordKind_eq, Mode.scan, hscan]
  rfl

/-- A word of code comes from the scan of words. -/
theorem exists_scanned_word (h : d.tokens = before ++ t :: after)
    (hkind : t.kind = .codeKeyword ∨ t.kind = .codeIdentifier) : ∃ line m a p rest,
      d.Scanned t m a p rest ∧ line = lineState (before.map d.sight).reverse ∧
        isCodeWordStart p.char = true ∧ m.scan p.char rest = scanCodeWord line p.char rest := by
  obtain ⟨nesting, line, a, p, rest, hscanned, hremembers⟩ :=
    exists_scanned_code h (by rcases hkind with h | h <;> rw [h] <;> rfl)
  rw [hscanned.kind_eq] at hkind
  exact ⟨line, _, a, p, rest, hscanned, hremembers.2, scanCode_of_wordKind hkind⟩

theorem isWord_of_codeWord (h : t ∈ d.tokens)
    (hkind : t.kind = .codeKeyword ∨ t.kind = .codeIdentifier) : d.IsWord t isCodeWordStart := by
  obtain ⟨before, after, hsplit⟩ := List.append_of_mem h
  obtain ⟨line, m, a, p, rest, hscanned, -, hstart, hscan⟩ := exists_scanned_word hsplit hkind
  rw [hscanned.kind_eq, hscan] at hkind
  exact hscanned.isWord hstart (by rw [hscan, more_scanCodeWord hkind])

/-- **Words of code are looked up among the reserved words**, unless they are behind a `#`. -/
theorem isLookedUp (h : d.tokens = before ++ t :: after)
    (hpound : behindPound (before.map d.sight).reverse = false)
    (hkind : t.kind = .codeKeyword ∨ t.kind = .codeIdentifier) : d.IsLookedUp t := by
  obtain ⟨line, m, a, p, rest, hscanned, hstate, -, hscan⟩ := exists_scanned_word h hkind
  have hline : line ≠ .afterPound := fun heq => by
    rw [(lineState_iff _).2.1.2 (hstate.symm.trans heq)] at hpound
    exact nomatch hpound
  rw [hscanned.kind_eq, hscan] at hkind
  obtain ⟨hword, hmark, hraw⟩ := scanCodeWord_of_kind hline hkind
  have hmore : (m.scan p.char rest).more = runLength isWordPart rest := by
    rw [hscan, more_scanCodeWord hkind]
  rw [← hmore, ← hscanned.text_eq] at hword hmark hraw
  have hbehind {c : Char} (hc : c.toNat < 0x80)
      (hnot : beginsWith c (rest.drop (m.scan p.char rest).more) = false) :
      d.charAt? t.span.stop ≠ some c := by
    rw [ne_eq, hscanned.charAt?_stop hc, hnot]
    exact Bool.false_ne_true
  refine ⟨?_, fun h => ?_, fun h => hbehind (by decide) (hraw h)⟩
  · rw [hscanned.kind_eq, hscan, hword, codeWordKind_eq_codeKeyword_iff]
  · have hquotes := hmark (mem_encodingMarks_iff.2 h)
    exact ⟨hbehind (by decide) hquotes.1, hbehind (by decide) hquotes.2⟩

/-- **Spacing is all of the spacing there is.** -/
theorem kind_ne_whitespace {u : Token} (h : d.tokens = before ++ t :: u :: after)
    (ht : t.kind = .whitespace) : u.kind ≠ .whitespace := by
  intro hu
  have hsplit : d.tokens = (before ++ [t]) ++ u :: after := by rw [h, List.append_cons]
  obtain ⟨m, a, p, rest, hscanned, hremembers⟩ := exists_scanned h (by rw [ht]; decide)
  obtain ⟨m', a', p', rest', hscanned', hremembers'⟩ := exists_scanned hsplit (by rw [hu]; decide)
  -- both are in the same kind of text
  have hsame : m'.isSpace = m.isSpace := by
    rw [hremembers.isSpace_eq, hremembers'.isSpace_eq,
      insideSnippet_behind (by simp [ht]) (by simp [ht])]
  obtain ⟨-, hmore⟩ := scan_of_whitespace (hscanned.kind_eq.symm.trans ht)
  obtain ⟨hspace, -⟩ := scan_of_whitespace (hscanned'.kind_eq.symm.trans hu)
  refine hscanned.not_reads_stop m.isAscii_isSpace hmore ?_
  rw [← start_eq_stop h, hscanned'.start_eq, reads_here hscanned'.points_eq m.isAscii_isSpace,
    ← hsame, hspace]

/-- **Words of a document are as long as they can be, and are told apart by their spelling.** -/
theorem hasWords (d : Document) : d.HasWords where
  name t ht hkind := name_eq_some ht (by rcases hkind with h | h <;> rw [h] <;> rfl)
  grammarWord _ ht hkind := isWord_of_mem_grammarWordKinds ht hkind
  codeWord _ ht hkind := isWord_of_codeWord ht hkind
  lookedUp _ _ _ h hpound hkind := isLookedUp h hpound hkind
  spacing _ _ _ _ h ht := kind_ne_whitespace h ht

end Document
end GrammarPaint
