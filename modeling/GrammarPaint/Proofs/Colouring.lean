import GrammarPaint.Lexeme.Scanner
import GrammarPaint.Proofs.ItemTree
import GrammarPaint.Proofs.Painting
import GrammarPaint.Proofs.Parts

/-!
# Well-formed files are painted by role

A file that is spelled by trees is painted as the trees say (`assignRoles_of_coloured_items`).

The proof follows the trees.  `Colours parts cs ws` says that parts on top of any stack turn
coloured words `cs`, which stand before `ws`, into their colours, and are then used up.  It is
built as a tree is: a part takes a word, a part is skipped, or parts follow one another.
-/

set_option autoImplicit false
namespace GrammarPaint

open ColouredWord

/-! ## Parts that paint -/

/-- The words of coloured words. -/
def wordsOf (cs : List ColouredWord) : List Word := cs.map Prod.fst

/-- The verdicts that paint words in their colours, in front of a reading of what follows. -/
def paintThen (cs : List ColouredWord) (read : List Verdict × Reading) :
    List Verdict × Reading :=
  (cs.map (fun c => ⟨c.2, none⟩) ++ read.1, read.2)

/-- Whether `parts` paint coloured words that stand before `ws`, and are used up by them. -/
def Colours (parts : List Part) (cs : List ColouredWord) (ws : List Word) : Prop :=
  ∀ stack, (Reading.expecting (parts ++ stack)).read (wordsOf cs ++ ws)
    = paintThen cs ((Reading.expecting stack).read ws)

theorem wordsOf_cons (c : ColouredWord) (cs : List ColouredWord) :
    wordsOf (c :: cs) = c.1 :: wordsOf cs := rfl

theorem wordsOf_append (cs ds : List ColouredWord) :
    wordsOf (cs ++ ds) = wordsOf cs ++ wordsOf ds := List.map_append

theorem paintThen_append (cs ds : List ColouredWord) (read : List Verdict × Reading) :
    paintThen (cs ++ ds) read = paintThen cs (paintThen ds read) := by
  simp [paintThen]

theorem read_skip {part : Part} {parts : List Part} {w : Word} {ws : List Word}
    (h : part.moveAt w.kind = .skip) :
    (Reading.expecting (part :: parts)).read (w :: ws)
      = (Reading.expecting parts).read (w :: ws) := by
  simp only [Reading.read, Reading.step, settle, move_eq_skip_iff.2 h]

theorem read_take {part : Part} {parts taken : List Part} {paint : Paint} {w : Word}
    {ws : List Word} (h : part.move w (firstKind ws) = .take paint taken) :
    (Reading.expecting (part :: parts)).read (w :: ws)
      = paintThen [(w, paint)] ((Reading.expecting (taken ++ parts)).read ws) := by
  simp only [Reading.read, Reading.step, settle, h]
  rfl

theorem colours_nil (ws : List Word) : Colours [] [] ws := fun _ => rfl

theorem Colours.append {a b : List Part} {cs ds : List ColouredWord} {ws : List Word}
    (ha : Colours a cs (wordsOf ds ++ ws)) (hb : Colours b ds ws) :
    Colours (a ++ b) (cs ++ ds) ws := by
  intro stack
  rw [wordsOf_append, List.append_assoc, List.append_assoc, ha, hb, paintThen_append]

theorem Colours.take {part : Part} {parts taken : List Part} {c : ColouredWord}
    {cs : List ColouredWord} {ws : List Word}
    (h : part.move c.1 (firstKind (wordsOf cs ++ ws)) = .take c.2 taken)
    (hcs : Colours (taken ++ parts) cs ws) : Colours (part :: parts) (c :: cs) ws := by
  intro stack
  rw [wordsOf_cons, List.cons_append, List.cons_append, read_take h, ← List.append_assoc, hcs,
    ← paintThen_append]
  rfl

/-- A part is skipped in front of a word it has no use for. -/
theorem Colours.skip {part : Part} {parts : List Part} {cs : List ColouredWord} {w : Word}
    {ws ws' : List Word} (hw : wordsOf cs ++ ws = w :: ws') (h : part.moveAt w.kind = .skip)
    (hcs : Colours parts cs ws) : Colours (part :: parts) cs ws := by
  intro stack
  rw [← hcs, List.cons_append, hw, read_skip h]

/-- A part that takes one word and nothing more. -/
theorem colours_one {part : Part} {c : ColouredWord} {ws : List Word}
    (h : part.move c.1 (firstKind ws) = .take c.2 []) : Colours [part] [c] ws :=
  .take h (colours_nil ws)

theorem colours_skipped {part : Part} {w : Word} {ws : List Word}
    (h : part.moveAt w.kind = .skip) : Colours [part] [] (w :: ws) :=
  .skip rfl h (colours_nil _)

/-! ## Names, lists and bindings -/

theorem colours_pathMore (context : Context) (names : List String) {w : Word}
    {ws : List Word} (hw : w.kind ≠ .doubleColon) :
    Colours [.pathMore context]
      (names.flatMap fun name => [colons, named name .codeIdentifier]) (w :: ws) := by
  induction names with
  | nil => exact colours_skipped ((unpainted_optional ..).trans (if_neg hw))
  | cons name names ih => exact .take rfl (.take rfl ih)

theorem colours_path (context : Context) (q : QualifiedName) {w : Word} {ws : List Word}
    (hw : w.kind ≠ .doubleColon) : Colours (path context) q.coloured (w :: ws) :=
  .take rfl (colours_pathMore context q.more hw)

/-- What a list between angle brackets goes on with behind an entry. -/
def entriesTail (entries : List (List ColouredWord)) : List ColouredWord :=
  entries.flatMap (plain .comma :: ·) ++ [plain .rightAngle]

theorem bracketed_cons (entry : List ColouredWord) (entries : List (List ColouredWord)) :
    bracketed (entry :: entries) = plain .leftAngle :: (entry ++ entriesTail entries) := by
  simp [bracketed, entriesTail]

theorem entriesTail_cons (entry : List ColouredWord) (entries : List (List ColouredWord)) :
    entriesTail (entry :: entries) = plain .comma :: (entry ++ entriesTail entries) := by
  simp [entriesTail]

theorem colours_parameters (p : Parameter) (ps : List Parameter) (ws : List Word) :
    Colours [.parameter] (p.coloured ++ entriesTail (ps.map Parameter.coloured)) ws := by
  have htail : ∀ part, part = .moreParameters ∨ part = .parameterColon →
      Colours [part] (entriesTail (ps.map Parameter.coloured)) ws := by
    intro part hpart
    match ps with
    | [] => rcases hpart with rfl | rfl <;> exact colours_one rfl
    | q :: more =>
      rw [List.map_cons, entriesTail_cons]
      rcases hpart with rfl | rfl <;> exact .take rfl (colours_parameters q more ws)
  cases p with
  | truth value => cases value <;> exact .take rfl (htail _ (.inl rfl))
  | named name type =>
    cases type with
    | none => exact .take rfl (htail _ (.inr rfl))
    | some type => exact .take rfl (.take rfl (.take rfl (htail _ (.inl rfl))))

theorem colours_arguments (a : Argument) (as : List Argument) (ws : List Word) :
    Colours [.argument] (a.coloured ++ entriesTail (as.map Argument.coloured)) ws := by
  have htail : Colours [.moreArguments] (entriesTail (as.map Argument.coloured)) ws := by
    match as with
    | [] => exact colours_one rfl
    | b :: more =>
      rw [List.map_cons, entriesTail_cons]
      exact .take rfl (colours_arguments b more ws)
  cases a with
  | truth value => cases value <;> exact .take rfl htail
  | named name => exact .take rfl htail

theorem colours_binding (negated : Bool) (name : Option String) {w : Word} {ws : List Word}
    (hw : w.kind ≠ .colon) :
    Colours [.bindingColon negated] (colouredBinding negated name) (w :: ws) := by
  cases name with
  | none => exact colours_skipped ((unpainted_optional ..).trans (if_neg hw))
  | some name => exact .take rfl (colours_one rfl)

theorem colours_marks (ms : List Mark) {w : Word} {ws : List Word} (hw : isMark w.kind = false) :
    Colours [.repetition] (ms.map (plain ·.kind)) (w :: ws) := by
  induction ms with
  | nil =>
    exact colours_skipped (moveAt_repetition_of_not_isMark hw)
  | cons m ms ih => cases m <;> exact .take rfl ih

theorem colours_bracketed_parameters (ps : List Parameter) {w : Word} {ws : List Word}
    (hw : w.kind ≠ .leftAngle) :
    Colours [.parameters] (bracketed (ps.map Parameter.coloured)) (w :: ws) := by
  cases ps with
  | nil => exact colours_skipped ((unpainted_optional ..).trans (if_neg hw))
  | cons p ps =>
    rw [List.map_cons, bracketed_cons]
    exact .take rfl (colours_parameters p ps _)

theorem colours_bracketed_arguments (as : List Argument) {w : Word} {ws : List Word}
    (hw : w.kind ≠ .leftAngle) :
    Colours [.arguments] (bracketed (as.map Argument.coloured)) (w :: ws) := by
  cases as with
  | nil => exact colours_skipped ((unpainted_optional ..).trans (if_neg hw))
  | cons a as =>
    rw [List.map_cons, bracketed_cons]
    exact .take rfl (colours_arguments a as _)

/-! ## Expressions -/

/-- What a phrase of each level can stand in front of in a well-formed file. -/
def Level.CanPrecede : Level → TokenKind → Prop
  | .term, k => k ≠ .leftAngle ∧ k ≠ .colon
  | .moreTerms, k | .sequence, k => k = .slash ∨ k = .rightParen ∨ k = .semicolon
  | .moreAlternatives, k | .expression, k => k = .rightParen ∨ k = .semicolon

theorem canPrecede_term_of_isMark {k : TokenKind} (h : isMark k = true) :
    Level.CanPrecede .term k := by
  constructor <;> rintro rfl <;> exact nomatch h

theorem canPrecede_term_of_beginsTerm {k : TokenKind} (h : beginsTerm k = true) :
    Level.CanPrecede .term k := by
  constructor <;> rintro rfl <;> exact nomatch h

theorem canPrecede_term_of_sequence {k : TokenKind} (h : Level.CanPrecede .sequence k) :
    Level.CanPrecede .term k := by
  rcases h with rfl | rfl | rfl <;> exact ⟨by simp, by simp⟩

theorem not_isMark_of_beginsTerm {k : TokenKind} (h : beginsTerm k = true) : isMark k = false := by
  cases k <;> first | rfl | simp [beginsTerm] at h

theorem not_isMark_of_sequence {k : TokenKind} (h : Level.CanPrecede .sequence k) :
    isMark k = false := by
  rcases h with rfl | rfl | rfl <;> rfl

theorem moveAt_moreTerms_of_sequence {negated : Bool} {k : TokenKind}
    (h : Level.CanPrecede .sequence k) : (Part.moreTerms negated).moveAt k = .skip := by
  rcases h with rfl | rfl | rfl <;> rfl

/-- Further terms are read like a first one that has something to go on with. -/
theorem Colours.moreTerms {negated : Bool} {c : ColouredWord} {cs : List ColouredWord}
    {ws : List Word} (hc : beginsTerm c.1.kind = true)
    (h : Colours [.term negated, .repetition, .moreTerms negated] (c :: cs) ws) :
    Colours [.moreTerms negated] (c :: cs) ws := by
  intro stack
  obtain ⟨paint, taken, hmove⟩ := exists_move_term (firstKind (wordsOf cs ++ ws)) hc
  rw [← h]
  refine (read_take (move_moreTerms_of_term hmove)).trans ?_
  refine Eq.trans ?_ (read_take hmove).symm
  rw [List.append_assoc]
  rfl

/-- What an opening parenthesis stands before is read like an expression. -/
theorem Colours.group {negated : Bool} {c : ColouredWord} {cs : List ColouredWord}
    {ws : List Word} (hc : beginsTerm c.1.kind = true)
    (h : Colours (expression negated ++ [.groupEnd]) (c :: cs) ws) :
    Colours [.group negated] (c :: cs) ws := by
  intro stack
  obtain ⟨paint, taken, hmove⟩ := exists_move_term (firstKind (wordsOf cs ++ ws)) hc
  rw [← h]
  refine (read_take (move_group_of_term hmove)).trans ?_
  refine Eq.trans ?_ (read_take hmove).symm
  rw [List.append_assoc]
  rfl

namespace Tree

/-- A term, a sequence and an expression have a first word, and it begins a term. -/
theorem exists_coloured_eq_cons {level : Level} (t : Tree level) (negated : Bool)
    (hlevel : level = .term ∨ level = .sequence ∨ level = .expression) :
    ∃ c cs, t.coloured negated = c :: cs ∧ beginsTerm c.1.kind = true := by
  induction t with
  | lastTerm | anotherTerm | lastAlternative | anotherAlternative => simp at hlevel
  | sequence first _ _ ih | expression first _ ih =>
    obtain ⟨c, cs, hcs, hc⟩ := ih (by simp)
    simp only [coloured, hcs, List.cons_append]
    exact ⟨c, _, rfl, hc⟩
  | _ => exact ⟨_, _, rfl, rfl⟩

theorem isSnippet_iff (t : Tree .term) (negated : Bool) (ws : List Word) :
    firstKind (wordsOf (t.coloured negated) ++ ws) = .snippetStart ↔ t.isSnippet = true := by
  cases t <;> simp [coloured, wordsOf, firstKind, isSnippet, plain, named]

/-- Behind a term come marks, another term, or what the sequence stands in front of. -/
theorem exists_more_eq_cons (more : Tree .moreTerms) (negated : Bool) (w : Word)
    (ws : List Word) :
    ∃ v vs, wordsOf (more.coloured negated) ++ w :: ws = v :: vs ∧
      (beginsTerm v.kind = true ∨ v = w) := by
  cases more with
  | lastTerm => exact ⟨w, ws, rfl, .inr rfl⟩
  | anotherTerm first marks more =>
    obtain ⟨c, cs, hcs, hc⟩ := first.exists_coloured_eq_cons negated (.inl rfl)
    simp only [coloured, hcs, List.cons_append, wordsOf_cons]
    exact ⟨_, _, rfl, .inl hc⟩

theorem exists_marks_eq_cons (ms : List Mark) (v : Word) (vs : List Word) :
    ∃ u us, wordsOf (ms.map (plain ·.kind)) ++ v :: vs = u :: us ∧
      (isMark u.kind = true ∨ u = v) := by
  cases ms with
  | nil => exact ⟨v, vs, rfl, .inr rfl⟩
  | cons m ms => exact ⟨_, _, rfl, .inl (by cases m <;> rfl)⟩

theorem exists_alternatives_eq_cons (more : Tree .moreAlternatives) (negated : Bool) {w : Word}
    (hw : Level.CanPrecede .expression w.kind) (ws : List Word) :
    ∃ v vs, wordsOf (more.coloured negated) ++ w :: ws = v :: vs ∧
      Level.CanPrecede .sequence v.kind := by
  cases more with
  | lastAlternative => exact ⟨w, ws, rfl, .inr hw⟩
  | anotherAlternative => exact ⟨_, _, rfl, .inl rfl⟩

end Tree

theorem exists_binding_eq_cons (negated : Bool) (name : Option String) {w : Word}
    (hw : Level.CanPrecede .term w.kind) (ws : List Word) :
    ∃ v vs, wordsOf (colouredBinding negated name) ++ w :: ws = v :: vs ∧
      v.kind ≠ .leftAngle := by
  cases name with
  | none => exact ⟨w, ws, rfl, hw.1⟩
  | some name => exact ⟨_, _, rfl, by simp [plain]⟩

theorem colours_reference (negated : Bool) (as : List Argument) (name : Option String) {w : Word}
    (hw : Level.CanPrecede .term w.kind) (ws : List Word) :
    Colours [.arguments, .bindingColon negated]
      (bracketed (as.map Argument.coloured) ++ colouredBinding negated name) (w :: ws) := by
  obtain ⟨v, vs, hv, hvkind⟩ := exists_binding_eq_cons negated name hw ws
  refine Colours.append (a := [.arguments]) ?_ (colours_binding negated name hw.2)
  rw [hv]
  exact colours_bracketed_arguments as hvkind

/-- A sequence, and what the expression goes on with. -/
theorem colours_alternatives {negated : Bool} {first : Tree .sequence}
    {more : Tree .moreAlternatives} {w : Word} {ws : List Word}
    (hw : Level.CanPrecede .expression w.kind)
    (hfirst : ∀ {v : Word} {vs : List Word}, Level.CanPrecede .sequence v.kind →
      Colours (Level.parts negated .sequence) (first.coloured negated) (v :: vs))
    (hmore : Colours [.moreAlternatives negated] (more.coloured negated) (w :: ws)) :
    Colours (expression negated) (first.coloured negated ++ more.coloured negated) (w :: ws) := by
  obtain ⟨v, vs, hv, hvkind⟩ := more.exists_alternatives_eq_cons negated hw ws
  refine Colours.append (a := Level.parts negated .sequence) ?_ hmore
  rw [hv]
  exact hfirst hvkind

/-- A term with marks behind it, and what the sequence goes on with. -/
theorem colours_terms {negated : Bool} {first : Tree .term} {more : Tree .moreTerms}
    (ms : List Mark) {w : Word} (ws : List Word) (hw : Level.CanPrecede .sequence w.kind)
    (hfirst : ∀ {u : Word} {us : List Word}, Level.CanPrecede .term u.kind →
      Colours [.term negated] (first.coloured negated) (u :: us))
    (hmore : Colours [.moreTerms negated] (more.coloured negated) (w :: ws)) :
    Colours [.term negated, .repetition, .moreTerms negated]
      (first.coloured negated ++ ms.map (plain ·.kind) ++ more.coloured negated) (w :: ws) := by
  obtain ⟨v, vs, hv, hvkind⟩ := more.exists_more_eq_cons negated w ws
  obtain ⟨u, us, hu, hukind⟩ := Tree.exists_marks_eq_cons ms v vs
  have hvterm : Level.CanPrecede .term v.kind ∧ isMark v.kind = false := by
    rcases hvkind with hv | rfl
    · exact ⟨canPrecede_term_of_beginsTerm hv, not_isMark_of_beginsTerm hv⟩
    · exact ⟨canPrecede_term_of_sequence hw, not_isMark_of_sequence hw⟩
  have huterm : Level.CanPrecede .term u.kind := by
    rcases hukind with hu | rfl
    · exact canPrecede_term_of_isMark hu
    · exact hvterm.1
  have hmarks : Colours [.repetition] (ms.map (plain ·.kind)) (v :: vs) :=
    colours_marks ms hvterm.2
  rw [List.append_assoc]
  refine Colours.append (a := [.term negated]) ?_ (Colours.append (a := [.repetition]) ?_ hmore)
  · rw [wordsOf_append, List.append_assoc, hv, hu]
    exact hfirst huterm
  · rw [hv]
    exact hmarks

/-- **Every tree is painted in its colours**, whatever comes below its parts in the stack. -/
theorem colours_tree {level : Level} (t : Tree level) (negated : Bool) {w : Word}
    {ws : List Word} (hw : level.CanPrecede w.kind) :
    Colours (level.parts negated) (t.coloured negated) (w :: ws) := by
  induction t generalizing negated w ws with
  | emptyGroup => exact .take rfl (.take rfl (colours_nil _))
  | group body ih =>
    have hbody : Colours (expression negated) (body.coloured negated)
        (wordsOf [plain .rightParen] ++ w :: ws) := ih negated (.inl rfl)
    have hclose : Colours [.groupEnd] [plain .rightParen] (w :: ws) := colours_one rfl
    obtain ⟨c, cs, hcs, hc⟩ := body.exists_coloured_eq_cons negated (by simp)
    have hgroup := Colours.append hbody hclose
    rw [hcs, List.cons_append] at hgroup
    rw [Tree.coloured, hcs]
    exact .take rfl (hgroup.group hc)
  | reference name arguments binding =>
    exact .take rfl (colours_reference negated arguments binding hw ws)
  | keywordEof | string => exact colours_one rfl
  | snippet => exact colours_one rfl
  | characterClass binding => exact .take rfl (colours_binding negated binding hw.2)
  | ampersand body ih =>
    have hbody : Colours ([.term negated] ++ []) (body.coloured negated) (w :: ws) :=
      ih negated hw
    refine .take ?_ hbody
    rw [Part.move, Word.asTerm]
    simp only [body.isSnippet_iff]
  | bang body ih => exact .take rfl (ih true hw)
  | lastTerm => exact colours_skipped (moveAt_moreTerms_of_sequence hw)
  | anotherTerm first ms more ih ihmore =>
    have hterms := colours_terms ms ws hw (ih negated) (ihmore negated hw)
    obtain ⟨c, cs, hcs, hc⟩ := first.exists_coloured_eq_cons negated (.inl rfl)
    rw [hcs, List.cons_append, List.cons_append] at hterms
    rw [Tree.coloured, hcs]
    exact hterms.moreTerms hc
  | sequence first ms more ih ihmore =>
    exact colours_terms ms ws hw (ih negated) (ihmore negated hw)
  | lastAlternative =>
    refine colours_skipped ((unpainted_optional ..).trans (if_neg ?_))
    rcases hw with h | h <;> simp [h]
  | anotherAlternative first more ih ihmore =>
    exact .take rfl (colours_alternatives hw (ih negated) (ihmore negated hw))
  | expression first more ih ihmore =>
    exact colours_alternatives hw (ih negated) (ihmore negated hw)

/-! ## Items -/

theorem read_item {w : Word} {paint : Paint} {parts : List Part} {ws : List Word}
    (h : w.item? = some (paint, parts)) :
    Reading.start.read (w :: ws) = paintThen [(w, paint)] ((Reading.expecting parts).read ws) := by
  simp only [Reading.start, Reading.read, Reading.step, settle, h]
  rfl

/-- The parts that an item goes on with paint it if they paint what is behind its first word. -/
theorem read_coloured_item {c : ColouredWord} {cs : List ColouredWord} {parts : List Part}
    {ws : List Word} (h : c.1.item? = some (c.2, parts)) (hcs : Colours parts cs ws) :
    Reading.start.read (wordsOf (c :: cs) ++ ws)
      = paintThen (c :: cs) (Reading.start.read ws) := by
  have hparts := hcs []
  rw [List.append_nil] at hparts
  rw [wordsOf_cons, List.cons_append, read_item h, hparts, ← paintThen_append]
  rfl

theorem colours_pathLead (lead : Bool) {cs : List ColouredWord} {parts : List Part} {w : Word}
    {ws ws' : List Word} (hw : wordsOf cs ++ ws = w :: ws') (hkind : w.kind ≠ .doubleColon)
    (hcs : Colours parts cs ws) :
    Colours (.pathLead :: parts) ((if lead then [colons] else []) ++ cs) ws := by
  cases lead with
  | false => exact .skip hw ((unpainted_optional ..).trans (if_neg hkind)) hcs
  | true => exact .take rfl hcs

theorem colours_sectionBody (hasBody : Bool) {cs : List ColouredWord} {parts : List Part}
    {w : Word} {ws ws' : List Word} (hw : wordsOf cs ++ ws = w :: ws')
    (hkind : w.kind ≠ .snippetStart) (hcs : Colours parts cs ws) :
    Colours (.sectionBody :: parts) ((if hasBody then [plain .snippetStart] else []) ++ cs) ws := by
  cases hasBody with
  | false => exact .skip hw ((unpainted_optional ..).trans (if_neg hkind)) hcs
  | true => exact .take rfl hcs

theorem colours_result (result : Option String) {w : Word} {ws : List Word}
    (hw : w.kind ≠ .colon) :
    Colours [.resultColon] (ItemTree.colouredResult result) (w :: ws) := by
  cases result with
  | none => exact colours_skipped ((unpainted_optional ..).trans (if_neg hw))
  | some type => exact .take rfl (colours_one rfl)

theorem exists_result_eq_cons (result : Option String) (ws : List Word) :
    ∃ v vs, wordsOf (ItemTree.colouredResult result) ++ ⟨.equals, none⟩ :: ws = v :: vs ∧
      v.kind ≠ .leftAngle := by
  cases result with
  | none => exact ⟨_, _, rfl, by simp⟩
  | some type => exact ⟨_, _, rfl, by simp [plain]⟩

/-- **An item is painted in its colours**, and the next one begins behind it. -/
theorem read_item_coloured (t : ItemTree) (ws : List Word) :
    Reading.start.read (wordsOf t.coloured ++ ws)
      = paintThen t.coloured (Reading.start.read ws) := by
  have hclose : Colours [.itemEnd] [plain .semicolon] ws := colours_one rfl
  cases t with
  | typeAlias lead target name =>
    have hname : Colours [.aliasName, .itemEnd] [named name .typeName, plain .semicolon] ws :=
      .take rfl hclose
    have hpath : Colours (path .typeAlias)
        target.coloured (wordsOf [named name .typeName, plain .semicolon] ++ ws) :=
      colours_path .typeAlias target (by simp [named])
    refine read_coloured_item rfl (colours_pathLead lead rfl ?_ (hpath.append hname))
    simp [named]
  | namespaceDeclaration name =>
    have hpath : Colours (path .namespaceDeclaration) name.coloured
        (wordsOf [plain .semicolon] ++ ws) :=
      colours_path .namespaceDeclaration name (by simp [plain])
    exact read_coloured_item rfl (hpath.append hclose)
  | codeBlock name hasBody =>
    have hbody : Colours ([] ++ [.sectionBody, .itemEnd])
        ((if hasBody then [plain .snippetStart] else []) ++ [plain .semicolon]) ws :=
      colours_sectionBody hasBody rfl (by simp [plain]) hclose
    refine read_coloured_item rfl (.take ?_ hbody)
    simp [Part.move, Word.required, ItemTree.codeSections_eq]
  | rule name parameters result body =>
    have hbody : Colours (expression false) (body.coloured false)
        (wordsOf [plain .semicolon] ++ ws) := colours_tree body false (.inr rfl)
    have hequals : Colours [.equalsSign] [plain .equals]
        (wordsOf (body.coloured false ++ [plain .semicolon]) ++ ws) := colours_one rfl
    have hresult : Colours [.resultColon] (ItemTree.colouredResult result)
        (wordsOf (plain .equals :: (body.coloured false ++ [plain .semicolon])) ++ ws) :=
      colours_result result (by simp [plain])
    obtain ⟨v, vs, hv, hvkind⟩ := exists_result_eq_cons result
      (wordsOf (body.coloured false ++ [plain .semicolon]) ++ ws)
    have hparameters : Colours [.parameters] (bracketed (parameters.map Parameter.coloured))
        (wordsOf (ItemTree.colouredResult result ++
          plain .equals :: (body.coloured false ++ [plain .semicolon])) ++ ws) := by
      rw [wordsOf_append, List.append_assoc]
      exact hv ▸ colours_bracketed_parameters parameters hvkind
    exact read_coloured_item rfl (hparameters.append (hresult.append
      (hequals.append (hbody.append hclose))))

theorem read_items_coloured (ts : List ItemTree) (ws : List Word) :
    Reading.start.read (wordsOf (ts.flatMap ItemTree.coloured) ++ ws)
      = paintThen (ts.flatMap ItemTree.coloured) (Reading.start.read ws) := by
  induction ts with
  | nil => rfl
  | cons t ts ih =>
    rw [List.flatMap_cons, wordsOf_append, List.append_assoc, read_item_coloured, ih,
      paintThen_append]

theorem isClean_paintThen_start (cs : List ColouredWord) :
    Reading.IsClean (paintThen cs (Reading.start.read [])) := by
  refine ⟨fun v hv => ?_, rfl⟩
  simp only [paintThen, Reading.read, List.append_nil, List.mem_map] at hv
  obtain ⟨c, -, rfl⟩ := hv
  rfl

/-! ## Files -/

theorem accepts_coloured (items : List ItemTree) :
    Accepts [] ((wordsOf (items.flatMap ItemTree.coloured)).map Word.kind) := by
  have hread := read_items_coloured items []
  rw [List.append_nil] at hread
  rw [← isClean_read_iff, ← Reading.start, hread]
  exact isClean_paintThen_start _

/-- The visible tokens of a well-formed file are all that are not trivia but the last. -/
theorem substance_eq_visible_append {tokens : List Token} {words : List Word}
    (hwords : .endOfFile ∉ words.map Word.kind)
    (h : (substance tokens).map Token.word = words ++ [.ending]) :
    ∃ last, substance tokens = visible tokens ++ [last] ∧
      (visible tokens).map Token.word = words := by
  obtain ⟨front, back, hsplit, hfront, hback⟩ := List.map_eq_append_iff.1 h
  obtain ⟨last, rest, rfl, hlast, hrest⟩ := List.map_eq_cons_iff.1 hback
  obtain rfl := List.map_eq_nil_iff.1 hrest
  have hend : last.isEnd = true := beq_iff_eq.2 (congrArg Word.kind hlast)
  have hinner : ∀ t ∈ front, (!t.isEnd) = true := by
    intro t ht
    have hmem : t.kind ∈ words.map Word.kind := by
      rw [← hfront, List.map_map]
      exact List.mem_map_of_mem ht
    have hne : t.kind ≠ .endOfFile := fun hkind => hwords (hkind ▸ hmem)
    simpa [Token.isEnd] using hne
  have hvisible : visible tokens = front := by
    rw [visible_eq_takeWhile, hsplit, List.takeWhile_append_of_pos hinner,
      List.takeWhile_cons_of_neg (by simp [hend]), List.append_nil]
  exact ⟨last, by rw [hvisible, hsplit], by rw [hvisible, hfront]⟩

/-- **Well-formed files are painted by role.**  If the tokens that are not trivia are spelled by
items and the end of the file, there is nothing to complain about, these tokens are painted in the
colours of the items, and trivia stay where and as they are. -/
theorem assignRoles_of_coloured_items (tokens : List Token) (items : List ItemTree)
    (h : (substance tokens).map Token.word
      = wordsOf (items.flatMap ItemTree.coloured) ++ [.ending]) :
    structuralIssues tokens = [] ∧
      substance (assignRoles tokens)
        = List.zipWith Paint.apply ((items.flatMap ItemTree.coloured).map Prod.snd ++ [.keep])
            (substance tokens) ∧
      (assignRoles tokens).map Token.kind = tokens.map Token.kind ∧
      ∀ (i : Nat) (t : Token), tokens[i]? = some t → t.kind.isTrivia = true →
        (assignRoles tokens)[i]? = some t := by
  have hwords := not_mem_of_accepts (accepts_coloured items)
  obtain ⟨last, hlast, hvisible⟩ := substance_eq_visible_append hwords h
  have hread : readItems tokens
      = paintThen (items.flatMap ItemTree.coloured) (Reading.start.read []) := by
    rw [readItems, hvisible, ← read_items_coloured items [], List.append_nil]
  have hpaints : (readItems tokens).1.map Verdict.paint
      = (items.flatMap ItemTree.coloured).map Prod.snd := by
    simp [hread, paintThen, Reading.read]
  have hlen : ((items.flatMap ItemTree.coloured).map Prod.snd).length
      = (visible tokens).length := by
    have hmap := congrArg List.length hvisible
    simpa [wordsOf] using hmap.symm
  refine ⟨?_, ?_, kind_assignRoles tokens, fun i t ht htrivia => ?_⟩
  · rw [structuralIssues_eq_nil_iff_isClean, hread]
    exact isClean_paintThen_start _
  · have hplain : ∀ t ∈ visible tokens, t.kind.isTrivia = false := fun t ht =>
      not_isTrivia_of_mem_substance (by rw [hlast]; exact List.mem_append_left _ ht)
    have hnone : List.drop (substance (visible tokens)).length
        ((items.flatMap ItemTree.coloured).map Prod.snd) = [] :=
      List.drop_eq_nil_of_le (Nat.le_of_eq (by rw [substance_eq_self hplain, hlen]))
    rw [assignRoles, hpaints, substance_paintVisible, hlast, paintVisible_append, hnone,
      paintVisible_nil, paintVisible_eq_zipWith hplain hlen, List.zipWith_append hlen]
    rfl
  · exact getElem?_paintVisible_of_isTrivia ht htrivia _

/-- `r<n: T>: R = c:v &{p} !(b<n>:x {q})* / [z]:w;` -/
def sampleRule : ItemTree :=
  .rule "r" [.named "n" (some "T")] (some "R")
    (.expression
      (.sequence (.reference "c" [] (some "v")) []
        (.anotherTerm (.ampersand .snippet) []
          (.anotherTerm
            (.bang (.group (.expression
              (.sequence (.reference "b" [.named "n"] (some "x")) []
                (.anotherTerm .snippet [] .lastTerm))
              .lastAlternative)))
            [.star] .lastTerm)))
      (.anotherAlternative (.sequence (.characterClass (some "w")) [] .lastTerm)
        .lastAlternative))

/-- The tokens of a file that holds it alone. -/
def sampleTokens : List Token :=
  (Document.ofText
    "r<n: T>: R = c:v &\x7bp\x7d !(b<n>:x \x7bq\x7d)* / [z]:w;").tokens

/-- The names of the sample in their roles, and its snippets, the second under a `!`. -/
theorem styles_sampleRule :
    structuralIssues sampleTokens = [] ∧
      ((substance (assignRoles sampleTokens)).filter (·.kind.isName)).map Token.style
        = [some .ruleName, some .templateVariable, some .typeName, some .typeName,
            some .ruleName, some .resultVariable, some .ruleName, some .templateVariable,
            some .identifier, some .resultVariable] ∧
      ((substance (assignRoles sampleTokens)).filter (·.kind = .snippetStart)).map Token.style
        = [some .code, none] := by
  have h := assignRoles_of_coloured_items sampleTokens [sampleRule] (by decide +kernel)
  refine ⟨h.1, ?_, ?_⟩
  · rw [h.2.1]
    decide +kernel
  · rw [h.2.1]
    decide +kernel

end GrammarPaint
