import GrammarPaint.Proofs.Openings

/-!
# Numbers are as long as they can be

Numbers are described twice.  `IsNumber` builds them up from the left, and adds at the end what a
number may go on with.  The scan goes through the text and decides at every character whether the
number goes on; what it goes through behind the first character is an `IsTail`.  A sign belongs to a
number only if it comes directly behind an `e`, so the two do not see the same steps, but they see
the same numbers (`IsNumber.append_tail`, `IsNumber.exists_tail`).

The scan takes what a number may go on with (`isTail_take_numberTail`), and as much of it as there
is (`IsTail.length_le`).  So **a number is the longest one that the text goes on with**
(`Document.hasNumbers`).
-/

set_option autoImplicit false
namespace GrammarPaint

/-! ## Numbers and their tails -/

/-- What a number may always go on with. -/
def isNumberPart (c : Char) : Bool := c == '.' || isWordPart c

/-- What a sign may follow in a number. -/
def isExponent (c : Char) : Bool := c == 'e' || c == 'E'

/-- What may follow an exponent in a number. -/
def isSign (c : Char) : Bool := c == '+' || c == '-'

/-- Numbers: a digit, or a point and a digit, and what may follow. -/
inductive IsNumber : List Char → Prop
  | digit {c : Char} : c.isDigit = true → IsNumber [c]
  | point {c : Char} : c.isDigit = true → IsNumber ['.', c]
  | part {w : List Char} {c : Char} : IsNumber w → isNumberPart c = true → IsNumber (w ++ [c])
  | sign {w : List Char} {e s : Char} : IsNumber w → isExponent e = true → isSign s = true →
      IsNumber (w ++ [e, s])

/-- What may stand behind the first character of a number, from its first character on. -/
inductive IsTail : List Char → Prop
  | nil : IsTail []
  | part {c : Char} {w : List Char} : isNumberPart c = true → IsTail w → IsTail (c :: w)
  | sign {e s : Char} {w : List Char} : isExponent e = true → isSign s = true → IsTail w →
      IsTail (e :: s :: w)

section Tails

variable {a b w : List Char} {c : Char} {points rest : List CodePoint}

theorem IsTail.append (ha : IsTail a) (hb : IsTail b) : IsTail (a ++ b) := by
  induction ha with
  | nil => exact hb
  | part hc _ ih => exact .part hc ih
  | sign he hs _ ih => exact .sign he hs ih

/-- Behind a number may stand what may stand behind its first character. -/
theorem IsNumber.append_tail (hw : IsNumber w) (ha : IsTail a) : IsNumber (w ++ a) := by
  induction ha generalizing w with
  | nil => rwa [List.append_nil]
  | part hc _ ih =>
    rw [List.append_cons]
    exact ih (hw.part hc)
  | sign he hs _ ih =>
    rw [List.append_cons, List.append_cons, List.append_assoc w]
    exact ih (hw.sign he hs)

theorem isNumberPart_of_isDigit (h : c.isDigit = true) : isNumberPart c = true := by
  simp [isNumberPart, isWordPart, Char.isAlphanum, h]

/-- Behind the first character of a number is a tail. -/
theorem IsNumber.exists_tail (h : IsNumber w) : ∃ c a, w = c :: a ∧ IsTail a := by
  induction h with
  | digit => exact ⟨_, [], rfl, .nil⟩
  | point hc => exact ⟨_, _, rfl, .part (isNumberPart_of_isDigit hc) .nil⟩
  | part _ hc ih =>
    obtain ⟨c, a, rfl, ha⟩ := ih
    exact ⟨c, _, rfl, ha.append (.part hc .nil)⟩
  | sign _ he hs ih =>
    obtain ⟨c, a, rfl, ha⟩ := ih
    exact ⟨c, _, rfl, ha.append (.sign he hs .nil)⟩

theorem isNumberPart_of_isExponent (h : isExponent c = true) : isNumberPart c = true := by
  rw [isExponent, Bool.or_eq_true, beq_iff_eq, beq_iff_eq] at h
  rcases h with rfl | rfl <;> decide

theorem not_of_isSign (h : isSign c = true) : isExponent c = false ∧ isNumberPart c = false := by
  rw [isSign, Bool.or_eq_true, beq_iff_eq, beq_iff_eq] at h
  rcases h with rfl | rfl <;> decide

/-! ## The scan -/

/-- **The scan takes a tail.** -/
theorem isTail_take_numberTail (points : List CodePoint) :
    IsTail ((points.take (numberTail points)).map CodePoint.char) := by
  fun_induction numberTail points with
  | case1 => exact .nil
  | case2 p he => exact .part (isNumberPart_of_isExponent he) .nil
  | case3 p he q more hs ih => exact .sign he hs ih
  | case4 p he q more hs ih => exact .part (isNumberPart_of_isExponent he) ih
  | case5 p rest he hc ih => exact .part hc ih
  | case6 => exact .nil

theorem numberTail_eq (p : CodePoint) (rest : List CodePoint) : numberTail (p :: rest) =
    if isExponent p.char then
      match rest with
      | [] => 1
      | q :: more => if isSign q.char then numberTail more + 2 else numberTail (q :: more) + 1
    else if isNumberPart p.char then numberTail rest + 1
    else 0 :=
  numberTail_cons p rest

/-- No number goes on with a sign alone. -/
theorem numberTail_of_isSign {p : CodePoint} (h : isSign p.char = true) (rest : List CodePoint) :
    numberTail (p :: rest) = 0 := by
  obtain ⟨he, hc⟩ := not_of_isSign h
  simp [numberTail_eq, he, hc]

theorem numberTail_of_exponent {p q : CodePoint} (he : isExponent p.char = true)
    (hs : isSign q.char = true) (rest : List CodePoint) :
    numberTail (p :: q :: rest) = numberTail rest + 2 := by
  simp [numberTail_eq, he, hs]

/-- A digit is no exponent. -/
theorem isExponent_of_isDigit (h : c.isDigit = true) : isExponent c = false := by
  rw [Bool.eq_false_iff]
  intro he
  rw [isExponent, Bool.or_eq_true, beq_iff_eq, beq_iff_eq] at he
  rcases he with rfl | rfl <;> exact absurd h (by decide)

theorem numberTail_of_isDigit {p : CodePoint} (h : p.char.isDigit = true) (rest : List CodePoint) :
    numberTail (p :: rest) = numberTail rest + 1 := by
  simp [numberTail_eq, isExponent_of_isDigit h, isNumberPart_of_isDigit h]

/-- The scan goes on with everything that a number may always go on with. -/
theorem succ_le_numberTail {p : CodePoint} (h : isNumberPart p.char = true)
    (rest : List CodePoint) : numberTail rest + 1 ≤ numberTail (p :: rest) := by
  rw [numberTail_eq, if_pos h]
  split
  · split
    · exact Nat.le_refl 1
    · split
      · rename_i hs
        rw [numberTail_of_isSign hs]
        omega
      · exact Nat.le_refl _
  · exact Nat.le_refl _

/-- **The scan takes the longest tail.** -/
theorem IsTail.length_le (h : IsTail a) (ha : a <+: points.map CodePoint.char) :
    a.length ≤ numberTail points := by
  induction h generalizing points with
  | nil => exact Nat.zero_le _
  | part hc _ ih =>
    obtain ⟨p, rest, rfl, rfl, hrest⟩ := exists_of_cons_isPrefix ha
    exact Nat.le_trans (Nat.succ_le_succ (ih hrest)) (succ_le_numberTail hc rest)
  | sign he hs _ ih =>
    obtain ⟨p, behind, rfl, rfl, hbehind⟩ := exists_of_cons_isPrefix ha
    obtain ⟨q, rest, rfl, rfl, hrest⟩ := exists_of_cons_isPrefix hbehind
    rw [numberTail_of_exponent he hs]
    exact Nat.add_le_add_right (ih hrest) 2

/-! ## Where a number begins -/

variable {p : CodePoint} {nesting : Nat} {line : LineState}

theorem toNat_of_isDigit (h : c.isDigit = true) : 48 ≤ c.toNat ∧ c.toNat ≤ 57 := by
  have hbounds := Bool.and_eq_true_iff.1 h
  have hle : '0' ≤ c := of_decide_eq_true hbounds.1
  have hge : c ≤ '9' := of_decide_eq_true hbounds.2
  exact ⟨hle, hge⟩

theorem toNat_of_opensNumber (h : opensNumber c rest = true) : 46 ≤ c.toNat ∧ c.toNat ≤ 57 := by
  rcases Bool.or_eq_true_iff.1 h with hdigit | hpoint
  · have hbounds := toNat_of_isDigit hdigit
    omega
  · obtain rfl := beq_iff_eq.1 (Bool.and_eq_true_iff.1 hpoint).1
    decide

theorem toNat_of_isCodeWordStart (h : isCodeWordStart c = true) : 65 ≤ c.toNat := by
  rw [isCodeWordStart, Bool.or_eq_true, beq_iff_eq] at h
  rcases h with h | rfl
  · rcases Bool.or_eq_true_iff.1 h with hupper | hlower
    · have hle : 'A' ≤ c := (of_decide_eq_true hupper).1
      exact hle
    · have hle : 'a' ≤ c := of_decide_eq_true (Bool.and_eq_true_iff.1 hlower).1
      exact Nat.le_trans (by decide) hle
  · decide

/-- What begins like a number in a snippet is one. -/
theorem scanCode_of_opensNumber (h : opensNumber c rest = true) :
    scanCode nesting line c rest = .plain .codeNumber (numberTail rest) := by
  have hbounds := toNat_of_opensNumber h
  have hspace : ¬ isCodeSpace c = true := fun hc => by
    have hle := toNat_le_of_isCodeSpace hc
    omega
  have hheader : ¬ OpensHeader line c := by
    rintro ⟨-, rfl | rfl⟩ <;> exact absurd hbounds (by decide)
  have hword : ¬ isCodeWordStart c = true := fun hc => by
    have hge := toNat_of_isCodeWordStart hc
    omega
  rw [OpensHeader] at hheader
  unfold scanCode
  rw [if_neg hspace, if_neg hheader, if_neg hword, if_pos h]

/-- What is a number in a snippet begins like one. -/
theorem opensNumber_of_kind (h : (scanCode nesting line c rest).kind = .codeNumber) :
    opensNumber c rest = true := by
  obtain ⟨kinds, hform⟩ := exists_codeForm nesting line c rest
  have hkind := hform.kind_mem
  rw [h] at hkind
  generalize scanCode nesting line c rest = s at hform
  cases hform with
  | number hnumber => exact hnumber
  | _ => exact absurd hkind (by decide)

theorem isNumber_of_opensNumber (h : opensNumber c rest = true) :
    IsNumber (c :: (rest.take (numberTail rest)).map CodePoint.char) := by
  rcases Bool.or_eq_true_iff.1 h with hdigit | hpoint
  · exact IsNumber.append_tail (.digit hdigit) (isTail_take_numberTail rest)
  · obtain ⟨hc, hnext⟩ := Bool.and_eq_true_iff.1 hpoint
    rw [beq_iff_eq.1 hc]
    cases rest with
    | nil => exact absurd hnext Bool.false_ne_true
    | cons q rest =>
      rw [numberTail_of_isDigit hnext, List.take_succ_cons]
      exact IsNumber.append_tail (.point hnext) (isTail_take_numberTail rest)

/-- **What the scan of a number takes is the longest number there is.** -/
theorem isLongest_isNumber (h : opensNumber p.char rest = true) :
    IsLongest IsNumber (p.char :: (rest.take (numberTail rest)).map CodePoint.char)
      ((p :: rest).map CodePoint.char) where
  holds := isNumber_of_opensNumber h
  begins := by
    rw [List.map_cons, List.cons_prefix_cons, List.map_take]
    exact ⟨rfl, List.take_prefix _ _⟩
  longest v hv hbegins := by
    obtain ⟨c, a, rfl, ha⟩ := hv.exists_tail
    rw [List.map_cons, List.cons_prefix_cons] at hbegins
    have hle := ha.length_le hbegins.2
    rw [List.length_cons, List.length_cons, List.length_map, List.length_take,
      Nat.min_eq_left (numberTail_le rest)]
    exact Nat.succ_le_succ hle

/-- A sign belongs to a number only behind an `e`. -/
example : numberTail (['e', '+', '5', '.', 'x', '-', '3'].map .scalar) = 5 := by decide

end Tails

/-! ## Tokens -/

namespace Document

/-- Whether the text at `offset` begins with a digit, or with a point and a digit. -/
def OpensNumber (d : Document) (offset : Nat) : Prop :=
  ∃ c : Char, c.isDigit = true ∧ (d.Begins offset [c] ∨ d.Begins offset ['.', c])

/-- The numbers of a document: they are what begins like one in a snippet, and as long as they can
be. -/
structure HasNumbers (d : Document) : Prop where
  kind_iff : ∀ before t after, d.tokens = before ++ t :: after →
    (t.kind = .codeNumber ↔
      insideSnippet (before.map d.sight).reverse = true ∧ d.OpensNumber t.span.start)
  longest : ∀ t ∈ d.tokens, t.kind = .codeNumber →
    IsLongest IsNumber (d.text t.span).toList (d.textFrom t.span.start)

variable {d : Document} {t : Token} {m : Mode} {a rest : List CodePoint} {p : CodePoint}

theorem Scanned.opensNumber_iff (h : d.Scanned t m a p rest) :
    d.OpensNumber t.span.start ↔ opensNumber p.char rest = true := by
  simp only [OpensNumber, h.begins_iff, List.cons_prefix_cons, List.nil_prefix, and_true]
  cases rest with
  | nil => simp [opensNumber]
  | cons q rest =>
    simp only [opensNumber, List.map_cons, List.cons_prefix_cons, List.nil_prefix, and_true,
      Bool.or_eq_true, Bool.and_eq_true, beq_iff_eq]
    constructor
    · rintro ⟨c, hc, rfl | ⟨hp, rfl⟩⟩
      · exact .inl hc
      · exact .inr ⟨hp.symm, hc⟩
    · rintro (hc | ⟨hp, hc⟩)
      · exact ⟨_, hc, .inl rfl⟩
      · exact ⟨_, hc, .inr ⟨hp.symm, rfl⟩⟩

/-- **Numbers are the longest that the text goes on with.** -/
theorem hasNumbers (d : Document) : d.HasNumbers where
  kind_iff before t after h := by
    constructor
    · intro hkind
      obtain ⟨nesting, line, a, p, rest, hscanned, hremembers⟩ :=
        exists_scanned_code h (by rw [hkind]; rfl)
      have hopens := opensNumber_of_kind (hscanned.kind_eq.symm.trans hkind)
      exact ⟨hremembers.1, hscanned.opensNumber_iff.2 hopens⟩
    · rintro ⟨hinside, hopens⟩
      obtain ⟨w, hw, hbegins⟩ : ∃ w, w ≠ [] ∧ d.Begins t.span.start w := by
        obtain ⟨c, -, hbegins | hbegins⟩ := hopens <;> exact ⟨_, List.cons_ne_nil _ _, hbegins⟩
      obtain ⟨nesting, line, a, p, rest, hscanned, -⟩ := exists_scanned_inside h hinside hbegins hw
      rw [hscanned.kind_eq]
      exact congrArg Scan.kind (scanCode_of_opensNumber (hscanned.opensNumber_iff.1 hopens))
  longest t ht hkind := by
    obtain ⟨before, after, h⟩ := List.append_of_mem ht
    obtain ⟨nesting, line, a, p, rest, hscanned, -⟩ := exists_scanned_code h (by rw [hkind]; rfl)
    have hopens := opensNumber_of_kind (hscanned.kind_eq.symm.trans hkind)
    have hscan : (Mode.snippet nesting line).scan p.char rest
        = .plain .codeNumber (numberTail rest) := scanCode_of_opensNumber hopens
    rw [hscanned.toList_text, hscan, hscanned.textFrom_eq]
    exact isLongest_isNumber hopens

end Document
end GrammarPaint
