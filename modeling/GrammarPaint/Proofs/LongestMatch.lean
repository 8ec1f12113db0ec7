import GrammarPaint.Lexeme.Snippet

/-!
# Punctuators are longest matches

Punctuators are scanned in several ways: operators are the first hit in a table, and the others
depend on the character behind the one they begin with, if on anything.  All the same they are the
longest of `punctuators` that the text begins with (`IsLongest`), the `<` before a global name
apart (`punctuatorForm`).  What there is to see of each way is this:

* the table has the longer operators in front, so no hit is longer than the first
  (`length_le_of_find?`);
* comparing an operator with four characters, of which some may stand for the end of the text, is
  comparing it with the text (`all_zip_ahead_iff`);
* of the other punctuators, few begin with the same character (`punctuatorsWith`).

So a scan of a punctuator comes to the same as looking for the longest one in a single list
(`scanPunctuator_eq`).
-/

set_option autoImplicit false
namespace GrammarPaint

/-- `w` is the longest of the texts of class `P` that `text` begins with. -/
structure IsLongest (P : List Char → Prop) (w text : List Char) : Prop where
  holds : P w
  begins : w <+: text
  longest : ∀ v, P v → v <+: text → v.length ≤ w.length

section Matching

variable {v w text : List Char} {c e : Char} {rest : List CodePoint}

/-! ## The first hit -/

/-- In a table with the longer texts in front, no hit is longer than the first one. -/
theorem length_le_of_find? {table : List (List Char)} {q : List Char → Bool}
    (hsorted : table.Pairwise fun a b => b.length ≤ a.length) (h : table.find? q = some w)
    (hv : v ∈ table) (hq : q v = true) : v.length ≤ w.length := by
  obtain ⟨-, front, back, rfl, hfront⟩ := List.find?_eq_some_iff_append.1 h
  rw [List.pairwise_append, List.pairwise_cons] at hsorted
  rcases List.mem_append.1 hv with hmem | hmem
  · exact absurd hq (by simpa using hfront v hmem)
  · rcases List.mem_cons.1 hmem with rfl | hmem
    · exact Nat.le_refl _
    · exact hsorted.2.1.1 v hmem

theorem pairwise_codeOperators : codeOperators.Pairwise fun a b => b.length ≤ a.length := by decide

/-! ## Four characters -/

theorem ahead_eq_take (c : Char) (rest : List CodePoint) :
    [c, charBehind rest 0, charBehind rest 1, charBehind rest 2]
      = (c :: rest.map CodePoint.char ++ List.replicate 3 '\x00').take 4 := by
  match rest with
  | [] => rfl
  | [_] => rfl
  | [_, _] => rfl
  | _ :: _ :: _ :: _ => rfl

theorem all_zip_iff (h : w.length ≤ text.length) :
    ((w.zip text).all fun x => x.1 == x.2) = true ↔ w <+: text := by
  induction w generalizing text with
  | nil => simp
  | cons c w ih =>
    cases text with
    | nil => simp at h
    | cons e text =>
      rw [List.zip_cons_cons, List.all_cons, Bool.and_eq_true, beq_iff_eq, List.cons_prefix_cons,
        ih (Nat.le_of_succ_le_succ h)]

/-- A text without U+0000 is compared with another whatever number of them is behind that one. -/
theorem isPrefix_append_replicate_iff (hw : '\x00' ∉ w) (n : Nat) :
    w <+: text ++ List.replicate n '\x00' ↔ w <+: text := by
  induction text generalizing w with
  | nil =>
    cases w with
    | nil => simp
    | cons c w =>
      refine iff_of_false (fun h => hw ?_) (by simp)
      have hc : c ∈ List.replicate n '\x00' := h.subset List.mem_cons_self
      rw [List.eq_of_mem_replicate hc]
      exact List.mem_cons_self
  | cons e text ih =>
    cases w with
    | nil => simp
    | cons c w =>
      rw [List.mem_cons, not_or] at hw
      rw [List.cons_append, List.cons_prefix_cons, List.cons_prefix_cons, ih hw.2]

/-- Texts of up to four characters are compared with four characters. -/
theorem isPrefix_take_append_iff (hlength : w.length ≤ 4) (hend : '\x00' ∉ w) (n : Nat) :
    w <+: (text ++ List.replicate n '\x00').take 4 ↔ w <+: text := by
  rw [List.prefix_take_iff, isPrefix_append_replicate_iff hend]
  exact and_iff_left hlength

/-- Punctuators are seen from four characters, and hold none of what stands for the end. -/
theorem length_le_of_mem_punctuators (hw : w ∈ punctuators) : w.length ≤ 4 ∧ '\x00' ∉ w := by
  have hall : ∀ w ∈ punctuators, '\x00' ∉ w := by decide
  exact ⟨Nat.le_succ_of_le (length_le_longestPunctuator w hw), hall w hw⟩

theorem isPrefix_take_iff_of_mem (hw : w ∈ punctuators) (n : Nat) :
    w <+: (text ++ List.replicate n '\x00').take 4 ↔ w <+: text :=
  isPrefix_take_append_iff (length_le_of_mem_punctuators hw).1 (length_le_of_mem_punctuators hw).2 n

/-- **Comparing an operator with four characters is comparing it with the text.** -/
theorem all_zip_ahead_iff (hw : w ∈ codeOperators) :
    ((w.zip [c, charBehind rest 0, charBehind rest 1, charBehind rest 2]).all
      fun x => x.1 == x.2) = true ↔ w <+: c :: rest.map CodePoint.char := by
  have hmem : w ∈ punctuators := List.mem_append_left _ hw
  rw [all_zip_iff (length_le_of_mem_punctuators hmem).1, ahead_eq_take,
    isPrefix_take_iff_of_mem hmem]

theorem opensGlobalName_iff :
    opensGlobalName text = true ↔ ∃ after, text = '<' :: ':' :: ':' :: after ∧
      after.head? ≠ some ':' ∧ after.head? ≠ some '>' := by
  unfold opensGlobalName
  split
  · simp
  · rename_i hnone
    simp only [Bool.false_eq_true, false_iff]
    rintro ⟨after, rfl, -⟩
    exact hnone after rfl

/-- Whether a global name follows can be said by what the text begins with. -/
theorem opensGlobalName_iff_isPrefix : opensGlobalName text = true ↔ ['<', ':', ':'] <+: text ∧
    ¬ ['<', ':', ':', ':'] <+: text ∧ ¬ ['<', ':', ':', '>'] <+: text := by
  rw [opensGlobalName_iff]
  constructor
  · rintro ⟨after, rfl, hcolon, hangle⟩
    cases after <;> simp_all [List.cons_prefix_cons, eq_comm]
  · rintro ⟨⟨after, rfl⟩, hcolon, hangle⟩
    refine ⟨after, rfl, ?_⟩
    cases after <;> simp_all [List.cons_prefix_cons, eq_comm]

/-- Four characters show whether a global name follows. -/
theorem opensGlobalName_take (text : List Char) (n : Nat) :
    opensGlobalName ((text ++ List.replicate n '\x00').take 4) = opensGlobalName text := by
  rw [Bool.eq_iff_iff, opensGlobalName_iff_isPrefix, opensGlobalName_iff_isPrefix,
    isPrefix_take_append_iff (by decide) (by decide),
    isPrefix_take_append_iff (by decide) (by decide),
    isPrefix_take_append_iff (by decide) (by decide)]

/-! ## Punctuators by their first character -/

/-- The punctuators that begin with `c`. -/
def punctuatorsWith (c : Char) : List (List Char) :=
  punctuators.filter fun w => w.head? == some c

theorem mem_punctuatorsWith (hw : w ∈ punctuators) (hbegins : w <+: c :: text) :
    w ∈ punctuatorsWith c := by
  cases w with
  | nil => exact absurd (length_punctuator_pos _ hw) (Nat.lt_irrefl 0)
  | cons e w =>
    rw [List.cons_prefix_cons] at hbegins
    exact List.mem_filter.2 ⟨hw, by simp [hbegins.1]⟩

/-- Where the longer punctuators are in front, the first hit is the longest one. -/
theorem isLongest_of_find? (hsorted : (punctuatorsWith c).Pairwise fun a b => b.length ≤ a.length)
    (h : (punctuatorsWith c).find? (·.isPrefixOf (c :: text)) = some w) :
    IsLongest (· ∈ punctuators) w (c :: text) := by
  have hhit := List.find?_some h
  rw [List.isPrefixOf_iff_prefix] at hhit
  refine ⟨(List.mem_filter.1 (List.mem_of_find?_eq_some h)).1, hhit, fun v hv hbegins => ?_⟩
  exact length_le_of_find? hsorted h (mem_punctuatorsWith hv hbegins)
    (List.isPrefixOf_iff_prefix.2 hbegins)

/-- What a scan of a punctuator says about the punctuators that a text begins with. -/
inductive PunctuatorForm (text : List Char) : Scan → Prop
  | unknown : (∀ w ∈ punctuators, ¬ w <+: text) → PunctuatorForm text (.plain .codeUnknown 0)
  | globalName : opensGlobalName text = true → PunctuatorForm text (.plain .codePunctuator 0)
  | longest {w : List Char} : opensGlobalName text = false → IsLongest (· ∈ punctuators) w text →
      PunctuatorForm text (.plain .codePunctuator (w.length - 1))

theorem opensGlobalName_of_ne (h : c ≠ '<') (text : List Char) :
    opensGlobalName (c :: text) = false := by
  rw [Bool.eq_false_iff, ne_eq, opensGlobalName_iff]
  rintro ⟨after, htext, -⟩
  exact h (List.cons.inj htext).1

theorem beginsWith_iff : beginsWith c rest = true ↔ [c] <+: rest.map CodePoint.char := by
  cases rest with
  | nil => simp [beginsWith]
  | cons p rest =>
    rw [beginsWith, beq_iff_eq, List.map_cons, List.cons_prefix_cons, eq_comm]
    exact (and_iff_left List.nil_prefix).symm

theorem isPrefixOf_pair (c e : Char) (rest : List CodePoint) :
    [c, e].isPrefixOf (c :: rest.map CodePoint.char) = beginsWith e rest := by
  rw [Bool.eq_iff_iff, List.isPrefixOf_iff_prefix, List.cons_prefix_cons, beginsWith_iff]
  exact and_iff_right rfl

theorem isPrefixOf_dots (rest : List CodePoint) :
    ['.', '.', '.'].isPrefixOf ('.' :: rest.map CodePoint.char)
      = (beginsWith '.' rest && beginsWith '.' rest.tail) := by
  rw [Bool.eq_iff_iff, List.isPrefixOf_iff_prefix, List.cons_prefix_cons, Bool.and_eq_true]
  cases rest with
  | nil => simp [beginsWith]
  | cons p rest => simp [beginsWith_iff, List.cons_prefix_cons]

/-- A character that begins no other punctuator is one. -/
theorem punctuatorForm_single (h : punctuatorsWith c = [[c]]) (hc : c ≠ '<') (text : List Char) :
    PunctuatorForm (c :: text) (.plain .codePunctuator 0) :=
  .longest (opensGlobalName_of_ne hc text)
    (isLongest_of_find? (w := [c]) (by simp [h]) (by simp [h]))

/-- A character that begins one other punctuator, of two characters. -/
theorem punctuatorForm_pair (h : punctuatorsWith c = [[c, e], [c]]) (hc : c ≠ '<')
    (rest : List CodePoint) : PunctuatorForm (c :: rest.map CodePoint.char)
      (.plain .codePunctuator (if beginsWith e rest then 1 else 0)) := by
  have hglobal := opensGlobalName_of_ne hc (rest.map CodePoint.char)
  have hsorted : (punctuatorsWith c).Pairwise fun a b => b.length ≤ a.length := by simp [h]
  split
  · rename_i he
    refine .longest hglobal (isLongest_of_find? (w := [c, e]) hsorted ?_)
    rw [h, List.find?_cons, isPrefixOf_pair, he]
  · rename_i he
    refine .longest hglobal (isLongest_of_find? (w := [c]) hsorted ?_)
    rw [Bool.not_eq_true] at he
    rw [h, List.find?_cons, isPrefixOf_pair, he]
    simp

/-- A point begins two other punctuators. -/
theorem punctuatorForm_dot (rest : List CodePoint) :
    PunctuatorForm ('.' :: rest.map CodePoint.char) (scanPunctuator '.' rest) := by
  have hglobal := opensGlobalName_of_ne (by decide : '.' ≠ '<') (rest.map CodePoint.char)
  have hwith : punctuatorsWith '.' = [['.', '.', '.'], ['.', '*'], ['.']] := by decide
  have hsorted : (punctuatorsWith '.').Pairwise fun a b => b.length ≤ a.length := by decide
  rw [scanPunctuator]
  split
  · rename_i hdots
    refine .longest hglobal (isLongest_of_find? (w := ['.', '.', '.']) hsorted ?_)
    rw [hwith, List.find?_cons, isPrefixOf_dots, hdots]
  · rename_i hdots
    rw [Bool.not_eq_true] at hdots
    split
    · rename_i hstar
      refine .longest hglobal (isLongest_of_find? (w := ['.', '*']) hsorted ?_)
      rw [hwith, List.find?_cons, isPrefixOf_dots, hdots, List.find?_cons, isPrefixOf_pair, hstar]
    · rename_i hstar
      rw [Bool.not_eq_true] at hstar
      refine .longest hglobal (isLongest_of_find? (w := ['.']) hsorted ?_)
      rw [hwith, List.find?_cons, isPrefixOf_dots, hdots, List.find?_cons, isPrefixOf_pair, hstar]
      simp

theorem mem_codeOperators_of_opens (h : opensCodeOperator c = true) :
    [c] ∈ codeOperators ∧ ∀ w ∈ punctuatorsWith c, w ∈ codeOperators := by
  have hc : c ∈ ['<', '>', ':', '%', '+', '-', '*', '^', '&', '|', '!', '='] := by
    rwa [opensCodeOperator, List.contains_iff_mem] at h
  simp only [List.mem_cons, List.not_mem_nil, or_false] at hc
  rcases hc with rfl | rfl | rfl | rfl | rfl | rfl | rfl | rfl | rfl | rfl | rfl | rfl <;> decide

/-- **The first hit is the longest operator**, and the longest punctuator. -/
theorem punctuatorForm_operator (h : opensCodeOperator c = true) (rest : List CodePoint) :
    PunctuatorForm (c :: rest.map CodePoint.char) (scanOperator c rest) := by
  obtain ⟨hsingle, hwith⟩ := mem_codeOperators_of_opens h
  rw [scanOperator, codeOperatorLength, ahead_eq_take, opensGlobalName_take, ← ahead_eq_take]
  split
  · rename_i hglobal
    exact .globalName hglobal
  · rename_i hglobal
    rw [Bool.not_eq_true] at hglobal
    split
    · rename_i w hfind
      have hw := List.mem_of_find?_eq_some hfind
      have hmatches := List.find?_some hfind
      have hbegins := (all_zip_ahead_iff hw).1 hmatches
      exact .longest hglobal ⟨List.mem_append_left _ hw, hbegins, fun v hv hv' =>
        have hmem := hwith v (mem_punctuatorsWith hv hv')
        length_le_of_find? pairwise_codeOperators hfind hmem ((all_zip_ahead_iff hmem).2 hv')⟩
    · rename_i hnone
      exact absurd ((all_zip_ahead_iff hsingle).2 (by simp)) (List.find?_eq_none.1 hnone _ hsingle)

/-- Every punctuator begins with a character that a scan knows. -/
theorem exists_of_mem_punctuators (h : w ∈ punctuators) : ∃ e, w.head? = some e ∧
    (e ∈ ['.', '/', '#', '{', '}', '[', ']', '(', ')', ',', ';', '?', '~'] ∨
      opensCodeOperator e = true) := by
  have hall : (punctuators.all fun w => w.head?.any fun e =>
      ['.', '/', '#', '{', '}', '[', ']', '(', ')', ',', ';', '?', '~'].contains e ||
        opensCodeOperator e) = true := by decide
  obtain ⟨e, he, hknown⟩ := (Option.any_eq_true _ _).1 (List.all_eq_true.1 hall w h)
  rw [Bool.or_eq_true, List.contains_iff_mem] at hknown
  exact ⟨e, he, hknown⟩

/-- **A scan of a punctuator takes the longest one that the text begins with**, if the text begins
with one and it is no `<` before a global name. -/
theorem punctuatorForm (c : Char) (rest : List CodePoint) :
    PunctuatorForm (c :: rest.map CodePoint.char) (scanPunctuator c rest) := by
  unfold scanPunctuator
  split
  case h_1 => exact punctuatorForm_dot rest
  case h_2 => exact punctuatorForm_pair (by decide) (by decide) rest
  case h_3 => exact punctuatorForm_pair (by decide) (by decide) rest
  case h_14 =>
    split
    · rename_i h
      exact punctuatorForm_operator h rest
    · rename_i h
      refine .unknown fun w hw hbegins => ?_
      obtain ⟨e, he, hknown⟩ := exists_of_mem_punctuators hw
      obtain rfl : e = c := by
        have hhead := (List.mem_filter.1 (mem_punctuatorsWith hw hbegins)).2
        simpa [he] using hhead
      rcases hknown with hknown | hopens
      · simp_all
      · exact h hopens
  all_goals exact punctuatorForm_single (by decide) (by decide) _

/-- A `<` is cut off before `::` and a name, but not before `:::`. -/
example : (scanPunctuator '<' ([':', ':', 'x'].map .scalar)).more = 0 ∧
    (scanPunctuator '<' ([':', ':', ':'].map .scalar)).more = 1 := by decide

/-! ## In terms of one list -/

theorem punctuatorLength_eq_zero (hglobal : opensGlobalName text = false)
    (h : ∀ w ∈ punctuators, ¬ w <+: text) : punctuatorLength text = 0 := by
  have hfilter : punctuators.filter (·.isPrefixOf text) = [] := by
    refine List.filter_eq_nil_iff.2 fun w hw => ?_
    rw [List.isPrefixOf_iff_prefix]
    exact h w hw
  rw [punctuatorLength, hglobal, hfilter]
  rfl

theorem punctuatorLength_eq_length (hglobal : opensGlobalName text = false)
    (h : IsLongest (· ∈ punctuators) w text) : punctuatorLength text = w.length := by
  have hmax : ((punctuators.filter (·.isPrefixOf text)).map List.length).max? = some w.length := by
    rw [List.max?_eq_some_iff]
    have hmem : w ∈ punctuators.filter (·.isPrefixOf text) :=
      List.mem_filter.2 ⟨h.holds, List.isPrefixOf_iff_prefix.2 h.begins⟩
    refine ⟨List.mem_map_of_mem hmem, fun n hn => ?_⟩
    obtain ⟨v, hv, rfl⟩ := List.mem_map.1 hn
    rw [List.mem_filter, List.isPrefixOf_iff_prefix] at hv
    exact h.longest v hv.1 hv.2
  rw [punctuatorLength, hglobal, if_neg Bool.false_ne_true, List.foldl_max, hmax]
  exact Nat.zero_max _

/-- The longest punctuator of a text is seen from its first four characters. -/
theorem isLongest_take (h : IsLongest (· ∈ punctuators) w text) (n : Nat) :
    IsLongest (· ∈ punctuators) w ((text ++ List.replicate n '\x00').take 4) where
  holds := h.holds
  begins := (isPrefix_take_iff_of_mem h.holds n).2 h.begins
  longest v hv hbegins := h.longest v hv ((isPrefix_take_iff_of_mem hv n).1 hbegins)

/-- **Whatever way a punctuator is scanned, it is the longest in one list.** -/
theorem scanPunctuator_eq (c : Char) (rest : List CodePoint) : scanPunctuator c rest =
    match punctuatorLength (c :: (rest.take longestPunctuator).map CodePoint.char) with
    | 0 => .plain .codeUnknown 0
    | more + 1 => .plain .codePunctuator more := by
  have hform := punctuatorForm c rest
  have hglobal := opensGlobalName_take (c :: rest.map CodePoint.char) 0
  have hahead : c :: (rest.take longestPunctuator).map CodePoint.char
      = (c :: rest.map CodePoint.char ++ List.replicate 0 '\x00').take 4 := by
    simp [longestPunctuator, List.map_take]
  rw [hahead]
  generalize scanPunctuator c rest = s at hform
  generalize c :: rest.map CodePoint.char = text at hform hglobal ⊢
  cases hform with
  | unknown h =>
    have hopens : opensGlobalName text = false := by
      rw [Bool.eq_false_iff, ne_eq, opensGlobalName_iff]
      rintro ⟨after, rfl, -⟩
      exact h ['<'] (by decide) (by simp)
    rw [hopens] at hglobal
    rw [punctuatorLength_eq_zero hglobal fun w hw hbegins =>
      h w hw ((isPrefix_take_iff_of_mem hw 0).1 hbegins)]
  | globalName h =>
    rw [h] at hglobal
    rw [punctuatorLength, if_pos hglobal]
  | longest h hlongest =>
    rw [h] at hglobal
    obtain ⟨n, hn⟩ := Nat.exists_eq_add_of_lt (length_punctuator_pos _ hlongest.holds)
    rw [punctuatorLength_eq_length hglobal (isLongest_take hlongest 0), hn, Nat.zero_add,
      Nat.add_sub_cancel]

end Matching

end GrammarPaint
