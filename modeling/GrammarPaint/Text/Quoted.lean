/-!
# Quoted text

A dump shows text between double quotes, on one line whatever it holds.  A quote and a backslash
get a backslash in front.  Control characters are named: some by a letter, the others by their
number in base sixteen.  Everything else stands for itself.

So the quotes around the text are the only ones without a backslash, and **quoted text holds no
control character** (`isControl_eq_false_of_mem_quotedChars`), a line break in particular.
-/

set_option autoImplicit false
namespace GrammarPaint

/-- Whether `c` is a control character: one of the first 32, or the delete character, or one of
the 32 behind it. -/
def isControl (c : Char) : Bool := c.toNat < 0x20 || (0x7f ≤ c.toNat && c.toNat < 0xa0)

/-- What stands for `c` between quotes. -/
def escapedChar (c : Char) : List Char :=
  match c with
  | '\x00' => ['\\', '0']
  | '\t' => ['\\', 't']
  | '\n' => ['\\', 'n']
  | '\r' => ['\\', 'r']
  | '"' => ['\\', '"']
  | '\\' => ['\\', '\\']
  | c =>
    if isControl c then '\\' :: 'u' :: '{' :: Nat.toDigits 16 c.toNat ++ ['}'] else [c]

/-- The characters of a text between quotes. -/
def quotedChars (text : List Char) : List Char := '"' :: text.flatMap escapedChar ++ ['"']

/-- A text between quotes. -/
def quoted (text : String) : String := String.ofList (quotedChars text.toList)

/-! ## No control character is left -/

private theorem all_toDigits :
    ((List.range 0xa0).all fun n => (Nat.toDigits 16 n).all fun d => !isControl d) = true := by
  decide +kernel

theorem isControl_eq_false_of_mem_toDigits {n : Nat} (hn : n < 0xa0) {d : Char}
    (h : d ∈ Nat.toDigits 16 n) : isControl d = false := by
  have hall := List.all_eq_true.1 all_toDigits n (List.mem_range.2 hn)
  simpa using List.all_eq_true.1 hall d h

theorem isControl_eq_false_of_mem_escapedChar {c d : Char} (h : d ∈ escapedChar c) :
    isControl d = false := by
  unfold escapedChar at h
  split at h
  case h_7 =>
    split at h
    · rename_i hc
      have hlt : c.toNat < 0xa0 := by
        simp only [isControl, Bool.or_eq_true, Bool.and_eq_true, decide_eq_true_eq] at hc
        omega
      simp only [List.mem_append, List.mem_cons, List.not_mem_nil, or_false] at h
      rcases h with (rfl | rfl | rfl | h) | rfl
      · rfl
      · rfl
      · rfl
      · exact isControl_eq_false_of_mem_toDigits hlt h
      · rfl
    · rename_i hc
      obtain rfl := List.mem_singleton.1 h
      exact Bool.eq_false_iff.2 hc
  all_goals
    simp only [List.mem_cons, List.not_mem_nil, or_false] at h
    rcases h with rfl | rfl <;> rfl

/-- **Quoted text holds no control character.** -/
theorem isControl_eq_false_of_mem_quotedChars {text : List Char} {d : Char}
    (h : d ∈ quotedChars text) : isControl d = false := by
  simp only [quotedChars, List.cons_append, List.mem_cons, List.mem_append, List.mem_flatMap,
    List.not_mem_nil, or_false] at h
  rcases h with rfl | ⟨c, _, h⟩ | rfl
  · rfl
  · exact isControl_eq_false_of_mem_escapedChar h
  · rfl

end GrammarPaint
