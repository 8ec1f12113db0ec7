import GrammarPaint.Lexeme.Extent

/-!
# Numbers of embedded code

A number begins with a digit, or with a point and a digit.  It goes on through everything that
could be part of one: digits, letters, underscores, points, and a sign directly after an `e` or
`E`.  What it denotes, if anything, does not matter here.
-/

set_option autoImplicit false
namespace GrammarPaint

/-- The number of code points by which a number goes on. -/
def numberTail : List CodePoint → Nat
  | [] => 0
  | p :: rest =>
    if p.char == 'e' || p.char == 'E' then
      match rest with
      | [] => 1
      | q :: more => if q.char == '+' || q.char == '-' then numberTail more + 2
        else numberTail (q :: more) + 1
    else if p.char == '.' || isWordPart p.char then numberTail rest + 1
    else 0

theorem numberTail_le (points : List CodePoint) : numberTail points ≤ points.length := by
  fun_induction numberTail points <;> simp only [List.length_cons, List.length_nil] at * <;> omega

end GrammarPaint
