/-!
# Spans

A span is a half-open range of a document, counted in UTF-16 code units.  Everything that points
into a document — a token, an issue, a piece of a repainted window — does so with a span.

Spans are plain pairs: a span whose end lies before its start is allowed, because a caller may
hand one in.  `Span.clip` never produces one (`Span.start_le_stop_clip`).
-/

set_option autoImplicit false
namespace GrammarPaint

/-- The half-open range from `start` up to, but not including, `stop`. -/
structure Span where
  start : Nat
  stop : Nat
deriving DecidableEq, Repr, Inhabited

namespace Span

/-- The empty span at `offset`. -/
def point (offset : Nat) : Span := ⟨offset, offset⟩

/-- Number of code units covered. -/
def length (s : Span) : Nat := s.stop - s.start

/-- A span is empty when its ends coincide. -/
def isEmpty (s : Span) : Bool := s.start == s.stop

/-- The part of a span inside `window`.  The start is pulled forward to the start of the window
and both ends are capped at its end, so a span past the window shrinks to a point at the end of
the window, and a span before it to a point at its start. -/
def clip (s window : Span) : Span :=
  let start := min (max s.start window.start) window.stop
  ⟨start, max (min s.stop window.stop) start⟩

instance : ToString Span where
  toString s := s!"{s.start}..{s.stop}"

theorem length_point (offset : Nat) : (point offset).length = 0 := Nat.sub_self offset

theorem start_le_stop_clip (s window : Span) : (s.clip window).start ≤ (s.clip window).stop :=
  Nat.le_max_right _ _

theorem stop_clip_le {s window : Span} : (s.clip window).stop ≤ window.stop := by
  simp only [clip]
  omega

/-- Inside its window a span is left alone. -/
theorem clip_eq_self {s window : Span} (hstart : window.start ≤ s.start)
    (hle : s.start ≤ s.stop) (hstop : s.stop ≤ window.stop) : s.clip window = s := by
  cases s
  simp only [clip, Span.mk.injEq] at *
  omega

end Span
end GrammarPaint
