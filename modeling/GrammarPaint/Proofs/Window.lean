import GrammarPaint.Presentation
import GrammarPaint.Proofs.Painting
import GrammarPaint.Proofs.Tiling

/-!
# What a window shows

The tokens of a document tile it, and so the pieces that a window shows of them tile the window:
nothing in it is left out and nothing is shown twice (`Document.showsWindow_pieces`).  Each piece
has the style that the token has in the whole document.  An empty piece at the stop of the window
says that there are no others.

Tokens that stop in front of the window are not shown, and those that start behind it are shown as
nothing.  Both are clipped to an empty span, so it makes no difference to the tiling.
-/

set_option autoImplicit false
namespace GrammarPaint

/-- The piece that a window shows of a token. -/
def Token.piece (window : Span) (t : Token) : Piece := ⟨t.span.clip window, t.style, t.isEnd⟩

/-- Whether a window shows a piece of a token. -/
def Token.isShown (window : Span) (t : Token) : Bool :=
  t.isEnd || window.start < t.span.stop

theorem Span.clip_of_stop_le {s window : Span} (hs : s.start ≤ s.stop)
    (hwindow : window.start ≤ window.stop) (h : s.stop ≤ window.start) :
    (s.clip window).start = (s.clip window).stop := by
  rw [clip_eq hs hwindow]
  simp only [clamp]
  omega

namespace Document

/-! ## The window -/

theorem start_le_stop_window (d : Document) (offset length : Nat) :
    (d.window offset length).start ≤ (d.window offset length).stop := by
  simp only [window]
  omega

theorem clamp_window (d : Document) (offset length : Nat) :
    (d.window offset length).clamp 0 = (d.window offset length).start ∧
      (d.window offset length).clamp d.length = (d.window offset length).stop := by
  simp only [window, Span.clamp]
  omega

theorem window_capped (d : Document) (offset length more : Nat) :
    d.window offset (min (offset + length) (d.length + more) - offset)
      = d.window offset length := by
  simp only [window, Span.mk.injEq, true_and]
  omega

theorem pieces_eq (d : Document) (offset length : Nat) :
    d.pieces offset length
      = (d.styledTokens.filter (Token.isShown (d.window offset length))).map
          (Token.piece (d.window offset length)) := rfl

/-- The sum of offset and length may be cut off anywhere behind the document. -/
theorem pieces_capped (d : Document) (offset length more : Nat) :
    d.pieces offset (min (offset + length) (d.length + more) - offset)
      = d.pieces offset length := by
  rw [pieces_eq, window_capped, pieces_eq]

/-! ## Tokens in their final styles -/

theorem map_span_styledTokens (d : Document) :
    d.styledTokens.map (fun t => (t.span, t.isEnd)) = d.tokens.map fun t => (t.span, t.isEnd) := by
  refine map_paintVisible (fun p t => ?_) _ _
  cases p <;> rfl

/-- The tokens tile the document, in whatever styles they are. -/
theorem tiles_styledTokens (d : Document) : Tiles Token.span 0 d.styledTokens d.length := by
  have hspans := congrArg (List.map Prod.fst) d.map_span_styledTokens
  rw [List.map_map, List.map_map] at hspans
  have hall : Tiles id 0 (d.styledTokens.map Token.span) d.length := by
    rw [show d.styledTokens.map Token.span = d.tokens.map Token.span from hspans, tiles_map]
    exact d.tiles_tokens
  rwa [tiles_map] at hall

/-- A token that is not the end of the file covers something. -/
theorem start_lt_stop_of_mem_styledTokens {d : Document} {t : Token} (ht : t ∈ d.styledTokens)
    (hend : t.isEnd = false) : t.span.start < t.span.stop := by
  have hmem : (t.span, t.isEnd) ∈ d.tokens.map fun t => (t.span, t.isEnd) :=
    d.map_span_styledTokens ▸ List.mem_map_of_mem ht
  obtain ⟨u, hu, heq⟩ := List.mem_map.1 hmem
  obtain ⟨hspan, hkind⟩ := Prod.mk.inj heq
  rw [tokens_eq, List.mem_append, List.mem_singleton] at hu
  rcases hu with hu | rfl
  · exact hspan ▸ start_lt_stop_of_mem_body hu
  · exact absurd (hkind.trans hend) nofun

/-- The last token and no other is the end of the file. -/
theorem exists_styledTokens_eq (d : Document) :
    ∃ body last, d.styledTokens = body ++ [last] ∧ last.isEnd = true ∧
      last.span = ⟨d.length, d.length⟩ ∧ ∀ t ∈ body, t.isEnd = false := by
  have hspans := d.map_span_styledTokens
  rw [tokens_eq, List.map_append] at hspans
  obtain ⟨body, ending, htokens, hbody, hending⟩ := List.map_eq_append_iff.1 hspans
  obtain ⟨last, rfl, hlast⟩ := List.map_eq_singleton_iff.1 hending
  obtain ⟨hspan, hend⟩ := Prod.mk.inj hlast
  refine ⟨body, last, htokens, hend, hspan, ?_⟩
  intro t ht
  have hmem : (t.span, t.isEnd) ∈ d.body.map fun t => (t.span, t.isEnd) :=
    hbody ▸ List.mem_map_of_mem ht
  obtain ⟨u, hu, heq⟩ := List.mem_map.1 hmem
  rw [← (Prod.mk.inj heq).2]
  exact beq_eq_false_iff_ne.2 (kind_ne_endOfFile_of_mem_body hu)

/-- A unit that a window shows is covered by one token. -/
theorem exists_filter_styledTokens {d : Document} {offset length unit : Nat}
    (h : (d.window offset length).covers unit = true) :
    ∃ t, d.styledTokens.filter (·.span.covers unit) = [t] := by
  rw [Span.covers_iff] at h
  have hunit : unit < d.length := Nat.lt_of_lt_of_le h.2 (Nat.min_le_right _ _)
  exact d.tiles_styledTokens.exists_filter_covers (Nat.zero_le unit) hunit

/-! ## Pieces -/

/-- **The pieces tile the window.** -/
theorem tiles_pieces (d : Document) (offset length : Nat) :
    Tiles Piece.span (d.window offset length).start (d.pieces offset length)
      (d.window offset length).stop := by
  have hwindow := d.start_le_stop_window offset length
  have hclip := d.tiles_styledTokens.clip hwindow
  rw [(d.clamp_window offset length).1, (d.clamp_window offset length).2] at hclip
  rw [pieces_eq, tiles_map]
  apply hclip.filter
  intro t ht hkeep
  have hle := (d.tiles_styledTokens.inside t ht).2.1
  simp only [Token.isShown, Bool.or_eq_false_iff, decide_eq_false_iff_not] at hkeep
  exact Span.clip_of_stop_le hle hwindow (Nat.le_of_not_lt hkeep.2)

/-- What a window shows of a unit is what is shown of the token that covers it. -/
theorem filter_covers_pieces {d : Document} {offset length unit : Nat}
    (h : (d.window offset length).covers unit = true) :
    (d.pieces offset length).filter (·.span.covers unit)
      = (d.styledTokens.filter (·.span.covers unit)).map
          (Token.piece (d.window offset length)) := by
  rw [pieces_eq, List.filter_map, List.filter_filter]
  congr 1
  apply List.filter_congr
  intro t ht
  have hle := (d.tiles_styledTokens.inside t ht).2.1
  have hcovers : (t.piece (d.window offset length)).span.covers unit = t.span.covers unit :=
    Span.covers_clip hle h
  rw [Function.comp_apply, hcovers]
  cases hunit : t.span.covers unit with
  | false => rfl
  | true =>
    -- a token that covers a unit of the window stops behind its start
    rw [Span.covers_iff] at h hunit
    simp only [Token.isShown, Bool.true_and, Bool.or_eq_true, decide_eq_true_eq]
    exact .inr (Nat.lt_of_le_of_lt h.1 hunit.2)

theorem exists_pieces_eq (d : Document) (offset length : Nat) :
    ∃ body last, d.pieces offset length = body ++ [last] ∧ last.isEnd = true ∧
      last.span = .point (d.window offset length).stop ∧ ∀ p ∈ body, p.isEnd = false := by
  obtain ⟨body, last, htokens, hend, hspan, hbody⟩ := d.exists_styledTokens_eq
  have hshown : last.isShown (d.window offset length) = true := by rw [Token.isShown, hend]; rfl
  refine ⟨(body.filter (Token.isShown (d.window offset length))).map
      (Token.piece (d.window offset length)),
    last.piece (d.window offset length), ?_, hend, ?_, ?_⟩
  · rw [pieces_eq, htokens, List.filter_append, List.filter_cons_of_pos hshown, List.filter_nil,
      List.map_append, List.map_singleton]
  · have hclamp := (d.clamp_window offset length).2
    have hclip := Span.clip_eq (s := last.span) (by rw [hspan])
      (d.start_le_stop_window offset length)
    rw [hspan] at hclip
    rw [Token.piece, hspan, hclip, hclamp]
    rfl
  · intro p hp
    obtain ⟨t, ht, rfl⟩ := List.mem_map.1 hp
    exact hbody t (List.mem_filter.1 ht).1

end Document

/-- What it means that pieces are what a window shows of tokens. -/
structure ShowsWindow (tokens : List Token) (window : Span) (pieces : List Piece) : Prop where
  /-- The first piece begins where the window does. -/
  start : pieces.head?.map (·.span.start) = some window.start
  /-- Each piece begins where the one before it stops. -/
  contiguous : pieces.IsChain fun p q => p.span.stop = q.span.start
  /-- No piece leaves the window. -/
  inside : ∀ p ∈ pieces, window.start ≤ p.span.start ∧ p.span.start ≤ p.span.stop ∧
    p.span.stop ≤ window.stop
  /-- The last piece, and no other, is the end of the file; it is empty and at the stop of the
  window. -/
  ending : ∃ body last, pieces = body ++ [last] ∧ last.isEnd = true ∧
    last.span = ⟨window.stop, window.stop⟩ ∧ ∀ p ∈ body, p.isEnd = false
  /-- The pieces are as long as the window. -/
  total : (pieces.map (·.span.length)).sum = window.stop - window.start
  /-- Each unit of the window is covered by one piece, which has the style of the one token that
  covers it. -/
  covered : ∀ unit, window.start ≤ unit → unit < window.stop →
    ∃ p t, pieces.filter (·.span.covers unit) = [p] ∧
      tokens.filter (·.span.covers unit) = [t] ∧ p.style = t.style

namespace Document

theorem pieces_whole (d : Document) (more : Nat) :
    d.pieces 0 (d.length + more) = d.styledTokens.map fun t => ⟨t.span, t.style, t.isEnd⟩ := by
  have hwindow : d.window 0 (d.length + more) = ⟨0, d.length⟩ := by
    simp only [window, Span.mk.injEq]
    omega
  have hshown : ∀ t ∈ d.styledTokens, t.isShown ⟨0, d.length⟩ = true := by
    intro t ht
    rw [Token.isShown]
    cases hend : t.isEnd with
    | true => rfl
    | false =>
      have hlt := start_lt_stop_of_mem_styledTokens ht hend
      exact decide_eq_true (Nat.lt_of_le_of_lt (Nat.zero_le _) hlt)
  rw [pieces_eq, hwindow, List.filter_eq_self.2 hshown]
  apply List.map_congr_left
  intro t ht
  obtain ⟨hstart, hle, hstop⟩ := d.tiles_styledTokens.inside t ht
  rw [Token.piece, Span.clip_eq_self hstart hle hstop]

/-- **A window shows the tokens of the document**, each unit in it once and in the style that it
has in the whole document.  A window that reaches past the document shows the rest of it, however
the sum of its offset and length is cut off there, and from the start it shows all tokens. -/
theorem showsWindow_pieces (d : Document) (offset length : Nat) :
    ShowsWindow d.styledTokens ⟨min offset d.length, min (offset + length) d.length⟩
        (d.pieces offset length) ∧
      (∀ more, d.pieces offset (min (offset + length) (d.length + more) - offset)
        = d.pieces offset length) ∧
      ∀ more, d.pieces 0 (d.length + more)
        = d.styledTokens.map fun t => ⟨t.span, t.style, t.isEnd⟩ := by
  have htiles := d.tiles_pieces offset length
  refine ⟨?_, ?_, d.pieces_whole⟩
  · constructor
    case start =>
      obtain ⟨body, last, hpieces, -⟩ := d.exists_pieces_eq offset length
      have hne : d.pieces offset length ≠ [] := by simp [hpieces]
      obtain ⟨first, rest, hcons⟩ := List.exists_cons_of_ne_nil hne
      have hfirst := htiles.start_head? first (by rw [hcons]; rfl)
      rw [hcons, List.head?_cons, Option.map_some, hfirst]
      rfl
    case contiguous => exact htiles.isChain
    case inside => exact htiles.inside
    case ending => exact d.exists_pieces_eq offset length
    case total => exact htiles.sum_length
    case covered =>
      intro unit hstart hstop
      have hcovers : (d.window offset length).covers unit = true :=
        Span.covers_iff.2 ⟨hstart, hstop⟩
      obtain ⟨t, ht⟩ := exists_filter_styledTokens hcovers
      refine ⟨t.piece (d.window offset length), t, ?_, ht, rfl⟩
      rw [filter_covers_pieces hcovers, ht, List.map_singleton]
  · intro more
    exact d.pieces_capped offset length more

end Document
end GrammarPaint
