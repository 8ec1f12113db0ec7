import GrammarPaint.Proofs.Window

/-!
# What is drawn in a window

The runs that are drawn in a window tile it, none of them is empty, and no two neighbours look the
same.  So they are as long as they can be, and there is only one way to draw what the tokens look
like: **the presentation of a window is the one list of runs that draws it**
(`Document.draws_iff`).  What a unit looks like does not depend on the window.

`Run.cons` puts one run in front of others.  What it keeps is proved for it first, and then for all
runs of a window by induction on the pieces.
-/

set_option autoImplicit false
namespace GrammarPaint

/-! ## Runs that are as long as they can be -/

/-- Runs from `start` to `stop` of which none is empty and no two neighbours look the same. -/
structure IsMaximal (start : Nat) (runs : List Run) (stop : Nat) : Prop where
  tiles : Tiles Run.span start runs stop
  positive : ∀ r ∈ runs, r.span.start < r.span.stop
  distinct : runs.IsChain fun r s => r.look ≠ s.look

/-- The looks of the runs that cover a unit. -/
def looksAt (runs : List Run) (unit : Nat) : List Look :=
  (runs.filter (·.span.covers unit)).map Run.look

theorem looksAt_cons (r : Run) (runs : List Run) (unit : Nat) :
    looksAt (r :: runs) unit
      = if r.span.covers unit then r.look :: looksAt runs unit else looksAt runs unit := by
  rw [looksAt, List.filter_cons]
  split <;> rfl

theorem looksAt_cons_of_lt {r : Run} {unit : Nat} (hstart : r.span.start ≤ unit)
    (hstop : unit < r.span.stop) (runs : List Run) :
    looksAt (r :: runs) unit = r.look :: looksAt runs unit := by
  rw [looksAt_cons, if_pos (Span.covers_iff.2 ⟨hstart, hstop⟩)]

theorem looksAt_cons_of_le {r : Run} {unit : Nat} (h : r.span.stop ≤ unit) (runs : List Run) :
    looksAt (r :: runs) unit = looksAt runs unit := by
  rw [looksAt_cons, if_neg (by rw [Span.covers_iff]; omega)]

/-- A run that is put in front of others stays by itself, or it looks like the first of them and
becomes one with it. -/
theorem cons_cases {r : Run} {runs : List Run} {stop : Nat}
    (h : Tiles Run.span r.span.stop runs stop) :
    (Run.cons r runs = r :: runs ∧ ∀ s ∈ runs.head?, r.look ≠ s.look) ∨
      ∃ s rest, runs = s :: rest ∧ s.look = r.look ∧ s.span.start = r.span.stop ∧
        Run.cons r runs = ⟨⟨r.span.start, s.span.stop⟩, r.look⟩ :: rest := by
  cases runs with
  | nil => exact .inl ⟨rfl, fun s hs => nomatch hs⟩
  | cons s rest =>
    obtain ⟨hstart, -, -⟩ := h
    rw [Run.cons]
    by_cases hlook : s.look = r.look
    · exact .inr ⟨s, rest, rfl, hlook, hstart, if_pos ⟨hlook, hstart⟩⟩
    · refine .inl ⟨if_neg fun hand => hlook hand.1, fun u hu => ?_⟩
      obtain rfl := Option.some.inj hu
      exact Ne.symm hlook

theorem IsMaximal.cons {r : Run} {runs : List Run} {stop : Nat}
    (hr : r.span.start < r.span.stop) (h : IsMaximal r.span.stop runs stop) :
    IsMaximal r.span.start (Run.cons r runs) stop := by
  obtain ⟨htiles, hpositive, hdistinct⟩ := h
  rcases cons_cases htiles with ⟨hcons, hlook⟩ | ⟨s, rest, rfl, hlook, hstart, hcons⟩
  · rw [hcons]
    exact ⟨⟨rfl, Nat.le_of_lt hr, htiles⟩, List.forall_mem_cons.2 ⟨hr, hpositive⟩,
      List.isChain_cons.2 ⟨hlook, hdistinct⟩⟩
  · obtain ⟨-, hle, hrest⟩ := htiles
    rw [List.forall_mem_cons] at hpositive
    rw [List.isChain_cons] at hdistinct
    have hlt : r.span.start < s.span.stop := by omega
    rw [hcons]
    refine ⟨⟨rfl, Nat.le_of_lt hlt, hrest⟩, List.forall_mem_cons.2 ⟨hlt, hpositive.2⟩, ?_⟩
    rw [hlook] at hdistinct
    exact List.isChain_cons.2 hdistinct

/-- No unit looks different for it. -/
theorem looksAt_cons_eq {r : Run} {runs : List Run} {stop : Nat}
    (hr : r.span.start ≤ r.span.stop) (h : Tiles Run.span r.span.stop runs stop) (unit : Nat) :
    looksAt (Run.cons r runs) unit = looksAt (r :: runs) unit := by
  rcases cons_cases h with ⟨hcons, -⟩ | ⟨s, rest, rfl, hlook, hstart, hcons⟩
  · rw [hcons]
  · obtain ⟨-, hle, hrest⟩ := h
    rw [hcons, looksAt_cons, looksAt_cons, looksAt_cons, hlook]
    simp only [Span.covers_iff]
    -- the unit is in the joined run exactly if it is in one of the two, and it is never in both
    by_cases hin : r.span.start ≤ unit ∧ unit < r.span.stop
    · rw [if_pos hin, if_pos (by omega), if_neg (by omega)]
    · rw [if_neg hin]
      exact if_congr (by omega) rfl rfl

theorem isMaximal_foldr {start stop : Nat} {runs : List Run}
    (h : Tiles Run.span start runs stop) (hpositive : ∀ r ∈ runs, r.span.start < r.span.stop) :
    IsMaximal start (runs.foldr Run.cons []) stop ∧
      ∀ unit, looksAt (runs.foldr Run.cons []) unit = looksAt runs unit := by
  induction runs generalizing start with
  | nil => exact ⟨⟨h, hpositive, .nil⟩, fun unit => rfl⟩
  | cons r runs ih =>
    obtain ⟨rfl, hle, hrest⟩ := h
    rw [List.forall_mem_cons] at hpositive
    obtain ⟨hmaximal, hlooks⟩ := ih hrest hpositive.2
    refine ⟨hmaximal.cons hpositive.1, ?_⟩
    intro unit
    rw [List.foldr_cons, looksAt_cons_eq hle hmaximal.tiles, looksAt_cons, looksAt_cons, hlooks]

/-! ## There is only one way -/

namespace IsMaximal

variable {start stop : Nat} {r s : Run} {runs others : List Run}

theorem eq_nil_iff (h : IsMaximal start runs stop) : runs = [] ↔ start = stop := by
  constructor
  · rintro rfl
    exact h.tiles
  · intro hempty
    cases runs with
    | nil => rfl
    | cons r runs =>
      obtain ⟨hstart, -, hrest⟩ := h.tiles
      have hpositive := h.positive r List.mem_cons_self
      have hle := hrest.le
      omega

theorem tail (h : IsMaximal start (r :: runs) stop) : IsMaximal r.span.stop runs stop :=
  ⟨h.tiles.2.2, fun s hs => h.positive s (List.mem_cons_of_mem _ hs),
    (List.isChain_cons.1 h.distinct).2⟩

/-- A run does not stop before another that begins at the same place and looks the same there. -/
theorem stop_le (h : IsMaximal start (r :: runs) stop) (h' : IsMaximal start (s :: others) stop)
    (hlook : r.look = s.look)
    (hlooks : ∀ unit, start ≤ unit → unit < stop →
      looksAt (r :: runs) unit = looksAt (s :: others) unit) :
    s.span.stop ≤ r.span.stop := by
  by_contra hlt
  rw [Nat.not_le] at hlt
  obtain ⟨hstart, hle, hrest⟩ := h.tiles
  obtain ⟨hstart', -, hrest'⟩ := h'.tiles
  have hstop := hrest'.le
  -- the unit at which the first run stops looks like both of its neighbours
  have hunit := hlooks r.span.stop (by omega) (by omega)
  rw [looksAt_cons_of_le (Nat.le_refl _), looksAt_cons_of_lt (by omega) hlt] at hunit
  cases runs with
  | nil => exact nomatch hunit
  | cons t runs =>
    have hpositive := h.positive t (by simp)
    have hnext : t.span.start = r.span.stop := hrest.1
    rw [looksAt_cons_of_lt (Nat.le_of_eq hnext) (by omega), List.cons.injEq] at hunit
    have hne := (List.isChain_cons.1 h.distinct).1 t rfl
    exact hne (hlook.trans hunit.1.symm)

/-- Where two lists of runs look the same, their first runs are the same. -/
theorem head_eq (h : IsMaximal start (r :: runs) stop) (h' : IsMaximal start (s :: others) stop)
    (hlooks : ∀ unit, start ≤ unit → unit < stop →
      looksAt (r :: runs) unit = looksAt (s :: others) unit) : r = s := by
  obtain ⟨hstart, -, hrest⟩ := h.tiles
  obtain ⟨hstart', -, -⟩ := h'.tiles
  have hpositive := h.positive r List.mem_cons_self
  have hpositive' := h'.positive s List.mem_cons_self
  have hle := hrest.le
  have hfirst := hlooks start (Nat.le_refl _) (by omega)
  rw [looksAt_cons_of_lt (Nat.le_of_eq hstart) (by omega),
    looksAt_cons_of_lt (Nat.le_of_eq hstart') (by omega), List.cons.injEq] at hfirst
  have hstop : r.span.stop = s.span.stop := by
    refine Nat.le_antisymm ?_ (h.stop_le h' hfirst.1 hlooks)
    exact h'.stop_le h hfirst.1.symm fun unit hu hu' => (hlooks unit hu hu').symm
  obtain ⟨⟨start, stop⟩, look⟩ := r
  obtain ⟨⟨start', stop'⟩, look'⟩ := s
  simp only [Run.mk.injEq, Span.mk.injEq]
  exact ⟨⟨hstart.trans hstart'.symm, hstop⟩, hfirst.1⟩

/-- **Runs that are as long as they can be are determined by what they look like.** -/
theorem eq_of_looksAt (h : IsMaximal start runs stop) (h' : IsMaximal start others stop)
    (hlooks : ∀ unit, start ≤ unit → unit < stop → looksAt runs unit = looksAt others unit) :
    runs = others := by
  induction runs generalizing start others with
  | nil => exact (h'.eq_nil_iff.2 (h.eq_nil_iff.1 rfl)).symm
  | cons r runs ih =>
    cases others with
    | nil => exact h.eq_nil_iff.2 (h'.eq_nil_iff.1 rfl)
    | cons s others =>
      obtain rfl := h.head_eq h' hlooks
      refine congrArg (r :: ·) (ih h.tail h'.tail ?_)
      intro unit hu hu'
      have hstart := h.tiles.1
      have hpositive := h.positive r List.mem_cons_self
      have hunit := hlooks unit (by omega) hu'
      rwa [looksAt_cons_of_le hu, looksAt_cons_of_le hu] at hunit

end IsMaximal

/-! ## Drawing -/

/-- What it means that runs draw what a window shows of tokens, in the looks of a palette. -/
structure Draws (p : Palette) (tokens : List Token) (window : Span) (runs : List Run) : Prop where
  /-- No run is empty. -/
  positive : ∀ r ∈ runs, r.span.start < r.span.stop
  /-- The first run begins where the window does. -/
  start : ∀ r ∈ runs.head?, r.span.start = window.start
  /-- Each run begins where the one before it stops. -/
  contiguous : runs.IsChain fun r s => r.span.stop = s.span.start
  /-- The last run stops where the window does. -/
  stop : ∀ r ∈ runs.getLast?, r.span.stop = window.stop
  /-- There is no run at all exactly if the window is empty. -/
  eq_nil_iff : runs = [] ↔ window.start = window.stop
  /-- No two neighbours look the same. -/
  distinct : runs.IsChain fun r s => r.look ≠ s.look
  /-- Each unit of the window is covered by one run, and looks like the style of the one token that
  covers it. -/
  looks : ∀ unit, window.start ≤ unit → unit < window.stop →
    ∃ r t, runs.filter (·.span.covers unit) = [r] ∧
      tokens.filter (·.span.covers unit) = [t] ∧ r.look = p.resolve t.style

theorem Draws.isMaximal {p : Palette} {tokens : List Token} {window : Span} {runs : List Run}
    (h : Draws p tokens window runs) : IsMaximal window.start runs window.stop := by
  refine ⟨?_, h.positive, h.distinct⟩
  exact tiles_of_isChain (fun r hr => Nat.le_of_lt (h.positive r hr)) h.start h.contiguous h.stop
    h.eq_nil_iff.1

/-- What is drawn at a unit is settled by the tokens. -/
theorem Draws.looksAt_eq {p : Palette} {tokens : List Token} {window : Span} {runs others : List Run}
    (h : Draws p tokens window runs) (h' : Draws p tokens window others) {unit : Nat}
    (hstart : window.start ≤ unit) (hstop : unit < window.stop) :
    looksAt runs unit = looksAt others unit := by
  obtain ⟨r, t, hr, ht, hlook⟩ := h.looks unit hstart hstop
  obtain ⟨s, u, hs, hu, hlook'⟩ := h'.looks unit hstart hstop
  rw [ht, List.cons.injEq] at hu
  rw [looksAt, looksAt, hr, hs, List.map_singleton, List.map_singleton, hlook, hlook', hu.1]

theorem draws_of_isMaximal {p : Palette} {tokens : List Token} {window : Span} {runs : List Run}
    (h : IsMaximal window.start runs window.stop)
    (hlooks : ∀ unit, window.start ≤ unit → unit < window.stop →
      ∃ t, tokens.filter (·.span.covers unit) = [t] ∧ looksAt runs unit = [p.resolve t.style]) :
    Draws p tokens window runs := by
  constructor
  case positive => exact h.positive
  case start => exact h.tiles.start_head?
  case contiguous => exact h.tiles.isChain
  case stop => exact h.tiles.stop_getLast?
  case eq_nil_iff => exact h.eq_nil_iff
  case distinct => exact h.distinct
  case looks =>
    intro unit hstart hstop
    obtain ⟨t, ht, hlook⟩ := hlooks unit hstart hstop
    obtain ⟨r, hr, hlook⟩ := List.map_eq_singleton_iff.1 hlook
    exact ⟨r, t, hr, ht, hlook⟩

/-- Whether a piece is drawn. -/
def Piece.isDrawn (piece : Piece) : Bool := !piece.isEnd && piece.span.length != 0

namespace Document

theorem start_eq_stop_of_not_isDrawn {d : Document} {offset length : Nat} {piece : Piece}
    (hpiece : piece ∈ d.pieces offset length) (h : piece.isDrawn = false) :
    piece.span.start = piece.span.stop := by
  obtain ⟨-, hle, -⟩ := (d.tiles_pieces offset length).inside piece hpiece
  obtain ⟨body, last, hpieces, -, hspan, hbody⟩ := d.exists_pieces_eq offset length
  rw [hpieces, List.mem_append, List.mem_singleton] at hpiece
  rcases hpiece with hpiece | rfl
  · simp only [Piece.isDrawn, hbody piece hpiece, Bool.not_false, Bool.true_and, bne_eq_false_iff_eq,
      Span.length] at h
    omega
  · rw [hspan]
    rfl

/-- The pieces that are drawn, each as a run of its own. -/
def drawnRuns (d : Document) (p : Palette) (offset length : Nat) : List Run :=
  ((d.pieces offset length).filter Piece.isDrawn).map p.run

theorem presentation_eq (d : Document) (p : Palette) (offset length : Nat) :
    d.presentation p offset length = (d.drawnRuns p offset length).foldr Run.cons [] := rfl

theorem tiles_drawnRuns (d : Document) (p : Palette) (offset length : Nat) :
    Tiles Run.span (d.window offset length).start (d.drawnRuns p offset length)
      (d.window offset length).stop := by
  rw [drawnRuns, tiles_map]
  exact (d.tiles_pieces offset length).filter fun piece => start_eq_stop_of_not_isDrawn

theorem start_lt_stop_of_mem_drawnRuns {d : Document} {p : Palette} {offset length : Nat} :
    ∀ r ∈ d.drawnRuns p offset length, r.span.start < r.span.stop := by
  intro r hr
  obtain ⟨piece, hpiece, rfl⟩ := List.mem_map.1 hr
  obtain ⟨hpiece, hdrawn⟩ := List.mem_filter.1 hpiece
  have hle := ((d.tiles_pieces offset length).inside piece hpiece).2.1
  simp only [Piece.isDrawn, Bool.and_eq_true, bne_iff_ne, Span.length] at hdrawn
  have hlt : piece.span.start < piece.span.stop := by omega
  exact hlt

/-- The pieces that are drawn look like the tokens that they are pieces of. -/
theorem looksAt_drawnRuns {d : Document} {offset length unit : Nat} {t : Token}
    (h : (d.window offset length).covers unit = true)
    (ht : d.styledTokens.filter (·.span.covers unit) = [t]) (p : Palette) :
    looksAt (d.drawnRuns p offset length) unit = [p.resolve t.style] := by
  have hpieces : ((d.pieces offset length).filter Piece.isDrawn).filter (·.span.covers unit)
      = (d.pieces offset length).filter (·.span.covers unit) := by
    rw [List.filter_filter]
    apply List.filter_congr
    intro piece hpiece
    cases hdrawn : piece.isDrawn with
    | true => rw [Bool.and_true]
    | false =>
      have hempty := start_eq_stop_of_not_isDrawn hpiece hdrawn
      rw [Bool.and_false, eq_comm, Bool.eq_false_iff, Ne, Span.covers_iff]
      omega
  have hrun : (fun r : Run => r.span.covers unit) ∘ p.run = fun piece => piece.span.covers unit :=
    rfl
  rw [looksAt, drawnRuns, List.filter_map, hrun, hpieces, filter_covers_pieces h, ht,
    List.map_singleton, List.map_singleton, List.map_singleton]
  rfl

theorem draws_presentation (d : Document) (p : Palette) (offset length : Nat) :
    Draws p d.styledTokens (d.window offset length) (d.presentation p offset length) := by
  obtain ⟨hmaximal, hlooks⟩ :=
    isMaximal_foldr (d.tiles_drawnRuns p offset length) start_lt_stop_of_mem_drawnRuns
  rw [presentation_eq]
  apply draws_of_isMaximal hmaximal
  intro unit hstart hstop
  have hcovers : (d.window offset length).covers unit = true := Span.covers_iff.2 ⟨hstart, hstop⟩
  obtain ⟨t, ht⟩ := exists_filter_styledTokens hcovers
  refine ⟨t, ht, ?_⟩
  rw [hlooks, looksAt_drawnRuns hcovers ht]

/-- **The presentation of a window is the one list of runs that draws it**, whatever the palette,
and however the sum of offset and length is cut off behind the document.  Hence a unit looks the
same in each window as it does when the whole document is drawn. -/
theorem draws_iff (d : Document) (p : Palette) (offset length : Nat) :
    (∀ runs, Draws p d.styledTokens ⟨min offset d.length, min (offset + length) d.length⟩ runs ↔
        d.presentation p offset length = runs) ∧
      (∀ more, d.presentation p offset (min (offset + length) (d.length + more) - offset)
        = d.presentation p offset length) ∧
      ∀ unit, min offset d.length ≤ unit → unit < min (offset + length) d.length →
        ∃ r s, (d.presentation p offset length).filter (·.span.covers unit) = [r] ∧
          (d.presentation p 0 d.length).filter (·.span.covers unit) = [s] ∧ r.look = s.look := by
  have hdraws := d.draws_presentation p offset length
  refine ⟨?_, ?_, ?_⟩
  · intro runs
    constructor
    · intro hruns
      exact hdraws.isMaximal.eq_of_looksAt hruns.isMaximal fun unit => hdraws.looksAt_eq hruns
    · rintro rfl
      exact hdraws
  · intro more
    rw [presentation, presentation, pieces_capped]
  · intro unit hstart hstop
    have hwhole := d.draws_presentation p 0 d.length
    have hend : unit < (d.window 0 d.length).stop := by
      simp only [window]
      omega
    obtain ⟨r, t, hr, ht, hlook⟩ := hdraws.looks unit hstart hstop
    obtain ⟨s, u, hs, hu, hlook'⟩ := hwhole.looks unit (by simp [window]) hend
    rw [ht, List.cons.injEq] at hu
    exact ⟨r, s, hr, hs, by rw [hlook, hlook', hu.1]⟩

end Document
end GrammarPaint
