import Mathlib.Algebra.GroupWithZero.Nat
import Mathlib.Data.List.Chain
import GrammarPaint.Span

/-!
# Spans in a row

Things that have a span tile a stretch of text if each of them begins where the one before it
stops (`Tiles`).  Tokens do, and so does what a window shows of them and what is drawn there.

What is proved about tilings once and for all is

* `exists_filter_covers` — **each unit is covered by exactly one thing**;
* `Tiles.clip`, `Tiles.filter` — clipping to a window and leaving out what is empty keep a tiling
  a tiling;
* `tiles_of_isChain` — it is enough to look at neighbours.
-/

set_option autoImplicit false
namespace GrammarPaint

namespace Span

/-- Whether a span covers the code unit at `offset`. -/
def covers (s : Span) (offset : Nat) : Bool := decide (s.start ≤ offset ∧ offset < s.stop)

theorem covers_iff {s : Span} {offset : Nat} :
    s.covers offset = true ↔ s.start ≤ offset ∧ offset < s.stop := decide_eq_true_iff

/-- The place in a window that is nearest to `offset`. -/
def clamp (window : Span) (offset : Nat) : Nat := min (max offset window.start) window.stop

/-- A span is clipped at both ends alike. -/
theorem clip_eq {s window : Span} (hs : s.start ≤ s.stop) (hwindow : window.start ≤ window.stop) :
    s.clip window = ⟨window.clamp s.start, window.clamp s.stop⟩ := by
  simp only [clip, clamp, Span.mk.injEq, true_and]
  omega

/-- Inside the window, a clipped span covers what the span does. -/
theorem covers_clip {s window : Span} {offset : Nat} (hs : s.start ≤ s.stop)
    (h : window.covers offset = true) : (s.clip window).covers offset = s.covers offset := by
  rw [covers_iff] at h
  rw [clip_eq hs (by omega), Bool.eq_iff_iff, covers_iff, covers_iff]
  simp only [clamp]
  omega

end Span

variable {α β : Type} {span : α → Span} {start stop : Nat} {xs : List α}

/-- Things in a row, from `start` to `stop`: each begins where the one before it stops. -/
def Tiles (span : α → Span) (start : Nat) (xs : List α) (stop : Nat) : Prop :=
  match xs with
  | [] => start = stop
  | x :: xs =>
    (span x).start = start ∧ (span x).start ≤ (span x).stop ∧ Tiles span (span x).stop xs stop

/-! ## What a tiling reaches -/

namespace Tiles

theorem le (h : Tiles span start xs stop) : start ≤ stop := by
  induction xs generalizing start with
  | nil => exact Nat.le_of_eq h
  | cons x xs ih =>
    obtain ⟨rfl, hle, hrest⟩ := h
    exact Nat.le_trans hle (ih hrest)

theorem inside (h : Tiles span start xs stop) :
    ∀ x ∈ xs, start ≤ (span x).start ∧ (span x).start ≤ (span x).stop ∧ (span x).stop ≤ stop := by
  induction xs generalizing start with
  | nil => exact fun x hx => absurd hx List.not_mem_nil
  | cons x xs ih =>
    obtain ⟨rfl, hle, hrest⟩ := h
    rw [List.forall_mem_cons]
    refine ⟨⟨Nat.le_refl _, hle, hrest.le⟩, ?_⟩
    intro y hy
    obtain ⟨hstart, hy⟩ := ih hrest y hy
    exact ⟨Nat.le_trans hle hstart, hy⟩

theorem sum_length (h : Tiles span start xs stop) :
    (xs.map fun x => (span x).length).sum = stop - start := by
  induction xs generalizing start with
  | nil => exact (Nat.sub_eq_zero_of_le (Nat.le_of_eq (Eq.symm h))).symm
  | cons x xs ih =>
    obtain ⟨rfl, hle, hrest⟩ := h
    have hstop := hrest.le
    rw [List.map_cons, List.sum_cons, ih hrest, Span.length]
    omega

end Tiles

/-! ## From neighbour to neighbour -/

theorem Tiles.start_head? (h : Tiles span start xs stop) :
    ∀ x ∈ xs.head?, (span x).start = start := by
  intro x hx
  cases xs with
  | nil => exact nomatch hx
  | cons y xs => exact Option.some.inj hx ▸ h.1

theorem Tiles.isChain (h : Tiles span start xs stop) :
    xs.IsChain fun x y => (span x).stop = (span y).start := by
  induction xs generalizing start with
  | nil => exact .nil
  | cons x xs ih =>
    obtain ⟨-, -, hrest⟩ := h
    exact List.isChain_cons.2 ⟨fun y hy => (hrest.start_head? y hy).symm, ih hrest⟩

theorem Tiles.stop_getLast? (h : Tiles span start xs stop) :
    ∀ x ∈ xs.getLast?, (span x).stop = stop := by
  induction xs generalizing start with
  | nil => exact fun x hx => nomatch hx
  | cons x xs ih =>
    obtain ⟨-, -, hrest⟩ := h
    intro y hy
    cases xs with
    | nil => exact Option.some.inj hy ▸ hrest
    | cons z xs => exact ih hrest y (by rwa [List.getLast?_cons_cons] at hy)

/-- **Things tile what is between the start of the first and the stop of the last**, if each begins
where the one before it stops. -/
theorem tiles_of_isChain (hle : ∀ x ∈ xs, (span x).start ≤ (span x).stop)
    (hstart : ∀ x ∈ xs.head?, (span x).start = start)
    (hchain : xs.IsChain fun x y => (span x).stop = (span y).start)
    (hstop : ∀ x ∈ xs.getLast?, (span x).stop = stop) (hnil : xs = [] → start = stop) :
    Tiles span start xs stop := by
  induction xs generalizing start with
  | nil => exact hnil rfl
  | cons x xs ih =>
    rw [List.forall_mem_cons] at hle
    rw [List.isChain_cons] at hchain
    refine ⟨hstart x rfl, hle.1, ih hle.2 (fun y hy => (hchain.1 y hy).symm) hchain.2 ?_ ?_⟩
    · intro y hy
      refine hstop y ?_
      rw [List.getLast?_cons, Option.mem_def.1 hy]
      rfl
    · rintro rfl
      exact hstop x rfl

/-! ## What keeps a tiling a tiling -/

theorem tiles_map (f : β → α) (xs : List β) :
    Tiles span start (xs.map f) stop ↔ Tiles (fun x => span (f x)) start xs stop := by
  induction xs generalizing start with
  | nil => exact Iff.rfl
  | cons x xs ih => rw [List.map_cons, Tiles, Tiles, ih]

/-- What is empty can be left out. -/
theorem Tiles.filter {keep : α → Bool} (h : Tiles span start xs stop)
    (hempty : ∀ x ∈ xs, keep x = false → (span x).start = (span x).stop) :
    Tiles span start (xs.filter keep) stop := by
  induction xs generalizing start with
  | nil => exact h
  | cons x xs ih =>
    obtain ⟨hstart, hle, hrest⟩ := h
    rw [List.forall_mem_cons] at hempty
    rw [List.filter_cons]
    split
    · exact ⟨hstart, hle, ih hrest hempty.2⟩
    · rename_i hkeep
      rw [← hstart, hempty.1 (Bool.eq_false_iff.2 hkeep)]
      exact ih hrest hempty.2

/-- What tiles a text tiles the part of it that a window shows. -/
theorem Tiles.clip {window : Span} (h : Tiles span start xs stop)
    (hwindow : window.start ≤ window.stop) :
    Tiles (fun x => (span x).clip window) (window.clamp start) xs (window.clamp stop) := by
  induction xs generalizing start with
  | nil => exact congrArg window.clamp h
  | cons x xs ih =>
    obtain ⟨rfl, hle, hrest⟩ := h
    have hclip := Span.clip_eq hle hwindow
    refine ⟨congrArg Span.start hclip, Span.start_le_stop_clip _ _, ?_⟩
    have hstop : ((span x).clip window).stop = window.clamp (span x).stop :=
      congrArg Span.stop hclip
    exact hstop ▸ ih hrest

/-! ## What covers a unit -/

theorem Tiles.filter_covers_eq_nil {offset : Nat} (h : Tiles span start xs stop)
    (hoffset : offset < start) : (xs.filter fun x => (span x).covers offset) = [] := by
  rw [List.filter_eq_nil_iff]
  intro x hx
  have hinside := h.inside x hx
  rw [Span.covers_iff]
  omega

/-- **Each unit is covered by one thing and by no other.** -/
theorem Tiles.exists_filter_covers {offset : Nat} (h : Tiles span start xs stop)
    (hstart : start ≤ offset) (hstop : offset < stop) :
    ∃ x, (xs.filter fun x => (span x).covers offset) = [x] := by
  induction xs generalizing start with
  | nil =>
    have heq : start = stop := h
    omega
  | cons x xs ih =>
    obtain ⟨rfl, hle, hrest⟩ := h
    rw [List.filter_cons]
    by_cases hx : offset < (span x).stop
    · rw [if_pos (Span.covers_iff.2 ⟨hstart, hx⟩), hrest.filter_covers_eq_nil hx]
      exact ⟨x, rfl⟩
    · rw [if_neg (fun hcovers => hx (Span.covers_iff.1 hcovers).2)]
      exact ih hrest (Nat.le_of_not_lt hx)

end GrammarPaint
