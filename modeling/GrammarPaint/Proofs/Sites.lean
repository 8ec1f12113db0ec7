import GrammarPaint.Proofs.Reporting
import GrammarPaint.Proofs.Tiling
import GrammarPaint.Proofs.Turns

/-!
# Where items are complained about

Each issue of a file points to a token, or to the end of the file (`IsSite`).  After a complaint a
place to go on may be found at the very token that was complained about, and the next item then
begins there.  It takes that token before it can be complained about again, so that no two issues
point to the same token (`Progress.ReportsInOrder.turn`): **issues are in the order of the tokens, at
most one a turn** (`pointsInOrder`).

In a document, where the tokens come one behind the other, so do the issues.
-/

set_option autoImplicit false
namespace GrammarPaint
namespace Progress

/-! ## One turn -/

/-- A turn is silent, or it complains once: behind the token that it begins at, or about this token
if no item begins with it. -/
theorem turn_cases {s : Progress} (hend : s.kind ≠ .endOfFile) :
    s.turn.reported = s.reported ∨
      ∃ site complaint, s.IsBefore site ∧ site.reported = s.reported ∧
        (s.position < site.position ∨ s.kind ∉ itemStart) ∧ s.turn = site.recover complaint := by
  rw [turn]
  split
  · rename_i parts _
    cases houtcome : (s.take.workOff parts).1 with
    | matched => exact .inl ((reported_of_matched houtcome).trans (reported_take s))
    | recovered =>
      obtain ⟨site, complaint, hbefore, hreported, hlater⟩ := exists_recover houtcome
      exact .inr ⟨site, complaint, (isBefore_take hend).trans hbefore,
        hreported.trans (reported_take s),
        .inl (Nat.lt_of_lt_of_le (position_lt_take hend) hbefore.position_le), hlater⟩
  · rename_i hitem
    rw [item?_eq_none_iff, Walk.kind_word] at hitem
    exact .inr ⟨s, _, .refl s, rfl, .inr (hitem.resolve_right hend), rfl⟩

theorem position_lt_turn {s : Progress} (hend : s.kind ≠ .endOfFile) :
    s.position < s.turn.position :=
  Nat.lt_of_lt_of_le (position_lt_take hend) (isBefore_turn hend).position_le

/-- A turn complains at most once. -/
theorem length_reported_turn {s : Progress} (hend : s.kind ≠ .endOfFile) :
    s.turn.reported.length ≤ s.reported.length + 1 := by
  rcases turn_cases hend with hsilent | ⟨site, complaint, -, hreported, -, hturn⟩
  · rw [hsilent]
    exact Nat.le_succ _
  · rw [hturn, reported_recover, hreported, List.length_append]
    exact Nat.le_refl _

/-- What was complained about is left behind, unless an item begins with it. -/
def IsBehind (s : Progress) (position : Nat) : Prop :=
  position < s.position ∨ position = s.position ∧ s.kind ∈ itemStart

theorem isBehind_recover (site : Progress) (complaint : Complaint) :
    (site.recover complaint).IsBehind site.position := by
  by_cases hstart : site.kind ∈ itemStart
  · have hrecover : site.recover complaint = site.report complaint := by
      rw [recover, seek]
      exact if_pos hstart
    rw [hrecover]
    exact .inr ⟨rfl, hstart⟩
  · exact .inl (Nat.lt_of_lt_of_le (position_lt_take (ne_endOfFile_of_not_mem hstart))
      (isBefore_take_recover hstart complaint).position_le)

/-- What was reported points to stops, each of them behind the one before it. -/
structure ReportsInOrder (s : Progress) : Prop where
  isStop : s.IsStop
  pairwise : s.reported.Pairwise fun r r' => r.position < r'.position
  isStop_of_mem : ∀ r ∈ s.reported, (Walk.mk s.tokens r.position).IsStop
  isBehind : ∀ r ∈ s.reported, s.IsBehind r.position

theorem reportsInOrder_start (tokens : List Token) : (start tokens).ReportsInOrder where
  isStop := Walk.isStop_start tokens
  pairwise := .nil
  isStop_of_mem := List.forall_mem_nil _
  isBehind := List.forall_mem_nil _

/-- **A turn reports in order.**  Where an item begins with what was complained about last, the turn
takes this token first. -/
theorem ReportsInOrder.turn {s : Progress} (hend : s.kind ≠ .endOfFile) (h : s.ReportsInOrder) :
    s.turn.ReportsInOrder := by
  have hlt := position_lt_turn hend
  have hbefore := (isBefore_take hend).trans (isBefore_turn hend)
  have hleft : ∀ r ∈ s.reported, s.turn.IsBehind r.position := fun r hr =>
    .inl ((h.isBehind r hr).elim (Nat.lt_trans · hlt) (·.1 ▸ hlt))
  rcases turn_cases hend with hsilent | ⟨site, complaint, hsite, hreported, hpassed, hturn⟩
  · refine ⟨hbefore.isStop h.isStop, hsilent ▸ h.pairwise, ?_, hsilent ▸ hleft⟩
    rw [hsilent, hbefore.tokens_eq]
    exact h.isStop_of_mem
  · have hnew : s.turn.reported = s.reported ++ [⟨site.position, complaint⟩] := by
      rw [hturn, reported_recover, hreported]
    have hstop : (Walk.mk s.tokens site.position).IsStop := hsite.tokens_eq ▸ hsite.isStop h.isStop
    have hbehind : s.turn.IsBehind site.position := hturn ▸ isBehind_recover site complaint
    have hsites : ∀ r ∈ s.reported, r.position < site.position := by
      intro r hr
      rcases h.isBehind r hr with hr | ⟨hr, hstart⟩
      · exact Nat.lt_of_lt_of_le hr hsite.position_le
      · exact hr ▸ hpassed.resolve_right fun hnot => hnot hstart
    refine ⟨hbefore.isStop h.isStop, ?_, ?_, ?_⟩
    · rw [hnew, List.pairwise_append]
      exact ⟨h.pairwise, List.pairwise_singleton _ _, by simpa using hsites⟩
    · rw [hnew, hbefore.tokens_eq, List.forall_mem_append]
      exact ⟨h.isStop_of_mem, by simpa using hstop⟩
    · rw [hnew, List.forall_mem_append]
      exact ⟨hleft, by simpa using hbehind⟩

/-! ## All turns -/

theorem ReportsInOrder.run {s : Progress} (h : s.ReportsInOrder) : s.run.2.ReportsInOrder := by
  fun_induction Progress.run s with
  | case1 => exact h
  | case2 s hend ih => exact ih (h.turn hend)

/-- There are not more complaints than turns. -/
theorem length_reported_run (s : Progress) :
    s.run.2.reported.length ≤ s.reported.length + s.run.1.length := by
  fun_induction run s with
  | case1 => exact Nat.le_refl _
  | case2 s hend ih =>
    have hturn := length_reported_turn hend
    show s.turn.run.2.reported.length ≤ s.reported.length + (s.turn.run.1.length + 1)
    omega

/-- Each turn begins behind the one before it. -/
theorem pairwise_run (s : Progress) : s.run.1.Pairwise fun t u => t.position < u.position := by
  fun_induction run s with
  | case1 => exact .nil
  | case2 s hend ih =>
    refine .cons (fun t ht => ?_) ih
    exact Nat.lt_of_lt_of_le (position_lt_turn hend) ((isBefore_run s.turn).1 t ht).position_le

end Progress

/-! ## Sites -/

/-- Where an issue points to: a stop with the kind and the span that the issue has.  Past the last
token, this is the end of the file, at the point where this token ends. -/
structure IsSite (tokens : List Token) (i : StructuralIssue) (position : Nat) : Prop where
  isStop : (Walk.mk tokens position).IsStop
  found_eq : i.found = (Walk.mk tokens position).kind
  span_eq : i.span = (Walk.mk tokens position).span

/-- What is said of the issues of a file. -/
structure PointsInOrder (tokens : List Token) (turns : List Progress) : Prop where
  /-- Each issue points to another token, and later ones to later tokens. -/
  exists_sites : ∃ positions, List.Forall₂ (IsSite tokens) (structuralIssues tokens) positions ∧
    positions.Pairwise (· < ·)
  /-- There are not more issues than turns. -/
  length_le : (structuralIssues tokens).length ≤ turns.length
  /-- Each turn begins at another token. -/
  pairwise_turns : turns.Pairwise fun s s' => s.position < s'.position
  isStop_turn : ∀ s ∈ turns, s.tokens = tokens ∧ s.IsStop ∧ s.kind ≠ .endOfFile
  /-- Each turn complains at most once. -/
  length_turn : ∀ s ∈ turns, s.turn.reported.length ≤ s.reported.length + 1

theorem pointsInOrder_run (tokens : List Token) :
    PointsInOrder tokens (Progress.start tokens).run.1 := by
  have hissues := Progress.structuralIssues_eq_run tokens
  have horder := (Progress.reportsInOrder_start tokens).run
  have hbefore := Progress.isBefore_run (.start tokens)
  have htokens : (Progress.start tokens).run.2.tokens = tokens := hbefore.2.tokens_eq
  refine ⟨⟨(Progress.start tokens).run.2.reported.map Report.position, ?_, ?_⟩, ?_,
    Progress.pairwise_run _, fun s hs => ?_, fun s hs => ?_⟩
  · rw [hissues, List.forall₂_map_left_iff, List.forall₂_map_right_iff, List.forall₂_same]
    exact fun r hr => ⟨htokens ▸ horder.isStop_of_mem r hr, rfl, rfl⟩
  · exact List.pairwise_map.2 horder.pairwise
  · rw [hissues, List.length_map]
    exact (Progress.length_reported_run _).trans (Nat.le_of_eq (Nat.zero_add _))
  · exact ⟨(hbefore.1 s hs).tokens_eq, (hbefore.1 s hs).isStop (Walk.isStop_start tokens),
      Progress.kind_ne_of_mem_run hs⟩
  · exact Progress.length_reported_turn (Progress.kind_ne_of_mem_run hs)

/-! ## Documents -/

namespace Document

variable {d : Document} {r : Report}

/-- In a document each report is about one of its tokens. -/
theorem exists_getElem?_of_isStop (h : (Walk.mk d.tokens r.position).IsStop) :
    ∃ t, d.tokens[r.position]? = some t ∧ (r.issue d.tokens).span = t.span := by
  have hlt : r.position < d.tokens.length := by
    refine Nat.lt_of_not_le fun hle => h.not_isEnd d.body.length ?_ ?_
    · rw [tokens_eq, List.length_append] at hle
      exact hle
    · rw [tokens_eq, kindAt, List.getElem?_concat_length]
      rfl
  refine ⟨d.tokens[r.position], List.getElem?_eq_getElem hlt, ?_⟩
  rw [Report.issue, Walk.span, Walk.next?, List.getElem?_eq_getElem hlt]

end Document

/-- **Issues are in the order of the tokens, at most one a turn**; and in a document they are at
places one behind the other. -/
theorem pointsInOrder :
    (∀ tokens, PointsInOrder tokens (Progress.start tokens).run.1) ∧
      ∀ d : Document,
        (structuralIssues d.tokens).Pairwise (fun i j => i.span.start < j.span.start) ∧
        ∀ i ∈ structuralIssues d.tokens, i.span.start ≤ i.span.stop ∧ i.span.stop ≤ d.length := by
  refine ⟨pointsInOrder_run, fun d => ?_⟩
  have horder := (Progress.reportsInOrder_start d.tokens).run
  have htokens : (Progress.start d.tokens).run.2.tokens = d.tokens :=
    (Progress.isBefore_run (.start d.tokens)).2.tokens_eq
  have hsites : ∀ r ∈ (Progress.start d.tokens).run.2.reported,
      ∃ t, d.tokens[r.position]? = some t ∧ (r.issue d.tokens).span = t.span :=
    fun r hr => Document.exists_getElem?_of_isStop (htokens ▸ horder.isStop_of_mem r hr)
  rw [Progress.structuralIssues_eq_run, List.pairwise_map, List.forall_mem_map]
  constructor
  · refine horder.pairwise.imp_of_mem fun hr hr' hlt => ?_
    obtain ⟨t, ht, hspan⟩ := hsites _ hr
    obtain ⟨t', ht', hspan'⟩ := hsites _ hr'
    rw [hspan, hspan']
    obtain ⟨hp, rfl⟩ := List.getElem?_eq_some_iff.1 ht
    obtain ⟨hp', rfl⟩ := List.getElem?_eq_some_iff.1 ht'
    exact List.pairwise_iff_getElem.1 d.pairwise_tokens _ _ hp hp' hlt
  · intro r hr
    obtain ⟨t, ht, hspan⟩ := hsites r hr
    rw [hspan]
    exact (d.tiles_tokens.inside t (List.mem_of_getElem? ht)).2

end GrammarPaint
