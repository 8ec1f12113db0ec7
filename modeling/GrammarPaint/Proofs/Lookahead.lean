import GrammarPaint.Proofs.Locality
import GrammarPaint.Proofs.Tiling

/-!
# Later text does not change earlier tokens

Two documents that begin with the same code units have the same tokens there, but for those that
end in the last three of these units (`Document.exists_restyle_of_take_eq`).  Only the style of a
`#` depends on more: a directive may follow far behind it.

Three units are what a punctuator looks at behind itself, since a `<` is one by itself before `::`
only if it is clear what follows these.  Everything else looks at one code point.  Units do not
always read the same in both documents: the last common one may be half of a pair in one of them
and alone in the other.  But then no punctuator goes on with it in either (`AgreeFor`).
-/

set_option autoImplicit false
namespace GrammarPaint

open CodePoint

/-! ## Texts that agree -/

/-- Whether a text begins with a code point that no punctuator goes on with. -/
def BeginsForeign (points : List CodePoint) : Prop :=
  ∃ b rest, points = b :: rest ∧ Foreign b.char

/-- Whether two texts agree on their first `k` code units.  The last of these may belong to
different code points, but only to such that no punctuator goes on with. -/
def AgreeFor (k : Nat) (a b : List CodePoint) : Prop :=
  ∃ w s s', a = w ++ s ∧ b = w ++ s' ∧
    (k ≤ totalWidth w ∨ k ≤ totalWidth w + 1 ∧ BeginsForeign s ∧ BeginsForeign s')

variable {j k : Nat} {a b : List CodePoint} {p : CodePoint}

theorem AgreeFor.mono (h : AgreeFor k a b) (hle : j ≤ k) : AgreeFor j a b := by
  obtain ⟨w, s, s', ha, hb, hk⟩ := h
  refine ⟨w, s, s', ha, hb, ?_⟩
  rcases hk with hk | ⟨hk, hforeign⟩
  · exact .inl (Nat.le_trans hle hk)
  · exact .inr ⟨Nat.le_trans hle hk, hforeign⟩

theorem AgreeFor.exists_eq_cons (h : AgreeFor k (p :: a) b) (hk : 2 ≤ k) : ∃ b', b = p :: b' := by
  obtain ⟨w, s, s', ha, rfl, hw⟩ := h
  cases w with
  | nil =>
    simp only [totalWidth] at hw
    omega
  | cons q w =>
    obtain ⟨rfl, -⟩ := List.cons.inj ha
    exact ⟨w ++ s', rfl⟩

/-- Texts that agree agree behind what both begin with. -/
theorem AgreeFor.of_append {c : List CodePoint} (h : AgreeFor (totalWidth c + k) (c ++ a) (c ++ b))
    (hk : 2 ≤ k) : AgreeFor k a b := by
  obtain ⟨w, s, s', ha, hb, hw⟩ := h
  rcases List.append_eq_append_iff.1 ha with ⟨t, rfl, rfl⟩ | ⟨t, rfl, -⟩
  · rw [List.append_assoc] at hb
    refine ⟨t, s, s', rfl, List.append_cancel_left hb, ?_⟩
    rw [totalWidth_append] at hw
    rcases hw with hw | ⟨hw, hforeign⟩
    · exact .inl (by omega)
    · exact .inr ⟨by omega, hforeign⟩
  · rw [totalWidth_append] at hw
    omega

/-! ## Units that agree -/

/-- Punctuators have no code points of two units. -/
theorem foreign_of_wide (h : 1 < p.width) : Foreign p.char := by
  cases p with
  | lone u => exact absurd h (Nat.lt_irrefl 1)
  | scalar c =>
    have hlarge : ¬ c.toNat < 0x10000 := by
      intro hsmall
      rw [width, units, if_pos hsmall] at h
      exact absurd h (Nat.lt_irrefl 1)
    exact foreign_of_le (b := c) (by omega)

/-- What begins with the first half of a pair is foreign, whether the other half follows or not. -/
theorem beginsForeign_decode {u : CodeUnit} (h : u.isHighSurrogate = true) (us : List CodeUnit) :
    BeginsForeign (decode (u :: us)) := by
  have hlone : Foreign (ofUnit u).char := by
    rw [char_ofUnit, if_pos (by simp [CodeUnit.isSurrogate, h])]
    exact foreign_of_le (by decide)
  cases us with
  | nil => exact ⟨_, _, rfl, hlone⟩
  | cons v us =>
    rw [decode]
    split
    · rename_i hpair
      exact ⟨_, _, rfl, foreign_of_wide (by rw [width_ofPair hpair]; decide)⟩
    · exact ⟨_, _, rfl, hlone⟩

theorem isLowSurrogate_of_isHighSurrogate {u : CodeUnit} (h : u.isHighSurrogate = true) :
    u.isLowSurrogate = false := by
  rw [CodeUnit.isHighSurrogate_iff] at h
  rw [Bool.eq_false_iff, Ne, CodeUnit.isLowSurrogate_iff]
  omega

/-- **Documents that begin with the same units agree on them.** -/
theorem agreeFor_decode {n : Nat} {us vs : List CodeUnit} (hus : n ≤ us.length)
    (h : us.take n = vs.take n) : AgreeFor n (decode us) (decode vs) := by
  have hsplit : us = us.take n ++ us.drop n := (List.take_append_drop n us).symm
  have hsplit' : vs = us.take n ++ vs.drop n := by rw [h, List.take_append_drop]
  have hlen : (us.take n).length = n := List.length_take_of_le hus
  generalize us.take n = common at hsplit hsplit' hlen
  generalize us.drop n = rest at hsplit
  generalize vs.drop n = rest' at hsplit'
  rw [hsplit, hsplit']
  by_cases hlast : ∃ u ∈ common.getLast?, u.isHighSurrogate = true
  · -- the last unit may be half of a pair in one text and alone in the other
    obtain ⟨u, hu, hhigh⟩ := hlast
    obtain ⟨init, rfl⟩ := List.getLast?_eq_some_iff.1 (Option.mem_def.1 hu)
    have hcut : ∀ us, decode (init ++ [u] ++ us) = decode init ++ decode (u :: us) := by
      intro us
      rw [List.append_assoc, List.singleton_append]
      apply decode_append
      intro v hv
      obtain rfl : u = v := Option.some.inj hv
      exact isLowSurrogate_of_isHighSurrogate hhigh
    refine ⟨decode init, decode (u :: rest), decode (u :: rest'), hcut rest, hcut rest', .inr ?_⟩
    rw [List.length_append, List.length_singleton] at hlen
    rw [totalWidth_decode, hlen]
    exact ⟨Nat.le_refl n, beginsForeign_decode hhigh rest, beginsForeign_decode hhigh rest'⟩
  · have hcut : ∀ us, decode (common ++ us) = decode common ++ decode us :=
      decode_append_of_last fun u hu => Bool.eq_false_iff.2 fun hhigh => hlast ⟨u, hu, hhigh⟩
    refine ⟨decode common, decode rest, decode rest', hcut rest, hcut rest', .inl ?_⟩
    rw [totalWidth_decode, hlen]

/-! ## What a scan sees of them -/

theorem totalWidth_le_length {w : List CodePoint} (h : ∀ p ∈ w, p.width ≤ 1) :
    totalWidth w ≤ w.length := by
  induction w with
  | nil => exact Nat.le_refl 0
  | cons p w ih =>
    rw [List.forall_mem_cons] at h
    have hle := ih h.2
    rw [totalWidth, List.length_cons]
    omega

/-- **Three units settle a punctuator.**  They are as many code points, or one of these is foreign
to punctuators. -/
theorem AgreeFor.samePunctuator (h : AgreeFor longestPunctuator a b) (c : Char) :
    SamePunctuator c b a := by
  obtain ⟨w, s, s', rfl, rfl, hw⟩ := h
  rcases Nat.lt_or_ge w.length longestPunctuator with hlt | hge
  · by_cases hwide : ∃ p ∈ w, 1 < p.width
    · obtain ⟨p, hp, hwide⟩ := hwide
      obtain ⟨u, v, rfl⟩ := List.append_of_mem hp
      rw [List.append_assoc, List.append_assoc, List.cons_append, List.cons_append]
      exact samePunctuator_of_foreign (foreign_of_wide hwide) (foreign_of_wide hwide) ..
    · have hle : totalWidth w ≤ w.length := totalWidth_le_length fun p hp =>
        Nat.not_lt.1 fun hlt => hwide ⟨p, hp, hlt⟩
      rcases hw with hw | ⟨-, ⟨p, rest, rfl, hp⟩, q, rest', rfl, hq⟩
      · omega
      · exact samePunctuator_of_foreign hp hq ..
  · rw [SamePunctuator, List.take_append_of_le_length hge, List.take_append_of_le_length hge]

/-- A lexeme that goes past some code points is wider than these. -/
theorem totalWidth_le_width {m : Mode} {w s : List CodePoint}
    (h : w.length < (firstLexeme m p (w ++ s)).points.length) :
    totalWidth (p :: w) ≤ (firstLexeme m p (w ++ s)).width := by
  have hcover : (firstLexeme m p (w ++ s)).points <+: p :: (w ++ s) :=
    ⟨_, points_firstLexeme_append m p (w ++ s)⟩
  have hbegin : p :: w <+: p :: (w ++ s) := List.prefix_append (p :: w) s
  obtain ⟨t, ht⟩ := List.prefix_of_prefix_length_le hbegin hcover h
  rw [Lexeme.width, ← ht, totalWidth_append]
  exact Nat.le_add_right _ _

/-- **A lexeme is settled by its own units and three more.** -/
theorem firstLexeme_of_agreeFor {m : Mode}
    (h : AgreeFor ((firstLexeme m p a).width + longestPunctuator) (p :: a) (p :: b)) :
    firstLexeme m p b = firstLexeme m p a := by
  have hwidth : p.width ≤ (firstLexeme m p a).width := Nat.le_add_right _ _
  have hbehind : AgreeFor longestPunctuator a b :=
    AgreeFor.of_append (c := [p]) (h.mono (Nat.add_le_add_right hwidth _)) (by decide)
  obtain ⟨w, s, s', ha, hb, hw⟩ := h
  cases w with
  | nil =>
    simp only [totalWidth, longestPunctuator] at hw
    omega
  | cons q w =>
    rw [List.cons_append, List.cons.injEq] at ha hb
    obtain ⟨rfl, rfl⟩ := ha
    obtain ⟨-, rfl⟩ := hb
    refine firstLexeme_append ?_ (hbehind.samePunctuator p.char)
    by_contra hlt
    have hle := totalWidth_le_width (Nat.not_le.1 hlt)
    simp only [longestPunctuator] at hw
    omega

/-- **Lexemes stay what they are** if the text changes three units behind them or later. -/
theorem lexemes_of_agreeFor {m : Mode} {ls after : List Lexeme} (hls : lexemes m a = ls ++ after)
    (h : AgreeFor (Lexeme.totalWidth ls + longestPunctuator) a b) :
    ∃ after', lexemes m b = ls ++ after' := by
  induction ls generalizing m a b with
  | nil => exact ⟨lexemes m b, rfl⟩
  | cons l ls ih =>
    match a with
    | [] => exact nomatch hls
    | p :: rest =>
      obtain ⟨rest', rfl⟩ := h.exists_eq_cons (Nat.le_add_left_of_le (by decide))
      rw [lexemes_cons, List.cons_append, List.cons.injEq] at hls
      obtain ⟨rfl, hbehind⟩ := hls
      rw [Lexeme.totalWidth, Nat.add_assoc] at h
      have hsame : firstLexeme m p rest' = firstLexeme m p rest :=
        firstLexeme_of_agreeFor (h.mono (by omega))
      have hcover := points_firstLexeme_append m p rest'
      rw [hsame] at hcover
      rw [← points_firstLexeme_append m p rest, ← hcover] at h
      obtain ⟨after', hafter⟩ := ih hbehind (h.of_append (Nat.le_add_left_of_le (by decide)))
      exact ⟨after', by rw [lexemes_cons, hsame, hafter, List.cons_append]⟩

/-! ## Tokens -/

/-- Only a `#` looks for a directive. -/
theorem style_of_not_isLineFirstPound {l : Lexeme} (h : l.isLineFirstPound = false)
    (following : List Lexeme) : l.style following = l.kind.style? := by
  rw [Lexeme.style, h]
  rfl

theorem isLineFirstPound_spec {l : Lexeme} (h : l.isLineFirstPound = true) :
    l.sight = (.codePunctuator, "#") := by
  obtain ⟨hkind, htext⟩ := Lexeme.isPound_iff.1 (Lexeme.isPound_of_isLineFirstPound h)
  rw [Lexeme.sight, hkind, spell]
  exact congrArg (fun text => (TokenKind.codePunctuator, String.ofList text)) htext

namespace Document

variable {d e : Document} {n i : Nat} {t : Token}

/-- A token that does not end the file, with the lexemes around it. -/
theorem exists_lexemes_of_getElem? (ht : d.tokens[i]? = some t) (hstop : t.span.stop < d.length) :
    ∃ front l back, d.lexemes = front ++ l :: back ∧ front.length = i ∧
      t = l.token (Lexeme.totalWidth front) back ∧ d.sight t = l.sight := by
  obtain ⟨front, back, hls, hlen, hhead⟩ := exists_split_of_getElem?_tokens ht
  cases back with
  | nil =>
    -- the end of the file stops where the document does
    obtain rfl := Option.some.inj hhead
    have hend : Lexeme.totalWidth front < d.length := hstop
    rw [← totalWidth_lexemes, hls, List.append_nil] at hend
    exact absurd hend (Nat.lt_irrefl _)
  | cons l back =>
    obtain rfl := Option.some.inj hhead
    exact ⟨front, l, back, hls, hlen, rfl, sight_token_of_lexemes hls⟩

/-- **Later text does not change earlier tokens.**  If two documents begin with the same `n` units,
a token that ends three units before these do, or earlier, is a token of both, at the same index
and place, with the same kind and name.  It has the same style, too, unless it is a `#`.  The
second document need not be assumed to have `n` units: it has them if the first one does. -/
theorem exists_restyle_of_take_eq (hn : n ≤ d.length) (hsame : d.units.take n = e.units.take n)
    (ht : d.tokens[i]? = some t) (hstop : t.span.stop + 3 ≤ n) :
    ∃ style, e.tokens[i]? = some (t.restyle style) ∧
      (¬ (t.kind = .codePunctuator ∧ d.text t.span = "#") → style = t.style) := by
  obtain ⟨front, l, back, hls, rfl, rfl, hsight⟩ := exists_lexemes_of_getElem? ht (by omega)
  have hwidth : Lexeme.totalWidth (front ++ [l]) + longestPunctuator ≤ n := by
    rw [Lexeme.totalWidth_append]
    exact hstop
  rw [List.append_cons] at hls
  obtain ⟨back', hls'⟩ := lexemes_of_agreeFor hls ((agreeFor_decode hn hsame).mono hwidth)
  refine ⟨l.style back', ?_, ?_⟩
  · exact getElem?_tokens (hls'.trans (List.append_cons front l back').symm)
  · intro hpound
    have hfirst : l.isLineFirstPound = false := by
      rw [Bool.eq_false_iff]
      intro hfirst
      rw [isLineFirstPound_spec hfirst] at hsight
      exact hpound (Prod.mk.inj hsight)
    rw [style_of_not_isLineFirstPound hfirst]
    exact (style_of_not_isLineFirstPound hfirst back).symm

/-- Where a directive becomes another word, the `#` before it may be shown otherwise, but the brace
before that is the same token. -/
theorem exists_restyle_samples :
    let d := ofText "\x7b#  if\x7d"
    let e := ofText "\x7b#  ix"
    e.tokens[0]? = d.tokens[0]? ∧
      d.tokens[1]? = some (.spelled .codePunctuator "#" ⟨1, 2⟩ (some .keyword)) ∧
      ∃ style, e.tokens[1]? = some (.spelled .codePunctuator "#" ⟨1, 2⟩ style) := by
  intro d e
  have hn : 5 ≤ d.length := by decide +kernel
  have hsame : d.units.take 5 = e.units.take 5 := by decide +kernel
  have hbrace : d.tokens[0]? = some (.spelled .snippetStart "\x7b" ⟨0, 1⟩ (some .code)) := by
    decide +kernel
  have hpound : d.tokens[1]? = some (.spelled .codePunctuator "#" ⟨1, 2⟩ (some .keyword)) := by
    decide +kernel
  obtain ⟨style, he, hstyle⟩ := exists_restyle_of_take_eq hn hsame hbrace (by decide)
  obtain ⟨style', he', -⟩ := exists_restyle_of_take_eq hn hsame hpound (by decide)
  refine ⟨?_, hpound, style', he'⟩
  rw [he, hstyle (by simp [Token.spelled]), Token.restyle_style, hbrace]

/-- Fewer units would not do: a `<` before `::` is settled by what follows these. -/
example : (ofText "\x7b<::a").tokens[1]?.map Token.span = some ⟨1, 2⟩ ∧
    (ofText "\x7b<:::").tokens[1]?.map Token.span = some ⟨1, 3⟩ := by decide +kernel

end Document
end GrammarPaint
