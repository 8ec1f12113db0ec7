import GrammarPaint.Token.KindSet
import Mathlib.Data.List.Count
import Mathlib.Data.List.Nodup

/-!
# Sets of kinds have members

A set of kinds is a word, and it is built and asked by shifting and masking.  Its bits say that it
is a set all the same: the bit of a kind is set if the kind was put in, and there are no other bits
(`KindSet.getLsbD_ofList`).

* `KindSet.mem_ofList` — what was put in is in;
* `KindSet.ofList_eq_iff` — **a set is its members**, so that neither order nor repetition matters;
* `KindSet.pairwise_toList` — the members are listed by increasing index, each of them once;
* `KindSet.namesIn_phrase` — the phrase for a set names the members as they are listed.

The phrase is read here as anyone would read it: the names are what stands between the backticks
(`namesIn`).
-/

set_option autoImplicit false
namespace GrammarPaint

/-! ## Kinds and their names -/

namespace TokenKind

theorem pairwise_all : all.Pairwise fun a b => a.index < b.index := by decide

theorem nodup_map_name_all : (all.map name).Nodup := by decide +kernel

theorem name_injective : Function.Injective name :=
  fun a b h => List.inj_on_of_nodup_map nodup_map_name_all (mem_all a) (mem_all b) h

theorem backtick_not_mem_name (k : TokenKind) : '\x60' ∉ k.name.toList := by cases k <;> decide

end TokenKind

/-! ## Bits of a set -/

namespace KindSet

variable {k : TokenKind} {a b kinds : List TokenKind}

theorem getLsbD_foldl_insert (s : KindSet) (kinds : List TokenKind) (i : Nat) :
    (kinds.foldl insert s).mask.getLsbD i
      = (s.mask.getLsbD i || kinds.any fun k => decide (k.index = i)) := by
  induction kinds generalizing s with
  | nil => rw [List.foldl_nil, List.any_nil, Bool.or_false]
  | cons k kinds ih => rw [List.foldl_cons, ih, getLsbD_insert, List.any_cons, Bool.or_assoc]

/-- **The bits of a set are those of the kinds that were put in.** -/
theorem getLsbD_ofList (kinds : List TokenKind) (i : Nat) :
    (ofList kinds).mask.getLsbD i = kinds.any fun k => decide (k.index = i) := by
  have hempty : (∅ : KindSet).mask.getLsbD i = false := BitVec.getLsbD_zero
  rw [ofList, getLsbD_foldl_insert, hempty, Bool.false_or]

/-- **What was put in is in**, and nothing else. -/
theorem mem_ofList : k ∈ ofList kinds ↔ k ∈ kinds := by
  rw [mem_iff, contains_eq, getLsbD_ofList, List.any_eq_true]
  constructor
  case mp =>
    rintro ⟨a, ha, hindex⟩
    rwa [← TokenKind.index_injective (of_decide_eq_true hindex)]
  case mpr =>
    intro hk
    exact ⟨k, hk, decide_eq_true rfl⟩

/-- **A set is its members.** -/
theorem ofList_eq_iff : ofList a = ofList b ↔ ∀ k, k ∈ a ↔ k ∈ b := by
  constructor
  case mp =>
    intro h k
    rw [← mem_ofList, h, mem_ofList]
  case mpr =>
    intro h
    have hmask : (ofList a).mask = (ofList b).mask := by
      refine BitVec.eq_of_getLsbD_eq fun i _ => ?_
      rw [getLsbD_ofList, getLsbD_ofList, Bool.eq_iff_iff, List.any_eq_true, List.any_eq_true]
      exact exists_congr fun k => and_congr_left fun _ => h k
    exact congrArg mk hmask

/-- The members are listed by increasing index. -/
theorem pairwise_toList (s : KindSet) : s.toList.Pairwise fun a b => a.index < b.index :=
  TokenKind.pairwise_all.filter s.contains

theorem nodup_toList (s : KindSet) : s.toList.Nodup :=
  s.pairwise_toList.imp fun hlt heq => Nat.ne_of_lt hlt (congrArg TokenKind.index heq)

end KindSet

/-! ## Names in a phrase -/

/-- Every second member of a list, from the second on. -/
def everySecond {α : Type} : List α → List α
  | _ :: a :: rest => a :: everySecond rest
  | _ => []

/-- The names in a text: what stands between a backtick and the next, where the backticks before
were used up in pairs. -/
def namesIn (text : List Char) : List (List Char) := everySecond (text.splitOn '\x60')

section Names

variable {gap name : List Char}

theorem namesIn_of_not_mem (h : '\x60' ∉ gap) : namesIn gap = [] := by
  rw [namesIn, List.splitOn_eq_singleton h]
  rfl

theorem namesIn_append (hgap : '\x60' ∉ gap) (hname : '\x60' ∉ name) (rest : List Char) :
    namesIn (gap ++ '\x60' :: (name ++ '\x60' :: rest)) = name :: namesIn rest := by
  rw [namesIn, List.splitOn_append_cons_self_of_not_mem hgap,
    List.splitOn_append_cons_self_of_not_mem hname]
  rfl

end Names

namespace KindSet

section Phrase

variable {gap : List Char} (hgap : '\x60' ∉ gap)
include hgap

theorem namesIn_backticked (k : TokenKind) (rest : List Char) :
    namesIn (gap ++ ((backticked k.name).toList ++ rest)) = k.name.toList :: namesIn rest := by
  have hchars : (backticked k.name).toList = '\x60' :: (k.name.toList ++ ['\x60']) := by
    rw [backticked, String.toList_append, String.toList_append]
    rfl
  rw [hchars, List.cons_append, List.append_assoc]
  exact namesIn_append hgap k.backtick_not_mem_name rest

/-- Names with commas between them are named one after the other. -/
theorem namesIn_intercalate (k : TokenKind) (ks : List TokenKind) (rest : List Char) :
    namesIn (gap ++ ((", ".intercalate ((k :: ks).map (backticked ·.name))).toList ++ rest))
      = (k :: ks).map (·.name.toList) ++ namesIn rest := by
  induction ks generalizing gap k with
  | nil => exact namesIn_backticked hgap k rest
  | cons next ks ih =>
    have hcomma : '\x60' ∉ ", ".toList := by decide
    have hlist : ", ".intercalate ((k :: next :: ks).map (backticked ·.name))
        = backticked k.name ++ ", " ++ ", ".intercalate ((next :: ks).map (backticked ·.name)) :=
      String.intercalate_cons_cons
    rw [hlist, String.toList_append, String.toList_append, List.append_assoc, List.append_assoc,
      namesIn_backticked hgap, ih hcomma]
    rfl

end Phrase

/-- Names with commas between them, and one more behind a separator of its own. -/
theorem namesIn_list (k : TokenKind) (ks : List TokenKind) (last : TokenKind) {separator : String}
    (h : '\x60' ∉ separator.toList) :
    namesIn (", ".intercalate ((k :: ks).map (backticked ·.name)) ++ separator
        ++ backticked last.name).toList
      = (k :: ks ++ [last]).map (·.name.toList) := by
  have hfront := namesIn_intercalate List.not_mem_nil k ks
    (separator.toList ++ ((backticked last.name).toList ++ []))
  rw [namesIn_backticked h] at hfront
  rw [String.toList_append, String.toList_append, List.append_assoc,
    ← List.append_nil (backticked last.name).toList, List.map_append]
  exact hfront

/-- **The phrase for a set names its members**, in the order in which they are listed. -/
theorem namesIn_phrase (s : KindSet) :
    namesIn s.phrase.toList = s.toList.map (·.name.toList) := by
  obtain ⟨members, hmembers⟩ : ∃ members : List TokenKind, s.toList = members.reverse :=
    ⟨_, (List.reverse_reverse _).symm⟩
  -- a phrase is put together from its end
  rw [phrase, hmembers, ← List.map_reverse, List.reverse_reverse]
  match members with
  | [] => exact namesIn_of_not_mem (by decide)
  | [only] =>
    have honly := namesIn_backticked List.not_mem_nil only []
    rwa [List.nil_append, List.append_nil] at honly
  | [second, first] =>
    have hor : '\x60' ∉ " or ".toList := by decide
    have hnames := namesIn_list first [] second hor
    rwa [List.map_singleton, String.intercalate_singleton] at hnames
  | last :: third :: second :: others =>
    have hor : '\x60' ∉ ", or ".toList := by decide
    obtain ⟨k, ks, hfront⟩ : ∃ k ks, (third :: second :: others).reverse = k :: ks :=
      List.exists_cons_of_ne_nil (List.reverse_ne_nil_iff.2 (List.cons_ne_nil _ _))
    have hnames := namesIn_list k ks last hor
    rw [← hfront, List.map_reverse, ← List.reverse_cons] at hnames
    exact hnames

/-! ## What a set of kinds is -/

/-- What it means that `s` is the set of the members of a list. -/
structure IsSetOf (s : KindSet) (kinds : List TokenKind) : Prop where
  /-- The set contains what is in the list. -/
  contains_iff : ∀ k, s.contains k = true ↔ k ∈ kinds
  /-- The set lists what it contains. -/
  mem_toList_iff : ∀ k, k ∈ s.toList ↔ s.contains k = true
  /-- It does so by increasing index, and so each member once. -/
  pairwise_toList : s.toList.Pairwise fun a b => a.index < b.index
  /-- The phrase for the set names the members in the same order. -/
  namesIn_phrase : namesIn s.phrase.toList = s.toList.map (·.name.toList)
  /-- The phrase names every member once, and nothing else. -/
  count_name : ∀ k, (namesIn s.phrase.toList).count k.name.toList = if k ∈ kinds then 1 else 0

theorem isSetOf_ofList (kinds : List TokenKind) : (ofList kinds).IsSetOf kinds where
  contains_iff _ := mem_ofList
  mem_toList_iff _ := mem_toList
  pairwise_toList := (ofList kinds).pairwise_toList
  namesIn_phrase := (ofList kinds).namesIn_phrase
  count_name k := by
    have hinjective : Function.Injective fun k : TokenKind => k.name.toList :=
      fun _ _ h => TokenKind.name_injective (String.toList_inj.1 h)
    rw [KindSet.namesIn_phrase, List.count_map_of_injective _ _ hinjective, (nodup_toList _).count]
    exact if_congr (mem_toList.trans mem_ofList) rfl rfl

/-- **Sets of kinds are sets.**  Putting the kinds of a list in, one after the other, makes the set
of its members; lists make the same set if they have the same members; and the set of one kind is
what comes of putting it into the set without members. -/
theorem representsLists :
    (∀ kinds, (ofList kinds).IsSetOf kinds) ∧
      (∀ a b, ofList a = ofList b ↔ ∀ k, k ∈ a ↔ k ∈ b) ∧
      ∀ k : TokenKind, ({k} : KindSet) = (∅ : KindSet).insert k :=
  ⟨isSetOf_ofList, fun _ _ => ofList_eq_iff, singleton_eq⟩

end KindSet
end GrammarPaint
