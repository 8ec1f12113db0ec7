import GrammarPaint.Token.Kind

/-!
# Sets of token kinds

A set of kinds is a word of 64 bits, with the bit at `TokenKind.index` set for each member.  Indices
are distinct and below 64, so membership after an insertion is what it should be
(`KindSet.mem_insert`), and two sets with the same members are the same word as long as both were
built by insertion.

Sets name what an item would have accepted, so the module ends with the phrase that diagnostics
use for one, `KindSet.phrase`.
-/

set_option autoImplicit false
namespace GrammarPaint

/-- The word in which the bit of a kind is the only one. -/
def TokenKind.bit (k : TokenKind) : BitVec 64 := 1#64 <<< k.index

/-- A set of token kinds, one bit a kind. -/
structure KindSet where
  mask : BitVec 64
deriving DecidableEq, Repr

namespace KindSet

/-- The set without members. -/
def empty : KindSet := ⟨0#64⟩

/-- The set with `k` added. -/
def insert (s : KindSet) (k : TokenKind) : KindSet := ⟨s.mask ||| k.bit⟩

/-- Whether `k` is a member. -/
def contains (s : KindSet) (k : TokenKind) : Bool := s.mask &&& k.bit != 0#64

instance : EmptyCollection KindSet := ⟨empty⟩
instance : Singleton TokenKind KindSet := ⟨fun k => ⟨k.bit⟩⟩
instance : Insert TokenKind KindSet := ⟨fun k s => s.insert k⟩
instance : Membership TokenKind KindSet := ⟨fun s k => s.contains k = true⟩

instance (k : TokenKind) (s : KindSet) : Decidable (k ∈ s) :=
  inferInstanceAs (Decidable (s.contains k = true))

/-- The set of the kinds of a list. -/
def ofList (kinds : List TokenKind) : KindSet := kinds.foldl insert ∅

/-- The members, by increasing index. -/
def toList (s : KindSet) : List TokenKind := TokenKind.all.filter s.contains

/-! ## Membership -/

theorem mem_iff {k : TokenKind} {s : KindSet} : k ∈ s ↔ s.contains k = true := Iff.rfl

/-- A kind has its bit, and no other kind has it. -/
theorem getLsbD_bit (k : TokenKind) (i : Nat) : k.bit.getLsbD i = decide (k.index = i) := by
  have hlt := k.index_lt
  rw [TokenKind.bit, ← BitVec.twoPow_eq, BitVec.getLsbD_twoPow, decide_eq_true hlt, Bool.true_and]

/-- A kind is a member if its bit is set. -/
theorem contains_eq (s : KindSet) (k : TokenKind) : s.contains k = s.mask.getLsbD k.index := by
  have hbit : k.bit ≠ 0#64 := by
    intro h
    have hself := getLsbD_bit k k.index
    rw [h, BitVec.getLsbD_zero, decide_eq_true rfl] at hself
    cases hself
  rw [contains, TokenKind.bit, ← BitVec.twoPow_eq, BitVec.and_twoPow]
  cases s.mask.getLsbD k.index with
  | true =>
    rw [if_pos rfl, BitVec.twoPow_eq]
    exact bne_iff_ne.2 hbit
  | false => rfl

theorem getLsbD_insert (s : KindSet) (k : TokenKind) (i : Nat) :
    (s.insert k).mask.getLsbD i = (s.mask.getLsbD i || decide (k.index = i)) := by
  rw [insert, BitVec.getLsbD_or, getLsbD_bit]

theorem contains_empty (k : TokenKind) : contains ∅ k = false := by
  rw [contains_eq]
  exact BitVec.getLsbD_zero

theorem contains_insert (s : KindSet) (a k : TokenKind) :
    (s.insert a).contains k = (s.contains k || decide (a = k)) := by
  rw [contains_eq, getLsbD_insert, ← contains_eq]
  congr 1
  exact decide_eq_decide.2 ⟨TokenKind.index_injective, congrArg TokenKind.index⟩

/-- **An insertion adds exactly the inserted kind.** -/
theorem mem_insert {s : KindSet} {a k : TokenKind} : k ∈ s.insert a ↔ k ∈ s ∨ k = a := by
  simp only [mem_iff, contains_insert, Bool.or_eq_true, decide_eq_true_eq, eq_comm (a := a)]

theorem singleton_eq (k : TokenKind) : ({k} : KindSet) = empty.insert k :=
  congrArg KindSet.mk BitVec.zero_or.symm

theorem mem_singleton_iff {a k : TokenKind} : k ∈ ({a} : KindSet) ↔ k = a := by
  rw [singleton_eq, mem_insert, mem_iff, show empty.contains k = false from contains_empty k]
  simp

theorem mem_insert_iff {s : KindSet} {a k : TokenKind} :
    k ∈ (Insert.insert a s : KindSet) ↔ k = a ∨ k ∈ s :=
  mem_insert.trans or_comm

theorem mem_toList {s : KindSet} {k : TokenKind} : k ∈ s.toList ↔ k ∈ s := by
  simp [toList, TokenKind.mem_all, mem_iff]

/-! ## The phrase of a set -/

/-- A name between backticks. -/
def backticked (name : String) : String := "`" ++ name ++ "`"

/-- The members as a phrase: nothing, one, one or another, or a list whose last member comes
after a comma and the word "or". -/
def phrase (s : KindSet) : String :=
  match (s.toList.map fun k => backticked k.name).reverse with
  | [] => "nothing"
  | [only] => only
  | [second, first] => first ++ " or " ++ second
  | last :: others => ", ".intercalate others.reverse ++ ", or " ++ last

end KindSet
end GrammarPaint
