import Verbatim.Kind

/-!
# Sets of kinds

A set of kinds is a 64-bit word whose bit `i` stands for the kind with number `i`. The full word
also has the bits that belong to no kind, so `KindSet.all` differs from the union of all kinds.
-/

namespace Verbatim

/-- A set of kinds, one bit per kind number. -/
structure KindSet where
  /-- Bit `i` is set when the kind with number `i` belongs to the set. -/
  bits : BitVec 64
  deriving DecidableEq

namespace KindSet

/-- The set without members. -/
def empty : KindSet := ⟨0⟩

/-- The word with every bit set; it contains every kind. -/
def all : KindSet := ⟨BitVec.allOnes 64⟩

/-- The set with one member. -/
def single (k : Kind) : KindSet := ⟨BitVec.twoPow 64 k.number⟩

/-- Members of either set. -/
def union (s t : KindSet) : KindSet := ⟨s.bits ||| t.bits⟩

/-- The set of the listed kinds. -/
def ofList (kinds : List Kind) : KindSet := kinds.foldl (fun s k => s.union (single k)) empty

/-- Membership reads one bit. -/
def contains (s : KindSet) (k : Kind) : Bool := s.bits.getLsbD k.number

/-- Members in the order of the kind numbers. -/
def toList (s : KindSet) : List Kind := Kind.all.filter s.contains

/-- Whether exactly one bit is set. -/
def isSingle (s : KindSet) : Bool := (List.range 64).countP s.bits.getLsbD == 1

/-- The set as it is written in messages: its word in decimal. -/
def render (s : KindSet) : String := s!"SyntaxSet \x7b bits: [{s.bits.toNat}] \x7d"

@[simp] theorem contains_empty (k : Kind) : empty.contains k = false := by
  simp [contains, empty]

@[simp] theorem contains_all (k : Kind) : all.contains k = true := by
  cases k <;> rfl

@[simp] theorem contains_union (s t : KindSet) (k : Kind) :
    (s.union t).contains k = (s.contains k || t.contains k) := by
  simp [contains, union]

@[simp] theorem contains_single (k l : Kind) : (single k).contains l = (l == k) := by
  have hnumber : k.number = l.number ↔ l = k :=
    ⟨fun h => Option.some_inj.mp (by
      rw [← Kind.getElem?_all_number, ← Kind.getElem?_all_number, h]), fun h => h ▸ rfl⟩
  rw [Bool.eq_iff_iff, contains, single, BitVec.getLsbD_twoPow]
  simp [k.number_lt, hnumber]

/-- Adding kinds one by one to a set. -/
private theorem contains_foldl (kinds : List Kind) (s : KindSet) (k : Kind) :
    (kinds.foldl (fun s k => s.union (single k)) s).contains k =
      (s.contains k || kinds.contains k) := by
  induction kinds generalizing s with
  | nil => simp
  | cons l rest ih =>
    rw [List.foldl_cons, ih, contains_union, contains_single, List.contains_cons, Bool.or_assoc]

@[simp] theorem contains_ofList (kinds : List Kind) (k : Kind) :
    (ofList kinds).contains k = kinds.contains k := by
  simp [ofList, contains_foldl]

end KindSet

/-- Binary operator tokens. -/
def KindSet.binaryOperators : KindSet := .ofList [.plus, .minus, .star, .slash]

/-- Kinds that may fill an expression slot. -/
def KindSet.expressions : KindSet :=
  .ofList [.binaryExpr, .prefixExpr, .parenExpr, .callExpr, .literalExpr, .nameExpr, .missingExpr]

end Verbatim
