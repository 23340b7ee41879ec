import Wildcard.Token

/-! Which kinds of token a pattern holds, and whether it used an escape.

    A set of features is a word of six bits, one for each `Feature`, the first in the lowest place:

        bit      0     1           2         3     4          5
        feature  star  doubleStar  question  plus  separator  escape
                 └──────── wildcards ───────────┘ -/

namespace Wildcard

/-- One fact about what a pattern is made of. -/
inductive Feature where | star | doubleStar | question | plus | separator | escape
  deriving DecidableEq

namespace Feature

/-- The features in the order of their bits. -/
def all : List Feature := [.star, .doubleStar, .question, .plus, .separator, .escape]

/-- The place of a feature's bit. -/
def bit : Feature → Nat
  | .star => 0
  | .doubleStar => 1
  | .question => 2
  | .plus => 3
  | .separator => 4
  | .escape => 5

/-- The features that make a pattern more than a plain text. -/
def isWildcard : Feature → Bool
  | .star | .doubleStar | .question | .plus => true
  | .separator | .escape => false

/-- The feature that a token of this kind brings; a literal brings none. -/
def ofKind? : Kind → Option Feature
  | .star => some .star
  | .doubleStar => some .doubleStar
  | .question => some .question
  | .plus => some .plus
  | .separator => some .separator
  | .literal | .endOfPattern => none

theorem mem_all (f : Feature) : f ∈ all := by
  cases f <;> decide

end Feature

/-- A set of features. -/
structure Features where
  /-- One bit for each feature. -/
  bits : BitVec 6
  deriving DecidableEq

namespace Features

/-- No feature at all. -/
def empty : Features := ⟨0⟩

/-- Whether the set holds a feature. -/
def contains (s : Features) (f : Feature) : Bool := s.bits.getLsbD f.bit

/-- The set with one more feature. -/
def insert (s : Features) (f : Feature) : Features := ⟨s.bits ||| BitVec.twoPow 6 f.bit⟩

/-- The set of the features in a list. -/
def ofList (fs : List Feature) : Features := fs.foldl insert empty

/-- The features of a set in the order of their bits. -/
def toList (s : Features) : List Feature := Feature.all.filter s.contains

/-- The set that a number stands for; a number with a bit beyond the sixth stands for none. -/
def ofNat? (n : Nat) : Option Features :=
  if h : n < 2 ^ 6 then some ⟨BitVec.ofNatLT n h⟩ else none

/-- The number whose binary digits are the set. -/
def toNat (s : Features) : Nat := s.bits.toNat

/-- Whether some wildcard is in the set. -/
def hasWildcards (s : Features) : Bool := s.toList.any Feature.isWildcard

/-! ### What a set holds -/

@[simp]
theorem contains_empty (f : Feature) : empty.contains f = false := by
  simp [contains, empty]

@[simp]
theorem contains_insert (s : Features) (f g : Feature) :
    (s.insert f).contains g = (s.contains g || decide (f = g)) := by
  cases f <;> cases g <;> simp [contains, insert, Feature.bit]

theorem contains_foldl_insert (fs : List Feature) (s : Features) (g : Feature) :
    (fs.foldl insert s).contains g = (s.contains g || decide (g ∈ fs)) := by
  induction fs generalizing s with
  | nil => simp
  | cons f fs ih => simp [ih, Bool.or_assoc, eq_comm]

@[simp]
theorem contains_ofList (fs : List Feature) (g : Feature) :
    (ofList fs).contains g = decide (g ∈ fs) := by
  simp [ofList, contains_foldl_insert]

@[simp]
theorem mem_toList {s : Features} {f : Feature} : f ∈ s.toList ↔ s.contains f := by
  simp [toList, Feature.mem_all]

theorem hasWildcards_iff {s : Features} :
    s.hasWildcards ↔ ∃ f, s.contains f ∧ f.isWildcard := by
  simp [hasWildcards]

end Features

end Wildcard
