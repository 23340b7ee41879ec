/-! The alphabet of compiled patterns.

    A token is one live position of a pattern: a character that stands for itself, the separator, or
    one of the four wildcards. Its `Kind` forgets the character. `endOfPattern` is a kind without a
    token: it closes every list of kinds, so that a position after the last token has a kind too.

        token     literal  separator  star  doubleStar  question  plus    (end)
        takes     itself   itself     a run of characters  one character  nothing -/

namespace Wildcard

/-- The character that makes the next one literal. -/
def escapeChar : Char := '\\'

/-- Whether a character means something else than itself in a pattern. -/
def isMetacharacter (c : Char) : Bool := c = '*' || c = '?' || c = '+' || c = escapeChar

/-- What stands at one position of a compiled pattern, its character aside. -/
inductive Kind where | literal | star | doubleStar | question | plus | separator | endOfPattern
  deriving DecidableEq

namespace Kind

/-- The two kinds that take a run of any length. -/
def isStar : Kind → Bool
  | .star | .doubleStar => true
  | _ => false

/-- The kinds that may be left over when the subject has been used up. -/
def isNullable : Kind → Bool
  | .star | .doubleStar | .endOfPattern => true
  | _ => false

/-- How much a token of this kind counts towards the weight of a pattern, before its position. -/
def weight : Kind → Nat
  | .literal => 1
  | .star => 2
  | .doubleStar => 3
  | .question => 4
  | .plus => 5
  | .separator => 9
  | .endOfPattern => 0

/-- Whatever takes a run may take an empty one. -/
theorem isNullable_of_isStar {k : Kind} (h : k.isStar) : k.isNullable := by
  cases k <;> simp_all [isStar, isNullable]

end Kind

/-- One live position of a compiled pattern. -/
inductive Token where
  | literal (c : Char)
  | separator (c : Char)
  | star
  | doubleStar
  | question
  | plus
  deriving DecidableEq

namespace Token

/-- The kind of a token. -/
def kind : Token → Kind
  | .literal _ => .literal
  | .separator _ => .separator
  | .star => .star
  | .doubleStar => .doubleStar
  | .question => .question
  | .plus => .plus

/-- The character that a token is written with; both stars are written as one `*`. -/
def symbol : Token → Char
  | .literal c | .separator c => c
  | .star | .doubleStar => '*'
  | .question => '?'
  | .plus => '+'

/-- No token closes a pattern. -/
theorem kind_ne_endOfPattern (t : Token) : t.kind ≠ .endOfPattern := by
  cases t <;> simp [kind]

end Token

end Wildcard
