import Wildcard.Token

/-! From a text to tokens.

    Each character of the text fills one slot. What it means depends on the characters before it
    only through a `Context`, and on the one character after it:

        context      behind '*'    behind '\'    behind any other
        plain        afterStar     escaped       plain
        afterStar    afterStars    escaped       plain
        afterStars   afterStars    escaped       plain
        escaped      plain         plain         plain

    The separator is looked for first: it leads back to `plain` from everywhere, no escape hides it,
    and a separator that is also a wildcard character is no wildcard. Slots that stand for nothing
    are then deleted, and every group of stars that have become neighbours is one `doubleStar`. -/

namespace Wildcard

/-- What is remembered of the text to the left: an escape, or whether no star, one or more than one
    stand directly before. -/
inductive Context where | plain | escaped | afterStar | afterStars
  deriving DecidableEq

/-- The context to the right of a character. -/
def Context.next (separator : Option Char) (before : Context) (c : Char) : Context :=
  if separator = some c then .plain
  else if before = .escaped then .plain
  else if c = escapeChar then .escaped
  else if c = '*' then if before = .plain then .afterStar else .afterStars
  else .plain

/-- What one character of the text contributes. -/
inductive Slot where
  /-- a token -/
  | live (t : Token)
  /-- an escape, which only changes how the next character is read -/
  | escape
  /-- a `?` or `+` that a neighbouring star makes redundant -/
  | dropped
  deriving DecidableEq

namespace Slot

/-- The slot of a character between its context and the character after it. A `?` is dropped next to
    a single star on either side, a `+` only behind one. -/
def classify (separator : Option Char) (before : Context) (c : Char) (after : Option Char) : Slot :=
  if separator = some c then .live (.separator c)
  else if before = .escaped then .live (.literal c)
  else if c = escapeChar then .escape
  else if c = '*' then .live .star
  else if c = '?' then
    if before = .afterStar ∨ (after = some '*' ∧ separator ≠ some '*') then .dropped
    else .live .question
  else if c = '+' then if before = .afterStar then .dropped else .live .plus
  else .live (.literal c)

/-- The slots of a text that is read in a given context. -/
def read (separator : Option Char) : Context → List Char → List Slot
  | _, [] => []
  | before, c :: cs =>
    classify separator before c cs.head? :: read separator (before.next separator c) cs

/-- The slots of a whole text. -/
def ofText (separator : Option Char) (text : String) : List Slot :=
  read separator .plain text.toList

/-- The token of a slot that has one. -/
def token? : Slot → Option Token
  | .live t => some t
  | .escape | .dropped => none

/-- Every character fills exactly one slot. -/
@[simp]
theorem length_read (separator : Option Char) (before : Context) (cs : List Char) :
    (read separator before cs).length = cs.length := by
  induction cs generalizing before with
  | nil => rfl
  | cons c cs ih => simp [read, ih]

end Slot

namespace Token

/-- Puts a token in front of a list, as one `doubleStar` with a star that is already there. -/
def push (t : Token) : List Token → List Token
  | u :: ts => if t.kind.isStar && u.kind.isStar then .doubleStar :: ts else t :: u :: ts
  | [] => [t]

/-- Makes every group of neighbouring stars one `doubleStar`. -/
def mergeStars (ts : List Token) : List Token := ts.foldr push []

/-- The tokens that a row of slots leaves. -/
def ofSlots (slots : List Slot) : List Token := mergeStars (slots.filterMap Slot.token?)

end Token

end Wildcard
