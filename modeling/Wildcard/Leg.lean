import Wildcard.Outlook
import Wildcard.Subject

/-! One token of a pattern, ready to be held against one subject.

    A leg knows its token, the kind of the token before, the outlook on the tokens after, and where
    the next literal run occurs in the subject. That is all it takes to say what the token does when
    it faces a character: `Leg.move` is the whole meaning of the six tokens. -/

namespace Wildcard

/-- A token with its surroundings. -/
structure Leg where
  /-- The kind of the token to the left. -/
  before : Option Kind
  /-- The token itself. -/
  token : Token
  /-- What the tokens to the right look like. -/
  ahead : Outlook
  /-- Where the next literal run to the right occurs in the subject. -/
  sites : Sites

/-- What a token does when it faces a character. -/
inductive Move where
  /-- It does not fit. -/
  | stuck
  /-- It takes nothing; the next token faces the same character. -/
  | yield
  /-- It stands for the character. -/
  | pass
  /-- It is a wildcard and takes the character. -/
  | take
  /-- It is a separator behind a star: it goes with the character before it, taken or not. -/
  | trail
  /-- It takes what comes before a position, and the next token goes on there. -/
  | jump (stop : Nat)
  /-- It takes what comes before an occurrence of the next literal run that ends within a limit, and
      the token after that run goes on behind it. -/
  | seek (limit : Nat)
  deriving DecidableEq

namespace Leg

/-- The legs of a list of tokens behind a token of a given kind, with the outlook on all of them. -/
def chain (s : Subject) : Option Kind → List Token → List Leg × Outlook
  | _, [] => ([], .atEnd)
  | before, t :: ts =>
    let rest := chain s (some t.kind) ts
    ({ before, token := t, ahead := rest.2, sites := s.sites rest.2.run } :: rest.1,
      rest.2.before t)

/-- The outlook that comes with the legs is the one on the tokens. -/
@[simp]
theorem chain_snd (s : Subject) (before : Option Kind) (ts : List Token) :
    (chain s before ts).2 = .ofTokens ts := by
  induction ts generalizing before with
  | nil => rfl
  | cons t ts ih => rw [chain, Outlook.ofTokens_cons, ← ih (some t.kind)]

/-- The legs of a whole pattern. -/
def ofTokens (s : Subject) (ts : List Token) : List Leg := (chain s none ts).1

/-- Whether this token and all after it may be left over. -/
def isSkippable (leg : Leg) : Bool := leg.token.kind.isNullable && leg.ahead.skippable

/-- What a star does that stays within its segment: it seeks a literal run that follows directly,
    and otherwise goes to the end of the segment. -/
def moveInSegment (leg : Leg) (s : Subject) (i : Nat) : Move :=
  if leg.ahead.isAtLiteral then .seek (s.segmentStop i) else .jump (s.segmentStop i)

/-- What a star does that may cross segments: it seeks the next literal run anywhere, whatever
    stands before that run in the pattern. If no literal is left it goes where just the separators
    remain that are still wanted, or to the end if none is wanted. The first of those that remain
    may be the separator right before `i`; if there are too few, the star stays where it is. -/
def moveAcross (leg : Leg) (s : Subject) (i : Nat) : Move :=
  if leg.ahead.run.isEmpty then
    match leg.ahead.separators with
    | 0 => .jump s.size
    | k + 1 => .jump (((s.separatorFromEnd k).filter fun stop => i ≤ stop + 1).getD i)
  else .seek s.size

/-- What the token does at position `i`, where it faces `c`. No wildcard but `**` takes a separator;
    a single `?` lets a literal go first that fits. -/
def move (leg : Leg) (s : Subject) (i : Nat) (c : Char) : Move :=
  match leg.token with
  | .literal d => if c = d then .pass else .stuck
  | .separator d =>
    if c = d then if leg.before.any Kind.isStar then .trail else .pass else .stuck
  | .question =>
    if leg.before ≠ some .question ∧ leg.ahead.isAtLiteral ∧ leg.ahead.run.head? = some c then
      .yield
    else if s.separator = some c then .stuck
    else .take
  | .plus => if s.separator = some c then .stuck else .take
  | .star => leg.moveInSegment s i
  | .doubleStar => if s.separator.isSome then leg.moveAcross s i else leg.moveInSegment s i

end Leg

end Wildcard
