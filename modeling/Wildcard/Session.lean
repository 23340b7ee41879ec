import Wildcard.Division
import Wildcard.Matching
import Wildcard.Segments

/-! A pattern in use, which remembers how the last text was divided.

    A session holds the division of the last text that its pattern matched or that it was told to
    divide, and nothing after a text that did not match.

        check t, t matches   ──▶ division of t
        check t, no match    ──▶ nothing
        divide t             ──▶ division of t -/

namespace Wildcard

/-- A pattern together with the last division. -/
structure Session where
  pattern : Pattern
  division? : Option Division := none
  deriving DecidableEq

namespace Session

/-- Matches a text, and keeps its division if it matches. -/
def check (s : Session) (text : String) : Bool × Session :=
  if s.pattern.isMatch text then
    (true, { s with division? := some (.ofText s.pattern.separator text) })
  else (false, { s with division? := none })

/-- Keeps the division of a text without matching it, and tells the number of separators. -/
def divide (s : Session) (text : String) : Nat × Session :=
  let d := Division.ofText s.pattern.separator text
  (d.separatorCount, { s with division? := some d })

/-- The number of separators in the last division. -/
def separatorCount? (s : Session) : Option Nat := s.division?.map Division.separatorCount

/-- A segment of the last division, by the number of separators before it. -/
def segment? (s : Session) (n : Nat) : Option String := s.division?.bind fun d => d.segment? n

/-- The segments of the last division, to be read from either end; none if there is no division. -/
def segments (s : Session) : Segments := .ofArray ((s.division?.map Division.segments).getD #[])

end Session

end Wildcard
