import Wildcard.Recorder
import Wildcard.Subject

/-! The positions that wildcards have taken, as a record of a search.

    A search takes positions from left to right, and gives back from some position to the right end.
    So the spans are kept like a stack, the latest on top, and only the top one changes:

        take 0 2, take 3 6    ──▶  [3,6) [0,2)
        undo 4                ──▶  [3,4) [0,2)
        take 4 5              ──▶  [3,5) [0,2)      a span that touches the top one extends it -/

namespace Wildcard

/-- A set of positions. -/
structure Spans where
  /-- The spans that make it up, the latest first. -/
  latestFirst : List Span
  deriving DecidableEq

namespace Spans

/-- No position at all. -/
def empty : Spans := ⟨[]⟩

/-- Adds the positions from `start` up to `stop`. -/
def take (s : Spans) (start stop : Nat) : Spans :=
  if stop ≤ start then s
  else match s.latestFirst with
    | [] => ⟨[⟨start, stop⟩]⟩
    | top :: rest =>
      if top.start ≤ start ∧ start ≤ top.stop then ⟨{ top with stop := max top.stop stop } :: rest⟩
      else ⟨⟨start, stop⟩ :: top :: rest⟩

/-- Removes the positions from `bound` on. -/
def undo (s : Spans) (bound : Nat) : Spans :=
  match s.latestFirst.dropWhile fun span => bound ≤ span.start with
  | [] => empty
  | top :: rest => ⟨{ top with stop := min top.stop bound } :: rest⟩

/-- Whether a position is in the set: the latest span that starts no later decides. -/
def taken (s : Spans) (i : Nat) : Bool :=
  (s.latestFirst.find? fun span => span.start ≤ i).any fun span => i < span.stop

/-- The characters at the positions of the set, from left to right. -/
def charsOf (s : Spans) (cs : Array Char) : List Char :=
  s.latestFirst.reverse.flatMap fun span => (cs.extract span.start span.stop).toList

instance : Recorder Spans where
  look s _ := s
  take := take
  undo := undo
  taken := taken

end Spans

end Wildcard
