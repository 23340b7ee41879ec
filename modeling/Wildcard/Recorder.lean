/-! What a search tells about itself while it runs.

    A search reports which positions its wildcards take and gives back, and every look at the text.
    It asks one thing in return: whether a position is taken at the moment. Whoever only wants the
    verdict records nothing; whoever wants the taken characters records spans. -/

namespace Wildcard

/-- A record that a search writes. -/
class Recorder (μ : Type) where
  /-- A token is about to be held against the character at a position. -/
  look : μ → Nat → μ
  /-- A wildcard takes the positions from `start` up to `stop`, none if that is not beyond. -/
  take : μ → (start stop : Nat) → μ
  /-- All positions from some position on are given back. -/
  undo : μ → Nat → μ
  /-- Whether a position is taken. -/
  taken : μ → Nat → Bool

/-- The record of someone who wants the verdict alone. -/
instance : Recorder Unit where
  look _ _ := ()
  take _ _ _ := ()
  undo _ _ := ()
  taken _ _ := false

end Wildcard
