import Wildcard.Token

/-! What lies ahead of a position in a pattern.

    A star decides by what comes after it: is a literal run next, or at all; how many separators are
    still wanted; may everything be left over. An `Outlook` answers these for one place between two
    tokens, and the outlook to the left of a token follows from the one to its right, so one pass
    from the end finds them all.

        ? / a b * c          outlook of the whole: gap 2, run "ab", one separator, not skippable
        └gap┘└run┘ -/

namespace Wildcard

/-- What the tokens from some place on look like. -/
structure Outlook where
  /-- How many tokens stand before the next literal, or before the end if there is none. -/
  gap : Nat
  /-- The next run of literals; empty if no literal is left. -/
  run : List Char
  /-- How many separators are left. -/
  separators : Nat
  /-- Whether every token that is left may take nothing. -/
  skippable : Bool
  deriving DecidableEq

namespace Outlook

/-- What lies ahead of the end. -/
def atEnd : Outlook := ⟨0, [], 0, true⟩

/-- The outlook from the left of a token, given the one from its right. -/
def before (t : Token) (o : Outlook) : Outlook :=
  match t with
  | .literal c =>
    { o with gap := 0, run := c :: (if o.gap = 0 then o.run else []), skippable := false }
  | .separator _ => { o with gap := o.gap + 1, separators := o.separators + 1, skippable := false }
  | t => { o with gap := o.gap + 1, skippable := t.kind.isNullable && o.skippable }

/-- The outlook on a list of tokens. -/
def ofTokens (ts : List Token) : Outlook := ts.foldr before atEnd

/-- Whether a literal stands directly ahead. -/
def isAtLiteral (o : Outlook) : Bool := o.gap = 0 && !o.run.isEmpty

/-- The number of tokens up to the end of the next literal run. -/
def reach (o : Outlook) : Nat := o.gap + o.run.length

@[simp]
theorem ofTokens_nil : ofTokens [] = atEnd := rfl

@[simp]
theorem ofTokens_cons (t : Token) (ts : List Token) : ofTokens (t :: ts) = before t (ofTokens ts) :=
  rfl

end Outlook

end Wildcard
