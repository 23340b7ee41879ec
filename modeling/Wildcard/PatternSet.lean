import Wildcard.Matching

/-! Acceptance by two lists of patterns.

    A candidate is accepted if it matches some included pattern, or none is given, and no excluded
    one. -/

namespace Wildcard

/-- Patterns that let a candidate in, and patterns that keep it out. -/
structure PatternSet where
  included : List Pattern := []
  excluded : List Pattern := []
  deriving DecidableEq

namespace PatternSet

/-- Compiles the distinct texts of a list, in the order of their first occurrence. -/
def compileAll (texts : List String) (separator : Option Char) : List Pattern :=
  texts.eraseDups.map fun text => .compile text separator

/-- The set of two lists of texts that share a separator. -/
def ofTexts (included excluded : List String) (separator : Option Char) : PatternSet :=
  { included := compileAll included separator, excluded := compileAll excluded separator }

/-- Whether no pattern is given at all. -/
def isEmpty (s : PatternSet) : Bool := s.included.isEmpty && s.excluded.isEmpty

/-- Whether a candidate is accepted. -/
def accepts (s : PatternSet) (candidate : String) : Bool :=
  (s.included.isEmpty || s.included.any fun p => p.isMatch candidate) &&
    !s.excluded.any fun p => p.isMatch candidate

end PatternSet

end Wildcard
