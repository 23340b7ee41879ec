/-! A text divided at its separators.

    There is one segment before the first separator and one behind each; any of them may be empty.
    The division is built from the right: a separator opens a new first segment, every other
    character joins the one that is there.

        / a / b        first ""   behind "a" "b"
        (empty)        first ""   behind nothing -/

namespace Wildcard

/-- The segments of a list of characters: the first, and those behind each separator. -/
def cut (separator : Option Char) (cs : List Char) : List Char × List (List Char) :=
  cs.foldr
    (fun c rest => if separator = some c then ([], rest.1 :: rest.2) else (c :: rest.1, rest.2))
    ([], [])

@[simp]
theorem cut_nil (separator : Option Char) : cut separator [] = ([], []) := rfl

/-- A separator opens a segment. -/
theorem cut_cons_separator {separator : Option Char} {c : Char} (h : separator = some c)
    (cs : List Char) :
    cut separator (c :: cs) = ([], (cut separator cs).1 :: (cut separator cs).2) := by
  rw [cut, List.foldr_cons, if_pos h, cut]

/-- Any other character joins the first segment. -/
theorem cut_cons_other {separator : Option Char} {c : Char} (h : separator ≠ some c)
    (cs : List Char) :
    cut separator (c :: cs) = (c :: (cut separator cs).1, (cut separator cs).2) := by
  rw [cut, List.foldr_cons, if_neg h, cut]

/-- The segments of a text. -/
structure Division where
  /-- What comes before the first separator, or the whole text. -/
  first : String
  /-- What comes behind each separator. -/
  behind : Array String
  deriving DecidableEq

namespace Division

/-- Divides a text at every separator; without a separator the text is one segment. -/
def ofText (separator : Option Char) (text : String) : Division :=
  let segments := cut separator text.toList
  { first := String.ofList segments.1, behind := (segments.2.map String.ofList).toArray }

/-- The number of separators. -/
def separatorCount (d : Division) : Nat := d.behind.size

/-- The segment behind so many separators. -/
def segment? (d : Division) : Nat → Option String
  | 0 => some d.first
  | n + 1 => d.behind[n]?

/-- All segments, from left to right. -/
def segments (d : Division) : Array String := #[d.first] ++ d.behind

/-- There is one segment more than separators. -/
@[simp]
theorem size_segments (d : Division) : d.segments.size = d.separatorCount + 1 := by
  simp [segments, separatorCount, Nat.add_comm]

end Division

end Wildcard
