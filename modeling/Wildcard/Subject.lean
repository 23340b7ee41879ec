/-! The text that a pattern is held against, with what a search asks of it.

    Three questions come up again and again: where does the segment at a position end, where is the
    separator that has a given number of others behind it, and where does a run of characters occur
    from some position on. Each answer is read out of a table that one pass from the end fills; the
    tables for runs are filled when they are first needed.

        a / b b /        position       0 1 2 3 4 5
                         segment stop   1 1 4 4 4 5
                         "b" from here  2 2 2 3 - - -/

namespace Wildcard

/-- The positions from `start` on that come before `stop`. -/
structure Span where
  start : Nat
  stop : Nat
  deriving DecidableEq

/-- Where one run of characters occurs. -/
structure Sites where
  /-- The occurrences at or after a position, from left to right. -/
  onward : Nat → List Span

/-- A text under search. -/
structure Subject where
  /-- The characters. -/
  chars : Array Char
  /-- The character that bounds segments, if there is one. -/
  separator : Option Char
  /-- The first separator at or after a position, or the end of the text. -/
  segmentStop : Nat → Nat
  /-- The separator with exactly so many others behind it. -/
  separatorFromEnd : Nat → Option Nat
  /-- Where a run occurs. -/
  sites : List Char → Sites

namespace Subject

/-- Whether a run of characters stands at a position. -/
def occursAt (cs : Array Char) : List Char → Nat → Bool
  | [], _ => true
  | c :: run, i => cs[i]? = some c && occursAt cs run (i + 1)

/-- For every position, and for the end, the first separator from there on; the end if none is. -/
def stopTable (separator : Option Char) (cs : Array Char) : Array Nat :=
  ((List.range cs.size).foldr
    (fun i later => (if cs[i]? = separator then i else later.headD cs.size) :: later)
    [cs.size]).toArray

/-- The positions of the separators, the last one first. -/
def separatorTable (separator : Option Char) (cs : Array Char) : Array Nat :=
  ((List.range cs.size).filter fun i => cs[i]? = separator).reverse.toArray

/-- For every position, and for the end, the occurrences of a run from there on. Each entry is the
    tail of the entry before it, or the whole of it. -/
def siteTable (cs : Array Char) (run : List Char) : Array (List Span) :=
  let width := run.length
  ((List.range cs.size).foldr
    (fun i later =>
      (if occursAt cs run i then ⟨i, i + width⟩ :: later.headD [] else later.headD []) :: later)
    [[]]).toArray

/-- The occurrences of a run, looked up in a table that is filled at the first look. -/
def tabledSites (cs : Array Char) (run : List Char) : Sites :=
  let table := Thunk.mk fun _ => siteTable cs run
  { onward := fun i => table.get[i]?.getD [] }

/-- A text made ready for a search. -/
def ofChars (separator : Option Char) (cs : Array Char) : Subject :=
  let stops := stopTable separator cs
  let separators := separatorTable separator cs
  { chars := cs
    separator
    segmentStop := fun i => stops[i]?.getD cs.size
    separatorFromEnd := fun k => separators[k]?
    sites := tabledSites cs }

/-- How many characters there are. -/
def size (s : Subject) : Nat := s.chars.size

end Subject

end Wildcard
