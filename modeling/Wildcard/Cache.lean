import Wildcard.Pattern

/-! A bounded store of compiled patterns that forgets the least recently used first.

    The entries stand in the order of their last use, the most recent first, so the one to forget is
    always the last.

        get a    a known     ──▶ a moves to the front           hit
        get a    a unknown   ──▶ a is put in front              miss
                 no room     ──▶ the last entry is dropped      eviction -/

namespace Wildcard

namespace Cache

/-- A stored pattern, with the number of patterns that were compiled before it. -/
structure Entry where
  pattern : Pattern
  serial : Nat
  deriving DecidableEq

/-- Whether the entry is what a text and a separator compile to. -/
def Entry.isFor (text : String) (separator : Option Char) (e : Entry) : Bool :=
  e.pattern.text = text && e.pattern.separator = separator

end Cache

/-- A store of compiled patterns. -/
structure Cache where
  /-- How many entries there may be. -/
  capacity : Nat
  /-- The entries, the most recently used first. -/
  entries : List Cache.Entry := []
  /-- How often a pattern was found. -/
  hits : Nat := 0
  /-- How often a pattern had to be compiled. -/
  misses : Nat := 0
  /-- How many entries were dropped to make room. -/
  evictions : Nat := 0
  /-- There is always room for one. -/
  capacity_pos : 0 < capacity
  /-- There are never more entries than allowed. -/
  length_le : entries.length ≤ capacity := by simp

namespace Cache

/-- The capacity of a cache for which none is given. -/
def defaultCapacity : Nat := 256

/-- An empty cache; a capacity of zero is raised to one. -/
def new (capacity : Nat) : Cache :=
  { capacity := max capacity 1, capacity_pos := by omega }

instance : Inhabited Cache := ⟨new defaultCapacity⟩

/-- The number of entries. -/
def length (c : Cache) : Nat := c.entries.length

/-- Whether there is no entry. -/
def isEmpty (c : Cache) : Bool := c.entries.isEmpty

/-- Whether a pattern is stored. A look does not count as a use. -/
def contains (c : Cache) (text : String) (separator : Option Char) : Bool :=
  c.entries.any (Entry.isFor text separator)

/-- Forgets every entry. The counters go on. -/
def clear (c : Cache) : Cache := { c with entries := [], length_le := by simp }

/-- The stored pattern, or a fresh one that is stored from now on. -/
def get (c : Cache) (text : String) (separator : Option Char) : Entry × Cache :=
  match h : c.entries.find? (Entry.isFor text separator) with
  | some e =>
    (e, { c with
      entries := e :: c.entries.eraseP (Entry.isFor text separator)
      hits := c.hits + 1
      length_le := by
        have hm := List.mem_of_find?_eq_some h
        have := List.length_pos_of_mem hm
        have := List.length_eraseP_of_mem hm (List.find?_some h)
        have := c.length_le
        simp only [List.length_cons]
        omega })
  | none =>
    let e : Entry := { pattern := .compile text separator, serial := c.misses }
    (e, { c with
      entries := e :: c.entries.take (c.capacity - 1)
      misses := c.misses + 1
      evictions := c.evictions + (c.entries.drop (c.capacity - 1)).length
      length_le := by
        have := c.capacity_pos
        simp only [List.length_cons, List.length_take]
        omega })

end Cache

end Wildcard
