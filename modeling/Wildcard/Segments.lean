/-! A row of segments that is read off from both ends.

    The window over the row shrinks with every segment that is read, from the left or from the
    right, until the ends meet; from then on nothing comes any more.

        all      s0 s1 s2 s3 s4
                    └── window ──┘      read so far: s0 from the front -/

namespace Wildcard

/-- The segments from `front` up to `back`, which are still to be read. -/
structure Segments where
  /-- The whole row. -/
  all : Array String
  /-- How many have been read from the front. -/
  front : Nat
  /-- Where those begin that have been read from the back. -/
  back : Nat
  /-- No segment is read from both ends. -/
  front_le_back : front ≤ back
  /-- The window lies within the row. -/
  back_le_size : back ≤ all.size

namespace Segments

/-- A row of which nothing has been read. -/
def ofArray (all : Array String) : Segments :=
  { all, front := 0, back := all.size, front_le_back := by omega, back_le_size := by omega }

/-- How many segments are still to be read. -/
def length (w : Segments) : Nat := w.back - w.front

/-- The segments that are still to be read. -/
def toList (w : Segments) : List String := (w.all.extract w.front w.back).toList

/-- Reads the leftmost segment. -/
def next? (w : Segments) : Option (String × Segments) :=
  if h : w.front < w.back then
    have := w.back_le_size
    some (w.all[w.front], { w with front := w.front + 1, front_le_back := by omega })
  else none

/-- Reads the rightmost segment. -/
def nextBack? (w : Segments) : Option (String × Segments) :=
  if h : w.front < w.back then
    have := w.back_le_size
    some (w.all[w.back - 1],
      { w with back := w.back - 1, front_le_back := by omega, back_le_size := by omega })
  else none

/-! ### What reading does to the row -/

@[simp]
theorem toList_ofArray (all : Array String) : (ofArray all).toList = all.toList := by
  simp [ofArray, toList]

@[simp]
theorem length_toList (w : Segments) : w.toList.length = w.length := by
  have := w.back_le_size
  rw [toList, Array.length_toList, Array.size_extract, length, Nat.min_eq_left this]

theorem toList_eq_take_drop (w : Segments) :
    w.toList = (w.all.toList.drop w.front).take w.length := by
  rw [toList, Array.toList_extract, List.extract_eq_take_drop, length]

/-- What is read from the front was the first. -/
theorem toList_of_next? {w w' : Segments} {s : String} (h : w.next? = some (s, w')) :
    w.toList = s :: w'.toList := by
  rw [next?] at h
  split at h
  · next lt =>
    obtain ⟨rfl, rfl⟩ := Prod.mk.inj (Option.some.inj h)
    have hb : w.front < w.all.toList.length := Nat.lt_of_lt_of_le lt w.back_le_size
    have hl : w.back - w.front = w.back - (w.front + 1) + 1 := by omega
    rw [toList_eq_take_drop, toList_eq_take_drop, length, length, hl,
      List.drop_eq_getElem_cons hb, List.take_succ_cons, Array.getElem_toList]
  · cases h

/-- What is read from the back was the last. -/
theorem toList_of_nextBack? {w w' : Segments} {s : String} (h : w.nextBack? = some (s, w')) :
    w.toList = w'.toList ++ [s] := by
  rw [nextBack?] at h
  split at h
  · next lt =>
    obtain ⟨rfl, rfl⟩ := Prod.mk.inj (Option.some.inj h)
    have hb := w.back_le_size
    have hd : w.back - 1 - w.front < (w.all.toList.drop w.front).length := by
      rw [List.length_drop, Array.length_toList]
      omega
    have hl : w.back - w.front = w.back - 1 - w.front + 1 := by omega
    have hi : w.front + (w.back - 1 - w.front) = w.back - 1 := by omega
    rw [toList_eq_take_drop, toList_eq_take_drop, length, length, hl,
      List.take_succ_eq_append_getElem hd]
    simp only [List.getElem_drop, hi, Array.getElem_toList]
  · cases h

/-- Nothing comes from the front just when nothing is left. -/
theorem next?_eq_none {w : Segments} : w.next? = none ↔ w.length = 0 := by
  rw [next?, length]
  split <;> simp <;> omega

/-- Nothing comes from the back just when nothing is left. -/
theorem nextBack?_eq_none {w : Segments} : w.nextBack? = none ↔ w.length = 0 := by
  rw [nextBack?, length]
  split <;> simp <;> omega

end Segments

end Wildcard
