import Wildcard.Proofs.Checked
import Wildcard.Proofs.Language

/-! Tables of positions, filled and read without leaving their bounds.

    The outlook on tokens, the ends of segments and the places of a run can be kept as arrays, with
    one entry for each position and one for the end. Each array is filled from its end by a rule
    that looks at the next entry. No access fails while they are filled, and what they are filled
    with is what the outlook and the subject say.

        kinds        a  b  *  (end)         text         a  /  b
        run end      2  2  2  3             segment end  1  1  3  3
        next literal 0  1  3  3             "b" from     2  2  2  - -/

namespace Wildcard

open Subject (ofChars)

/-! ### Filling a table from its end -/

section

variable {α : Type}

/-- Fills the first `n` entries of a table, the last of them first. A rule finds each entry from its
    position and from the entry behind it. -/
def fill (rule : ℕ → α → Except Fault α) : ℕ → Array α → Except Fault (Array α)
  | 0, table => .ok table
  | i + 1, table => do
    let next ← Checked.get table (i + 1)
    let entry ← rule i next
    let table ← Checked.set table i entry
    fill rule i table

/-- The table with one entry for each position up to `n`. -/
def tabulate (n : ℕ) (value : ℕ → α) : Array α := Array.ofFn fun i : Fin (n + 1) => value i

theorem getElem?_tabulate {n i : ℕ} (value : ℕ → α) (h : i ≤ n) :
    (tabulate n value)[i]? = some (value i) := by
  rw [tabulate, Array.getElem?_ofFn, dif_pos (Nat.lt_succ_of_le h)]

theorem getElem?_tabulate_of_lt {n i : ℕ} (value : ℕ → α) (h : n < i) :
    (tabulate n value)[i]? = none := by
  rw [tabulate, Array.getElem?_ofFn, dif_neg (by omega)]

variable {rule : ℕ → α → Except Fault α} {value : ℕ → α}

/-- Filling keeps what stands behind, and puts the right entries before. -/
theorem fill_spec {n : ℕ} {table : Array α} (hn : table[n]? = some (value n))
    (hrule : ∀ i < n, rule i (value (i + 1)) = .ok (value i)) :
    ∃ filled, fill rule n table = .ok filled ∧
      ∀ i, filled[i]? = if i < n then some (value i) else table[i]? := by
  induction n generalizing table with
  | zero => exact ⟨table, rfl, fun i => rfl⟩
  | succ n ih =>
    have hsize : n < table.size := by
      have := (Array.getElem?_eq_some_iff.mp hn).1
      omega
    have hset : (table.set n (value n))[n]? = some (value n) := Array.getElem?_set_self hsize
    obtain ⟨filled, hfill, entries⟩ := ih hset fun i hi => hrule i (Nat.lt_succ_of_lt hi)
    refine ⟨filled, ?_, fun i => ?_⟩
    · rw [fill, Checked.get_of_getElem? hn, Checked.ok_bind, hrule n (Nat.lt_succ_self n),
        Checked.ok_bind, Checked.set_of_lt hsize, Checked.ok_bind, hfill]
    · rw [entries]
      rcases Nat.lt_trichotomy i n with hlt | rfl | hgt
      · rw [if_pos hlt, if_pos (Nat.lt_succ_of_lt hlt)]
      · rw [if_neg (Nat.lt_irrefl i), if_pos (Nat.lt_succ_self i), hset]
      · rw [if_neg (by omega), if_neg (by omega), Array.getElem?_set_ne hsize (by omega)]

/-- A table whose entry for the end is right is filled with what the rule stands for. -/
theorem fill_replicate {n : ℕ} {last : α} (hlast : value n = last)
    (hrule : ∀ i < n, rule i (value (i + 1)) = .ok (value i)) :
    fill rule n (Array.replicate (n + 1) last) = .ok (tabulate n value) := by
  have hn : (Array.replicate (n + 1) last)[n]? = some (value n) := by
    rw [Array.getElem?_replicate, if_pos (Nat.lt_succ_self n), hlast]
  obtain ⟨filled, hfill, entries⟩ := fill_spec hn hrule
  rw [hfill]
  congr 1
  refine Array.ext_getElem? fun i => ?_
  rw [entries]
  rcases Nat.lt_trichotomy i n with hlt | rfl | hgt
  · rw [if_pos hlt, getElem?_tabulate value hlt.le]
  · rw [if_neg (Nat.lt_irrefl i), hn, getElem?_tabulate value le_rfl]
  · rw [if_neg (by omega), getElem?_tabulate_of_lt value hgt, Array.getElem?_replicate,
      if_neg (by omega)]

end

/-! ### What lies ahead of a token -/

/-- What the tokens from some position on look like, told by positions. -/
structure Prospect where
  /-- Where the run of literals at the position ends; the position itself if there is none. -/
  runEnd : ℕ
  /-- Where the next literal stands, or the end. -/
  nextLiteral : ℕ
  /-- How many separators are left. -/
  separators : ℕ
  /-- Whether every token that is left may take nothing. -/
  skippable : Bool
  deriving DecidableEq

namespace Prospect

/-- The prospect at a token, given the one behind it. -/
def before (next : Prospect) (i : ℕ) (kind : Kind) : Prospect :=
  { runEnd := if kind = .literal then next.runEnd else i
    nextLiteral := if kind = .literal then i else next.nextLiteral
    separators := next.separators + if kind = .separator then 1 else 0
    skippable := next.skippable && kind.isNullable }

/-- An outlook, told by positions. -/
def ofOutlook (i : ℕ) (o : Outlook) : Prospect :=
  ⟨i + o.nextRun.length, i + o.gap, o.separators, o.skippable⟩

theorem before_ofOutlook (i : ℕ) (t : Token) (o : Outlook) :
    (ofOutlook (i + 1) o).before i t.kind = ofOutlook i (o.before t) := by
  cases t with
  | literal c => simp [before, ofOutlook, Outlook.before_literal, Outlook.nextRun, Token.kind,
      Kind.isNullable]; omega
  | _ =>
    simp [before, ofOutlook, Outlook.before, Outlook.nextRun, Token.kind, Kind.isNullable,
      Bool.and_comm]
    try omega

end Prospect

/-- The kinds of tokens, closed by the end. -/
def closed (ts : List Token) : Array Kind := (ts.map Token.kind ++ [Kind.endOfPattern]).toArray

theorem size_closed (ts : List Token) : (closed ts).size = ts.length + 1 := by simp [closed]

theorem getElem?_closed {ts : List Token} {i : ℕ} {t : Token} (h : ts[i]? = some t) :
    (closed ts)[i]? = some t.kind := by
  have hlt : i < ts.length := (List.getElem?_eq_some_iff.mp h).1
  rw [closed, List.getElem?_toArray, List.getElem?_append_left (by simpa using hlt),
    List.getElem?_map, h, Option.map_some]

theorem getElem?_closed_length (ts : List Token) :
    (closed ts)[ts.length]? = some .endOfPattern := by
  simp [closed]

/-- The prospects at all positions of a pattern. -/
def lookahead (kinds : Array Kind) : Except Fault (Array Prospect) := do
  let last ← Checked.sub kinds.size 1
  fill (fun i next => do
      let kind ← Checked.get kinds i
      return next.before i kind)
    last (Array.replicate kinds.size ⟨last, last, 0, true⟩)

/-- The prospect at a position is the outlook on the tokens from there on. -/
def prospect (ts : List Token) (i : ℕ) : Prospect := .ofOutlook i (.ofTokens (ts.drop i))

theorem lookahead_closed (ts : List Token) :
    lookahead (closed ts) = .ok (tabulate ts.length (prospect ts)) := by
  have hsub : Checked.sub (ts.length + 1) 1 = .ok ts.length := Checked.sub_of_le (by omega)
  rw [lookahead, size_closed, hsub, Checked.ok_bind]
  refine fill_replicate ?_ fun i hi => ?_
  · rw [prospect, List.drop_length]
    rfl
  · have hget : ts[i]? = some ts[i] := List.getElem?_eq_getElem hi
    rw [Checked.get_of_getElem? (getElem?_closed hget), Checked.ok_bind, prospect, prospect,
      Prospect.before_ofOutlook, List.drop_eq_getElem_cons hi]
    rfl

/-! ### Separators -/

/-- For every position, and for the end, the first separator from there on; nothing if there is no
    separator to look for. -/
def separatorsAhead (separator : Option Char) (input : Array Char) : Except Fault (Array ℕ) :=
  match separator with
  | none => .ok #[]
  | some c =>
    fill (fun i next => do
        let d ← Checked.get input i
        return if d = c then i else next)
      input.size (Array.replicate (input.size + 1) input.size)

theorem separatorsAhead_some (c : Char) (cs : Array Char) :
    separatorsAhead (some c) cs = .ok (tabulate cs.size (ofChars (some c) cs).segmentStop) := by
  refine fill_replicate (Subject.segmentStop_of_size_le le_rfl) fun i hi => ?_
  rw [Checked.get_of_lt hi, Checked.ok_bind, Subject.segmentStop_of_lt hi,
    Array.getElem?_eq_getElem hi]
  simp only [Option.some_inj]
  rfl

/-- The positions of the separators, from left to right. -/
def separatorPositions (separator : Option Char) (input : Array Char) : Array ℕ :=
  match separator with
  | none => #[]
  | some c => ((List.range input.size).filter fun i => input[i]? = some c).toArray

/-- The separator with `count` separators from itself on, if it is not before the last position
    before `first`. -/
def separatorFromEnd (positions : Array ℕ) (first count : ℕ) : Except Fault (Option ℕ) :=
  if positions.size < count then .ok none
  else do
    let stop ← Checked.get positions (positions.size - count)
    return if first - 1 ≤ stop then some stop else none

theorem separatorFromEnd_positions (c : Char) (cs : Array Char) (first k : ℕ) :
    separatorFromEnd (separatorPositions (some c) cs) first (k + 1) =
      .ok (((ofChars (some c) cs).separatorFromEnd k).filter fun stop => first ≤ stop + 1) := by
  have htable : (ofChars (some c) cs).separatorFromEnd k =
      (separatorPositions (some c) cs).toList.reverse[k]? := by
    simp [ofChars, Subject.separatorTable, separatorPositions]
  rw [htable, separatorFromEnd]
  generalize separatorPositions (some c) cs = positions
  split
  · next hlt =>
    rw [List.getElem?_eq_none (by simp; omega)]
    rfl
  · next hle =>
    have hpos : positions.size - (k + 1) < positions.size := by omega
    have hget : positions.toList.reverse[k]? = some positions[positions.size - (k + 1)] := by
      have hidx : positions.toList.length - 1 - k = positions.size - (k + 1) := by
        rw [Array.length_toList]
        omega
      rw [List.getElem?_reverse (by simp; omega), hidx, Array.getElem?_toList,
        Array.getElem?_eq_getElem hpos]
    rw [Checked.get_of_lt hpos, Checked.ok_bind, hget, Option.filter_some]
    congr 1
    refine if_congr ?_ rfl rfl
    rw [decide_eq_true_eq]
    omega

/-! ### Where a run occurs -/

/-- For every position, and for the end, the first place of a run from there on. -/
def occurrences (input run : Array Char) : Except Fault (Array (Option ℕ)) :=
  fill (fun i next => do
      let rest ← Checked.slice input i input.size
      return if run.toList <+: rest.toList then some i else next)
    input.size (Array.replicate (input.size + 1) none)

/-- The first place of a run from a position on. -/
def place (s : Subject) (run : List Char) (i : ℕ) : Option ℕ :=
  ((s.sites run).onward i).head?.map Span.start

theorem occurrences_toArray (separator : Option Char) (cs : Array Char) (run : List Char) :
    occurrences cs run.toArray = .ok (tabulate cs.size (place (ofChars separator cs) run)) := by
  refine fill_replicate ?_ fun i hi => ?_
  · rw [place, Subject.onward_of_size_le le_rfl]
    rfl
  · have hrest : (cs.extract i cs.size).toList = cs.toList.drop i := by
      rw [Array.toList_extract, List.extract_eq_take_drop]
      exact List.take_of_length_le (by simp)
    rw [Checked.slice_of_le hi.le le_rfl, Checked.ok_bind, hrest, place, place,
      Subject.onward_of_lt hi, List.toList_toArray]
    by_cases h : Subject.occursAt cs run i
    · rw [if_pos h, if_pos (Subject.occursAt_iff.mp h)]
      rfl
    · rw [if_neg h, if_neg (mt Subject.occursAt_iff.mpr h)]
      rfl

/-! ### A pattern and a text in tables -/

/-- A pattern and a text, with the tables that a walk through both reads. -/
structure Layout where
  /-- The characters of the tokens, closed by a NUL. -/
  symbols : Array Char
  /-- The kinds of the tokens, closed by the end. -/
  kinds : Array Kind
  /-- What lies ahead of each token and of the end. -/
  ahead : Array Prospect
  /-- The character that bounds segments, if there is one. -/
  separator : Option Char
  /-- The text. -/
  input : Array Char
  /-- The first separator from each position on; nothing without a separator. -/
  segmentEnds : Array ℕ
  /-- The positions of the separators. -/
  separators : Array ℕ

/-- The tables of places that have been made so far, each where its run begins in the pattern. -/
abbrev Runs := Array (Option (Array (Option ℕ)))

/-- The run of literals that begins at a token. -/
def runAt (ts : List Token) (i : ℕ) : List Char := (Outlook.ofTokens (ts.drop i)).nextRun

/-- Every table that has been made has the places of its run. -/
structure Runs.Sound (s : Subject) (ts : List Token) (runs : Runs) : Prop where
  size : runs.size = ts.length + 1
  table : ∀ i table, runs[i]? = some (some table) → table = tabulate s.size (place s (runAt ts i))

/-- No table has been made. -/
theorem Runs.sound_replicate (s : Subject) (ts : List Token) :
    Runs.Sound s ts (Array.replicate (ts.length + 1) none) := by
  refine ⟨Array.size_replicate, fun i table h => ?_⟩
  rw [Array.getElem?_replicate] at h
  split at h <;> cases h

namespace Layout

/-- Fills the tables. -/
def ofPattern (p : Pattern) (text : String) : Except Fault Layout := do
  let input := text.toList.toArray
  let ahead ← lookahead p.kinds.toArray
  let segmentEnds ← separatorsAhead p.separator input
  return {
    symbols := p.symbols.toArray
    kinds := p.kinds.toArray
    ahead
    separator := p.separator
    input
    segmentEnds
    separators := separatorPositions p.separator input }

/-- What the tables are filled with. -/
def tabled (separator : Option Char) (ts : List Token) (cs : Array Char) : Layout :=
  { symbols := (ts.map Token.symbol ++ ['\x00']).toArray
    kinds := closed ts
    ahead := tabulate ts.length (prospect ts)
    separator
    input := cs
    segmentEnds :=
      if separator.isSome then tabulate cs.size (ofChars separator cs).segmentStop else #[]
    separators := separatorPositions separator cs }

/-- Where the segment of a position ends. -/
def segmentEnd (l : Layout) (i : ℕ) : ℕ := l.segmentEnds[i]?.getD l.input.size

/-- The table of places of a run, made only if it is not known. -/
def placesOf (l : Layout) (run : Array Char) :
    Option (Array (Option ℕ)) → Except Fault (Array (Option ℕ))
  | some table => .ok table
  | none => occurrences l.input run

/-- The first place from `first` on of the run that stands from `start` up to `stop` in the pattern,
    if it ends within a limit. The table of places is made when a run is first looked for. -/
def findRun (l : Layout) (runs : Runs) (start stop first limit : ℕ) :
    Except Fault (Option ℕ × Runs) := do
  let run ← Checked.slice l.symbols start stop
  let known ← Checked.get runs start
  let table ← l.placesOf run known
  let runs ← Checked.set runs start (some table)
  return ((table[first]?.getD none).filter fun site => site + run.size ≤ limit, runs)

/-- No access fails while the tables are filled. -/
theorem ofPattern_eq (p : Pattern) (text : String) :
    ofPattern p text = .ok (tabled p.separator p.tokens text.toList.toArray) := by
  have hahead : lookahead p.kinds.toArray = .ok (tabulate p.tokens.length (prospect p.tokens)) :=
    lookahead_closed p.tokens
  rw [ofPattern, hahead, Checked.ok_bind, tabled]
  cases p.separator with
  | none => rfl
  | some c =>
    rw [separatorsAhead_some, Checked.ok_bind]
    rfl

variable {separator : Option Char} {ts : List Token} {cs : Array Char}

theorem segmentEnd_tabled (i : ℕ) :
    (tabled separator ts cs).segmentEnd i = (ofChars separator cs).segmentStop i := by
  rcases Nat.lt_or_ge cs.size i with hi | hi
  · rw [Subject.segmentStop_of_size_le hi.le, segmentEnd, tabled]
    split
    · rw [getElem?_tabulate_of_lt _ hi]
      rfl
    · rfl
  · cases separator with
    | none => exact (Subject.segmentStop_none hi).symm
    | some c =>
      have hget : (tabled (some c) ts cs).segmentEnds[i]? =
          some ((ofChars (some c) cs).segmentStop i) := getElem?_tabulate _ hi
      rw [segmentEnd, hget, Option.getD_some]

theorem get_ahead {i : ℕ} (hi : i ≤ ts.length) :
    Checked.get (tabled separator ts cs).ahead i = .ok (prospect ts i) :=
  Checked.get_of_getElem? (getElem?_tabulate (prospect ts) hi)

theorem get_kinds {i : ℕ} {t : Token} (h : ts[i]? = some t) :
    Checked.get (tabled separator ts cs).kinds i = .ok t.kind :=
  Checked.get_of_getElem? (getElem?_closed h)

theorem get_kinds_length :
    Checked.get (tabled separator ts cs).kinds ts.length = .ok .endOfPattern :=
  Checked.get_of_getElem? (getElem?_closed_length ts)

theorem get_symbols {i : ℕ} {t : Token} (h : ts[i]? = some t) :
    Checked.get (tabled separator ts cs).symbols i = .ok t.symbol := by
  have hlt : i < ts.length := (List.getElem?_eq_some_iff.mp h).1
  refine Checked.get_of_getElem? ?_
  rw [tabled, List.getElem?_toArray, List.getElem?_append_left (by simpa using hlt),
    List.getElem?_map, h, Option.map_some]

/-- A run is found where it stands in the pattern. -/
theorem slice_symbols {i : ℕ} (hi : i ≤ ts.length) :
    Checked.slice (tabled separator ts cs).symbols i (i + (runAt ts i).length) =
      .ok (runAt ts i).toArray := by
  have hlen := Outlook.length_nextRun_le (ts.drop i)
  rw [List.length_drop] at hlen
  have hsize : (tabled separator ts cs).symbols.size = ts.length + 1 := by simp [tabled]
  have hdrop : (ts.drop i).map Token.symbol =
      runAt ts i ++ ((ts.drop i).drop (runAt ts i).length).map Token.symbol := by
    conv_lhs => rw [← Outlook.nextRun_append_drop (ts.drop i)]
    rw [List.map_append, List.map_map]
    exact congrArg (· ++ _) (List.map_id _)
  rw [Checked.slice_of_le (Nat.le_add_right _ _) (by rw [hsize, runAt]; omega)]
  congr 1
  apply Array.toList_inj.mp
  rw [Array.toList_extract, List.extract_eq_take_drop, Nat.add_sub_cancel_left, tabled,
    List.toList_toArray, List.drop_append_of_le_length (by simpa using hi), ← List.map_drop, hdrop,
    List.append_assoc, List.take_left]

/-- A run is looked for without a fault, and the tables that have been made stay right. -/
theorem findRun_spec {runs : Runs} (hruns : runs.Sound (ofChars separator cs) ts) {start : ℕ}
    (hstart : start ≤ ts.length) (first limit : ℕ) :
    ∃ runs' : Runs, runs'.Sound (ofChars separator cs) ts ∧
      (tabled separator ts cs).findRun runs start (start + (runAt ts start).length) first limit =
        .ok ((place (ofChars separator cs) (runAt ts start) first).filter
          fun site => site + (runAt ts start).length ≤ limit, runs') := by
  have hlt : start < runs.size := by rw [hruns.size]; omega
  have hplace :
      (tabulate cs.size (place (ofChars separator cs) (runAt ts start)))[first]?.getD none =
        place (ofChars separator cs) (runAt ts start) first := by
    rcases Nat.lt_or_ge cs.size first with hf | hf
    · rw [getElem?_tabulate_of_lt _ hf, place, Subject.onward_of_size_le hf.le]
      rfl
    · rw [getElem?_tabulate _ hf]
      rfl
  have hset : Runs.Sound (ofChars separator cs) ts (runs.set start
      (some (tabulate cs.size (place (ofChars separator cs) (runAt ts start)))) hlt) := by
    refine ⟨by rw [Array.size_set, hruns.size], fun i table h => ?_⟩
    by_cases he : start = i
    · subst he
      rw [Array.getElem?_set_self hlt] at h
      exact (Option.some.inj (Option.some.inj h)).symm
    · rw [Array.getElem?_set_ne hlt he] at h
      exact hruns.table i table h
  refine ⟨_, hset, ?_⟩
  rw [findRun, slice_symbols hstart, Checked.ok_bind, Checked.get_of_lt hlt, Checked.ok_bind]
  have hmade : (tabled separator ts cs).placesOf (runAt ts start).toArray runs[start] =
      .ok (tabulate cs.size (place (ofChars separator cs) (runAt ts start))) := by
    cases hk : runs[start] with
    | some table =>
      exact congrArg Except.ok (hruns.table start table (by rw [Array.getElem?_eq_getElem hlt, hk]))
    | none => exact occurrences_toArray separator cs (runAt ts start)
  rw [hmade, Checked.ok_bind, Checked.set_of_lt hlt, Checked.ok_bind, hplace, List.size_toArray]
  rfl

end Layout

end Wildcard
