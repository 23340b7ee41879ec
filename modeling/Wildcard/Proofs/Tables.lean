import Mathlib.Data.List.Basic
import Mathlib.Data.List.Nodup
import Wildcard.Outlook
import Wildcard.Subject
import Wildcard.Proofs.Compiling

/-! The tables of a subject and the outlook on tokens say what a scan would say.

    Every table is filled from the right end, each entry from the ones behind it, so an entry is
    read off one equation: where the text stands for itself, and where the answer is the one of the
    next position. The scans follow by induction towards the end of the text.

        entry i  =  if the text says so at i then (something about i) else entry (i + 1) -/

namespace Wildcard

namespace Subject

/-! ### Filling a table from the right -/

section

variable {α : Type} (g : ℕ → List α → α) (base : List α)

/-- Behind the entries of some positions stands what was there before. -/
theorem drop_length_table (is : List ℕ) :
    (is.foldr (fun i later => g i later :: later) base).drop is.length = base := by
  induction is with
  | nil => rfl
  | cons i is ih => rw [List.foldr_cons, List.length_cons, List.drop_succ_cons, ih]

/-- The first positions, and the others. -/
theorem range_split {i n : ℕ} (h : i ≤ n) :
    List.range n = List.range i ++ List.range' i (n - i) := by
  have := @List.range'_append_1 0 i (n - i)
  rw [Nat.zero_add, Nat.add_sub_cancel' h] at this
  rw [List.range_eq_range', List.range_eq_range', this]

/-- Behind the entries of the first positions stands the table of the others. -/
theorem drop_table {i n : ℕ} (h : i ≤ n) :
    ((List.range n).foldr (fun i later => g i later :: later) base).drop i =
      (List.range' i (n - i)).foldr (fun i later => g i later :: later) base := by
  have hd := fun rest => drop_length_table g rest (List.range i)
  rw [List.length_range] at hd
  rw [range_split h, List.foldr_append, hd]

/-- One entry: what the rule makes of the entries behind it. -/
theorem getElem?_table {i n : ℕ} (h : i < n) :
    ((List.range n).foldr (fun i later => g i later :: later) base)[i]? =
      some (g i (((List.range n).foldr (fun i later => g i later :: later) base).drop (i + 1))) := by
  have hs : n - i = n - (i + 1) + 1 := by omega
  rw [← List.head?_drop, drop_table g base h.le, drop_table g base h, hs, List.range'_succ,
    List.foldr_cons, List.head?_cons]

/-- From the end of the positions on, the table is what it was filled from. -/
theorem getElem?_table_of_le {i n : ℕ} (h : n ≤ i) :
    ((List.range n).foldr (fun i later => g i later :: later) base)[i]? = base[i - n]? := by
  have := drop_length_table g base (List.range n)
  rw [List.length_range] at this
  rw [← this, List.getElem?_drop, this, Nat.add_sub_cancel' h]

end

/-! ### Where a segment ends -/

variable {separator : Option Char} {cs : Array Char}

@[simp]
theorem chars_ofChars : (ofChars separator cs).chars = cs := rfl

@[simp]
theorem separator_ofChars : (ofChars separator cs).separator = separator := rfl

@[simp]
theorem size_ofChars : (ofChars separator cs).size = cs.size := rfl

theorem segmentStop_of_size_le {i : ℕ} (h : cs.size ≤ i) :
    (ofChars separator cs).segmentStop i = cs.size := by
  simp only [ofChars, stopTable, List.getElem?_toArray]
  rw [getElem?_table_of_le _ _ h]
  cases i - cs.size <;> rfl

/-- A segment ends at a separator, or where it ends for the next position. -/
theorem segmentStop_of_lt {i : ℕ} (h : i < cs.size) :
    (ofChars separator cs).segmentStop i =
      if cs[i]? = separator then i else (ofChars separator cs).segmentStop (i + 1) := by
  simp only [ofChars, stopTable, List.getElem?_toArray]
  rw [getElem?_table _ _ h, Option.getD_some, List.headD_eq_head?_getD, List.head?_drop]

/-- The segment at one position ends at another one. -/
structure EndsSegment (separator : Option Char) (cs : Array Char) (i stop : ℕ) : Prop where
  le : i ≤ stop
  le_size : stop ≤ cs.size
  ne_separator : ∀ k, i ≤ k → k < stop → cs[k]? ≠ separator
  eq_separator : stop < cs.size → cs[stop]? = separator

/-- A segment has one end only. -/
theorem EndsSegment.unique {i stop stop' : ℕ} (h : EndsSegment separator cs i stop)
    (h' : EndsSegment separator cs i stop') : stop = stop' := by
  rcases Nat.lt_trichotomy stop stop' with hlt | heq | hlt
  · exact absurd (h.eq_separator (by have := h'.le_size; omega)) (h'.ne_separator _ h.le hlt)
  · exact heq
  · exact absurd (h'.eq_separator (by have := h.le_size; omega)) (h.ne_separator _ h'.le hlt)

variable (separator) in
/-- The table has the end of the segment. -/
theorem endsSegment {i : ℕ} (h : i ≤ cs.size) :
    EndsSegment separator cs i ((ofChars separator cs).segmentStop i) := by
  induction hn : cs.size - i generalizing i with
  | zero =>
    rw [segmentStop_of_size_le (by omega)]
    exact ⟨h, le_rfl, fun k _ _ => by omega, fun hlt => absurd hlt (by omega)⟩
  | succ n ih =>
    have ih := ih (i := i + 1) (by omega) (by omega)
    rw [segmentStop_of_lt (by omega)]
    split
    · next hs => exact ⟨le_rfl, h, fun k _ _ => by omega, fun _ => hs⟩
    · next hs =>
      refine ⟨by have := ih.le; omega, ih.le_size, fun k hk hlt => ?_, ih.eq_separator⟩
      rcases hk.eq_or_lt with rfl | hk
      · exact hs
      · exact ih.ne_separator k hk hlt

/-- All positions of a segment, its end included, have one end. -/
theorem segmentStop_eq {i j : ℕ} (hij : i ≤ j) (hj : j ≤ (ofChars separator cs).segmentStop i) :
    (ofChars separator cs).segmentStop j = (ofChars separator cs).segmentStop i := by
  rcases Nat.lt_or_ge cs.size i with hi | hi
  · rw [segmentStop_of_size_le hi.le, segmentStop_of_size_le (by omega)]
  · have h := endsSegment separator hi
    refine (endsSegment separator (hj.trans h.le_size)).unique ⟨hj, h.le_size, fun k hk => ?_, h.eq_separator⟩
    exact h.ne_separator k (hij.trans hk)

theorem segmentStop_mono {i j : ℕ} (hij : i ≤ j) (hj : j ≤ cs.size) :
    (ofChars separator cs).segmentStop i ≤ (ofChars separator cs).segmentStop j := by
  rcases le_total j ((ofChars separator cs).segmentStop i) with h | h
  · exact (segmentStop_eq hij h).ge
  · exact h.trans (endsSegment separator hj).le

/-! ### Separators counted from the end -/

theorem separatorFromEnd_spec {k p : ℕ} (h : (ofChars separator cs).separatorFromEnd k = some p) :
    p < cs.size ∧ cs[p]? = separator := by
  have hm : p ∈ (List.range cs.size).filter fun i => cs[i]? = separator := by
    simp only [ofChars, separatorTable, List.getElem?_toArray] at h
    exact List.mem_reverse.mp (List.mem_of_getElem? h)
  simpa using hm

/-- How many separators stand at a position or behind it. -/
def separatorsFrom (c : Char) (cs : Array Char) (i : ℕ) : ℕ := (cs.toList.drop i).count c

section

variable {c : Char}

theorem separatorsFrom_of_getElem? {i : ℕ} {d : Char} (h : cs[i]? = some d) :
    separatorsFrom c cs i = separatorsFrom c cs (i + 1) + if d = c then 1 else 0 := by
  obtain ⟨hi, rfl⟩ := Array.getElem?_eq_some_iff.mp h
  rw [separatorsFrom, List.drop_eq_getElem_cons (Array.length_toList ▸ hi), List.count_cons,
    Array.getElem_toList, separatorsFrom]
  simp only [beq_iff_eq]

theorem separatorsFrom_eq_succ {i : ℕ} (h : cs[i]? = some c) :
    separatorsFrom c cs i = separatorsFrom c cs (i + 1) + 1 := by
  rw [separatorsFrom_of_getElem? h, if_pos rfl]

theorem separatorsFrom_of_size_le {i : ℕ} (h : cs.size ≤ i) : separatorsFrom c cs i = 0 := by
  rw [separatorsFrom, List.drop_eq_nil_of_le h, List.count_nil]

theorem separatorsFrom_anti {i j : ℕ} (h : i ≤ j) :
    separatorsFrom c cs j ≤ separatorsFrom c cs i :=
  (List.drop_suffix_drop_left _ h).sublist.count_le c

/-- From a position on there are as many separators as from the end of its segment on. -/
theorem separatorsFrom_segmentStop {i : ℕ} (hi : i ≤ cs.size) :
    separatorsFrom c cs ((ofChars (some c) cs).segmentStop i) = separatorsFrom c cs i := by
  induction hn : cs.size - i generalizing i with
  | zero =>
    obtain rfl : i = cs.size := by omega
    rw [segmentStop_of_size_le le_rfl]
  | succ n ih =>
    have hlt : i < cs.size := by omega
    rw [segmentStop_of_lt hlt]
    split
    · rfl
    · next hne =>
      have hc : cs[i]? = some cs[i] := Array.getElem?_eq_getElem hlt
      have hd : cs[i] ≠ c := fun he => hne (by rw [hc, he])
      rw [ih (i := i + 1) hlt (by omega), separatorsFrom_of_getElem? hc, if_neg hd]
      rfl

/-- Of the separators from some place on, there is one with any smaller number of others behind. -/
theorem exists_separator_of_lt {i k : ℕ} (h : k < separatorsFrom c cs i) :
    ∃ p, i ≤ p ∧ cs[p]? = some c ∧ separatorsFrom c cs (p + 1) = k := by
  induction hn : cs.size - i generalizing i with
  | zero =>
    rw [separatorsFrom_of_size_le (by omega)] at h
    omega
  | succ n ih =>
    have hc : cs[i]? = some cs[i] := Array.getElem?_eq_getElem (by omega)
    by_cases hk : k < separatorsFrom c cs (i + 1)
    · obtain ⟨p, hip, hp⟩ := ih hk (by omega)
      exact ⟨p, by omega, hp⟩
    · rw [separatorsFrom_of_getElem? hc] at h
      split at h
      · next he => exact ⟨i, le_rfl, by rw [hc, he], by omega⟩
      · omega

/-- There are as many positions of separators from some place on as there are separators. -/
theorem length_filter_range' {i n : ℕ} (h : i + n = cs.size) :
    ((List.range' i n).filter fun p => cs[p]? = some c).length = separatorsFrom c cs i := by
  induction n generalizing i with
  | zero =>
    rw [separatorsFrom_of_size_le (by omega)]
    rfl
  | succ n ih =>
    have hc : cs[i]? = some cs[i] := Array.getElem?_eq_getElem (by omega)
    rw [List.range'_succ, List.filter_cons, separatorsFrom_of_getElem? hc, ← ih (by omega), hc]
    by_cases hi : cs[i] = c <;> simp [hi]

theorem separatorFromEnd_eq (k : ℕ) : (ofChars (some c) cs).separatorFromEnd k =
    ((List.range cs.size).filter fun p => cs[p]? = some c).reverse[k]? := by
  simp only [ofChars, separatorTable, List.getElem?_toArray]

theorem separatorFromEnd_separatorsFrom {p : ℕ} (h : cs[p]? = some c) :
    (ofChars (some c) cs).separatorFromEnd (separatorsFrom c cs (p + 1)) = some p := by
  have hlt : p < cs.size := (Array.getElem?_eq_some_iff.mp h).1
  have hn : cs.size - p = cs.size - (p + 1) + 1 := by omega
  rw [separatorFromEnd_eq, range_split hlt.le, hn, List.range'_succ, List.filter_append,
    List.filter_cons_of_pos (by simpa using h), List.reverse_append, List.reverse_cons,
    List.append_assoc, ← length_filter_range' (i := p + 1) (n := cs.size - (p + 1)) (by omega),
    ← List.length_reverse, List.getElem?_append_right le_rfl, Nat.sub_self]
  rfl

/-- A separator is found by the number of those behind it. -/
theorem separatorFromEnd_eq_some_iff {k p : ℕ} :
    (ofChars (some c) cs).separatorFromEnd k = some p ↔
      cs[p]? = some c ∧ separatorsFrom c cs (p + 1) = k := by
  constructor
  · intro h
    have hp := (separatorFromEnd_spec h).2
    have heq := h.trans (separatorFromEnd_separatorsFrom hp).symm
    rw [separatorFromEnd_eq] at h
    rw [separatorFromEnd_eq, separatorFromEnd_eq] at heq
    have nodup : ((List.range cs.size).filter fun p => cs[p]? = some c).reverse.Nodup :=
      List.nodup_reverse.mpr (List.nodup_range.filter _)
    obtain ⟨hk, -⟩ := List.getElem?_eq_some_iff.mp h
    exact ⟨hp, ((List.getElem?_inj hk nodup).mp heq).symm⟩
  · rintro ⟨hp, rfl⟩
    exact separatorFromEnd_separatorsFrom hp

end

/-! ### Where a run occurs -/

/-- A run occurs where the text goes on with it. -/
theorem occursAt_iff {run : List Char} {i : ℕ} : occursAt cs run i ↔ run <+: cs.toList.drop i := by
  induction run generalizing i with
  | nil => simp [occursAt]
  | cons c run ih =>
    rw [occursAt, Bool.and_eq_true, decide_eq_true_eq, ih, ← Array.getElem?_toList]
    rcases Nat.lt_or_ge i cs.toList.length with hi | hi
    · rw [List.drop_eq_getElem_cons hi, List.cons_prefix_cons, List.getElem?_eq_getElem hi,
        Option.some_inj, eq_comm]
    · rw [List.drop_eq_nil_of_le hi, List.getElem?_eq_none hi]
      simp

theorem le_size_of_occursAt {run : List Char} {i : ℕ} (hr : run ≠ []) (h : occursAt cs run i) :
    i + run.length ≤ cs.size := by
  have hle := (occursAt_iff.mp h).length_le
  have := List.length_pos_of_ne_nil hr
  rw [List.length_drop, @Array.length_toList _ cs] at hle
  omega

theorem onward_of_size_le {run : List Char} {i : ℕ} (h : cs.size ≤ i) :
    ((ofChars separator cs).sites run).onward i = [] := by
  simp only [ofChars, tabledSites, siteTable, Thunk.get, List.getElem?_toArray]
  rw [getElem?_table_of_le _ _ h]
  cases i - cs.size <;> rfl

/-- A run occurs from some position on where it occurs at that position or from the next one on. -/
theorem onward_of_lt {run : List Char} {i : ℕ} (h : i < cs.size) :
    ((ofChars separator cs).sites run).onward i =
      if occursAt cs run i then
        ⟨i, i + run.length⟩ :: ((ofChars separator cs).sites run).onward (i + 1)
      else ((ofChars separator cs).sites run).onward (i + 1) := by
  simp only [ofChars, tabledSites, siteTable, Thunk.get, List.getElem?_toArray]
  rw [getElem?_table _ _ h, Option.getD_some, List.headD_eq_head?_getD, List.head?_drop]

/-- The table has the positions of a run in their order. -/
theorem onward_eq {run : List Char} (i : ℕ) :
    ((ofChars separator cs).sites run).onward i =
      ((List.range' i (cs.size - i)).filter (occursAt cs run)).map fun p => ⟨p, p + run.length⟩ := by
  induction hn : cs.size - i generalizing i with
  | zero => rw [onward_of_size_le (by omega), List.range'_zero, List.filter_nil, List.map_nil]
  | succ n ih =>
    rw [onward_of_lt (by omega), ih (i + 1) (by omega), List.range'_succ, List.filter_cons]
    split <;> rfl

end Subject

namespace Outlook

/-- The run of literals that stands directly ahead, if any does. -/
def nextRun (o : Outlook) : List Char := if o.gap = 0 then o.run else []

theorem isAtLiteral_iff {o : Outlook} : o.isAtLiteral ↔ o.nextRun ≠ [] := by
  rw [isAtLiteral, nextRun]
  split <;> simp [*]

/-- A literal that stands directly ahead is the next token. -/
theorem isAtLiteral_and_head? {ts : List Token} {c : Char} :
    (ofTokens ts).isAtLiteral ∧ (ofTokens ts).run.head? = some c ↔
      ts.head? = some (.literal c) := by
  cases ts with
  | nil => simp [isAtLiteral, atEnd, ofTokens]
  | cons t ts => cases t <;> simp [isAtLiteral, before]

theorem before_literal (c : Char) (o : Outlook) :
    before (.literal c) o = { o with gap := 0, run := c :: o.nextRun, skippable := false } := rfl

section

variable {t : Token} (h : t.literal? = none) (o : Outlook)

include h

theorem gap_before : (before t o).gap = o.gap + 1 := by
  cases t <;> simp_all [before, Token.literal?]

theorem run_before : (before t o).run = o.run := by
  cases t <;> simp_all [before, Token.literal?]

theorem nextRun_before : (before t o).nextRun = [] := by
  rw [nextRun, gap_before h, if_neg (Nat.succ_ne_zero _)]

end

theorem nextRun_literal (c : Char) (ts : List Token) :
    (ofTokens (.literal c :: ts)).nextRun = c :: (ofTokens ts).nextRun := rfl

/-- A run that stands directly ahead is the next run. -/
theorem run_eq_nextRun {o : Outlook} (h : o.nextRun ≠ []) : o.gap = 0 ∧ o.run = o.nextRun := by
  rw [nextRun] at h ⊢
  split at h
  · next hg => exact ⟨hg, (if_pos hg).symm⟩
  · exact absurd rfl h

/-- The tokens begin with the run that stands directly ahead. -/
theorem nextRun_append_drop (ts : List Token) :
    (ofTokens ts).nextRun.map .literal ++ ts.drop (ofTokens ts).nextRun.length = ts := by
  induction ts with
  | nil => rfl
  | cons t ts ih =>
    cases h : t.literal? with
    | none => rw [ofTokens_cons, nextRun_before h]; rfl
    | some c =>
      obtain rfl := Token.literal?_eq_some.mp h
      rw [nextRun_literal, List.map_cons, List.length_cons, List.drop_succ_cons, List.cons_append,
        ih]

theorem length_nextRun_le (ts : List Token) : (ofTokens ts).nextRun.length ≤ ts.length := by
  have := congrArg List.length (nextRun_append_drop ts)
  rw [List.length_append, List.length_map] at this
  omega

/-- What does not begin with a literal does not prolong a run. -/
theorem nextRun_append {ts : List Token} (h : (ofTokens ts).nextRun = []) (us : List Token) :
    (ofTokens (us ++ ts)).nextRun = (ofTokens us).nextRun := by
  induction us with
  | nil => exact h
  | cons u us ih =>
    rw [List.cons_append]
    cases hu : u.literal? with
    | none => rw [ofTokens_cons, ofTokens_cons, nextRun_before hu, nextRun_before hu]
    | some c =>
      obtain rfl := Token.literal?_eq_some.mp hu
      rw [nextRun_literal, nextRun_literal, ih]

theorem separators_before {t : Token} (h : ∀ c, t ≠ .separator c) (o : Outlook) :
    (before t o).separators = o.separators := by
  cases t <;> simp_all [before]

/-- The tokens that are left may be left over just when each of them may. -/
theorem skippable_ofTokens (ts : List Token) :
    (ofTokens ts).skippable = ts.all fun t => t.kind.isNullable := by
  induction ts with
  | nil => rfl
  | cons t ts ih => cases t <;> simp [before, ih, Token.kind, Kind.isNullable]

/-- Behind the gap stands the run, and then the rest. -/
theorem drop_gap (ts : List Token) :
    ts.drop (ofTokens ts).gap = (ofTokens ts).run.map .literal ++ ts.drop (ofTokens ts).reach := by
  induction ts with
  | nil => rfl
  | cons t ts ih =>
    rw [ofTokens_cons, reach]
    cases h : t.literal? with
    | none =>
      rw [gap_before h, run_before h, Nat.add_right_comm, List.drop_succ_cons, List.drop_succ_cons,
        ih, reach]
    | some c =>
      obtain rfl := Token.literal?_eq_some.mp h
      rw [before_literal, nextRun]
      split
      · next hg => simpa [reach, hg] using ih
      · simp

/-- Up to the end of the run there is the gap, and then the run. -/
theorem take_reach (ts : List Token) :
    ts.take (ofTokens ts).reach =
      ts.take (ofTokens ts).gap ++ (ofTokens ts).run.map Token.literal := by
  rw [reach, List.take_add, drop_gap, List.take_left' (List.length_map _)]

/-- If there is a run, it ends before the tokens do. -/
theorem reach_le {ts : List Token} (h : (ofTokens ts).run ≠ []) :
    (ofTokens ts).reach ≤ ts.length := by
  have hd := congrArg List.length (drop_gap ts)
  rw [List.length_drop, List.length_append, List.length_map] at hd
  have := List.length_pos_of_ne_nil h
  rw [reach]
  omega

/-- No literal stands in the gap. -/
theorem literal?_of_mem_gap {ts : List Token} {t : Token} (h : t ∈ ts.take (ofTokens ts).gap) :
    t.literal? = none := by
  induction ts with
  | nil => simp at h
  | cons u ts ih =>
    rw [ofTokens_cons] at h
    cases hu : u.literal? with
    | none =>
      rw [gap_before hu, List.take_succ_cons, List.mem_cons] at h
      rcases h with rfl | h
      · exact hu
      · exact ih h
    | some c =>
      obtain rfl := Token.literal?_eq_some.mp hu
      rw [before_literal, List.take_zero] at h
      cases h

end Outlook

end Wildcard
