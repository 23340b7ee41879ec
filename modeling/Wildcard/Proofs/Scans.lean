import Wildcard.Proofs.Lookups

/-! What the tables of a walk say is what a scan says.

    A walk asks four things: what lies ahead of a token, where a segment ends, where the separator
    stands that has some number of others behind it, and where a run is found next. Each answer can
    be had without a table, by a scan of the pattern or the text that stops at the first position
    that will do. The tables of runs are made as a walk goes on, one for the start of each run, and
    where the run ends is not noted. That does no harm, since a run is only asked for to its end:

        kinds    a  b  *  c  (end)          from 0    a, b, * ──▶ the run ends at 2
        text     x  a  b  a  b              from 2    "ab" at 2? at 3? ──▶ found at 3 -/

namespace Wildcard

open Search (kindsOf)
open Subject (ofChars)

/-! ### The scans -/

/-- What lies ahead of a position, by a scan of the kinds from there on. -/
def Prospect.scan (kinds : List Kind) (i : ℕ) : Prospect :=
  { runEnd := i + (kinds.drop i).findIdx fun k => k ≠ .literal
    nextLiteral := i + (kinds.drop i).findIdx fun k => k = .literal ∨ k = .endOfPattern
    separators := (kinds.drop i).count .separator
    skippable := (kinds.drop i).all Kind.isNullable }

namespace Layout

/-- The first separator from a position on, or the end of the text. -/
def scanSegmentEnd (l : Layout) (i : ℕ) : ℕ :=
  ((List.range' i (l.input.size - i)).find? fun p => l.input[p]? = l.separator).getD l.input.size

/-- The separator with `count` separators from itself on, if it is not before the last position
    before `first`. -/
def scanSeparatorFromEnd (l : Layout) (first count : ℕ) : Option ℕ :=
  ((List.range l.input.size).find? fun p => l.input[p]? = l.separator ∧
    (l.input.toList.drop p).countP (fun d => l.separator = some d) = count).filter
      fun p => first ≤ p + 1

/-- The first place from `first` on where the run that stands from `start` up to `stop` in the
    pattern occurs and ends within a limit. -/
def scanRun (l : Layout) (start stop first limit : ℕ) : Option ℕ :=
  let run := (l.symbols.extract start stop).toList
  (List.range' first (l.input.size - first)).find? fun p =>
    run <+: l.input.toList.drop p ∧ p + run.length ≤ limit

/-- The tables of places that there may be when some runs have been looked for, each to its end. -/
inductive Asked (l : Layout) : Runs → Prop
  | nothing : l.Asked (Array.replicate l.kinds.size none)
  | run {runs runs' : Runs} {start first limit : ℕ} {found : Option ℕ} (before : l.Asked runs)
    (inside : start < l.kinds.size)
    (asked : l.findRun runs start (Prospect.scan l.kinds.toList start).runEnd first limit =
      .ok (found, runs')) : l.Asked runs'

/-- Every look-up says what a scan says, whatever runs have been looked for before. -/
structure Scans (l : Layout) : Prop where
  ahead : ∀ i < l.kinds.size, Checked.get l.ahead i = .ok (.scan l.kinds.toList i)
  segmentEnd : ∀ i, l.segmentEnd i = l.scanSegmentEnd i
  separatorFromEnd : ∀ first count, 0 < count →
    Wildcard.separatorFromEnd l.separators first count = .ok (l.scanSeparatorFromEnd first count)
  findRun : ∀ runs, l.Asked runs → ∀ start < l.kinds.size, ∀ first limit, ∃ runs',
    l.findRun runs start (Prospect.scan l.kinds.toList start).runEnd first limit =
      .ok (l.scanRun start (Prospect.scan l.kinds.toList start).runEnd first limit, runs')

end Layout

/-! ### What lies ahead -/

namespace Outlook

theorem length_nextRun_eq_findIdx (ts : List Token) :
    (ofTokens ts).nextRun.length = (kindsOf ts).findIdx fun k => k ≠ .literal := by
  induction ts with
  | nil => rfl
  | cons t ts ih =>
    rw [Search.kindsOf_cons, List.findIdx_cons]
    cases h : t.literal? with
    | none =>
      rw [ofTokens_cons, nextRun_before h]
      simp [Token.literal?_eq_none_iff.mp h]
    | some c =>
      obtain rfl := Token.literal?_eq_some.mp h
      rw [nextRun_literal, List.length_cons, ih]
      simp [Token.kind]

theorem gap_eq_findIdx (ts : List Token) :
    (ofTokens ts).gap = (kindsOf ts).findIdx fun k => k = .literal ∨ k = .endOfPattern := by
  induction ts with
  | nil => rfl
  | cons t ts ih =>
    rw [Search.kindsOf_cons, List.findIdx_cons]
    cases h : t.literal? with
    | none =>
      rw [ofTokens_cons, gap_before h, ih]
      simp [Token.literal?_eq_none_iff.mp h, t.kind_ne_endOfPattern]
    | some c =>
      obtain rfl := Token.literal?_eq_some.mp h
      rfl

theorem separators_eq_count (ts : List Token) :
    (ofTokens ts).separators = (kindsOf ts).count .separator := by
  induction ts with
  | nil => rfl
  | cons t ts ih =>
    rw [Search.kindsOf_cons, List.count_cons, ← ih]
    cases t <;> rfl

theorem skippable_eq_all (ts : List Token) :
    (ofTokens ts).skippable = (kindsOf ts).all Kind.isNullable := by
  rw [skippable_ofTokens, kindsOf, List.all_append, List.all_map]
  exact (Bool.and_true _).symm

end Outlook

/-- The prospect at a token, or at the end, is what a scan of the kinds finds. -/
theorem prospect_eq_scan {ts : List Token} {i : ℕ} (hi : i ≤ ts.length) :
    prospect ts i = .scan (kindsOf ts) i := by
  have hdrop : (kindsOf ts).drop i = kindsOf (ts.drop i) := by
    rw [kindsOf, List.drop_append_of_le_length (by simpa using hi), ← List.map_drop]
    rfl
  rw [prospect, Prospect.ofOutlook, Prospect.scan, hdrop, Outlook.length_nextRun_eq_findIdx,
    Outlook.gap_eq_findIdx, Outlook.separators_eq_count, Outlook.skippable_eq_all]

/-! ### Separators -/

/-- A scan finds the one position that will do. -/
theorem find?_eq_of_unique {P : ℕ → Bool} {ps : List ℕ} {found : Option ℕ}
    (h : ∀ p, P p ↔ found = some p) (hmem : ∀ p, found = some p → p ∈ ps) :
    ps.find? P = found := by
  cases hfind : ps.find? P with
  | some q => exact ((h q).mp (List.find?_some hfind)).symm
  | none =>
    cases found with
    | none => rfl
    | some p => exact absurd ((h p).mpr rfl) (List.find?_eq_none.mp hfind p (hmem p rfl))

namespace Subject

variable {separator : Option Char} {cs : Array Char}

/-- The end of a segment is the first separator, if there is one. -/
theorem segmentStop_eq_find? (i : ℕ) :
    (ofChars separator cs).segmentStop i =
      ((List.range' i (cs.size - i)).find? fun p => cs[p]? = separator).getD cs.size := by
  induction hn : cs.size - i generalizing i with
  | zero => rw [segmentStop_of_size_le (by omega)]; rfl
  | succ n ih =>
    rw [segmentStop_of_lt (by omega), List.range'_succ, List.find?_cons, ih (i + 1) (by omega)]
    by_cases h : cs[i]? = separator <;> simp [h]

/-- The table has the separator with just so many from itself on. -/
theorem separatorFromEnd_eq_find? (c : Char) (cs : Array Char) (k : ℕ) :
    (ofChars (some c) cs).separatorFromEnd k =
      (List.range cs.size).find? fun p => cs[p]? = some c ∧
        (cs.toList.drop p).countP (fun d => some c = some d) = k + 1 := by
  refine (find?_eq_of_unique (fun p => ?_) fun p hp => ?_).symm
  · have hcount : (cs.toList.drop p).countP (fun d => some c = some d) = separatorsFrom c cs p :=
      List.countP_congr fun d _ => by
        rw [decide_eq_true_eq, beq_iff_eq, Option.some_inj]
        exact eq_comm
    rw [decide_eq_true_eq, separatorFromEnd_eq_some_iff, hcount]
    refine and_congr_right fun hc => ?_
    rw [separatorsFrom_of_getElem? hc, if_pos rfl, Nat.succ_inj]
  · exact List.mem_range.mpr (separatorFromEnd_spec hp).1

end Subject

/-! ### Runs -/

/-- Of the positions in some order, the first that will do is right if it is within a limit. -/
theorem find?_filter_eq_find? {ps : List ℕ} (sorted : ps.Pairwise (· < ·)) (P : ℕ → Bool)
    (width limit : ℕ) :
    (ps.find? P).filter (fun p => p + width ≤ limit) =
      ps.find? fun p => P p && decide (p + width ≤ limit) := by
  induction ps with
  | nil => rfl
  | cons p ps ih =>
    obtain ⟨hp, hps⟩ := List.pairwise_cons.mp sorted
    rw [List.find?_cons, List.find?_cons]
    cases hP : P p with
    | false => exact ih hps
    | true =>
      by_cases hle : p + width ≤ limit
      · simp [hle]
      · -- what comes later ends later
        have hnone : ps.find? (fun q => P q && decide (q + width ≤ limit)) = none := by
          refine List.find?_eq_none.mpr fun q hq h => ?_
          have hle' := of_decide_eq_true (Bool.and_eq_true_iff.mp h).2
          have := hp q hq
          omega
        rw [hnone, Option.filter_some, if_neg (by simpa using hle), decide_eq_false hle]
        rfl

/-- The first place of a run, if it ends within a limit, is the first place that does. -/
theorem place_filter_eq_find? (separator : Option Char) (cs : Array Char) (run : List Char)
    (first limit : ℕ) :
    (place (ofChars separator cs) run first).filter (fun p => p + run.length ≤ limit) =
      (List.range' first (cs.size - first)).find? fun p =>
        run <+: cs.toList.drop p ∧ p + run.length ≤ limit := by
  have hplace : place (ofChars separator cs) run first =
      (List.range' first (cs.size - first)).find? (Subject.occursAt cs run) := by
    rw [place, Subject.onward_eq, List.head?_map, List.head?_filter, Option.map_map]
    exact Option.map_id'
  rw [hplace, find?_filter_eq_find? List.pairwise_lt_range']
  congr 1
  funext p
  rw [Bool.eq_iff_iff, Bool.and_eq_true, Subject.occursAt_iff, decide_eq_true_eq, decide_eq_true_eq]

namespace Layout

variable {separator : Option Char} {ts : List Token} {cs : Array Char}

/-- A run ends where a scan of the kinds says. -/
theorem runEnd_scan {start : ℕ} (hstart : start ≤ ts.length) :
    (Prospect.scan (kindsOf ts) start).runEnd = start + (runAt ts start).length := by
  rw [← prospect_eq_scan hstart]
  rfl

/-- A run is found where the scan finds it, whatever right tables have been made. -/
theorem findRun_tabled {runs : Runs} (hruns : runs.Sound (ofChars separator cs) ts)
    {start stop : ℕ} (hstart : start ≤ ts.length) (hstop : stop = start + (runAt ts start).length)
    (first limit : ℕ) :
    ∃ runs' : Runs, runs'.Sound (ofChars separator cs) ts ∧
      (tabled separator ts cs).findRun runs start stop first limit =
        .ok ((tabled separator ts cs).scanRun start stop first limit, runs') := by
  subst hstop
  have hslice := @slice_symbols separator ts cs start hstart
  have hlen : start + (runAt ts start).length ≤ (tabled separator ts cs).symbols.size := by
    have := Outlook.length_nextRun_le (ts.drop start)
    rw [List.length_drop] at this
    simp only [tabled, runAt, List.size_toArray, List.length_append, List.length_map,
      List.length_singleton]
    omega
  rw [Checked.slice_of_le (Nat.le_add_right _ _) hlen] at hslice
  obtain ⟨runs', hruns', hfind⟩ := findRun_spec hruns hstart first limit
  refine ⟨runs', hruns', ?_⟩
  rw [hfind, place_filter_eq_find?, scanRun, Except.ok.inj hslice]
  rfl

theorem separatorFromEnd_tabled (first : ℕ) {count : ℕ} (hcount : 0 < count) :
    Wildcard.separatorFromEnd (tabled separator ts cs).separators first count =
      .ok ((tabled separator ts cs).scanSeparatorFromEnd first count) := by
  obtain ⟨k, rfl⟩ : ∃ k, count = k + 1 := ⟨count - 1, by omega⟩
  cases separator with
  | some c =>
    refine (separatorFromEnd_positions c cs first k).trans ?_
    rw [Subject.separatorFromEnd_eq_find?]
    rfl
  | none =>
    have unmet : ∀ p ∈ List.range cs.size, ¬decide (cs[p]? = none ∧
        (cs.toList.drop p).countP (fun d => (none : Option Char) = some d) = k + 1) := by simp
    have hnone : (tabled none ts cs).scanSeparatorFromEnd first (k + 1) = none :=
      congrArg (Option.filter _) (List.find?_eq_none.mpr unmet)
    rw [hnone]
    exact if_pos (Nat.succ_pos k)

/-- However runs have been looked for, the tables made are right. -/
theorem Asked.sound {runs : Runs} (h : (tabled separator ts cs).Asked runs) :
    runs.Sound (ofChars separator cs) ts := by
  have hsize : (tabled separator ts cs).kinds.size = ts.length + 1 := size_closed ts
  induction h with
  | nothing =>
    rw [hsize]
    exact Runs.sound_replicate _ ts
  | @run runs runs' start first limit found _ inside asked ih =>
    have hstart : start ≤ ts.length := by omega
    obtain ⟨made, hmade, hfind⟩ := findRun_tabled ih hstart (runEnd_scan hstart) first limit
    obtain ⟨-, rfl⟩ := Prod.mk.inj (Except.ok.inj (asked.symm.trans hfind))
    exact hmade

/-- What the tables are filled with, and what is filled in as a walk goes on, is what scans find. -/
theorem scans_tabled : (tabled separator ts cs).Scans := by
  have hsize : (tabled separator ts cs).kinds.size = ts.length + 1 := size_closed ts
  refine ⟨fun i hi => ?_, fun i => ?_, fun first count => separatorFromEnd_tabled first, ?_⟩
  · have hle : i ≤ ts.length := by omega
    rw [get_ahead hle, prospect_eq_scan hle]
    rfl
  · exact (segmentEnd_tabled i).trans (Subject.segmentStop_eq_find? i)
  · intro runs hruns start inside first limit
    have hstart : start ≤ ts.length := by omega
    obtain ⟨runs', -, hfind⟩ := findRun_tabled hruns.sound hstart (runEnd_scan hstart) first limit
    exact ⟨runs', hfind⟩

end Layout

end Wildcard
