import Wildcard.Proofs.Cursors

/-! What a search reports, and what spans make of it.

    A search reports takes and undos, and each of them changes a set of positions. Spans that hear
    the same reports stand for that set as long as no take begins before the latest span:

        report       take 0 2      take 3 6        undo 4          take 4 5
        positions    0 1           0 1 3 4 5       0 1 3           0 1 3 4
        spans        [0,2)         [3,6) [0,2)     [3,4) [0,2)     [3,5) [0,2)

    A search never reports such a take, however often it goes back and wherever it ends. So at any
    time its spans are in order, each position can be looked up in them by halving, and what they
    hold of the text are the characters at the positions of the set. -/

namespace Wildcard

/-! ### Looking up by halving -/

/-- The first place from `lo` up to `hi` where a test fails, found by halving. It is meant for
    entries none of which passes behind one that fails. -/
def partitionPoint {α : Type} (test : α → Bool) (xs : Array α) (lo hi : ℕ) (h : hi ≤ xs.size) :
    ℕ :=
  if hlt : lo < hi then
    have hmid : (lo + hi) / 2 < xs.size := by omega
    if test xs[(lo + hi) / 2] then partitionPoint test xs ((lo + hi) / 2 + 1) hi h
    else partitionPoint test xs lo ((lo + hi) / 2) hmid.le
  else lo
termination_by hi - lo

/-- Where just the first so many entries pass, halving finds their number. -/
theorem partitionPoint_eq {α : Type} {test : α → Bool} {xs : Array α} {n : ℕ}
    (split : ∀ (i : ℕ) (hi : i < xs.size), test xs[i] ↔ i < n) {lo hi : ℕ} (h : hi ≤ xs.size)
    (hlo : lo ≤ n) (hhi : n ≤ hi) : partitionPoint test xs lo hi h = n := by
  fun_induction partitionPoint test xs lo hi h with
  | case1 lo hi h hlt hmid pass ih =>
    have : (lo + hi) / 2 < n := (split _ hmid).mp pass
    exact ih this hhi
  | case2 lo hi h hlt hmid fail ih =>
    have : ¬(lo + hi) / 2 < n := mt (split _ hmid).mpr fail
    exact ih hlo (by omega)
  | case3 lo hi h hlt => omega

/-- Entries none of which passes behind one that fails pass as long as they are at the front. -/
theorem passes_iff_lt_length_takeWhile {α : Type} {test : α → Bool} {xs : List α}
    (h : xs.Pairwise fun a b => test b → test a) {i : ℕ} (hi : i < xs.length) :
    test xs[i] ↔ i < (xs.takeWhile test).length := by
  induction xs generalizing i with
  | nil => exact absurd hi (Nat.not_lt_zero i)
  | cons x xs ih =>
    rw [List.pairwise_cons] at h
    by_cases hx : test x
    · rw [List.takeWhile_cons_of_pos hx, List.length_cons]
      cases i with
      | zero => simp [hx]
      | succ i =>
        rw [List.getElem_cons_succ, ih h.2 (Nat.lt_of_succ_lt_succ hi), Nat.succ_lt_succ_iff]
    · rw [List.takeWhile_cons_of_neg hx, List.length_nil]
      refine iff_of_false (fun pass => hx ?_) (Nat.not_lt_zero i)
      cases i with
      | zero => exact pass
      | succ i => exact h.1 _ (List.getElem_mem _) pass

/-- Of such entries, halving finds how many pass at the front. -/
theorem partitionPoint_eq_length_takeWhile {α : Type} {test : α → Bool} {xs : List α}
    (h : xs.Pairwise fun a b => test b → test a) :
    partitionPoint test xs.toArray 0 xs.toArray.size le_rfl = (xs.takeWhile test).length :=
  partitionPoint_eq (fun _ hi => passes_iff_lt_length_takeWhile h hi) le_rfl (Nat.zero_le _)
    (List.takeWhile_prefix test).length_le

namespace Spans

/-- Looks a position up in spans by halving: the last one that starts no later decides. -/
def lookup (s : Spans) (i : ℕ) : Except Fault Bool :=
  let spans := s.latestFirst.reverse.toArray
  let after := partitionPoint (fun span => decide (span.start ≤ i)) spans 0 spans.size le_rfl
  if after = 0 then .ok false
  else do
    let last ← Checked.sub after 1
    let span ← Checked.get spans last
    return i < span.stop

/-- From left to right, spans in order begin further and further to the right. -/
theorem Ordered.pairwise_start {s : Spans} (h : s.Ordered) :
    s.latestFirst.reverse.Pairwise fun a b => a.start < b.start := by
  rw [List.pairwise_reverse]
  refine h.apart.imp_of_mem fun {later earlier} _ hm hlt => ?_
  exact (h.nonempty earlier hm).trans hlt

/-- In spans in order, a position is found by halving without a fault. -/
theorem lookup_of_ordered {s : Spans} (h : s.Ordered) (i : ℕ) : s.lookup i = .ok (s.taken i) := by
  have front : s.latestFirst.reverse.Pairwise fun a b =>
      decide (b.start ≤ i) = true → decide (a.start ≤ i) = true :=
    h.pairwise_start.imp fun {a b} hab => by
      simp only [decide_eq_true_eq]
      omega
  -- The spans that start no later are at the front, and the last of them is looked at.
  rw [← ask_of_ordered h i, lookup, partitionPoint_eq_length_takeWhile front]
  rfl

/-! ### Spans that stand for a set -/

/-- Spans that stand for a set of positions. They are apart from each other, in order and not empty,
    and they hold its members, whether one looks them over, looks one up from the latest or by
    halving, or reads the members off a text. -/
structure StandsFor (s : Spans) (M : Positions) : Prop where
  ordered : s.Ordered
  holds : ∀ p, s.Holds p ↔ M p
  taken : s.taken = M
  lookup : ∀ i, s.lookup i = .ok (M i)
  charsOf : ∀ cs : Array Char, s.charsOf cs = pick M cs.toList
  collect : ∀ l : Layout, (∀ p, M p → p < l.input.size) → l.collect s = .ok (pick M l.input.toList)

/-- Spans in order stand for the positions they have taken. -/
theorem Ordered.standsFor {s : Spans} (h : s.Ordered) : s.StandsFor s.taken where
  ordered := h
  holds _ := (taken_iff h).symm
  taken := rfl
  lookup := lookup_of_ordered h
  charsOf := charsOf_eq_pick h
  collect l within := by rw [l.collect_of_ordered h within, charsOf_eq_pick h]

namespace StandsFor

variable {s : Spans} {M : Positions} {start stop : ℕ}

theorem empty : Spans.empty.StandsFor fun _ => false := ordered_empty.standsFor

/-- A take that the spans can put down adds to the set what is taken. -/
theorem take (h : s.StandsFor M) (admits : s.Admits start stop) :
    (s.take start stop).StandsFor (M.add start stop) := by
  obtain rfl := h.taken
  rw [← taken_take h.ordered admits]
  exact (holds_take h.ordered admits).1.standsFor

/-- Giving back leaves of the set what comes before the bound. -/
theorem undo (h : s.StandsFor M) (bound : ℕ) : (s.undo bound).StandsFor (M.below bound) := by
  obtain rfl := h.taken
  rw [← taken_undo h.ordered]
  exact (holds_undo h.ordered bound).1.standsFor

end StandsFor

end Spans

/-! ### Reports -/

/-- A report that changes what is taken. -/
inductive Report where
  | take (start stop : ℕ)
  | undo (bound : ℕ)
  deriving DecidableEq

namespace Spans

/-- The spans that have heard a report. -/
def hear (s : Spans) : Report → Spans
  | .take start stop => s.take start stop
  | .undo bound => s.undo bound

/-- The spans that have heard some reports from the beginning. -/
def after (reports : List Report) : Spans := reports.foldl hear empty

/-- Whether a report is one that the spans can put down. -/
def AdmitsReport (s : Spans) : Report → Prop
  | .take start stop => s.Admits start stop
  | .undo _ => True

instance (s : Spans) : (r : Report) → Decidable (s.AdmitsReport r)
  | .take start stop => inferInstanceAs (Decidable (s.Admits start stop))
  | .undo _ => inferInstanceAs (Decidable True)

/-- Whether each report is one that the spans can put down when it comes. -/
def AdmitsAll (s : Spans) : List Report → Prop
  | [] => True
  | r :: reports => s.AdmitsReport r ∧ (s.hear r).AdmitsAll reports

instance decidableAdmitsAll :
    (s : Spans) → (reports : List Report) → Decidable (s.AdmitsAll reports)
  | _, [] => inferInstanceAs (Decidable True)
  | s, r :: reports =>
    have := decidableAdmitsAll (s.hear r) reports
    inferInstanceAs (Decidable (s.AdmitsReport r ∧ (s.hear r).AdmitsAll reports))

theorem admitsAll_append {s : Spans} {earlier later : List Report} :
    s.AdmitsAll (earlier ++ later) ↔
      s.AdmitsAll earlier ∧ (earlier.foldl hear s).AdmitsAll later := by
  induction earlier generalizing s with
  | nil => exact (and_iff_right trivial).symm
  | cons r earlier ih =>
    rw [List.cons_append, AdmitsAll, AdmitsAll, ih, and_assoc]
    rfl

theorem AdmitsAll.of_prefix {s : Spans} {earlier reports : List Report} (h : s.AdmitsAll reports)
    (hp : earlier <+: reports) : s.AdmitsAll earlier := by
  obtain ⟨later, rfl⟩ := hp
  exact (admitsAll_append.mp h).1

end Spans

namespace Positions

/-- What a report makes of a set. -/
def hear (M : Positions) : Report → Positions
  | .take start stop => M.add start stop
  | .undo bound => M.below bound

/-- What some reports make of no position at all. -/
def after (reports : List Report) : Positions := reports.foldl hear fun _ => false

end Positions

namespace Spans

/-- One report keeps spans and set in step. -/
theorem StandsFor.hear {s : Spans} {M : Positions} (h : s.StandsFor M) {r : Report}
    (admits : s.AdmitsReport r) : (s.hear r).StandsFor (M.hear r) := by
  cases r with
  | take start stop => exact h.take admits
  | undo bound => exact h.undo bound

/-- So do any number of them. -/
theorem StandsFor.foldl_hear {s : Spans} {M : Positions} (h : s.StandsFor M)
    {reports : List Report} (admits : s.AdmitsAll reports) :
    (reports.foldl Spans.hear s).StandsFor (reports.foldl Positions.hear M) := by
  induction reports generalizing s M with
  | nil => exact h
  | cons r reports ih => exact ih (h.hear admits.1) admits.2

/-- At any time, spans stand for what the reports so far have made of the set. -/
theorem AdmitsAll.standsFor {reports earlier : List Report} (h : empty.AdmitsAll reports)
    (hp : earlier <+: reports) : (after earlier).StandsFor (.after earlier) :=
  StandsFor.empty.foldl_hear (h.of_prefix hp)

example : after [.take 0 2, .take 3 6, .undo 4, .take 4 5] = ⟨[⟨3, 5⟩, ⟨0, 2⟩]⟩ := by decide

end Spans

/-! ### A record with its reports -/

/-- A record with the reports that it has heard. -/
structure Logged (μ : Type) where
  record : μ
  reports : List Report

namespace Logged

instance {μ : Type} [Recorder μ] : Recorder (Logged μ) where
  look m i := { m with record := Recorder.look m.record i }
  take m start stop := ⟨Recorder.take m.record start stop, m.reports ++ [.take start stop]⟩
  undo m bound := ⟨Recorder.undo m.record bound, m.reports ++ [.undo bound]⟩
  taken m i := Recorder.taken m.record i

/-- The logged record is that record. -/
theorem reads_record {μ : Type} [Recorder μ] : Search.Reads (record : Logged μ → μ) :=
  ⟨fun _ _ => rfl, fun _ _ _ => rfl, fun _ _ => rfl, fun _ _ => rfl⟩

/-- Spans are what their reports have made of them, and could put each of these down. -/
structure Faithful (M : Positions) (m : Logged Spans) : Prop where
  record_eq : m.record = .after m.reports
  positions_eq : M = .after m.reports
  admits : Spans.empty.AdmitsAll m.reports

variable {M : Positions} {m : Logged Spans}

theorem Faithful.standsFor (h : Faithful M m) : m.record.StandsFor M := by
  rw [h.record_eq, h.positions_eq]
  exact h.admits.standsFor List.prefix_rfl

/-- One report more. -/
theorem Faithful.hear (h : Faithful M m) {r : Report} (admits : m.record.AdmitsReport r) :
    Faithful (M.hear r) ⟨m.record.hear r, m.reports ++ [r]⟩ where
  record_eq := by rw [Spans.after, List.foldl_concat, ← Spans.after, ← h.record_eq]
  positions_eq := by rw [Positions.after, List.foldl_concat, ← Positions.after, ← h.positions_eq]
  admits := by
    rw [h.record_eq] at admits
    exact Spans.admitsAll_append.mpr ⟨h.admits, admits, trivial⟩

/-- What a search reports can always be put down. -/
theorem tracks_faithful : Recorder.Tracks Faithful := by
  refine Recorder.tracks_of_taken (fun _ h => h) ?_ ?_ fun h => h.standsFor.taken
  · intro M m start stop h hM
    have stands := h.standsFor
    exact h.hear (r := .take start stop)
      (Spans.admits_of_taken_le stands.ordered (fun p hp => hM p (stands.taken ▸ hp)) stop)
  · intro M m bound h
    exact h.hear (r := .undo bound) trivial

end Logged

/-! ### Wherever a search ends -/

theorem Verdict.record_map {μ ν : Type} (f : μ → ν) (v : Verdict μ) :
    (v.map f).record = f v.record := by
  cases v <;> rfl

namespace Search

open Subject (ofChars)

variable {μ : Type} {R : Positions → μ → Prop} {cs : Array Char}

/-- A record that stands for positions of a text. -/
def Tracked (R : Positions → μ → Prop) (cs : Array Char) (m : μ) : Prop :=
  ∃ M, R M m ∧ ∀ p, M p → p < cs.size

theorem record_giveUp (found : Bool) (m : μ) : (giveUp found m).record = m := by
  cases found <;> rfl

variable [Recorder μ] (hR : Recorder.Tracks R)

include hR

/-- A star that tries the occurrences of a run in turn gives back before each what is taken from its
    start on, so whatever the last one has left is right for the next. -/
theorem tracked_trySites {limit i width : ℕ} (pos : 0 < width) {go : ℕ → μ → Verdict μ}
    (hgo : ∀ j ≤ limit, ∀ M, (∀ p, M p → p < j) → ∀ m, R M m → Tracked R cs (go j m).record)
    {ps : List ℕ} (onward : ∀ p ∈ ps, i ≤ p) {found : Bool} {m : μ} (hm : Tracked R cs m)
    (back : ∃ M, R M (if found then Recorder.undo m i else m) ∧ ∀ p, M p → p < i) :
    Tracked R cs (trySites limit i go found (ps.map fun p => ⟨p, p + width⟩) m).record := by
  induction ps generalizing found m with
  | nil => exact (record_giveUp found m).symm ▸ hm
  | cons p ps ih =>
    obtain ⟨hp, onward⟩ := List.forall_mem_cons.mp onward
    obtain ⟨M, hback, hM⟩ := back
    rw [List.map_cons, trySites]
    split
    · next hle =>
      have went := hgo (p + width) hle (M.add i p)
        (fun q hq => by
          rcases Positions.add_apply.mp hq with hq | hq
          · have := hM q hq
            omega
          · omega)
        _ (hR.take p hback fun q hq => (hM q hq).le)
      dsimp only
      revert went
      generalize go (p + width) _ = v
      intro went
      cases v with
      | matched m' => exact went
      | exhausted m' => exact went
      | failed m' =>
        -- All that is left from `i` on goes with the next undo, and nothing else is asked of it.
        obtain ⟨N, hN, hsize⟩ := went
        exact ih onward ⟨N, hN, hsize⟩
          ⟨N.below i, hR.undo i hN, fun q hq => (Positions.below_apply.mp hq).2⟩
    · exact (record_giveUp found m).symm ▸ hm

/-- Whether a search succeeds, fails or gives up, its record stands for positions of the text. -/
theorem tracked_run {separator : Option Char} (before : Option Kind) {ts : List Token} {i : ℕ}
    (hi : i ≤ cs.size) {M : Positions} {m : μ} (hm : R M m)
    (hM : Passed (ofChars separator cs) ts i M) :
    Tracked R cs
      (run (ofChars separator cs) (Leg.chain (ofChars separator cs) before ts).1 0 i m).record := by
  have here : ∀ {m'}, R M m' → Tracked R cs m' := fun h => ⟨M, h, hM.lt_size hi⟩
  rcases hi.eq_or_lt with rfl | hlt
  · have hs : (ofChars separator cs).size ≤ cs.size := le_rfl
    rw [run_of_size_le hs]
    split <;> exact here hm
  · match ts with
    | [] =>
      rw [run_nil hlt]
      exact here (hR.look i hm)
    | t :: ts =>
      have hc : (ofChars separator cs).chars[i]? = some cs[i] := Array.getElem?_eq_getElem hlt
      have go : ∀ {q : Stride} {m' : μ}, Recorded R (ofChars separator cs) before ts M q m' →
          Tracked R cs (run (ofChars separator cs)
            (Leg.chain (ofChars separator cs) (some t.kind) ts).1 0 q.stop m').record :=
        fun hq => tracked_run (some t.kind) hq.le_size hq.holds hq.passed
      rw [run_cons hc]
      cases hv : (Leg.facing (ofChars separator cs) before t ts).move (ofChars separator cs) i cs[i]
        with
      | stuck => exact here (hR.look i hm)
      | yield => exact go (recorded_yield hR hm hv hi hM)
      | pass => exact go (recorded_pass hR hm hv hlt hM)
      | take => exact go (recorded_take hR hm hv hlt hM)
      | trail => exact go (recorded_trail hR hm hv hlt hM)
      | jump stop => exact go (recorded_jump hR hm hv hi hM)
      | seek limit =>
        dsimp only
        rw [Subject.onward_eq]
        refine tracked_trySites hR (List.length_pos_of_ne_nil (Leg.of_move_seek hv).1)
          (fun j hj N hN m' hm' => ?_)
          (fun p hp => (List.mem_range'_1.mp (List.mem_filter.mp hp).1).1) (here (hR.look i hm))
          ⟨M, hR.look i hm, hM.lt_of_run (run_ne_nil_of_seek hv)⟩
        exact tracked_run (some .literal) (hj.trans (seek_le_size hv hi)) hm' (passed_of_lt hN)
termination_by ts.length
decreasing_by all_goals (simp only [List.length_cons, List.length_drop]; omega)

end Search

namespace Pattern

/-- Whatever a search records, its record stands in the end for positions of the text. -/
theorem tracked_search {μ : Type} [Recorder μ] {R : Positions → μ → Prop}
    (hR : Recorder.Tracks R) (p : Pattern) (text : String) {m : μ} (hm : R (fun _ => false) m) :
    Search.Tracked R text.toList.toArray
      (search p.separator p.tokens text.toList.toArray m).record :=
  Search.tracked_run hR none (Nat.zero_le _) hm fun _ h => by cases h

/-- Whether a search succeeds or not, each of its reports is one that the spans can put down when it
    comes, so at any time they stand for what the reports so far have made of the set, and in the
    end for positions of the text, of which the mask has the characters. Writing the reports down
    does not change the search. And whoever sends spans reports that they can put down, these stand
    at any time for what the reports have made of the set. -/
theorem spans_stand_for_reports (p : Pattern) (text : String) :
    let cs := text.toList.toArray
    let logged := search p.separator p.tokens cs (Logged.mk Spans.empty [])
    let reports := logged.record.reports
    (logged.map Logged.record = search p.separator p.tokens cs Spans.empty ∧
      logged.record.record = Spans.after reports) ∧
    (Spans.empty.AdmitsAll reports ∧
      ∀ earlier, earlier <+: reports → (Spans.after earlier).StandsFor (Positions.after earlier)) ∧
    ((∀ i, Positions.after reports i → i < cs.size) ∧
      p.mask? text = if p.isMatch text then
        some (String.ofList (pick (Positions.after reports) text.toList)) else none) ∧
    ∀ sent, Spans.empty.AdmitsAll sent →
      ∀ earlier, earlier <+: sent → (Spans.after earlier).StandsFor (Positions.after earlier) := by
  intro cs logged reports
  have hmap : logged.map Logged.record = search p.separator p.tokens cs Spans.empty :=
    Search.map_run Logged.reads_record _ _ 0 0 _
  obtain ⟨M, faithful, within⟩ : Search.Tracked Logged.Faithful cs logged.record :=
    tracked_search Logged.tracks_faithful p text ⟨rfl, rfl, trivial⟩
  have stands := faithful.standsFor
  rw [faithful.positions_eq] at stands within
  have hmask : p.mask? text = if p.isMatch text then
      some (String.ofList (pick (Positions.after reports) text.toList)) else none := by
    rw [mask?_eq_search, ← hmap, Verdict.record_map, stands.charsOf]
  exact ⟨⟨hmap, faithful.record_eq⟩,
    ⟨faithful.admits, fun earlier hp => faithful.admits.standsFor hp⟩, ⟨within, hmask⟩,
    fun sent admits earlier hp => admits.standsFor hp⟩

/-- The star gives back what it has taken and takes more, and the separator comes to the span before
    it; among other reports a take within the latest span changes nothing. -/
theorem spans_stand_for_reports_of_retried :
    let p := compile "*a?c*/" (some '/')
    let logged := search p.separator p.tokens "xabacd/".toList.toArray (Logged.mk Spans.empty [])
    (logged.record.reports =
        [.take 0 1, .take 2 3, .undo 0, .take 0 3, .take 5 6, .take 6 7] ∧
      logged.record.record = ⟨[⟨5, 7⟩, ⟨0, 3⟩]⟩ ∧
      logged.record.record.StandsFor (Positions.after logged.record.reports)) ∧
    Spans.empty.AdmitsAll [.take 0 2, .take 2 3, .take 1 2, .undo 1] ∧
      Spans.StandsFor ⟨[⟨0, 3⟩]⟩ (Positions.after [.take 0 2, .take 2 3, .take 1 2]) ∧
      Spans.StandsFor ⟨[⟨0, 1⟩]⟩ (Positions.after [.take 0 2, .take 2 3, .take 1 2, .undo 1]) := by
  intro p logged
  obtain ⟨⟨-, hrecord⟩, ⟨-, stands⟩, -, others⟩ := spans_stand_for_reports p "xabacd/"
  have admits : Spans.empty.AdmitsAll [.take 0 2, .take 2 3, .take 1 2, .undo 1] := by decide
  refine ⟨⟨by decide +kernel, by decide +kernel, ?_⟩, admits, ?_, ?_⟩
  · rw [hrecord]
    exact stands _ List.prefix_rfl
  · exact others _ admits [.take 0 2, .take 2 3, .take 1 2] (List.prefix_append _ [Report.undo 1])
  · exact others _ admits _ List.prefix_rfl

end Pattern

end Wildcard
