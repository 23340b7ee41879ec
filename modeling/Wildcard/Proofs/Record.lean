import Wildcard.Proofs.Positions
import Wildcard.Proofs.Route

/-! What a search leaves in its record.

    A search that succeeds may have tried and given up any number of positions before. None of that
    is left in the record: it holds what the strides of the successful way leave when they are
    marked one after the other, and a record that stands for a set of positions in the beginning
    stands for one in the end.

        record    m ──take, undo, take …──▶ m'      the search
                  │                         │
        set       M ──stride, stride …────▶ M'      its route -/

namespace Wildcard

/-- Every report of a search keeps the relation between a set of positions and a record. -/
structure Recorder.Tracks {μ : Type} [Recorder μ] (R : Positions → μ → Prop) : Prop where
  look : ∀ {M m} i, R M m → R M (Recorder.look m i)
  take : ∀ {M m start} stop, R M m → (∀ p, M p → p ≤ start) →
    R (M.add start stop) (Recorder.take m start stop)
  undo : ∀ {M m} bound, R M m → R (M.below bound) (Recorder.undo m bound)
  trail : ∀ {M m i}, R M m → (∀ p, M p → p ≤ i) →
    R (if 0 < i ∧ M (i - 1) then M.add i (i + 1) else M)
      (if 0 < i ∧ Recorder.taken m (i - 1) then Recorder.take m i (i + 1) else m)

/-- Whatever the record, its reports keep the relation that always holds. -/
theorem Recorder.tracks_true {μ : Type} [Recorder μ] :
    Recorder.Tracks fun (_ : Positions) (_ : μ) => True :=
  ⟨fun _ _ => trivial, fun _ _ _ => trivial, fun _ _ => trivial, fun _ _ => trivial⟩

/-- A record that says itself what it has taken need not be looked at behind a star. -/
theorem Recorder.tracks_of_taken {μ : Type} [Recorder μ] {R : Positions → μ → Prop}
    (look : ∀ {M m} i, R M m → R M (Recorder.look m i))
    (take : ∀ {M m start} stop, R M m → (∀ p, M p → p ≤ start) →
      R (M.add start stop) (Recorder.take m start stop))
    (undo : ∀ {M m} bound, R M m → R (M.below bound) (Recorder.undo m bound))
    (taken : ∀ {M m}, R M m → Recorder.taken m = M) : Recorder.Tracks R where
  look := look
  take := take
  undo := undo
  trail := by
    intro M m i hm hM
    rw [taken hm]
    by_cases hc : 0 < i ∧ M (i - 1)
    · rw [if_pos hc, if_pos hc]
      exact take _ hm hM
    · rw [if_neg hc, if_neg hc]
      exact hm

/-- Spans in order stand for the positions they have taken. -/
theorem Spans.tracks : Recorder.Tracks fun M (s : Spans) => s.Ordered ∧ s.taken = M := by
  refine Recorder.tracks_of_taken (fun _ h => h) ?_ ?_ fun h => h.2
  · rintro _ s start stop ⟨ho, rfl⟩ hs
    have admits := admits_of_taken_le ho hs stop
    exact ⟨(holds_take ho admits).1, taken_take ho admits⟩
  · rintro _ s bound ⟨ho, rfl⟩
    exact ⟨(holds_undo ho bound).1, taken_undo ho bound⟩

/-! ### The marks of strides -/

/-- What a stride adds to a set of positions: a wildcard what it stood for, a separator behind a
    star itself, if the position before it is in the set. -/
def Stride.mark (before : Option Kind) (q : Stride) (M : Positions) : Positions :=
  if q.token.isWildcard then M.add q.start q.stop
  else if q.token.kind = .separator ∧ before.any Kind.isStar then
    if 0 < q.start ∧ M (q.start - 1) then M.add q.start q.stop else M
  else M

/-- Marks strides one after the other. -/
def replay : Option Kind → List Stride → Positions → Positions
  | _, [], M => M
  | before, q :: path, M => replay (some q.token.kind) path (q.mark before M)

theorem Stride.mark_of_isWildcard (before : Option Kind) {q : Stride} (h : q.token.isWildcard)
    (M : Positions) : q.mark before M = M.add q.start q.stop := if_pos h

theorem mark_idle (before : Option Kind) (i : ℕ) (t : Token) (M : Positions) :
    (Stride.idle i t).mark before M = M := by
  simp only [Stride.mark, Stride.idle, Positions.add_of_le le_rfl]
  split <;> simp

theorem replay_idle (before : Option Kind) (i : ℕ) (us : List Token) (M : Positions) :
    replay before (us.map (.idle i)) M = M := by
  induction us generalizing before with
  | nil => rfl
  | cons u us ih => rw [List.map_cons, replay, mark_idle, ih]

theorem replay_append (before : Option Kind) (qs path : List Stride) (M : Positions) :
    replay before (qs ++ path) M =
      replay ((qs.getLast?.map fun q => q.token.kind).or before) path (replay before qs M) := by
  induction qs generalizing before M with
  | nil => rfl
  | cons q qs ih =>
    rw [List.cons_append, replay, ih, replay, Search.last_cons]

theorem replay_spell (before : Option Kind) (i : ℕ) (run : List Char) (M : Positions) :
    replay before (Stride.spell i run) M = M := by
  induction run generalizing before i with
  | nil => rfl
  | cons c run ih => exact ih _ _

theorem getLast?_spell (i : ℕ) {run : List Char} (h : run ≠ []) :
    (Stride.spell i run).getLast?.map (fun q => q.token.kind) = some .literal := by
  induction run generalizing i with
  | nil => exact absurd rfl h
  | cons c run ih =>
    cases run with
    | nil => rfl
    | cons d run => exact ih (i + 1) (by simp)

/-- Between a star and the tokens behind the run it has sought, nothing is marked. -/
theorem replay_sought (before : Option Kind) (p : ℕ) (us : List Token) {run : List Char}
    (h : run ≠ []) (path : List Stride) (M : Positions) :
    replay before (us.map (.idle p) ++ (Stride.spell p run ++ path)) M =
      replay (some .literal) path M := by
  rw [replay_append, replay_idle, replay_append, replay_spell, getLast?_spell p h]
  rfl

namespace Search

open Subject (ofChars)

/-! ### Where a search may still mark -/

/-- No token from here on reaches back before a position. Only a double star behind the last run
    reaches back at all, and only onto one separator. -/
def Floor (s : Subject) (ts : List Token) (i floor : ℕ) : Prop :=
  floor ≤ i ∧ ((Outlook.ofTokens ts).run = [] → ∀ k j, (Outlook.ofTokens ts).separators = k + 1 →
    s.separatorFromEnd k = some j → i ≤ j + 1 → floor ≤ j)

/-- Nothing beyond the present position has been marked. Once a double star has gone back, the
    position itself may have been, and it is the separator that star has gone back to. -/
def Passed (s : Subject) (ts : List Token) (i : ℕ) (M : Positions) : Prop :=
  ∀ p, M p → p < i ∨ p = i ∧ (Outlook.ofTokens ts).run = [] ∧
    ∃ k, (Outlook.ofTokens ts).separators = k + 1 ∧ s.separatorFromEnd k = some i

section

variable {s : Subject} {t : Token} {ts : List Token} {i floor : ℕ} {M : Positions}

/-- The run that is ahead of a wildcard, and how many separators are wanted there, are the same
    behind it. -/
theorem outlook_wildcard (ht : t.isWildcard) :
    (Outlook.ofTokens (t :: ts)).run = (Outlook.ofTokens ts).run ∧
      (Outlook.ofTokens (t :: ts)).separators = (Outlook.ofTokens ts).separators := by
  have hl : t.literal? = none := by cases t <;> first | rfl | cases ht
  have hs : ∀ d, t ≠ .separator d := by rintro d rfl; cases ht
  exact ⟨Outlook.run_before hl _, Outlook.separators_before hs _⟩

theorem floor_of_lt (h : floor < i) : Floor s ts i floor :=
  ⟨h.le, fun _ _ _ _ _ hi => by omega⟩

/-- A wildcard that goes on leaves the floor where it was. -/
theorem Floor.onward (h : Floor s (t :: ts) i floor) (ht : t.isWildcard) {stop : ℕ}
    (le : i ≤ stop) : Floor s ts stop floor := by
  obtain ⟨hr, hs⟩ := @outlook_wildcard t ts ht
  rw [Floor, hr, hs] at h
  exact ⟨h.1.trans le, fun hrun k j hk hat hj => h.2 hrun k j hk hat (le.trans hj)⟩

/-- The separator that a double star goes back onto is not below the floor. -/
theorem Floor.back {stop k : ℕ} (h : Floor s (t :: ts) (stop + 1) floor) (ht : t.isWildcard)
    (run : (Outlook.ofTokens ts).run = []) (wanted : (Outlook.ofTokens ts).separators = k + 1)
    (hat : s.separatorFromEnd k = some stop) : Floor s ts stop floor := by
  obtain ⟨hr, hs⟩ := @outlook_wildcard t ts ht
  rw [Floor, hr, hs] at h
  have hstop := h.2 run k stop wanted hat le_rfl
  refine ⟨hstop, fun _ k' j hk' hat' _ => ?_⟩
  obtain rfl : k = k' := by omega
  rw [hat] at hat'
  rwa [← Option.some.inj hat']

theorem Passed.le (h : Passed s ts i M) : ∀ p, M p → p ≤ i := fun p hp => by
  rcases h p hp with hlt | ⟨rfl, -⟩
  · exact hlt.le
  · exact le_rfl

theorem passed_of_lt {j : ℕ} (h : ∀ p, M p → p < j) : Passed s ts j M := fun p hp => Or.inl (h p hp)

/-- As long as a run is ahead, no double star has gone back. -/
theorem Passed.lt_of_run (h : Passed s ts i M) (hr : (Outlook.ofTokens ts).run ≠ []) :
    ∀ p, M p → p < i := fun p hp => (h p hp).resolve_right fun back => hr back.2.1

/-- A star that seeks a run has one ahead. -/
theorem run_ne_nil_of_seek {before : Option Kind} {c : Char} {limit : ℕ}
    (h : (Leg.facing s before t ts).move s i c = .seek limit) :
    (Outlook.ofTokens (t :: ts)).run ≠ [] := by
  rw [(outlook_wildcard (Token.isWildcard_of_isStar (Leg.isStar_of_move (Or.inr h)))).1]
  exact (Leg.of_move_seek h).1

end

/-! ### The search and its route -/

/-- A search has ended like its route, and its record fits: what a success leaves is what the
    strides mark, what a failure leaves differs only where a star further left may undo it. -/
inductive Follows {μ : Type} (R : Positions → μ → Prop) (s : Subject) (before : Option Kind)
    (ts : List Token) (i : ℕ) (M : Positions) : Verdict μ → Outcome → Prop
  | matched {m : μ} {path : List Stride} (h : R (replay before path M) m) :
    Follows R s before ts i M (.matched m) (.matched path)
  | failed {m : μ} {N : Positions} (h : R N m)
    (floor : ∀ f, Floor s ts i f → ∀ p < f, N p = M p) :
    Follows R s before ts i M (.failed m) .failed
  | exhausted {m : μ} : Follows R s before ts i M (.exhausted m) .exhausted

section

variable {μ : Type} {R : Positions → μ → Prop} {s : Subject} {before : Option Kind} {t : Token}
  {ts : List Token} {i : ℕ} {M : Positions}

/-- A verdict has one of the three ends that the outcome has. -/
theorem Follows.isMatched_eq {v : Verdict μ} {o : Outcome} (h : Follows R s before ts i M v o) :
    v.isMatched = o.isMatched := by
  cases h <;> rfl

/-- One more stride in front. -/
theorem Follows.prepend {q : Stride} {us : List Token} {j : ℕ} {v : Verdict μ} {o : Outcome}
    (h : Follows R s (some q.token.kind) us j (q.mark before M) v o)
    (floor : ∀ f, Floor s ts i f → Floor s us j f ∧ ∀ p < f, q.mark before M p = M p) :
    Follows R s before ts i M v (o.prepend [q]) := by
  cases h with
  | matched h => exact .matched h
  | failed h hf =>
    refine .failed h fun f hfl p hp => ?_
    rw [hf f (floor f hfl).1 p hp, (floor f hfl).2 p hp]
  | exhausted => exact .exhausted

/-- A star in front, and the run that it has sought. -/
theorem Follows.sought (ht : t.kind.isStar) {p : ℕ} (us : List Token) {run : List Char}
    (hr : run ≠ []) (hip : i ≤ p) {vs : List Token} {v : Verdict μ} {o : Outcome}
    (h : Follows R s (some .literal) vs (p + run.length) (M.add i p) v o) :
    Follows R s before (t :: ts) i M v
      (o.prepend (⟨t, i, p⟩ :: (us.map (.idle p) ++ Stride.spell p run))) := by
  cases h with
  | @matched m path h =>
    refine .matched ?_
    have hmark : Stride.mark before ⟨t, i, p⟩ M = M.add i p :=
      Stride.mark_of_isWildcard before (Token.isWildcard_of_isStar ht) M
    rw [List.cons_append, List.append_assoc, replay, replay_sought _ _ _ hr, hmark]
    exact h
  | failed h hf =>
    refine .failed h fun f hfl q hq => ?_
    have := List.length_pos_of_ne_nil hr
    have hfi := hfl.1
    rw [hf f (floor_of_lt (by omega)) q hq, Bool.eq_iff_iff, Positions.add_apply]
    exact or_iff_left (by omega)
  | exhausted => exact .exhausted

end

/-! ### Both go the same way -/

section

variable {μ : Type} [Recorder μ]

/-- Passing legs over leads to those behind them. -/
theorem run_append (s : Subject) (before : Option Kind) (us ts : List Token) (i : ℕ) (m : μ) :
    run s (Leg.chain s before (us ++ ts)).1 us.length i m =
      run s (Leg.chain s ((us.getLast?.map Token.kind).or before) ts).1 0 i m := by
  induction us generalizing before with
  | nil => rfl
  | cons u us ih =>
    rw [List.cons_append, List.length_cons, Leg.chain_cons, run, ih, last_cons]

theorem run_reach (s : Subject) (before : Option Kind) {ts : List Token} (i : ℕ) (m : μ)
    (h : (Outlook.ofTokens ts).run ≠ []) :
    run s (Leg.chain s before ts).1 (Outlook.ofTokens ts).reach i m =
      run s (Leg.chain s (some .literal) (ts.drop (Outlook.ofTokens ts).reach)).1 0 i m := by
  have hw := run_append s before (ts.take (Outlook.ofTokens ts).reach)
    (ts.drop (Outlook.ofTokens ts).reach) i m
  rw [List.take_append_drop, List.length_take, Nat.min_eq_left (Outlook.reach_le h),
    Outlook.take_reach, List.getLast?_append, List.getLast?_map] at hw
  cases hr : (Outlook.ofTokens ts).run.getLast? with
  | none => exact absurd (List.getLast?_eq_none_iff.mp hr) h
  | some c => rw [hw, hr]; rfl

/-- What a token does decides how the search goes on. -/
theorem run_cons {s : Subject} {i : ℕ} {c : Char} (hc : s.chars[i]? = some c)
    (before : Option Kind) (t : Token) (ts : List Token) (m : μ) :
    run s (Leg.chain s before (t :: ts)).1 0 i m =
      match (Leg.facing s before t ts).move s i c with
      | .stuck => .failed (Recorder.look m i)
      | .yield => run s (Leg.chain s (some t.kind) ts).1 0 i (Recorder.look m i)
      | .pass => run s (Leg.chain s (some t.kind) ts).1 0 (i + 1) (Recorder.look m i)
      | .take =>
        run s (Leg.chain s (some t.kind) ts).1 0 (i + 1)
          (Recorder.take (Recorder.look m i) i (i + 1))
      | .trail =>
        run s (Leg.chain s (some t.kind) ts).1 0 (i + 1)
          (if 0 < i ∧ Recorder.taken (Recorder.look m i) (i - 1) then
            Recorder.take (Recorder.look m i) i (i + 1) else Recorder.look m i)
      | .jump stop =>
        run s (Leg.chain s (some t.kind) ts).1 0 stop (Recorder.take (Recorder.look m i) i stop)
      | .seek limit =>
        trySites limit i
          (run s (Leg.chain s (some .literal) (ts.drop (Outlook.ofTokens ts).reach)).1 0) false
          ((s.sites (Outlook.ofTokens ts).run).onward i) (Recorder.look m i) := by
  rw [Leg.chain_cons, run, hc]
  cases hm : (Leg.facing s before t ts).move s i c with
  | seek limit =>
    simp only [hm]
    have hr := (Leg.of_move_seek hm).1
    congr 1
    funext stop m'
    exact run_reach s _ _ m' hr
  | _ => simp only [hm]

theorem run_of_size_le {s : Subject} {i : ℕ} (hi : s.size ≤ i) (before : Option Kind)
    (ts : List Token) (m : μ) :
    run s (Leg.chain s before ts).1 0 i m =
      if ts.all fun t => t.kind.isNullable then .matched m else .failed m := by
  cases ts with
  | nil => exact if_neg (Nat.not_lt.mpr hi)
  | cons t ts =>
    have hc : s.chars[i]? = none := Array.getElem?_eq_none hi
    rw [Leg.chain_cons, run, hc]
    simp only [Leg.isSkippable, Leg.facing, Outlook.skippable_ofTokens, List.all_cons]
    rfl

theorem run_nil {s : Subject} {i : ℕ} (hi : i < s.size) (before : Option Kind) (m : μ) :
    run s (Leg.chain s before []).1 0 i m = .failed (Recorder.look m i) := by
  rw [Leg.chain, run, if_pos hi]

variable {R : Positions → μ → Prop} {s : Subject} {before : Option Kind} {ts : List Token} {i : ℕ}
  {M : Positions}

/-- A star that tries the occurrences of a run in turn undoes each before it tries the next. -/
theorem follows_trySites (hR : Recorder.Tracks R) (hM : ∀ p, M p → p < i)
    (hi : Floor s ts i i) {limit width : ℕ} {go : ℕ → μ → Verdict μ} {go' : ℕ → Outcome}
    {ps : List ℕ} (sorted : ps.Pairwise (· < ·))
    (hgo : ∀ p ∈ ps, p + width ≤ limit → ∀ m, R (M.add i p) m →
      Follows R s before ts i M (go (p + width) m) (go' p))
    {found : Bool} {m : μ} {N : Positions} (hm : R N m) (hN : ∀ p < i, N p = M p)
    (fresh : found = false → N = M) :
    Follows R s before ts i M
      (trySites limit i go found (ps.map fun p => ⟨p, p + width⟩) m)
      (.firstOf go' found (ps.filter fun p => decide (p + width ≤ limit))) := by
  induction ps generalizing found m N with
  | nil =>
    cases found with
    | true => exact .exhausted
    | false => exact .failed hm fun f _ p _ => by rw [fresh rfl]
  | cons p ps ih =>
    rw [List.pairwise_cons] at sorted
    rw [List.map_cons, trySites, List.filter_cons]
    by_cases hp : p + width ≤ limit
    · have undone : R M (if found then Recorder.undo m i else m) := by
        cases found with
        | false => rw [← fresh rfl]; exact hm
        | true => exact Positions.below_eq hM hN ▸ hR.undo i hm
      have hstep := hgo p List.mem_cons_self hp _
        (hR.take p undone fun q hq => (hM q hq).le)
      simp only [if_pos hp, decide_eq_true hp, if_true, Outcome.firstOf]
      revert hstep
      generalize go (p + width) _ = v
      generalize go' p = o
      intro hstep
      cases hstep with
      | matched h => exact .matched h
      | exhausted => exact .exhausted
      | failed h hf =>
        exact ih sorted.2 (fun q hq => hgo q (List.mem_cons_of_mem _ hq)) h (hf i hi)
          (fun hfalse => by cases hfalse)
    · have hnone : ps.filter (fun p => decide (p + width ≤ limit)) = [] := by
        rw [List.filter_eq_nil_iff]
        intro q hq
        have := sorted.1 q hq
        rw [decide_eq_true_eq]
        omega
      simp only [if_neg hp, decide_eq_false hp, hnone]
      cases found with
      | true => exact .exhausted
      | false => exact .failed hm fun f _ p _ => by rw [fresh rfl]

end

section

variable {separator : Option Char} {cs : Array Char} {before : Option Kind} {t : Token}
  {ts : List Token} {i stop : ℕ} {c : Char} {M : Positions}

/-- A jump passes what it takes, or goes back to a separator that is not yet passed again. -/
theorem passed_of_jump
    (h : (Leg.facing (ofChars separator cs) before t ts).move (ofChars separator cs) i c =
      .jump stop) (hi : i ≤ cs.size) (hM : Passed (ofChars separator cs) (t :: ts) i M) :
    Passed (ofChars separator cs) ts stop (M.add i stop) := by
  obtain ⟨hr, hs⟩ := @outlook_wildcard t ts
    (Token.isWildcard_of_isStar (Leg.isStar_of_move (Or.inl h)))
  rw [Passed, hr, hs] at hM
  intro p hp
  rw [Positions.add_apply] at hp
  rcases jump_cases h hi with hle | ⟨rfl, hrun, k, hk, hat⟩
  · rcases hp with hp | hp
    · rcases hM p hp with hlt | ⟨rfl, hx⟩
      · exact Or.inl (by omega)
      · rcases hle.eq_or_lt with rfl | hlt
        · exact Or.inr ⟨rfl, hx⟩
        · exact Or.inl hlt
    · exact Or.inl hp.2
  · rcases hp with hp | hp
    · rcases hM p hp with hlt | ⟨rfl, -, k', hk', hat'⟩
      · rcases Nat.lt_succ_iff_lt_or_eq.mp hlt with hlt | rfl
        · exact Or.inl hlt
        · exact Or.inr ⟨rfl, hrun, k, hk, hat⟩
      · obtain rfl : k = k' := by omega
        rw [hat] at hat'
        exact absurd (Option.some.inj hat') (by omega)
    · omega

/-- A jump reaches back no further than its star did. -/
theorem floor_of_jump
    (h : (Leg.facing (ofChars separator cs) before t ts).move (ofChars separator cs) i c =
      .jump stop) (hi : i ≤ cs.size) {f : ℕ} (hf : Floor (ofChars separator cs) (t :: ts) i f) :
    Floor (ofChars separator cs) ts stop f := by
  have ht := Token.isWildcard_of_isStar (Leg.isStar_of_move (Or.inl h))
  rcases jump_cases h hi with hle | ⟨rfl, hrun, k, hk, hat⟩
  · exact hf.onward ht hle
  · exact hf.back ht hrun hk hat

end

/-! ### One move -/

/-- A stride that has been recorded: the record holds its marks, and the tokens behind it go on from
    where it stops. -/
structure Recorded {μ : Type} (R : Positions → μ → Prop) (s : Subject) (before : Option Kind)
    (ts : List Token) (M : Positions) (q : Stride) (m : μ) : Prop where
  le_size : q.stop ≤ s.size
  holds : R (q.mark before M) m
  passed : Passed s ts q.stop (q.mark before M)
  floor : ∀ f, Floor s (q.token :: ts) q.start f →
    Floor s ts q.stop f ∧ ∀ p < f, q.mark before M p = M p

section

variable {μ : Type} {R : Positions → μ → Prop} {before : Option Kind} {t : Token} {ts : List Token}
  {i : ℕ} {M : Positions} {m : μ}

/-- What is marked at a position leaves everything before it as it was. -/
theorem add_eq_of_floor {s : Subject} {stop f : ℕ} (hf : Floor s ts i f) :
    ∀ p < f, M.add i stop p = M p := fun p hp => by
  rw [Bool.eq_iff_iff, Positions.add_apply]
  exact or_iff_left (by have := hf.1; omega)

/-- A token that stands for one character is recorded, whether it marks the character or not. -/
theorem recorded_of_mark {s : Subject} (hi : i < s.size) (hM : Passed s (t :: ts) i M)
    (hmark : Stride.mark before ⟨t, i, i + 1⟩ M = M ∨
      Stride.mark before ⟨t, i, i + 1⟩ M = M.add i (i + 1))
    (hm : R (Stride.mark before ⟨t, i, i + 1⟩ M) m) :
    Recorded R s before ts M ⟨t, i, i + 1⟩ m := by
  refine ⟨hi, hm, passed_of_lt fun p hp => ?_, fun f hf => ⟨floor_of_lt ?_, ?_⟩⟩
  · rcases hmark with he | he
    · rw [he] at hp
      exact Nat.lt_succ_of_le (hM.le p hp)
    · rw [he, Positions.add_apply] at hp
      rcases hp with hp | hp
      · exact Nat.lt_succ_of_le (hM.le p hp)
      · exact hp.2
  · exact Nat.lt_succ_of_le hf.1
  · rcases hmark with he | he
    · rw [he]
      exact fun _ _ => rfl
    · rw [he]
      exact add_eq_of_floor hf

variable [Recorder μ] (hR : Recorder.Tracks R) (hm : R M m) {separator : Option Char}
  {cs : Array Char} {c : Char}

include hR hm

theorem recorded_yield
    (h : (Leg.facing (ofChars separator cs) before t ts).move (ofChars separator cs) i c = .yield)
    (hi : i ≤ cs.size) (hM : Passed (ofChars separator cs) (t :: ts) i M) :
    Recorded R (ofChars separator cs) before ts M (.idle i t) (Recorder.look m i) := by
  obtain ⟨rfl, hr⟩ := Leg.of_move_yield h
  have hrun : (Outlook.ofTokens ts).run ≠ [] := fun hn => hr (by rw [Outlook.nextRun, hn, ite_self])
  have hlt : ∀ p, M p → p < i :=
    hM.lt_of_run fun hn => hrun ((@Outlook.run_before .question rfl _).symm.trans hn)
  refine ⟨hi, ?_, ?_, fun f hf => ⟨⟨hf.1, fun hn => absurd hn hrun⟩, ?_⟩⟩
  · rw [mark_idle]
    exact hR.look i hm
  · rw [mark_idle]
    exact passed_of_lt hlt
  · rw [mark_idle]
    exact fun _ _ => rfl

theorem recorded_pass
    (h : (Leg.facing (ofChars separator cs) before t ts).move (ofChars separator cs) i c = .pass)
    (hi : i < cs.size) (hM : Passed (ofChars separator cs) (t :: ts) i M) :
    Recorded R (ofChars separator cs) before ts M ⟨t, i, i + 1⟩ (Recorder.look m i) := by
  have hmark : Stride.mark before ⟨t, i, i + 1⟩ M = M := by
    rcases Leg.of_move_pass h with rfl | ⟨rfl, hb⟩
    · rfl
    · simp [Stride.mark, Token.isWildcard, hb]
  refine recorded_of_mark hi hM (Or.inl hmark) ?_
  rw [hmark]
  exact hR.look i hm

theorem recorded_take
    (h : (Leg.facing (ofChars separator cs) before t ts).move (ofChars separator cs) i c = .take)
    (hi : i < cs.size) (hM : Passed (ofChars separator cs) (t :: ts) i M) :
    Recorded R (ofChars separator cs) before ts M ⟨t, i, i + 1⟩
      (Recorder.take (Recorder.look m i) i (i + 1)) := by
  have hmark : Stride.mark before ⟨t, i, i + 1⟩ M = M.add i (i + 1) := by
    rcases (Leg.of_move_take h).1 with rfl | rfl <;> rfl
  refine recorded_of_mark hi hM (Or.inr hmark) ?_
  rw [hmark]
  exact hR.take (i + 1) (hR.look i hm) hM.le

theorem recorded_trail
    (h : (Leg.facing (ofChars separator cs) before t ts).move (ofChars separator cs) i c = .trail)
    (hi : i < cs.size) (hM : Passed (ofChars separator cs) (t :: ts) i M) :
    Recorded R (ofChars separator cs) before ts M ⟨t, i, i + 1⟩
      (if 0 < i ∧ Recorder.taken (Recorder.look m i) (i - 1) then
        Recorder.take (Recorder.look m i) i (i + 1) else Recorder.look m i) := by
  obtain ⟨rfl, hb⟩ := Leg.of_move_trail h
  have hmark : Stride.mark before ⟨.separator c, i, i + 1⟩ M =
      if 0 < i ∧ M (i - 1) then M.add i (i + 1) else M := by
    simp [Stride.mark, Token.isWildcard, Token.kind, hb]
  refine recorded_of_mark hi hM ?_ ?_
  · rw [hmark]
    split
    · exact Or.inr rfl
    · exact Or.inl rfl
  · rw [hmark]
    exact hR.trail (hR.look i hm) hM.le

theorem recorded_jump {stop : ℕ}
    (h : (Leg.facing (ofChars separator cs) before t ts).move (ofChars separator cs) i c =
      .jump stop) (hi : i ≤ cs.size) (hM : Passed (ofChars separator cs) (t :: ts) i M) :
    Recorded R (ofChars separator cs) before ts M ⟨t, i, stop⟩
      (Recorder.take (Recorder.look m i) i stop) := by
  have hmark : Stride.mark before ⟨t, i, stop⟩ M = M.add i stop :=
    Stride.mark_of_isWildcard before (Token.isWildcard_of_isStar (Leg.isStar_of_move (Or.inl h))) M
  refine ⟨jump_le_size h hi, ?_, ?_, fun f hf => ⟨floor_of_jump h hi hf, ?_⟩⟩
  · rw [hmark]
    exact hR.take stop (hR.look i hm) hM.le
  · rw [hmark]
    exact passed_of_jump h hi hM
  · rw [hmark]
    exact add_eq_of_floor hf

end

/-! ### The whole search -/

/-- A star that seeks a run, when the search behind each occurrence follows its route. -/
theorem follows_seek {μ : Type} [Recorder μ] {R : Positions → μ → Prop} (hR : Recorder.Tracks R)
    {separator : Option Char} {cs : Array Char} {before : Option Kind} {t : Token}
    {ts : List Token} {i limit : ℕ} {c : Char} {M : Positions} {m : μ} (hm : R M m)
    (h : (Leg.facing (ofChars separator cs) before t ts).move (ofChars separator cs) i c =
      .seek limit) (hM : Passed (ofChars separator cs) (t :: ts) i M)
    {us : List Token} {go : ℕ → μ → Verdict μ} {go' : ℕ → Outcome}
    (hgo : ∀ j ≤ limit, ∀ N, (∀ p, N p → p < j) → ∀ m, R N m →
      Follows R (ofChars separator cs) (some .literal) us j N (go j m) (go' j)) :
    Follows R (ofChars separator cs) before (t :: ts) i M
      (trySites limit i go false
        (((ofChars separator cs).sites (Outlook.ofTokens ts).run).onward i) m)
      (.firstOf (fun p => (go' (p + (Outlook.ofTokens ts).run.length)).prepend
          (⟨t, i, p⟩ :: ((ts.take (Outlook.ofTokens ts).gap).map (.idle p) ++
            Stride.spell p (Outlook.ofTokens ts).run)))
        false (sitesWithin cs (Outlook.ofTokens ts).run i limit)) := by
  have ht := Leg.isStar_of_move (Or.inr h)
  have hr := (Leg.of_move_seek h).1
  have hrun := run_ne_nil_of_seek h
  have before_i := hM.lt_of_run hrun
  have hsites : sitesWithin cs (Outlook.ofTokens ts).run i limit =
      ((List.range' i (cs.size - i)).filter
        (Subject.occursAt cs (Outlook.ofTokens ts).run)).filter
        fun p => decide (p + (Outlook.ofTokens ts).run.length ≤ limit) := by
    rw [List.filter_filter, sitesWithin]
    simp only [Bool.and_comm]
  rw [Subject.onward_eq, hsites]
  refine follows_trySites hR before_i ⟨le_rfl, fun h => absurd h hrun⟩
    (List.Pairwise.filter _ List.pairwise_lt_range') (fun p hp hle m' hm' => ?_) hm
    (fun _ _ => rfl) fun _ => rfl
  have hip := (List.mem_range'_1.mp (List.mem_filter.mp hp).1).1
  have hpos := List.length_pos_of_ne_nil hr
  refine Follows.sought ht _ hr hip (hgo _ hle _ (fun q hq => ?_) m' hm')
  rcases Positions.add_apply.mp hq with hq | hq
  · have := before_i q hq
    omega
  · omega

/-- The search ends like its route, and the record tells the strides of the route. -/
theorem follows_run {μ : Type} [Recorder μ] {R : Positions → μ → Prop} (hR : Recorder.Tracks R)
    {separator : Option Char} {cs : Array Char} (before : Option Kind) {ts : List Token} {i : ℕ}
    (hi : i ≤ cs.size) {M : Positions} {m : μ} (hm : R M m)
    (hM : Passed (ofChars separator cs) ts i M) :
    Follows R (ofChars separator cs) before ts i M
      (run (ofChars separator cs) (Leg.chain (ofChars separator cs) before ts).1 0 i m)
      (route (ofChars separator cs) before ts i) := by
  rcases hi.eq_or_lt with rfl | hlt
  · have hs : (ofChars separator cs).size ≤ cs.size := le_rfl
    rw [route_of_size_le hs, run_of_size_le hs]
    split
    · exact .matched (by rwa [replay_idle])
    · exact .failed hm fun _ _ _ _ => rfl
  · match ts with
    | [] =>
      rw [route_nil hlt, run_nil hlt]
      exact .failed (hR.look i hm) fun _ _ _ _ => rfl
    | t :: ts =>
      have hc : (ofChars separator cs).chars[i]? = some cs[i] := Array.getElem?_eq_getElem hlt
      have go : ∀ {q : Stride} {m' : μ}, Recorded R (ofChars separator cs) before ts M q m' →
          q.token = t → q.start = i → Follows R (ofChars separator cs) before (t :: ts) i M
            (run (ofChars separator cs) (Leg.chain (ofChars separator cs) (some t.kind) ts).1 0
              q.stop m')
            ((route (ofChars separator cs) (some t.kind) ts q.stop).prepend [q]) := by
        rintro q m' hq rfl rfl
        exact Follows.prepend (follows_run hR (some q.token.kind) hq.le_size hq.holds hq.passed)
          hq.floor
      rw [route_cons hc, run_cons hc]
      cases hv : (Leg.facing (ofChars separator cs) before t ts).move (ofChars separator cs) i cs[i]
        with
      | stuck => exact .failed (hR.look i hm) fun _ _ _ _ => rfl
      | yield => exact go (recorded_yield hR hm hv hi hM) rfl rfl
      | pass => exact go (recorded_pass hR hm hv hlt hM) rfl rfl
      | take => exact go (recorded_take hR hm hv hlt hM) rfl rfl
      | trail => exact go (recorded_trail hR hm hv hlt hM) rfl rfl
      | jump stop => exact go (recorded_jump hR hm hv hi hM) rfl rfl
      | seek limit =>
        exact follows_seek hR (hR.look i hm) hv hM fun j hj N hN m' hm' =>
          follows_run hR (some .literal) (hj.trans (seek_le_size hv hi)) hm' (passed_of_lt hN)
termination_by ts.length
decreasing_by all_goals (simp only [List.length_cons, List.length_drop]; omega)

end Search

end Wildcard
