import Mathlib.Logic.Function.Iterate
import Wildcard.Proofs.Record

/-! The search as a loop, and how often it goes round.

    A search needs no stack. It is a loop that looks at one character each time round, and that keeps
    of all stars the last one that has found its run. When it fails it goes back to that star and
    tries the next occurrence:

        going legs i choice ──look──▶ going legs' i' choice'
                 │ fails                        ▲
                 └────▶ the star of the choice ─┘ next occurrence, if one is left

    Behind each star that has found its run, the loop goes at most once for each occurrence through
    the tokens up to the next star that finds one. Those stretches of the pattern are apart from each
    other, so the loop goes round at most once for each token, the end of the pattern among them, and
    each character. A record that counts its looks shows the same of the search. -/

namespace Wildcard

/-- A number that counts only if no star further left is asked. -/
def Verdict.unlessFailed {μ : Type} (n : ℕ) : Verdict μ → ℕ
  | .failed _ => 0
  | .matched _ | .exhausted _ => n

theorem Verdict.unlessFailed_le {μ : Type} (n : ℕ) (v : Verdict μ) : v.unlessFailed n ≤ n := by
  cases v with
  | failed m => exact Nat.zero_le n
  | matched m => exact le_rfl
  | exhausted m => exact le_rfl

/-- What is left in the record. -/
def Verdict.record {μ : Type} : Verdict μ → μ
  | .matched m | .failed m | .exhausted m => m

/-- A verdict on another record. -/
def Verdict.map {μ ν : Type} (f : μ → ν) : Verdict μ → Verdict ν
  | .matched m => .matched (f m)
  | .failed m => .failed (f m)
  | .exhausted m => .exhausted (f m)

/-- Whether a move seeks a run. -/
def Move.isSeek : Move → Bool
  | .seek _ => true
  | _ => false

namespace Leg

/-- Whether the token is a star that seeks a run, wherever in the text it stands. -/
def seeks (leg : Leg) (s : Subject) : Bool :=
  match leg.token with
  | .star => leg.ahead.isAtLiteral
  | .doubleStar => if s.separator.isSome then !leg.ahead.run.isEmpty else leg.ahead.isAtLiteral
  | _ => false

theorem isSeek_moveInSegment (leg : Leg) (s : Subject) (i : ℕ) :
    (leg.moveInSegment s i).isSeek = leg.ahead.isAtLiteral := by
  rw [moveInSegment]
  split
  · next h => exact h.symm
  · next h => exact (Bool.eq_false_iff.mpr h).symm

theorem isSeek_moveAcross (leg : Leg) (s : Subject) (i : ℕ) :
    (leg.moveAcross s i).isSeek = !leg.ahead.run.isEmpty := by
  rw [moveAcross]
  split
  · next h =>
    rw [h]
    split <;> rfl
  · next h =>
    rw [Bool.eq_false_iff.mpr h]
    rfl

/-- The position does not decide whether a token seeks. -/
theorem isSeek_move (leg : Leg) (s : Subject) (i : ℕ) (c : Char) :
    (leg.move s i c).isSeek = leg.seeks s := by
  rw [seeks, move]
  cases leg.token with
  | star => exact leg.isSeek_moveInSegment s i
  | doubleStar =>
    dsimp only
    split
    · exact leg.isSeek_moveAcross s i
    · exact leg.isSeek_moveInSegment s i
  | literal d =>
    dsimp only
    split <;> rfl
  | separator d =>
    dsimp only
    split
    · split <;> rfl
    · rfl
  | question =>
    dsimp only
    split
    · rfl
    · split <;> rfl
  | plus =>
    dsimp only
    split <;> rfl

end Leg

namespace Search

/-! ### The loop -/

/-- A star that has found its run and may still give way. -/
structure Choice where
  /-- The legs behind the run. -/
  legs : List Leg
  /-- Where the star begins. -/
  start : ℕ
  /-- Where the run must have ended. -/
  limit : ℕ
  /-- The occurrences of the run that have not been tried. -/
  later : List Span

/-- How far a loop has come. -/
inductive Phase (μ : Type) where
  /-- The next leg is to be held against the character at a position. -/
  | going (legs : List Leg) (i : ℕ) (choice : Option Choice) (record : μ)
  /-- It is over, and the pattern fits or does not. -/
  | ended (fits : Bool) (record : μ)

/-- The record so far. -/
def Phase.record {μ : Type} : Phase μ → μ
  | .going _ _ _ m => m
  | .ended _ m => m

/-! ### How many rounds there may be -/

/-- The rounds that legs take at most as long as no star finds its run: one for each leg, up to the
    first star that seeks or up to the end. -/
def reachOf (s : Subject) : List Leg → ℕ
  | [] => 1
  | leg :: legs => if leg.seeks s then 1 else reachOf s legs + 1

/-- The legs behind the run that the first seeking star seeks, and the end. -/
def restOf (s : Subject) : List Leg → ℕ
  | [] => 0
  | leg :: legs =>
    if leg.seeks s then (legs.drop leg.ahead.reach).length + 1 else restOf s legs

/-- Both together are the legs and the end, or less. -/
theorem reachOf_add_restOf_le (s : Subject) (legs : List Leg) :
    reachOf s legs + restOf s legs ≤ legs.length + 1 := by
  induction legs with
  | nil => exact le_rfl
  | cons leg legs ih =>
    rw [reachOf, restOf, List.length_cons]
    split
    · rw [List.length_drop]
      omega
    · omega

/-- Some passes up to the first star that seeks, and what comes behind it, take no more rounds than
    there are legs and the end, for each character. -/
theorem rounds_le {s : Subject} (legs : List Leg) {n : ℕ} (hn : n ≤ s.size) :
    n * reachOf s legs + s.size * restOf s legs ≤ (legs.length + 1) * s.size := by
  calc n * reachOf s legs + s.size * restOf s legs
    _ ≤ s.size * reachOf s legs + s.size * restOf s legs :=
      Nat.add_le_add_right (Nat.mul_le_mul_right _ hn) _
    _ = (reachOf s legs + restOf s legs) * s.size := by rw [← Nat.mul_add, Nat.mul_comm]
    _ ≤ (legs.length + 1) * s.size := Nat.mul_le_mul_right _ (reachOf_add_restOf_le s legs)

/-- The rounds that legs take at most. A failure that a star further left is asked about has come
    before any star has found its run. -/
def budget {μ : Type} (s : Subject) (legs : List Leg) (v : Verdict μ) : ℕ :=
  reachOf s legs + v.unlessFailed (s.size * restOf s legs)

/-- A leg that does not seek takes one round. -/
theorem budget_cons {μ : Type} {s : Subject} {leg : Leg} (h : leg.seeks s = false)
    (legs : List Leg) (v : Verdict μ) : budget s (leg :: legs) v = budget s legs v + 1 := by
  have hseeks : ¬leg.seeks s := Bool.eq_false_iff.mp h
  rw [budget, budget, reachOf, restOf, if_neg hseeks, if_neg hseeks]
  omega

/-- A leg that seeks takes one round, and as many for each character as there are legs behind the
    run, and the end. -/
theorem budget_of_seeks {μ : Type} {s : Subject} {leg : Leg} (h : leg.seeks s) (legs : List Leg)
    (v : Verdict μ) :
    budget s (leg :: legs) v =
      v.unlessFailed (((legs.drop leg.ahead.reach).length + 1) * s.size) + 1 := by
  rw [budget, reachOf, restOf, if_pos h, if_pos h, Nat.add_comm, Nat.mul_comm]

/-! ### What goes round -/

section

variable {μ : Type} [Recorder μ]

/-- Whether the legs that are left may be left over. -/
def isLeavable : List Leg → Bool
  | [] => true
  | leg :: _ => leg.isSkippable

/-- Tries the next occurrence for a star, until there is a character to look at or the loop is
    over. -/
def retry (s : Subject) (legs : List Leg) (start limit : ℕ) : List Span → μ → Phase μ
  | [], m => .ended false m
  | site :: later, m =>
    if site.stop ≤ limit then
      let m := Recorder.take (Recorder.undo m start) start site.start
      if site.stop < s.size then .going legs site.stop (some ⟨legs, start, limit, later⟩) m
      else if isLeavable legs then .ended true m
      else retry s legs start limit later m
    else .ended false m

/-- After a failure the star that may give way does so. -/
def fail (s : Subject) : Option Choice → μ → Phase μ
  | none, m => .ended false m
  | some choice, m => retry s choice.legs choice.start choice.limit choice.later m

/-- At the end of the text, the legs that are left must all be able to take nothing. -/
def arrive (s : Subject) (legs : List Leg) (i : ℕ) (choice : Option Choice) (m : μ) : Phase μ :=
  if i < s.size then .going legs i choice m
  else if isLeavable legs then .ended true m
  else fail s choice m

/-- A star seeks its run for the first time. If it finds one, no star before it gives way again. -/
def seek (s : Subject) (legs : List Leg) (start limit : ℕ) (choice : Option Choice) :
    List Span → μ → Phase μ
  | [], m => fail s choice m
  | site :: later, m =>
    if site.stop ≤ limit then
      arrive s legs site.stop (some ⟨legs, start, limit, later⟩)
        (Recorder.take m start site.start)
    else fail s choice m

/-- What the move of a leg leads to. -/
def act (s : Subject) (leg : Leg) (legs : List Leg) (i : ℕ) (choice : Option Choice) (m : μ) :
    Move → Phase μ
  | .stuck => fail s choice m
  | .yield => arrive s legs i choice m
  | .pass => arrive s legs (i + 1) choice m
  | .take => arrive s legs (i + 1) choice (Recorder.take m i (i + 1))
  | .trail =>
    arrive s legs (i + 1) choice
      (if 0 < i ∧ Recorder.taken m (i - 1) then Recorder.take m i (i + 1) else m)
  | .jump stop => arrive s legs stop choice (Recorder.take m i stop)
  | .seek limit => seek s (legs.drop leg.ahead.reach) i limit choice (leg.sites.onward i) m

/-- Goes round once: looks at a character and acts on it. Behind the last leg no character may be
    left. -/
def step (s : Subject) : Phase μ → Phase μ
  | .ended fits m => .ended fits m
  | .going [] i choice m => fail s choice (Recorder.look m i)
  | .going (leg :: legs) i choice m =>
    match s.chars[i]? with
    | none => fail s choice (Recorder.look m i)
    | some c => act s leg legs i choice (Recorder.look m i) (leg.move s i c)

/-- The loop before its first round. -/
def start (s : Subject) (ts : List Token) (m : μ) : Phase μ :=
  arrive s (Leg.ofTokens s ts) 0 none m

/-- One phase leads to another within some rounds. -/
def Within (s : Subject) (n : ℕ) (a b : Phase μ) : Prop := ∃ k ≤ n, (step s)^[k] a = b

/-- What a verdict on some legs means for the loop. -/
def settle (s : Subject) (choice : Option Choice) : Verdict μ → Phase μ
  | .matched m => .ended true m
  | .failed m => fail s choice m
  | .exhausted m => .ended false m

namespace Within

variable {s : Subject} {n k : ℕ} {a b c : Phase μ}

theorem refl (a : Phase μ) : Within s 0 a a := ⟨0, le_rfl, rfl⟩

theorem mono (h : Within s n a b) (le : n ≤ k) : Within s k a b := by
  obtain ⟨j, hj, rfl⟩ := h
  exact ⟨j, hj.trans le, rfl⟩

theorem trans (h : Within s n a b) (h' : Within s k b c) : Within s (n + k) a c := by
  obtain ⟨j, hj, rfl⟩ := h
  obtain ⟨j', hj', rfl⟩ := h'
  refine ⟨j' + j, by omega, ?_⟩
  rw [Function.iterate_add_apply]

/-- One round, and what comes behind it. -/
theorem cons (h : Within s n (step s a) b) : Within s (n + 1) a b := by
  obtain ⟨j, hj, rfl⟩ := h
  refine ⟨j + 1, by omega, ?_⟩
  rw [Function.iterate_succ_apply]

end Within

/-- What is over stays over. -/
theorem iterate_ended (s : Subject) (fits : Bool) (m : μ) (k : ℕ) :
    (step s)^[k] (.ended fits m) = .ended fits m := by
  induction k with
  | zero => rfl
  | succ k ih => rw [Function.iterate_succ_apply]; exact ih

/-! ### The loop and the search -/

/-- Passing legs over leads to those behind them. -/
theorem run_drop (s : Subject) (legs : List Leg) (skip i : ℕ) (m : μ) :
    run s legs skip i m = run s (legs.drop skip) 0 i m := by
  induction legs generalizing skip with
  | nil => rw [List.drop_nil]; rfl
  | cons leg legs ih =>
    cases skip with
    | zero => rfl
    | succ skip => exact ih skip

/-- At the end of the text, the search and the loop are over, or an earlier star gives way. -/
theorem arrive_of_size_le {s : Subject} {i : ℕ} (hi : s.size ≤ i) (legs : List Leg)
    (choice : Option Choice) (m : μ) :
    arrive s legs i choice m = settle s choice (run s legs 0 i m) := by
  rw [arrive, if_neg (Nat.not_lt.mpr hi)]
  cases legs with
  | nil => rw [run, if_neg (Nat.not_lt.mpr hi)]; rfl
  | cons leg legs =>
    have hc : s.chars[i]? = none := Array.getElem?_eq_none hi
    rw [run, hc, isLeavable]
    split <;> rfl

/-- The legs behind a star may be gone through in any place, within their budget. -/
def Bounded (μ : Type) [Recorder μ] (s : Subject) (legs : List Leg) : Prop :=
  ∀ (i : ℕ) (choice : Option Choice) (m : μ),
    Within s (budget s legs (run s legs 0 i m)) (arrive s legs i choice m)
      (settle s choice (run s legs 0 i m))

/-- A star that gives way takes one pass through the legs behind it for each occurrence, and the
    last pass may go on behind another star. -/
theorem within_retry {s : Subject} {legs : List Leg} (bounded : Bounded μ s legs)
    (limit start : ℕ) (choice : Option Choice) (sites : List Span) (m : μ) :
    Within s (sites.length * reachOf s legs + s.size * restOf s legs)
      (fail s (some ⟨legs, start, limit, sites⟩) m)
      (settle s choice (trySites limit start (run s legs 0) true sites m)) := by
  induction sites generalizing m with
  | nil => exact (Within.refl _).mono (Nat.zero_le _)
  | cons site later ih =>
    have hlen : (later.length + 1) * reachOf s legs =
        reachOf s legs + later.length * reachOf s legs := by
      rw [Nat.add_mul, Nat.one_mul, Nat.add_comm]
    rw [trySites, List.length_cons, hlen]
    split
    · next hlimit =>
      dsimp only
      rw [if_pos rfl]
      have pass := bounded site.stop (some ⟨legs, start, limit, later⟩)
        (Recorder.take (Recorder.undo m start) start site.start)
      have again : fail s (some ⟨legs, start, limit, site :: later⟩) m =
          arrive s legs site.stop (some ⟨legs, start, limit, later⟩)
            (Recorder.take (Recorder.undo m start) start site.start) := by
        rw [fail, retry, if_pos hlimit]
        rfl
      rw [again]
      revert pass
      generalize run s legs 0 site.stop
        (Recorder.take (Recorder.undo m start) start site.start) = v
      intro pass
      -- only a pass that fails before another star has found its run leads to the next occurrence,
      -- and such a pass has not used the rounds behind that star
      cases v with
      | failed m' =>
        exact (pass.trans (ih m')).mono (by simp only [budget, Verdict.unlessFailed]; omega)
      | matched m' => exact pass.mono (by simp only [budget, Verdict.unlessFailed]; omega)
      | exhausted m' => exact pass.mono (by simp only [budget, Verdict.unlessFailed]; omega)
    · next hlimit =>
      have hend : fail s (some ⟨legs, start, limit, site :: later⟩) m = .ended false m := by
        rw [fail, retry, if_neg hlimit]
      rw [hend]
      exact (Within.refl _).mono (Nat.zero_le _)

/-- A star that has found its run once asks no other star. -/
theorem unlessFailed_trySites (n limit start : ℕ) (go : ℕ → μ → Verdict μ) (sites : List Span)
    (m : μ) : (trySites limit start go true sites m).unlessFailed n = n := by
  induction sites generalizing m with
  | nil => rfl
  | cons site later ih =>
    rw [trySites]
    split
    · dsimp only
      generalize go site.stop _ = v
      cases v with
      | failed m' => exact ih m'
      | matched m' => rfl
      | exhausted m' => rfl
    · rfl

/-- A star that seeks takes one pass through the legs behind its run for each occurrence. -/
theorem within_seek {s : Subject} {legs : List Leg} (bounded : Bounded μ s legs)
    (limit start : ℕ) (choice : Option Choice) {sites : List Span} (hsites : sites.length ≤ s.size)
    (m : μ) :
    Within s
      ((trySites limit start (run s legs 0) false sites m).unlessFailed
        ((legs.length + 1) * s.size))
      (seek s legs start limit choice sites m)
      (settle s choice (trySites limit start (run s legs 0) false sites m)) := by
  cases sites with
  | nil => exact Within.refl _
  | cons site later =>
    rw [List.length_cons] at hsites
    rw [trySites, seek]
    split
    · have pass := bounded site.stop (some ⟨legs, start, limit, later⟩)
        (Recorder.take m start site.start)
      have one := rounds_le legs (show 1 ≤ s.size by omega)
      have all := rounds_le legs hsites
      rw [Nat.add_mul, Nat.one_mul] at all
      rw [Nat.one_mul] at one
      dsimp only
      rw [if_neg Bool.false_ne_true]
      revert pass
      generalize run s legs 0 site.stop (Recorder.take m start site.start) = v
      intro pass
      cases v with
      | failed m' =>
        dsimp only
        rw [unlessFailed_trySites]
        exact (pass.trans (within_retry bounded limit start choice later m')).mono
          (by simp only [budget, Verdict.unlessFailed]; omega)
      | matched m' => exact pass.mono one
      | exhausted m' => exact pass.mono one
    · exact Within.refl _

theorem step_going {s : Subject} {i : ℕ} {c : Char} (hc : s.chars[i]? = some c) (leg : Leg)
    (legs : List Leg) (choice : Option Choice) (m : μ) :
    step s (.going (leg :: legs) i choice m) =
      act s leg legs i choice (Recorder.look m i) (leg.move s i c) := by
  simp only [step, hc]

/-- Behind the last leg one look is enough. -/
theorem bounded_nil (s : Subject) : Bounded μ s [] := by
  intro i choice m
  rcases Nat.lt_or_ge i s.size with hi | hi
  · rw [arrive, if_pos hi, run, if_pos hi]
    exact (Within.refl _).cons
  · rw [arrive_of_size_le hi]
    exact (Within.refl _).mono (Nat.zero_le _)

/-- A leg that does not seek takes one round, and is left behind. -/
theorem within_onward {s : Subject} {leg : Leg} {legs : List Leg} (bounded : Bounded μ s legs)
    (hseeks : leg.seeks s = false) {i j : ℕ} {choice : Option Choice} {m m' : μ}
    (hstep : step s (.going (leg :: legs) i choice m) = arrive s legs j choice m') :
    Within s (budget s (leg :: legs) (run s legs 0 j m')) (.going (leg :: legs) i choice m)
      (settle s choice (run s legs 0 j m')) := by
  rw [budget_cons hseeks]
  refine Within.cons ?_
  rw [hstep]
  exact bounded j choice m'

/-- One leg more: it is stuck, it goes on to the next one, or it seeks its run. -/
theorem bounded_cons {s : Subject} {leg : Leg} {legs : List Leg} (next : Bounded μ s legs)
    (behind : Bounded μ s (legs.drop leg.ahead.reach))
    (hsites : ∀ i, (leg.sites.onward i).length ≤ s.size) : Bounded μ s (leg :: legs) := by
  intro i choice m
  rcases Nat.lt_or_ge i s.size with hi | hi
  · have hc : s.chars[i]? = some s.chars[i] := Array.getElem?_eq_getElem hi
    have hs := leg.isSeek_move s i s.chars[i]
    have round := step_going hc leg legs choice m
    rw [arrive, if_pos hi, run, hc]
    dsimp only
    cases hm : leg.move s i s.chars[i] with
    | stuck =>
      rw [hm] at hs round
      dsimp only
      rw [budget_cons hs.symm]
      refine Within.cons ?_
      rw [round]
      exact (Within.refl _).mono (Nat.zero_le _)
    | yield => rw [hm] at hs round; exact within_onward next hs.symm round
    | pass => rw [hm] at hs round; exact within_onward next hs.symm round
    | take => rw [hm] at hs round; exact within_onward next hs.symm round
    | trail => rw [hm] at hs round; exact within_onward next hs.symm round
    | jump stop => rw [hm] at hs round; exact within_onward next hs.symm round
    | seek limit =>
      rw [hm] at hs round
      have hgo : (fun stop m => run s legs leg.ahead.reach stop m) =
          (run s (legs.drop leg.ahead.reach) 0 : ℕ → μ → Verdict μ) := by
        funext stop m'
        exact run_drop s legs _ stop m'
      dsimp only
      rw [budget_of_seeks hs.symm, hgo]
      refine Within.cons ?_
      rw [round]
      exact within_seek behind limit i choice (hsites i) _
  · rw [arrive_of_size_le hi]
    exact (Within.refl _).mono (Nat.zero_le _)

/-- The loop takes legs within their budget, if no run occurs more often than there are
    characters. A star may go on behind its run, so what is shown is shown of all that is left
    when some legs are passed over. -/
theorem bounded_drop {s : Subject} {legs : List Leg}
    (hsites : ∀ leg ∈ legs, ∀ i, (leg.sites.onward i).length ≤ s.size) (skip : ℕ) :
    Bounded μ s (legs.drop skip) := by
  induction legs generalizing skip with
  | nil => rw [List.drop_nil]; exact bounded_nil s
  | cons leg legs ih =>
    obtain ⟨hleg, hlegs⟩ := List.forall_mem_cons.mp hsites
    cases skip with
    | zero => exact bounded_cons (ih hlegs 0) (ih hlegs _) hleg
    | succ skip => exact ih hlegs skip

/-! ### A whole text -/

theorem length_chain (s : Subject) (before : Option Kind) (ts : List Token) :
    (Leg.chain s before ts).1.length = ts.length := by
  induction ts generalizing before with
  | nil => rfl
  | cons t ts ih => rw [Leg.chain_cons, List.length_cons, List.length_cons, ih]

open Subject (ofChars)

/-- No run occurs more often than there are characters. -/
theorem length_onward_le {separator : Option Char} {cs : Array Char} {before : Option Kind}
    {ts : List Token} {leg : Leg} (h : leg ∈ (Leg.chain (ofChars separator cs) before ts).1)
    (i : ℕ) : (leg.sites.onward i).length ≤ (ofChars separator cs).size := by
  induction ts generalizing before with
  | nil => cases h
  | cons t ts ih =>
    rw [Leg.chain_cons] at h
    rcases List.mem_cons.mp h with rfl | h
    · rw [Leg.facing, Subject.onward_eq, List.length_map]
      refine (List.length_filter_le _ _).trans ?_
      rw [List.length_range']
      exact Nat.sub_le _ _
    · exact ih h

/-- The loop is over within as many rounds as there are tokens and the end, for each character, and
    it ends like the search. -/
theorem within_search (separator : Option Char) (ts : List Token) (cs : Array Char) (m : μ) :
    Within (ofChars separator cs) ((ts.length + 1) * cs.size)
      (start (ofChars separator cs) ts m)
      (.ended (search separator ts cs m).isMatched (search separator ts cs m).record) := by
  have settled : ∀ v : Verdict μ,
      settle (ofChars separator cs) none v = .ended v.isMatched v.record := by
    intro v
    cases v <;> rfl
  rw [← settled, search, start]
  rcases Nat.eq_zero_or_pos cs.size with empty | pos
  · have hend : (ofChars separator cs).size ≤ 0 := empty.le
    rw [arrive_of_size_le hend]
    exact (Within.refl _).mono (Nat.zero_le _)
  · have legs : Bounded μ (ofChars separator cs) (Leg.ofTokens (ofChars separator cs) ts) :=
      bounded_drop (fun _ => length_onward_le) 0
    refine (legs 0 none m).mono ?_
    have rounds := rounds_le (s := ofChars separator cs) (Leg.ofTokens (ofChars separator cs) ts) pos
    rw [Nat.one_mul, Leg.ofTokens, length_chain] at rounds
    exact (Nat.add_le_add_left (Verdict.unlessFailed_le _ _) _).trans rounds

end

/-! ### Counting looks -/

/-- A record with the number of looks at the text. -/
structure Counted (μ : Type) where
  record : μ
  looks : ℕ

instance {μ : Type} [Recorder μ] : Recorder (Counted μ) where
  look m i := ⟨Recorder.look m.record i, m.looks + 1⟩
  take m start stop := { m with record := Recorder.take m.record start stop }
  undo m bound := { m with record := Recorder.undo m.record bound }
  taken m i := Recorder.taken m.record i

section

variable {μ : Type} [Recorder μ]

theorem looks_retry (s : Subject) (legs : List Leg) (start limit : ℕ) (sites : List Span)
    (m : Counted μ) : (retry s legs start limit sites m).record.looks = m.looks := by
  induction sites generalizing m with
  | nil => rfl
  | cons site later ih =>
    rw [retry]
    split
    · dsimp only
      split
      · rfl
      · split
        · rfl
        · exact ih _
    · rfl

theorem looks_fail (s : Subject) (choice : Option Choice) (m : Counted μ) :
    (fail s choice m).record.looks = m.looks := by
  cases choice with
  | none => rfl
  | some choice => exact looks_retry s _ _ _ _ m

theorem looks_arrive (s : Subject) (legs : List Leg) (i : ℕ) (choice : Option Choice)
    (m : Counted μ) : (arrive s legs i choice m).record.looks = m.looks := by
  rw [arrive]
  split
  · rfl
  · split
    · rfl
    · exact looks_fail s choice m

theorem looks_seek (s : Subject) (legs : List Leg) (start limit : ℕ) (choice : Option Choice)
    (sites : List Span) (m : Counted μ) :
    (seek s legs start limit choice sites m).record.looks = m.looks := by
  cases sites with
  | nil => exact looks_fail s choice m
  | cons site later =>
    rw [seek]
    split
    · exact looks_arrive s legs _ _ _
    · exact looks_fail s choice m

theorem looks_act (s : Subject) (leg : Leg) (legs : List Leg) (i : ℕ) (choice : Option Choice)
    (m : Counted μ) (move : Move) : (act s leg legs i choice m move).record.looks = m.looks := by
  cases move with
  | stuck => exact looks_fail s choice m
  | yield => exact looks_arrive s legs _ _ _
  | pass => exact looks_arrive s legs _ _ _
  | take => exact looks_arrive s legs _ _ _
  | trail =>
    rw [act, looks_arrive]
    split <;> rfl
  | jump stop => exact looks_arrive s legs _ _ _
  | seek limit => exact looks_seek s _ _ _ _ _ m

/-- Each round looks once at the text. -/
theorem looks_step (s : Subject) (legs : List Leg) (i : ℕ) (choice : Option Choice)
    (m : Counted μ) : (step s (.going legs i choice m)).record.looks = m.looks + 1 := by
  cases legs with
  | nil => exact looks_fail s choice _
  | cons leg legs =>
    rw [step]
    split
    · exact looks_fail s choice _
    · exact looks_act s _ _ _ _ _ _

/-- There are no more looks than rounds. -/
theorem looks_iterate_le (s : Subject) (a : Phase (Counted μ)) (k : ℕ) :
    ((step s)^[k] a).record.looks ≤ a.record.looks + k := by
  induction k generalizing a with
  | zero => exact le_rfl
  | succ k ih =>
    rw [Function.iterate_succ_apply]
    refine (ih (step s a)).trans ?_
    cases a with
    | ended fits m => exact Nat.add_le_add_left (Nat.le_succ k) _
    | going legs i choice m =>
      rw [looks_step]
      exact (Nat.add_right_comm m.looks 1 k).le

end

/-! ### A record within a record -/

/-- A way to find a record in another one that hears and says the same. -/
structure Reads {μ ν : Type} [Recorder μ] [Recorder ν] (f : μ → ν) : Prop where
  look : ∀ m i, f (Recorder.look m i) = Recorder.look (f m) i
  take : ∀ m start stop, f (Recorder.take m start stop) = Recorder.take (f m) start stop
  undo : ∀ m bound, f (Recorder.undo m bound) = Recorder.undo (f m) bound
  taken : ∀ m i, Recorder.taken (f m) i = Recorder.taken m i

/-- The counted record is that record. -/
theorem reads_record {μ : Type} [Recorder μ] : Reads (Counted.record : Counted μ → μ) :=
  ⟨fun _ _ => rfl, fun _ _ _ => rfl, fun _ _ => rfl, fun _ _ => rfl⟩

theorem map_giveUp {μ ν : Type} (f : μ → ν) (found : Bool) (m : μ) :
    (giveUp found m).map f = giveUp found (f m) := by
  cases found <;> rfl

section

variable {μ ν : Type} [Recorder μ] [Recorder ν] {f : μ → ν}

theorem map_trySites (hf : Reads f) {go : ℕ → μ → Verdict μ} {go' : ℕ → ν → Verdict ν}
    (hgo : ∀ stop m, (go stop m).map f = go' stop (f m)) (limit start : ℕ) (found : Bool)
    (sites : List Span) (m : μ) :
    (trySites limit start go found sites m).map f =
      trySites limit start go' found sites (f m) := by
  induction sites generalizing found m with
  | nil => exact map_giveUp f found m
  | cons site later ih =>
    have undone : (if found then Recorder.undo (f m) start else f m) =
        f (if found then Recorder.undo m start else m) := by
      cases found with
      | false => rfl
      | true => exact (hf.undo m start).symm
    rw [trySites, trySites]
    split
    · dsimp only
      rw [undone, ← hf.take, ← hgo]
      generalize go site.stop _ = v
      cases v with
      | failed m' => exact ih true m'
      | matched m' => rfl
      | exhausted m' => rfl
    · exact map_giveUp f found m

/-- A search goes the same way for both records. -/
theorem map_run (hf : Reads f) (s : Subject) (legs : List Leg) (skip i : ℕ) (m : μ) :
    (run s legs skip i m).map f = run s legs skip i (f m) := by
  induction legs generalizing skip i m with
  | nil =>
    rw [run, run, ← hf.look]
    split <;> rfl
  | cons leg legs ih =>
    cases skip with
    | succ skip => exact ih skip i m
    | zero =>
      rw [run, run]
      cases s.chars[i]? with
      | none =>
        dsimp only
        split <;> rfl
      | some c =>
        have trail : (if 0 < i ∧ Recorder.taken (f (Recorder.look m i)) (i - 1) then
              Recorder.take (f (Recorder.look m i)) i (i + 1) else f (Recorder.look m i)) =
            f (if 0 < i ∧ Recorder.taken (Recorder.look m i) (i - 1) then
              Recorder.take (Recorder.look m i) i (i + 1) else Recorder.look m i) := by
          rw [hf.taken, ← hf.take]
          split <;> rfl
        dsimp only
        rw [← hf.look]
        cases leg.move s i c with
        | stuck => rfl
        | yield => exact ih 0 i _
        | pass => exact ih 0 (i + 1) _
        | take => dsimp only; rw [← hf.take]; exact ih 0 (i + 1) _
        | trail => dsimp only; rw [trail]; exact ih 0 (i + 1) _
        | jump stop => dsimp only; rw [← hf.take]; exact ih 0 stop _
        | seek limit => exact map_trySites hf (fun stop m' => ih _ stop m') limit i false _ _

end

/-- The search is a loop that is over within as many rounds as there are tokens and the end, for
    each character, whatever it records; more rounds change nothing. Each round is one look at the
    text, so the search looks no more often, and counting its looks does not change it. -/
theorem rounds_bounded {μ : Type} [Recorder μ] (pattern : String) (separator : Option Char)
    (text : String) (m : μ) :
    let p := Pattern.compile pattern separator
    let cs := text.toList.toArray
    let s := Subject.ofChars separator cs
    let rounds := (p.length + 1) * text.length
    let counted := search separator p.tokens cs (Counted.mk m 0)
    (∀ more, (step s)^[rounds + more] (start s p.tokens m) =
      .ended (search separator p.tokens cs m).isMatched (search separator p.tokens cs m).record) ∧
    counted.record.looks ≤ rounds ∧
    counted.map Counted.record = search separator p.tokens cs m := by
  intro p cs s rounds counted
  have hrounds : (p.tokens.length + 1) * cs.size = rounds := rfl
  refine ⟨fun more => ?_, ?_, map_run reads_record s (Leg.ofTokens s p.tokens) 0 0 _⟩
  · obtain ⟨k, hk, hend⟩ := within_search separator p.tokens cs m
    obtain ⟨j, hj⟩ := Nat.exists_eq_add_of_le (hk.trans (hrounds.le.trans (Nat.le_add_right _ more)))
    rw [hj, Nat.add_comm, Function.iterate_add_apply, hend, iterate_ended]
  · obtain ⟨k, hk, hend⟩ := within_search separator p.tokens cs (Counted.mk m 0)
    have looks := looks_iterate_le s (start s p.tokens (Counted.mk m 0)) k
    rw [hend, start, looks_arrive, Nat.zero_add] at looks
    exact looks.trans (hk.trans hrounds.le)

end Search

end Wildcard
