import Wildcard.Search
import Wildcard.Proofs.Tables

/-! The way a search goes, without a record of it.

    A search that succeeds has given every token a stretch of the subject, in order. Its route says
    which; it is the search itself, with the strides of the successful way in place of a record:

        tokens    *      a      /      +          subject   b b a / c
        strides   [0,2)  [2,3)  [3,4)  [4,5)

    `Course` says what any route is like, whatever the search tried before it found it. -/

namespace Wildcard

/-- What one token did on the way of a search: it stood for the characters from `start` up to
    `stop`, none if that is not beyond. -/
structure Stride where
  token : Token
  start : ℕ
  stop : ℕ
  deriving DecidableEq

namespace Stride

/-- A token that stands for nothing. -/
def idle (i : ℕ) (t : Token) : Stride := ⟨t, i, i⟩

/-- The strides of a run of literals. -/
def spell : ℕ → List Char → List Stride
  | _, [] => []
  | i, c :: run => ⟨.literal c, i, i + 1⟩ :: spell (i + 1) run

end Stride

/-- How a search ends, with its strides if it succeeds. -/
inductive Outcome where
  /-- The pattern fits. -/
  | matched (path : List Stride)
  /-- It does not fit; a star further left may give way. -/
  | failed
  /-- It does not fit, and no star further left is asked. -/
  | exhausted
  deriving DecidableEq

namespace Outcome

/-- Whether the pattern fits. -/
def isMatched : Outcome → Bool
  | .matched _ => true
  | _ => false

/-- The strides, if the pattern fits. -/
def path? : Outcome → Option (List Stride)
  | .matched path => some path
  | _ => none

/-- Puts strides in front of those that follow. -/
def prepend (strides : List Stride) : Outcome → Outcome
  | .matched path => .matched (strides ++ path)
  | .failed => .failed
  | .exhausted => .exhausted

/-- Tries some positions in turn. Once one of them has been tried, no star further left is asked. -/
def firstOf (go : ℕ → Outcome) : (found : Bool) → List ℕ → Outcome
  | found, [] => if found then .exhausted else .failed
  | _, p :: ps =>
    match go p with
    | .failed => firstOf go true ps
    | outcome => outcome

theorem isMatched_iff {o : Outcome} : o.isMatched ↔ ∃ path, o = .matched path := by
  cases o <;> simp [isMatched]

@[simp]
theorem isMatched_prepend (strides : List Stride) (o : Outcome) :
    (o.prepend strides).isMatched = o.isMatched := by
  cases o <;> rfl

@[simp]
theorem prepend_eq_matched {strides path : List Stride} {o : Outcome} :
    o.prepend strides = .matched path ↔ ∃ path', o = .matched path' ∧ path = strides ++ path' := by
  cases o <;> simp [prepend, eq_comm]

@[simp]
theorem prepend_eq_failed {strides : List Stride} {o : Outcome} :
    o.prepend strides = .failed ↔ o = .failed := by
  cases o <;> simp [prepend]

/-- Either one position decides and all before it have failed, or all positions have failed. -/
theorem firstOf_cases (go : ℕ → Outcome) (found : Bool) (ps : List ℕ) :
    (∃ qs p rest, ps = qs ++ p :: rest ∧ (∀ q ∈ qs, go q = .failed) ∧ go p ≠ .failed ∧
      firstOf go found ps = go p) ∨
    ((∀ p ∈ ps, go p = .failed) ∧
      firstOf go found ps = if found || !ps.isEmpty then .exhausted else .failed) := by
  induction ps generalizing found with
  | nil => exact Or.inr ⟨by simp, by simp [firstOf]⟩
  | cons p ps ih =>
    by_cases hp : go p = .failed
    · have step : firstOf go found (p :: ps) = firstOf go true ps := by rw [firstOf, hp]
      rcases ih true with ⟨qs, q, rest, rfl, hqs, hq, he⟩ | ⟨hps, he⟩
      · exact Or.inl ⟨p :: qs, q, rest, rfl, List.forall_mem_cons.mpr ⟨hp, hqs⟩, hq, step.trans he⟩
      · exact Or.inr ⟨List.forall_mem_cons.mpr ⟨hp, hps⟩, by rw [step, he]; simp⟩
    · refine Or.inl ⟨[], p, ps, rfl, by simp, hp, ?_⟩
      rw [firstOf]
      cases h : go p <;> simp_all

/-- A search that succeeds behind a star has tried its position. -/
theorem exists_of_firstOf_eq_matched {go : ℕ → Outcome} {found : Bool} {ps : List ℕ}
    {path : List Stride} (h : firstOf go found ps = .matched path) :
    ∃ p ∈ ps, go p = .matched path := by
  rcases firstOf_cases go found ps with ⟨qs, p, rest, rfl, -, -, he⟩ | ⟨-, he⟩
  · exact ⟨p, by simp, he.symm.trans h⟩
  · rw [he] at h
    split at h <;> cases h

theorem exists_of_isMatched_firstOf {go : ℕ → Outcome} {found : Bool} {ps : List ℕ}
    (h : (firstOf go found ps).isMatched) : ∃ p ∈ ps, (go p).isMatched := by
  obtain ⟨path, hpath⟩ := isMatched_iff.mp h
  obtain ⟨p, hp, hgo⟩ := exists_of_firstOf_eq_matched hpath
  exact ⟨p, hp, isMatched_iff.mpr ⟨path, hgo⟩⟩

end Outcome

namespace Leg

/-- The leg of a token between the kind before it and the tokens behind it. -/
def facing (s : Subject) (before : Option Kind) (t : Token) (ts : List Token) : Leg :=
  { before, token := t, ahead := .ofTokens ts, sites := s.sites (Outlook.ofTokens ts).run }

theorem chain_cons (s : Subject) (before : Option Kind) (t : Token) (ts : List Token) :
    (chain s before (t :: ts)).1 = facing s before t ts :: (chain s (some t.kind) ts).1 := by
  rw [chain, facing, chain_snd]

/-! ### What a move says about its token -/

theorem moveInSegment_cases (leg : Leg) (s : Subject) (i : ℕ) :
    (leg.ahead.nextRun ≠ [] ∧ leg.moveInSegment s i = .seek (s.segmentStop i)) ∨
    (leg.ahead.nextRun = [] ∧ leg.moveInSegment s i = .jump (s.segmentStop i)) := by
  have hl := leg.ahead.isAtLiteral_iff
  rw [moveInSegment]
  split
  · next h => exact Or.inl ⟨hl.mp h, rfl⟩
  · next h => exact Or.inr ⟨not_not.mp (mt hl.mpr h), rfl⟩

/-- Across segments a star seeks a run, or jumps over everything but the separators that are still
    wanted. Only then may it jump back, onto a separator. -/
theorem moveAcross_cases (leg : Leg) (s : Subject) (i : ℕ) :
    (leg.ahead.run ≠ [] ∧ leg.moveAcross s i = .seek s.size) ∨
    (leg.ahead.run = [] ∧ ∃ stop, leg.moveAcross s i = .jump stop ∧ (stop = s.size ∨ stop = i ∨
      ∃ k, leg.ahead.separators = k + 1 ∧ s.separatorFromEnd k = some stop ∧ i ≤ stop + 1)) := by
  rw [moveAcross]
  split
  · next h =>
    refine Or.inr ⟨List.isEmpty_iff.mp h, ?_⟩
    split
    · exact ⟨s.size, rfl, Or.inl rfl⟩
    · next k hk =>
      refine ⟨_, rfl, ?_⟩
      cases hat : s.separatorFromEnd k with
      | none => exact Or.inr (Or.inl rfl)
      | some j =>
        rw [Option.filter_some]
        split
        · next hj => exact Or.inr (Or.inr ⟨k, hk, hat, of_decide_eq_true hj⟩)
        · exact Or.inr (Or.inl rfl)
  · next h => exact Or.inl ⟨mt List.isEmpty_iff.mpr h, rfl⟩

section

variable {s : Subject} {before : Option Kind} {t : Token} {ts : List Token} {i : ℕ} {c : Char}

theorem of_move_pass (h : (facing s before t ts).move s i c = .pass) :
    t = .literal c ∨ t = .separator c ∧ ¬before.any Kind.isStar := by
  cases t <;> simp only [facing, move, moveInSegment, moveAcross] at h <;> grind

theorem of_move_trail (h : (facing s before t ts).move s i c = .trail) :
    t = .separator c ∧ before.any Kind.isStar := by
  cases t <;> simp only [facing, move, moveInSegment, moveAcross] at h <;> grind

theorem of_move_take (h : (facing s before t ts).move s i c = .take) :
    (t = .question ∨ t = .plus) ∧ s.separator ≠ some c := by
  cases t <;> simp only [facing, move, moveInSegment, moveAcross] at h <;> grind

theorem of_move_yield (h : (facing s before t ts).move s i c = .yield) :
    t = .question ∧ (Outlook.ofTokens ts).nextRun ≠ [] := by
  rw [← Outlook.isAtLiteral_iff]
  cases t <;> simp only [facing, move, moveInSegment, moveAcross] at h <;> grind

/-- A `?` lets a literal right behind it go first, unless another `?` stands before. -/
theorem move_question :
    (facing s before .question ts).move s i c =
      if before ≠ some .question ∧ ts.head? = some (.literal c) then .yield
      else if s.separator = some c then .stuck else .take := by
  simp only [move, facing, Outlook.isAtLiteral_and_head?]

theorem move_question_eq_yield :
    (facing s before .question ts).move s i c = .yield ↔
      before ≠ some .question ∧ ts.head? = some (.literal c) := by
  rw [move_question]
  split
  · next hq => exact iff_of_true rfl hq
  · next hq =>
    refine iff_of_false ?_ hq
    split <;> nofun

/-- The move of a star, by the two ways it can go. -/
theorem move_star (ht : t.kind.isStar) :
    ((t = .star ∨ s.separator = none) ∧
      (facing s before t ts).move s i c = (facing s before t ts).moveInSegment s i) ∨
    (t = .doubleStar ∧ s.separator.isSome ∧
      (facing s before t ts).move s i c = (facing s before t ts).moveAcross s i) := by
  cases t with
  | star => exact Or.inl ⟨Or.inl rfl, rfl⟩
  | doubleStar =>
    by_cases hs : s.separator.isSome
    · exact Or.inr ⟨rfl, hs, if_pos hs⟩
    · exact Or.inl ⟨Or.inr (Option.not_isSome_iff_eq_none.mp hs), if_neg hs⟩
  | _ => cases ht

/-- A star jumps or seeks. -/
theorem move_of_isStar (ht : t.kind.isStar) :
    (∃ stop, (facing s before t ts).move s i c = .jump stop) ∨
      ∃ limit, (facing s before t ts).move s i c = .seek limit := by
  rcases move_star ht with ⟨-, he⟩ | ⟨-, -, he⟩
  · rw [he]
    rcases moveInSegment_cases (facing s before t ts) s i with ⟨_, hm⟩ | ⟨_, hm⟩
    · exact Or.inr ⟨_, hm⟩
    · exact Or.inl ⟨_, hm⟩
  · rw [he]
    rcases moveAcross_cases (facing s before t ts) s i with ⟨_, hm⟩ | ⟨_, _, hm, _⟩
    · exact Or.inr ⟨_, hm⟩
    · exact Or.inl ⟨_, hm⟩

/-- A token is stuck before another character than its own, or before the separator. -/
theorem of_move_stuck (h : (facing s before t ts).move s i c = .stuck) :
    (∃ d, (t = .literal d ∨ t = .separator d) ∧ c ≠ d) ∨
      (t = .question ∧ ¬(before ≠ some .question ∧ ts.head? = some (.literal c)) ∨ t = .plus) ∧
        s.separator = some c := by
  cases t with
  | literal d => exact Or.inl ⟨d, Or.inl rfl, fun he => by simp [move, facing, he] at h⟩
  | separator d =>
    refine Or.inl ⟨d, Or.inr rfl, fun he => ?_⟩
    by_cases hb : before.any Kind.isStar <;> simp [move, facing, he, hb] at h
  | question =>
    rw [move_question] at h
    split at h
    · cases h
    · next hq =>
      split at h
      · next hs => exact Or.inr ⟨Or.inl ⟨rfl, hq⟩, hs⟩
      · cases h
  | plus =>
    simp only [move, facing] at h
    split at h
    · next hs => exact Or.inr ⟨Or.inr rfl, hs⟩
    · cases h
  | star =>
    rcases @move_of_isStar s before .star ts i c rfl with ⟨_, hm⟩ | ⟨_, hm⟩ <;>
      cases hm.symm.trans h
  | doubleStar =>
    rcases @move_of_isStar s before .doubleStar ts i c rfl with ⟨_, hm⟩ | ⟨_, hm⟩ <;>
      cases hm.symm.trans h

/-- A double star at the end of a pattern takes the rest of the text. -/
theorem move_doubleStar_nil (hs : s.separator.isSome) :
    (facing s before .doubleStar []).move s i c = .jump s.size := by
  simp [move, facing, moveAcross, hs, Outlook.atEnd]

/-- Only stars jump or seek. -/
theorem isStar_of_move {stop : ℕ} (h : (facing s before t ts).move s i c = .jump stop ∨
    (facing s before t ts).move s i c = .seek stop) : t.kind.isStar := by
  cases t <;> simp only [facing, move] at h <;> first | rfl | grind

/-- A star jumps to the end of its segment, or over all but the separators still wanted. -/
theorem of_move_jump {stop : ℕ} (h : (facing s before t ts).move s i c = .jump stop) :
    ((t = .star ∨ s.separator = none) ∧ (Outlook.ofTokens ts).nextRun = [] ∧
      stop = s.segmentStop i) ∨
    (t = .doubleStar ∧ s.separator.isSome ∧ (Outlook.ofTokens ts).run = [] ∧
      (stop = s.size ∨ stop = i ∨ ∃ k, (Outlook.ofTokens ts).separators = k + 1 ∧
        s.separatorFromEnd k = some stop ∧ i ≤ stop + 1)) := by
  rcases move_star (isStar_of_move (Or.inl h)) with ⟨ht, he⟩ | ⟨ht, hs, he⟩
  · rcases moveInSegment_cases (facing s before t ts) s i with ⟨_, hm⟩ | ⟨hr, hm⟩
    · rw [he, hm] at h
      cases h
    · rw [he, hm] at h
      exact Or.inl ⟨ht, hr, (Move.jump.inj h).symm⟩
  · rcases moveAcross_cases (facing s before t ts) s i with ⟨_, hm⟩ | ⟨hr, j, hm, hj⟩
    · rw [he, hm] at h
      cases h
    · rw [he, hm] at h
      exact Or.inr ⟨ht, hs, hr, Move.jump.inj h ▸ hj⟩

/-- A star seeks a run only if there is one, and the double star alone seeks it behind a gap. -/
theorem of_move_seek {limit : ℕ} (h : (facing s before t ts).move s i c = .seek limit) :
    (Outlook.ofTokens ts).run ≠ [] ∧
      ((t = .star ∨ s.separator = none) ∧ (Outlook.ofTokens ts).gap = 0 ∧
        limit = s.segmentStop i ∨
        t = .doubleStar ∧ s.separator.isSome ∧ limit = s.size) := by
  rcases move_star (isStar_of_move (Or.inr h)) with ⟨ht, he⟩ | ⟨ht, hs, he⟩
  · rcases moveInSegment_cases (facing s before t ts) s i with ⟨hr, hm⟩ | ⟨_, hm⟩
    · rw [he, hm] at h
      have hg : (Outlook.ofTokens ts).gap = 0 := by
        by_contra hg
        exact hr (if_neg hg)
      rw [facing, Outlook.nextRun, if_pos hg] at hr
      exact ⟨hr, Or.inl ⟨ht, hg, (Move.seek.inj h).symm⟩⟩
    · rw [he, hm] at h
      cases h
  · rcases moveAcross_cases (facing s before t ts) s i with ⟨hr, hm⟩ | ⟨_, j, hm, _⟩
    · rw [he, hm] at h
      exact ⟨hr, Or.inr ⟨ht, hs, (Move.seek.inj h).symm⟩⟩
    · rw [he, hm] at h
      cases h

end

end Leg

namespace Search

/-! ### The search itself -/

/-- Where a run occurs from some position on, as long as it ends within a limit. -/
def sitesWithin (cs : Array Char) (run : List Char) (i limit : ℕ) : List ℕ :=
  (List.range' i (cs.size - i)).filter fun p =>
    Subject.occursAt cs run p && decide (p + run.length ≤ limit)

theorem mem_sitesWithin {cs : Array Char} {run : List Char} {i limit p : ℕ} :
    p ∈ sitesWithin cs run i limit ↔
      i ≤ p ∧ p < cs.size ∧ Subject.occursAt cs run p ∧ p + run.length ≤ limit := by
  rw [sitesWithin, List.mem_filter, List.mem_range'_1, Bool.and_eq_true, decide_eq_true_eq]
  constructor
  · rintro ⟨⟨h1, h2⟩, h3, h4⟩
    exact ⟨h1, by omega, h3, h4⟩
  · rintro ⟨h1, h2, h3, h4⟩
    exact ⟨⟨h1, by omega⟩, h3, h4⟩

theorem pairwise_sitesWithin (cs : Array Char) (run : List Char) (i limit : ℕ) :
    (sitesWithin cs run i limit).Pairwise (· < ·) :=
  List.Pairwise.filter _ List.pairwise_lt_range'

/-- The search, told by its strides. Like the search it passes the first `skip` tokens over; their
    strides are those of the star that has sought behind them. -/
def walk (s : Subject) : Option Kind → List Token → (skip i : ℕ) → Outcome
  | _, [], _, i => if i < s.size then .failed else .matched []
  | _, t :: ts, skip + 1, i => walk s (some t.kind) ts skip i
  | before, t :: ts, 0, i =>
    let leg := Leg.facing s before t ts
    match s.chars[i]? with
    | none => if leg.isSkippable then .matched ((t :: ts).map (.idle i)) else .failed
    | some c =>
      match leg.move s i c with
      | .stuck => .failed
      | .yield => (walk s (some t.kind) ts 0 i).prepend [.idle i t]
      | .pass | .take | .trail => (walk s (some t.kind) ts 0 (i + 1)).prepend [⟨t, i, i + 1⟩]
      | .jump stop => (walk s (some t.kind) ts 0 stop).prepend [⟨t, i, stop⟩]
      | .seek limit =>
        let run := leg.ahead.run
        .firstOf
          (fun p => (walk s (some t.kind) ts leg.ahead.reach (p + run.length)).prepend
            (⟨t, i, p⟩ :: ((ts.take leg.ahead.gap).map (.idle p) ++ Stride.spell p run)))
          false (sitesWithin s.chars run i limit)

/-- The way a search goes that holds some tokens against a subject from position `i` on. -/
def route (s : Subject) (before : Option Kind) (ts : List Token) (i : ℕ) : Outcome :=
  walk s before ts 0 i

/-- Behind the first of some things, the last one is another or that one. -/
theorem last_cons {α : Type} (f : α → Kind) (before : Option Kind) (a : α) (as : List α) :
    ((a :: as).getLast?.map f).or before = (as.getLast?.map f).or (some (f a)) := by
  rw [List.getLast?_cons]
  cases as.getLast? <;> rfl

/-- Passing tokens over leads to those behind them. -/
theorem walk_append (s : Subject) (before : Option Kind) (us ts : List Token) (i : ℕ) :
    walk s before (us ++ ts) us.length i =
      route s ((us.getLast?.map Token.kind).or before) ts i := by
  induction us generalizing before with
  | nil => rfl
  | cons u us ih =>
    rw [List.cons_append, List.length_cons, walk, ih, last_cons]

/-- Behind a run of literals, the kind before is a literal. -/
theorem walk_reach (s : Subject) (before : Option Kind) {ts : List Token} (i : ℕ)
    (h : (Outlook.ofTokens ts).run ≠ []) :
    walk s before ts (Outlook.ofTokens ts).reach i =
      route s (some .literal) (ts.drop (Outlook.ofTokens ts).reach) i := by
  have hw := walk_append s before (ts.take (Outlook.ofTokens ts).reach)
    (ts.drop (Outlook.ofTokens ts).reach) i
  rw [List.take_append_drop, List.length_take, Nat.min_eq_left (Outlook.reach_le h),
    Outlook.take_reach, List.getLast?_append, List.getLast?_map] at hw
  cases hr : (Outlook.ofTokens ts).run.getLast? with
  | none => exact absurd (List.getLast?_eq_none_iff.mp hr) h
  | some c => rw [hw, hr]; rfl

/-- What a token does decides how its route goes on. -/
theorem route_cons {s : Subject} {i : ℕ} {c : Char} (hc : s.chars[i]? = some c)
    (before : Option Kind) (t : Token) (ts : List Token) :
    route s before (t :: ts) i =
      match (Leg.facing s before t ts).move s i c with
      | .stuck => .failed
      | .yield => (route s (some t.kind) ts i).prepend [.idle i t]
      | .pass | .take | .trail => (route s (some t.kind) ts (i + 1)).prepend [⟨t, i, i + 1⟩]
      | .jump stop => (route s (some t.kind) ts stop).prepend [⟨t, i, stop⟩]
      | .seek limit =>
        .firstOf
          (fun p => (route s (some .literal) (ts.drop (Outlook.ofTokens ts).reach)
            (p + (Outlook.ofTokens ts).run.length)).prepend
              (⟨t, i, p⟩ :: ((ts.take (Outlook.ofTokens ts).gap).map (.idle p) ++
                Stride.spell p (Outlook.ofTokens ts).run)))
          false (sitesWithin s.chars (Outlook.ofTokens ts).run i limit) := by
  rw [route, walk, hc]
  cases hm : (Leg.facing s before t ts).move s i c with
  | seek limit =>
    simp only [hm]
    have hr := (Leg.of_move_seek hm).1
    simp only [Leg.facing, walk_reach s _ _ hr]
  | _ => simp only [hm, route]

/-- At the end of the text, the tokens that are left must all be able to take nothing. -/
theorem route_of_size_le {s : Subject} {i : ℕ} (hi : s.size ≤ i) (before : Option Kind)
    (ts : List Token) :
    route s before ts i =
      if ts.all fun t => t.kind.isNullable then .matched (ts.map (.idle i)) else .failed := by
  cases ts with
  | nil => rw [route, walk, if_neg (Nat.not_lt.mpr hi)]; rfl
  | cons t ts =>
    have hc : s.chars[i]? = none := Array.getElem?_eq_none hi
    rw [route, walk, hc]
    simp only [Leg.isSkippable, Leg.facing, Outlook.skippable_ofTokens, List.all_cons]
    rfl

theorem isMatched_route_of_size_le {s : Subject} {i : ℕ} (hi : s.size ≤ i) (before : Option Kind)
    (ts : List Token) :
    (route s before ts i).isMatched ↔ ∀ t ∈ ts, t.kind.isNullable := by
  rw [route_of_size_le hi, ← List.all_eq_true]
  split
  · next hn => exact iff_of_true rfl hn
  · next hn => exact iff_of_false nofun hn

theorem route_nil {s : Subject} {i : ℕ} (hi : i < s.size) (before : Option Kind) :
    route s before [] i = .failed := by
  rw [route, walk, if_pos hi]

end Search

/-! ### What every route is like -/

/-- The strides that lead through a subject from position `i` on, one for each token. -/
inductive Course (s : Subject) : List Token → ℕ → List Stride → Prop
  /-- The tokens that are left when the text ends stand for nothing. -/
  | ended {ts : List Token} {i : ℕ} (hi : s.size ≤ i) (null : ∀ t ∈ ts, t.kind.isNullable) :
    Course s ts i (ts.map (.idle i))
  /-- A literal or a separator stands for its character. -/
  | pass {t : Token} {ts : List Token} {i : ℕ} {c : Char} {path : List Stride}
    (hc : s.chars[i]? = some c) (ht : t = .literal c ∨ t = .separator c)
    (rest : Course s ts (i + 1) path) : Course s (t :: ts) i (⟨t, i, i + 1⟩ :: path)
  /-- A `?` lets the literal behind it go first. -/
  | yield {ts : List Token} {i : ℕ} {path : List Stride} (rest : Course s ts i path) :
    Course s (.question :: ts) i (.idle i .question :: path)
  /-- A `?` or `+` takes any character but the separator. -/
  | take {t : Token} {ts : List Token} {i : ℕ} {c : Char} {path : List Stride}
    (hc : s.chars[i]? = some c) (ht : t = .question ∨ t = .plus) (hs : s.separator ≠ some c)
    (rest : Course s ts (i + 1) path) : Course s (t :: ts) i (⟨t, i, i + 1⟩ :: path)
  /-- A star goes on to some position, the single star not across a separator. -/
  | jump {t : Token} {ts : List Token} {i stop : ℕ} {path : List Stride} (ht : t.kind.isStar)
    (le : i ≤ stop) (le_size : stop ≤ s.size)
    (clear : t = .star → ∀ k, i ≤ k → k < stop → s.chars[k]? ≠ s.separator)
    (rest : Course s ts stop path) : Course s (t :: ts) i (⟨t, i, stop⟩ :: path)
  /-- A double star goes back onto a separator, if just so many are left as are wanted. -/
  | back {ts : List Token} {stop k : ℕ} {path : List Stride}
    (run : (Outlook.ofTokens ts).run = []) (wanted : (Outlook.ofTokens ts).separators = k + 1)
    (hat : s.separatorFromEnd k = some stop) (rest : Course s ts stop path) :
    Course s (.doubleStar :: ts) (stop + 1) (⟨.doubleStar, stop + 1, stop⟩ :: path)
  /-- A star goes on to an occurrence of the next run, and the tokens in between stand for
      nothing. -/
  | seek {t : Token} {us ts : List Token} {run : List Char} {i p : ℕ} {path : List Stride}
    (ht : t.kind.isStar) (hu : ∀ u ∈ us, u.literal? = none) (hr : run ≠ []) (le : i ≤ p)
    (occurs : Subject.occursAt s.chars run p)
    (clear : t = .star → us = [] ∧ ∀ k, i ≤ k → k < p → s.chars[k]? ≠ s.separator)
    (rest : Course s ts (p + run.length) path) :
    Course s (t :: (us ++ (run.map .literal ++ ts))) i
      (⟨t, i, p⟩ :: (us.map (.idle p) ++ (Stride.spell p run ++ path)))

namespace Search

open Subject (ofChars)

variable {separator : Option Char} {cs : Array Char}

/-- A jump ends within the text. -/
theorem jump_le_size {before : Option Kind} {t : Token} {ts : List Token} {i stop : ℕ} {c : Char}
    (h : (Leg.facing (ofChars separator cs) before t ts).move (ofChars separator cs) i c =
      .jump stop) (hi : i ≤ cs.size) : stop ≤ cs.size := by
  rcases Leg.of_move_jump h with ⟨-, -, rfl⟩ | ⟨-, -, -, rfl | rfl | ⟨k, -, hat, -⟩⟩
  · exact (Subject.endsSegment _ hi).le_size
  · exact le_rfl
  · exact hi
  · exact (Subject.separatorFromEnd_spec hat).1.le

/-- What is sought ends within the text. -/
theorem seek_le_size {before : Option Kind} {t : Token} {ts : List Token} {i limit : ℕ} {c : Char}
    (h : (Leg.facing (ofChars separator cs) before t ts).move (ofChars separator cs) i c =
      .seek limit) (hi : i ≤ cs.size) : limit ≤ cs.size := by
  rcases (Leg.of_move_seek h).2 with ⟨-, -, rfl⟩ | ⟨-, -, rfl⟩
  · exact (Subject.endsSegment _ hi).le_size
  · exact le_rfl

/-- A jump leads on, or back onto a separator when no run is left. -/
theorem jump_cases {before : Option Kind} {t : Token} {ts : List Token} {i stop : ℕ} {c : Char}
    (h : (Leg.facing (ofChars separator cs) before t ts).move (ofChars separator cs) i c =
      .jump stop) (hi : i ≤ cs.size) :
    i ≤ stop ∨ i = stop + 1 ∧ (Outlook.ofTokens ts).run = [] ∧
      ∃ k, (Outlook.ofTokens ts).separators = k + 1 ∧
        (ofChars separator cs).separatorFromEnd k = some stop := by
  rcases Leg.of_move_jump h with ⟨-, -, rfl⟩ | ⟨rfl, -, hr, rfl | rfl | ⟨k, hk, hat, hle⟩⟩
  · exact Or.inl (Subject.endsSegment separator hi).le
  · exact Or.inl hi
  · exact Or.inl le_rfl
  · rcases hle.eq_or_lt with rfl | hlt
    · exact Or.inr ⟨rfl, hr, k, hk, hat⟩
    · exact Or.inl (by omega)

theorem course_of_jump {before : Option Kind} {t : Token} {ts : List Token} {i stop : ℕ} {c : Char}
    {path : List Stride}
    (h : (Leg.facing (ofChars separator cs) before t ts).move (ofChars separator cs) i c =
      .jump stop) (hi : i ≤ cs.size) (rest : Course (ofChars separator cs) ts stop path) :
    Course (ofChars separator cs) (t :: ts) i (⟨t, i, stop⟩ :: path) := by
  have ht := Leg.isStar_of_move (Or.inl h)
  rcases jump_cases h hi with hle | ⟨rfl, hr, k, hk, hat⟩
  · refine .jump ht hle (jump_le_size h hi) ?_ rest
    rintro rfl
    rcases Leg.of_move_jump h with ⟨-, -, rfl⟩ | ⟨hd, -⟩
    · exact (Subject.endsSegment separator hi).ne_separator
    · cases hd
  · obtain rfl : t = .doubleStar := by
      rcases Leg.of_move_jump h with ⟨-, -, he⟩ | ⟨hd, -⟩
      · have := (Subject.endsSegment separator hi).le
        omega
      · exact hd
    exact .back hr hk hat rest

theorem course_of_seek {before : Option Kind} {t : Token} {ts : List Token} {i limit p : ℕ}
    {c : Char} {path : List Stride}
    (h : (Leg.facing (ofChars separator cs) before t ts).move (ofChars separator cs) i c =
      .seek limit) (hi : i ≤ cs.size)
    (hp : p ∈ sitesWithin cs (Outlook.ofTokens ts).run i limit)
    (rest : Course (ofChars separator cs) (ts.drop (Outlook.ofTokens ts).reach)
      (p + (Outlook.ofTokens ts).run.length) path) :
    Course (ofChars separator cs) (t :: ts) i (⟨t, i, p⟩ ::
      ((ts.take (Outlook.ofTokens ts).gap).map (.idle p) ++
        Stride.spell p (Outlook.ofTokens ts).run ++ path)) := by
  obtain ⟨hip, -, hocc, hlim⟩ := mem_sitesWithin.mp hp
  obtain ⟨hr, hm⟩ := Leg.of_move_seek h
  have clear : t = .star → ts.take (Outlook.ofTokens ts).gap = [] ∧
      ∀ k, i ≤ k → k < p → (ofChars separator cs).chars[k]? ≠ separator := by
    rintro rfl
    rcases hm with ⟨-, hg, rfl⟩ | ⟨hd, -⟩
    · have hseg := Subject.endsSegment separator hi
      exact ⟨by rw [hg, List.take_zero], fun k hk hlt => hseg.ne_separator k hk (by omega)⟩
    · cases hd
  have := Course.seek (Leg.isStar_of_move (Or.inr h)) (fun u => Outlook.literal?_of_mem_gap) hr hip
    hocc clear rest
  rwa [← Outlook.drop_gap, List.take_append_drop, ← List.append_assoc] at this

/-- A search that succeeds has gone a course. -/
theorem course_of_route (before : Option Kind) {ts : List Token} {i : ℕ} {path : List Stride}
    (h : route (ofChars separator cs) before ts i = .matched path) (hi : i ≤ cs.size) :
    Course (ofChars separator cs) ts i path := by
  rcases hi.eq_or_lt with rfl | hlt
  · have hs : (ofChars separator cs).size ≤ cs.size := le_rfl
    rw [route_of_size_le hs] at h
    split at h
    · next hn =>
      obtain rfl := Outcome.matched.inj h
      exact .ended hs (List.all_eq_true.mp hn)
    · cases h
  · match ts with
    | [] => cases (route_nil hlt before).symm.trans h
    | t :: ts =>
      have hc : (ofChars separator cs).chars[i]? = some cs[i] := Array.getElem?_eq_getElem hlt
      rw [route_cons hc] at h
      cases hm : (Leg.facing (ofChars separator cs) before t ts).move (ofChars separator cs) i cs[i]
        with
      | stuck => rw [hm] at h; cases h
      | yield =>
        rw [hm, Outcome.prepend_eq_matched] at h
        obtain ⟨path', h', rfl⟩ := h
        obtain ⟨rfl, -⟩ := Leg.of_move_yield hm
        exact .yield (course_of_route _ h' hi)
      | pass =>
        rw [hm, Outcome.prepend_eq_matched] at h
        obtain ⟨path', h', rfl⟩ := h
        exact .pass hc ((Leg.of_move_pass hm).imp_right And.left) (course_of_route _ h' hlt)
      | take =>
        rw [hm, Outcome.prepend_eq_matched] at h
        obtain ⟨path', h', rfl⟩ := h
        obtain ⟨ht, hs⟩ := Leg.of_move_take hm
        exact .take hc ht hs (course_of_route _ h' hlt)
      | trail =>
        rw [hm, Outcome.prepend_eq_matched] at h
        obtain ⟨path', h', rfl⟩ := h
        exact .pass hc (Or.inr (Leg.of_move_trail hm).1) (course_of_route _ h' hlt)
      | jump stop =>
        rw [hm, Outcome.prepend_eq_matched] at h
        obtain ⟨path', h', rfl⟩ := h
        exact course_of_jump hm hi (course_of_route _ h' (jump_le_size hm hi))
      | seek limit =>
        rw [hm] at h
        obtain ⟨p, hp, h⟩ := Outcome.exists_of_firstOf_eq_matched h
        rw [Outcome.prepend_eq_matched] at h
        obtain ⟨path', h', rfl⟩ := h
        have hle := (mem_sitesWithin.mp hp).2.2.2
        exact course_of_seek hm hi hp (course_of_route _ h' (hle.trans (seek_le_size hm hi)))
termination_by ts.length
decreasing_by all_goals (simp only [List.length_cons, List.length_drop]; omega)

end Search

end Wildcard
