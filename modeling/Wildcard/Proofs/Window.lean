import Wildcard.Proofs.Matching

/-! A search in one segment of a text.

    Where no star goes across segments, a search in one segment of a text goes like a search in that
    segment alone. What comes behind the segment only decides whether the search is over when it
    gets there: the way through the whole text is that through the segment, and then the way through
    the rest.

        text     . . . [segment] c . . .      search at a + j   =   search at j, and then the rest
                       a        a + n                               at a + n -/

namespace Wildcard

open Subject (ofChars)

/-- A segment of a text that begins at a position. -/
structure Window (c : Char) (cs seg : Array Char) (a : ℕ) : Prop where
  le_size : a + seg.size ≤ cs.size
  getElem? : ∀ j < seg.size, cs[a + j]? = seg[j]?
  inner : c ∉ seg
  closed : a + seg.size < cs.size → cs[a + seg.size]? = some c

namespace Window

variable {c : Char} {cs seg : Array Char} {a j : ℕ}

theorem ne_separator (h : Window c cs seg a) {d : Char} (hd : seg[j]? = some d) : c ≠ d := by
  rintro rfl
  exact h.inner (Array.mem_of_getElem? hd)

theorem segmentStop_inner (h : Window c cs seg a) (hj : j ≤ seg.size) :
    (ofChars (some c) seg).segmentStop j = seg.size := by
  refine (Subject.endsSegment (some c) hj).unique ⟨hj, le_rfl, fun k _ _ hk => ?_, fun hlt => ?_⟩
  · exact h.ne_separator hk rfl
  · exact absurd hlt (lt_irrefl _)

theorem segmentStop_outer (h : Window c cs seg a) (hj : j ≤ seg.size) :
    (ofChars (some c) cs).segmentStop (a + j) = a + seg.size := by
  have hle := h.le_size
  refine (Subject.endsSegment (some c) (by omega)).unique
    ⟨by omega, hle, fun k hk hlt hc => ?_, h.closed⟩
  obtain ⟨l, rfl⟩ : ∃ l, k = a + l := ⟨k - a, by omega⟩
  rw [h.getElem? l (by omega)] at hc
  exact h.ne_separator hc rfl

/-- Within the segment a run occurs in the text where it occurs in the segment. -/
theorem occursAt_iff (h : Window c cs seg a) {run : List Char} (hj : j + run.length ≤ seg.size) :
    Subject.occursAt cs run (a + j) = Subject.occursAt seg run j := by
  induction run generalizing j with
  | nil => rfl
  | cons d run ih =>
    rw [List.length_cons] at hj
    rw [Subject.occursAt, Subject.occursAt, h.getElem? j (by omega), Nat.add_assoc,
      ih (by omega)]

/-- The places that a star tries in its segment. -/
theorem sitesWithin_eq (h : Window c cs seg a) {run : List Char} (hr : run ≠ [])
    (hj : j ≤ seg.size) :
    Search.sitesWithin cs run (a + j) (a + seg.size) =
      (Search.sitesWithin seg run j seg.size).map (a + ·) := by
  have hle := h.le_size
  have hpos := List.length_pos_of_ne_nil hr
  have hn : cs.size - (a + j) = (seg.size - j) + (cs.size - (a + seg.size)) := by omega
  have behind : (List.range' (a + j + (seg.size - j)) (cs.size - (a + seg.size))).filter (fun p =>
      Subject.occursAt cs run p && decide (p + run.length ≤ a + seg.size)) = [] := by
    rw [List.filter_eq_nil_iff]
    intro p hp
    rw [List.mem_range'_1] at hp
    rw [Bool.and_eq_true, decide_eq_true_eq]
    omega
  rw [Search.sitesWithin, hn, ← List.range'_append_1, List.filter_append, behind, List.append_nil,
    Search.sitesWithin, ← List.map_add_range', List.filter_map]
  congr 1
  refine List.filter_congr fun p hp => ?_
  rw [List.mem_range'_1] at hp
  rw [Function.comp_apply, Bool.eq_iff_iff, Bool.and_eq_true, Bool.and_eq_true, decide_eq_true_eq,
    decide_eq_true_eq]
  by_cases hfit : p + run.length ≤ seg.size
  · rw [h.occursAt_iff hfit]
    exact and_congr_right fun _ => by omega
  · exact iff_of_false (fun hp => by omega) (fun hp => hfit hp.2)

end Window

/-! ### Going on behind the segment -/

/-- The same stride, so much further on. -/
def Stride.shift (a : ℕ) (q : Stride) : Stride := ⟨q.token, a + q.start, a + q.stop⟩

theorem Stride.map_shift_spell (a p : ℕ) (run : List Char) :
    (spell p run).map (shift a) = spell (a + p) run := by
  induction run generalizing p with
  | nil => rfl
  | cons d run ih => rw [spell, List.map_cons, ih, spell]; rfl

namespace Outcome

/-- What a search in a segment makes of the way behind the segment. -/
def join (a : ℕ) (behind : List Stride) : Outcome → Outcome
  | .matched path => .matched (path.map (.shift a) ++ behind)
  | .failed => .failed
  | .exhausted => .exhausted

/-- A search goes like that in a segment and then on, if there is a way on; else there is none. -/
structure Extends (a : ℕ) (rest inner outer : Outcome) : Prop where
  matched : ∀ behind, rest = .matched behind → outer = inner.join a behind
  unmatched : rest.isMatched = false → outer.isMatched = false

namespace Extends

variable {a : ℕ} {rest inner outer : Outcome}

theorem failed : Extends a rest .failed .failed := ⟨fun _ _ => rfl, fun _ => rfl⟩

theorem prepend (h : Extends a rest inner outer) (strides : List Stride) :
    Extends a rest (inner.prepend strides) (outer.prepend (strides.map (.shift a))) where
  matched behind hb := by
    rw [h.matched behind hb]
    cases inner with
    | matched path => simp [Outcome.join, Outcome.prepend]
    | failed => rfl
    | exhausted => rfl
  unmatched hr := by rw [isMatched_prepend, h.unmatched hr]

theorem isMatched_iff (h : Extends a rest inner outer) :
    outer.isMatched ↔ inner.isMatched ∧ rest.isMatched := by
  by_cases hr : rest.isMatched
  · obtain ⟨behind, hb⟩ := Outcome.isMatched_iff.mp hr
    rw [h.matched behind hb, and_iff_left hr]
    cases inner <;> rfl
  · rw [h.unmatched ((Bool.not_eq_true _).mp hr)]
    simp [hr]

/-- A way through the text is one through the segment and one behind it. -/
theorem eq_matched (h : Extends a rest inner outer) {path : List Stride}
    (hp : outer = .matched path) :
    ∃ qs behind, inner = .matched qs ∧ rest = .matched behind ∧
      path = qs.map (.shift a) ++ behind := by
  obtain ⟨hi, hr⟩ := h.isMatched_iff.mp (Outcome.isMatched_iff.mpr ⟨path, hp⟩)
  obtain ⟨qs, rfl⟩ := Outcome.isMatched_iff.mp hi
  obtain ⟨behind, rfl⟩ := Outcome.isMatched_iff.mp hr
  exact ⟨qs, behind, rfl, rfl, Outcome.matched.inj (hp.symm.trans (h.matched behind rfl))⟩

/-- A star that tries the same places tries them with the same success. -/
theorem firstOf {go go' : ℕ → Outcome} {ps : List ℕ}
    (h : ∀ p ∈ ps, Extends a rest (go p) (go' (a + p))) (found : Bool) :
    Extends a rest (.firstOf go found ps) (.firstOf go' found (ps.map (a + ·))) where
  matched behind hb := by
    induction ps generalizing found with
    | nil => cases found <;> rfl
    | cons p ps ih =>
      obtain ⟨hp, hps⟩ := List.forall_mem_cons.mp h
      rw [List.map_cons, Outcome.firstOf, Outcome.firstOf, hp.matched behind hb]
      cases go p with
      | matched path => rfl
      | failed => exact ih hps true
      | exhausted => rfl
  unmatched hr := by
    cases ho : Outcome.firstOf go' found (ps.map (a + ·)) with
    | matched path =>
      obtain ⟨q, hq, hgo⟩ := exists_of_firstOf_eq_matched ho
      obtain ⟨p, hp, rfl⟩ := List.mem_map.mp hq
      have := (h p hp).unmatched hr
      rw [hgo] at this
      cases this
    | failed => rfl
    | exhausted => rfl

end Extends

end Outcome

namespace Search

/-- The route of a star that stays in its segment, at the end of the text as well. -/
theorem route_star {separator : Option Char} {cs : Array Char} {i : ℕ} (hi : i ≤ cs.size)
    (before : Option Kind) (ts : List Token) :
    route (ofChars separator cs) before (.star :: ts) i =
      if (Outlook.ofTokens ts).nextRun = [] then
        (route (ofChars separator cs) (some .star) ts
          ((ofChars separator cs).segmentStop i)).prepend
            [⟨.star, i, (ofChars separator cs).segmentStop i⟩]
      else
        .firstOf
          (fun p => (route (ofChars separator cs) (some .literal)
            (ts.drop (Outlook.ofTokens ts).nextRun.length)
            (p + (Outlook.ofTokens ts).nextRun.length)).prepend
              (⟨.star, i, p⟩ :: Stride.spell p (Outlook.ofTokens ts).nextRun))
          false
          (sitesWithin cs (Outlook.ofTokens ts).nextRun i ((ofChars separator cs).segmentStop i)) := by
  rcases hi.eq_or_lt with rfl | hlt
  · have hs : (ofChars separator cs).size ≤ cs.size := le_rfl
    have hstop := @Subject.segmentStop_of_size_le separator cs cs.size le_rfl
    have hnull : ((Token.star :: ts).all fun t => t.kind.isNullable) =
        ts.all fun t => t.kind.isNullable := Bool.true_and _
    rw [hstop, route_of_size_le hs, route_of_size_le hs, hnull]
    by_cases hr : (Outlook.ofTokens ts).nextRun = []
    · rw [if_pos hr]
      split <;> rfl
    · rw [if_neg hr, sitesWithin, Nat.sub_self]
      obtain ⟨d, run, hd⟩ := List.exists_cons_of_ne_nil hr
      have hts := Outlook.nextRun_append_drop ts
      rw [hd, List.map_cons, List.cons_append] at hts
      have hn : (ts.all fun t => t.kind.isNullable) = false := by
        rw [← hts]
        rfl
      rw [hn]
      rfl
  · have hc : (ofChars separator cs).chars[i]? = some cs[i] := Array.getElem?_eq_getElem hlt
    have hm : (Leg.facing (ofChars separator cs) before .star ts).move (ofChars separator cs) i
        cs[i] = (Leg.facing (ofChars separator cs) before .star ts).moveInSegment
          (ofChars separator cs) i := rfl
    rw [route_cons hc, hm]
    rcases Leg.moveInSegment_cases (Leg.facing (ofChars separator cs) before .star ts)
      (ofChars separator cs) i with ⟨hr, he⟩ | ⟨hr, he⟩
    · obtain ⟨hg, hrun⟩ := Outlook.run_eq_nextRun hr
      rw [he]
      dsimp only [Leg.facing] at hg hr hrun ⊢
      rw [if_neg hr]
      simp only [Outlook.reach, hg, hrun, Nat.zero_add, List.take_zero, List.map_nil,
        List.nil_append, Subject.chars_ofChars]
    · rw [he]
      dsimp only [Leg.facing] at hr ⊢
      rw [if_pos hr]
      rfl

variable {c : Char} {cs seg : Array Char} {a : ℕ}

/-- What comes behind the tokens of a segment: nothing, or a separator. -/
def Closes (c : Char) (ts : List Token) : Prop := ts = [] ∨ ∃ us, ts = .separator c :: us

theorem Closes.nextRun_eq {ts : List Token} (h : Closes c ts) :
    (Outlook.ofTokens ts).nextRun = [] := by
  rcases h with rfl | ⟨us, rfl⟩ <;> rfl

theorem Closes.head?_append {ts : List Token} (h : Closes c ts) (us : List Token) (d : Char) :
    (us ++ ts).head? = some (.literal d) ↔ us.head? = some (.literal d) := by
  cases us with
  | nil => rcases h with rfl | ⟨us, rfl⟩ <;> simp
  | cons u us => rfl

/-- Whatever stands before what closes a segment, the search goes on in one way. -/
theorem Closes.route_eq {ts : List Token} (h : Closes c ts) {s : Subject} {i : ℕ}
    (before before' : Option Kind) : route s before ts i = route s before' ts i := by
  rcases h with rfl | ⟨us, rfl⟩
  · rfl
  · cases hc : s.chars[i]? with
    | none =>
      have hi : s.size ≤ i := Array.getElem?_eq_none_iff.mp hc
      rw [route_of_size_le hi, route_of_size_le hi]
    | some d =>
      rw [route_cons_plain hc before rfl, route_cons_plain hc before' rfl]

/-- What closes a segment does not fit before its end. -/
theorem Closes.route_eq_failed {ts : List Token} (hts : Closes c ts) (h : Window c cs seg a)
    (before : Option Kind) {j : ℕ} (hj : j < seg.size) :
    route (ofChars (some c) cs) before ts (a + j) = .failed := by
  have hle := h.le_size
  rcases hts with rfl | ⟨us, rfl⟩
  · exact route_nil (show a + j < cs.size by omega) before
  · have hd : seg[j]? = some seg[j] := Array.getElem?_eq_getElem hj
    have hc : (ofChars (some c) cs).chars[a + j]? = some seg[j] := (h.getElem? j hj).trans hd
    have hne : seg[j] ≠ (Token.separator c).symbol := (h.ne_separator hd).symm
    rw [route_cons_plain hc before rfl, if_neg hne]

/-- The tokens that take one character of a segment. -/
inductive Single (c : Char) : Token → Prop
  | question : Single c .question
  | plus : Single c .plus
  | literal {d : Char} (h : c ≠ d) : Single c (.literal d)

theorem Single.not_nullable {u : Token} (h : Single c u) : u.kind.isNullable = false := by
  cases h <;> rfl

section

variable {ts us : List Token} {u : Token} {before before' : Option Kind} {j : ℕ}

/-- A token that takes one character does the same in the text as in the segment. -/
theorem Single.move_eq (hu : Single c u) (hts : Closes c ts)
    (hb : before = some .question ↔ before' = some .question) {d : Char} :
    (Leg.facing (ofChars (some c) seg) before u us).move (ofChars (some c) seg) j d =
      (Leg.facing (ofChars (some c) cs) before' u (us ++ ts)).move (ofChars (some c) cs) (a + j)
        d := by
  cases hu with
  | question =>
    rw [Leg.move_question, Leg.move_question]
    exact if_congr (and_congr (not_congr hb) (hts.head?_append us d).symm) rfl rfl
  | plus => rfl
  | literal h => rfl

/-- At the end of a segment such a token is stuck. -/
theorem Single.route_eq_failed (hu : Single c u) (hts : Closes c ts) (h : Window c cs seg a)
    (hus : us.head? ≠ some (.literal c)) :
    route (ofChars (some c) cs) before (u :: (us ++ ts)) (a + seg.size) = .failed := by
  rcases h.le_size.eq_or_lt with he | hlt
  · rw [route_of_size_le (show (ofChars (some c) cs).size ≤ a + seg.size from he.ge), List.all_cons,
      hu.not_nullable]
    rfl
  · have hm : (Leg.facing (ofChars (some c) cs) before u (us ++ ts)).move (ofChars (some c) cs)
        (a + seg.size) c = .stuck := by
      cases hu with
      | question =>
        rw [Leg.move_question, if_neg fun hq => hus ((hts.head?_append us c).mp hq.2)]
        exact if_pos rfl
      | plus => exact if_pos rfl
      | literal hd => exact if_neg hd
    rw [route_cons (h.closed hlt), hm]

end

section

variable (h : Window c cs seg a) {ts us : List Token} (hts : Closes c ts) {rest : Outcome}
  {before before' : Option Kind} {j : ℕ} (hj : j ≤ seg.size)

include h hts hj

theorem extends_nil
    (hrest : ∀ before, route (ofChars (some c) cs) before ts (a + seg.size) = rest) :
    Outcome.Extends a rest (route (ofChars (some c) seg) before [] j)
      (route (ofChars (some c) cs) before' ts (a + j)) := by
  rcases hj.eq_or_lt with rfl | hlt
  · rw [hrest before', route_of_size_le (show (ofChars (some c) seg).size ≤ seg.size from le_rfl)]
    exact ⟨fun behind hb => hb, id⟩
  · rw [route_nil (show j < (ofChars (some c) seg).size from hlt), hts.route_eq_failed h _ hlt]
    exact .failed

/-- A star does in the text what it does in the segment, when what it leads to does. -/
theorem extends_star
    (jump : Outcome.Extends a rest (route (ofChars (some c) seg) (some .star) us seg.size)
      (route (ofChars (some c) cs) (some .star) (us ++ ts) (a + seg.size)))
    (seek : ∀ k ≤ seg.size, Outcome.Extends a rest
      (route (ofChars (some c) seg) (some .literal)
        (us.drop (Outlook.ofTokens us).nextRun.length) k)
      (route (ofChars (some c) cs) (some .literal)
        (us.drop (Outlook.ofTokens us).nextRun.length ++ ts) (a + k))) :
    Outcome.Extends a rest (route (ofChars (some c) seg) before (.star :: us) j)
      (route (ofChars (some c) cs) before' (.star :: (us ++ ts)) (a + j)) := by
  have hle := h.le_size
  rw [route_star hj, route_star (by omega), Outlook.nextRun_append hts.nextRun_eq,
    h.segmentStop_inner hj, h.segmentStop_outer hj]
  split
  · exact jump.prepend [⟨.star, j, seg.size⟩]
  · next hn =>
    rw [h.sitesWithin_eq hn hj]
    refine .firstOf (fun p hp => ?_) false
    have hfit := (mem_sitesWithin.mp hp).2.2.2
    rw [List.drop_append_of_le_length (Outlook.length_nextRun_le us), Nat.add_assoc]
    have := (seek _ hfit).prepend (⟨.star, j, p⟩ :: Stride.spell p (Outlook.ofTokens us).nextRun)
    rwa [List.map_cons, Stride.map_shift_spell] at this

/-- So does a token that takes one character. -/
theorem extends_single {u : Token} (hu : Single c u) (hus : us.head? ≠ some (.literal c))
    (hb : before = some .question ↔ before' = some .question)
    (next : ∀ k ≤ seg.size, Outcome.Extends a rest
      (route (ofChars (some c) seg) (some u.kind) us k)
      (route (ofChars (some c) cs) (some u.kind) (us ++ ts) (a + k))) :
    Outcome.Extends a rest (route (ofChars (some c) seg) before (u :: us) j)
      (route (ofChars (some c) cs) before' (u :: (us ++ ts)) (a + j)) := by
  rcases hj.eq_or_lt with rfl | hlt
  · rw [hu.route_eq_failed hts h hus,
      route_of_size_le (show (ofChars (some c) seg).size ≤ seg.size from le_rfl), List.all_cons,
      hu.not_nullable]
    exact .failed
  · have hd : seg[j]? = some seg[j] := Array.getElem?_eq_getElem hlt
    have hc : (ofChars (some c) cs).chars[a + j]? = some seg[j] := (h.getElem? j hlt).trans hd
    rw [route_cons hd, route_cons hc, ← hu.move_eq hts hb]
    cases hm : (Leg.facing (ofChars (some c) seg) before u us).move (ofChars (some c) seg) j
        seg[j] with
    | stuck => exact .failed
    | yield => exact (next j hj).prepend [.idle j u]
    | pass => exact (next _ hlt).prepend [⟨u, j, j + 1⟩]
    | take => exact (next _ hlt).prepend [⟨u, j, j + 1⟩]
    | trail => exact (next _ hlt).prepend [⟨u, j, j + 1⟩]
    | jump stop =>
      have := Leg.isStar_of_move (Or.inl hm)
      cases hu <;> cases this
    | seek limit =>
      have := Leg.isStar_of_move (Or.inr hm)
      cases hu <;> cases this

end

/-- A search in a segment of the text goes like one in the segment alone, and then on. -/
theorem extends_route (h : Window c cs seg a) {ts : List Token} (hts : Closes c ts) {rest : Outcome}
    (hrest : ∀ before, route (ofChars (some c) cs) before ts (a + seg.size) = rest)
    {us : List Token} (hus : ∀ u ∈ us, u = .star ∨ Single c u) {before before' : Option Kind}
    (hb : before = some .question ↔ before' = some .question) {j : ℕ} (hj : j ≤ seg.size) :
    Outcome.Extends a rest (route (ofChars (some c) seg) before us j)
      (route (ofChars (some c) cs) before' (us ++ ts) (a + j)) := by
  match us with
  | [] => exact extends_nil h hts hj hrest
  | u :: us =>
    obtain ⟨hu, htail⟩ := List.forall_mem_cons.mp hus
    rcases hu with rfl | hu
    · refine extends_star h hts hj (extends_route h hts hrest htail Iff.rfl le_rfl) fun k hk => ?_
      exact extends_route h hts hrest (fun u hu => htail u (List.mem_of_mem_drop hu)) Iff.rfl hk
    · refine extends_single h hts hj hu (fun hh => ?_) hb fun k hk =>
        extends_route h hts hrest htail Iff.rfl hk
      rcases htail _ (List.mem_of_mem_head? hh) with he | hs
      · cases he
      · cases hs with
        | literal hne => exact hne rfl
termination_by us.length
decreasing_by all_goals (simp only [List.length_cons, List.length_drop]; omega)

end Search

end Wildcard
