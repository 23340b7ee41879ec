import Wildcard.Proofs.Window

/-! A plain text in front of a pattern.

    A text without wildcards and escapes compiles to tokens that stand for themselves, and behind it
    the reader is where it was in the beginning. So the pattern behind such a prefix compiles to
    what it compiles to alone. A text matches both together only if it begins with the prefix, and
    from there the search goes as it would go in the rest alone, only so much further on.

    A star across segments is the one token that looks back: it may go back onto a separator right
    before it. So the prefix must not end with one:

        pattern  a / b  ** / c        text  a / b  x / c
                 └ a ┘  └ alone ┘           └ a ┘  position a + i  =  position i alone -/

namespace Wildcard

open Subject (ofChars)

/-! ### Reading a plain text -/

namespace Token

variable {separator : Option Char}

/-- The token of a character without a meaning of its own. -/
def ofPlain (separator : Option Char) (c : Char) : Token :=
  if separator = some c then .separator c else .literal c

@[simp]
theorem symbol_ofPlain (c : Char) : (ofPlain separator c).symbol = c := by
  rw [ofPlain]
  split <;> rfl

@[simp]
theorem isWildcard_ofPlain (c : Char) : (ofPlain separator c).isWildcard = false := by
  rw [ofPlain]
  split <;> rfl

theorem map_symbol_ofPlain (us : List Char) : (us.map (ofPlain separator)).map symbol = us := by
  simp [List.map_map, Function.comp_def]

theorem isWildcard_of_mem_map_ofPlain {us : List Char} {t : Token}
    (h : t ∈ us.map (ofPlain separator)) : t.isWildcard = false := by
  obtain ⟨c, -, rfl⟩ := List.mem_map.mp h
  exact isWildcard_ofPlain c

theorem isStar_of_not_isWildcard {t : Token} (h : t.isWildcard = false) :
    t.kind.isStar = false := by
  cases t <;> first | rfl | cases h

theorem isNullable_of_not_isWildcard {t : Token} (h : t.isWildcard = false) :
    t.kind.isNullable = false := by
  cases t <;> first | rfl | cases h

/-- What stands for itself is not merged. -/
theorem mergeStars_append_plain {us : List Token} (plain : ∀ u ∈ us, u.isWildcard = false)
    (ts : List Token) : mergeStars (us ++ ts) = us ++ mergeStars ts := by
  induction us with
  | nil => rfl
  | cons u us ih =>
    obtain ⟨hu, hus⟩ := List.forall_mem_cons.mp plain
    have hstar := isStar_of_not_isWildcard hu
    rw [List.cons_append, mergeStars_cons, ih hus, List.cons_append]
    cases us ++ mergeStars ts with
    | nil => rfl
    | cons v vs => simp [push, hstar]

end Token

namespace Slot

variable {separator : Option Char} {before : Context} {c : Char}

/-- A character without a meaning of its own leads back to the first state, but for an escape. -/
theorem next_plain (hb : before ≠ .escaped) (hc : isMetacharacter c = false) :
    before.next separator c = .plain := by
  simp only [isMetacharacter, Bool.or_eq_false_iff, decide_eq_false_iff_not] at hc
  obtain ⟨⟨⟨star, -⟩, -⟩, escape⟩ := hc
  simp [Context.next, hb, escape, star]

theorem classify_plain (hb : before ≠ .escaped) (hc : isMetacharacter c = false)
    (after : Option Char) : classify separator before c after = .live (.ofPlain separator c) := by
  simp only [isMetacharacter, Bool.or_eq_false_iff, decide_eq_false_iff_not] at hc
  obtain ⟨⟨⟨star, question⟩, plus⟩, escape⟩ := hc
  simp only [classify, Token.ofPlain, hb, escape, star, question, plus, if_false]
  split <;> rfl

/-- Behind a plain text the reader is where it was. -/
theorem read_append_plain (separator : Option Char) {us : List Char}
    (plain : ∀ c ∈ us, isMetacharacter c = false) (cs : List Char) :
    read separator .plain (us ++ cs) =
      us.map (fun c => .live (.ofPlain separator c)) ++ read separator .plain cs := by
  induction us with
  | nil => rfl
  | cons c us ih =>
    obtain ⟨hc, hus⟩ := List.forall_mem_cons.mp plain
    have hb : Context.plain ≠ .escaped := nofun
    rw [List.cons_append, read, next_plain hb hc, classify_plain hb hc, ih hus, List.map_cons,
      List.cons_append]

end Slot

namespace Pattern

/-- A plain text in front adds its own tokens, and changes no other. -/
theorem tokens_plain_append {u : String} (plain : ∀ c ∈ u.toList, isMetacharacter c = false)
    (pattern : String) (separator : Option Char) :
    (compile (u ++ pattern) separator).tokens =
      u.toList.map (Token.ofPlain separator) ++ (compile pattern separator).tokens := by
  have live : (fun c => Slot.live (.ofPlain separator c)) =
      Slot.live ∘ Token.ofPlain separator := rfl
  have tokens : ∀ ts : List Token, (ts.map Slot.live).filterMap Slot.token? = ts := by
    intro ts
    rw [List.filterMap_map]
    exact List.filterMap_some
  rw [tokens_compile, tokens_compile, String.toList_append, Slot.read_append_plain separator plain,
    List.filterMap_append, live, ← List.map_map, tokens,
    Token.mergeStars_append_plain fun t => Token.isWildcard_of_mem_map_ofPlain]

end Pattern

/-! ### The text behind a prefix -/

/-- A text that ends with another one, from a position on that has no separator right before it. -/
structure Behind (separator : Option Char) (long cs : Array Char) (a : ℕ) : Prop where
  size_eq : long.size = a + cs.size
  getElem? : ∀ j, long[a + j]? = cs[j]?
  edge : ∀ j, j + 1 = a → long[j]? ≠ separator

namespace Behind

variable {separator : Option Char} {long cs : Array Char} {a i : ℕ}
  (h : Behind separator long cs a)

include h

theorem segmentStop_eq (hi : i ≤ cs.size) :
    (ofChars separator long).segmentStop (a + i) =
      a + (ofChars separator cs).segmentStop i := by
  have hs := Subject.endsSegment separator hi
  have hsize := h.size_eq
  have hstop := hs.le_size
  refine (Subject.endsSegment separator (by omega)).unique
    ⟨Nat.add_le_add_left hs.le a, by omega, fun k hk hlt => ?_, fun hlt => ?_⟩
  · obtain ⟨l, rfl⟩ : ∃ l, k = a + l := ⟨k - a, by omega⟩
    rw [h.getElem? l]
    exact hs.ne_separator l (by omega) (by omega)
  · rw [h.getElem?]
    exact hs.eq_separator (by omega)

theorem occursAt_eq (run : List Char) (i : ℕ) :
    Subject.occursAt long run (a + i) = Subject.occursAt cs run i := by
  induction run generalizing i with
  | nil => rfl
  | cons d run ih =>
    rw [Subject.occursAt, Subject.occursAt, h.getElem?, Nat.add_assoc, ih]

theorem sitesWithin_eq (run : List Char) (i limit : ℕ) :
    Search.sitesWithin long run (a + i) (a + limit) =
      (Search.sitesWithin cs run i limit).map (a + ·) := by
  have hn : long.size - (a + i) = cs.size - i := by
    rw [h.size_eq]
    omega
  rw [Search.sitesWithin, Search.sitesWithin, hn, ← List.map_add_range', List.filter_map]
  congr 1
  refine List.filter_congr fun p _ => ?_
  have hlimit : decide (a + p + run.length ≤ a + limit) = decide (p + run.length ≤ limit) :=
    decide_eq_decide.mpr (by omega)
  rw [Function.comp_apply, h.occursAt_eq, hlimit]

/-- Counted from the end, the separators of the text come first, and then those of the prefix. -/
theorem separatorFromEnd_cases (k : ℕ) :
    (ofChars separator long).separatorFromEnd k =
        ((ofChars separator cs).separatorFromEnd k).map (a + ·) ∨
      (ofChars separator cs).separatorFromEnd k = none ∧
        ∃ p < a, (ofChars separator long).separatorFromEnd k = some p := by
  have inner : ∀ p, decide (long[a + p]? = separator) = decide (cs[p]? = separator) := by
    intro p
    rw [h.getElem?]
  simp only [ofChars, Subject.separatorTable, List.getElem?_toArray, h.size_eq]
  rw [List.range_add, List.filter_append, List.filter_map, List.reverse_append, ← List.map_reverse]
  simp only [Function.comp_def, inner]
  generalize ((List.range cs.size).filter fun p => decide (cs[p]? = separator)).reverse = later
  rcases Nat.lt_or_ge k later.length with hk | hk
  · rw [List.getElem?_append_left (by rwa [List.length_map]), List.getElem?_map]
    exact Or.inl rfl
  · rw [List.getElem?_append_right (by rwa [List.length_map]), List.getElem?_eq_none hk]
    generalize hq : (((List.range a).filter fun p => decide (long[p]? = separator)).reverse)[
      k - (later.map (a + ·)).length]? = q
    cases q with
    | none => exact Or.inl rfl
    | some p =>
      have hp := List.mem_reverse.mp (List.mem_of_getElem? hq)
      exact Or.inr ⟨rfl, p, List.mem_range.mp (List.mem_filter.mp hp).1, rfl⟩

/-- A star across segments that leaves some separators goes to the same place. No separator of the
    prefix is near enough to be gone back onto. -/
theorem stop_eq (k i : ℕ) :
    (((ofChars separator long).separatorFromEnd k).filter fun stop => a + i ≤ stop + 1).getD
        (a + i) =
      a + (((ofChars separator cs).separatorFromEnd k).filter fun stop => i ≤ stop + 1).getD i := by
  rcases h.separatorFromEnd_cases k with he | ⟨hn, p, hp, he⟩
  · rw [he]
    cases (ofChars separator cs).separatorFromEnd k with
    | none => rfl
    | some p =>
      have hle : (decide (a + i ≤ a + p + 1)) = decide (i ≤ p + 1) :=
        decide_eq_decide.mpr (by omega)
      rw [Option.map_some, Option.filter_some, Option.filter_some, hle]
      split <;> rfl
  · have hsep := (Subject.separatorFromEnd_spec he).2
    have hne : p + 1 ≠ a := fun hpa => h.edge p hpa hsep
    have hfar : ¬a + i ≤ p + 1 := by omega
    rw [he, hn, Option.filter_some, decide_eq_false hfar]
    rfl

end Behind

/-! ### The search behind a prefix -/

/-- The same move, so much further on. -/
def Move.shift (a : ℕ) : Move → Move
  | .jump stop => .jump (a + stop)
  | .seek limit => .seek (a + limit)
  | move => move

namespace Outcome

/-- The same outcome, so much further on. -/
def shift (a : ℕ) : Outcome → Outcome
  | .matched path => .matched (path.map (.shift a))
  | .failed => .failed
  | .exhausted => .exhausted

theorem shift_prepend (a : ℕ) (strides : List Stride) (o : Outcome) :
    (o.prepend strides).shift a = (o.shift a).prepend (strides.map (.shift a)) := by
  cases o with
  | matched path => simp [shift, prepend]
  | failed => rfl
  | exhausted => rfl

theorem shift_firstOf {a : ℕ} {go go' : ℕ → Outcome} {ps : List ℕ}
    (h : ∀ p ∈ ps, go' (a + p) = (go p).shift a) (found : Bool) :
    (firstOf go found ps).shift a = firstOf go' found (ps.map (a + ·)) := by
  induction ps generalizing found with
  | nil => cases found <;> rfl
  | cons p ps ih =>
    obtain ⟨hp, hps⟩ := List.forall_mem_cons.mp h
    rw [List.map_cons, firstOf, firstOf, hp]
    cases go p with
    | matched path => rfl
    | failed => exact ih hps true
    | exhausted => rfl

@[simp]
theorem isMatched_shift (a : ℕ) (o : Outcome) : (o.shift a).isMatched = o.isMatched := by
  cases o <;> rfl

end Outcome

/-- Two kinds to the left of a token that mean the same to it. -/
structure Alike (before before' : Option Kind) : Prop where
  isStar : before.any Kind.isStar = before'.any Kind.isStar
  question : before = some .question ↔ before' = some .question

theorem Alike.refl (before : Option Kind) : Alike before before := ⟨rfl, Iff.rfl⟩

/-- A token that stands for itself is to its right as if there were none. -/
theorem Alike.of_not_isWildcard {t : Token} (h : t.isWildcard = false) :
    Alike none (some t.kind) := by
  cases t with
  | literal c => exact ⟨rfl, by simp [Token.kind]⟩
  | separator c => exact ⟨rfl, by simp [Token.kind]⟩
  | _ => cases h

namespace Search

variable {separator : Option Char} {long cs : Array Char} {a : ℕ}

theorem moveInSegment_behind (h : Behind separator long cs a) {leg leg' : Leg}
    (ahead : leg'.ahead = leg.ahead) {i : ℕ} (hi : i ≤ cs.size) :
    leg'.moveInSegment (ofChars separator long) (a + i) =
      (leg.moveInSegment (ofChars separator cs) i).shift a := by
  rw [Leg.moveInSegment, Leg.moveInSegment, ahead, h.segmentStop_eq hi, apply_ite (Move.shift a)]
  rfl

theorem moveAcross_behind (h : Behind separator long cs a) {leg leg' : Leg}
    (ahead : leg'.ahead = leg.ahead) (i : ℕ) :
    leg'.moveAcross (ofChars separator long) (a + i) =
      (leg.moveAcross (ofChars separator cs) i).shift a := by
  have hsize : (ofChars separator long).size = a + (ofChars separator cs).size := h.size_eq
  simp only [Leg.moveAcross, ahead, h.stop_eq, hsize, apply_ite (Move.shift a)]
  cases leg.ahead.separators <;> rfl

/-- A token does the same behind the prefix. -/
theorem move_behind (h : Behind separator long cs a) {before before' : Option Kind}
    (alike : Alike before before') (t : Token) (ts : List Token) {i : ℕ} (hi : i ≤ cs.size)
    (c : Char) :
    (Leg.facing (ofChars separator long) before' t ts).move (ofChars separator long) (a + i) c =
      ((Leg.facing (ofChars separator cs) before t ts).move
        (ofChars separator cs) i c).shift a := by
  cases t with
  | literal d => exact (apply_ite (Move.shift a) (c = d) .pass .stuck).symm
  | separator d =>
    simp only [Leg.move, Leg.facing, alike.isStar, apply_ite (Move.shift a)]
    rfl
  | question =>
    rw [Leg.move_question, Leg.move_question, apply_ite (Move.shift a), apply_ite (Move.shift a)]
    exact if_congr (and_congr_left' (not_congr alike.question.symm)) rfl rfl
  | plus => exact (apply_ite (Move.shift a) (separator = some c) .stuck .take).symm
  | star => exact moveInSegment_behind h rfl hi
  | doubleStar =>
    by_cases hs : separator.isSome
    · refine (if_pos hs).trans (Eq.trans ?_ (congrArg _ (if_pos hs).symm))
      exact moveAcross_behind h rfl i
    · refine (if_neg hs).trans (Eq.trans ?_ (congrArg _ (if_neg hs).symm))
      exact moveInSegment_behind h rfl hi

/-- Behind the prefix a search goes as it goes in the rest alone. -/
theorem route_behind (h : Behind separator long cs a) {before before' : Option Kind}
    (alike : Alike before before') (ts : List Token) {i : ℕ} (hi : i ≤ cs.size) :
    route (ofChars separator long) before' ts (a + i) =
      (route (ofChars separator cs) before ts i).shift a := by
  have hsize : (ofChars separator long).size = a + cs.size := h.size_eq
  rcases hi.eq_or_lt with rfl | hlt
  · have hend : (ofChars separator cs).size ≤ cs.size := le_rfl
    rw [route_of_size_le hsize.le, route_of_size_le hend]
    split
    · simp [Outcome.shift, Function.comp_def, Stride.shift, Stride.idle]
    · rfl
  · cases ts with
    | nil =>
      have hlong : a + i < (ofChars separator long).size := by
        rw [hsize]
        omega
      rw [route_nil hlong, route_nil hlt]
      rfl
    | cons t ts =>
      have hc : (ofChars separator cs).chars[i]? = some cs[i] := Array.getElem?_eq_getElem hlt
      have hc' : (ofChars separator long).chars[a + i]? = some cs[i] := (h.getElem? i).trans hc
      have next : ∀ {j}, j ≤ cs.size → route (ofChars separator long) (some t.kind) ts (a + j) =
          (route (ofChars separator cs) (some t.kind) ts j).shift a :=
        route_behind h (.refl _) ts
      rw [route_cons hc, route_cons hc', move_behind h alike t ts hi]
      cases hm : (Leg.facing (ofChars separator cs) before t ts).move (ofChars separator cs) i cs[i]
        with
      | stuck => rfl
      | yield =>
        dsimp only [Move.shift]
        rw [next hi, Outcome.shift_prepend]
        rfl
      | pass =>
        dsimp only [Move.shift]
        rw [Nat.add_assoc, next hlt, Outcome.shift_prepend]
        rfl
      | take =>
        dsimp only [Move.shift]
        rw [Nat.add_assoc, next hlt, Outcome.shift_prepend]
        rfl
      | trail =>
        dsimp only [Move.shift]
        rw [Nat.add_assoc, next hlt, Outcome.shift_prepend]
        rfl
      | jump stop =>
        dsimp only [Move.shift]
        rw [next (jump_le_size hm hi), Outcome.shift_prepend]
        rfl
      | seek limit =>
        dsimp only [Move.shift]
        rw [Subject.chars_ofChars, h.sitesWithin_eq]
        refine (Outcome.shift_firstOf (fun p hp => ?_) false).symm
        have hend := (mem_sitesWithin.mp hp).2.2.2.trans (seek_le_size hm hi)
        rw [Nat.add_assoc, route_behind h (.refl _) _ hend, Outcome.shift_prepend, List.map_cons,
          List.map_append, Stride.map_shift_spell, List.map_map]
        rfl
termination_by ts.length
decreasing_by all_goals (simp only [List.length_cons, List.length_drop]; omega)

end Search

/-! ### The prefix itself -/

/-- The strides of tokens that stand for themselves. -/
def Stride.plain : ℕ → List Token → List Stride
  | _, [] => []
  | i, t :: ts => ⟨t, i, i + 1⟩ :: plain (i + 1) ts

theorem Stride.map_token_plain (i : ℕ) (ts : List Token) : (plain i ts).map token = ts := by
  induction ts generalizing i with
  | nil => rfl
  | cons t ts ih => rw [plain, List.map_cons, ih]

namespace Search

variable {separator : Option Char} {cs : Array Char} {us : List Token}
  (plain : ∀ u ∈ us, u.isWildcard = false) (ts : List Token)

include plain

/-- A search goes through a text that begins with the prefix, and then on. -/
theorem route_plain_append (before : Option Kind) {i : ℕ} {rest : List Char}
    (hd : cs.toList.drop i = us.map Token.symbol ++ rest) :
    route (ofChars separator cs) before (us ++ ts) i =
      (route (ofChars separator cs) ((us.getLast?.map Token.kind).or before) ts
        (i + us.length)).prepend (Stride.plain i us) := by
  induction us generalizing before i with
  | nil =>
    have hnil : ∀ o : Outcome, o.prepend [] = o := by
      intro o
      cases o <;> rfl
    exact (hnil _).symm
  | cons u us ih =>
    obtain ⟨hu, hus⟩ := List.forall_mem_cons.mp plain
    have hc : (ofChars separator cs).chars[i]? = some u.symbol := by
      have := congrArg List.head? hd
      rwa [List.head?_drop, Array.getElem?_toList] at this
    have hrest : cs.toList.drop (i + 1) = us.map Token.symbol ++ rest := by
      rw [← List.tail_drop, hd]
      rfl
    have hprepend : ∀ o : Outcome, (o.prepend (Stride.plain (i + 1) us)).prepend [⟨u, i, i + 1⟩] =
        o.prepend (Stride.plain i (u :: us)) := by
      intro o
      cases o <;> rfl
    rw [List.cons_append, route_cons_plain hc before hu, if_pos rfl, ih hus _ hrest, hprepend,
      last_cons, List.length_cons, Nat.add_right_comm, Nat.add_assoc]

/-- A search succeeds only in a text that begins with the prefix. -/
theorem isPrefix_of_isMatched (before : Option Kind) {i : ℕ} (hi : i ≤ cs.size)
    (h : (route (ofChars separator cs) before (us ++ ts) i).isMatched) :
    us.map Token.symbol <+: cs.toList.drop i := by
  induction us generalizing before i with
  | nil => exact List.nil_prefix
  | cons u us ih =>
    obtain ⟨hu, hus⟩ := List.forall_mem_cons.mp plain
    rcases hi.eq_or_lt with rfl | hlt
    · have hend : (ofChars separator cs).size ≤ cs.size := le_rfl
      rw [List.cons_append, route_of_size_le hend, List.all_cons,
        Token.isNullable_of_not_isWildcard hu] at h
      cases h
    · have hc : (ofChars separator cs).chars[i]? = some cs[i] := Array.getElem?_eq_getElem hlt
      rw [List.cons_append, route_cons_plain hc before hu] at h
      split at h
      · next he =>
        rw [Outcome.isMatched_prepend] at h
        rw [List.drop_eq_getElem_cons (Array.length_toList ▸ hlt), List.map_cons,
          List.cons_prefix_cons, Array.getElem_toList]
        exact ⟨he.symm, ih hus _ hlt h⟩
      · cases h

end Search

/-! ### What is marked behind a prefix -/

/-- A set of positions that is another one, so much further on. -/
structure Positions.Shifted (a : ℕ) (M M' : Positions) : Prop where
  eq : ∀ p, M' (a + p) = M p
  below : ∀ p < a, M' p = false

namespace Positions.Shifted

variable {a : ℕ} {M M' : Positions}

theorem add (h : Shifted a M M') (start stop : ℕ) :
    Shifted a (M.add start stop) (M'.add (a + start) (a + stop)) where
  eq p := by
    rw [Bool.eq_iff_iff, add_apply, add_apply, h.eq]
    exact or_congr_right (by omega)
  below p hp := by
    rw [← Bool.not_eq_true, add_apply, h.below p hp]
    rintro (hf | hle)
    · cases hf
    · omega

/-- A stride marks the same, so much further on. -/
theorem mark (h : Shifted a M M') {before before' : Option Kind}
    (hb : before.any Kind.isStar = before'.any Kind.isStar) (q : Stride) :
    Shifted a (q.mark before M) ((q.shift a).mark before' M') := by
  have trail : (0 < q.start ∧ M (q.start - 1)) ↔
      (0 < (q.shift a).start ∧ M' ((q.shift a).start - 1)) := by
    change _ ↔ (0 < a + q.start ∧ M' (a + q.start - 1))
    rcases Nat.eq_zero_or_pos q.start with hz | hpos
    · refine iff_of_false (fun hq => by omega) fun hq => ?_
      have hlt : a + q.start - 1 < a := by omega
      rw [h.below _ hlt] at hq
      cases hq.2
    · rw [Nat.add_sub_assoc hpos, h.eq]
      exact and_congr_left fun _ => by omega
  by_cases hw : q.token.isWildcard
  · rw [Stride.mark_of_isWildcard before hw,
      Stride.mark_of_isWildcard before' (show (q.shift a).token.isWildcard from hw)]
    exact h.add q.start q.stop
  · rw [Stride.mark, Stride.mark, if_neg hw, if_neg (show ¬(q.shift a).token.isWildcard from hw),
      hb]
    by_cases hs : q.token.kind = .separator ∧ before'.any Kind.isStar
    · rw [if_pos hs, if_pos (show (q.shift a).token.kind = _ ∧ _ from hs)]
      by_cases ht : 0 < q.start ∧ M (q.start - 1)
      · rw [if_pos ht, if_pos (trail.mp ht)]
        exact h.add q.start q.stop
      · rw [if_neg ht, if_neg (mt trail.mpr ht)]
        exact h
    · rw [if_neg hs, if_neg (show ¬((q.shift a).token.kind = _ ∧ _) from hs)]
      exact h

theorem replay (h : Shifted a M M') {before before' : Option Kind}
    (hb : before.any Kind.isStar = before'.any Kind.isStar) (path : List Stride) :
    Shifted a (replay before path M) (Wildcard.replay before' (path.map (.shift a)) M') := by
  induction path generalizing before before' M M' with
  | nil => exact h
  | cons q path ih => exact ih (h.mark hb q) rfl

/-- What is picked behind the prefix is what is picked in the rest alone. -/
theorem pick_append_eq (h : Shifted a M M') {us : List Char} (hlen : us.length = a)
    (cs : List Char) : pick M' (us ++ cs) = pick M cs := by
  have hnone : pick M' us = [] := pick_of_forall_not fun p hp => h.below p (hlen ▸ hp)
  rw [pick_append, hnone, List.nil_append]
  exact pick_congr fun p _ => by rw [hlen, h.eq]

end Positions.Shifted

section

variable {us : List Token} (plain : ∀ u ∈ us, u.isWildcard = false)

include plain

/-- The kind before what comes behind a prefix is that of a token that stands for itself, or there
    is none. -/
theorem Alike.getLast? : Alike none ((us.getLast?.map Token.kind).or none) := by
  cases hlast : us.getLast? with
  | none => exact .refl none
  | some u => exact .of_not_isWildcard (plain u (List.mem_of_getLast? hlast))

/-- A prefix marks nothing, and what comes behind it marks the same, so much further on. -/
theorem pick_replay_plain {xs : List Char} (hlen : xs.length = us.length) (path : List Stride)
    (cs : List Char) :
    pick (replay none (Stride.plain 0 us ++ path.map (.shift us.length)) fun _ => false)
        (xs ++ cs) =
      pick (replay none path fun _ => false) cs := by
  have hnone : replay none (Stride.plain 0 us) (fun _ => false) = fun _ => false := by
    refine replay_plain (by simp) (fun r hr => plain _ ?_) _
    rw [← Stride.map_token_plain 0 us]
    exact List.mem_map_of_mem hr
  have hlast : ((Stride.plain 0 us).getLast?.map fun r => r.token.kind).or none =
      (us.getLast?.map Token.kind).or none := by
    conv_rhs => rw [← Stride.map_token_plain 0 us, List.getLast?_map, Option.map_map]
    rfl
  have hshift : Positions.Shifted us.length (fun _ => false) fun _ => false :=
    ⟨fun _ => rfl, fun _ _ => rfl⟩
  rw [replay_append, hnone, hlast]
  exact (hshift.replay (Alike.getLast? plain).isStar path).pick_append_eq hlen cs

end

/-! ### Patterns behind a prefix -/

theorem behind_append {separator : Option Char} {us : List Char}
    (edge : ∀ c, separator = some c → us.getLast? ≠ some c) (cs : List Char) :
    Behind separator (us ++ cs).toArray cs.toArray us.length where
  size_eq := by simp
  getElem? j := by
    rw [List.getElem?_toArray, List.getElem?_toArray, List.getElem?_append_right (by omega),
      Nat.add_sub_cancel_left]
  edge j hj := by
    have hlt : j < us.length := by omega
    have hlast : us.getLast? = some us[j] := by
      rw [List.getLast?_eq_getElem?, ← hj, Nat.add_sub_cancel, List.getElem?_eq_getElem hlt]
    intro he
    rw [List.getElem?_toArray, List.getElem?_append_left hlt, List.getElem?_eq_getElem hlt] at he
    exact edge _ he.symm hlast

namespace Pattern

section

variable {separator : Option Char} {u : String}
  (plain : ∀ c ∈ u.toList, isMetacharacter c = false)

include plain

/-- A text that matches begins with the plain text in front of the pattern. -/
theorem exists_append_of_isMatch {pattern text : String}
    (h : (compile (u ++ pattern) separator).isMatch text) : ∃ t, text = u ++ t := by
  have hplain : ∀ t ∈ u.toList.map (Token.ofPlain separator), t.isWildcard = false :=
    fun t => Token.isWildcard_of_mem_map_ofPlain
  have hp : (compile (u ++ pattern) separator).tokens = _ :=
    tokens_plain_append plain pattern separator
  rw [isMatch_eq, route, hp] at h
  have hpre := Search.isPrefix_of_isMatched hplain _ none (Nat.zero_le _) h
  rw [Token.map_symbol_ofPlain, List.drop_zero] at hpre
  obtain ⟨rest, hrest⟩ := hpre
  refine ⟨String.ofList rest, String.toList_inj.mp ?_⟩
  rw [String.toList_append, String.toList_ofList]
  exact hrest.symm

/-- The way through a text behind the prefix is the way through the text alone, so much further
    on. -/
theorem route_append (edge : ∀ c, separator = some c → u.toList.getLast? ≠ some c)
    (pattern t : String) :
    (compile (u ++ pattern) separator).route (u ++ t) =
      (((compile pattern separator).route t).shift u.toList.length).prepend
        (Stride.plain 0 (u.toList.map (.ofPlain separator))) := by
  have hplain : ∀ t ∈ u.toList.map (Token.ofPlain separator), t.isWildcard = false :=
    fun t => Token.isWildcard_of_mem_map_ofPlain
  have hp : (compile (u ++ pattern) separator).tokens = _ :=
    tokens_plain_append plain pattern separator
  have hd : (u ++ t).toList.toArray.toList.drop 0 =
      (u.toList.map (Token.ofPlain separator)).map Token.symbol ++ t.toList := by
    rw [Token.map_symbol_ofPlain, List.drop_zero, String.toList_append]
  have hrest := Search.route_behind (behind_append edge t.toList) (Alike.getLast? hplain)
    (compile pattern separator).tokens (Nat.zero_le t.toList.toArray.size)
  rw [Nat.add_zero] at hrest
  rw [route, hp, Search.route_plain_append hplain _ none hd, List.length_map, Nat.zero_add,
    String.toList_append]
  exact congrArg _ hrest

end

/-- A text matches a pattern with a plain text in front only if it begins with that text, and what
    comes behind is matched and masked as by the pattern alone. -/
theorem plain_append_cancel {separator : Option Char} {u : String}
    (plain : ∀ c ∈ u.toList, isMetacharacter c = false)
    (edge : ∀ c, separator = some c → u.toList.getLast? ≠ some c) (pattern : String) :
    let p := compile (u ++ pattern) separator
    let q := compile pattern separator
    (∀ text, p.isMatch text → ∃ t, text = u ++ t) ∧
      ∀ t, p.isMatch (u ++ t) = q.isMatch t ∧ p.mask? (u ++ t) = q.mask? t := by
  intro p q
  refine ⟨fun text h => exists_append_of_isMatch plain h, fun t => ?_⟩
  have hroute : p.route (u ++ t) = ((q.route t).shift u.toList.length).prepend
      (Stride.plain 0 (u.toList.map (.ofPlain separator))) := route_append plain edge pattern t
  rw [isMatch_eq, isMatch_eq, mask?_eq, mask?_eq, hroute]
  refine ⟨by rw [Outcome.isMatched_prepend, Outcome.isMatched_shift], ?_⟩
  cases q.route t with
  | failed => rfl
  | exhausted => rfl
  | matched path =>
    have hlen : u.toList.length = (u.toList.map (Token.ofPlain separator)).length :=
      (List.length_map _).symm
    have hpick := pick_replay_plain (fun t => Token.isWildcard_of_mem_map_ofPlain) hlen path
      t.toList
    rw [← hlen] at hpick
    simp only [Outcome.shift, Outcome.prepend, Outcome.path?, Option.map_some]
    rw [String.toList_append, hpick]

/-- A star across segments right behind the prefix, which may go back in the text alone as well. -/
theorem plain_append_cancel_of_double_star :
    (∀ c ∈ "a/b".toList, isMetacharacter c = false) ∧
      (∀ c, some '/' = some c → "a/b".toList.getLast? ≠ some c) ∧
      (∀ text, (compile ("a/b" ++ "**/?c*/") (some '/')).isMatch text → ∃ t, text = "a/b" ++ t) ∧
      ∀ t, (compile ("a/b" ++ "**/?c*/") (some '/')).isMatch ("a/b" ++ t) =
          (compile "**/?c*/" (some '/')).isMatch t ∧
        (compile ("a/b" ++ "**/?c*/") (some '/')).mask? ("a/b" ++ t) =
          (compile "**/?c*/" (some '/')).mask? t :=
  have plain : ∀ c ∈ "a/b".toList, isMetacharacter c = false := by
    simp [isMetacharacter, escapeChar]
  have edge : ∀ c, some '/' = some c → "a/b".toList.getLast? ≠ some c := by
    rintro c he
    rw [← he]
    decide
  ⟨plain, edge, plain_append_cancel plain edge "**/?c*/"⟩

end Pattern

end Wildcard
