import Mathlib.Data.List.Infix
import Wildcard.Proofs.Language

/-! A separator that does not occur.

    A separator that occurs neither in a pattern nor in a text bounds no segment there, and no
    character is it. Still it tells a star across segments how to go on. With a separator the star
    seeks the next literal run, wherever it stands, and the tokens in between stand for nothing;
    without one it seeks only a run right behind it, and takes the rest of the text if there is
    none:

        pattern  ** + a     text  a      with a separator   ** seeks "a", + stands for nothing
                                         without one        ** takes "a", nothing is left for +

    So the two agree where every such star has a literal right behind it, or none behind it at all.
    Elsewhere the pattern without a separator matches nothing. -/

namespace Wildcard

open Subject (ofChars)

/-- Every star across segments has a literal right behind it, or none behind it at all. -/
def Direct (kinds : List Kind) : Prop :=
  ∀ rest, .doubleStar :: rest <:+ kinds → rest.head? = some .literal ∨ .literal ∉ rest

theorem direct_iff {kinds : List Kind} :
    Direct kinds ↔ ∀ ks ∈ kinds.tails, ks.head? = some .doubleStar →
      ks.tail.head? = some .literal ∨ .literal ∉ ks.tail := by
  constructor
  · intro h ks hks hd
    obtain ⟨rest, rfl⟩ := List.head?_eq_some_iff.mp hd
    exact h rest ((List.mem_tails _ _).mp hks)
  · exact fun h rest hr => h (.doubleStar :: rest) ((List.mem_tails _ _).mpr hr) rfl

instance : DecidablePred Direct := fun _ => decidable_of_iff _ direct_iff.symm

namespace Direct

variable {k : Kind} {ks ls : List Kind}

theorem of_append (ks : List Kind) (h : Direct (ks ++ ls)) : Direct ls :=
  fun rest hr => h rest (hr.trans (List.suffix_append ks ls))

theorem tail (h : Direct (k :: ks)) : Direct ks := of_append [k] h

theorem of_not_mem (h : .literal ∉ ks) : Direct ks :=
  fun _ hr => Or.inr fun hl => h (hr.subset (List.mem_cons_of_mem _ hl))

/-- Only a star across segments has to be looked at. -/
theorem cons (h : Direct ks) (hk : k = .doubleStar → ks.head? = some .literal) :
    Direct (k :: ks) := by
  intro rest hr
  rcases List.suffix_cons_iff.mp hr with he | hr
  · obtain ⟨rfl, rfl⟩ := List.cons.inj he
    exact Or.inl (hk rfl)
  · exact h rest hr

theorem literals_append (h : Direct ks) (run : List Char) :
    Direct ((run.map Token.literal).map Token.kind ++ ks) := by
  induction run with
  | nil => exact h
  | cons c run ih => exact ih.cons nofun

end Direct

/-! ### Reading -/

namespace Slot

variable {c : Char}

/-- A separator that does not occur does not change how a text is read. -/
theorem read_absent {cs : List Char} (h : c ∉ cs) (before : Context) :
    read (some c) before cs = read none before cs := by
  induction cs generalizing before with
  | nil => rfl
  | cons d cs ih =>
    rw [List.mem_cons, not_or] at h
    obtain ⟨hd, hcs⟩ := h
    have hsep : (some c = some d) = False := eq_false fun he => hd (Option.some.inj he)
    have hnone : (none = some d) = False := eq_false nofun
    -- a `?` is dropped before a star, unless the separator is written as one
    have hstar : (cs.head? = some '*' ∧ some c ≠ some '*') =
        (cs.head? = some '*' ∧ none ≠ some '*') := by
      refine propext (and_congr_right fun hh => iff_of_true (fun he => ?_) nofun)
      rw [Option.some.inj he] at hcs
      exact hcs (List.mem_of_mem_head? hh)
    have hnext : Context.next (some c) before d = Context.next none before d := by
      simp only [Context.next, hsep, hnone]
    rw [read, read, hnext, ih hcs]
    simp only [classify, hsep, hnone, hstar]

end Slot

/-! ### Searching -/

namespace Outlook

/-- No run is ahead just when no literal is. -/
theorem run_eq_nil_iff {ts : List Token} :
    (ofTokens ts).run = [] ↔ ∀ t ∈ ts, t.literal? = none := by
  induction ts with
  | nil => simp [atEnd]
  | cons t ts ih =>
    rw [List.forall_mem_cons, ofTokens_cons]
    cases ht : t.literal? with
    | none => rw [run_before ht, ih, and_iff_right rfl]
    | some c =>
      obtain rfl := Token.literal?_eq_some.mp ht
      rw [before_literal]
      simp

theorem separators_eq_zero {ts : List Token} (h : ∀ d, .separator d ∉ ts) :
    (ofTokens ts).separators = 0 := by
  induction ts with
  | nil => rfl
  | cons t ts ih =>
    have ht : ∀ d, t ≠ .separator d := fun d he => h d (he ▸ List.mem_cons_self)
    rw [ofTokens_cons, separators_before ht]
    exact ih fun d hd => h d (List.mem_cons_of_mem t hd)

end Outlook

namespace Leg

variable {leg : Leg} {s : Subject} {i : ℕ}

theorem moveAcross_of_ne_nil (h : leg.ahead.run ≠ []) : leg.moveAcross s i = .seek s.size := by
  rw [moveAcross, if_neg (mt List.isEmpty_iff.mp h)]

theorem moveAcross_of_nil (h : leg.ahead.run = []) (hk : leg.ahead.separators = 0) :
    leg.moveAcross s i = .jump s.size := by
  rw [moveAcross, if_pos (List.isEmpty_iff.mpr h), hk]

end Leg

theorem Outcome.firstOf_congr {go go' : ℕ → Outcome} {ps : List ℕ} (h : ∀ p ∈ ps, go p = go' p)
    (found : Bool) : firstOf go found ps = firstOf go' found ps := by
  induction ps generalizing found with
  | nil => rfl
  | cons p ps ih =>
    obtain ⟨hp, hps⟩ := List.forall_mem_cons.mp h
    rw [firstOf, firstOf, hp, ih hps]

namespace Search

variable {c : Char} {cs : Array Char}

/-- A separator that does not occur ends no segment. -/
theorem segmentStop_absent (h : c ∉ cs) {i : ℕ} (hi : i ≤ cs.size) :
    (ofChars (some c) cs).segmentStop i = cs.size := by
  have hs := Subject.endsSegment (some c) hi
  refine hs.le_size.antisymm (Nat.le_of_not_lt fun hlt => ?_)
  exact h (Array.mem_of_getElem? (hs.eq_separator hlt))

/-- What stands behind a star across segments that has been found direct. -/
theorem literal_or_none {ts : List Token} (h : Direct (kindsOf (.doubleStar :: ts))) :
    (Outlook.ofTokens ts).nextRun ≠ [] ∨ (Outlook.ofTokens ts).run = [] := by
  rcases h (kindsOf ts) List.suffix_rfl with hl | hl
  · cases ts with
    | nil => cases hl
    | cons t ts =>
      cases t with
      | literal d => exact Or.inl (List.cons_ne_nil _ _)
      | _ => cases hl
  · refine Or.inr (Outlook.run_eq_nil_iff.mpr fun t ht => ?_)
    cases t with
    | literal d => exact absurd (List.mem_append_left _ (List.mem_map_of_mem ht)) hl
    | _ => rfl

section

variable (hc : c ∉ cs) {before : Option Kind} {t : Token} {ts : List Token} {i : ℕ} {d : Char}
  (hi : i ≤ cs.size)

include hc hi

theorem moveInSegment_absent :
    (Leg.facing (ofChars (some c) cs) before t ts).moveInSegment (ofChars (some c) cs) i =
      (Leg.facing (ofChars none cs) before t ts).moveInSegment (ofChars none cs) i := by
  rw [Leg.moveInSegment, Leg.moveInSegment, segmentStop_absent hc hi,
    Subject.segmentStop_none hi]
  rfl

omit hc in
/-- A direct star goes the same way across segments as within the one that there is. -/
theorem moveAcross_absent (plain : ∀ d, .separator d ∉ ts)
    (direct : (Outlook.ofTokens ts).nextRun ≠ [] ∨ (Outlook.ofTokens ts).run = []) :
    (Leg.facing (ofChars (some c) cs) before t ts).moveAcross (ofChars (some c) cs) i =
      (Leg.facing (ofChars none cs) before t ts).moveInSegment (ofChars none cs) i := by
  have hseg := Leg.moveInSegment_cases (Leg.facing (ofChars none cs) before t ts)
    (ofChars none cs) i
  rw [Subject.segmentStop_none hi] at hseg
  rcases direct with hr | hr
  · have hrun : (Outlook.ofTokens ts).run ≠ [] := by
      rwa [(Outlook.run_eq_nextRun hr).2]
    exact (Leg.moveAcross_of_ne_nil hrun).trans (hseg.resolve_right fun h => hr h.1).2.symm
  · have hnext : (Outlook.ofTokens ts).nextRun = [] := by
      rw [Outlook.nextRun, hr, ite_self]
    exact (Leg.moveAcross_of_nil hr (Outlook.separators_eq_zero plain)).trans
      (hseg.resolve_left fun h => h.1 hnext).2.symm

/-- A token does the same with a separator that does not occur as without one. -/
theorem move_absent (hd : cs[i]? = some d) (plain : ∀ d, .separator d ∉ ts)
    (direct : Direct (kindsOf (t :: ts))) :
    (Leg.facing (ofChars (some c) cs) before t ts).move (ofChars (some c) cs) i d =
      (Leg.facing (ofChars none cs) before t ts).move (ofChars none cs) i d := by
  have hsep : some c = some d ↔ none = some d :=
    iff_of_false (fun he => hc (Option.some.inj he ▸ Array.mem_of_getElem? hd)) nofun
  cases t with
  | literal e => rfl
  | separator e => rfl
  | question =>
    rw [Leg.move_question, Leg.move_question]
    exact if_congr Iff.rfl rfl (if_congr hsep rfl rfl)
  | plus => exact if_congr hsep rfl rfl
  | star => exact moveInSegment_absent hc hi
  | doubleStar => exact moveAcross_absent hi plain (literal_or_none direct)

end

/-- A search with a separator that does not occur goes like one without a separator. -/
theorem route_absent (hc : c ∉ cs) (before : Option Kind) {ts : List Token}
    (plain : ∀ d, .separator d ∉ ts) (direct : Direct (kindsOf ts)) {i : ℕ} (hi : i ≤ cs.size) :
    route (ofChars (some c) cs) before ts i = route (ofChars none cs) before ts i := by
  rcases hi.eq_or_lt with rfl | hlt
  · have hsize : ∀ separator, (ofChars separator cs).size ≤ cs.size := fun _ => le_rfl
    rw [route_of_size_le (hsize _), route_of_size_le (hsize _)]
  · match ts with
    | [] => rw [route_nil hlt, route_nil hlt]
    | t :: ts =>
      have hd : ∀ separator, (ofChars separator cs).chars[i]? = some cs[i] :=
        fun _ => Array.getElem?_eq_getElem hlt
      have hplain : ∀ d, .separator d ∉ ts := fun d h => plain d (List.mem_cons_of_mem t h)
      have next : ∀ {before j}, j ≤ cs.size →
          route (ofChars (some c) cs) before ts j = route (ofChars none cs) before ts j :=
        route_absent hc _ hplain direct.tail
      rw [route_cons (hd _), route_cons (hd _), move_absent hc hi (hd none) hplain direct]
      cases hm : (Leg.facing (ofChars none cs) before t ts).move (ofChars none cs) i cs[i] with
      | stuck => rfl
      | yield => dsimp only; rw [next hi]
      | pass => dsimp only; rw [next hlt]
      | take => dsimp only; rw [next hlt]
      | trail => dsimp only; rw [next hlt]
      | jump stop => dsimp only; rw [next (jump_le_size hm hi)]
      | seek limit =>
        refine Outcome.firstOf_congr (fun p hp => ?_) false
        have hend := (mem_sitesWithin.mp hp).2.2.2.trans (seek_le_size hm hi)
        have hrest : Direct (kindsOf (ts.drop (Outlook.ofTokens ts).reach)) := by
          refine Direct.of_append ((ts.take (Outlook.ofTokens ts).reach).map Token.kind) ?_
          rw [kindsOf, ← List.append_assoc, ← List.map_append, List.take_append_drop]
          exact direct.tail
        rw [route_absent hc _ (fun d h => hplain d (List.mem_of_mem_drop h)) hrest hend]
termination_by ts.length
decreasing_by all_goals (simp only [List.length_cons, List.length_drop]; omega)

theorem not_mem_kindsOf {ts : List Token} (h : ∀ t ∈ ts, t.kind.isNullable) :
    .literal ∉ kindsOf ts := by
  rw [kindsOf, List.mem_append, List.mem_map]
  rintro (⟨t, ht, he⟩ | hend)
  · cases he ▸ h t ht
  · cases List.mem_singleton.mp hend

/-- Without a separator, a search can succeed only if every star across segments is direct. -/
theorem direct_of_isMatched (before : Option Kind) {ts : List Token} {i : ℕ} (hi : i ≤ cs.size)
    (h : (route (ofChars none cs) before ts i).isMatched) : Direct (kindsOf ts) := by
  have at_end : ∀ {before ts}, (route (ofChars none cs) before ts cs.size).isMatched →
      .literal ∉ kindsOf ts := by
    intro before ts h
    have hsize : (ofChars none cs).size ≤ cs.size := le_rfl
    exact not_mem_kindsOf ((isMatched_route_of_size_le hsize before ts).mp h)
  rcases hi.eq_or_lt with rfl | hlt
  · exact .of_not_mem (at_end h)
  · match ts with
    | [] => exact .of_not_mem (by decide)
    | t :: ts =>
      have hd : (ofChars none cs).chars[i]? = some cs[i] := Array.getElem?_eq_getElem hlt
      rw [route_cons hd] at h
      cases hm : (Leg.facing (ofChars none cs) before t ts).move (ofChars none cs) i cs[i] with
      | stuck => rw [hm] at h; cases h
      | jump stop =>
        -- the star takes the rest, and then no literal can be left
        rw [hm, Outcome.isMatched_prepend] at h
        have ht := Leg.isStar_of_move (Or.inl hm)
        rcases Leg.of_move_jump hm with ⟨-, -, rfl⟩ | ⟨-, hs, -⟩
        · rw [Subject.segmentStop_none hi] at h
          refine .of_not_mem fun hl => ?_
          rcases List.mem_cons.mp hl with he | hl
          · rw [← he] at ht
            cases ht
          · exact at_end h hl
        · cases hs
      | seek limit =>
        -- the run stands right behind the star
        rw [hm] at h
        obtain ⟨p, hp, hgo⟩ := Outcome.exists_of_isMatched_firstOf h
        rw [Outcome.isMatched_prepend] at hgo
        have hend := (mem_sitesWithin.mp hp).2.2.2.trans (seek_le_size hm hi)
        have rest := direct_of_isMatched _ hend hgo
        obtain ⟨hr, ⟨-, hg, -⟩ | ⟨-, hs, -⟩⟩ := Leg.of_move_seek hm
        · have hts := Outlook.drop_gap ts
          rw [hg, List.drop_zero] at hts
          have hkinds : kindsOf ts = ((Outlook.ofTokens ts).run.map Token.literal).map Token.kind ++
              kindsOf (ts.drop (Outlook.ofTokens ts).reach) := by
            rw [kindsOf, kindsOf, ← List.append_assoc, ← List.map_append, ← hts]
          rw [kindsOf_cons, hkinds]
          refine (rest.literals_append _).cons fun _ => ?_
          obtain ⟨d, run, hrun⟩ := List.exists_cons_of_ne_nil hr
          rw [hrun]
          rfl
        · cases hs
      | _ =>
        rw [hm, Outcome.isMatched_prepend] at h
        refine (direct_of_isMatched _ (by omega) h).cons fun ht => ?_
        have hstar : t.kind.isStar := by rw [ht]; rfl
        rcases Leg.move_of_isStar hstar with ⟨_, he⟩ | ⟨_, he⟩ <;> cases hm.symm.trans he
termination_by ts.length
decreasing_by all_goals (simp only [List.length_cons, List.length_drop]; omega)

end Search

namespace Pattern

variable {c : Char} {pattern text : String}

/-- A separator that does not occur in a text does not change what the text compiles to. -/
theorem tokens_absent (hp : c ∉ pattern.toList) :
    (compile pattern (some c)).tokens = (compile pattern none).tokens := by
  rw [tokens_compile, tokens_compile, Slot.read_absent hp]

/-- A separator that occurs neither in the pattern nor in the text makes no difference, as long as
    every star across segments has a literal right behind it, or none at all. If one has not, the
    pattern matches nothing without a separator. -/
theorem agree_absent_separator (hp : c ∉ pattern.toList) (ht : c ∉ text.toList) :
    let p := compile pattern (some c)
    let q := compile pattern none
    (Direct p.kinds → p.isMatch text = q.isMatch text ∧ p.mask? text = q.mask? text) ∧
      (¬Direct p.kinds → q.isMatch text = false) := by
  intro p q
  have hkinds : p.kinds = Search.kindsOf q.tokens := by
    rw [kinds, show p.tokens = q.tokens from tokens_absent hp, Search.kindsOf]
  have hc : c ∉ text.toList.toArray := by rwa [List.mem_toArray]
  rw [hkinds]
  constructor
  · intro direct
    have plain : ∀ d, .separator d ∉ q.tokens := fun d hd => by cases q.tidy.separator_eq d hd
    have hroute : p.route text = q.route text := by
      rw [route, route, show p.tokens = q.tokens from tokens_absent hp]
      exact Search.route_absent hc none plain direct (Nat.zero_le _)
    rw [isMatch_eq, isMatch_eq, mask?_eq, mask?_eq, hroute]
    exact ⟨rfl, rfl⟩
  · intro hn
    rw [isMatch_eq, ← Bool.not_eq_true]
    exact fun h => hn (Search.direct_of_isMatched none (Nat.zero_le _) h)

/-- With a separator the double star passes over the `+`; without one nothing is left for it. -/
theorem isMatch_ne_of_passed_plus :
    '/' ∉ "**+a".toList ∧ '/' ∉ "a".toList ∧
      (compile "**+a" (some '/')).isMatch "a" = true ∧
      (compile "**+a" none).isMatch "a" = false ∧
      (compile "**+a" (some '/')).mask? "a" = some "" ∧
      (compile "**+a" none).mask? "a" = none := by
  decide +kernel

/-- Two stars that seek, the later one twice, and one that takes the rest; and a star that would
    have to pass over a `?`. -/
theorem agree_absent_separator_of_three_stars :
    ('/' ∉ "*b**a?c**".toList ∧ '/' ∉ "xbyaabacz".toList ∧
      Direct (compile "*b**a?c**" (some '/')).kinds ∧
      (compile "*b**a?c**" (some '/')).isMatch "xbyaabacz" =
        (compile "*b**a?c**" none).isMatch "xbyaabacz" ∧
      (compile "*b**a?c**" (some '/')).mask? "xbyaabacz" =
        (compile "*b**a?c**" none).mask? "xbyaabacz") ∧
    ('/' ∉ "**?a".toList ∧ '/' ∉ "xa".toList ∧ ¬Direct (compile "**?a" (some '/')).kinds ∧
      (compile "**?a" none).isMatch "xa" = false) :=
  have direct : Direct (compile "*b**a?c**" (some '/')).kinds := by decide +kernel
  have passes : ¬Direct (compile "**?a" (some '/')).kinds := by decide +kernel
  ⟨⟨by decide, by decide, direct,
      (agree_absent_separator (by decide) (by decide)).1 direct⟩,
    by decide, by decide, passes, (agree_absent_separator (by decide) (by decide)).2 passes⟩

end Pattern

end Wildcard
