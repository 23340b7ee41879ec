import Wildcard.Proofs.Feasible

/-! A text for every pattern that allows for one.

    Where the kinds that face a text are feasible, a text is put together from right to left. A
    token that takes one character gets one, a star takes nothing, and a run that a star seeks
    stands right where the star is. Only a star at the end takes a character, so that no token is
    left over at the end of the text:

        pattern  a * / + * b **      text  a / x b x

    What is put together fits wherever it ends a text. So it can be put together without a look at
    what comes before, but for the separator that a star across segments may go back onto. -/

namespace Wildcard

open Subject (ofChars)

/-- There are other characters than any two. -/
theorem exists_char_ne (c d : Option Char) : ∃ z, c ≠ some z ∧ d ≠ some z := by
  by_contra! h
  by_cases ha : c = some 'a'
  · have hb := h 'b' (by simp [ha])
    have hc := h 'c' (by simp [ha])
    simp [hb] at hc
  · have hd := h 'a' ha
    have hb : c = some 'b' := by
      by_contra hb
      simpa [hd] using h 'b' hb
    have hc := h 'c' (by simp [hb])
    simp [hd] at hc

namespace Outcome

theorem isMatched_firstOf_cons {go : ℕ → Outcome} {p : ℕ} (h : (go p).isMatched) (found : Bool)
    (ps : List ℕ) : (firstOf go found (p :: ps)).isMatched := by
  obtain ⟨path, hp⟩ := isMatched_iff.mp h
  rw [firstOf, hp]
  rfl

end Outcome

namespace Search

variable {separator : Option Char} {shared : Bool} {before : Option Kind} {t : Token}
  {ts : List Token} {w : List Char}

/-- A text that some tokens match wherever it comes last. If no literal is left, it has as many
    separators as are wanted, or one too few. -/
structure Serves (separator : Option Char) (shared : Bool) (before : Option Kind)
    (ts : List Token) (w : List Char) : Prop where
  ne_nil : ts ≠ [] → w ≠ []
  head? : ∀ d, ts.head? = some (.separator d) → w.head? = some d
  count : (Outlook.ofTokens ts).run = [] → ∀ {cs : Array Char} {i : ℕ}, cs.toList.drop i = w →
    separatorsLeft separator cs i + shared.toNat = (Outlook.ofTokens ts).separators
  isMatched : ∀ {cs : Array Char} {i : ℕ}, i ≤ cs.size → cs.toList.drop i = w →
    Edge separator cs before ts i → (route (ofChars separator cs) before ts i).isMatched

section

variable {cs : Array Char} {i : ℕ}

/-- A star that seeks a run finds it first of all right where it is. -/
theorem isMatched_of_seek (tidy : Token.Tidy separator (t :: ts)) (ht : t.kind.isStar)
    (hr : (Outlook.ofTokens ts).run ≠ [])
    (hg : (Outlook.ofTokens ts).gap = 0 ∨ t = .doubleStar ∧ separator.isSome)
    (hocc : Subject.occursAt cs (Outlook.ofTokens ts).run i)
    (h : (route (ofChars separator cs) (some .literal) (ts.drop (Outlook.ofTokens ts).reach)
      (i + (Outlook.ofTokens ts).run.length)).isMatched) :
    (route (ofChars separator cs) before (t :: ts) i).isMatched := by
  have hpos := List.length_pos_of_ne_nil hr
  have hfit := Subject.le_size_of_occursAt hr hocc
  have hd : cs[i]? = some cs[i] := Array.getElem?_eq_getElem (by omega)
  obtain ⟨limit, hm, hlimit⟩ : ∃ limit,
      (Leg.facing (ofChars separator cs) before t ts).move (ofChars separator cs) i cs[i] =
        .seek limit ∧ i + (Outlook.ofTokens ts).run.length ≤ limit := by
    rcases @Leg.move_star (ofChars separator cs) before t ts i cs[i] ht with
      ⟨hs, he⟩ | ⟨-, -, he⟩
    · have hnext : (Outlook.ofTokens ts).nextRun ≠ [] := by
        rcases hg with hg | ⟨rfl, hsome⟩
        · rwa [Outlook.nextRun, if_pos hg]
        · rcases hs with hs | hs
          · cases hs
          · rw [Subject.separator_ofChars] at hs
            cases hs ▸ hsome
      rcases Leg.moveInSegment_cases (Leg.facing (ofChars separator cs) before t ts)
        (ofChars separator cs) i with ⟨-, hm⟩ | ⟨hn, -⟩
      · have hrun := Outlook.ne_of_mem_run tidy.tail
        exact ⟨_, he.trans hm, Subject.occursAt_le_segmentStop hrun (by omega) hocc⟩
      · exact absurd hn hnext
    · exact ⟨_, he.trans (Leg.moveAcross_of_ne_nil hr), hfit⟩
  obtain ⟨later, hsites⟩ : ∃ later,
      sitesWithin cs (Outlook.ofTokens ts).run i limit = i :: later := by
    have hn : cs.size - i = cs.size - (i + 1) + 1 := by omega
    rw [sitesWithin, hn, List.range'_succ, List.filter_cons_of_pos (by simp [hocc, hlimit])]
    exact ⟨_, rfl⟩
  rw [route_cons hd, hm]
  dsimp only
  rw [Subject.chars_ofChars, hsites]
  exact Outcome.isMatched_firstOf_cons (by rwa [Outcome.isMatched_prepend]) _ _

end

namespace Serves

theorem nil : Serves separator false before [] [] where
  ne_nil h := absurd rfl h
  head? _ := nofun
  count _ cs i h := by
    rw [separatorsLeft_of_size_le (List.drop_eq_nil_iff.mp h)]
    rfl
  isMatched _ h _ := by
    rw [route_of_size_le (List.drop_eq_nil_iff.mp h)]
    rfl

/-- A token that is no star in front, with a character that it is satisfied with. -/
theorem cons {d : Char} (h : Serves separator shared (some t.kind) ts w)
    (hsep : t.kind = .separator ↔ separator = some d)
    (hhead : ∀ e, t = .separator e → d = e)
    (next : ∀ {cs : Array Char} {i : ℕ}, cs[i]? = some d →
      (route (ofChars separator cs) before (t :: ts) i).isMatched =
        (route (ofChars separator cs) (some t.kind) ts (i + 1)).isMatched) :
    Serves separator shared before (t :: ts) (d :: w) where
  ne_nil _ := List.cons_ne_nil _ _
  head? e he := congrArg some (hhead e (Option.some.inj he))
  count hr cs i hw := by
    obtain ⟨hd, hw⟩ := getElem?_of_drop_eq_cons hw
    cases hl : t.literal? with
    | some e =>
      obtain rfl := Token.literal?_eq_some.mp hl
      cases hr
    | none =>
      rw [Outlook.ofTokens_cons, Outlook.run_before hl] at hr
      rw [Outlook.separators_cons, ← h.count hr hw, separatorsLeft_of_getElem? hd]
      simp only [hsep]
      omega
  isMatched hi hw _ := by
    obtain ⟨hd, hw⟩ := getElem?_of_drop_eq_cons hw
    rw [next hd]
    exact h.isMatched (Array.getElem?_eq_some_iff.mp hd).1 hw (edge_of_iff hd hsep)

/-- A token that stands for itself, with its character. -/
theorem plain (tidy : Token.Tidy separator (t :: ts)) (ht : t.isWildcard = false)
    (h : Serves separator shared (some t.kind) ts w) :
    Serves separator shared before (t :: ts) (t.symbol :: w) := by
  have hsep : t.kind = .separator ↔ separator = some t.symbol := by
    cases t with
    | literal d => exact iff_of_false nofun (tidy.literal_ne d List.mem_cons_self)
    | separator d => exact iff_of_true rfl (tidy.separator_eq d List.mem_cons_self)
    | _ => cases ht
  refine h.cons hsep (fun e he => by rw [he]; rfl) fun {cs i} hd => ?_
  have hc : (ofChars separator cs).chars[i]? = some t.symbol := hd
  rw [route_cons_plain hc before ht, if_pos rfl, Outcome.isMatched_prepend]

/-- A wildcard that takes one character, with one that is neither the separator nor a literal that
    goes first. -/
theorem single (ht : t = .question ∨ t = .plus) {z : Char} (hz : separator ≠ some z)
    (hl : ts.head? ≠ some (.literal z)) (h : Serves separator shared (some t.kind) ts w) :
    Serves separator shared before (t :: ts) (z :: w) := by
  have hsep : t.kind = .separator ↔ separator = some z := by
    refine iff_of_false ?_ hz
    rcases ht with rfl | rfl <;> nofun
  refine h.cons hsep (by rcases ht with rfl | rfl <;> nofun) fun {cs i} hd => ?_
  have hc : (ofChars separator cs).chars[i]? = some z := hd
  have hm : (Leg.facing (ofChars separator cs) before t ts).move (ofChars separator cs) i z =
      .take := by
    rcases ht with rfl | rfl
    · rw [Leg.move_question, if_neg fun hq => hl hq.2]
      exact if_neg hz
    · exact if_neg hz
  rw [route_cons hc, hm]
  exact Outcome.isMatched_prepend _ _

/-- A star that seeks, with the run right where it is. -/
theorem seek (tidy : Token.Tidy separator (t :: ts)) (ht : t.kind.isStar)
    (hr : (Outlook.ofTokens ts).run ≠ [])
    (hg : (Outlook.ofTokens ts).gap = 0 ∨ t = .doubleStar ∧ separator.isSome)
    (h : Serves separator shared (some .literal) (ts.drop (Outlook.ofTokens ts).reach) w) :
    Serves separator shared before (t :: ts) ((Outlook.ofTokens ts).run ++ w) where
  ne_nil _ := List.append_ne_nil_of_left_ne_nil hr _
  head? d hd := by
    obtain rfl := Option.some.inj hd
    cases ht
  count hn _ _ _ := by
    have hl : t.literal? = none := by cases t <;> first | rfl | cases ht
    rw [Outlook.ofTokens_cons, Outlook.run_before hl] at hn
    exact absurd hn hr
  isMatched {cs i} hi hw _ := by
    have hocc : Subject.occursAt cs (Outlook.ofTokens ts).run i :=
      Subject.occursAt_iff.mpr ⟨w, hw.symm⟩
    exact isMatched_of_seek tidy ht hr hg hocc (h.isMatched (Subject.le_size_of_occursAt hr hocc)
      (drop_add_length hw) (edge_of_occursAt tidy.tail hr hocc))

/-- A star within its segment in front of a separator takes nothing. -/
theorem star {c : Char} {us : List Token}
    (tidy : Token.Tidy separator (.star :: .separator c :: us))
    (h : Serves separator shared (some .star) (.separator c :: us) w) :
    Serves separator shared before (.star :: .separator c :: us) w where
  ne_nil _ := h.ne_nil (List.cons_ne_nil _ _)
  head? _ := nofun
  count := h.count
  isMatched {cs i} hi hw _ := by
    have hs : separator = some c := tidy.separator_eq c (by simp)
    have hd : cs[i]? = some c := by
      rw [← Array.getElem?_toList, ← List.head?_drop, hw]
      exact h.head? c rfl
    have hnext : (Outlook.ofTokens (.separator c :: us)).nextRun = [] := rfl
    rw [route_star hi, if_pos hnext, Outcome.isMatched_prepend, Subject.segmentStop_of_eq hd hs]
    exact h.isMatched hi hw (edge_of_isStar tidy rfl)

/-- A star at the end of the pattern takes the last character. -/
theorem singleton {z : Char} (ht : t.kind.isStar) (hz : separator ≠ some z) :
    Serves separator false before [t] [z] where
  ne_nil _ := List.cons_ne_nil _ _
  head? d hd := by
    obtain rfl := Option.some.inj hd
    cases ht
  count _ cs i hw := by
    obtain ⟨hd, hw⟩ := getElem?_of_drop_eq_cons hw
    rw [separatorsLeft_of_getElem? hd, if_neg hz,
      separatorsLeft_of_size_le (List.drop_eq_nil_iff.mp hw)]
    cases t <;> first | rfl | cases ht
  isMatched {cs i} _ hw _ := by
    obtain ⟨hd, hw⟩ := getElem?_of_drop_eq_cons hw
    have hend : cs.size ≤ i + 1 := List.drop_eq_nil_iff.mp hw
    have hm : (Leg.facing (ofChars separator cs) before t []).move (ofChars separator cs) i z =
        .jump cs.size := by
      rcases @Leg.move_star (ofChars separator cs) before t [] i z ht with ⟨-, he⟩ | ⟨rfl, hs, -⟩
      · rcases Leg.moveInSegment_cases (Leg.facing (ofChars separator cs) before t [])
          (ofChars separator cs) i with ⟨hr, -⟩ | ⟨-, hm⟩
        · exact absurd rfl hr
        · rw [he, hm, Subject.segmentStop_of_ne hd hz, Subject.segmentStop_of_size_le hend]
      · exact Leg.move_doubleStar_nil hs
    have hsize : (ofChars separator cs).size ≤ cs.size := le_rfl
    rw [route_cons hd, hm]
    dsimp only
    rw [Outcome.isMatched_prepend, route_of_size_le hsize]
    rfl

section

variable {c : Char} {us : List Token}

/-- A star across segments in front of a separator stays where it is, if just enough are left. -/
theorem landing (tidy : Token.Tidy (some c) (.doubleStar :: .separator c :: us))
    (hr : (Outlook.ofTokens (.separator c :: us)).run = [])
    (h : Serves (some c) false (some .doubleStar) (.separator c :: us) w) :
    Serves (some c) false before (.doubleStar :: .separator c :: us) w where
  ne_nil _ := h.ne_nil (List.cons_ne_nil _ _)
  head? _ := nofun
  count := h.count
  isMatched {cs i} hi hw _ := by
    have hd : cs[i]? = some c := by
      rw [← Array.getElem?_toList, ← List.head?_drop, hw]
      exact h.head? c rfl
    have hlt := (Array.getElem?_eq_some_iff.mp hd).1
    have hk : Subject.separatorsFrom c cs (i + 1) = (Outlook.ofTokens us).separators := by
      have hcount : Subject.separatorsFrom c cs i = (Outlook.ofTokens us).separators + 1 :=
        h.count hr hw
      rw [Subject.separatorsFrom_of_getElem? hd, if_pos rfl] at hcount
      exact Nat.succ.inj hcount
    have stays : Search.landing c cs i (Outlook.ofTokens (.separator c :: us)).separators = i :=
      landing_eq hd hk (Nat.le_succ i)
    rw [route_doubleStar_jump hlt before hr, Outcome.isMatched_prepend, stays]
    exact h.isMatched hi hw (edge_of_isStar tidy rfl)

/-- If one is missing it stays where it is as well, unless a separator stands right before it. -/
theorem landing_of_missing (tidy : Token.Tidy (some c) (.doubleStar :: ts))
    (hr : (Outlook.ofTokens ts).run = []) (hb : before ≠ some .separator)
    (h : Serves (some c) true (some .doubleStar) ts w) :
    Serves (some c) true before (.doubleStar :: ts) w where
  ne_nil _ := by
    refine h.ne_nil ?_
    rintro rfl
    exact Nat.succ_ne_zero _ (@Serves.count _ _ _ _ _ h rfl w.toArray 0 rfl)
  head? _ := nofun
  count := h.count
  isMatched {cs i} hi hw edge := by
    have hm := h.isMatched hi hw (edge_of_isStar tidy rfl)
    rcases hi.eq_or_lt with rfl | hlt
    · have hsize : (ofChars (some c) cs).size ≤ cs.size := le_rfl
      rw [isMatched_route_of_size_le hsize] at hm ⊢
      exact List.forall_mem_cons.mpr ⟨rfl, hm⟩
    · have hcount : Subject.separatorsFrom c cs i + 1 = (Outlook.ofTokens ts).separators :=
        h.count hr hw
      have stays : Search.landing c cs i (Outlook.ofTokens ts).separators = i := by
        rw [← hcount]
        exact landing_eq_self le_rfl fun p hp hc => absurd ((edge rfl).mpr ⟨p, hp, hc⟩) hb
      rw [route_doubleStar_jump hlt before hr, Outcome.isMatched_prepend, stays]
      exact hm

/-- Between two separators it goes back onto the first one. -/
theorem landing_back (hr : (Outlook.ofTokens us).run = []) (hus : us ≠ [])
    (h : Serves (some c) false (some .separator) us w) :
    Serves (some c) true (some .separator) (.doubleStar :: .separator c :: us) w where
  ne_nil _ := h.ne_nil hus
  head? _ := nofun
  count _ cs i hw := congrArg Nat.succ (h.count hr hw)
  isMatched {cs i} hi hw edge := by
    obtain ⟨p, rfl, hp⟩ := (edge rfl).mp rfl
    have hlt : p + 1 < cs.size := by
      refine lt_of_le_of_ne hi fun he => h.ne_nil hus ?_
      rw [← hw, List.drop_eq_nil_of_le]
      exact he.ge
    have back : Search.landing c cs (p + 1) (Outlook.ofTokens (.separator c :: us)).separators =
        p := landing_eq hp (h.count hr hw) le_rfl
    have hr' : (Outlook.ofTokens (.separator c :: us)).run = [] := hr
    have hedge : Edge (some c) cs (some .separator) us (p + 1) :=
      @edge_of_iff _ _ (.separator c) _ _ _ hp (iff_of_true rfl rfl)
    have hc : (ofChars (some c) cs).chars[p]? = some (Token.separator c).symbol := hp
    rw [route_doubleStar_jump hlt _ hr', Outcome.isMatched_prepend, back,
      route_cons_plain hc _ rfl, if_pos rfl, Outcome.isMatched_prepend]
    exact h.isMatched hi hw hedge

end

end Serves

/-- There is a text for a star across segments that seeks nothing, if there is one for whatever
    comes behind it. -/
theorem exists_serves_landing {c : Char} (before : Option Kind)
    (tidy : Token.Tidy (some c) (.doubleStar :: ts)) (hr : (Outlook.ofTokens ts).run = [])
    (hf : Feasible shared before (facedOf (some c) (.doubleStar :: ts)))
    (rest : ∀ {shared before us}, us <:+ ts → Feasible shared before (facedOf (some c) us) →
      ∃ w, Serves (some c) shared before us w) :
    ∃ w, Serves (some c) shared before (.doubleStar :: ts) w := by
  have hnext : (Outlook.ofTokens ts).nextRun = [] := by rw [Outlook.nextRun, hr, ite_self]
  have hsep : ∀ {d us}, ts = .separator d :: us → d = c := by
    rintro d us rfl
    exact (Option.some.inj (tidy.separator_eq d (by simp))).symm
  rw [facedOf_cons fun _ => Or.inr hr] at hf
  cases shared with
  | false =>
    obtain ⟨hhead, apart⟩ := apart_cons_iff.mp (Feasible.false_iff.mp hf)
    rw [head?_facedOf] at hhead
    rcases separator_of_head? rfl tidy (hhead rfl) hnext with rfl | ⟨d, us, rfl⟩
    · obtain ⟨z, hz, -⟩ := exists_char_ne (some c) none
      exact ⟨[z], .singleton rfl hz⟩
    · obtain rfl := hsep rfl
      obtain ⟨w, h⟩ := rest List.suffix_rfl (Feasible.false_iff.mpr apart)
      exact ⟨w, h.landing tidy hr⟩
  | true =>
    have hs := Feasible.true_iff.mp hf
    rw [facedOf_of_run hr] at hs
    change sharesSeparator before (.doubleStar :: kindsOf ts) at hs
    rw [sharesSeparator] at hs
    split at hs
    · next hb =>
      rw [decide_eq_true_eq] at hs
      obtain ⟨hhead, htail, apart⟩ := hs
      obtain ⟨d, us, rfl⟩ : ∃ d us, ts = .separator d :: us := by
        cases ts with
        | nil => cases hhead
        | cons u us => cases u <;> first | exact ⟨_, us, rfl⟩ | cases hhead
      obtain rfl := hsep rfl
      have hus : us ≠ [] := by
        rintro rfl
        exact htail rfl
      have hr' : (Outlook.ofTokens us).run = [] := hr
      have hf : Feasible false (some .separator) (facedOf (some d) us) := by
        rw [facedOf_of_run hr']
        exact Feasible.false_iff.mpr (apart_cons_iff.mp apart).2
      obtain ⟨w, h⟩ := rest (List.suffix_cons _ _) hf
      rw [hb.1]
      exact ⟨w, h.landing_back hr' hus⟩
    · next hb =>
      have hl : (kindsOf ts).head? ≠ some .literal := fun hl =>
        run_eq_nil_iff_not_mem_kindsOf.mp hr (List.mem_of_mem_head? hl)
      have hf : Feasible true (some .doubleStar) (facedOf (some c) ts) := by
        rw [facedOf_of_run hr]
        exact Feasible.true_iff.mpr hs
      obtain ⟨w, h⟩ := rest List.suffix_rfl hf
      exact ⟨w, h.landing_of_missing tidy hr fun he => hb ⟨he, hl⟩⟩

theorem not_feasible_nil : ¬Feasible true before (facedOf separator []) :=
  fun h => nomatch Feasible.true_iff.mp h

/-- Where the kinds that face a text are feasible, there is a text. -/
theorem exists_serves (shared : Bool) (before : Option Kind) {ts : List Token}
    (tidy : Token.Tidy separator ts) (hs : shared → separator.isSome)
    (hf : Feasible shared before (facedOf separator ts)) :
    ∃ w, Serves separator shared before ts w := by
  obtain ⟨z, hz, hl⟩ := exists_char_ne separator (ts.tail.head?.bind Token.literal?)
  have hl : ts.tail.head? ≠ some (.literal z) := fun he => hl (by rw [he]; rfl)
  match ts with
  | [] =>
    cases shared with
    | false => exact ⟨[], .nil⟩
    | true => exact absurd hf not_feasible_nil
  | t :: ts =>
    have behind : ∀ {shared : Bool} {before us}, us <:+ ts → (shared → separator.isSome) →
        Feasible shared before (facedOf separator us) → ∃ w, Serves separator shared before us w :=
      fun hus hs hf =>
        have := hus.length_le
        exists_serves _ _ (tidy.tail.of_suffix hus) hs hf
    have next : Feasible shared (some t.kind) (facedOf separator ts) →
        ∃ w, Serves separator shared (some t.kind) ts w := behind List.suffix_rfl hs
    have seek : t.kind.isStar → (Outlook.ofTokens ts).run ≠ [] →
        ((Outlook.ofTokens ts).gap = 0 ∨ t = .doubleStar ∧ separator.isSome) →
        ∃ w, Serves separator shared before (t :: ts) w := by
      intro ht hr hg
      obtain ⟨w, h⟩ := behind (List.drop_suffix _ _) hs ((feasible_seek_iff ht hr hg).mp hf)
      exact ⟨_, h.seek tidy ht hr hg⟩
    cases t with
    | literal d =>
      obtain ⟨w, h⟩ := next ((feasible_cons_iff rfl).mp hf)
      exact ⟨_, h.plain tidy rfl⟩
    | separator d =>
      obtain ⟨w, h⟩ := next ((feasible_cons_iff rfl).mp hf)
      exact ⟨_, h.plain tidy rfl⟩
    | question =>
      obtain ⟨w, h⟩ := next ((feasible_cons_iff rfl).mp hf)
      exact ⟨_, h.single (Or.inl rfl) hz hl⟩
    | plus =>
      obtain ⟨w, h⟩ := next ((feasible_cons_iff rfl).mp hf)
      exact ⟨_, h.single (Or.inr rfl) hz hl⟩
    | star =>
      by_cases hn : (Outlook.ofTokens ts).nextRun = []
      · obtain ⟨hhead, hf⟩ := feasible_star_iff.mp hf
        rcases separator_of_head? rfl tidy hhead hn with rfl | ⟨d, us, rfl⟩
        · cases shared with
          | false => exact ⟨[z], .singleton rfl hz⟩
          | true => exact absurd hf not_feasible_nil
        · obtain ⟨w, h⟩ := next hf
          exact ⟨w, h.star tidy⟩
      · obtain ⟨hg, hr⟩ := Outlook.run_eq_nextRun hn
        exact seek rfl (hr.trans_ne hn) (Or.inl hg)
    | doubleStar =>
      cases separator with
      | some c =>
        by_cases hr : (Outlook.ofTokens ts).run = []
        · exact exists_serves_landing before tidy hr hf fun hus => behind hus fun _ => rfl
        · exact seek rfl hr (Or.inr ⟨rfl, rfl⟩)
      | none =>
        by_cases hn : (Outlook.ofTokens ts).nextRun = []
        · rw [facedOf_cons fun _ => Or.inl rfl] at hf
          cases shared with
          | true => cases hs rfl
          | false =>
            have hhead := (apart_cons_iff.mp (Feasible.false_iff.mp hf)).1 rfl
            rw [head?_facedOf] at hhead
            rcases separator_of_head? rfl tidy hhead hn with rfl | ⟨d, us, rfl⟩
            · exact ⟨[z], .singleton rfl hz⟩
            · cases tidy.separator_eq d (by simp)
        · obtain ⟨hg, hr⟩ := Outlook.run_eq_nextRun hn
          exact seek rfl (hr.trans_ne hn) (Or.inl hg)
termination_by ts.length
decreasing_by
  rw [List.length_cons]
  omega

end Search

namespace Pattern

variable (p : Pattern)

/-- The kinds of a pattern that come to face a text. -/
def facedKinds : List Kind := faced p.separator.isSome false p.kinds

theorem feasible_of_isMatch {text : String} (h : p.isMatch text) :
    Apart p.facedKinds ∨ SharesSeparator p.facedKinds := by
  rw [isMatch_eq] at h
  obtain ⟨shared, hf, -⟩ :=
    Search.tells_of_isMatched none p.tidy (Nat.zero_le _) Search.edge_start h
  cases shared with
  | false => exact Or.inl (Feasible.false_iff.mp hf)
  | true => exact Or.inr ((sharesSeparator_none _).mp (Feasible.true_iff.mp hf))

theorem exists_isMatch_of_feasible {shared : Bool} (hs : shared → p.separator.isSome)
    (hf : Feasible shared none p.facedKinds) : ∃ text, p.isMatch text := by
  obtain ⟨w, h⟩ := Search.exists_serves shared none p.tidy hs hf
  refine ⟨String.ofList w, ?_⟩
  rw [isMatch_eq, route, String.toList_ofList]
  exact h.isMatched (Nat.zero_le _) rfl Search.edge_start

/-- Without a separator no token shares one. -/
theorem isSome_separator_of_sharesSeparator (h : SharesSeparator p.facedKinds) :
    p.separator.isSome := by
  cases hs : p.separator with
  | some c => rfl
  | none =>
    have hk : p.facedKinds = p.kinds := by
      rw [facedKinds, hs]
      exact faced_of_not_across
    have hmem : .separator ∈ p.kinds := hk ▸ h.mem.1
    rcases List.mem_append.mp hmem with hm | hm
    · obtain ⟨t, ht, he⟩ := List.mem_map.mp hm
      cases t with
      | separator d => cases hs.symm.trans (p.tidy.separator_eq d ht)
      | _ => cases he
    · cases List.mem_singleton.mp hm

/-- Some text matches a pattern just when the kinds that face a text allow for one: no wildcard that
    takes one character comes right behind a star, or the first star across segments that could go
    back onto a separator does so, and two tokens share it. -/
theorem exists_isMatch_iff :
    (∃ text, p.isMatch text) ↔ Apart p.facedKinds ∨ SharesSeparator p.facedKinds := by
  constructor
  · rintro ⟨text, h⟩
    exact p.feasible_of_isMatch h
  · rintro (h | h)
    · exact p.exists_isMatch_of_feasible Bool.false_ne_true.elim (Feasible.false_iff.mpr h)
    · exact p.exists_isMatch_of_feasible (fun _ => p.isSome_separator_of_sharesSeparator h)
        (Feasible.true_iff.mpr ((sharesSeparator_none _).mpr h))

/-- The first star across segments stays where it is, and the second one goes back. -/
example : ¬Apart (compile "**+/**/*" (some '/')).facedKinds ∧
    SharesSeparator (compile "**+/**/*" (some '/')).facedKinds ∧
    (compile "**+/**/*" (some '/')).isMatch "x/y" := by decide +kernel

/-- Behind a separator the first one goes back itself, onto one that the `+` does not take. -/
example : ¬Apart (compile "/**+/**/*" (some '/')).facedKinds ∧
    ¬SharesSeparator (compile "/**+/**/*" (some '/')).facedKinds := by decide +kernel

/-- A star leaves nothing to a `+` right behind it, within a segment or across. -/
theorem not_exists_isMatch_of_star_plus :
    (¬∃ text, (compile "**+" none).isMatch text) ∧
      ¬∃ text, (compile "**+" (some '/')).isMatch text := by
  constructor
  · rintro ⟨text, h⟩
    exact absurd (feasible_of_isMatch _ h) (by decide +kernel)
  · rintro ⟨text, h⟩
    exact absurd (feasible_of_isMatch _ h) (by decide +kernel)

end Pattern

end Wildcard
