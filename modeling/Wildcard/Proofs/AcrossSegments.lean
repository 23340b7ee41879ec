import Mathlib.Data.List.TakeWhile
import Wildcard.Proofs.AbsentSeparator
import Wildcard.Proofs.PlainPrefix
import Wildcard.Proofs.Reading

/-! A star across segments in front of a plain text, or of a star that stays in its segment.

    The star seeks the next literal run and nothing else. Separators in front of that run stand for
    nothing, so a text has to end with what is left of the plain text without them:

        pattern  ** / a b      text  x a b        ** seeks "ab", the / stands for nothing

    Where a single star seeks behind it, the star across segments keeps its place as soon as that
    one has found its run. So an early segment with both runs ends the search:

        pattern  ** a * b      text  a b / a b    both runs are found in the first segment, and no
                                                  later place is tried -/

namespace Wildcard

open Subject (ofChars)

/-! ### Reading stars -/

/-- In front of a character without a meaning of its own, stars to the left do not matter. -/
theorem Slot.read_behind_stars {separator : Option Char} {before : Context}
    (hb : before ≠ .escaped) {cs : List Char}
    (h : ∀ d, cs.head? = some d → isMetacharacter d = false) :
    read separator before cs = read separator .plain cs := by
  cases cs with
  | nil => rfl
  | cons d cs =>
    have hp : Context.plain ≠ .escaped := nofun
    have hd := h d rfl
    rw [read, read, next_plain hb hd, next_plain hp hd, classify_plain hb hd, classify_plain hp hd]

namespace Pattern

section

variable {separator : Option Char} (hs : separator ≠ some '*') {rest : String}
  (h : ∀ d, rest.toList.head? = some d → isMetacharacter d = false)

include h

/-- A text that does not begin with a metacharacter gives no star in front. -/
theorem head?_tokens_plain :
    (((Slot.read separator .plain rest.toList).filterMap Slot.token?).head?.any fun u =>
      u.kind.isStar) = false := by
  cases hr : rest.toList with
  | nil => rfl
  | cons d ds =>
    have hp : Context.plain ≠ .escaped := nofun
    have hd : isMetacharacter d = false := h d (by rw [hr]; rfl)
    have live : Slot.token? (.live (.ofPlain separator d)) = some (.ofPlain separator d) := rfl
    rw [Slot.read, Slot.classify_plain hp hd, List.filterMap_cons_some live]
    exact Token.isStar_of_not_isWildcard (Token.isWildcard_ofPlain d)

include hs

/-- A single star in front of such a text is a token by itself. -/
theorem tokens_star_append :
    (compile ("*" ++ rest) separator).tokens = .star :: (compile rest separator).tokens := by
  have htext : ("*" ++ rest).toList = '*' :: rest.toList := String.toList_append
  have hslot : ∀ after, Slot.classify separator .plain '*' after = .live .star := by
    simp [Slot.classify, hs, escapeChar]
  have hnext : Context.next separator .plain '*' = .afterStar := by
    simp [Context.next, hs, escapeChar]
  have ha : Context.afterStar ≠ .escaped := by decide
  have hread : Slot.read separator .plain ("*" ++ rest).toList =
      .live .star :: Slot.read separator .plain rest.toList := by
    rw [htext, Slot.read, hslot, hnext, Slot.read_behind_stars ha h]
  have apart := @head?_tokens_plain separator rest h
  have live : Slot.token? (.live .star) = some .star := rfl
  rw [tokens_compile, hread, List.filterMap_cons_some live]
  exact Token.mergeStars_group_append (List.isChain_singleton _) fun _ => apart

/-- Two stars in front of such a text are one token. -/
theorem tokens_doubleStar_append :
    (compile ("**" ++ rest) separator).tokens = .doubleStar :: (compile rest separator).tokens := by
  have htext : ("**" ++ rest).toList = '*' :: '*' :: rest.toList := String.toList_append
  have hslot : ∀ before after, before ≠ .escaped →
      Slot.classify separator before '*' after = .live .star := by
    intro before after hb
    simp [Slot.classify, hs, hb, escapeChar]
  have hnext : Context.next separator .plain '*' = .afterStar := by
    simp [Context.next, hs, escapeChar]
  have hnext' : Context.next separator .afterStar '*' = .afterStars := by
    simp [Context.next, hs, escapeChar]
  have hp : Context.plain ≠ .escaped := by decide
  have ha : Context.afterStar ≠ .escaped := by decide
  have hb : Context.afterStars ≠ .escaped := by decide
  have hread : Slot.read separator .plain ("**" ++ rest).toList =
      .live .star :: .live .star :: Slot.read separator .plain rest.toList := by
    rw [htext, Slot.read, Slot.read, hslot _ _ hp, hnext, hslot _ _ ha, hnext',
      Slot.read_behind_stars hb h]
  have apart := @head?_tokens_plain separator rest h
  have live : Slot.token? (.live .star) = some .star := rfl
  rw [tokens_compile, hread, List.filterMap_cons_some live, List.filterMap_cons_some live]
  exact Token.mergeStars_group_append (List.isChain_cons_cons.mpr ⟨rfl, List.isChain_singleton _⟩)
    fun _ => apart

end

/-- A text without metacharacters compiles to its characters. -/
theorem tokens_plain {separator : Option Char} {w : String}
    (plain : ∀ d ∈ w.toList, isMetacharacter d = false) :
    (compile w separator).tokens = w.toList.map (Token.ofPlain separator) := by
  have h := tokens_plain_append plain "" separator
  rw [String.append_empty] at h
  rw [h]
  exact List.append_nil _

end Pattern

/-! ### Trying sites -/

namespace Outcome

variable {go : ℕ → Outcome} {ps : List ℕ}

theorem prepend_eq_exhausted {strides : List Stride} {o : Outcome} :
    o.prepend strides = .exhausted ↔ o = .exhausted := by
  cases o <;> simp [prepend]

/-- As long as no place ends the search, one that fits is enough. -/
theorem isMatched_firstOf_of_ne_exhausted (h : ∀ p ∈ ps, go p ≠ .exhausted) (found : Bool) :
    (firstOf go found ps).isMatched ↔ ∃ p ∈ ps, (go p).isMatched := by
  rcases firstOf_cases go found ps with ⟨qs, p, rest, rfl, -, hp, he⟩ | ⟨hall, he⟩
  · have hm : (go p).isMatched := by
      cases hg : go p with
      | matched path => rfl
      | failed => exact absurd hg hp
      | exhausted => exact absurd hg (h p (by simp))
    rw [he]
    exact iff_of_true hm ⟨p, by simp, hm⟩
  · refine iff_of_false ?_ ?_
    · rw [he]
      split <;> nofun
    · rintro ⟨p, hp, hm⟩
      rw [hall p hp] at hm
      cases hm

/-- In general the first place decides that is not just unfit. -/
theorem isMatched_firstOf_iff {P : Prop} (sorted : ps.Pairwise (· < ·)) (found : Bool)
    (first : ∀ p ∈ ps, go p ≠ .failed → (∀ q ∈ ps, go q ≠ .failed → p ≤ q) →
      ((go p).isMatched ↔ P))
    (none : (∀ p ∈ ps, go p = .failed) → ¬P) : (firstOf go found ps).isMatched ↔ P := by
  rcases firstOf_cases go found ps with ⟨qs, p, rest, rfl, hqs, hp, he⟩ | ⟨hall, he⟩
  · obtain ⟨hrest, -⟩ := List.pairwise_cons.mp (List.pairwise_append.mp sorted).2.1
    rw [he]
    refine first p (by simp) hp fun q hq hne => ?_
    rcases List.mem_append.mp hq with hq | hq
    · exact absurd (hqs q hq) hne
    · rcases List.mem_cons.mp hq with rfl | hq
      · exact le_rfl
      · exact (hrest q hq).le
  · refine iff_of_false ?_ (none hall)
    rw [he]
    split <;> nofun

/-- A star gives way to one further left only if it has found no place at all. -/
theorem firstOf_eq_failed_iff : firstOf go false ps = .failed ↔ ps = [] := by
  rcases firstOf_cases go false ps with ⟨qs, p, rest, rfl, -, hp, he⟩ | ⟨-, he⟩
  · exact iff_of_false (fun hf => hp (he.symm.trans hf)) (by simp)
  · rw [he]
    cases ps <;> simp

end Outcome

/-! ### Sites and the text around them -/

namespace Search

variable {c : Char} {cs : Array Char} {i : ℕ}

/-- A site of a run is a place from which the text goes on with the run. -/
theorem mem_sitesWithin_iff {run : List Char} (hr : run ≠ []) {limit p : ℕ} :
    p ∈ sitesWithin cs run i limit ↔
      i ≤ p ∧ p + run.length ≤ limit ∧ ∃ behind, cs.toList.drop p = run ++ behind := by
  have hpos := List.length_pos_of_ne_nil hr
  rw [mem_sitesWithin, Subject.occursAt_iff]
  constructor
  · rintro ⟨hip, -, ⟨behind, hb⟩, hlimit⟩
    exact ⟨hip, hlimit, behind, hb.symm⟩
  · rintro ⟨hip, hlimit, behind, hb⟩
    have hocc : run <+: cs.toList.drop p := ⟨behind, hb.symm⟩
    have := Subject.le_size_of_occursAt hr (Subject.occursAt_iff.mpr hocc)
    exact ⟨hip, by omega, hocc, hlimit⟩

/-- The character at a position, and the text behind it. -/
theorem getElem?_of_drop_eq_cons {d : Char} {w : List Char} (h : cs.toList.drop i = d :: w) :
    cs[i]? = some d ∧ cs.toList.drop (i + 1) = w := by
  constructor
  · rw [← Array.getElem?_toList, ← List.head?_drop, h, List.head?_cons]
  · rw [← List.tail_drop, h, List.tail_cons]

/-- The text behind a run. -/
theorem drop_add_length {run behind : List Char} {p : ℕ} (h : cs.toList.drop p = run ++ behind) :
    cs.toList.drop (p + run.length) = behind := by
  rw [← List.drop_drop, h, List.drop_left]

/-- The sites of a run in a whole text are the ways to write the text with the run in it. -/
theorem mem_sitesWithin_text_iff {run : List Char} (hr : run ≠ []) {p : ℕ} :
    p ∈ sitesWithin cs run 0 cs.size ↔
      ∃ front behind, cs.toList = front ++ run ++ behind ∧ p = front.length := by
  rw [mem_sitesWithin_iff hr]
  constructor
  · rintro ⟨-, hp, behind, hb⟩
    refine ⟨cs.toList.take p, behind, ?_, ?_⟩
    · rw [List.append_assoc, ← hb, List.take_append_drop]
    · rw [List.length_take, @Array.length_toList _ cs]
      omega
  · rintro ⟨front, behind, h, rfl⟩
    have hlen := congrArg List.length h
    rw [List.length_append, List.length_append, @Array.length_toList _ cs] at hlen
    refine ⟨Nat.zero_le _, by omega, behind, ?_⟩
    rw [h, List.append_assoc, List.drop_left]

theorem exists_site_iff {run behind : List Char} (hr : run ≠ []) :
    (∃ p ∈ sitesWithin cs run 0 cs.size, cs.toList.drop (p + run.length) = behind) ↔
      run ++ behind <:+ cs.toList := by
  simp only [mem_sitesWithin_text_iff hr]
  constructor
  · rintro ⟨p, ⟨front, behind, h, rfl⟩, rfl⟩
    rw [← List.length_append, h, List.drop_left]
    exact ⟨front, (List.append_assoc _ _ _).symm⟩
  · rintro ⟨front, h⟩
    rw [← List.append_assoc] at h
    refine ⟨front.length, ⟨front, behind, h.symm, rfl⟩, ?_⟩
    rw [← List.length_append, ← h, List.drop_left]

/-- A segment goes on as long as no separator comes. -/
theorem le_segmentStop_iff (hi : i ≤ cs.size) {within behind : List Char}
    (h : cs.toList.drop i = within ++ behind) :
    i + within.length ≤ (ofChars (some c) cs).segmentStop i ↔ c ∉ within := by
  have hlen := congrArg List.length h
  rw [List.length_drop, List.length_append, @Array.length_toList _ cs] at hlen
  have hget : ∀ k < within.length, cs[i + k]? = within[k]? := by
    intro k hk
    rw [← Array.getElem?_toList, ← List.getElem?_drop, h, List.getElem?_append_left hk]
  rw [← Subject.clear_iff hi, and_iff_right (by omega)]
  constructor
  · intro hclear hc
    obtain ⟨k, hk, hck⟩ := List.mem_iff_getElem.mp hc
    refine hclear (i + k) (by omega) (by omega) ?_
    rw [hget k hk, List.getElem?_eq_getElem hk, hck]
  · intro hc k hik hk he
    obtain ⟨l, rfl⟩ : ∃ l, k = i + l := ⟨k - i, by omega⟩
    rw [hget l (by omega)] at he
    exact hc (List.mem_of_getElem? he)

/-! ### Where a star across segments goes -/

/-- The route of a star across segments that seeks a run, at the end of the text as well. -/
theorem route_doubleStar_seek (hi : i ≤ cs.size) (before : Option Kind) {ts : List Token}
    (hr : (Outlook.ofTokens ts).run ≠ []) :
    route (ofChars (some c) cs) before (.doubleStar :: ts) i =
      .firstOf
        (fun p => (route (ofChars (some c) cs) (some .literal) (ts.drop (Outlook.ofTokens ts).reach)
          (p + (Outlook.ofTokens ts).run.length)).prepend
            (⟨.doubleStar, i, p⟩ :: ((ts.take (Outlook.ofTokens ts).gap).map (.idle p) ++
              Stride.spell p (Outlook.ofTokens ts).run)))
        false (sitesWithin cs (Outlook.ofTokens ts).run i cs.size) := by
  rcases hi.eq_or_lt with rfl | hlt
  · have hn : ((Token.doubleStar :: ts).all fun t => t.kind.isNullable) = false := by
      rw [Bool.eq_false_iff]
      intro hall
      refine hr (Outlook.run_eq_nil_iff.mpr fun t ht => ?_)
      have := List.all_eq_true.mp hall t (List.mem_cons_of_mem _ ht)
      cases t <;> first | rfl | cases this
    rw [route_of_size_le (show (ofChars (some c) cs).size ≤ cs.size from le_rfl), hn, sitesWithin,
      Nat.sub_self]
    rfl
  · have hc : (ofChars (some c) cs).chars[i]? = some cs[i] := Array.getElem?_eq_getElem hlt
    have hm : (Leg.facing (ofChars (some c) cs) before .doubleStar ts).move (ofChars (some c) cs) i
        cs[i] = .seek cs.size := Leg.moveAcross_of_ne_nil hr
    rw [route_cons hc, hm]
    rfl

/-- Where a star across segments jumps to that seeks nothing: to the end, or so far that just the
    separators remain that are wanted behind it. -/
def landing (c : Char) (cs : Array Char) (i : ℕ) : (wanted : ℕ) → ℕ
  | 0 => cs.size
  | k + 1 => (((ofChars (some c) cs).separatorFromEnd k).filter fun stop => i ≤ stop + 1).getD i

theorem landing_le_size (hi : i ≤ cs.size) (wanted : ℕ) : landing c cs i wanted ≤ cs.size := by
  cases wanted with
  | zero => exact le_rfl
  | succ k =>
    rw [landing]
    cases hat : (ofChars (some c) cs).separatorFromEnd k with
    | none => exact hi
    | some stop =>
      rw [Option.filter_some]
      split
      · exact (Subject.separatorFromEnd_spec hat).1.le
      · exact hi

/-- It goes onto the separator with as many behind it as are wanted behind that, even onto one right
    before it. -/
theorem landing_eq {p k : ℕ} (hp : cs[p]? = some c) (hk : Subject.separatorsFrom c cs (p + 1) = k)
    (hi : i ≤ p + 1) : landing c cs i (k + 1) = p := by
  rw [landing, Subject.separatorFromEnd_eq_some_iff.mpr ⟨hp, hk⟩, Option.filter_some,
    if_pos (decide_eq_true hi), Option.getD_some]

/-- If there are too few separators it stays where it is, unless the one right before it is
    wanted. -/
theorem landing_eq_self {k : ℕ} (few : Subject.separatorsFrom c cs i ≤ k)
    (edge : ∀ p, i = p + 1 → cs[p]? = some c → Subject.separatorsFrom c cs i ≠ k) :
    landing c cs i (k + 1) = i := by
  rw [landing]
  cases hat : (ofChars (some c) cs).separatorFromEnd k with
  | none => rfl
  | some p =>
    obtain ⟨hp, hk⟩ := Subject.separatorFromEnd_eq_some_iff.mp hat
    have far : ¬i ≤ p + 1 := by
      intro hle
      rcases hle.eq_or_lt with rfl | hlt
      · exact edge p rfl hp hk
      · have hanti := @Subject.separatorsFrom_anti cs c i p (by omega)
        rw [Subject.separatorsFrom_of_getElem? hp, if_pos rfl, hk] at hanti
        omega
    rw [Option.filter_some, if_neg (by simpa using far), Option.getD_none]

/-- The route of a star across segments that seeks nothing. -/
theorem route_doubleStar_jump (hi : i < cs.size) (before : Option Kind) {ts : List Token}
    (hr : (Outlook.ofTokens ts).run = []) :
    route (ofChars (some c) cs) before (.doubleStar :: ts) i =
      (route (ofChars (some c) cs) (some .doubleStar) ts
        (landing c cs i (Outlook.ofTokens ts).separators)).prepend
          [⟨.doubleStar, i, landing c cs i (Outlook.ofTokens ts).separators⟩] := by
  have hc : (ofChars (some c) cs).chars[i]? = some cs[i] := Array.getElem?_eq_getElem hi
  have hm : (Leg.facing (ofChars (some c) cs) before .doubleStar ts).move (ofChars (some c) cs) i
      cs[i] = .jump (landing c cs i (Outlook.ofTokens ts).separators) := by
    have hrun : (Outlook.ofTokens ts).run.isEmpty := List.isEmpty_iff.mpr hr
    refine Eq.trans (if_pos hrun) ?_
    dsimp only [Leg.facing]
    cases (Outlook.ofTokens ts).separators <;> rfl
  rw [route_cons hc, hm]
  rfl

end Search

/-! ### In front of a plain text -/

namespace Outlook

variable {c : Char} {ws : List Char}

/-- In front of the first run of a plain text stand separators only. -/
theorem drop_gap_ofPlain :
    ws.drop (ofTokens (ws.map (.ofPlain (some c)))).gap = ws.dropWhile (· = c) := by
  induction ws with
  | nil => rfl
  | cons d ws ih =>
    rw [List.map_cons, ofTokens_cons]
    by_cases hd : d = c
    · have ht : Token.ofPlain (some c) d = .separator d := if_pos (by rw [hd])
      rw [ht, gap_before rfl, List.drop_succ_cons, ih, List.dropWhile_cons_of_pos (by simpa)]
    · have ht : Token.ofPlain (some c) d = .literal d :=
        if_neg fun he => hd (Option.some.inj he).symm
      rw [ht, before_literal, List.drop_zero, List.dropWhile_cons_of_neg (by simpa)]

theorem separators_ofPlain : (ofTokens (ws.map (.ofPlain (some c)))).separators = ws.count c := by
  induction ws with
  | nil => rfl
  | cons d ws ih =>
    rw [List.map_cons, ofTokens_cons, List.count_cons, ← ih]
    by_cases hd : d = c
    · have ht : Token.ofPlain (some c) d = .separator d := if_pos (by rw [hd])
      rw [ht, if_pos (beq_iff_eq.mpr hd)]
      rfl
    · have ht : Token.ofPlain (some c) d = .literal d :=
        if_neg fun he => hd (Option.some.inj he).symm
      rw [ht, if_neg (mt beq_iff_eq.mp hd)]
      rfl

/-- The first run of a plain text, and what comes behind it. -/
theorem run_append_ofPlain :
    (ofTokens (ws.map (.ofPlain (some c)))).run ++
        ((ws.map (.ofPlain (some c))).drop
          (ofTokens (ws.map (.ofPlain (some c)))).reach).map Token.symbol =
      ws.dropWhile (· = c) := by
  have h := congrArg (List.map Token.symbol) (drop_gap (ws.map (.ofPlain (some c))))
  have hrun : ∀ run : List Char, (run.map Token.literal).map Token.symbol = run := fun run => by
    rw [List.map_map]
    exact List.map_id run
  rw [List.map_append, List.map_drop, Token.map_symbol_ofPlain, hrun, drop_gap_ofPlain] at h
  exact h.symm

theorem run_ofPlain_eq_nil_iff :
    (ofTokens (ws.map (.ofPlain (some c)))).run = [] ↔ ws.dropWhile (· = c) = [] := by
  rw [run_eq_nil_iff, List.dropWhile_eq_nil_iff, List.forall_mem_map]
  refine forall₂_congr fun d _ => ?_
  rw [Token.ofPlain, decide_eq_true_eq]
  by_cases hd : d = c
  · simp [hd, Token.literal?]
  · simp [hd, Ne.symm hd, Token.literal?]

end Outlook

namespace Search

variable {separator : Option Char} {cs : Array Char} {c : Char}

/-- A plain text fits or does not; nothing of it moves a star. -/
theorem route_plain_ne_exhausted {ts : List Token} (plain : ∀ t ∈ ts, t.isWildcard = false)
    (before : Option Kind) (i : ℕ) : route (ofChars separator cs) before ts i ≠ .exhausted := by
  induction ts generalizing before i with
  | nil =>
    rw [route, walk]
    split <;> simp
  | cons t ts ih =>
    obtain ⟨ht, hts⟩ := List.forall_mem_cons.mp plain
    cases hc : (ofChars separator cs).chars[i]? with
    | none =>
      rw [route_of_size_le (Array.getElem?_eq_none_iff.mp hc)]
      split <;> simp
    | some d =>
      rw [route_cons_plain hc before ht]
      split
      · exact fun he => ih hts _ _ (Outcome.prepend_eq_exhausted.mp he)
      · simp

end Search

namespace Search

variable {c : Char} {cs : Array Char} {ws : List Char}

/-- A star across segments in front of separators lands where the text ends with just those. -/
theorem drop_landing (hws : ∀ d ∈ ws, d = c) (h : ws <:+ cs.toList) :
    cs.toList.drop (landing c cs 0 (ws.count c)) = ws := by
  obtain ⟨front, hf⟩ := h
  cases ws with
  | nil => exact List.drop_eq_nil_of_le (by simp [landing])
  | cons d ws =>
    obtain ⟨rfl, hws⟩ := List.forall_mem_cons.mp hws
    have hd : cs.toList.drop front.length = d :: ws := by
      rw [← hf, List.drop_left]
    have hat : cs[front.length]? = some d := by
      have := congrArg List.head? hd
      rwa [List.head?_drop, Array.getElem?_toList] at this
    have hbehind : Subject.separatorsFrom d cs (front.length + 1) = ws.count d := by
      rw [Subject.separatorsFrom, ← List.tail_drop, hd, List.tail_cons]
    rw [List.count_cons_self, landing_eq hat hbehind (Nat.zero_le _)]
    exact hd

/-- In front of separators only, all of them are wanted. -/
theorem isMatched_doubleStar_of_separators (hws : ws.dropWhile (· = c) = []) :
    (route (ofChars (some c) cs) none (.doubleStar :: ws.map (.ofPlain (some c))) 0).isMatched ↔
      ws <:+ cs.toList := by
  have plain : ∀ t ∈ ws.map (Token.ofPlain (some c)), t.isWildcard = false :=
    fun t => Token.isWildcard_of_mem_map_ofPlain
  rcases Nat.eq_zero_or_pos cs.size with hz | hpos
  · have hsize : (ofChars (some c) cs).size ≤ 0 := hz.le
    rw [isMatched_route_of_size_le hsize, Array.size_eq_zero_iff.mp hz]
    cases ws with
    | nil => simp [Token.kind, Kind.isNullable]
    | cons d ws =>
      have hn := Token.isNullable_of_not_isWildcard (@Token.isWildcard_ofPlain (some c) d)
      simp [hn]
  · have hall : ∀ d ∈ ws, d = c := fun d hd => by
      simpa using List.dropWhile_eq_nil_iff.mp hws d hd
    rw [route_doubleStar_jump hpos none (Outlook.run_ofPlain_eq_nil_iff.mpr hws),
      Outcome.isMatched_prepend, Outlook.separators_ofPlain,
      isMatched_route_plain _ plain (landing_le_size hpos.le _), Token.map_symbol_ofPlain]
    exact ⟨fun h => h ▸ List.drop_suffix _ _, fun h => (drop_landing hall h).symm⟩

/-- Separators in front of a run stand for nothing. -/
theorem isMatched_doubleStar_of_run (hws : ws.dropWhile (· = c) ≠ []) :
    (route (ofChars (some c) cs) none (.doubleStar :: ws.map (.ofPlain (some c))) 0).isMatched ↔
      ws.dropWhile (· = c) <:+ cs.toList := by
  have hrun := mt Outlook.run_ofPlain_eq_nil_iff.mp hws
  have plain : ∀ n, ∀ t ∈ (ws.map (Token.ofPlain (some c))).drop n, t.isWildcard = false :=
    fun n t ht => Token.isWildcard_of_mem_map_ofPlain (List.mem_of_mem_drop ht)
  rw [route_doubleStar_seek (Nat.zero_le _) none hrun, Outcome.isMatched_firstOf_of_ne_exhausted,
    ← Outlook.run_append_ofPlain, ← exists_site_iff hrun]
  · refine exists_congr fun p => and_congr_right fun hp => ?_
    rw [Outcome.isMatched_prepend,
      isMatched_route_plain _ (plain _) (mem_sitesWithin.mp hp).2.2.2, eq_comm]
  · exact fun p _ he =>
      route_plain_ne_exhausted (plain _) _ _ (Outcome.prepend_eq_exhausted.mp he)

end Search

/-- What is left of a plain text behind a star across segments. Separators in front stand for
    nothing, unless there is nothing else. -/
def sought (c : Char) (ws : List Char) : List Char :=
  if ws.dropWhile (· = c) = [] then ws else ws.dropWhile (· = c)

namespace Pattern

theorem separator_ne_star {c : Char} (hc : isMetacharacter c = false) : some c ≠ some '*' := by
  rintro he
  rw [Option.some.inj he] at hc
  cases hc

/-- A star across segments in front of a plain text matches what ends with the text that is sought
    behind it. -/
theorem isMatch_doubleStar_plain_iff {c : Char} (hc : isMetacharacter c = false) {w : String}
    (plain : ∀ d ∈ w.toList, isMetacharacter d = false) (text : String) :
    (compile ("**" ++ w) (some c)).isMatch text ↔ sought c w.toList <:+ text.toList := by
  have htokens : (compile ("**" ++ w) (some c)).tokens =
      .doubleStar :: w.toList.map (.ofPlain (some c)) := by
    have head : ∀ d, w.toList.head? = some d → isMetacharacter d = false :=
      fun d hd => plain d (List.mem_of_mem_head? hd)
    rw [tokens_doubleStar_append (separator_ne_star hc) head, tokens_plain plain]
  rw [isMatch_eq, route, htokens, sought]
  split
  · next hws => exact Search.isMatched_doubleStar_of_separators hws
  · next hws => exact Search.isMatched_doubleStar_of_run hws

/-- Separators on both sides of the run that is sought. -/
theorem isMatch_doubleStar_plain_of_separators :
    isMetacharacter '/' = false ∧ (∀ d ∈ "/a/b".toList, isMetacharacter d = false) ∧
      ((compile ("**" ++ "/a/b") (some '/')).isMatch "xa/b" ↔
        sought '/' "/a/b".toList <:+ "xa/b".toList) :=
  have hc : isMetacharacter '/' = false := by decide
  have plain : ∀ d ∈ "/a/b".toList, isMetacharacter d = false := by
    simp [isMetacharacter, escapeChar]
  ⟨hc, plain, isMatch_doubleStar_plain_iff hc plain "xa/b"⟩

/-- The text need not end with a separator in front of the run. -/
theorem isMatch_doubleStar_without_suffix :
    isMetacharacter '/' = false ∧ (∀ d ∈ "/a".toList, isMetacharacter d = false) ∧
      (compile ("**" ++ "/a") (some '/')).isMatch "a" = true ∧ ¬"/a".toList <:+ "a".toList := by
  refine ⟨by decide, ?_, by decide +kernel⟩
  simp [isMetacharacter, escapeChar]

end Pattern

/-! ### In front of a star that stays in its segment -/

namespace Outlook

/-- A run in front of what does not begin with a literal is the next run. -/
theorem nextRun_literals_append (run : List Char) {ts : List Token}
    (h : (ofTokens ts).nextRun = []) : (ofTokens (run.map .literal ++ ts)).nextRun = run := by
  induction run with
  | nil => exact h
  | cons d run ih => rw [List.map_cons, List.cons_append, nextRun_literal, ih]

end Outlook

namespace Search

variable {c : Char} {cs : Array Char} {j : ℕ} {run : List Char}

/-- The sites that a star tries in its segment are the ways to go on with the run before a
    separator comes. -/
theorem mem_sitesWithin_segment_iff (hj : j ≤ cs.size) (hr : run ≠ []) (hrun : c ∉ run) {p : ℕ} :
    p ∈ sitesWithin cs run j ((ofChars (some c) cs).segmentStop j) ↔
      ∃ within behind, cs.toList.drop j = within ++ run ++ behind ∧ c ∉ within ∧
        p = j + within.length := by
  have hstop : ∀ {within behind}, cs.toList.drop j = within ++ run ++ behind →
      (j + within.length + run.length ≤ (ofChars (some c) cs).segmentStop j ↔ c ∉ within) := by
    intro within behind h
    rw [Nat.add_assoc, ← List.length_append, le_segmentStop_iff hj h, List.mem_append, not_or,
      and_iff_left hrun]
  rw [mem_sitesWithin_iff hr]
  constructor
  · rintro ⟨hjp, hlimit, behind, hb⟩
    obtain ⟨n, rfl⟩ : ∃ n, p = j + n := ⟨p - j, by omega⟩
    have hlen : ((cs.toList.drop j).take n).length = n := by
      have := congrArg List.length hb
      have hpos := List.length_pos_of_ne_nil hr
      rw [List.length_drop, List.length_append] at this
      rw [List.length_take, List.length_drop]
      omega
    have h : cs.toList.drop j = (cs.toList.drop j).take n ++ run ++ behind := by
      rw [List.append_assoc, ← hb, ← List.drop_drop, List.take_append_drop]
    refine ⟨_, behind, h, (hstop h).mp ?_, by rw [hlen]⟩
    rwa [hlen]
  · rintro ⟨within, behind, h, hw, rfl⟩
    refine ⟨Nat.le_add_right _ _, (hstop h).mpr hw, behind, ?_⟩
    rw [List.append_assoc] at h
    exact drop_add_length h

section

variable (hj : j ≤ cs.size) (hr : run ≠ []) (before : Option Kind)

include hj hr

/-- A star that seeks a run in its segment, with nothing behind it. -/
theorem route_star_literals :
    route (ofChars (some c) cs) before (.star :: run.map .literal) j =
      .firstOf
        (fun p => (route (ofChars (some c) cs) (some .literal) [] (p + run.length)).prepend
          (⟨.star, j, p⟩ :: Stride.spell p run))
        false (sitesWithin cs run j ((ofChars (some c) cs).segmentStop j)) := by
  have hnext : (Outlook.ofTokens (run.map .literal)).nextRun = run := by
    have := @Outlook.nextRun_literals_append run [] rfl
    rwa [List.append_nil] at this
  rw [route_star hj, hnext, if_neg hr, ← @List.length_map _ _ run Token.literal, List.drop_length]

variable (hrun : c ∉ run)

include hrun

/-- It leaves the search open just when the segment does not go on with the run. -/
theorem route_star_literals_eq_failed_iff :
    route (ofChars (some c) cs) before (.star :: run.map .literal) j = .failed ↔
      ¬∃ within behind, cs.toList.drop j = within ++ run ++ behind ∧ c ∉ within := by
  rw [route_star_literals hj hr, Outcome.firstOf_eq_failed_iff, List.eq_nil_iff_forall_not_mem]
  simp only [mem_sitesWithin_segment_iff hj hr hrun]
  constructor
  · rintro h ⟨within, behind, hd, hw⟩
    exact h _ ⟨within, behind, hd, hw, rfl⟩
  · rintro h p ⟨within, behind, hd, hw, -⟩
    exact h ⟨within, behind, hd, hw⟩

/-- It fits just when the segment ends with the run, and the text does. -/
theorem isMatched_star_literals_iff :
    (route (ofChars (some c) cs) before (.star :: run.map .literal) j).isMatched ↔
      ∃ within, cs.toList.drop j = within ++ run ∧ c ∉ within := by
  have hsize := (Subject.endsSegment (some c) hj).le_size
  have hnil : ∀ t ∈ ([] : List Token), t.isWildcard = false := nofun
  rw [route_star_literals hj hr, Outcome.isMatched_firstOf_of_ne_exhausted]
  · constructor
    · rintro ⟨p, hp, hm⟩
      have hend := (mem_sitesWithin.mp hp).2.2.2.trans hsize
      obtain ⟨within, behind, hd, hw, rfl⟩ := (mem_sitesWithin_segment_iff hj hr hrun).mp hp
      rw [Outcome.isMatched_prepend, isMatched_route_plain _ hnil hend, Nat.add_assoc,
        ← List.length_append, drop_add_length hd] at hm
      exact ⟨within, by rw [hd, ← hm, List.map_nil, List.append_nil], hw⟩
    · rintro ⟨within, hd, hw⟩
      have hd' : cs.toList.drop j = within ++ run ++ [] := by rw [hd, List.append_nil]
      have hp := (mem_sitesWithin_segment_iff hj hr hrun).mpr ⟨within, [], hd', hw, rfl⟩
      have hend := (mem_sitesWithin.mp hp).2.2.2.trans hsize
      refine ⟨_, hp, ?_⟩
      rw [Outcome.isMatched_prepend, isMatched_route_plain _ hnil hend, Nat.add_assoc,
        ← List.length_append, drop_add_length hd']
      rfl
  · exact fun p _ he => route_plain_ne_exhausted hnil _ _ (Outcome.prepend_eq_exhausted.mp he)

end

/-- A star across segments that seeks a run right behind it. -/
theorem route_doubleStar_literals (hj : j ≤ cs.size) (before : Option Kind) (hr : run ≠ [])
    {ts : List Token} (hts : (Outlook.ofTokens ts).nextRun = []) :
    route (ofChars (some c) cs) before (.doubleStar :: (run.map .literal ++ ts)) j =
      .firstOf
        (fun p => (route (ofChars (some c) cs) (some .literal) ts (p + run.length)).prepend
          (⟨.doubleStar, j, p⟩ :: Stride.spell p run))
        false (sitesWithin cs run j cs.size) := by
  have hnext := Outlook.nextRun_literals_append run hts
  obtain ⟨hgap, hrun⟩ := Outlook.run_eq_nextRun (hnext.trans_ne hr)
  rw [hnext] at hrun
  rw [route_doubleStar_seek hj before (hrun.trans_ne hr), Outlook.reach, hgap, hrun, Nat.zero_add,
    ← @List.length_map _ _ run Token.literal, List.drop_left]
  rfl

/-- Of a text without a separator that ends with a run, the end is what stands before the run. -/
theorem exists_within_of_suffix {b y t : List Char} (h : y ++ b <:+ t) (ht : c ∉ t) :
    ∃ within, t = within ++ b ∧ c ∉ within := by
  obtain ⟨f, rfl⟩ := h
  rw [← List.append_assoc] at ht ⊢
  exact ⟨f ++ y, rfl, fun hc => ht (List.mem_append_left b hc)⟩

/-- A star across segments stops at the first place from which the segment goes on with both runs,
    and there the text must end with the second one. -/
theorem isMatched_doubleStar_star_iff {a b : List Char} (ha : a ≠ []) (hb : b ≠ []) (hcb : c ∉ b) :
    (route (ofChars (some c) cs) none
        (.doubleStar :: (a.map .literal ++ .star :: b.map .literal)) 0).isMatched ↔
      (∃ x y, cs.toList = x ++ a ++ (y ++ b) ∧ c ∉ y) ∧
        ¬∃ u v w, cs.toList = u ++ a ++ (v ++ b ++ w) ∧ c ∉ v ∧ c ∈ w := by
  have site : ∀ {u t}, cs.toList = u ++ a ++ t →
      u.length ∈ sitesWithin cs a 0 cs.size ∧ cs.toList.drop (u.length + a.length) = t := by
    intro u t h
    refine ⟨(mem_sitesWithin_text_iff ha).mpr ⟨u, t, h, rfl⟩, ?_⟩
    rw [← List.length_append, h, List.drop_left]
  have fit : ∀ p ∈ sitesWithin cs a 0 cs.size, _ := fun p hp =>
    isMatched_star_literals_iff (mem_sitesWithin.mp hp).2.2.2 hb (some .literal) hcb
  have unfit : ∀ p ∈ sitesWithin cs a 0 cs.size, _ := fun p hp =>
    route_star_literals_eq_failed_iff (mem_sitesWithin.mp hp).2.2.2 hb (some .literal) hcb
  rw [route_doubleStar_literals (Nat.zero_le _) none ha rfl]
  refine Outcome.isMatched_firstOf_iff (pairwise_sitesWithin _ _ _ _) false ?_ ?_
  · intro p hp hne hfirst
    simp only [ne_eq, Outcome.prepend_eq_failed] at hne hfirst
    rw [unfit p hp, not_not] at hne
    rw [Outcome.isMatched_prepend, fit p hp]
    obtain ⟨front, behind, hcs, rfl⟩ := (mem_sitesWithin_text_iff ha).mp hp
    obtain ⟨-, rfl⟩ := site hcs
    -- from any other place the text goes on with less
    have less : ∀ {u v w}, cs.toList = u ++ a ++ (v ++ b ++ w) → c ∉ v →
        v ++ b ++ w <:+ cs.toList.drop (front.length + a.length) := by
      intro u v w h hv
      obtain ⟨hu, hd⟩ := site h
      have hle := hfirst _ hu fun hf => (unfit _ hu).mp hf ⟨v, w, hd, hv⟩
      rw [← hd]
      exact List.drop_suffix_drop_left _ (Nat.add_le_add_right hle _)
    constructor
    · rintro ⟨y, hd, hy⟩
      refine ⟨⟨front, y, by rw [← hd, ← hcs], hy⟩, ?_⟩
      rintro ⟨u, v, w, h, hv, hw⟩
      have hc := (less h hv).subset (List.mem_append_right _ hw)
      rw [hd] at hc
      exact (List.mem_append.mp hc).elim hy hcb
    · rintro ⟨⟨x, y, h, hy⟩, hno⟩
      obtain ⟨v, w, hd, hv⟩ := hne
      have hw : c ∉ w := fun hw => hno ⟨front, v, w, by rw [← hd, ← hcs], hv, hw⟩
      rw [← List.append_nil (y ++ b)] at h
      have hsuffix := less h hy
      rw [List.append_nil] at hsuffix
      refine exists_within_of_suffix hsuffix fun hc => ?_
      rw [hd, List.mem_append, List.mem_append] at hc
      tauto
  · rintro hall ⟨⟨x, y, h, hy⟩, -⟩
    obtain ⟨hx, hd⟩ := site h
    refine (unfit _ hx).mp (Outcome.prepend_eq_failed.mp (hall _ hx)) ⟨y, [], ?_, hy⟩
    rw [hd, List.append_nil]

end Search

namespace Pattern

theorem map_ofPlain_of_forall_ne {c : Char} {us : List Char} (h : ∀ d ∈ us, d ≠ c) :
    us.map (Token.ofPlain (some c)) = us.map .literal :=
  List.map_congr_left fun d hd => if_neg fun he => h d hd (Option.some.inj he).symm

/-- A star across segments in front of a star that stays in its segment, with a run behind each:
    such a pattern matches what ends with both runs in one segment, as long as no segment before
    has them both. -/
theorem isMatch_doubleStar_star_iff {c : Char} (hc : isMetacharacter c = false) {a b : String}
    (ha : a ≠ "") (hb : b ≠ "") (plain_a : ∀ d ∈ a.toList, isMetacharacter d = false ∧ d ≠ c)
    (plain_b : ∀ d ∈ b.toList, isMetacharacter d = false ∧ d ≠ c) (text : String) :
    (compile ("**" ++ a ++ "*" ++ b) (some c)).isMatch text ↔
      (∃ x y, text.toList = x ++ a.toList ++ (y ++ b.toList) ∧ c ∉ y) ∧
        ¬∃ u v w, text.toList = u ++ a.toList ++ (v ++ b.toList ++ w) ∧ c ∉ v ∧ c ∈ w := by
  have hs := separator_ne_star hc
  have nonempty : ∀ {s : String}, s ≠ "" → s.toList ≠ [] :=
    fun h hn => h (String.toList_eq_nil_iff.mp hn)
  have head : ∀ d, (a ++ ("*" ++ b)).toList.head? = some d → isMetacharacter d = false := by
    intro d hd
    rw [String.toList_append, List.head?_append_of_ne_nil _ (nonempty ha)] at hd
    exact (plain_a d (List.mem_of_mem_head? hd)).1
  have htokens : (compile ("**" ++ a ++ "*" ++ b) (some c)).tokens =
      .doubleStar :: (a.toList.map .literal ++ .star :: b.toList.map .literal) := by
    calc (compile ("**" ++ a ++ "*" ++ b) (some c)).tokens
      _ = (compile ("**" ++ (a ++ ("*" ++ b))) (some c)).tokens := by
        rw [String.append_assoc, String.append_assoc]
      _ = .doubleStar :: (a.toList.map (.ofPlain (some c)) ++
            .star :: b.toList.map (.ofPlain (some c))) := by
        rw [tokens_doubleStar_append hs head, tokens_plain_append fun d hd => (plain_a d hd).1,
          tokens_star_append hs fun d hd => (plain_b d (List.mem_of_mem_head? hd)).1,
          tokens_plain fun d hd => (plain_b d hd).1]
      _ = _ := by
        rw [map_ofPlain_of_forall_ne fun d hd => (plain_a d hd).2,
          map_ofPlain_of_forall_ne fun d hd => (plain_b d hd).2]
  rw [isMatch_eq, route, htokens]
  exact Search.isMatched_doubleStar_star_iff (nonempty ha) (nonempty hb)
    fun hcb => (plain_b c hcb).2 rfl

/-- The runs come twice in the segment where they are found. -/
theorem isMatch_doubleStar_star_of_two_segments :
    (isMetacharacter '/' = false ∧ "a" ≠ "" ∧ "b" ≠ "" ∧
      (∀ d ∈ "a".toList, isMetacharacter d = false ∧ d ≠ '/') ∧
      ∀ d ∈ "b".toList, isMetacharacter d = false ∧ d ≠ '/') ∧
    ((compile ("**" ++ "a" ++ "*" ++ "b") (some '/')).isMatch "a/abab" ↔
      (∃ x y, "a/abab".toList = x ++ "a".toList ++ (y ++ "b".toList) ∧ '/' ∉ y) ∧
        ¬∃ u v w, "a/abab".toList = u ++ "a".toList ++ (v ++ "b".toList ++ w) ∧
          '/' ∉ v ∧ '/' ∈ w) :=
  have hc : isMetacharacter '/' = false := by decide
  have plain_a : ∀ d ∈ "a".toList, isMetacharacter d = false ∧ d ≠ '/' := by
    simp [isMetacharacter, escapeChar]
  have plain_b : ∀ d ∈ "b".toList, isMetacharacter d = false ∧ d ≠ '/' := by
    simp [isMetacharacter, escapeChar]
  ⟨⟨hc, by decide, by decide, plain_a, plain_b⟩,
    isMatch_doubleStar_star_iff hc (by decide) (by decide) plain_a plain_b "a/abab"⟩

/-- Both runs are in the first segment already, and no later one is tried. -/
theorem isMatch_doubleStar_star_gives_up :
    isMetacharacter '/' = false ∧
      (∀ d ∈ "a".toList, isMetacharacter d = false ∧ d ≠ '/') ∧
      (∀ d ∈ "b".toList, isMetacharacter d = false ∧ d ≠ '/') ∧
      "ab/ab" = "ab/" ++ "a" ++ "" ++ "b" ∧ '/' ∉ "".toList ∧
      (compile ("**" ++ "a" ++ "*" ++ "b") (some '/')).isMatch "ab/ab" = false := by
  refine ⟨by decide, ?_, ?_, by decide +kernel⟩ <;> simp [isMetacharacter, escapeChar]

end Pattern

end Wildcard
