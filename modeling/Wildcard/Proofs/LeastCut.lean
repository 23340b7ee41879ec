import Wildcard.Proofs.AcrossSegments
import Wildcard.Proofs.Conservation

/-! Which way of matching a mask tells of.

    A text may be cut in more than one way into pieces that the tokens of a pattern stand for. Only
    the stars leave a choice: how long is the piece of the first star, and then that of the second,
    and so on. Without a separator, a search takes the shortest piece for each star from which the
    rest can still be matched, so it finds the cut whose lengths come first in the order of a
    dictionary, and the mask is what the wildcards have of that cut:

        pattern  * a b * c       text  x a b a b c
                                       ┴ a b └─┘ c      lengths 1, 2    the mask is "xab"
                                       └─┴─┘ a b ┴ c    lengths 3, 0    comes later -/

namespace Wildcard

open Subject (ofChars)

/-! ### Cuts -/

/-- What is left of a text, cut into one piece for each token. A `?` behind no other `?` leaves its
    character to a literal behind it. There is no separator. -/
inductive Cuts : Option Kind → List Token → List Char → List (List Char) → Prop
  | nil {before : Option Kind} : Cuts before [] [] []
  | literal {before : Option Kind} {c : Char} {ts : List Token} {cs : List Char}
    {pieces : List (List Char)} (rest : Cuts (some .literal) ts cs pieces) :
    Cuts before (.literal c :: ts) (c :: cs) ([c] :: pieces)
  | plus {before : Option Kind} {c : Char} {ts : List Token} {cs : List Char}
    {pieces : List (List Char)} (rest : Cuts (some .plus) ts cs pieces) :
    Cuts before (.plus :: ts) (c :: cs) ([c] :: pieces)
  | yield {before : Option Kind} {c : Char} {ts : List Token} {cs : List Char}
    {pieces : List (List Char)} (hq : before ≠ some .question ∧ ts.head? = some (.literal c))
    (rest : Cuts (some .question) ts (c :: cs) pieces) :
    Cuts before (.question :: ts) (c :: cs) ([] :: pieces)
  | question {before : Option Kind} {c : Char} {ts : List Token} {cs : List Char}
    {pieces : List (List Char)} (hq : ¬(before ≠ some .question ∧ ts.head? = some (.literal c)))
    (rest : Cuts (some .question) ts cs pieces) :
    Cuts before (.question :: ts) (c :: cs) ([c] :: pieces)
  | star {before : Option Kind} {t : Token} {ts : List Token} {piece cs cs' : List Char}
    {pieces : List (List Char)} (ht : t.kind.isStar) (hcs : cs = piece ++ cs')
    (rest : Cuts (some t.kind) ts cs' pieces) : Cuts before (t :: ts) cs (piece :: pieces)

/-- How long the pieces of the stars are, from left to right. -/
def starLengths (ts : List Token) (pieces : List (List Char)) : List ℕ :=
  ((ts.zip pieces).filter fun q => q.1.kind.isStar).map fun q => q.2.length

/-- The pieces of the wildcards, one after the other. -/
def wildPieces (ts : List Token) (pieces : List (List Char)) : List Char :=
  ((ts.zip pieces).filter fun q => q.1.isWildcard).flatMap fun q => q.2

/-- A cut that comes before every other one, by the lengths of the pieces of its stars. -/
structure Cuts.Least (before : Option Kind) (ts : List Token) (cs : List Char)
    (pieces : List (List Char)) : Prop where
  cuts : Cuts before ts cs pieces
  lt : ∀ pieces', Cuts before ts cs pieces' → pieces' ≠ pieces →
    starLengths ts pieces < starLengths ts pieces'

section

variable {t : Token} {ts : List Token} {piece : List Char} {pieces : List (List Char)}

theorem starLengths_cons_star (ht : t.kind.isStar) :
    starLengths (t :: ts) (piece :: pieces) = piece.length :: starLengths ts pieces := by
  simp [starLengths, ht]

theorem starLengths_cons (ht : t.kind.isStar = false) :
    starLengths (t :: ts) (piece :: pieces) = starLengths ts pieces := by
  simp [starLengths, ht]

end

namespace Cuts

variable {before : Option Kind} {t : Token} {ts : List Token} {cs cs' : List Char}
  {piece : List Char} {pieces : List (List Char)}

/-! ### Cuts fit -/

/-- Where tokens cut a text, they fit. -/
theorem fits {cs : Array Char} {i : ℕ} (h : Cuts before ts (cs.toList.drop i) pieces)
    (hi : i ≤ cs.size) : Fits none cs before ts i := by
  generalize hd : cs.toList.drop i = rest at h
  induction h generalizing i with
  | nil =>
    have := List.drop_eq_nil_iff.mp hd
    rw [@Array.length_toList _ cs] at this
    exact Nat.le_antisymm hi this
  | literal _ ih =>
    obtain ⟨hc, hd⟩ := Search.getElem?_of_drop_eq_cons hd
    exact ⟨hc, ih (Array.getElem?_eq_some_iff.mp hc).1 hd⟩
  | plus _ ih =>
    obtain ⟨hc, hd⟩ := Search.getElem?_of_drop_eq_cons hd
    exact ⟨⟨_, hc, nofun⟩, ih (Array.getElem?_eq_some_iff.mp hc).1 hd⟩
  | yield hq _ ih =>
    obtain ⟨hc, -⟩ := Search.getElem?_of_drop_eq_cons hd
    exact ⟨_, hc, by rw [if_pos hq]; exact ih hi hd⟩
  | question hq _ ih =>
    obtain ⟨hc, hd⟩ := Search.getElem?_of_drop_eq_cons hd
    exact ⟨_, hc, by rw [if_neg hq]; exact ⟨nofun, ih (Array.getElem?_eq_some_iff.mp hc).1 hd⟩⟩
  | @star _ t _ piece _ _ _ ht hcs _ ih =>
    rw [hcs] at hd
    have hlen := congrArg List.length hd
    rw [List.length_drop, List.length_append, @Array.length_toList _ cs] at hlen
    have hj : i + piece.length ≤ cs.size := by omega
    have hrest := ih hj (Search.drop_add_length hd)
    rw [fits_star_iff ht (Or.inr rfl) hi, Subject.segmentStop_none hi]
    exact ⟨_, Nat.le_add_right i _, hj, hrest⟩

/-! ### The least cut -/

/-- A piece that every cut begins with takes no part in the order. -/
theorem Least.cons (ht : t.kind.isStar = false) (h : Least (some t.kind) ts cs' pieces)
    (forced : ∀ pieces', Cuts before (t :: ts) cs pieces' ↔
      ∃ rest, pieces' = piece :: rest ∧ Cuts (some t.kind) ts cs' rest) :
    Least before (t :: ts) cs (piece :: pieces) where
  cuts := (forced _).mpr ⟨pieces, rfl, h.cuts⟩
  lt pieces' hc hne := by
    obtain ⟨rest, rfl, hrest⟩ := (forced _).mp hc
    rw [starLengths_cons ht, starLengths_cons ht]
    exact h.lt rest hrest fun he => hne (by rw [he])

namespace Least

theorem nil : Least before [] [] [] where
  cuts := .nil
  lt pieces' hc hne := by
    cases hc
    exact absurd rfl hne

theorem literal {c : Char} (h : Least (some .literal) ts cs pieces) :
    Least before (.literal c :: ts) (c :: cs) ([c] :: pieces) := by
  refine h.cons rfl fun pieces' => ⟨fun hc => ?_, ?_⟩
  · cases hc with
    | literal rest => exact ⟨_, rfl, rest⟩
    | star ht => cases ht
  · rintro ⟨rest, rfl, hrest⟩
    exact .literal hrest

theorem plus {c : Char} (h : Least (some .plus) ts cs pieces) :
    Least before (.plus :: ts) (c :: cs) ([c] :: pieces) := by
  refine h.cons rfl fun pieces' => ⟨fun hc => ?_, ?_⟩
  · cases hc with
    | plus rest => exact ⟨_, rfl, rest⟩
    | star ht => cases ht
  · rintro ⟨rest, rfl, hrest⟩
    exact .plus hrest

theorem yield {c : Char} (hq : before ≠ some .question ∧ ts.head? = some (.literal c))
    (h : Least (some .question) ts (c :: cs) pieces) :
    Least before (.question :: ts) (c :: cs) ([] :: pieces) := by
  refine h.cons rfl fun pieces' => ⟨fun hc => ?_, ?_⟩
  · cases hc with
    | yield _ rest => exact ⟨_, rfl, rest⟩
    | question hq' => exact absurd hq hq'
    | star ht => cases ht
  · rintro ⟨rest, rfl, hrest⟩
    exact .yield hq hrest

theorem question {c : Char} (hq : ¬(before ≠ some .question ∧ ts.head? = some (.literal c)))
    (h : Least (some .question) ts cs pieces) :
    Least before (.question :: ts) (c :: cs) ([c] :: pieces) := by
  refine h.cons rfl fun pieces' => ⟨fun hc => ?_, ?_⟩
  · cases hc with
    | yield hq' => exact absurd hq' hq
    | question _ rest => exact ⟨_, rfl, rest⟩
    | star ht => cases ht
  · rintro ⟨rest, rfl, hrest⟩
    exact .question hq hrest

/-- The piece of a star is the shortest behind which the rest can be cut. -/
theorem star (ht : t.kind.isStar) {n : ℕ} (hn : n ≤ cs.length)
    (h : Least (some t.kind) ts (cs.drop n) pieces)
    (shorter : ∀ m < n, ∀ pieces', ¬Cuts (some t.kind) ts (cs.drop m) pieces') :
    Least before (t :: ts) cs (cs.take n :: pieces) where
  cuts := .star ht (List.take_append_drop n cs).symm h.cuts
  lt pieces' hc hne := by
    cases hc with
    | @star _ _ _ piece _ rest pieces' _ hcs hrest =>
      obtain rfl : rest = cs.drop piece.length := by rw [hcs, List.drop_left]
      have htake : piece = cs.take piece.length := by rw [hcs, List.take_left]
      rw [starLengths_cons_star ht, starLengths_cons_star ht, List.length_take_of_le hn,
        List.cons_lt_cons_iff]
      rcases Nat.lt_trichotomy n piece.length with hlt | rfl | hgt
      · exact Or.inl hlt
      · exact Or.inr ⟨rfl, h.lt pieces' hrest fun he => hne (by rw [he, ← htake])⟩
      · exact absurd hrest (shorter _ hgt pieces')
    | _ => cases ht

/-- A run of literals has one piece for each. -/
theorem run {run : List Char} (hr : run ≠ []) (h : Least (some .literal) ts cs pieces) :
    Least before (run.map .literal ++ ts) (run ++ cs) (run.map ([·]) ++ pieces) := by
  induction run generalizing before with
  | nil => exact absurd rfl hr
  | cons c run ih =>
    cases run with
    | nil => exact h.literal
    | cons d run => exact (ih (List.cons_ne_nil d run)).literal

/-- At the end of a text all pieces are empty. -/
theorem ended (null : ∀ t ∈ ts, t.kind.isNullable) :
    Least before ts [] (ts.map fun _ => []) := by
  induction ts generalizing before with
  | nil => exact .nil
  | cons t ts ih =>
    obtain ⟨ht, hts⟩ := List.forall_mem_cons.mp null
    have hstar : t.kind.isStar := by cases t <;> first | rfl | cases ht
    have none : ∀ m < 0, ∀ pieces', ¬Cuts (some t.kind) ts (List.drop m []) pieces' :=
      fun m hm => absurd hm (Nat.not_lt_zero m)
    exact star hstar (Nat.zero_le _) (ih hts) none

end Least

end Cuts

/-! ### The cut that a search finds -/

/-- A star that succeeds has failed at all places before the one that it has found. -/
theorem Outcome.exists_first_of_firstOf_eq_matched {go : ℕ → Outcome} {found : Bool} {ps : List ℕ}
    (sorted : ps.Pairwise (· < ·)) {path : List Stride} (h : firstOf go found ps = .matched path) :
    ∃ p ∈ ps, go p = .matched path ∧ ∀ q ∈ ps, q < p → go q = .failed := by
  rcases firstOf_cases go found ps with ⟨qs, p, rest, rfl, hqs, -, he⟩ | ⟨-, he⟩
  · obtain ⟨hrest, -⟩ := List.pairwise_cons.mp (List.pairwise_append.mp sorted).2.1
    refine ⟨p, by simp, he.symm.trans h, fun q hq hlt => ?_⟩
    rcases List.mem_append.mp hq with hq | hq
    · exact hqs q hq
    · rcases List.mem_cons.mp hq with rfl | hq
      · exact absurd hlt (Nat.lt_irrefl q)
      · exact absurd hlt (hrest q hq).asymm
  · rw [he] at h
    split at h <;> cases h

namespace Search

open Cuts (Least)

variable {cs : Array Char} {before : Option Kind} {t : Token} {ts : List Token} {i : ℕ}
  {path : List Stride}

/-- The piece of a star ends at the first place from which the rest fits. -/
theorem least_stride (ht : t.kind.isStar) {p : ℕ} (hip : i ≤ p) (hp : p ≤ cs.size)
    {pieces : List (List Char)} (rest : Least (some t.kind) ts (cs.toList.drop p) pieces)
    (first : ∀ q, i ≤ q → q < p → ¬Fits none cs (some t.kind) ts q) :
    Least before (t :: ts) (cs.toList.drop i) (Stride.chars cs.toList ⟨t, i, p⟩ :: pieces) := by
  have hn : p - i ≤ (cs.toList.drop i).length := by
    rw [List.length_drop, @Array.length_toList _ cs]
    omega
  refine .star ht hn ?_ fun m hm pieces' hc => ?_
  · rwa [List.drop_drop, Nat.add_sub_cancel' hip]
  · have hm : m < p - i := hm
    rw [List.drop_drop] at hc
    exact first (i + m) (Nat.le_add_right i m) (by omega) (hc.fits (by omega))

/-- The strides of a run have one character each. -/
theorem map_chars_spell {run : List Char} {p : ℕ} (h : Subject.occursAt cs run p) :
    (Stride.spell p run).map (Stride.chars cs.toList) = run.map ([·]) := by
  induction run generalizing p with
  | nil => rfl
  | cons c run ih =>
    rw [Subject.occursAt, Bool.and_eq_true, decide_eq_true_eq, ← Array.getElem?_toList] at h
    rw [Stride.spell, List.map_cons, List.map_cons, Stride.chars_one h.1, ih h.2]

/-- A star that seeks a run takes what comes before the first place from which the rest fits. -/
theorem least_seek (ht : t.kind.isStar) {run : List Char} (hr : run ≠ []) {p : ℕ}
    (hp : p ∈ sitesWithin cs run i cs.size)
    (first : ∀ q ∈ sitesWithin cs run i cs.size, q < p →
      ¬Fits none cs (some .literal) ts (q + run.length))
    (rest : Least (some .literal) ts (cs.toList.drop (p + run.length))
      (path.map (Stride.chars cs.toList))) :
    Least before (t :: (run.map .literal ++ ts)) (cs.toList.drop i)
      ((⟨t, i, p⟩ :: (Stride.spell p run ++ path)).map (Stride.chars cs.toList)) := by
  obtain ⟨hip, hlt, hocc, -⟩ := mem_sitesWithin.mp hp
  obtain ⟨behind, hd⟩ := Subject.occursAt_iff.mp hocc
  rw [List.map_cons, List.map_append, map_chars_spell hocc]
  refine least_stride ht hip hlt.le ?_ fun q hiq hqp hfits => ?_
  · rw [drop_add_length hd.symm] at rest
    rw [← hd]
    exact rest.run hr
  · obtain ⟨hq, hfits⟩ := (fits_run hr).mp hfits
    have hle := Subject.le_size_of_occursAt hr hq
    exact first q (mem_sitesWithin.mpr ⟨hiq, by omega, hq, hle⟩) hqp hfits

/-- A star that goes through the places of a run finds the least cut, if behind each place the
    search tells whether the rest fits, and finds the least cut of it. -/
theorem least_of_sites (ht : t.kind.isStar) {run : List Char} (hr : run ≠ []) {go : ℕ → Outcome}
    (tells : ∀ p ∈ sitesWithin cs run i cs.size,
      Agrees none cs (some .literal) ts (p + run.length) (go p))
    (rest : ∀ p ∈ sitesWithin cs run i cs.size, ∀ path, go p = .matched path →
      Least (some .literal) ts (cs.toList.drop (p + run.length))
        (path.map (Stride.chars cs.toList)))
    (h : Outcome.firstOf (fun p => (go p).prepend (⟨t, i, p⟩ :: Stride.spell p run)) false
      (sitesWithin cs run i cs.size) = .matched path) :
    Least before (t :: (run.map .literal ++ ts)) (cs.toList.drop i)
      (path.map (Stride.chars cs.toList)) := by
  obtain ⟨p, hp, hgo, first⟩ :=
    Outcome.exists_first_of_firstOf_eq_matched (pairwise_sitesWithin _ _ _ _) h
  rw [Outcome.prepend_eq_matched] at hgo
  obtain ⟨path', h', rfl⟩ := hgo
  have unfit : ∀ q ∈ sitesWithin cs run i cs.size, q < p →
      ¬Fits none cs (some .literal) ts (q + run.length) := by
    intro q hq hqp
    have := tells q hq
    rwa [Outcome.prepend_eq_failed.mp (first q hq hqp)] at this
  exact least_seek ht hr hp unfit (rest p hp path' h')

/-- At the end of the text the tokens that are left take nothing. -/
theorem least_at_end (h : route (ofChars none cs) before ts cs.size = .matched path) :
    Least before ts (cs.toList.drop cs.size) (path.map (Stride.chars cs.toList)) := by
  rw [route_of_size_le (show (ofChars none cs).size ≤ cs.size from le_rfl)] at h
  split at h
  · next hn =>
    obtain rfl := Outcome.matched.inj h
    have hidle : (ts.map (Stride.idle cs.size)).map (Stride.chars cs.toList) =
        ts.map fun _ => [] := by
      rw [List.map_map]
      exact List.map_congr_left fun t _ => Stride.chars_idle _ _ t
    rw [hidle, List.drop_eq_nil_of_le Array.length_toList.le]
    exact .ended (List.all_eq_true.mp hn)
  · cases h

/-- A search that succeeds has found the least cut. -/
theorem least_of_route {before : Option Kind} {ts : List Token} (tidy : Token.Tidy none ts)
    (orderly : Orderly none (kindsOf ts)) {i : ℕ} (hi : i ≤ cs.size) {path : List Stride}
    (h : route (ofChars none cs) before ts i = .matched path) :
    Least before ts (cs.toList.drop i) (path.map (Stride.chars cs.toList)) := by
  rcases hi.eq_or_lt with rfl | hlt
  · exact least_at_end h
  · match ts with
    | [] => cases (route_nil (show i < (ofChars none cs).size from hlt) before).symm.trans h
    | t :: ts =>
      have hc : cs[i]? = some cs[i] := Array.getElem?_eq_getElem hlt
      have hd : cs.toList.drop i = cs[i] :: cs.toList.drop (i + 1) :=
        List.drop_eq_getElem_cons (Array.length_toList ▸ hlt)
      have one : ∀ t, Stride.chars cs.toList ⟨t, i, i + 1⟩ = [cs[i]] :=
        Stride.chars_one (Array.getElem?_toList.trans hc)
      have next : ∀ {j path}, j ≤ cs.size →
          route (ofChars none cs) (some t.kind) ts j = .matched path →
          Least (some t.kind) ts (cs.toList.drop j) (path.map (Stride.chars cs.toList)) :=
        fun hj => least_of_route tidy.tail orderly.tail hj
      rw [route_cons hc] at h
      cases hm : (Leg.facing (ofChars none cs) before t ts).move (ofChars none cs) i cs[i]
        with
      | stuck => rw [hm] at h; cases h
      | yield =>
        rw [hm, Outcome.prepend_eq_matched] at h
        obtain ⟨path', h', rfl⟩ := h
        obtain ⟨rfl, -⟩ := Leg.of_move_yield hm
        have rest := next hi h'
        rw [hd] at rest ⊢
        rw [List.map_append, List.map_singleton, Stride.chars_idle]
        exact rest.yield (Leg.move_question_eq_yield.mp hm)
      | pass =>
        rw [hm, Outcome.prepend_eq_matched] at h
        obtain ⟨path', h', rfl⟩ := h
        rcases Leg.of_move_pass hm with rfl | ⟨rfl, -⟩
        · rw [hd, List.map_append, List.map_singleton, one]
          exact (next hlt h').literal
        · cases tidy.separator_eq _ List.mem_cons_self
      | take =>
        rw [hm, Outcome.prepend_eq_matched] at h
        obtain ⟨path', h', rfl⟩ := h
        rw [hd, List.map_append, List.map_singleton, one]
        rcases (Leg.of_move_take hm).1 with rfl | rfl
        · refine (next hlt h').question fun hq => ?_
          cases (Leg.move_question_eq_yield.mpr hq).symm.trans hm
        · exact (next hlt h').plus
      | trail =>
        obtain ⟨rfl, -⟩ := Leg.of_move_trail hm
        cases tidy.separator_eq _ List.mem_cons_self
      | jump stop =>
        rw [hm, Outcome.prepend_eq_matched] at h
        obtain ⟨path', h', rfl⟩ := h
        have ht := Leg.isStar_of_move (Or.inl hm)
        rcases Leg.of_move_jump hm with ⟨-, hr, rfl⟩ | ⟨-, hs, -⟩
        · rcases separator_of_jump ht tidy orderly hr with rfl | ⟨c, us, rfl⟩
          · rw [Subject.segmentStop_none hi] at h' ⊢
            exact least_stride ht hi le_rfl (next le_rfl h') fun q _ hq => hq.ne
          · cases tidy.tail.separator_eq c List.mem_cons_self
        · cases hs
      | seek limit =>
        rw [hm] at h
        obtain ⟨hr, ⟨-, hgap, rfl⟩ | ⟨-, hs, -⟩⟩ := Leg.of_move_seek hm
        · obtain ⟨hts, -, -⟩ := seeks_of_move tidy orderly hm
          have tidy' := tidy.tail.drop (Outlook.ofTokens ts).reach
          have orderly' := orderly_drop orderly.tail (Outlook.ofTokens ts).reach
          rw [Subject.segmentStop_none hi, hgap, List.take_zero] at h
          have found : Least before _ _ _ := least_of_sites (Leg.isStar_of_move (Or.inr hm)) hr
            (fun p hp => agrees_route _ tidy' orderly' (mem_sitesWithin.mp hp).2.2.2)
            (fun p hp path h => least_of_route tidy' orderly' (mem_sitesWithin.mp hp).2.2.2 h) h
          rwa [← hts] at found
        · cases hs
termination_by ts.length
decreasing_by all_goals (simp only [List.length_cons, List.length_drop]; omega)

end Search

/-! ### Masks -/

/-- What strides say of the wildcards is what the wildcards have of the cut. -/
theorem wildPieces_map (cs : List Char) (path : List Stride) :
    wildPieces (path.map Stride.token) (path.map (Stride.chars cs)) = charsBy true cs path := by
  induction path with
  | nil => rfl
  | cons q path ih =>
    rw [wildPieces] at ih
    rw [charsBy_cons, ← ih, wildPieces]
    cases hw : q.token.isWildcard <;> simp [hw]

namespace Pattern

/-- Without a separator, and with no wildcard for one character right behind a star, the mask of a
    text is what the wildcards have of one cut: of all ways to cut the text, the one for which the
    lengths of the pieces of the stars, from left to right, come first in the order of a
    dictionary. -/
theorem exists_least_cut_of_isMatch {pattern text : String}
    (apart : (compile pattern none).kinds.IsChain fun k l =>
      k.isStar → l ≠ .question ∧ l ≠ .plus)
    (h : (compile pattern none).isMatch text) :
    ∃ pieces, Cuts none (compile pattern none).tokens text.toList pieces ∧
      (∀ pieces', Cuts none (compile pattern none).tokens text.toList pieces' → pieces' ≠ pieces →
        starLengths (compile pattern none).tokens pieces <
          starLengths (compile pattern none).tokens pieces') ∧
      (compile pattern none).mask? text =
        some (String.ofList (wildPieces (compile pattern none).tokens pieces)) := by
  have orderly : Orderly none (Search.kindsOf (compile pattern none).tokens) := ⟨apart, nofun, nofun⟩
  rw [isMatch_eq, Outcome.isMatched_iff] at h
  obtain ⟨path, hpath⟩ := h
  have hleast : Cuts.Least none (compile pattern none).tokens
      (text.toList.toArray.toList.drop 0) (path.map (Stride.chars text.toList)) :=
    Search.least_of_route (compile pattern none).tidy orderly (Nat.zero_le _) hpath
  refine ⟨_, hleast.cuts, hleast.lt, mask?_eq_some_iff.mpr ⟨path, hpath, ?_⟩⟩
  have inner : ∀ cs : List Char, cs.filter (isInner none) = cs :=
    fun cs => List.filter_eq_self.mpr fun c _ => rfl
  have hkept := filter_kept hpath
  change List.filter (isInner none) _ = List.filter (isInner none) _ at hkept
  rw [inner, inner] at hkept
  rw [hkept, ← wildPieces_map, (course_of_route hpath).map_token]

/-- The second star gives way once before the rest fits, and the first one never does. -/
theorem exists_least_cut_of_retried :
    ((compile "*ab*c?d" none).kinds.IsChain fun k l => k.isStar → l ≠ .question ∧ l ≠ .plus) ∧
      (compile "*ab*c?d" none).isMatch "xababcacxd" ∧
      ∃ pieces, Cuts none (compile "*ab*c?d" none).tokens "xababcacxd".toList pieces ∧
        (∀ pieces', Cuts none (compile "*ab*c?d" none).tokens "xababcacxd".toList pieces' →
          pieces' ≠ pieces →
          starLengths (compile "*ab*c?d" none).tokens pieces <
            starLengths (compile "*ab*c?d" none).tokens pieces') ∧
        (compile "*ab*c?d" none).mask? "xababcacxd" =
          some (String.ofList (wildPieces (compile "*ab*c?d" none).tokens pieces)) :=
  have apart : (compile "*ab*c?d" none).kinds.IsChain fun k l =>
      k.isStar → l ≠ .question ∧ l ≠ .plus := by decide +kernel
  have h : (compile "*ab*c?d" none).isMatch "xababcacxd" := by decide +kernel
  ⟨apart, h, exists_least_cut_of_isMatch apart h⟩

end Pattern

end Wildcard
