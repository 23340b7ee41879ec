import Wildcard.Proofs.AcrossSegments

/-! A star across segments in front of some segments of any content.

    Behind the star there is nothing to seek, only separators with a star after each. The stars take
    one segment each, so from the place where the star across segments lands, the text must have as
    many separators as the pattern. It lands on the first of them, which may be the one right before
    the place where it stands:

        pattern  a / ** / * / *        text  a / b / c
                 └u┘                         └u┘└─r──┘  one separator in r, and the last one of u -/

namespace Wildcard

open Subject (ofChars)

/-- Separators with a star behind each. -/
def Token.trailing (c : Char) (k : ℕ) : List Token :=
  (List.replicate k [Token.separator c, Token.star]).flatten

theorem Token.trailing_succ (c : Char) (k : ℕ) :
    trailing c (k + 1) = .separator c :: .star :: trailing c k := by
  rw [trailing, List.replicate_succ, List.flatten_cons]
  rfl

namespace Outlook

variable (c : Char) (k : ℕ)

/-- All separators are wanted. -/
theorem separators_trailing : (ofTokens (Token.trailing c k)).separators = k := by
  induction k with
  | zero => rfl
  | succ k ih => simp [Token.trailing_succ, before, ih]

/-- There is nothing to seek. -/
theorem run_trailing : (ofTokens (Token.trailing c k)).run = [] := by
  induction k with
  | zero => rfl
  | succ k ih => simp [Token.trailing_succ, before, ih]

theorem nextRun_trailing : (ofTokens (Token.trailing c k)).nextRun = [] := by
  simp [nextRun, run_trailing]

end Outlook

namespace Search

variable {c : Char} {cs : Array Char} {i k : ℕ}

/-- A separator fits where the text has one, and what is behind it from there on. -/
theorem isMatched_separator_iff (before : Option Kind) (ts : List Token) :
    (route (ofChars (some c) cs) before (.separator c :: ts) i).isMatched ↔
      cs[i]? = some c ∧ (route (ofChars (some c) cs) (some .separator) ts (i + 1)).isMatched := by
  have plain : (Token.separator c).isWildcard = false := rfl
  cases hc : cs[i]? with
  | none =>
    have hi : (ofChars (some c) cs).size ≤ i := Array.getElem?_eq_none_iff.mp hc
    rw [isMatched_route_of_size_le hi]
    simp [Token.kind, Kind.isNullable]
  | some d =>
    rw [route_cons_plain hc before plain]
    by_cases hd : d = c
    · simp [hd, Token.symbol, Token.kind]
    · simp [hd, Token.symbol, Outcome.isMatched]

/-- A star, and then some segments of any content, fit where the text has just so many separators
    left. -/
theorem isMatched_star_trailing_iff (before : Option Kind) (hi : i ≤ cs.size) :
    (route (ofChars (some c) cs) before (.star :: Token.trailing c k) i).isMatched ↔
      Subject.separatorsFrom c cs i = k := by
  have hsize : (ofChars (some c) cs).size = cs.size := rfl
  induction k generalizing before i with
  | zero =>
    have hseg := Subject.endsSegment (some c) hi
    rw [route_star hi, if_pos (Outlook.nextRun_trailing c 0), Outcome.isMatched_prepend,
      ← Subject.separatorsFrom_segmentStop hi]
    rcases hseg.le_size.eq_or_lt with he | hlt
    · rw [he, Subject.separatorsFrom_of_size_le le_rfl, isMatched_route_of_size_le hsize.le]
      simp [Token.trailing]
    · -- a separator is left, and no token for it
      rw [Subject.separatorsFrom_eq_succ (hseg.eq_separator hlt)]
      have hnil : route (ofChars (some c) cs) (some .star) (Token.trailing c 0) _ = .failed :=
        route_nil hlt _
      simp [hnil, Outcome.isMatched]
  | succ k ih =>
    have hseg := Subject.endsSegment (some c) hi
    rw [route_star hi, if_pos (Outlook.nextRun_trailing c (k + 1)), Outcome.isMatched_prepend,
      Token.trailing_succ, isMatched_separator_iff, ← Subject.separatorsFrom_segmentStop hi]
    rcases hseg.le_size.eq_or_lt with he | hlt
    · rw [he, Subject.separatorsFrom_of_size_le le_rfl]
      simp
    · have hc := hseg.eq_separator hlt
      rw [and_iff_right hc, Subject.separatorsFrom_eq_succ hc, Nat.succ_inj]
      exact ih (some .separator) hlt

/-- Some segments of any content fit behind a separator that has just so many others behind it as
    are wanted. -/
theorem isMatched_trailing_iff (before : Option Kind) :
    (route (ofChars (some c) cs) before (Token.trailing c (k + 1)) i).isMatched ↔
      cs[i]? = some c ∧ Subject.separatorsFrom c cs (i + 1) = k := by
  rw [Token.trailing_succ, isMatched_separator_iff]
  refine and_congr_right fun hc => isMatched_star_trailing_iff _ ?_
  have := (Array.getElem?_eq_some_iff.mp hc).1
  omega

/-- A star across segments goes back by one position at most. -/
theorem le_landing (c : Char) (cs : Array Char) (i k : ℕ) : i ≤ landing c cs i (k + 1) + 1 := by
  rw [landing]
  cases (ofChars (some c) cs).separatorFromEnd k with
  | none => exact Nat.le_succ i
  | some p =>
    rw [Option.filter_some]
    split
    · next hle => exact of_decide_eq_true hle
    · exact Nat.le_succ i

/-- A star across segments, and then some segments of any content, fit before the end of a text that
    has enough separators from the position before on. -/
theorem isMatched_doubleStar_trailing_iff (before : Option Kind) (hi : i ≤ cs.size) :
    (route (ofChars (some c) cs) before (.doubleStar :: Token.trailing c (k + 1)) i).isMatched ↔
      i < cs.size ∧ ∃ p, i ≤ p + 1 ∧ cs[p]? = some c ∧ Subject.separatorsFrom c cs (p + 1) = k := by
  rcases hi.eq_or_lt with rfl | hlt
  · have hsize : (ofChars (some c) cs).size ≤ cs.size := le_rfl
    rw [isMatched_route_of_size_le hsize, Token.trailing_succ]
    simp [Token.kind, Kind.isNullable]
  · rw [route_doubleStar_jump hlt before (Outlook.run_trailing c (k + 1)),
      Outcome.isMatched_prepend, Outlook.separators_trailing,
      isMatched_trailing_iff, and_iff_right hlt]
    constructor
    · intro h
      exact ⟨_, le_landing c cs i k, h⟩
    · rintro ⟨p, hle, hp, hk⟩
      rw [landing_eq hp hk hle]
      exact ⟨hp, hk⟩

/-- There is a separator with just so many others behind it in a text, or right before, if there are
    more separators than that, the one right before counted. -/
theorem exists_separator_iff {us rs : List Char} :
    (∃ p, us.length ≤ p + 1 ∧ (us ++ rs).toArray[p]? = some c ∧
        Subject.separatorsFrom c (us ++ rs).toArray (p + 1) = k) ↔
      k < rs.count c + if us.getLast? = some c then 1 else 0 := by
  have hcount : Subject.separatorsFrom c (us ++ rs).toArray us.length = rs.count c := by
    rw [Subject.separatorsFrom, List.drop_left]
  constructor
  · rintro ⟨p, hle, hp, rfl⟩
    rcases hle.eq_or_lt with he | hlt
    · -- the separator right before
      have hlast : us.getLast? = some c := by
        rw [List.getElem?_toArray, List.getElem?_append_left (by omega)] at hp
        rw [List.getLast?_eq_getElem?, he, Nat.add_sub_cancel, hp]
      rw [← he, hcount, if_pos hlast]
      exact Nat.lt_succ_self _
    · have hanti := @Subject.separatorsFrom_anti (us ++ rs).toArray c _ _ (Nat.le_of_lt_succ hlt)
      rw [Subject.separatorsFrom_eq_succ hp, hcount] at hanti
      omega
  · intro hk
    by_cases hlt : k < rs.count c
    · rw [← hcount] at hlt
      obtain ⟨p, hle, hp, hat⟩ := Subject.exists_separator_of_lt hlt
      exact ⟨p, by omega, hp, hat⟩
    · split at hk
      · next hlast =>
        obtain ⟨vs, rfl⟩ := List.getLast?_eq_some_iff.mp hlast
        rw [List.length_append, List.length_singleton] at hcount ⊢
        refine ⟨vs.length, le_rfl, by simp, ?_⟩
        omega
      · omega

/-- Behind a plain text that the text begins with, the rest must not be empty, and must have enough
    separators. -/
theorem isMatched_plain_doubleStar_trailing_iff {us rs : List Char} :
    (route (ofChars (some c) (us ++ rs).toArray) none
        (us.map (.ofPlain (some c)) ++ .doubleStar :: Token.trailing c (k + 1)) 0).isMatched ↔
      rs ≠ [] ∧ k < rs.count c + if us.getLast? = some c then 1 else 0 := by
  have plain : ∀ t ∈ us.map (Token.ofPlain (some c)), t.isWildcard = false :=
    fun t => Token.isWildcard_of_mem_map_ofPlain
  have hd : (us ++ rs).toArray.toList.drop 0 =
      (us.map (Token.ofPlain (some c))).map Token.symbol ++ rs := by
    rw [Token.map_symbol_ofPlain, List.drop_zero]
  have hsize : (us ++ rs).toArray.size = us.length + rs.length := by simp
  have hle : us.length ≤ (us ++ rs).toArray.size := by omega
  have hrs : us.length < us.length + rs.length ↔ rs ≠ [] := by
    rw [Nat.lt_add_right_iff_pos, List.length_pos_iff]
  rw [route_plain_append plain _ none hd, Outcome.isMatched_prepend, List.length_map, Nat.zero_add,
    isMatched_doubleStar_trailing_iff _ hle, hsize, hrs, exists_separator_iff]

end Search

namespace Pattern

/-- Segments of any content begin with the separator. -/
theorem head?_trailing {c : Char} (hc : isMetacharacter c = false) (k : ℕ) {d : Char}
    (hd : (String.ofList (List.replicate k [c, '*']).flatten).toList.head? = some d) :
    isMetacharacter d = false := by
  cases k with
  | zero => cases hd
  | succ k =>
    obtain rfl : c = d := by simpa [List.replicate_succ] using hd
    exact hc

/-- What some segments of any content compile to. -/
theorem tokens_trailing {c : Char} (hc : isMetacharacter c = false) (k : ℕ) :
    (compile (String.ofList (List.replicate k [c, '*']).flatten) (some c)).tokens =
      Token.trailing c k := by
  induction k with
  | zero => rfl
  | succ k ih =>
    have htext : (List.replicate (k + 1) [c, '*']).flatten =
        [] ++ c :: '*' :: (List.replicate k [c, '*']).flatten := by
      rw [List.replicate_succ, List.flatten_cons]
      rfl
    have hstar : String.ofList ('*' :: (List.replicate k [c, '*']).flatten) =
        "*" ++ String.ofList (List.replicate k [c, '*']).flatten := by
      simp
    rw [htext, tokens_append_separator, hstar, tokens_star_append (separator_ne_star hc) fun d =>
      head?_trailing hc k, ih, Token.trailing_succ]
    rfl

/-- A plain text, a star across segments, and then some segments of any content: such a pattern
    matches what goes on behind the plain text, as long as there are enough separators, one at the
    end of the plain text included. -/
theorem isMatch_doubleStar_trailing_iff {c : Char} (hc : isMetacharacter c = false) {u : String}
    (plain : ∀ d ∈ u.toList, isMetacharacter d = false) {k : ℕ} (hk : 0 < k) (text : String) :
    (compile (u ++ "**" ++ String.ofList (List.replicate k [c, '*']).flatten)
        (some c)).isMatch text ↔
      ∃ r : String, text = u ++ r ∧ r ≠ "" ∧
        k ≤ r.toList.count c + if u.toList.getLast? = some c then 1 else 0 := by
  obtain ⟨k, rfl⟩ : ∃ l, k = l + 1 := ⟨k - 1, by omega⟩
  have htokens : (compile (u ++ "**" ++ String.ofList (List.replicate (k + 1) [c, '*']).flatten)
      (some c)).tokens =
      u.toList.map (.ofPlain (some c)) ++ .doubleStar :: Token.trailing c (k + 1) := by
    rw [String.append_assoc, tokens_plain_append plain,
      tokens_doubleStar_append (separator_ne_star hc) fun d => head?_trailing hc (k + 1),
      tokens_trailing hc]
  have behind : ∀ r : String,
      (compile (u ++ "**" ++ String.ofList (List.replicate (k + 1) [c, '*']).flatten)
        (some c)).isMatch (u ++ r) ↔
      r ≠ "" ∧ k + 1 ≤ r.toList.count c + if u.toList.getLast? = some c then 1 else 0 := by
    intro r
    rw [isMatch_eq, route, htokens, String.toList_append, ← String.toList_eq_nil_iff.ne]
    exact Search.isMatched_plain_doubleStar_trailing_iff
  constructor
  · intro h
    obtain ⟨r, rfl⟩ := exists_append_of_isMatch plain (String.append_assoc ▸ h)
    exact ⟨r, rfl, (behind r).mp h⟩
  · rintro ⟨r, rfl, hr⟩
    exact (behind r).mpr hr

/-- The star goes back onto the separator at the end of the plain text, and the last segment is
    empty. -/
theorem isMatch_doubleStar_trailing_of_edge :
    (isMetacharacter '/' = false ∧ (∀ d ∈ "a/".toList, isMetacharacter d = false) ∧ 0 < 2) ∧
      ((compile ("a/" ++ "**" ++ String.ofList (List.replicate 2 ['/', '*']).flatten)
          (some '/')).isMatch "a/b/" ↔
        ∃ r : String, "a/b/" = "a/" ++ r ∧ r ≠ "" ∧
          2 ≤ r.toList.count '/' + if "a/".toList.getLast? = some '/' then 1 else 0) :=
  have hc : isMetacharacter '/' = false := by decide
  have plain : ∀ d ∈ "a/".toList, isMetacharacter d = false := by
    simp [isMetacharacter, escapeChar]
  ⟨⟨hc, plain, by decide⟩, isMatch_doubleStar_trailing_iff hc plain (by decide) "a/b/"⟩

end Pattern

end Wildcard
