import Mathlib.Data.List.Forall2
import Wildcard.Division
import Wildcard.Proofs.Conservation
import Wildcard.Proofs.Window

/-! Matching a text segment by segment.

    A pattern without stars across segments matches a text just when it has as many segments as the
    text and each of them, compiled alone, matches the segment across from it. Then the mask of the
    text is made up of the masks of its segments, and of separators.

        pattern   a*  /  ?b  /  +          text   ax  /  yb  /  z          mask   x (/) y (/) z -/

namespace Wildcard

open Subject (ofChars)

variable {c : Char}

/-! ### Dividing a text -/

/-- A text and its segments. -/
inductive Divides (c : Char) : List Char → List (List Char) → Prop
  | last {xs : List Char} (h : c ∉ xs) : Divides c xs [xs]
  | cons {xs rest : List Char} {segments : List (List Char)} (h : c ∉ xs)
    (behind : Divides c rest segments) : Divides c (xs ++ c :: rest) (xs :: segments)

theorem Divides.ne_nil {xs : List Char} {segments : List (List Char)} (h : Divides c xs segments) :
    segments ≠ [] := by
  cases h <;> nofun

/-- Cutting a text gives its segments. -/
theorem divides_cut (c : Char) (xs : List Char) :
    Divides c xs ((cut (some c) xs).1 :: (cut (some c) xs).2) := by
  induction xs with
  | nil => exact .last (List.not_mem_nil)
  | cons x xs ih =>
    by_cases hx : some c = some x
    · obtain rfl := Option.some.inj hx
      rw [cut_cons_separator rfl]
      exact .cons List.not_mem_nil ih
    · have hne : c ≠ x := fun he => hx (congrArg some he)
      rw [cut_cons_other hx]
      revert ih
      generalize (cut (some c) xs).1 = ys
      generalize (cut (some c) xs).2 = segments
      intro ih
      cases ih with
      | last h => exact .last (List.not_mem_cons_of_ne_of_not_mem hne h)
      | cons h behind => exact .cons (List.not_mem_cons_of_ne_of_not_mem hne h) behind

theorem toList_segments (c : Char) (text : String) :
    (Division.ofText (some c) text).segments.toList =
      ((cut (some c) text.toList).1 :: (cut (some c) text.toList).2).map String.ofList := by
  simp [Division.segments, Division.ofText]

/-- A segment of a text is a window on it. -/
theorem window_of_drop {cs : Array Char} {a : ℕ} {ys rest : List Char}
    (hd : cs.toList.drop a = ys ++ rest) (ha : a ≤ cs.size) (hy : c ∉ ys)
    (hr : rest = [] ∨ rest.head? = some c) : Window c cs ys.toArray a := by
  have hlen := congrArg List.length hd
  rw [List.length_drop, List.length_append, Array.length_toList] at hlen
  have get : ∀ j, cs[a + j]? = (ys ++ rest)[j]? := fun j => by
    rw [← hd, List.getElem?_drop, Array.getElem?_toList]
  refine ⟨by simp; omega, fun j hj => ?_, by simpa using hy, fun hlt => ?_⟩
  · rw [get, List.getElem?_append_left (by simpa using hj), List.getElem?_toArray]
  · rcases hr with rfl | hr
    · simp at hlen hlt
      omega
    · rw [get, List.size_toArray, List.getElem?_append_right le_rfl, Nat.sub_self,
        ← List.head?_eq_getElem?, hr]

/-! ### The tokens of a segment -/

namespace Pattern

/-- The pattern of a segment. -/
def piece (c : Char) (xs : List Char) : Pattern := compile (String.ofList xs) (some c)

theorem single_of_mem_piece {xs : List Char} (hx : c ∉ xs) (h : .doubleStar ∉ (piece c xs).tokens) :
    ∀ u ∈ (piece c xs).tokens, u = .star ∨ Search.Single c u := by
  intro u hu
  cases u with
  | star => exact Or.inl rfl
  | doubleStar => exact absurd hu h
  | question => exact Or.inr .question
  | plus => exact Or.inr .plus
  | literal d =>
    exact Or.inr (.literal fun he => (tidy _).literal_ne d hu (congrArg some he))
  | separator d =>
    obtain rfl := Option.some.inj ((tidy _).separator_eq d hu)
    have := mem_text_of_separator hu
    rw [piece, compile, String.toList_ofList] at this
    exact absurd this hx

/-- A search in a segment of a text goes like that of the segment's pattern, and then on. -/
theorem extends_piece {cs : Array Char} {a : ℕ} {xs ys : List Char}
    (hx : c ∉ xs) (hnd : .doubleStar ∉ (piece c xs).tokens) (h : Window c cs ys.toArray a)
    {ts : List Token} (hts : Search.Closes c ts) {before : Option Kind}
    (hb : before ≠ some .question) :
    Outcome.Extends a (Search.route (ofChars (some c) cs) none ts (a + ys.length))
      ((piece c xs).route (String.ofList ys))
      (Search.route (ofChars (some c) cs) before ((piece c xs).tokens ++ ts) a) := by
  rw [route, String.toList_ofList]
  have hbefore : none = some Kind.question ↔ before = some .question :=
    iff_of_false (by simp) hb
  exact Search.extends_route h hts (fun b => hts.route_eq b none) (single_of_mem_piece hx hnd)
    hbefore (Nat.zero_le _)

/-- The mask of a segment is what the wildcards take of it. -/
theorem mask?_piece {xs ys : List Char} (hy : c ∉ ys) {path : List Stride}
    (h : (piece c xs).route (String.ofList ys) = .matched path) :
    ∃ mask, (piece c xs).mask? (String.ofList ys) = some mask ∧
      mask.toList = (charsBy true ys path).filter (isInner (some c)) := by
  refine ⟨_, mask?_eq_some_iff.mpr ⟨path, h, rfl⟩, ?_⟩
  have hk := filter_kept h
  rw [String.toList_ofList] at hk
  rw [String.toList_ofList, String.toList_ofList]
  refine Eq.trans (List.filter_eq_self.mpr fun d hd => ?_).symm hk
  rw [isInner_iff]
  rintro he
  obtain rfl := Option.some.inj he
  exact hy (mem_of_mem_pick hd)

end Pattern

/-- What strides take of a segment they take of the text further on. -/
theorem charsBy_shift (wild : Bool) {cs ys rest : List Char} {a : ℕ} (hd : cs.drop a = ys ++ rest)
    {path : List Stride} (hp : ∀ q ∈ path, q.stop ≤ ys.length) :
    charsBy wild cs (path.map (.shift a)) = charsBy wild ys path := by
  rw [charsBy, List.flatMap_map]
  refine List.flatMap_congr fun q hq => ?_
  have hstop := hp q hq
  have hchars : (q.shift a).chars cs = q.chars ys := by
    have hlen : a + q.stop - (a + q.start) = q.stop - q.start := by omega
    rw [Stride.chars, Stride.chars, Stride.shift, hlen, ← List.drop_drop, hd, List.drop_append,
      List.take_append_of_le_length (by rw [List.length_drop]; omega)]
  rw [hchars]
  rfl

/-! ### All segments -/

/-- How a search that has a segment of the text for each segment of the pattern ends, and what its
    wildcards take. -/
structure Segmentwise (c : Char) (cs : List Char) (ps ys : List (List Char)) (o : Outcome) :
    Prop where
  isMatched_iff : o.isMatched ↔
    List.Forall₂ (fun x y => ((Pattern.piece c x).route (String.ofList y)).isMatched) ps ys
  masks : ∀ path, o = .matched path → ∃ masks : List String,
    List.zipWith (fun x y => (Pattern.piece c x).mask? (String.ofList y)) ps ys = masks.map some ∧
      (charsBy true cs path).filter (isInner (some c)) = masks.flatMap String.toList

theorem Segmentwise.of_failed {cs : List Char} {ps ys : List (List Char)} {o : Outcome}
    (ho : ¬o.isMatched)
    (h : ¬List.Forall₂ (fun x y => ((Pattern.piece c x).route (String.ofList y)).isMatched) ps ys) :
    Segmentwise c cs ps ys o where
  isMatched_iff := iff_of_false ho h
  masks path hp := absurd (Outcome.isMatched_iff.mpr ⟨path, hp⟩) ho

/-- One more segment in front. -/
theorem Segmentwise.cons {cs : Array Char} {a : ℕ} {x y rest : List Char}
    (hd : cs.toList.drop a = y ++ rest) (hy : c ∉ y) {ps ys : List (List Char)}
    {behind o : Outcome} (hrest : Segmentwise c cs.toList ps ys behind)
    (h : Outcome.Extends a behind ((Pattern.piece c x).route (String.ofList y)) o) :
    Segmentwise c cs.toList (x :: ps) (y :: ys) o where
  isMatched_iff := by rw [h.isMatched_iff, hrest.isMatched_iff, List.forall₂_cons]
  masks path hp := by
    obtain ⟨qs, path', hq, hb, rfl⟩ := h.eq_matched hp
    obtain ⟨mask, hm, hmask⟩ := Pattern.mask?_piece hy hq
    obtain ⟨masks, hms, hmasks⟩ := hrest.masks path' hb
    have hcourse := Pattern.course_of_route hq
    rw [String.toList_ofList] at hcourse
    have hstop := hcourse.stop_le_size (Nat.zero_le _)
    refine ⟨mask :: masks, ?_, ?_⟩
    · rw [List.zipWith_cons_cons, hm, hms, List.map_cons]
    · rw [charsBy_append, charsBy_shift true hd hstop, List.filter_append, ← hmask, hmasks,
        List.flatMap_cons]

/-- The end of the last segment. -/
theorem segmentwise_nil (cs : List Char) : Segmentwise c cs [] [] (.matched []) where
  isMatched_iff := iff_of_true rfl .nil
  masks path hp := by
    obtain rfl := Outcome.matched.inj hp
    exact ⟨[], rfl, rfl⟩

/-- A separator between two segments. -/
theorem Segmentwise.separator {cs : List Char} {ps ys : List (List Char)} {o : Outcome}
    (h : Segmentwise c cs ps ys o) (i : ℕ) :
    Segmentwise c cs ps ys (o.prepend [⟨.separator c, i, i + 1⟩]) where
  isMatched_iff := by rw [Outcome.isMatched_prepend, h.isMatched_iff]
  masks path hp := by
    obtain ⟨path', hp', rfl⟩ := Outcome.prepend_eq_matched.mp hp
    exact h.masks path' hp'

section

variable {cs : Array Char} {a : ℕ} {y rest : List Char}

theorem length_of_drop (hd : cs.toList.drop a = y ++ rest) (ha : a ≤ cs.size) :
    a + y.length + rest.length = cs.size := by
  have := congrArg List.length hd
  rw [List.length_drop, List.length_append, @Array.length_toList _ cs] at this
  omega

variable {ys : List (List Char)} {before : Option Kind}

/-- The last segment of a pattern is the last one of the text, or there is no way. -/
theorem segmentwise_last {x : List Char} (hx : c ∉ x)
    (hnd : .doubleStar ∉ (Pattern.piece c x).tokens) (ha : a ≤ cs.size)
    (hy : Divides c (cs.toList.drop a) ys) (hb : before ≠ some .question) :
    Segmentwise c cs.toList [x] ys
      (Search.route (ofChars (some c) cs) before (Pattern.piece c x).tokens a) := by
  have closes : Search.Closes c [] := Or.inl rfl
  generalize hd : cs.toList.drop a = zs at hy
  cases hy with
  | last hy =>
    rw [← List.append_nil zs] at hd
    have h := Pattern.extends_piece hx hnd (window_of_drop hd ha hy (Or.inl rfl)) closes hb
    have hend : (ofChars (some c) cs).size ≤ a + zs.length := (length_of_drop hd ha).ge
    rw [List.append_nil, Search.route_of_size_le hend] at h
    exact (segmentwise_nil _).cons hd hy h
  | @cons y rest ys hy behind =>
    have h := Pattern.extends_piece hx hnd (window_of_drop hd ha hy (Or.inr rfl)) closes hb
    have hlt : a + y.length < (ofChars (some c) cs).size := by
      have hlen := length_of_drop hd ha
      rw [List.length_cons] at hlen
      rw [Subject.size_ofChars]
      omega
    rw [List.append_nil, Search.route_nil hlt] at h
    refine .of_failed (fun ho => ?_) fun hall => ?_
    · cases (h.isMatched_iff.mp ho).2
    · rw [List.forall₂_cons, List.forall₂_nil_left_iff] at hall
      exact behind.ne_nil hall.2

/-- Another segment of a pattern has one of the text across from it that is not the last, or there
    is no way. -/
theorem segmentwise_more {x : List Char} {ps : List (List Char)} (hx : c ∉ x) (hps : ps ≠ [])
    (hnd : .doubleStar ∉ (Pattern.piece c x).tokens) {ts : List Token}
    (next : ∀ {b ys}, b ≤ cs.size → Divides c (cs.toList.drop b) ys →
      Segmentwise c cs.toList ps ys (Search.route (ofChars (some c) cs) (some .separator) ts b))
    (ha : a ≤ cs.size) (hy : Divides c (cs.toList.drop a) ys) (hb : before ≠ some .question) :
    Segmentwise c cs.toList (x :: ps) ys
      (Search.route (ofChars (some c) cs) before
        ((Pattern.piece c x).tokens ++ .separator c :: ts) a) := by
  have closes : Search.Closes c (.separator c :: ts) := Or.inr ⟨ts, rfl⟩
  generalize hd : cs.toList.drop a = zs at hy
  cases hy with
  | last hy =>
    rw [← List.append_nil zs] at hd
    have h := Pattern.extends_piece hx hnd (window_of_drop hd ha hy (Or.inl rfl)) closes hb
    have hend : (ofChars (some c) cs).size ≤ a + zs.length := (length_of_drop hd ha).ge
    rw [Search.route_of_size_le hend] at h
    refine .of_failed (fun ho => ?_) fun hall => ?_
    · cases (h.isMatched_iff.mp ho).2
    · rw [List.forall₂_cons, List.forall₂_nil_right_iff] at hall
      exact hps hall.2
  | @cons y rest ys hy behind =>
    have hlen := length_of_drop hd ha
    rw [List.length_cons] at hlen
    have hw := window_of_drop hd ha hy (Or.inr rfl)
    have h := Pattern.extends_piece hx hnd hw closes hb
    have hc : (ofChars (some c) cs).chars[a + y.length]? = some c := hw.closed (by
      rw [List.size_toArray]
      omega)
    have hrest : cs.toList.drop (a + y.length + 1) = rest := by
      rw [Nat.add_assoc, ← List.drop_drop, hd, List.drop_append]
      simp
    have hsep : c = (Token.separator c).symbol := rfl
    rw [Search.route_cons_plain hc none rfl, if_pos hsep] at h
    exact Segmentwise.cons hd hy (Segmentwise.separator (next (by omega) (by rwa [hrest])) _) h

/-- A search goes through a text segment by segment. -/
theorem segmentwise_route {xs : List Char} {ps : List (List Char)} (hx : Divides c xs ps)
    (hnd : .doubleStar ∉ (Pattern.piece c xs).tokens) (ha : a ≤ cs.size)
    (hy : Divides c (cs.toList.drop a) ys) (hb : before ≠ some .question) :
    Segmentwise c cs.toList ps ys
      (Search.route (ofChars (some c) cs) before (Pattern.piece c xs).tokens a) := by
  induction hx generalizing a ys before with
  | last hx => exact segmentwise_last hx hnd ha hy hb
  | @cons x xs ps hx behind ih =>
    have ht : (Pattern.piece c (x ++ c :: xs)).tokens =
        (Pattern.piece c x).tokens ++ .separator c :: (Pattern.piece c xs).tokens :=
      Pattern.tokens_append_separator c x xs
    rw [ht, List.mem_append, List.mem_cons, not_or, not_or] at hnd
    rw [ht]
    exact segmentwise_more hx behind.ne_nil hnd.1 (fun hb hys => ih hnd.2.2 hb hys nofun) ha hy hb

end

namespace Pattern

/-- Without stars across segments, a pattern matches a text segment by segment, and the mask of the
    text is made up of the masks of its segments and of separators. -/
theorem isMatch_segmentwise (c : Char) (pattern text : String)
    (h : .doubleStar ∉ (compile pattern (some c)).kinds) :
    ((compile pattern (some c)).isMatch text ↔
      List.Forall₂ (fun x y => (compile x (some c)).isMatch y)
        (Division.ofText (some c) pattern).segments.toList
        (Division.ofText (some c) text).segments.toList) ∧
    ((compile pattern (some c)).isMatch text → ∃ (mask : String) (masks : List String),
      (compile pattern (some c)).mask? text = some mask ∧
      List.zipWith (fun x y => (compile x (some c)).mask? y)
        (Division.ofText (some c) pattern).segments.toList
        (Division.ofText (some c) text).segments.toList = masks.map some ∧
      mask.toList.filter (fun d => d ≠ c) = masks.flatMap String.toList) := by
  have hpiece : piece c pattern.toList = compile pattern (some c) := by
    rw [piece, String.ofList_toList]
  have hnd : .doubleStar ∉ (piece c pattern.toList).tokens := by
    rw [hpiece]
    exact fun hm => h (List.mem_append_left _ (List.mem_map_of_mem hm))
  have hs : Segmentwise c text.toList _ _ ((piece c pattern.toList).route text) :=
    segmentwise_route (divides_cut c pattern.toList) hnd (Nat.zero_le _) (divides_cut c text.toList)
      nofun
  rw [hpiece] at hs
  rw [toList_segments, toList_segments, List.forall₂_map_left_iff, List.forall₂_map_right_iff,
    List.zipWith_map, isMatch_eq, hs.isMatched_iff]
  constructor
  · simp only [isMatch_eq, piece]
  · intro hall
    obtain ⟨path, hr⟩ := Outcome.isMatched_iff.mp (hs.isMatched_iff.mpr hall)
    obtain ⟨masks, hms, hmasks⟩ := hs.masks path hr
    refine ⟨_, masks, mask?_eq_some_iff.mpr ⟨path, hr, rfl⟩, hms, ?_⟩
    have hinner : (fun d => decide (d ≠ c)) = isInner (some c) := by
      funext d
      simp [isInner, eq_comm]
    rw [← hmasks, hinner, String.toList_ofList]
    exact filter_kept hr

/-- Two segments, with a star in each that stays in it. -/
theorem isMatch_segmentwise_of_two_segments :
    .doubleStar ∉ (compile "*a/?b*" (some '/')).kinds ∧
      ((compile "*a/?b*" (some '/')).isMatch "xa/ybz" ↔
        List.Forall₂ (fun x y => (compile x (some '/')).isMatch y)
          (Division.ofText (some '/') "*a/?b*").segments.toList
          (Division.ofText (some '/') "xa/ybz").segments.toList) ∧
      ((compile "*a/?b*" (some '/')).isMatch "xa/ybz" → ∃ (mask : String) (masks : List String),
        (compile "*a/?b*" (some '/')).mask? "xa/ybz" = some mask ∧
        List.zipWith (fun x y => (compile x (some '/')).mask? y)
          (Division.ofText (some '/') "*a/?b*").segments.toList
          (Division.ofText (some '/') "xa/ybz").segments.toList = masks.map some ∧
        mask.toList.filter (fun d => d ≠ '/') = masks.flatMap String.toList) :=
  have h : .doubleStar ∉ (compile "*a/?b*" (some '/')).kinds := by decide +kernel
  ⟨h, isMatch_segmentwise '/' "*a/?b*" "xa/ybz" h⟩

end Pattern

end Wildcard
