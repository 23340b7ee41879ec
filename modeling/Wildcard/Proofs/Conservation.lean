import Wildcard.Proofs.Keeping

/-! A mask and what is left of the text without it.

    Strides tile the text: each begins where the one before has stopped, and only a double star may
    begin one separator earlier. So every character but a separator belongs to one stride, to that
    of a wildcard or to that of a literal, and a mask with the literals makes the text again.

        text     a b / c        pattern  a * / c        mask  b        left  a / c -/

namespace Wildcard

open Subject (ofChars)

/-- `Interleaves xs ys zs`: the elements of `xs` and of `ys`, each in their order, make up `zs`. -/
inductive Interleaves {α : Type} : List α → List α → List α → Prop
  | nil : Interleaves [] [] []
  | left {x : α} {xs ys zs : List α} (h : Interleaves xs ys zs) :
    Interleaves (x :: xs) ys (x :: zs)
  | right {y : α} {xs ys zs : List α} (h : Interleaves xs ys zs) :
    Interleaves xs (y :: ys) (y :: zs)

/-- What is picked along a set and what is not make up the text. -/
theorem interleaves_pick (M : Positions) (cs : List Char) :
    Interleaves (pick M cs) (pick (fun p => !M p) cs) cs := by
  induction cs generalizing M with
  | nil => exact .nil
  | cons c cs ih =>
    have ih := ih fun p => M (p + 1)
    rw [pick, pick]
    cases M 0 with
    | true => exact .left ih
    | false => exact .right ih

/-- Whether a character is none that bounds segments. -/
def isInner (separator : Option Char) (c : Char) : Bool := separator ≠ some c

theorem isInner_iff {separator : Option Char} {c : Char} :
    isInner separator c ↔ separator ≠ some c := by simp [isInner]

/-- A separator counts for nothing, picked or not. -/
theorem filter_pick_separator {separator : Option Char} {c : Char} (hs : separator = some c)
    (M : Positions) (cs : List Char) :
    (pick M (c :: cs)).filter (isInner separator) =
      (pick (fun p => M (p + 1)) cs).filter (isInner separator) := by
  rw [pick]
  split <;> simp [isInner, hs]

/-- Two sets that differ at separators only pick the same other characters. -/
theorem filter_pick_congr {separator : Option Char} {M N : Positions} {cs : List Char}
    (h : ∀ p c, cs[p]? = some c → separator ≠ some c → M p = N p) :
    (pick M cs).filter (isInner separator) = (pick N cs).filter (isInner separator) := by
  induction cs generalizing M N with
  | nil => rfl
  | cons c cs ih =>
    have ih := ih (M := fun p => M (p + 1)) (N := fun p => N (p + 1)) fun p d hd hs =>
      h (p + 1) d hd hs
    by_cases hs : separator = some c
    · rw [filter_pick_separator hs, filter_pick_separator hs, ih]
    · rw [pick, pick, h 0 c rfl hs]
      split
      · rw [List.filter_cons, List.filter_cons, ih]
      · exact ih

/-! ### Strides tile the text -/

/-- The characters in the stretch of a stride. -/
def Stride.chars (cs : List Char) (q : Stride) : List Char :=
  (cs.drop q.start).take (q.stop - q.start)

/-- The characters in the stretches of the wildcards, or in those of the other tokens. -/
def charsBy (wild : Bool) (cs : List Char) (path : List Stride) : List Char :=
  path.flatMap fun q => if q.token.isWildcard == wild then q.chars cs else []

theorem charsBy_cons (wild : Bool) (cs : List Char) (q : Stride) (path : List Stride) :
    charsBy wild cs (q :: path) =
      (if q.token.isWildcard == wild then q.chars cs else []) ++ charsBy wild cs path := rfl

theorem charsBy_append (wild : Bool) (cs : List Char) (qs path : List Stride) :
    charsBy wild cs (qs ++ path) = charsBy wild cs qs ++ charsBy wild cs path :=
  List.flatMap_append

theorem Stride.takes_eq_false {q : Stride} {p : ℕ} (h : ¬(q.start ≤ p ∧ p < q.stop)) :
    q.takes p = false := by
  rw [takes, (Bool.not_eq_true _).mp (mt covers_iff.mp h), Bool.and_false]

theorem Stride.chars_idle (cs : List Char) (i : ℕ) (t : Token) : (idle i t).chars cs = [] := by
  rw [chars, idle, Nat.sub_self, List.take_zero]

theorem Stride.chars_one {cs : List Char} {i : ℕ} {c : Char} (h : cs[i]? = some c) (t : Token) :
    Stride.chars cs ⟨t, i, i + 1⟩ = [c] := by
  obtain ⟨hi, rfl⟩ := List.getElem?_eq_some_iff.mp h
  rw [chars, Nat.add_sub_cancel_left, List.drop_eq_getElem_cons hi, List.take_succ_cons,
    List.take_zero]

/-- The strides of a run spell it where it occurs. -/
theorem Stride.flatMap_chars_spell {cs : Array Char} {run : List Char} {i : ℕ}
    (h : Subject.occursAt cs run i) : (spell i run).flatMap (chars cs.toList) = run := by
  induction run generalizing i with
  | nil => rfl
  | cons c run ih =>
    rw [Subject.occursAt, Bool.and_eq_true, decide_eq_true_eq, ← Array.getElem?_toList] at h
    rw [spell, List.flatMap_cons, chars_one h.1, ih h.2, List.singleton_append]

theorem charsBy_idle (wild : Bool) (cs : List Char) (i : ℕ) (ts : List Token) :
    charsBy wild cs (ts.map (Stride.idle i)) = [] := by
  simp [charsBy, List.flatMap_map, Stride.chars_idle]

/-- No wildcard stands in a run that is spelled. -/
theorem charsBy_spell {cs : Array Char} {run : List Char} {i : ℕ}
    (h : Subject.occursAt cs run i) : charsBy false cs.toList (Stride.spell i run) = run := by
  refine (List.flatMap_congr fun q hq => if_pos ?_).trans (Stride.flatMap_chars_spell h)
  have := (Stride.mem_spell hq).2.2
  revert this
  cases q.token <;> simp [Token.kind, Token.isWildcard]

/-- The strides cover a text from a position on, each from where the one before has stopped; only
    onto a separator does one go back. -/
inductive Tiles (separator : Option Char) (cs : List Char) : ℕ → List Stride → Prop
  | nil {i : ℕ} (hi : cs.length ≤ i) : Tiles separator cs i []
  | onward {q : Stride} {path : List Stride} (le : q.start ≤ q.stop)
    (rest : Tiles separator cs q.stop path) : Tiles separator cs q.start (q :: path)
  | back {t : Token} {stop : ℕ} {path : List Stride} (hat : cs[stop]? = separator)
    (rest : Tiles separator cs stop path) :
    Tiles separator cs (stop + 1) (⟨t, stop + 1, stop⟩ :: path)

namespace Tiles

variable {separator : Option Char} {cs : List Char} {i : ℕ} {path : List Stride}

theorem idle (us : List Token) (h : Tiles separator cs i path) :
    Tiles separator cs i (us.map (.idle i) ++ path) := by
  induction us with
  | nil => exact h
  | cons u us ih => exact .onward (q := .idle i u) le_rfl ih

theorem spell (run : List Char) (h : Tiles separator cs (i + run.length) path) :
    Tiles separator cs i (Stride.spell i run ++ path) := by
  induction run generalizing i with
  | nil => exact h
  | cons c run ih =>
    rw [List.length_cons, Nat.add_comm run.length, ← Nat.add_assoc] at h
    exact .onward (q := ⟨.literal c, i, i + 1⟩) (Nat.le_succ i) (ih h)

/-- What comes before the strides they take no part of, a separator apart. -/
theorem taken_eq_false (h : Tiles separator cs i path) {p : ℕ} {c : Char} (hp : p < i)
    (hc : cs[p]? = some c) (hs : separator ≠ some c) : taken path p = false := by
  induction h with
  | nil => rfl
  | onward le rest ih =>
    rw [taken_cons, Stride.takes_eq_false (fun hq => by omega), Bool.false_or]
    exact ih (by omega)
  | @back t stop path hat rest ih =>
    have hne : p ≠ stop := by
      rintro rfl
      exact hs (hat.symm.trans hc)
    rw [taken_cons, Stride.takes_eq_false (fun hq => by dsimp only at hq; omega), Bool.false_or]
    exact ih (by omega)

/-- In its own stretch a stride says what is taken, a separator apart. -/
theorem filter_pick_chars {q : Stride} (rest : Tiles separator cs q.stop path) (wild : Bool) :
    (pick (fun p => taken (q :: path) (q.start + p) == wild) (q.chars cs)).filter
        (isInner separator) =
      (if q.token.isWildcard == wild then q.chars cs else []).filter (isInner separator) := by
  rw [@filter_pick_congr separator _ fun _ => q.token.isWildcard == wild]
  · by_cases hw : q.token.isWildcard == wild
    · rw [if_pos hw, pick_of_forall fun _ _ => hw]
    · rw [if_neg hw, pick_of_forall_not fun _ _ => (Bool.not_eq_true _).mp hw]
  · intro p c hc hs
    have hp : p < q.stop - q.start := by
      by_contra hp
      rw [Stride.chars, List.getElem?_take_eq_none (Nat.not_lt.mp hp)] at hc
      cases hc
    rw [Stride.chars, List.getElem?_take_of_lt hp, List.getElem?_drop] at hc
    have hq : q.covers (q.start + p) := Stride.covers_iff.mpr ⟨by omega, by omega⟩
    have hrest : taken path (q.start + p) = false := rest.taken_eq_false (by omega) hc hs
    rw [taken_cons, Stride.takes, hq, Bool.and_true, hrest, Bool.or_false]

/-- The characters at the positions that the wildcards take, or at the others, are those of the
    strides one after the other, as far as they are no separators. -/
theorem filter_pick (h : Tiles separator cs i path) (wild : Bool) :
    (pick (fun p => taken path (i + p) == wild) (cs.drop i)).filter (isInner separator) =
      (charsBy wild cs path).filter (isInner separator) := by
  induction h with
  | nil hi => rw [List.drop_eq_nil_of_le hi]; rfl
  | @onward q path le rest ih =>
    have behind : (fun p => taken (q :: path) (q.start + (q.stop - q.start + p)) == wild) =
        fun p => taken path (q.stop + p) == wild := by
      funext p
      have he : q.start + (q.stop - q.start + p) = q.stop + p := by omega
      rw [he, taken_cons, Stride.takes_eq_false fun hq => by omega, Bool.false_or]
    rw [pick_take_drop _ (q.stop - q.start), List.filter_append, charsBy_cons,
      List.filter_append, behind, List.drop_drop, Nat.add_sub_cancel' le, ih]
    exact congrArg (· ++ _) (rest.filter_pick_chars wild)
  | @back t stop path hat rest ih =>
    have none : (fun p => taken (⟨t, stop + 1, stop⟩ :: path) (stop + 1 + p) == wild) =
        fun p => taken path (stop + 1 + p) == wild := by
      funext p
      rw [taken_cons, Stride.takes_eq_false fun hq => by dsimp only at hq; omega, Bool.false_or]
    have hq : Stride.chars cs ⟨t, stop + 1, stop⟩ = [] := by
      rw [Stride.chars, Nat.sub_eq_zero_of_le (Nat.le_succ stop), List.take_zero]
    rw [none, charsBy_cons, hq, ite_self, List.nil_append, ← ih]
    rcases Nat.lt_or_ge stop cs.length with hlt | hge
    · rw [List.getElem?_eq_getElem hlt] at hat
      rw [List.drop_eq_getElem_cons hlt, filter_pick_separator hat.symm]
      simp only [Nat.add_right_comm, Nat.add_assoc]
    · rw [List.drop_eq_nil_of_le hge, List.drop_eq_nil_of_le (Nat.le_succ_of_le hge)]
      rfl

end Tiles

namespace Course

variable {separator : Option Char} {cs : Array Char} {ts : List Token} {i : ℕ}
  {path : List Stride}

/-- The strides of a course tile the text. -/
theorem tiles (h : Course (ofChars separator cs) ts i path) :
    Tiles separator cs.toList i path := by
  induction h with
  | @ended ts i hi null =>
    have h := Tiles.idle ts (@Tiles.nil separator cs.toList i hi)
    rwa [List.append_nil] at h
  | yield rest ih => exact ih.idle [.question]
  | @pass t _ i _ _ hc ht rest ih => exact .onward (q := ⟨t, i, i + 1⟩) (Nat.le_succ i) ih
  | @take t _ i _ _ hc ht hs rest ih => exact .onward (q := ⟨t, i, i + 1⟩) (Nat.le_succ i) ih
  | @jump t _ i stop _ ht le le_size clear rest ih => exact .onward (q := ⟨t, i, stop⟩) le ih
  | back run wanted hat rest ih =>
    exact .back (Array.getElem?_toList.trans (Subject.separatorFromEnd_spec hat).2) ih
  | @seek t us _ _ i p _ ht hu hr le occurs clear rest ih =>
    exact .onward (q := ⟨t, i, p⟩) le ((ih.spell _).idle us)

/-- No stride goes beyond the end of the text. -/
theorem stop_le_size (h : Course (ofChars separator cs) ts i path) (hi : i ≤ cs.size) :
    ∀ q ∈ path, q.stop ≤ cs.size := by
  induction h with
  | ended => exact List.forall_mem_map.mpr fun t _ => hi
  | yield rest ih => exact List.forall_mem_cons.mpr ⟨hi, ih hi⟩
  | pass hc ht rest ih =>
    have hlt := (Array.getElem?_eq_some_iff.mp hc).1
    exact List.forall_mem_cons.mpr ⟨hlt, ih hlt⟩
  | take hc ht hs rest ih =>
    have hlt := (Array.getElem?_eq_some_iff.mp hc).1
    exact List.forall_mem_cons.mpr ⟨hlt, ih hlt⟩
  | jump ht le le_size clear rest ih => exact List.forall_mem_cons.mpr ⟨le_size, ih le_size⟩
  | back run wanted hat rest ih =>
    have hlt := (Subject.separatorFromEnd_spec hat).1
    exact List.forall_mem_cons.mpr ⟨hlt.le, ih hlt.le⟩
  | @seek t us ts run i p path ht hu hr le occurs clear rest ih =>
    have hle : p + run.length ≤ cs.size := Subject.le_size_of_occursAt hr occurs
    have hp : p ≤ cs.size := (Nat.le_add_right p _).trans hle
    exact List.forall_mem_cons.mpr ⟨hp, Stride.forall_mem_sought (fun _ => hp)
      (fun q hq => (Stride.mem_spell hq).2.1.trans hle) (ih hle)⟩

/-- A separator stands wherever the stride of one stands. -/
theorem separator_of_separates (h : Course (ofChars separator cs) ts i path)
    (tidy : Token.Tidy separator ts) {p : ℕ} :
    ∀ q ∈ path, q.separates p → cs[p]? = separator := by
  have other : ∀ q : Stride, q.token.kind ≠ .separator → q.separates p → cs[p]? = separator :=
    fun q hq hs => absurd (Stride.separates_iff.mp hs).1 hq
  have idle : ∀ i t, (Stride.idle i t).separates p → cs[p]? = separator := fun i t hs => by
    have := (Stride.separates_iff.mp hs).2
    rw [Stride.covers_idle] at this
    cases this
  induction h with
  | ended hi null => exact List.forall_mem_map.mpr fun t _ => idle _ t
  | yield rest ih => exact List.forall_mem_cons.mpr ⟨idle _ _, ih tidy.tail⟩
  | @pass t ts i c path hc ht rest ih =>
    refine List.forall_mem_cons.mpr ⟨fun hs => ?_, ih tidy.tail⟩
    obtain ⟨hk, hcov⟩ := Stride.separates_iff.mp hs
    obtain rfl : p = i := by
      rw [Stride.covers_iff] at hcov
      dsimp only at hcov
      omega
    rcases ht with rfl | rfl
    · cases hk
    · exact hc.trans (tidy.separator_eq c List.mem_cons_self).symm
  | take hc ht hs rest ih =>
    refine List.forall_mem_cons.mpr ⟨other _ ?_, ih tidy.tail⟩
    rcases ht with rfl | rfl <;> nofun
  | jump ht le le_size clear rest ih =>
    exact List.forall_mem_cons.mpr ⟨other _ (ne_separator_of_isStar ht), ih tidy.tail⟩
  | back run wanted hat rest ih =>
    exact List.forall_mem_cons.mpr ⟨other _ nofun, ih tidy.tail⟩
  | @seek t us ts run i q path ht hu hr le occurs clear rest ih =>
    refine List.forall_mem_cons.mpr ⟨other _ (ne_separator_of_isStar ht),
      Stride.forall_mem_sought (idle q) (fun r hr => other r ?_) (ih tidy.tail.of_append.of_append)⟩
    rw [(Stride.mem_spell hr).2.2]
    nofun

/-- The stride of a separator does not stand beyond the text. -/
theorem lt_size_of_separates (h : Course (ofChars separator cs) ts i path)
    (tidy : Token.Tidy separator ts) {q : Stride} (hq : q ∈ path) {p : ℕ} (hp : q.separates p) :
    p < cs.size := by
  have hat := h.separator_of_separates tidy q hq hp
  have ht : q.token ∈ ts := h.map_token ▸ List.mem_map_of_mem hq
  have hk := (Stride.separates_iff.mp hp).1
  cases hc : q.token with
  | separator c =>
    rw [tidy.separator_eq c (hc ▸ ht)] at hat
    exact (Array.getElem?_eq_some_iff.mp hat).1
  | _ => rw [hc] at hk; cases hk

/-- The strides that are not those of wildcards spell the literals. -/
theorem filter_charsBy_false (h : Course (ofChars separator cs) ts i path)
    (tidy : Token.Tidy separator ts) :
    (charsBy false cs.toList path).filter (isInner separator) = ts.filterMap Token.literal? := by
  induction h with
  | @ended ts i hi null =>
    have none : ∀ t ∈ ts, t.literal? = none := fun t ht => by
      have := null t ht
      cases t <;> first | rfl | cases this
    rw [List.filterMap_eq_nil_iff.mpr none, charsBy_idle]
    rfl
  | yield rest ih => exact ih tidy.tail
  | @pass t ts i c path hc ht rest ih =>
    have hq : Stride.chars cs.toList ⟨t, i, i + 1⟩ = [c] :=
      Stride.chars_one (Array.getElem?_toList.trans hc) t
    rw [charsBy_cons, List.filter_append, ih tidy.tail, hq]
    rcases ht with rfl | rfl
    · have hs := tidy.literal_ne c List.mem_cons_self
      simp [Token.isWildcard, isInner, hs, Token.literal?]
    · have hs : isInner separator c = false := by
        simp [isInner, tidy.separator_eq c List.mem_cons_self]
      rw [List.filterMap_cons_none rfl]
      simp [Token.isWildcard, hs]
  | take hc ht hs rest ih =>
    rcases ht with rfl | rfl <;> exact ih tidy.tail
  | @jump t ts i stop path ht le le_size clear rest ih =>
    have := Token.isWildcard_of_isStar ht
    cases t <;> first | exact ih tidy.tail | cases ht
  | back run wanted hat rest ih => exact ih tidy.tail
  | @seek t us ts run i p path ht hu hr le occurs clear rest ih =>
    have spelled : charsBy false cs.toList (Stride.spell p run) = run := charsBy_spell occurs
    have hs : ∀ c ∈ run, isInner separator c := fun c hc => isInner_iff.mpr
      (tidy.tail.of_append.literal_ne c (List.mem_append_left _ (List.mem_map_of_mem hc)))
    have star : t.isWildcard = true ∧ t.literal? = none := by
      cases t <;> first | exact ⟨rfl, rfl⟩ | cases ht
    have literals : (run.map Token.literal).filterMap Token.literal? = run := by
      rw [List.filterMap_map]
      exact List.filterMap_some
    rw [charsBy_cons, charsBy_append, charsBy_append, charsBy_idle, spelled, star.1,
      List.filterMap_cons_none star.2, List.filterMap_append, List.filterMap_append,
      List.filterMap_eq_nil_iff.mpr hu, literals, ← ih tidy.tail.of_append.of_append]
    simp [List.filter_eq_self.mpr hs]

end Course

/-! ### Masks -/

/-- Only at a separator may a position be kept that no wildcard takes. -/
theorem kept_eq_taken {separator : Option Char} {cs : Array Char} {ts : List Token} {i : ℕ}
    {path : List Stride} (h : Course (ofChars separator cs) ts i path)
    (tidy : Token.Tidy separator ts) {p : ℕ} {c : Char} (hc : cs[p]? = some c)
    (hs : separator ≠ some c) : kept path p = taken path p := by
  cases p with
  | zero => rfl
  | succ p =>
    have none : trailing path (p + 1) = false := by
      rw [← Bool.not_eq_true, trailing, List.any_eq_true]
      rintro ⟨⟨q, r⟩, hmem, ht⟩
      rw [Bool.and_eq_true] at ht
      have hr := List.mem_of_mem_tail (List.of_mem_zip hmem).2
      exact hs ((h.separator_of_separates tidy r hr ht.2).symm.trans hc)
    rw [kept_succ, none, Bool.false_and, Bool.or_false]

namespace Pattern

/-- The mask of a text is what its route keeps. -/
theorem mask?_eq_some_iff {p : Pattern} {text mask : String} :
    p.mask? text = some mask ↔
      ∃ path, p.route text = .matched path ∧ mask = String.ofList (pick (kept path) text.toList) := by
  rw [mask?_eq]
  cases h : p.route text with
  | matched path =>
    simp [Outcome.path?, replay_eq_kept (course_of_route h).steady, eq_comm]
  | failed => simp [Outcome.path?]
  | exhausted => simp [Outcome.path?]

/-- But for separators, what is kept is what the wildcards take, and the others are what is left. -/
theorem filter_pick_kept {p : Pattern} {text : String} {path : List Stride}
    (h : p.route text = .matched path) (wild : Bool) :
    (pick (fun q => kept path q == wild) text.toList).filter (isInner p.separator) =
      (charsBy wild text.toList path).filter (isInner p.separator) := by
  have hcourse := course_of_route h
  calc (pick (fun q => kept path q == wild) text.toList).filter (isInner p.separator)
      = (pick (fun q => taken path (0 + q) == wild) (text.toList.drop 0)).filter
          (isInner p.separator) := by
        rw [List.drop_zero]
        refine filter_pick_congr fun q c hc hs => ?_
        rw [kept_eq_taken hcourse p.tidy ((List.getElem?_toArray ..).trans hc) hs, Nat.zero_add]
    _ = _ := hcourse.tiles.filter_pick wild

theorem filter_kept {p : Pattern} {text : String} {path : List Stride}
    (h : p.route text = .matched path) :
    (pick (kept path) text.toList).filter (isInner p.separator) =
      (charsBy true text.toList path).filter (isInner p.separator) := by
  have htrue : kept path = fun q => kept path q == true := by
    funext q
    cases kept path q <;> rfl
  rw [← filter_pick_kept h true, ← htrue]

/-- A text that a pattern matches is made up of its mask and of a rest, and the rest is made up of
    the literals of the pattern, in their order, and of separators. -/
theorem interleaves_mask {p : Pattern} {text mask : String} (h : p.mask? text = some mask) :
    ∃ rest, Interleaves mask.toList rest text.toList ∧
      rest.filter (fun c => p.separator ≠ some c) = p.tokens.filterMap Token.literal? := by
  obtain ⟨path, hr, rfl⟩ := mask?_eq_some_iff.mp h
  refine ⟨pick (fun q => !kept path q) text.toList, ?_, ?_⟩
  · rw [String.toList_ofList]
    exact interleaves_pick _ _
  · have hnot : (fun q => !kept path q) = fun q => kept path q == false := by
      funext q
      cases kept path q <;> rfl
    rw [hnot, ← (course_of_route hr).filter_charsBy_false p.tidy]
    exact filter_pick_kept hr false

/-- The first "ab" is given up for the second, and nothing of the first try is left. -/
theorem interleaves_mask_retried :
    (compile "*ab+/" (some '/')).mask? "abaabc/" = some "abac" ∧
      ∃ rest, Interleaves "abac".toList rest "abaabc/".toList ∧
        rest.filter (fun c => (compile "*ab+/" (some '/')).separator ≠ some c) =
          (compile "*ab+/" (some '/')).tokens.filterMap Token.literal? :=
  have h : (compile "*ab+/" (some '/')).mask? "abaabc/" = some "abac" := by decide +kernel
  ⟨h, interleaves_mask h⟩

end Pattern

end Wildcard
