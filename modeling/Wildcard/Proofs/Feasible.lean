import Wildcard.Proofs.AcrossSegments

/-! What a pattern must be like to match anything at all.

    A star leaves nothing to a wildcard right behind it that takes one character, so where those two
    come together no text fits. But not every token comes to face the text: with a separator, a star
    across segments passes over all that stands before the next literal.

        pattern  ** + a      faced  ** a       matches "a"
        pattern  ** +        faced  ** +       matches nothing

    And there is one way around it. A star across segments with no literal behind it counts the
    separators that are left. If there is one too few it stays where it is, and takes nothing. Then
    a later star has to go back onto a separator right before it, which stands for two tokens:

        pattern  ** + / ** / *     text  x / y     both / are the one in the text, + takes the x

    The first such star that has a separator right before it decides, and none behind it gets a
    chance:

        pattern  / ** + / ** / *   the first ** goes onto a /, where + takes nothing: no text -/

namespace Wildcard

open Subject (ofChars)

/-- No wildcard that takes one character comes right behind a star. -/
def Apart (kinds : List Kind) : Prop :=
  kinds.IsChain fun k l => k.isStar → l ≠ .question ∧ l ≠ .plus

instance : DecidablePred Apart := fun kinds =>
  inferInstanceAs (Decidable (kinds.IsChain fun k l => k.isStar → l ≠ .question ∧ l ≠ .plus))

/-- The kinds that come to face a text. What may go across segments passes over all that stands
    before the next literal. -/
def faced (across : Bool) : (passing : Bool) → List Kind → List Kind
  | _, [] => []
  | passing, k :: ks =>
    if passing ∧ k ≠ .literal ∧ .literal ∈ ks then faced across true ks
    else k :: faced across (across && k = .doubleStar) ks

/-- Between `front` and `back` a star across segments, with a separator on either side, goes back
    onto the one before it. -/
structure GoesBack (front back : List Kind) : Prop where
  /-- It is the first that could: where one stands right behind a separator in `front`, it has a
      literal to seek. -/
  first : ∀ earlier later, front = earlier ++ .separator :: .doubleStar :: later →
    later.head? = some .literal
  /-- In `front` a wildcard that takes one character may come right behind a star across segments,
      but not right behind one within a segment. -/
  before : front.IsChain fun k l => k = .star → l ≠ .question ∧ l ≠ .plus
  /-- The separator behind it does not end the pattern. -/
  behind : back ≠ [.endOfPattern]
  /-- In `back` none comes right behind either star. -/
  apart : Apart back

/-- The kinds fit a text that has one separator too few for them, as two of them share one. -/
def SharesSeparator (kinds : List Kind) : Prop :=
  ∃ front back, kinds = front ++ .separator :: .doubleStar :: .separator :: back ∧
    GoesBack front back

/-- Whether kinds share a separator, told from left to right by the kind before. -/
def sharesSeparator : (before : Option Kind) → List Kind → Bool
  | _, [] => false
  | before, .doubleStar :: ks =>
    -- the first star that could go back decides, and no later one is looked at
    if before = some .separator ∧ ks.head? ≠ some .literal then
      ks.head? = some .separator ∧ ks.tail ≠ [.endOfPattern] ∧ Apart ks
    else sharesSeparator (some .doubleStar) ks
  | _, .star :: ks =>
    ks.head? ≠ some .question ∧ ks.head? ≠ some .plus ∧ sharesSeparator (some .star) ks
  | _, k :: ks => sharesSeparator (some k) ks

/-- The kinds that face a text allow for one, with or without a shared separator. -/
def Feasible (shared : Bool) (before : Option Kind) (kinds : List Kind) : Prop :=
  if shared then sharesSeparator before kinds else Apart kinds

/-! ### Kinds -/

theorem isChain_cons_iff {p : Kind → Prop} {k : Kind} {ks : List Kind} :
    (k :: ks).IsChain (fun k l => p k → l ≠ .question ∧ l ≠ .plus) ↔
      (p k → ks.head? ≠ some .question ∧ ks.head? ≠ some .plus) ∧
        ks.IsChain fun k l => p k → l ≠ .question ∧ l ≠ .plus := by
  rw [List.isChain_cons]
  refine and_congr_left' ?_
  cases ks with
  | nil => simp
  | cons l ks => simp

theorem apart_cons_iff {k : Kind} {ks : List Kind} :
    Apart (k :: ks) ↔
      (k.isStar → ks.head? ≠ some .question ∧ ks.head? ≠ some .plus) ∧ Apart ks :=
  isChain_cons_iff

/-- A list without wildcards that take one character is apart. -/
theorem apart_of_forall {ks : List Kind} (h : ∀ k ∈ ks, k ≠ .question ∧ k ≠ .plus) : Apart ks := by
  induction ks with
  | nil => exact List.isChain_nil
  | cons k ks ih =>
    obtain ⟨-, hks⟩ := List.forall_mem_cons.mp h
    refine apart_cons_iff.mpr ⟨fun _ => ⟨fun he => ?_, fun he => ?_⟩, ih hks⟩
    · exact (hks _ (List.mem_of_mem_head? he)).1 rfl
    · exact (hks _ (List.mem_of_mem_head? he)).2 rfl

namespace SharesSeparator

variable {k : Kind} {ks : List Kind}

/-- A separator in the middle does not change the first kind to any other. -/
theorem head?_append_separator (hk : k ≠ .separator) (front : List Kind) :
    (front ++ .separator :: ks).head? = some k ↔ front.head? = some k := by
  cases front with
  | nil => simpa using hk.symm
  | cons l front => rfl

theorem mem (h : SharesSeparator ks) : .separator ∈ ks ∧ .doubleStar ∈ ks := by
  obtain ⟨front, back, rfl, -⟩ := h
  simp

/-- A star across segments that could go back decides. -/
theorem doubleStar_iff (h : ks.head? ≠ some .literal) :
    SharesSeparator (.separator :: .doubleStar :: ks) ↔
      ks.head? = some .separator ∧ ks.tail ≠ [.endOfPattern] ∧ Apart ks := by
  constructor
  · rintro ⟨_ | ⟨k, _ | ⟨l, front⟩⟩, back, hk, g⟩
    · obtain rfl : ks = .separator :: back := by simpa using hk
      exact ⟨rfl, g.behind, apart_cons_iff.mpr ⟨nofun, g.apart⟩⟩
    · cases hk
    · obtain ⟨rfl, rfl, rfl⟩ : k = .separator ∧ l = .doubleStar ∧
          ks = front ++ .separator :: .doubleStar :: .separator :: back := by
        simpa [eq_comm] using hk
      have hl := g.first [] front rfl
      simp [hl] at h
  · rintro ⟨hhead, htail, apart⟩
    obtain ⟨back, rfl⟩ := List.head?_eq_some_iff.mp hhead
    refine ⟨[], back, rfl, fun _ _ h => ?_, List.isChain_nil, htail, (apart_cons_iff.mp apart).2⟩
    simp at h

/-- Any other kind in front joins what comes before such a star. -/
theorem cons_iff (h : k = .separator → ∀ later, ks = .doubleStar :: later →
      later.head? = some .literal) :
    SharesSeparator (k :: ks) ↔
      (k = .star → ks.head? ≠ some .question ∧ ks.head? ≠ some .plus) ∧ SharesSeparator ks := by
  constructor
  · rintro ⟨front, back, hk, g⟩
    rcases List.cons_eq_append_iff.mp hk with ⟨rfl, hk⟩ | ⟨front, rfl, rfl⟩
    · obtain ⟨rfl, rfl⟩ := List.cons.inj hk
      cases h rfl _ rfl
    · obtain ⟨hhead, before⟩ := isChain_cons_iff.mp g.before
      have first : ∀ earlier later, front = earlier ++ .separator :: .doubleStar :: later →
          later.head? = some .literal :=
        fun earlier later he => g.first (k :: earlier) later (congrArg (k :: ·) he)
      refine ⟨fun hs => ?_, front, back, rfl, first, before, g.behind, g.apart⟩
      simpa only [ne_eq, reduceCtorEq, not_false_eq_true, head?_append_separator] using hhead hs
  · rintro ⟨hhead, front, back, rfl, g⟩
    have first : ∀ earlier later, k :: front = earlier ++ .separator :: .doubleStar :: later →
        later.head? = some .literal := by
      intro earlier later he
      rcases List.cons_eq_append_iff.mp he with ⟨rfl, hf⟩ | ⟨earlier, rfl, hf⟩
      · obtain ⟨rfl, rfl⟩ := List.cons.inj hf
        have hl := h rfl _ rfl
        exact (head?_append_separator Kind.noConfusion later).mp hl
      · exact g.first earlier later hf
    refine ⟨k :: front, back, rfl, first, isChain_cons_iff.mpr ⟨fun hs => ?_, g.before⟩,
      g.behind, g.apart⟩
    simpa only [ne_eq, reduceCtorEq, not_false_eq_true, head?_append_separator] using hhead hs

/-- A separator in front says something about a star across segments only. -/
theorem edge_iff {before : Option Kind}
    (h : k = .doubleStar → before = some .separator → ks.head? = some .literal) :
    SharesSeparator (if before = some .separator then .separator :: k :: ks else k :: ks) ↔
      SharesSeparator (k :: ks) := by
  split
  · next hb =>
    refine (cons_iff fun _ later he => ?_).trans (and_iff_right nofun)
    obtain ⟨rfl, rfl⟩ := List.cons.inj he
    exact h rfl hb
  · rfl

end SharesSeparator

/-- Of what stands before some kinds, only a separator right before them matters. -/
theorem sharesSeparator_iff (before : Option Kind) (ks : List Kind) :
    sharesSeparator before ks ↔
      SharesSeparator (if before = some .separator then .separator :: ks else ks) := by
  induction ks generalizing before with
  | nil =>
    refine iff_of_false Bool.false_ne_true fun h => ?_
    obtain ⟨-, hmem⟩ := h.mem
    split at hmem <;> simp at hmem
  | cons k ks ih =>
    have edge := @SharesSeparator.edge_iff k ks before
    have next : k ≠ .separator → (SharesSeparator (k :: ks) ↔
        (k = .star → ks.head? ≠ some .question ∧ ks.head? ≠ some .plus) ∧
          sharesSeparator (some k) ks) := by
      intro hk
      rw [SharesSeparator.cons_iff fun he => absurd he hk, ih, if_neg (by simpa using hk)]
    cases k with
    | separator =>
      rw [edge nofun]
      exact ih (some .separator)
    | star =>
      rw [edge nofun, next nofun]
      simp [sharesSeparator, and_assoc]
    | doubleStar =>
      rw [sharesSeparator]
      split
      · next hb => rw [if_pos hb.1, SharesSeparator.doubleStar_iff hb.2, decide_eq_true_eq]
      · next hb =>
        rw [edge fun _ hs => not_not.mp fun hl => hb ⟨hs, hl⟩, next nofun]
        exact (and_iff_right nofun).symm
    | literal | question | plus | endOfPattern =>
      rw [edge nofun, next nofun]
      exact (and_iff_right nofun).symm

theorem sharesSeparator_none (ks : List Kind) : sharesSeparator none ks ↔ SharesSeparator ks :=
  sharesSeparator_iff none ks

instance : DecidablePred SharesSeparator :=
  fun ks => decidable_of_iff _ (sharesSeparator_none ks)

namespace Feasible

variable {shared : Bool} {before : Option Kind} {k : Kind} {ks : List Kind}

theorem false_iff : Feasible false before ks ↔ Apart ks := by simp [Feasible]

theorem true_iff : Feasible true before ks ↔ sharesSeparator before ks := by simp [Feasible]

theorem cons_iff (hk : k.isStar = false) :
    Feasible shared before (k :: ks) ↔ Feasible shared (some k) ks := by
  cases shared with
  | false => simp [false_iff, apart_cons_iff, hk]
  | true => cases k <;> first | rfl | cases hk

theorem star_iff : Feasible shared before (.star :: ks) ↔
    (ks.head? ≠ some .question ∧ ks.head? ≠ some .plus) ∧ Feasible shared (some .star) ks := by
  cases shared with
  | false => simp [false_iff, apart_cons_iff, Kind.isStar]
  | true => simp [true_iff, sharesSeparator, and_assoc]

/-- A star that seeks a run asks nothing of what comes behind the run. -/
theorem seek_iff (hk : k.isStar) {run : List Kind} (hr : run ≠ [])
    (literals : ∀ l ∈ run, l = .literal) :
    Feasible shared before (k :: (run ++ ks)) ↔ Feasible shared (some .literal) ks := by
  have behind : ∀ {run : List Kind} {before}, run ≠ [] → (∀ l ∈ run, l = .literal) →
      (Feasible shared before (run ++ ks) ↔ Feasible shared (some .literal) ks) := by
    intro run
    induction run with
    | nil => exact fun hr => absurd rfl hr
    | cons l run ih =>
      intro before _ hl
      obtain ⟨rfl, hrun⟩ := List.forall_mem_cons.mp hl
      rw [List.cons_append, cons_iff rfl]
      cases run with
      | nil => rfl
      | cons l run => exact ih (List.cons_ne_nil _ _) hrun
  have hhead : (run ++ ks).head? = some .literal := by
    obtain ⟨l, run, rfl⟩ := List.exists_cons_of_ne_nil hr
    rw [literals l List.mem_cons_self]
    rfl
  rw [← @behind run (some k) hr literals]
  cases k with
  | star => simp [star_iff, hhead]
  | doubleStar =>
    cases shared with
    | false => simp [false_iff, apart_cons_iff, hhead]
    | true => simp [true_iff, sharesSeparator, hhead]
  | _ => cases hk

end Feasible

/-! ### What faces a text -/

section

variable {across passing : Bool} {k : Kind} {ks : List Kind}

theorem faced_cons : faced across false (k :: ks) =
    k :: faced across (across && k = .doubleStar) ks :=
  if_neg (by simp)

/-- Where nothing is passed over, everything faces the text. -/
theorem faced_of_not_across : faced false false ks = ks := by
  induction ks with
  | nil => rfl
  | cons k ks ih => rw [faced_cons, Bool.false_and, ih]

theorem faced_of_not_mem (h : .literal ∉ ks) : faced across passing ks = ks := by
  induction ks generalizing passing with
  | nil => rfl
  | cons k ks ih =>
    have hks := fun hl => h (List.mem_cons_of_mem k hl)
    rw [faced, if_neg fun hp => hks hp.2.2, ih hks]

/-- A literal always faces the text, and nothing is passed over behind it. -/
theorem faced_literals_append {run : List Kind} (hr : run ≠ [])
    (literals : ∀ l ∈ run, l = .literal) :
    faced across passing (run ++ ks) = run ++ faced across false ks := by
  induction run generalizing passing with
  | nil => exact absurd rfl hr
  | cons l run ih =>
    obtain ⟨rfl, hrun⟩ := List.forall_mem_cons.mp literals
    have hnext : (across && decide (Kind.literal = .doubleStar)) = false := Bool.and_false across
    rw [List.cons_append, faced, if_neg fun hp => hp.2.1 rfl, hnext, List.cons_append]
    cases run with
    | nil => rfl
    | cons l run => rw [ih (List.cons_ne_nil _ _) hrun]

theorem faced_gap_append {gap : List Kind} (hg : ∀ l ∈ gap, l ≠ .literal) (hks : .literal ∈ ks) :
    faced across true (gap ++ ks) = faced across true ks := by
  induction gap with
  | nil => rfl
  | cons l gap ih =>
    obtain ⟨hl, hgap⟩ := List.forall_mem_cons.mp hg
    rw [List.cons_append, faced, if_pos ⟨rfl, hl, List.mem_append_right _ hks⟩, ih hgap]

end

namespace Token

theorem kind_eq_doubleStar_iff {t : Token} : t.kind = .doubleStar ↔ t = .doubleStar := by
  cases t <;> simp [kind]

end Token

namespace Outlook

theorem separators_cons (t : Token) (ts : List Token) :
    (ofTokens (t :: ts)).separators =
      (ofTokens ts).separators + if t.kind = .separator then 1 else 0 := by
  cases t <;> rfl

/-- No separator is in a run. -/
theorem ne_of_mem_run {separator : Option Char} {ts : List Token} (tidy : Token.Tidy separator ts) :
    ∀ d ∈ (ofTokens ts).run, separator ≠ some d := by
  intro d hd
  have hmem : .literal d ∈ ts.drop (ofTokens ts).gap := by
    rw [drop_gap]
    exact List.mem_append_left _ (List.mem_map_of_mem hd)
  exact tidy.literal_ne d (List.mem_of_mem_drop hmem)

end Outlook

namespace Search

variable {separator : Option Char} {cs : Array Char} {shared : Bool} {before : Option Kind}
  {t : Token} {ts : List Token} {i : ℕ}

/-- The kinds of some tokens that come to face a text. -/
def facedOf (separator : Option Char) (ts : List Token) : List Kind :=
  faced separator.isSome false (kindsOf ts)

theorem run_eq_nil_iff_not_mem_kindsOf :
    (Outlook.ofTokens ts).run = [] ↔ .literal ∉ kindsOf ts := by
  rw [Outlook.run_eq_nil_iff, kindsOf, List.mem_append, List.mem_map]
  simp only [Token.literal?_eq_none_iff]
  constructor
  · rintro h (⟨t, ht, hk⟩ | he)
    · exact h t ht hk
    · cases List.mem_singleton.mp he
  · exact fun h t ht hk => h (Or.inl ⟨t, ht, hk⟩)

theorem facedOf_of_run (h : (Outlook.ofTokens ts).run = []) : facedOf separator ts = kindsOf ts :=
  faced_of_not_mem (run_eq_nil_iff_not_mem_kindsOf.mp h)

theorem head?_facedOf : (facedOf separator ts).head? = (kindsOf ts).head? := by
  rw [facedOf]
  cases kindsOf ts with
  | nil => rfl
  | cons k ks => rw [faced_cons, List.head?_cons, List.head?_cons]

/-- In front of everything but what passes over something, all faces the text as before. -/
theorem facedOf_cons (h : t = .doubleStar → separator = none ∨ (Outlook.ofTokens ts).run = []) :
    facedOf separator (t :: ts) = t.kind :: facedOf separator ts := by
  have hcons : facedOf separator (t :: ts) =
      t.kind :: faced separator.isSome (separator.isSome && t.kind = .doubleStar) (kindsOf ts) :=
    faced_cons
  rw [hcons]
  by_cases hk : t.kind = .doubleStar
  · rcases h (Token.kind_eq_doubleStar_iff.mp hk) with rfl | hr
    · rfl
    · have hl := run_eq_nil_iff_not_mem_kindsOf.mp hr
      rw [facedOf, faced_of_not_mem hl, faced_of_not_mem hl]
  · rw [decide_eq_false hk, Bool.and_false, facedOf]

theorem feasible_cons_iff (ht : t.kind.isStar = false) :
    Feasible shared before (facedOf separator (t :: ts)) ↔
      Feasible shared (some t.kind) (facedOf separator ts) := by
  have hd : t ≠ .doubleStar := by
    rintro rfl
    cases ht
  rw [facedOf_cons fun he => absurd he hd, Feasible.cons_iff ht]

theorem feasible_star_iff :
    Feasible shared before (facedOf separator (.star :: ts)) ↔
      ((kindsOf ts).head? ≠ some .question ∧ (kindsOf ts).head? ≠ some .plus) ∧
        Feasible shared (some .star) (facedOf separator ts) := by
  have hd : Token.star ≠ .doubleStar := nofun
  rw [facedOf_cons fun he => absurd he hd, ← @head?_facedOf separator]
  exact Feasible.star_iff

/-- Of what stands behind a star that seeks, the run faces the text, and what comes behind. -/
theorem facedOf_seek (ht : t.kind.isStar) (hr : (Outlook.ofTokens ts).run ≠ [])
    (hg : (Outlook.ofTokens ts).gap = 0 ∨ t = .doubleStar ∧ separator.isSome) :
    facedOf separator (t :: ts) =
      t.kind :: (((Outlook.ofTokens ts).run.map Token.literal).map Token.kind ++
        facedOf separator (ts.drop (Outlook.ofTokens ts).reach)) := by
  have hrun : ((Outlook.ofTokens ts).run.map Token.literal).map Token.kind ≠ [] := by simpa using hr
  have literals : ∀ l ∈ ((Outlook.ofTokens ts).run.map Token.literal).map Token.kind,
      l = .literal := by
    simp [Token.kind]
  have hkinds : kindsOf ts = (ts.take (Outlook.ofTokens ts).gap).map Token.kind ++
      (((Outlook.ofTokens ts).run.map Token.literal).map Token.kind ++
        kindsOf (ts.drop (Outlook.ofTokens ts).reach)) := by
    rw [kindsOf, kindsOf, ← List.append_assoc, ← List.append_assoc, ← List.map_append,
      ← Outlook.take_reach, ← List.map_append, List.take_append_drop]
  have hgap : ∀ l ∈ (ts.take (Outlook.ofTokens ts).gap).map Token.kind, l ≠ .literal := by
    intro l hl
    obtain ⟨u, hu, rfl⟩ := List.mem_map.mp hl
    exact Token.literal?_eq_none_iff.mp (Outlook.literal?_of_mem_gap hu)
  have hmem : .literal ∈ ((Outlook.ofTokens ts).run.map Token.literal).map Token.kind ++
      kindsOf (ts.drop (Outlook.ofTokens ts).reach) := by
    obtain ⟨d, run, hd⟩ := List.exists_cons_of_ne_nil hr
    rw [hd]
    exact List.mem_cons_self
  rw [facedOf, kindsOf_cons, faced_cons, hkinds, facedOf]
  congr 1
  rcases hg with hg | ⟨rfl, hs⟩
  · rw [hg, List.take_zero, List.map_nil, List.nil_append, faced_literals_append hrun literals]
  · have hnext : (separator.isSome && decide (Token.doubleStar.kind = .doubleStar)) = true := by
      simp [hs, Token.kind]
    rw [hnext, faced_gap_append hgap hmem, faced_literals_append hrun literals]

theorem feasible_seek_iff (ht : t.kind.isStar) (hr : (Outlook.ofTokens ts).run ≠ [])
    (hg : (Outlook.ofTokens ts).gap = 0 ∨ t = .doubleStar ∧ separator.isSome) :
    Feasible shared before (facedOf separator (t :: ts)) ↔
      Feasible shared (some .literal)
        (facedOf separator (ts.drop (Outlook.ofTokens ts).reach)) := by
  rw [facedOf_seek ht hr hg]
  refine Feasible.seek_iff ht (by simpa using hr) ?_
  simp [Token.kind]

/-! ### What a successful search tells -/

/-- How many separators stand at a position or behind it. -/
def separatorsLeft (separator : Option Char) (cs : Array Char) (i : ℕ) : ℕ :=
  separator.elim 0 fun c => Subject.separatorsFrom c cs i

theorem separatorsLeft_of_getElem? {d : Char} (hd : cs[i]? = some d) :
    separatorsLeft separator cs i =
      separatorsLeft separator cs (i + 1) + if separator = some d then 1 else 0 := by
  cases separator with
  | none => rfl
  | some c =>
    refine (Subject.separatorsFrom_of_getElem? hd).trans ?_
    simp only [Option.some_inj, eq_comm, separatorsLeft, Option.elim_some]

theorem separatorsLeft_of_size_le (hi : cs.size ≤ i) : separatorsLeft separator cs i = 0 := by
  cases separator with
  | none => rfl
  | some c => exact Subject.separatorsFrom_of_size_le hi

/-- No separator stands before the end of a segment. -/
theorem separatorsLeft_segmentStop (hi : i ≤ cs.size) :
    separatorsLeft separator cs ((ofChars separator cs).segmentStop i) =
      separatorsLeft separator cs i := by
  cases separator with
  | none => rfl
  | some c => exact Subject.separatorsFrom_segmentStop hi

/-- The kind before a star across segments says whether a separator stands right before it. -/
def Edge (separator : Option Char) (cs : Array Char) (before : Option Kind) (ts : List Token)
    (i : ℕ) : Prop :=
  ts.head? = some .doubleStar → (before = some .separator ↔ ∃ p, i = p + 1 ∧ cs[p]? = separator)

theorem edge_start : Edge separator cs none ts 0 :=
  fun _ => iff_of_false nofun fun ⟨_, hp, _⟩ => absurd hp (Nat.succ_ne_zero _).symm

theorem edge_of_iff {d : Char} (hd : cs[i]? = some d)
    (hk : t.kind = .separator ↔ separator = some d) :
    Edge separator cs (some t.kind) ts (i + 1) := by
  intro _
  rw [Option.some_inj, hk]
  constructor
  · exact fun he => ⟨i, rfl, hd.trans he.symm⟩
  · rintro ⟨p, hp, he⟩
    obtain rfl := Nat.succ.inj hp
    exact he.symm.trans hd

/-- No star follows a star. -/
theorem edge_of_isStar {j : ℕ} (tidy : Token.Tidy separator (t :: ts)) (ht : t.kind.isStar) :
    Edge separator cs before ts j := by
  intro hd
  cases ts with
  | nil => cases hd
  | cons u us =>
    have := (List.isChain_cons_cons.mp tidy.apart).1 ht
    rw [Option.some.inj hd] at this
    cases this

/-- What is known of tokens that match a text from a position on: they are feasible, and if no
    literal is left there are enough separators for them, or just one too few. -/
def Tells (separator : Option Char) (cs : Array Char) (before : Option Kind) (ts : List Token)
    (i : ℕ) : Prop :=
  ∃ shared, Feasible shared before (facedOf separator ts) ∧
    ((Outlook.ofTokens ts).run = [] →
      if shared then (Outlook.ofTokens ts).separators = separatorsLeft separator cs i + 1
      else (Outlook.ofTokens ts).separators ≤ separatorsLeft separator cs i)

/-- Tokens that may all stand for nothing have nothing to be kept apart. -/
theorem tells_of_nullable (h : ∀ t ∈ ts, t.kind.isNullable) : Tells separator cs before ts i := by
  have hkinds : ∀ k ∈ kindsOf ts, k.isNullable := by
    intro k hk
    rcases List.mem_append.mp hk with hk | hk
    · obtain ⟨t, ht, rfl⟩ := List.mem_map.mp hk
      exact h t ht
    · rw [List.mem_singleton.mp hk]
      rfl
  have hr : (Outlook.ofTokens ts).run = [] :=
    run_eq_nil_iff_not_mem_kindsOf.mpr fun hl => nomatch hkinds _ hl
  have hk : (Outlook.ofTokens ts).separators = 0 :=
    Outlook.separators_eq_zero fun d hd => nomatch h _ hd
  refine ⟨false, ?_, fun _ => ?_⟩
  · rw [facedOf_of_run hr, Feasible.false_iff]
    refine apart_of_forall fun k hk => ⟨?_, ?_⟩ <;>
    · rintro rfl
      cases hkinds _ hk
  · rw [hk]
    exact Nat.zero_le _

namespace Tells

variable {j : ℕ}

/-- A token that is no star uses up a separator if it is one, and asks nothing of its neighbours. -/
theorem cons (h : Tells separator cs (some t.kind) ts j) (ht : t.kind.isStar = false)
    (count : t.literal? = none →
      (Outlook.ofTokens (t :: ts)).separators + separatorsLeft separator cs j =
        (Outlook.ofTokens ts).separators + separatorsLeft separator cs i) :
    Tells separator cs before (t :: ts) i := by
  obtain ⟨shared, hf, hcount⟩ := h
  refine ⟨shared, (feasible_cons_iff ht).mpr hf, fun hr => ?_⟩
  cases hl : t.literal? with
  | some d =>
    obtain rfl := Token.literal?_eq_some.mp hl
    cases hr
  | none =>
    rw [Outlook.ofTokens_cons, Outlook.run_before hl] at hr
    have hc := count hl
    have := hcount hr
    cases shared <;> simp only [Bool.false_eq_true, if_true, if_false] at this ⊢ <;> omega

/-- A star that stays in its segment. -/
theorem star (h : Tells separator cs (some .star) ts j)
    (hhead : (kindsOf ts).head? ≠ some .question ∧ (kindsOf ts).head? ≠ some .plus)
    (hleft : separatorsLeft separator cs j = separatorsLeft separator cs i) :
    Tells separator cs before (.star :: ts) i := by
  obtain ⟨shared, hf, hcount⟩ := h
  refine ⟨shared, feasible_star_iff.mpr ⟨hhead, hf⟩, ?_⟩
  rwa [hleft] at hcount

theorem seek (ht : t.kind.isStar) (hr : (Outlook.ofTokens ts).run ≠ [])
    (hg : (Outlook.ofTokens ts).gap = 0 ∨ t = .doubleStar ∧ separator.isSome)
    (h : Tells separator cs (some .literal) (ts.drop (Outlook.ofTokens ts).reach) j) :
    Tells separator cs before (t :: ts) i := by
  obtain ⟨shared, hf, -⟩ := h
  refine ⟨shared, (feasible_seek_iff ht hr hg).mpr hf, fun hn => ?_⟩
  have hl : t.literal? = none := by cases t <;> first | rfl | cases ht
  rw [Outlook.ofTokens_cons, Outlook.run_before hl] at hn
  exact absurd hn hr

end Tells

/-- Where a segment ends, no wildcard that takes one character fits. -/
theorem head?_ne_of_isMatched (tidy : Token.Tidy separator ts)
    (hstop : ∀ d, cs[i]? = some d → separator = some d)
    (h : (route (ofChars separator cs) before ts i).isMatched) :
    (kindsOf ts).head? ≠ some .question ∧ (kindsOf ts).head? ≠ some .plus := by
  have stuck : ∀ {t us}, ts = t :: us → t.kind.isNullable = false →
      (∀ d, cs[i]? = some d →
        (Leg.facing (ofChars separator cs) before t us).move (ofChars separator cs) i d = .stuck) →
      False := by
    rintro t us rfl hn hm
    cases hc : (ofChars separator cs).chars[i]? with
    | none =>
      rw [route_of_size_le (Array.getElem?_eq_none_iff.mp hc), List.all_cons, hn] at h
      cases h
    | some d =>
      rw [route_cons hc, hm d hc] at h
      cases h
  cases ts with
  | nil => exact ⟨nofun, nofun⟩
  | cons t us =>
    refine ⟨fun hk => ?_, fun hk => ?_⟩
    · obtain rfl : t = .question := by cases t <;> first | rfl | cases hk
      refine stuck rfl rfl fun d hd => ?_
      have hne : us.head? ≠ some (.literal d) := fun hl =>
        tidy.tail.literal_ne d (List.mem_of_mem_head? hl) (hstop d hd)
      rw [Leg.move_question, if_neg fun hq => hne hq.2]
      exact if_pos (hstop d hd)
    · obtain rfl : t = .plus := by cases t <;> first | rfl | cases hk
      exact stuck rfl rfl fun d hd => if_pos (hstop d hd)

section

variable {c : Char} (tidy : Token.Tidy (some c) (.doubleStar :: ts))
  (hr : (Outlook.ofTokens ts).run = [])

include tidy hr

/-- A star across segments that goes back onto a separator stands between two separators, and the
    text goes on behind them. -/
theorem sharesSeparator_of_isMatched {p k : ℕ} (hp : cs[p]? = some c) (hlt : p + 1 < cs.size)
    (hk : (Outlook.ofTokens ts).separators = k + 1) (apart : Apart (kindsOf ts))
    (h : (route (ofChars (some c) cs) (some .doubleStar) ts p).isMatched) :
    sharesSeparator (some .separator) (kindsOf (.doubleStar :: ts)) := by
  have hhead := head?_ne_of_isMatched tidy.tail (fun d hd => hp.symm.trans hd) h
  have hnext : (Outlook.ofTokens ts).nextRun = [] := by rw [Outlook.nextRun, hr, ite_self]
  rcases separator_of_head? rfl tidy hhead hnext with rfl | ⟨d, us, rfl⟩
  · cases hk
  · have htail : kindsOf us ≠ [.endOfPattern] := by
      intro he
      obtain rfl : us = [] := by
        have := congrArg List.length he
        rw [kindsOf, List.length_append, List.length_map] at this
        exact List.length_eq_zero_iff.mp (Nat.succ.inj this)
      have hplain : ∀ t ∈ [Token.separator d], t.isWildcard = false := by simp [Token.isWildcard]
      have hlen := congrArg List.length
        ((isMatched_route_plain _ hplain (Nat.le_of_succ_le hlt.le)).mp h)
      rw [List.length_drop, @Array.length_toList _ cs, List.map_singleton,
        List.length_singleton] at hlen
      omega
    have hkinds : kindsOf (.doubleStar :: .separator d :: us) =
        .doubleStar :: .separator :: kindsOf us := rfl
    have happ : Apart (.separator :: kindsOf us) := apart
    rw [hkinds, sharesSeparator]
    simp [htail, happ]

omit tidy in
/-- If there are just enough separators, none is shared. -/
theorem Tells.apart {j : ℕ} (h : Tells (some c) cs before ts j)
    (enough : (Outlook.ofTokens ts).separators = Subject.separatorsFrom c cs j) :
    Apart (kindsOf ts) := by
  obtain ⟨shared, hf, hcount⟩ := h
  have hcount := hcount hr
  rw [facedOf_of_run hr] at hf
  cases shared with
  | false => exact Feasible.false_iff.mp hf
  | true =>
    rw [if_pos rfl, enough] at hcount
    exact absurd hcount (Nat.succ_ne_self _).symm

omit tidy in
/-- If there are too few, it is one too few. -/
theorem Tells.shares {j k : ℕ} (h : Tells (some c) cs before ts j)
    (hk : (Outlook.ofTokens ts).separators = k + 1) (few : Subject.separatorsFrom c cs j ≤ k) :
    Subject.separatorsFrom c cs j = k ∧ sharesSeparator before (kindsOf ts) := by
  obtain ⟨shared, hf, hcount⟩ := h
  have hcount := hcount hr
  have hleft : separatorsLeft (some c) cs j = Subject.separatorsFrom c cs j := rfl
  rw [facedOf_of_run hr] at hf
  rw [hk, hleft] at hcount
  cases shared with
  | false =>
    rw [if_neg Bool.false_ne_true] at hcount
    omega
  | true =>
    rw [if_pos rfl] at hcount
    exact ⟨(Nat.succ.inj hcount).symm, Feasible.true_iff.mp hf⟩

/-- A star across segments with too few separators behind it stays where it is, and hands on that
    one is missing, or goes back onto the one that is. -/
theorem shares_of_few {k : ℕ} (hi : i < cs.size)
    (edge : Edge (some c) cs before (.doubleStar :: ts) i)
    (hk : (Outlook.ofTokens ts).separators = k + 1) (few : Subject.separatorsFrom c cs i ≤ k)
    (h : (route (ofChars (some c) cs) (some .doubleStar) ts (landing c cs i (k + 1))).isMatched)
    (hrest : Tells (some c) cs (some .doubleStar) ts (landing c cs i (k + 1))) :
    Subject.separatorsFrom c cs i = k ∧
      sharesSeparator before (kindsOf (.doubleStar :: ts)) := by
  by_cases hb : before = some .separator
  · obtain ⟨p, rfl, hp⟩ := (edge rfl).mp hb
    by_cases hpk : Subject.separatorsFrom c cs (p + 1) = k
    · rw [landing_eq hp hpk le_rfl] at h hrest
      have enough : (Outlook.ofTokens ts).separators = Subject.separatorsFrom c cs p := by
        rw [hk, Subject.separatorsFrom_of_getElem? hp, hpk, if_pos rfl]
      rw [hb]
      exact ⟨hpk, sharesSeparator_of_isMatched tidy hr hp hi hk (hrest.apart hr enough) h⟩
    · rw [landing_eq_self few fun _ _ _ => hpk] at hrest
      exact absurd (hrest.shares hr hk few).1 hpk
  · have stays : landing c cs i (k + 1) = i :=
      landing_eq_self few fun p hp hc => absurd ((edge rfl).mpr ⟨p, hp, hc⟩) hb
    rw [stays] at hrest
    obtain ⟨he, hs⟩ := hrest.shares hr hk few
    refine ⟨he, ?_⟩
    change sharesSeparator before (.doubleStar :: kindsOf ts)
    rw [sharesSeparator, if_neg fun hq => hb hq.1]
    exact hs

/-- A star across segments that seeks nothing goes where just enough separators are left, and then
    the next token is none that takes one character; or there are too few. -/
theorem tells_of_landing (hi : i < cs.size) (edge : Edge (some c) cs before (.doubleStar :: ts) i)
    (h : (route (ofChars (some c) cs) before (.doubleStar :: ts) i).isMatched)
    (rest : ∀ {j}, j ≤ cs.size → (route (ofChars (some c) cs) (some .doubleStar) ts j).isMatched →
      Tells (some c) cs (some .doubleStar) ts j) :
    Tells (some c) cs before (.doubleStar :: ts) i := by
  have hfaced : facedOf (some c) (.doubleStar :: ts) = .doubleStar :: kindsOf ts :=
    facedOf_of_run hr
  rw [route_doubleStar_jump hi before hr, Outcome.isMatched_prepend] at h
  have hrest := rest (landing_le_size hi.le _) h
  have enough : (∀ d, cs[landing c cs i (Outlook.ofTokens ts).separators]? = some d →
        some c = some d) →
      (Outlook.ofTokens ts).separators =
        Subject.separatorsFrom c cs (landing c cs i (Outlook.ofTokens ts).separators) →
      (Outlook.ofTokens ts).separators ≤ Subject.separatorsFrom c cs i →
      Tells (some c) cs before (.doubleStar :: ts) i := by
    refine fun hstop heq hle => ⟨false, ?_, fun _ => hle⟩
    rw [hfaced, Feasible.false_iff, apart_cons_iff]
    exact ⟨fun _ => head?_ne_of_isMatched tidy.tail hstop h, hrest.apart hr heq⟩
  cases hk : (Outlook.ofTokens ts).separators with
  | zero =>
    rw [hk] at enough
    refine enough (fun d hd => ?_) (Subject.separatorsFrom_of_size_le le_rfl).symm (Nat.zero_le _)
    rw [landing, Array.getElem?_eq_none le_rfl] at hd
    cases hd
  | succ k =>
    rw [hk] at h hrest enough
    rcases Nat.lt_or_ge k (Subject.separatorsFrom c cs i) with hlt | few
    · obtain ⟨p, hip, hp, hpk⟩ := Subject.exists_separator_of_lt hlt
      rw [landing_eq hp hpk (by omega)] at enough
      refine enough (fun d hd => hp.symm.trans hd) ?_ hlt
      rw [Subject.separatorsFrom_of_getElem? hp, hpk, if_pos rfl]
    · obtain ⟨he, hs⟩ := shares_of_few tidy hr hi edge hk few h hrest
      refine ⟨true, ?_, fun _ => ?_⟩
      · rw [hfaced, Feasible.true_iff]
        exact hs
      · rw [if_pos rfl]
        exact hk.trans (congrArg Nat.succ he.symm)

end

/-- What a star tells that goes to the end of its segment: the next token is none that takes one
    character. -/
theorem tells_of_segmentStop (tidy : Token.Tidy separator (t :: ts)) (ht : t.kind.isStar)
    (hs : t = .star ∨ separator = none) (hi : i ≤ cs.size)
    (h : (route (ofChars separator cs) (some t.kind) ts
      ((ofChars separator cs).segmentStop i)).isMatched)
    (rest : Tells separator cs (some t.kind) ts ((ofChars separator cs).segmentStop i)) :
    Tells separator cs before (t :: ts) i := by
  rcases hs with rfl | rfl
  · have hseg := Subject.endsSegment separator hi
    have hstop : ∀ d, cs[(ofChars separator cs).segmentStop i]? = some d → separator = some d :=
      fun d hd => (hseg.eq_separator (Array.getElem?_eq_some_iff.mp hd).1).symm.trans hd
    exact rest.star (head?_ne_of_isMatched tidy.tail hstop h) (separatorsLeft_segmentStop hi)
  · -- there is one segment only, and all that is left must stand for nothing
    have hsize : (ofChars none cs).size ≤ cs.size := le_rfl
    rw [Subject.segmentStop_none hi, isMatched_route_of_size_le hsize] at h
    exact tells_of_nullable (List.forall_mem_cons.mpr ⟨Kind.isNullable_of_isStar ht, h⟩)

/-- What a token tells that stands for a character or takes it. -/
theorem tells_of_single {d : Char} (hd : cs[i]? = some d)
    (hsep : t.kind = .separator ↔ separator = some d) (ht : t.kind.isStar = false)
    (rest : Tells separator cs (some t.kind) ts (i + 1)) :
    Tells separator cs before (t :: ts) i := by
  refine rest.cons ht fun _ => ?_
  rw [Outlook.separators_cons, separatorsLeft_of_getElem? hd]
  simp only [hsep]
  omega

/-- Behind a run no separator stands right before. -/
theorem edge_of_occursAt (tidy : Token.Tidy separator ts) (hr : (Outlook.ofTokens ts).run ≠ [])
    {us : List Token} {p : ℕ} (h : Subject.occursAt cs (Outlook.ofTokens ts).run p) :
    Edge separator cs (some .literal) us (p + (Outlook.ofTokens ts).run.length) := by
  have hrun := Outlook.ne_of_mem_run tidy
  generalize (Outlook.ofTokens ts).run = run at hr h hrun
  obtain ⟨n, hn⟩ : ∃ n, run.length = n + 1 :=
    ⟨run.length - 1, by have := List.length_pos_of_ne_nil hr; omega⟩
  obtain ⟨behind, hb⟩ := Subject.occursAt_iff.mp h
  have hlast : cs[p + n]? = some run[n] := by
    rw [← Array.getElem?_toList, ← List.getElem?_drop, ← hb,
      List.getElem?_append_left (by omega), List.getElem?_eq_getElem]
  rw [hn]
  exact @edge_of_iff _ _ (.literal run[n]) _ _ _ hlast
    (iff_of_false nofun (hrun _ (List.getElem_mem _)))

/-- A search that succeeds tells what its tokens are like. -/
theorem tells_of_isMatched (before : Option Kind) {ts : List Token}
    (tidy : Token.Tidy separator ts) {i : ℕ} (hi : i ≤ cs.size)
    (edge : Edge separator cs before ts i)
    (h : (route (ofChars separator cs) before ts i).isMatched) :
    Tells separator cs before ts i := by
  have h0 := h
  rcases hi.eq_or_lt with rfl | hlt
  · have hsize : (ofChars separator cs).size ≤ cs.size := le_rfl
    exact tells_of_nullable ((isMatched_route_of_size_le hsize before ts).mp h)
  · match ts with
    | [] =>
      rw [route_nil (show i < (ofChars separator cs).size from hlt)] at h
      cases h
    | t :: ts =>
      have hd : cs[i]? = some cs[i] := Array.getElem?_eq_getElem hlt
      have next : ∀ {j}, j ≤ cs.size → Edge separator cs (some t.kind) ts j →
          (route (ofChars separator cs) (some t.kind) ts j).isMatched →
          Tells separator cs (some t.kind) ts j :=
        fun hj edge h => tells_of_isMatched _ tidy.tail hj edge h
      have single : (t.kind = .separator ↔ separator = some cs[i]) → t.kind.isStar = false →
          (route (ofChars separator cs) (some t.kind) ts (i + 1)).isMatched →
          Tells separator cs before (t :: ts) i :=
        fun hsep ht h => tells_of_single hd hsep ht (next hlt (edge_of_iff hd hsep) h)
      rw [route_cons hd] at h
      cases hm : (Leg.facing (ofChars separator cs) before t ts).move (ofChars separator cs) i cs[i]
        with
      | stuck => rw [hm] at h; cases h
      | yield =>
        rw [hm, Outcome.isMatched_prepend] at h
        obtain ⟨rfl, -⟩ := Leg.of_move_yield hm
        have hl := (Leg.move_question_eq_yield.mp hm).2
        exact (next hi (fun he => nomatch hl.symm.trans he) h).cons rfl fun _ => rfl
      | pass =>
        rw [hm, Outcome.isMatched_prepend] at h
        rcases Leg.of_move_pass hm with rfl | ⟨rfl, -⟩
        · exact single (iff_of_false nofun (tidy.literal_ne _ List.mem_cons_self)) rfl h
        · exact single (iff_of_true rfl (tidy.separator_eq _ List.mem_cons_self)) rfl h
      | take =>
        rw [hm, Outcome.isMatched_prepend] at h
        obtain ⟨rfl | rfl, hs⟩ := Leg.of_move_take hm <;>
          exact single (iff_of_false nofun hs) rfl h
      | trail =>
        rw [hm, Outcome.isMatched_prepend] at h
        obtain ⟨rfl, -⟩ := Leg.of_move_trail hm
        exact single (iff_of_true rfl (tidy.separator_eq _ List.mem_cons_self)) rfl h
      | jump stop =>
        rw [hm, Outcome.isMatched_prepend] at h
        have ht := Leg.isStar_of_move (Or.inl hm)
        rcases Leg.of_move_jump hm with ⟨hs, -, rfl⟩ | ⟨rfl, hs, hr, -⟩
        · have hle := (Subject.endsSegment separator hi).le_size
          exact tells_of_segmentStop tidy ht hs hi h (next hle (edge_of_isStar tidy ht) h)
        · obtain ⟨c, rfl⟩ := Option.isSome_iff_exists.mp hs
          exact tells_of_landing tidy hr hlt edge h0 fun hj => next hj (edge_of_isStar tidy ht)
      | seek limit =>
        rw [hm] at h
        obtain ⟨p, hp, hgo⟩ := Outcome.exists_of_isMatched_firstOf h
        rw [Outcome.isMatched_prepend] at hgo
        obtain ⟨hr, hs⟩ := Leg.of_move_seek hm
        obtain ⟨-, -, hocc, hend⟩ := mem_sitesWithin.mp hp
        have rest := tells_of_isMatched _ (tidy.tail.drop _) (hend.trans (seek_le_size hm hi))
          (edge_of_occursAt tidy.tail hr hocc) hgo
        refine rest.seek (Leg.isStar_of_move (Or.inr hm)) hr ?_
        rcases hs with ⟨-, hg, -⟩ | ⟨hd, hs, -⟩
        · exact Or.inl hg
        · exact Or.inr ⟨hd, hs⟩
termination_by ts.length
decreasing_by all_goals (simp only [List.length_cons, List.length_drop]; omega)

end Search

end Wildcard
