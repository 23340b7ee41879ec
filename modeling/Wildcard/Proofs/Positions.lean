import Mathlib.Data.List.Basic
import Mathlib.Data.Nat.Basic
import Mathlib.Order.MinMax
import Wildcard.Spans

/-! Sets of positions, and spans as a record of one.

    A set of positions is told by its members; picking a text along it leaves the characters that
    stand at them, in order. Spans stand for such a set as long as they are kept in order, apart
    from each other and none of them empty. A take that begins no earlier than the latest span keeps
    them so, and giving back keeps them so from any position.

        positions   0 1 . 3 . .        text  a b c d e f        picked  a b d
        spans       [3,4) [0,2) -/

namespace Wildcard

/-- A set of positions. -/
abbrev Positions := ℕ → Bool

namespace Positions

/-- The set with the positions from `start` up to `stop` in addition. -/
def add (M : Positions) (start stop : ℕ) : Positions :=
  fun p => M p || decide (start ≤ p) && decide (p < stop)

/-- The positions of the set that come before a bound. -/
def below (M : Positions) (bound : ℕ) : Positions := fun p => M p && decide (p < bound)

theorem add_apply {M : Positions} {start stop p : ℕ} :
    M.add start stop p ↔ M p ∨ start ≤ p ∧ p < stop := by
  simp [add]

theorem below_apply {M : Positions} {bound p : ℕ} : M.below bound p ↔ M p ∧ p < bound := by
  simp [below]

/-- Nothing is added between a position and itself. -/
theorem add_of_le {M : Positions} {start stop : ℕ} (h : stop ≤ start) : M.add start stop = M := by
  funext p
  rw [Bool.eq_iff_iff, add_apply]
  exact or_iff_left (by omega)

/-- All that is kept of a set below a bound is what stood below it before. -/
theorem below_eq {M N : Positions} {bound : ℕ} (hM : ∀ p, M p → p < bound)
    (hN : ∀ p < bound, N p = M p) : N.below bound = M := by
  funext p
  rw [Bool.eq_iff_iff, below_apply]
  constructor
  · rintro ⟨hp, hlt⟩
    rwa [← hN p hlt]
  · intro hp
    exact ⟨by rwa [hN p (hM p hp)], hM p hp⟩

end Positions

/-! ### Picking characters -/

/-- The characters of a text that stand at the positions of a set. -/
def pick : Positions → List Char → List Char
  | _, [] => []
  | M, c :: cs => if M 0 then c :: pick (fun p => M (p + 1)) cs else pick (fun p => M (p + 1)) cs

theorem pick_congr {M N : Positions} {cs : List Char} (h : ∀ p < cs.length, M p = N p) :
    pick M cs = pick N cs := by
  induction cs generalizing M N with
  | nil => rfl
  | cons c cs ih =>
    have hc := ih (M := fun p => M (p + 1)) (N := fun p => N (p + 1))
      fun p hp => h (p + 1) (Nat.succ_lt_succ hp)
    rw [pick, pick, h 0 (Nat.succ_pos _), hc]

theorem pick_append (M : Positions) (xs ys : List Char) :
    pick M (xs ++ ys) = pick M xs ++ pick (fun p => M (xs.length + p)) ys := by
  induction xs generalizing M with
  | nil => simp [pick]
  | cons x xs ih =>
    rw [List.cons_append, pick, pick, ih, List.length_cons]
    simp only [Nat.add_right_comm _ 1]
    split <;> rfl

/-- A text is picked up to a position and then from it on. -/
theorem pick_take_drop (M : Positions) (i : ℕ) (cs : List Char) :
    pick M cs = pick M (cs.take i) ++ pick (fun p => M (i + p)) (cs.drop i) := by
  rcases Nat.lt_or_ge cs.length i with hi | hi
  · rw [List.take_of_length_le hi.le, List.drop_eq_nil_of_le hi.le, pick, List.append_nil]
  · conv_lhs => rw [← List.take_append_drop i cs, pick_append, List.length_take_of_le hi]

theorem mem_of_mem_pick {M : Positions} {cs : List Char} {c : Char} (h : c ∈ pick M cs) : c ∈ cs := by
  induction cs generalizing M with
  | nil => exact h
  | cons d cs ih =>
    rw [pick] at h
    split at h
    · rcases List.mem_cons.mp h with rfl | h
      · exact List.mem_cons_self
      · exact List.mem_cons_of_mem d (ih h)
    · exact List.mem_cons_of_mem d (ih h)

theorem pick_of_forall_not {M : Positions} {cs : List Char} (h : ∀ p < cs.length, M p = false) :
    pick M cs = [] := by
  induction cs generalizing M with
  | nil => rfl
  | cons c cs ih =>
    rw [pick, if_neg (by rw [h 0 (Nat.succ_pos _)]; exact Bool.false_ne_true)]
    exact ih fun p hp => h (p + 1) (Nat.succ_lt_succ hp)

theorem pick_of_forall {M : Positions} {cs : List Char} (h : ∀ p < cs.length, M p) :
    pick M cs = cs := by
  induction cs generalizing M with
  | nil => rfl
  | cons c cs ih =>
    rw [pick, if_pos (h 0 (Nat.succ_pos _)), ih fun p hp => h (p + 1) (Nat.succ_lt_succ hp)]

/-! ### Spans in order -/

namespace Spans

/-- The spans are apart from each other, the later ones further to the right, and none is empty. -/
structure Ordered (s : Spans) : Prop where
  nonempty : ∀ span ∈ s.latestFirst, span.start < span.stop
  apart : s.latestFirst.Pairwise fun later earlier => earlier.stop < later.start

/-- Some span holds the position. -/
def Holds (s : Spans) (p : ℕ) : Prop := ∃ span ∈ s.latestFirst, span.start ≤ p ∧ p < span.stop

theorem holds_cons {top : Span} {rest : List Span} {p : ℕ} :
    Holds ⟨top :: rest⟩ p ↔ (top.start ≤ p ∧ p < top.stop) ∨ Holds ⟨rest⟩ p := by
  simp [Holds]

theorem ordered_empty : Ordered empty :=
  ⟨fun _ h => absurd h (by simp [empty]), List.Pairwise.nil⟩

theorem ordered_cons {top : Span} {rest : List Span} :
    Ordered ⟨top :: rest⟩ ↔
      (top.start < top.stop ∧ ∀ span ∈ rest, span.stop < top.start) ∧ Ordered ⟨rest⟩ := by
  constructor
  · rintro ⟨hne, hap⟩
    rw [List.forall_mem_cons] at hne
    rw [List.pairwise_cons] at hap
    exact ⟨⟨hne.1, hap.1⟩, hne.2, hap.2⟩
  · rintro ⟨⟨hlt, hb⟩, hne, hap⟩
    exact ⟨List.forall_mem_cons.mpr ⟨hlt, hne⟩, List.pairwise_cons.mpr ⟨hb, hap⟩⟩

/-- A position is taken just when some span holds it. -/
theorem taken_iff {s : Spans} (h : s.Ordered) {p : ℕ} : s.taken p ↔ s.Holds p := by
  obtain ⟨spans⟩ := s
  induction spans with
  | nil => simp [taken, Holds]
  | cons top rest ih =>
    obtain ⟨⟨-, hb⟩, hrest⟩ := ordered_cons.mp h
    rw [taken, List.find?_cons, holds_cons]
    by_cases hp : top.start ≤ p
    · have below : ¬Holds ⟨rest⟩ p := by
        rintro ⟨span, hm, -, hlt⟩
        have := hb span hm
        omega
      simp only [hp, decide_true, Option.any_some, decide_eq_true_eq, true_and, below, or_false]
    · simp only [hp, decide_false, false_and, false_or]
      exact ih hrest

/-! ### Taking and giving back -/

/-- Whether a take is one that the spans can put down: it takes nothing, or it begins no earlier than
    the latest span. -/
def Admits (s : Spans) (start stop : ℕ) : Prop :=
  start < stop → ∀ top ∈ s.latestFirst.head?, top.start ≤ start

instance (s : Spans) (start stop : ℕ) : Decidable (s.Admits start stop) :=
  inferInstanceAs (Decidable (start < stop → ∀ top ∈ s.latestFirst.head?, top.start ≤ start))

/-- Where no position beyond `start` is taken, the latest span begins no later. -/
theorem admits_of_taken_le {s : Spans} (h : s.Ordered) {start : ℕ}
    (hs : ∀ p, s.taken p → p ≤ start) (stop : ℕ) : s.Admits start stop := by
  intro _ top htop
  have hmem : top ∈ s.latestFirst := List.mem_of_head? htop
  exact hs _ ((taken_iff h).mpr ⟨top, hmem, le_rfl, h.nonempty top hmem⟩)

section

variable {s : Spans} (h : s.Ordered) {start stop : ℕ} (hs : s.Admits start stop)

include h hs

/-- A take that the spans can put down keeps them in order, and adds to them what is taken. -/
theorem holds_take :
    (s.take start stop).Ordered ∧
      ∀ p, (s.take start stop).Holds p ↔ s.Holds p ∨ start ≤ p ∧ p < stop := by
  obtain ⟨spans⟩ := s
  rw [take]
  split
  · next hle => exact ⟨h, fun p => (or_iff_left (by omega)).symm⟩
  · next hlt =>
    cases spans with
    | nil =>
      refine ⟨ordered_cons.mpr ⟨⟨Nat.lt_of_not_le hlt, by simp⟩, h⟩, fun p => ?_⟩
      rw [holds_cons, or_comm]
    | cons top rest =>
      obtain ⟨⟨hne, hb⟩, hrest⟩ := ordered_cons.mp h
      have htop : top.start ≤ start := hs (Nat.lt_of_not_le hlt) top rfl
      dsimp only
      split
      · next hin =>
        refine ⟨ordered_cons.mpr ⟨⟨lt_max_of_lt_left hne, hb⟩, hrest⟩, fun p => ?_⟩
        rw [holds_cons, holds_cons, or_right_comm]
        refine or_congr_left ?_
        dsimp only
        rw [lt_max_iff]
        omega
      · next hout =>
        have hgap : top.stop < start := by omega
        refine ⟨ordered_cons.mpr ⟨⟨Nat.lt_of_not_le hlt, ?_⟩, h⟩, fun p => ?_⟩
        · exact List.forall_mem_cons.mpr ⟨hgap, fun span hm => (hb span hm).trans (hne.trans hgap)⟩
        · rw [holds_cons, or_comm]

theorem taken_take : (s.take start stop).taken = Positions.add s.taken start stop := by
  obtain ⟨ho, hh⟩ := holds_take h hs
  funext p
  rw [Bool.eq_iff_iff, taken_iff ho, hh, Positions.add_apply, taken_iff h]

end

/-- Giving back keeps the spans in order, and leaves of them what comes before the bound. -/
theorem holds_undo {s : Spans} (h : s.Ordered) (bound : ℕ) :
    (s.undo bound).Ordered ∧ ∀ p, (s.undo bound).Holds p ↔ s.Holds p ∧ p < bound := by
  obtain ⟨spans⟩ := s
  induction spans with
  | nil => exact ⟨ordered_empty, fun p => by simp [undo, empty, Holds]⟩
  | cons top rest ih =>
    obtain ⟨⟨hne, hb⟩, hrest⟩ := ordered_cons.mp h
    simp only [holds_cons]
    by_cases hle : bound ≤ top.start
    · have hu : undo ⟨top :: rest⟩ bound = undo ⟨rest⟩ bound := by simp [undo, hle]
      rw [hu]
      refine ⟨(ih hrest).1, fun p => ?_⟩
      rw [(ih hrest).2]
      constructor
      · exact fun hp => ⟨Or.inr hp.1, hp.2⟩
      · rintro ⟨⟨hp, -⟩ | hp, hlt⟩
        · omega
        · exact ⟨hp, hlt⟩
    · have hu : undo ⟨top :: rest⟩ bound = ⟨{ top with stop := min top.stop bound } :: rest⟩ := by
        simp [undo, hle]
      rw [hu]
      refine ⟨ordered_cons.mpr ⟨⟨lt_min hne (Nat.lt_of_not_le hle), hb⟩, hrest⟩, fun p => ?_⟩
      rw [holds_cons, or_and_right]
      refine or_congr (by simp only [lt_min_iff, and_assoc]) (iff_self_and.mpr ?_)
      rintro ⟨span, hm, -, hlt⟩
      have := hb span hm
      omega

theorem taken_undo {s : Spans} (h : s.Ordered) (bound : ℕ) :
    (s.undo bound).taken = Positions.below s.taken bound := by
  obtain ⟨ho, hh⟩ := holds_undo h bound
  funext p
  rw [Bool.eq_iff_iff, taken_iff ho, hh, Positions.below_apply, taken_iff h]

/-! ### The characters of the spans -/

/-- The characters of spans in order are those of the text at the positions they hold. -/
theorem charsOf_eq_pick {s : Spans} (h : s.Ordered) (cs : Array Char) :
    s.charsOf cs = pick s.taken cs.toList := by
  obtain ⟨spans⟩ := s
  induction spans with
  | nil => exact (pick_of_forall_not fun p _ => rfl).symm
  | cons top rest ih =>
    obtain ⟨⟨hne, hb⟩, hrest⟩ := ordered_cons.mp h
    have before : ∀ p < top.start, taken ⟨top :: rest⟩ p = taken ⟨rest⟩ p := fun p hp => by
      rw [Bool.eq_iff_iff, taken_iff h, taken_iff hrest, holds_cons]
      exact or_iff_right (by omega)
    have behind : ∀ p, ¬Holds ⟨rest⟩ (top.start + p) := by
      rintro p ⟨span, hm, -, hlt⟩
      have := hb span hm
      omega
    have left : pick (taken ⟨rest⟩) cs.toList =
        pick (taken ⟨top :: rest⟩) (cs.toList.take top.start) := by
      have none : pick (fun p => taken ⟨rest⟩ (top.start + p)) (cs.toList.drop top.start) = [] :=
        pick_of_forall_not fun p _ => (Bool.not_eq_true _).mp (mt (taken_iff hrest).mp (behind p))
      rw [pick_take_drop _ top.start, none, List.append_nil]
      refine pick_congr fun p hp => (before p ?_).symm
      rw [List.length_take] at hp
      omega
    have right : (cs.extract top.start top.stop).toList =
        pick (fun p => taken ⟨top :: rest⟩ (top.start + p)) (cs.toList.drop top.start) := by
      rw [Array.toList_extract, List.extract_eq_take_drop,
        pick_take_drop _ (top.stop - top.start), pick_of_forall, pick_of_forall_not,
        List.append_nil]
      · intro p _
        rw [← Bool.not_eq_true, taken_iff h, holds_cons]
        rintro (⟨-, hlt⟩ | hr)
        · omega
        · exact behind _ hr
      · intro p hp
        rw [List.length_take] at hp
        exact (taken_iff h).mpr (holds_cons.mpr (Or.inl ⟨by omega, by omega⟩))
    rw [pick_take_drop _ top.start, ← left, ← right, ← ih hrest]
    simp [charsOf]

end Spans

end Wildcard
