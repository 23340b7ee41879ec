import Wildcard.Proofs.Matching

/-! Which positions a route leaves marked.

    Marking goes stride by stride, and what a separator adds depends on what is marked when its turn
    comes. Nothing further on marks a position before it, though, so the marks that are left in the
    end decide it just as well, and the set is told position by position:

        kept p  =  a wildcard takes p,
                   or a separator behind a star stands at p, and p - 1 is kept -/

namespace Wildcard

open Subject (ofChars)

namespace Stride

/-- Whether a position lies in the stretch of the stride. -/
def covers (q : Stride) (p : ℕ) : Bool := decide (q.start ≤ p) && decide (p < q.stop)

/-- Whether the stride is that of a wildcard that takes a position. -/
def takes (q : Stride) (p : ℕ) : Bool := q.token.isWildcard && q.covers p

/-- Whether the stride is that of a separator that stands at a position. -/
def separates (q : Stride) (p : ℕ) : Bool := decide (q.token.kind = .separator) && q.covers p

/-- Every stride with the one behind it. -/
def pairs (path : List Stride) : List (Stride × Stride) := path.zip path.tail

theorem covers_iff {q : Stride} {p : ℕ} : q.covers p ↔ q.start ≤ p ∧ p < q.stop := by
  simp [covers]

theorem covers_idle (i : ℕ) (t : Token) (p : ℕ) : (idle i t).covers p = false := by
  rw [← Bool.not_eq_true, covers_iff]
  exact fun h => absurd (h.1.trans_lt h.2) (lt_irrefl i)

theorem separates_iff {q : Stride} {p : ℕ} :
    q.separates p ↔ q.token.kind = .separator ∧ q.covers p := by
  simp [separates]

end Stride

/-- The positions that the wildcards of some strides take. -/
def taken (path : List Stride) : Positions := fun p => path.any (·.takes p)

/-- The positions of the separators that stand right behind a star. -/
def trailing (path : List Stride) : Positions :=
  fun p => (Stride.pairs path).any fun (q, r) => q.token.kind.isStar && r.separates p

/-- The positions that are left marked. -/
def kept (path : List Stride) : Positions
  | 0 => taken path 0
  | p + 1 => taken path (p + 1) || trailing path (p + 1) && kept path p

theorem taken_cons (q : Stride) (path : List Stride) (p : ℕ) :
    taken (q :: path) p = (q.takes p || taken path p) := rfl

theorem kept_zero (path : List Stride) : kept path 0 = taken path 0 := rfl

theorem kept_succ (path : List Stride) (p : ℕ) :
    kept path (p + 1) = (taken path (p + 1) || trailing path (p + 1) && kept path p) := rfl

/-- What wildcards take is kept. -/
theorem kept_of_taken {path : List Stride} {p : ℕ} (h : taken path p) : kept path p := by
  cases p with
  | zero => exact h
  | succ p => rw [kept_succ, h, Bool.true_or]

/-- Whether the first of some strides is a separator at a position, and stands behind a star. -/
def leads (before : Option Kind) (path : List Stride) : Positions :=
  fun p => before.any Kind.isStar && path.head?.any (·.separates p)

theorem trailing_cons (q : Stride) (path : List Stride) (p : ℕ) :
    trailing (q :: path) p = (leads (some q.token.kind) path p || trailing path p) := by
  cases path with
  | nil => simp [trailing, Stride.pairs, leads]
  | cons r path => rfl

/-! ### Strides that go back at most one separator -/

/-- A separator is one position wide, and no later stride takes anything before it. -/
structure Steady (path : List Stride) : Prop where
  narrow : ∀ q ∈ path, q.token.kind = .separator → q.stop ≤ q.start + 1
  onward : path.Pairwise fun q r => q.token.kind = .separator → r.start < r.stop → q.start ≤ r.start

namespace Steady

theorem cons {q : Stride} {path : List Stride} (h : Steady path)
    (narrow : q.token.kind = .separator → q.stop ≤ q.start + 1)
    (onward : ∀ r ∈ path, q.token.kind = .separator → r.start < r.stop → q.start ≤ r.start) :
    Steady (q :: path) :=
  ⟨List.forall_mem_cons.mpr ⟨narrow, h.narrow⟩, List.pairwise_cons.mpr ⟨onward, h.onward⟩⟩

/-- A stride in front that is not that of a separator changes nothing. -/
theorem cons_of_ne {q : Stride} {path : List Stride} (h : Steady path)
    (hq : q.token.kind ≠ .separator) : Steady (q :: path) :=
  h.cons (fun hs => absurd hs hq) fun _ _ hs => absurd hs hq

/-- Strides that stand for nothing may come in front, as long as nothing goes back behind them. -/
theorem idle {path : List Stride} (h : Steady path) (i : ℕ) (us : List Token)
    (onward : ∀ r ∈ path, r.start < r.stop → i ≤ r.start) :
    Steady (us.map (.idle i) ++ path) := by
  induction us with
  | nil => exact h
  | cons u us ih =>
    refine ih.cons (fun _ => Nat.le_succ _) fun r hr _ hne => ?_
    rcases List.mem_append.mp hr with hr | hr
    · obtain ⟨u, -, rfl⟩ := List.mem_map.mp hr
      exact le_rfl
    · exact onward r hr hne

/-- Literals may come in front. -/
theorem spell {path : List Stride} (h : Steady path) (i : ℕ) (run : List Char) :
    Steady (Stride.spell i run ++ path) := by
  induction run generalizing i with
  | nil => exact h
  | cons c run ih => exact (ih (i + 1)).cons_of_ne nofun

end Steady

namespace Stride

/-- The strides of a run lie where the run does. -/
theorem mem_spell {i : ℕ} {run : List Char} {q : Stride} (h : q ∈ spell i run) :
    i ≤ q.start ∧ q.stop ≤ i + run.length ∧ q.token.kind = .literal := by
  induction run generalizing i with
  | nil => cases h
  | cons c run ih =>
    rw [List.length_cons]
    rcases List.mem_cons.mp h with rfl | h
    · exact ⟨le_rfl, by dsimp only; omega, rfl⟩
    · obtain ⟨hi, hr, hk⟩ := ih h
      exact ⟨by omega, by omega, hk⟩

/-- What holds of a star's idle tokens, of the run it has sought and of what comes behind. -/
theorem forall_mem_sought {P : Stride → Prop} {p : ℕ} {us : List Token} {run : List Char}
    {path : List Stride} (gap : ∀ u, P (.idle p u)) (spelled : ∀ q ∈ spell p run, P q)
    (behind : ∀ q ∈ path, P q) :
    ∀ q ∈ us.map (.idle p) ++ (spell p run ++ path), P q := by
  intro q hq
  rcases List.mem_append.mp hq with hq | hq
  · obtain ⟨u, -, rfl⟩ := List.mem_map.mp hq
    exact gap u
  · exact (List.mem_append.mp hq).elim (spelled q) (behind q)

end Stride

namespace Course

variable {s : Subject} {ts : List Token} {i : ℕ} {path : List Stride}

/-- No stride of a course that covers anything begins before its floor. -/
theorem floor_le_start (h : Course s ts i path) {f : ℕ} (hf : Search.Floor s ts i f) :
    ∀ q ∈ path, q.start < q.stop → f ≤ q.start := by
  induction h with
  | ended hi null =>
    intro q hq hne
    obtain ⟨t, -, rfl⟩ := List.mem_map.mp hq
    exact absurd hne (lt_irrefl _)
  | yield rest ih =>
    exact List.forall_mem_cons.mpr ⟨fun hne => absurd hne (lt_irrefl _), ih (hf.onward rfl le_rfl)⟩
  | pass hc ht rest ih =>
    exact List.forall_mem_cons.mpr
      ⟨fun _ => hf.1, ih (Search.floor_of_lt (Nat.lt_succ_of_le hf.1))⟩
  | take hc ht hs rest ih =>
    exact List.forall_mem_cons.mpr
      ⟨fun _ => hf.1, ih (Search.floor_of_lt (Nat.lt_succ_of_le hf.1))⟩
  | jump ht le le_size clear rest ih =>
    exact List.forall_mem_cons.mpr
      ⟨fun _ => hf.1, ih (hf.onward (Token.isWildcard_of_isStar ht) le)⟩
  | back run wanted hat rest ih =>
    exact List.forall_mem_cons.mpr
      ⟨fun _ => hf.1, ih (hf.back rfl run wanted hat)⟩
  | @seek t us ts run i p path ht hu hr le occurs clear rest ih =>
    have hpos := List.length_pos_of_ne_nil hr
    have hfi := hf.1
    refine List.forall_mem_cons.mpr ⟨fun _ => hfi, Stride.forall_mem_sought ?_ ?_ ?_⟩
    · exact fun u hne => absurd hne (lt_irrefl _)
    · exact fun q hq _ => (hfi.trans le).trans (Stride.mem_spell hq).1
    · exact ih (Search.floor_of_lt (by omega))

theorem ne_separator_of_isStar {t : Token} (h : t.kind.isStar) : t.kind ≠ .separator := by
  intro he
  rw [he] at h
  cases h

/-- A course goes back onto separators only, and one at a time. -/
theorem steady (h : Course s ts i path) : Steady path := by
  induction h with
  | @ended ts i hi null =>
    have h : Steady (ts.map (.idle i) ++ []) := Steady.idle ⟨by simp, .nil⟩ i ts (by simp)
    rwa [List.append_nil] at h
  | yield rest ih => exact ih.cons_of_ne nofun
  | pass hc ht rest ih =>
    exact ih.cons (fun _ => le_rfl) fun r hr _ hne =>
      rest.floor_le_start (Search.floor_of_lt (Nat.lt_succ_self _)) r hr hne
  | take hc ht hs rest ih =>
    refine ih.cons_of_ne ?_
    rcases ht with rfl | rfl <;> nofun
  | jump ht le le_size clear rest ih => exact ih.cons_of_ne (ne_separator_of_isStar ht)
  | back run wanted hat rest ih => exact ih.cons_of_ne nofun
  | seek ht hu hr le occurs clear rest ih =>
    refine Steady.cons_of_ne (Steady.idle (ih.spell _ _) _ _ fun q hq hne => ?_)
      (ne_separator_of_isStar ht)
    rcases List.mem_append.mp hq with hq | hq
    · exact (Stride.mem_spell hq).1
    · have := List.length_pos_of_ne_nil hr
      exact rest.floor_le_start (Search.floor_of_lt (by omega)) q hq hne

end Course

/-! ### Marks in the end -/

theorem replay_of_not_covers {path : List Stride} {p : ℕ} (h : ∀ q ∈ path, ¬q.covers p)
    (before : Option Kind) (M : Positions) : replay before path M p = M p := by
  induction path generalizing before M with
  | nil => rfl
  | cons q path ih =>
    obtain ⟨hq, hpath⟩ := List.forall_mem_cons.mp h
    rw [replay, ih hpath]
    have hadd : M.add q.start q.stop p = M p := by
      rw [Bool.eq_iff_iff, Positions.add_apply]
      exact or_iff_left (mt Stride.covers_iff.mpr hq)
    rw [Stride.mark]
    split
    · exact hadd
    · split
      · split
        · exact hadd
        · rfl
      · rfl

/-- What one stride marks. -/
theorem mark_iff (before : Option Kind) {q : Stride}
    (narrow : q.token.kind = .separator → q.stop ≤ q.start + 1) (M : Positions) (p : ℕ) :
    q.mark before M p ↔
      M p ∨ q.takes p ∨ (before.any Kind.isStar ∧ q.separates p) ∧ 0 < p ∧ M (p - 1) := by
  have hadd : M.add q.start q.stop p ↔ M p ∨ q.covers p := by
    rw [Positions.add_apply, Stride.covers_iff]
  by_cases hw : q.token.isWildcard
  · have hs : q.token.kind ≠ .separator := by
      revert hw
      cases q.token <;> simp [Token.isWildcard, Token.kind]
    rw [Stride.mark_of_isWildcard before hw, hadd]
    simp [Stride.takes, Stride.separates, hw, hs]
  · rw [Stride.mark, if_neg hw]
    by_cases hs : q.token.kind = .separator ∧ before.any Kind.isStar
    · have at_start : q.covers p → p = q.start := fun hc => by
        have := narrow hs.1
        rw [Stride.covers_iff] at hc
        omega
      rw [if_pos hs]
      simp only [Stride.takes, Stride.separates, hw, hs.1, hs.2, decide_true, Bool.true_and,
        Bool.false_and, Bool.false_eq_true, false_or, true_and]
      split
      · next hk =>
        rw [hadd]
        refine or_congr_right (iff_self_and.mpr fun hc => ?_)
        rwa [at_start hc]
      · next hk =>
        refine (or_iff_left ?_).symm
        rintro ⟨hc, hp⟩
        rw [at_start hc] at hp
        exact hk hp
    · rw [if_neg hs]
      have : ¬(before.any Kind.isStar ∧ q.separates p) := fun h =>
        hs ⟨(Stride.separates_iff.mp h.2).1, h.1⟩
      simp only [Stride.takes, hw, this, Bool.false_and, Bool.false_eq_true, false_and, or_false]

/-- Whether a position is marked in the end can be told from the strides and the position before. -/
theorem replay_iff {path : List Stride} (h : Steady path) (before : Option Kind) (M : Positions)
    (p : ℕ) :
    replay before path M p ↔ M p ∨ taken path p ∨
      (leads before path p ∨ trailing path p) ∧ 0 < p ∧ replay before path M (p - 1) := by
  induction path generalizing before M with
  | nil => simp [replay, taken, leads, trailing, Stride.pairs]
  | cons q path ih =>
    obtain ⟨narrow, hnarrow⟩ := List.forall_mem_cons.mp h.narrow
    obtain ⟨onward, honward⟩ := List.pairwise_cons.mp h.onward
    -- Nothing behind a separator marks the position before it.
    have before_p : ((before.any Kind.isStar ∧ q.separates p) ∧ 0 < p ∧ M (p - 1)) ↔
        ((before.any Kind.isStar ∧ q.separates p) ∧ 0 < p ∧
          replay (some q.token.kind) path (q.mark before M) (p - 1)) := by
      refine and_congr_right fun hs => and_congr_right fun hp => ?_
      replace hs := hs.2
      rw [Stride.separates_iff, Stride.covers_iff] at hs
      have hstart : p = q.start := by
        have := narrow hs.1
        omega
      have clear : ∀ r ∈ q :: path, ¬r.covers (p - 1) := by
        refine List.forall_mem_cons.mpr ⟨fun hc => ?_, fun r hr hc => ?_⟩
        · rw [Stride.covers_iff] at hc
          omega
        · rw [Stride.covers_iff] at hc
          have := onward r hr hs.1 (by omega)
          omega
      have := replay_of_not_covers clear before M
      rw [replay] at this
      rw [this]
    rw [replay, ih ⟨hnarrow, honward⟩, mark_iff before narrow, before_p, taken_cons, trailing_cons]
    simp only [leads, List.head?_cons, Option.any_some, Bool.and_eq_true, Bool.or_eq_true,
      or_and_right, or_assoc, or_left_comm]

/-- The marks that a route leaves, told position by position. -/
theorem replay_eq_kept {path : List Stride} (h : Steady path) :
    replay none path (fun _ => false) = kept path := by
  funext p
  induction p with
  | zero =>
    rw [Bool.eq_iff_iff, replay_iff h, kept_zero]
    simp
  | succ p ih =>
    rw [Bool.eq_iff_iff, replay_iff h, kept_succ, Nat.add_sub_cancel, ih]
    simp [leads]

end Wildcard
