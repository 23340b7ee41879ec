import Wildcard.Proofs.Conservation

/-! What a mask is meant to hold, and what it holds.

    A mask is meant to hold what the wildcards have taken, and each separator right behind a star
    that has taken the character before it. A search asks less of that separator: the character
    before it must be in the mask already, whoever has taken it. So a mask holds all it is meant to
    hold, and a separator more where a star has taken nothing behind a character of the mask:

        pattern  + * /        text  a /        meant  a        held  a /
                   └ takes nothing -/

namespace Wildcard

open Subject (ofChars)

/-- What is picked along a smaller set comes in what is picked along a larger one. -/
theorem pick_sublist {M N : Positions} (h : ∀ p, N p → M p) (cs : List Char) :
    (pick N cs).Sublist (pick M cs) := by
  induction cs generalizing M N with
  | nil => exact .slnil
  | cons c cs ih =>
    have ih := ih fun p => h (p + 1)
    rw [pick, pick]
    by_cases hN : N 0
    · rw [if_pos hN, if_pos (h 0 hN)]
      exact ih.cons_cons c
    · rw [if_neg hN]
      split
      · exact ih.cons c
      · exact ih

/-- A smaller set picks less, unless it differs beyond the text only. -/
theorem pick_eq_iff {M N : Positions} (h : ∀ p, N p → M p) {cs : List Char} :
    pick M cs = pick N cs ↔ ∀ p < cs.length, M p → N p := by
  constructor
  · intro he
    induction cs generalizing M N with
    | nil => intro p hp; cases hp
    | cons c cs ih =>
      have hs := (pick_sublist (fun p => h (p + 1)) cs).length_le
      rw [pick, pick] at he
      have head : M 0 → N 0 := by
        intro hM
        by_contra hN
        rw [if_pos hM, if_neg hN] at he
        have := congrArg List.length he
        rw [List.length_cons] at this
        omega
      have tail : pick (fun p => M (p + 1)) cs = pick (fun p => N (p + 1)) cs := by
        by_cases hM : M 0
        · rw [if_pos hM, if_pos (head hM)] at he
          exact List.tail_eq_of_cons_eq he
        · rwa [if_neg hM, if_neg (mt (h 0) hM)] at he
      rintro (_ | p) hp
      · exact head
      · exact ih (fun p => h (p + 1)) tail p (Nat.lt_of_succ_lt_succ hp)
  · exact fun hall => pick_congr fun p hp => Bool.eq_iff_iff.mpr ⟨hall p hp, h p⟩

/-- The positions that the mask of a route is meant to hold. -/
def meant (path : List Stride) : Positions := fun p =>
  taken path p || (Stride.pairs path).any fun (q, r) =>
    q.token.kind.isStar && r.separates p && decide (0 < p) && q.takes (p - 1)

theorem meant_zero (path : List Stride) : meant path 0 = taken path 0 := by
  simp [meant]

theorem meant_succ_iff {path : List Stride} {n : ℕ} :
    meant path (n + 1) ↔ taken path (n + 1) ∨ ∃ q r, (q, r) ∈ Stride.pairs path ∧
      q.token.kind.isStar ∧ r.separates (n + 1) ∧ q.takes n := by
  simp [meant, and_assoc]

theorem kept_succ_iff {path : List Stride} {n : ℕ} :
    kept path (n + 1) ↔ taken path (n + 1) ∨ (∃ q r, (q, r) ∈ Stride.pairs path ∧
      q.token.kind.isStar ∧ r.separates (n + 1)) ∧ kept path n := by
  simp [kept_succ, trailing]

/-- A mask holds all that it is meant to hold. -/
theorem kept_of_meant {path : List Stride} {p : ℕ} (h : meant path p) : kept path p := by
  cases p with
  | zero => rwa [meant_zero] at h
  | succ n =>
    rcases meant_succ_iff.mp h with h | ⟨q, r, hm, hq, hr, ht⟩
    · exact kept_of_taken h
    · refine kept_succ_iff.mpr (Or.inr ⟨⟨q, r, hm, hq, hr⟩, kept_of_taken ?_⟩)
      exact List.any_eq_true.mpr ⟨q, (List.of_mem_zip hm).1, ht⟩

/-- No separator comes into the mask by way of a star that has not taken the character before. -/
def Exact (path : List Stride) : Prop :=
  ∀ q r, (q, r) ∈ Stride.pairs path → q.token.kind.isStar →
    ∀ n, r.separates (n + 1) → q.takes n = false → meant path n → meant path (n + 1)

/-- A route keeps just what is meant where no star that took nothing brings in a separator. -/
theorem Exact.meant_of_kept {path : List Stride} (h : Exact path) {p : ℕ} (hp : kept path p) :
    meant path p := by
  induction p with
  | zero => rwa [meant_zero]
  | succ n ih =>
    rcases kept_succ_iff.mp hp with ht | ⟨⟨q, r, hm, hq, hr⟩, hk⟩
    · exact meant_succ_iff.mpr (Or.inl ht)
    · by_cases ht : q.takes n
      · exact meant_succ_iff.mpr (Or.inr ⟨q, r, hm, hq, hr, ht⟩)
      · exact h q r hm hq n hr ((Bool.not_eq_true _).mp ht) (ih hk)

namespace Pattern

/-- What the mask of a text holds: all that it is meant to hold, and no more just when no separator
    comes in by way of a star that has not taken the character before. -/
theorem mask?_eq_meant_iff {p : Pattern} {text : String} (h : p.isMatch text) :
    ∃ path mask, p.route text = .matched path ∧ path.map Stride.token = p.tokens ∧
      p.mask? text = some mask ∧ mask.toList = pick (kept path) text.toList ∧
      (pick (meant path) text.toList).Sublist mask.toList ∧
      (mask.toList = pick (meant path) text.toList ↔ Exact path) := by
  rw [isMatch_eq] at h
  obtain ⟨path, hr⟩ := Outcome.isMatched_iff.mp h
  have hcourse := course_of_route hr
  refine ⟨path, _, hr, hcourse.map_token, mask?_eq_some_iff.mpr ⟨path, hr, rfl⟩,
    String.toList_ofList, ?_, ?_⟩
  · rw [String.toList_ofList]
    exact pick_sublist (fun _ => kept_of_meant) _
  · rw [String.toList_ofList, pick_eq_iff fun _ => kept_of_meant]
    constructor
    · intro hall q r hm hq n hs _ hn
      have hr := List.mem_of_mem_tail (List.of_mem_zip hm).2
      exact hall (n + 1) (hcourse.lt_size_of_separates p.tidy hr hs)
        (kept_succ_iff.mpr (Or.inr ⟨⟨q, r, hm, hq, hs⟩, kept_of_meant hn⟩))
    · exact fun he n _ => he.meant_of_kept

/-- The star has taken nothing, and still the separator behind it comes into the mask, since `+` has
    taken the character before. -/
theorem mask?_of_idle_star :
    (compile "+*/" (some '/')).mask? "a/" = some "a/" ∧
      ∃ path, (compile "+*/" (some '/')).route "a/" = .matched path ∧
        String.ofList (pick (meant path) "a/".toList) = "a" :=
  ⟨by decide +kernel, [⟨.plus, 0, 1⟩, ⟨.star, 1, 1⟩, ⟨.separator '/', 1, 2⟩], by decide +kernel,
    by decide +kernel⟩

/-- A star that has taken the character before its separator keeps it, as it should. -/
theorem mask?_eq_meant_iff_of_busy_star :
    (compile "a*/" (some '/')).isMatch "ab/" ∧
      ∃ path mask, (compile "a*/" (some '/')).route "ab/" = .matched path ∧
        path.map Stride.token = (compile "a*/" (some '/')).tokens ∧
        (compile "a*/" (some '/')).mask? "ab/" = some mask ∧
        mask.toList = pick (kept path) "ab/".toList ∧
        (pick (meant path) "ab/".toList).Sublist mask.toList ∧
        (mask.toList = pick (meant path) "ab/".toList ↔ Exact path) :=
  have h : (compile "a*/" (some '/')).isMatch "ab/" := by decide +kernel
  ⟨h, mask?_eq_meant_iff h⟩

end Pattern

end Wildcard
