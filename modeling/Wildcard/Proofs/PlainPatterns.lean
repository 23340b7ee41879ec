import Wildcard.Proofs.Cursors
import Wildcard.Proofs.PlainPrefix

/-! A pattern without wildcards, compared or searched for.

    Such a pattern is compared with a text character by character, and no search is made. A search
    would say the same: each token passes its own character and no other, none of them marks
    anything, and at the end of the text a token that is left is one too many.

        tokens   a / b        text   a / b    every token passes        matched, nothing marked
                              text   a / c    the last one is stuck     failed
                              text   a /      the last one is left      failed -/

namespace Wildcard

open Subject (ofChars)

/-- What is no wildcard is of none of the four kinds. -/
theorem Token.isWildcard_eq_false_iff {t : Token} :
    t.isWildcard = false ↔
      t.kind ≠ .star ∧ t.kind ≠ .doubleStar ∧ t.kind ≠ .question ∧ t.kind ≠ .plus := by
  cases t <;> simp [isWildcard, kind]

/-- A search for tokens that stand for themselves tells whether the text goes on with them to the
    end. It leaves its record as it was, as long as looks do not count. -/
theorem Search.run_plain {μ : Type} [Recorder μ] (look : ∀ (m : μ) i, Recorder.look m i = m)
    {separator : Option Char} {cs : Array Char} {before : Option Kind}
    (hb : ¬before.any Kind.isStar) {ts : List Token} (plain : ∀ t ∈ ts, t.isWildcard = false)
    {i : ℕ} (hi : i ≤ cs.size) (m : μ) :
    run (ofChars separator cs) (Leg.chain (ofChars separator cs) before ts).1 0 i m =
      if ts.map Token.symbol = cs.toList.drop i then .matched m else .failed m := by
  have hsize : (ofChars separator cs).size = cs.size := rfl
  induction ts generalizing before i with
  | nil =>
    rcases hi.eq_or_lt with rfl | hlt
    · rw [run_of_size_le hsize.le, List.drop_eq_nil_of_le Array.length_toList.le]
      simp
    · rw [run_nil (hsize ▸ hlt), look, List.drop_eq_getElem_cons (Array.length_toList ▸ hlt)]
      simp
  | cons t ts ih =>
    obtain ⟨ht, hts⟩ := List.forall_mem_cons.mp plain
    rcases hi.eq_or_lt with rfl | hlt
    · have hn : ((t :: ts).all fun t => t.kind.isNullable) = false := by
        rw [List.all_cons, Token.isNullable_of_not_isWildcard ht, Bool.false_and]
      rw [run_of_size_le hsize.le, hn, List.drop_eq_nil_of_le Array.length_toList.le]
      simp
    · have hc : (ofChars separator cs).chars[i]? = some cs[i] := Array.getElem?_eq_getElem hlt
      have hd : cs.toList.drop i = cs[i] :: cs.toList.drop (i + 1) :=
        List.drop_eq_getElem_cons (Array.length_toList ▸ hlt)
      -- no star stands before a separator, so none asks what is marked
      have hno : ¬(t.kind = .separator ∧ before.any Kind.isStar) := fun h => hb h.2
      have hstar : ¬(some t.kind).any Kind.isStar := by
        simp [Token.isStar_of_not_isWildcard ht]
      have rest := ih hstar hts (i := i + 1) hlt
      rw [run_cons hc, Leg.move_plain ts ht, if_neg hno, look, hd, List.map_cons]
      by_cases he : cs[i] = t.symbol
      · simp [he, rest]
      · simp [he, Ne.symm he]

namespace Pattern

/-- A pattern is plain just when none of its kinds is that of a wildcard. -/
theorem isLiteral_iff_kinds {p : Pattern} :
    p.isLiteral ↔ ∀ k ∈ p.kinds, k ≠ .star ∧ k ≠ .doubleStar ∧ k ≠ .question ∧ k ≠ .plus := by
  rw [isLiteral_iff, kinds]
  simp only [Token.isWildcard_eq_false_iff, List.forall_mem_append, List.forall_mem_map]
  simp

/-- A search for a plain pattern tells whether the text is what the pattern spells. -/
theorem search_of_isLiteral {μ : Type} [Recorder μ] (look : ∀ (m : μ) i, Recorder.look m i = m)
    {p : Pattern} (hp : p.isLiteral) (text : String) (m : μ) :
    search p.separator p.tokens text.toList.toArray m =
      if p.spells text then .matched m else .failed m := by
  have hb : ¬(none : Option Kind).any Kind.isStar := by simp
  have found := @Search.run_plain μ _ look p.separator text.toList.toArray none hb p.tokens
    (isLiteral_iff.mp hp) 0 (Nat.zero_le _) m
  rw [search, Leg.ofTokens, found, spells]
  simp

/-- A walk through a plain pattern tells whether the text is what the pattern spells, and records
    nothing. -/
theorem safe_of_isLiteral {μ : Type} [Tracker μ] {R : Positions → μ → Prop}
    (lawful : Tracker.Lawful R) {p : Pattern} (hp : p.isLiteral) (text : String) {m : μ}
    (hm : R (fun _ => false) m) :
    (Layout.tabled p.separator p.tokens text.toList.toArray).Safe m (p.spells text) m := by
  have safe := (Layout.safe_search lawful hm p text).1
  rw [search_of_isLiteral lawful.look hp] at safe
  cases hs : p.spells text <;> simpa [hs, Verdict.isMatched, Verdict.record] using safe

/-- A pattern is plain just when it has no kind of a wildcard. Then a walk and a search, for the
    verdict as well as for the mask, find what the comparison of the characters finds, and the mask
    they collect is empty. -/
theorem plain_walk_eq_comparison (p : Pattern) :
    (p.isLiteral ↔ ∀ k ∈ p.kinds, k ≠ .star ∧ k ≠ .doubleStar ∧ k ≠ .question ∧ k ≠ .plus) ∧
      (p.isLiteral → ∀ text,
        (p.spells text ↔ p.tokens.map Token.symbol = text.toList) ∧
        (∃ l, Layout.ofPattern p text = .ok l ∧ l.Safe () (p.spells text) () ∧
          l.Safe Spans.empty (p.spells text) Spans.empty ∧ l.collect Spans.empty = .ok []) ∧
        search p.separator p.tokens text.toList.toArray () =
          (if p.spells text then .matched () else .failed ()) ∧
        search p.separator p.tokens text.toList.toArray Spans.empty =
          (if p.spells text then .matched Spans.empty else .failed Spans.empty)) := by
  refine ⟨isLiteral_iff_kinds, fun hp text => ⟨?_, ?_, ?_, ?_⟩⟩
  · rw [spells, decide_eq_true_eq]
  · have walk := safe_of_isLiteral Tracker.lawful_unit hp text (m := ()) trivial
    have marked := safe_of_isLiteral Spans.lawful hp text ⟨Spans.ordered_empty, rfl⟩
    exact ⟨_, Layout.ofPattern_eq p text, walk, marked, rfl⟩
  · exact search_of_isLiteral (fun _ _ => rfl) hp text ()
  · exact search_of_isLiteral (fun _ _ => rfl) hp text Spans.empty

/-- An escaped star is no wildcard, and the separator may be a character that is one elsewhere. -/
theorem plain_walk_eq_comparison_of_escape :
    (compile "a\\*?" (some '?')).isLiteral ∧ (compile "a\\*?" (some '?')).spells "a*?" ∧
      search (some '?') (compile "a\\*?" (some '?')).tokens "a*?".toList.toArray Spans.empty =
        .matched Spans.empty := by
  have hp : (compile "a\\*?" (some '?')).isLiteral := by decide +kernel
  have hs : (compile "a\\*?" (some '?')).spells "a*?" := by decide +kernel
  have found := ((plain_walk_eq_comparison (compile "a\\*?" (some '?'))).2 hp "a*?").2.2.2
  rw [if_pos hs] at found
  exact ⟨hp, hs, found⟩

end Pattern

end Wildcard
