import Wildcard.PatternSet
import Mathlib.Data.List.Forall2
import Mathlib.Data.List.Induction
import Mathlib.Tactic.Common

/-! What a set of patterns accepts, told by the lists that it was made from.

    A set keeps of each list the texts at their first places. Whether a candidate is accepted does
    not hang on that: it is asked of the texts of both lists, wherever and however often they stand.

        included  a b a c b    kept a b c
        excluded  (empty)      nothing is kept out

    Two sets are compared by the texts and the separators of their patterns. That tells them apart
    just when the kept texts differ, or the separators do and there is a pattern to have one. -/

namespace Wildcard

/-- Two patterns have one text and one separator. No more is looked at to compare them. -/
structure Pattern.Same (p q : Pattern) : Prop where
  text : p.text = q.text
  separator : p.separator = q.separator

/-- Patterns that compare equal are equal. -/
theorem Pattern.same_iff_eq {p q : Pattern} : p.Same q ↔ p = q := by
  constructor
  · intro h
    exact Pattern.ext h.text h.separator
  · rintro rfl
    exact ⟨rfl, rfl⟩

namespace PatternSet

/-- Two sets are made of patterns that compare equal, list by list and place by place. -/
structure Same (s s' : PatternSet) : Prop where
  included : List.Forall₂ Pattern.Same s.included s'.included
  excluded : List.Forall₂ Pattern.Same s.excluded s'.excluded

/-- Sets that compare equal are equal. -/
theorem same_iff_eq {s s' : PatternSet} : s.Same s' ↔ s = s' := by
  have lists : ∀ ps qs : List Pattern, List.Forall₂ Pattern.Same ps qs ↔ ps = qs := by
    intro ps qs
    rw [show Pattern.Same = (· = ·) by funext p q; exact propext Pattern.same_iff_eq,
      List.forall₂_eq_eq_eq]
  constructor
  · intro h
    rw [PatternSet.mk.injEq]
    exact ⟨(lists _ _).mp h.included, (lists _ _).mp h.excluded⟩
  · rintro rfl
    exact ⟨(lists _ _).mpr rfl, (lists _ _).mpr rfl⟩

/-- The texts of a list that have not stood before, in order. -/
def firstOccurrences (texts : List String) : List String :=
  (texts.zipIdx.filter fun (text, i) => text ∉ texts.take i).map Prod.fst

/-- A text at the end is a first occurrence unless it has stood before. -/
theorem firstOccurrences_concat (texts : List String) (text : String) :
    firstOccurrences (texts ++ [text]) =
      firstOccurrences texts ++ if text ∈ texts then [] else [text] := by
  have before : ∀ x ∈ texts.zipIdx,
      decide (x.1 ∉ (texts ++ [text]).take x.2) = decide (x.1 ∉ texts.take x.2) := by
    intro x hx
    have hlt := (List.mem_zipIdx hx).2.1
    rw [List.take_append_of_le_length (by omega)]
  simp only [firstOccurrences, List.zipIdx_append, List.filter_append, List.map_append]
  rw [List.filter_congr before]
  by_cases h : text ∈ texts <;> simp [h]

/-- Dropping duplicates keeps the first occurrences. -/
theorem eraseDups_eq_firstOccurrences (texts : List String) :
    texts.eraseDups = firstOccurrences texts := by
  induction texts using List.reverseRecOn with
  | nil => rfl
  | append_singleton texts text ih =>
    rw [List.eraseDups_append, ih, firstOccurrences_concat]
    by_cases h : text ∈ texts <;> simp [List.removeAll, List.eraseDups_cons, h]

example : firstOccurrences ["a", "b", "a", "c", "b"] = ["a", "b", "c"] := by decide

/-! ### One list -/

variable {texts texts' : List String} {separator separator' : Option Char}

theorem compileAll_eq (texts : List String) (separator : Option Char) :
    compileAll texts separator =
      (firstOccurrences texts).map fun text => .compile text separator := by
  rw [compileAll, eraseDups_eq_firstOccurrences]

theorem mem_compileAll_iff {p : Pattern} :
    p ∈ compileAll texts separator ↔ ∃ text ∈ texts, .compile text separator = p := by
  simp [compileAll]

theorem compileAll_eq_nil_iff : compileAll texts separator = [] ↔ texts = [] := by
  simp only [List.eq_nil_iff_forall_not_mem, mem_compileAll_iff]
  constructor
  · intro h text htext
    exact h _ ⟨text, htext, rfl⟩
  · rintro h p ⟨text, htext, -⟩
    exact h text htext

/-- Lists compile to the same patterns if their first occurrences are the same, and there is none
    or they share the separator. -/
theorem compileAll_eq_iff :
    compileAll texts separator = compileAll texts' separator' ↔
      firstOccurrences texts = firstOccurrences texts' ∧
        (texts = [] ∨ separator = separator') := by
  constructor
  · intro h
    refine ⟨?_, ?_⟩
    · have kept := congrArg (List.map Pattern.text) h
      simpa [compileAll_eq, Pattern.compile, Function.comp_def] using kept
    · rw [or_iff_not_imp_left]
      intro hne
      -- a pattern of the one list is one of the other, and has brought its separator with it
      obtain ⟨text, htext⟩ := List.exists_mem_of_ne_nil texts hne
      have hmem : .compile text separator ∈ compileAll texts' separator' := by
        rw [← h, mem_compileAll_iff]
        exact ⟨text, htext, rfl⟩
      obtain ⟨text', -, he⟩ := mem_compileAll_iff.mp hmem
      exact (congrArg Pattern.separator he).symm
  · rintro ⟨hkept, rfl | rfl⟩
    · have hnone : compileAll texts' separator' = [] := by
        rw [compileAll_eq, ← hkept]
        rfl
      rw [hnone, compileAll_eq_nil_iff]
    · rw [compileAll_eq, compileAll_eq, hkept]

/-! ### Both lists -/

section

variable (included excluded : List String) (separator : Option Char)

/-- A candidate is accepted if a text of the one list matches it, or there is none, and no text of
    the other. -/
theorem accepts_iff (candidate : String) :
    (ofTexts included excluded separator).accepts candidate ↔
      (included = [] ∨
          ∃ text ∈ included, (Pattern.compile text separator).isMatch candidate) ∧
        ∀ text ∈ excluded, ¬(Pattern.compile text separator).isMatch candidate := by
  have any : ∀ texts : List String,
      ((compileAll texts separator).any fun p => p.isMatch candidate) = true ↔
        ∃ text ∈ texts, (Pattern.compile text separator).isMatch candidate := by
    intro texts
    simp [compileAll]
  have none : (compileAll included separator).isEmpty = true ↔ included = [] := by
    rw [List.isEmpty_iff, compileAll_eq_nil_iff]
  rw [accepts, ofTexts, Bool.and_eq_true, Bool.or_eq_true, Bool.not_eq_true',
    Bool.eq_false_iff, Ne, any, any, none]
  simp

/-- A set does not tell in which order and how often the texts of its lists stand. -/
theorem accepts_congr {included' excluded' : List String}
    (hi : ∀ text, text ∈ included' ↔ text ∈ included)
    (he : ∀ text, text ∈ excluded' ↔ text ∈ excluded) (candidate : String) :
    (ofTexts included' excluded' separator).accepts candidate =
      (ofTexts included excluded separator).accepts candidate := by
  rw [Bool.eq_iff_iff, accepts_iff, accepts_iff]
  simp only [List.eq_nil_iff_forall_not_mem, hi, he]

/-- Sets are equal if they keep the same texts, and none or under one separator. -/
theorem ofTexts_eq_iff {included' excluded' : List String} {separator' : Option Char} :
    ofTexts included excluded separator = ofTexts included' excluded' separator' ↔
      firstOccurrences included = firstOccurrences included' ∧
        firstOccurrences excluded = firstOccurrences excluded' ∧
        (included = [] ∧ excluded = [] ∨ separator = separator') := by
  rw [ofTexts, ofTexts, PatternSet.mk.injEq, compileAll_eq_iff, compileAll_eq_iff]
  tauto

/-- A set keeps of both lists the first occurrences, and accepts by the lists themselves, in
    whatever order and however often a text stands in them. It compares equal to another set if both
    keep the same texts and have one separator, or keep none; and then both accept the same. -/
theorem accepts_by_texts :
    (ofTexts included excluded separator).included =
        (firstOccurrences included).map (fun text => .compile text separator) ∧
      (ofTexts included excluded separator).excluded =
        (firstOccurrences excluded).map (fun text => .compile text separator) ∧
      (∀ candidate, (ofTexts included excluded separator).accepts candidate ↔
        (included = [] ∨
            ∃ text ∈ included, (Pattern.compile text separator).isMatch candidate) ∧
          ∀ text ∈ excluded, ¬(Pattern.compile text separator).isMatch candidate) ∧
      (∀ included' excluded', (∀ text, text ∈ included' ↔ text ∈ included) →
        (∀ text, text ∈ excluded' ↔ text ∈ excluded) →
        ∀ candidate, (ofTexts included' excluded' separator).accepts candidate =
          (ofTexts included excluded separator).accepts candidate) ∧
      ∀ included' excluded' separator',
        let s := ofTexts included excluded separator
        let s' := ofTexts included' excluded' separator'
        (s.Same s' ↔
          firstOccurrences included = firstOccurrences included' ∧
            firstOccurrences excluded = firstOccurrences excluded' ∧
            (included = [] ∧ excluded = [] ∨ separator = separator')) ∧
          (s.Same s' ↔ s = s') ∧
          (s.Same s' → ∀ candidate, s.accepts candidate = s'.accepts candidate) := by
  refine ⟨compileAll_eq included separator, compileAll_eq excluded separator, ?_, ?_, ?_⟩
  · intro candidate
    exact accepts_iff included excluded separator candidate
  · intro included' excluded' hi he candidate
    exact accepts_congr included excluded separator hi he candidate
  · intro included' excluded' separator' s s'
    refine ⟨?_, same_iff_eq, ?_⟩
    · rw [same_iff_eq]
      exact ofTexts_eq_iff included excluded separator
    · intro same candidate
      rw [same_iff_eq.mp same]

end

/-- The same texts stand in another order, one of them twice. -/
theorem accepts_by_texts_of_repeated :
    (∀ text, text ∈ ["/b/*", "/a/**", "/b/*"] ↔ text ∈ ["/a/**", "/b/*"]) ∧
      (ofTexts ["/a/**", "/b/*"] [] (some '/')).accepts "/a/x/y" ∧
      ∀ candidate, (ofTexts ["/b/*", "/a/**", "/b/*"] [] (some '/')).accepts candidate =
        (ofTexts ["/a/**", "/b/*"] [] (some '/')).accepts candidate := by
  have rearranged : ∀ text, text ∈ ["/b/*", "/a/**", "/b/*"] ↔ text ∈ ["/a/**", "/b/*"] := by
    intro text
    simp only [List.mem_cons, List.not_mem_nil, or_false]
    tauto
  obtain ⟨-, -, accepted, alike, -⟩ := accepts_by_texts ["/a/**", "/b/*"] [] (some '/')
  refine ⟨rearranged, ?_, alike _ _ rearranged fun _ => Iff.rfl⟩
  refine (accepted "/a/x/y").mpr ⟨Or.inr ⟨"/a/**", List.mem_cons_self, ?_⟩, nofun⟩
  decide +kernel

end PatternSet

end Wildcard
