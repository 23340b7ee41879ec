import Wildcard.PatternSet.Options
import Mathlib.Data.List.Induction
import Mathlib.Tactic.Common

/-! Options, how they come about, and what is wrong with them.

    An edit puts a value in place of the one that is there, so the last edit of a field counts and
    the order between fields does not:

        edits       separator *    included a, ""    separator /    excluded ""    included "", b
        options     included "", b    excluded ""    separator /
        reported    the included text at index 0 is empty

    Options may have many faults, and one is reported: a separator that is a metacharacter, else the
    first empty text that is included, else the first one that is excluded. It is the same one
    whether options are checked, built, or made into a set. -/

namespace Wildcard.PatternSet.Options

/-! ### Edits -/

/-- The fields of options. -/
inductive Field where | included | excluded | separator
  deriving DecidableEq

namespace Edit

/-- The field that an edit changes. -/
def field : Edit → Field
  | .included _ => .included
  | .excluded _ => .excluded
  | .separator _ => .separator

/-- The included texts that an edit gives. -/
def included? : Edit → Option (List String)
  | .included texts => some texts
  | _ => none

/-- The excluded texts that an edit gives. -/
def excluded? : Edit → Option (List String)
  | .excluded texts => some texts
  | _ => none

/-- The separator, or none at all, that an edit gives. -/
def separator? : Edit → Option (Option Char)
  | .separator c => some c
  | _ => none

end Edit

/-- The options in which every field has what its last edit gave, or its default. -/
def ofLast (edits : List Edit) : Options where
  included := (edits.filterMap Edit.included?).getLast?.getD []
  excluded := (edits.filterMap Edit.excluded?).getLast?.getD []
  separator := (edits.filterMap Edit.separator?).getLast?.getD (some '/')

/-- An edit at the end is the last one of its field. -/
theorem ofLast_concat (edits : List Edit) (e : Edit) :
    ofLast (edits ++ [e]) = (ofLast edits).edit e := by
  cases e <;> simp [ofLast, edit, Edit.included?, Edit.excluded?, Edit.separator?]

theorem foldl_edit_eq_ofLast (edits : List Edit) : edits.foldl edit {} = ofLast edits := by
  induction edits using List.reverseRecOn with
  | nil => rfl
  | append_singleton edits e ih => simp [List.foldl_append, ih, ofLast_concat]

/-- Edits of different fields can change places. -/
theorem edit_comm (o : Options) {e e' : Edit} (h : e.field ≠ e'.field) :
    (o.edit e).edit e' = (o.edit e').edit e := by
  cases e <;> cases e' <;> simp_all [edit, Edit.field]

/-- Of two edits of one field, the first is lost. -/
theorem edit_edit (o : Options) {e e' : Edit} (h : e.field = e'.field) :
    (o.edit e).edit e' = o.edit e' := by
  cases e <;> cases e' <;> simp_all [edit, Edit.field]

/-! ### Faults -/

/-- The first empty text of a list stands at an index. -/
structure FirstEmpty (texts : List String) (i : ℕ) : Prop where
  empty : texts[i]? = some ""
  before : ∀ j < i, texts[j]? ≠ some ""

/-- The separator means nothing else in patterns. -/
def SeparatorIsPlain (o : Options) : Prop :=
  ∀ c, o.separator = some c → c ∉ ['*', '?', '+', '\\']

/-- The fault that options are to be reported for. -/
inductive Reports (o : Options) : Error → Prop
  /-- A separator that is a metacharacter comes before everything else. -/
  | separator {c : Char} (h : o.separator = some c) (reserved : c ∈ ['*', '?', '+', '\\']) :
    Reports o (.separatorIsMetacharacter c)
  /-- Then come the included texts, -/
  | included {i : ℕ} (plain : o.SeparatorIsPlain) (first : FirstEmpty o.included i) :
    Reports o (.emptyPattern .included i)
  /-- and the excluded ones if no included one is empty. -/
  | excluded {i : ℕ} (plain : o.SeparatorIsPlain) (filled : "" ∉ o.included)
    (first : FirstEmpty o.excluded i) : Reports o (.emptyPattern .excluded i)

theorem isMetacharacter_iff {c : Char} :
    isMetacharacter c = true ↔ c ∈ ['*', '?', '+', '\\'] := by
  simp only [isMetacharacter, Bool.or_eq_true, decide_eq_true_eq, List.mem_cons, List.not_mem_nil,
    or_false, or_assoc]
  rfl

theorem emptyPattern?_eq_some_iff {side : Side} {texts : List String} {e : Error} :
    emptyPattern? side texts = some e ↔ ∃ i, FirstEmpty texts i ∧ e = .emptyPattern side i := by
  have first : ∀ i, texts.findIdx? String.isEmpty = some i ↔ FirstEmpty texts i := by
    intro i
    rw [List.findIdx?_eq_some_iff_getElem]
    constructor
    · rintro ⟨hlt, hempty, hbefore⟩
      refine ⟨?_, ?_⟩
      · rw [List.getElem?_eq_getElem hlt, String.isEmpty_iff.mp hempty]
      · intro j hj hjempty
        have hne := hbefore j hj
        rw [List.getElem?_eq_getElem (by omega), Option.some.injEq] at hjempty
        simp [hjempty] at hne
    · rintro ⟨hempty, hbefore⟩
      obtain ⟨hlt, hi⟩ := List.getElem?_eq_some_iff.mp hempty
      refine ⟨hlt, by simp [hi], ?_⟩
      intro j hj
      have hne := hbefore j hj
      rw [List.getElem?_eq_getElem (by omega), Ne, Option.some.injEq] at hne
      simpa using hne
  simp only [emptyPattern?, Option.map_eq_some_iff, first]
  exact exists_congr fun i => and_congr_right fun _ => eq_comm

theorem emptyPattern?_eq_none_iff {side : Side} {texts : List String} :
    emptyPattern? side texts = none ↔ "" ∉ texts := by
  rw [emptyPattern?, Option.map_eq_none_iff, List.findIdx?_eq_none_iff]
  constructor
  · intro h hmem
    simpa using h "" hmem
  · intro h text htext
    rw [Bool.eq_false_iff, Ne, String.isEmpty_iff]
    rintro rfl
    exact h htext

/-- The separator that fault is found with is a metacharacter, -/
theorem filter_separator_eq_some_iff {o : Options} {c : Char} :
    o.separator.filter isMetacharacter = some c ↔
      o.separator = some c ∧ c ∈ ['*', '?', '+', '\\'] := by
  rw [Option.filter_eq_some_iff, isMetacharacter_iff]

/-- and one that no fault is found with is plain. -/
theorem filter_separator_eq_none_iff {o : Options} :
    o.separator.filter isMetacharacter = none ↔ o.SeparatorIsPlain := by
  simp only [Option.eq_none_iff_forall_ne_some, Ne, filter_separator_eq_some_iff, not_and,
    SeparatorIsPlain]

/-- The fault that is found first is the one that is to be reported. -/
theorem fault?_eq_some_iff {o : Options} {e : Error} : o.fault? = some e ↔ o.Reports e := by
  rw [fault?]
  -- each of the three is looked at only if nothing is wrong with those before it
  cases hs : o.separator.filter isMetacharacter with
  | some c =>
    obtain ⟨hc, reserved⟩ := filter_separator_eq_some_iff.mp hs
    have plain : ¬o.SeparatorIsPlain := fun h => h c hc reserved
    constructor
    · rintro ⟨⟩
      exact .separator hc reserved
    · rintro (⟨hc', -⟩ | ⟨plain', -⟩ | ⟨plain', -, -⟩)
      · obtain rfl := Option.some.inj (hc.symm.trans hc')
        rfl
      · exact absurd plain' plain
      · exact absurd plain' plain
  | none =>
    have plain := filter_separator_eq_none_iff.mp hs
    cases hi : emptyPattern? .included o.included with
    | some e' =>
      obtain ⟨i, first, rfl⟩ := emptyPattern?_eq_some_iff.mp hi
      have found : "" ∈ o.included := List.mem_of_getElem? first.empty
      constructor
      · rintro ⟨⟩
        exact .included plain first
      · rintro (⟨hc, reserved⟩ | ⟨-, first'⟩ | ⟨-, filled, -⟩)
        · exact absurd reserved (plain _ hc)
        · exact hi.symm.trans (emptyPattern?_eq_some_iff.mpr ⟨_, first', rfl⟩)
        · exact absurd found filled
    | none =>
      have filled := emptyPattern?_eq_none_iff.mp hi
      change emptyPattern? .excluded o.excluded = some e ↔ _
      rw [emptyPattern?_eq_some_iff]
      constructor
      · rintro ⟨i, first, rfl⟩
        exact .excluded plain filled first
      · rintro (⟨hc, reserved⟩ | ⟨-, first⟩ | ⟨-, -, first⟩)
        · exact absurd reserved (plain _ hc)
        · exact absurd (List.mem_of_getElem? first.empty) filled
        · exact ⟨_, first, rfl⟩

/-- Nothing is wrong with options that have a plain separator and no empty text. -/
theorem fault?_eq_none_iff {o : Options} :
    o.fault? = none ↔ o.SeparatorIsPlain ∧ "" ∉ o.included ∧ "" ∉ o.excluded := by
  have none_of : ∀ x y z : Option Error,
      (x <|> y <|> z) = none ↔ x = none ∧ y = none ∧ z = none := by
    intro x y z
    cases x <;> cases y <;> cases z <;> simp
  rw [fault?, none_of, Option.map_eq_none_iff, filter_separator_eq_none_iff,
    emptyPattern?_eq_none_iff, emptyPattern?_eq_none_iff]

/-! ### Who reports a fault -/

theorem validate_eq_error_iff {o : Options} {e : Error} :
    o.validate = .error e ↔ o.fault? = some e := by
  rw [validate]
  cases o.fault? <;> simp

theorem validate_eq_ok_iff {o : Options} : o.validate = .ok () ↔ o.fault? = none := by
  rw [validate]
  cases o.fault? <;> simp

/-- Options come out of edits if nothing is wrong with them. -/
theorem build_eq (edits : List Edit) :
    build edits = (edits.foldl edit {}).validate.map fun _ => edits.foldl edit {} := by
  rw [build]
  cases (edits.foldl edit {}).validate <;> rfl

/-- A set comes out of options if nothing is wrong with them. -/
theorem ofOptions_eq (o : Options) :
    ofOptions o = o.validate.map fun _ => ofTexts o.included o.excluded o.separator := by
  rw [ofOptions]
  cases o.validate <;> rfl

/-- What is reported to whoever goes on after a check is what the check reports. -/
theorem map_eq_error_iff {α β : Type} {x : Except Error α} {f : α → β} {e : Error} :
    x.map f = .error e ↔ x = .error e := by
  cases x <;> simp [Except.map]

/-- Edits lead to the options in which every field has what its last edit gave; edits of different
    fields can change places, and the first of two edits of one field is lost. What is wrong with
    the options is reported alike by a check, to whoever builds them and to whoever makes a set of
    them, and what has been built makes a set. One fault is reported: a separator that is a
    metacharacter, else the first empty text of the included ones, else that of the excluded ones;
    and none if there is none of these. -/
theorem faults_agree (edits : List Edit) :
    let o := edits.foldl edit {}
    o = ofLast edits ∧
      (∀ (o : Options) e e', e.field ≠ e'.field → (o.edit e).edit e' = (o.edit e').edit e) ∧
      (∀ (o : Options) e e', e.field = e'.field → (o.edit e).edit e' = o.edit e') ∧
      (∀ e, build edits = .error e ↔ o.validate = .error e) ∧
      (∀ o', build edits = .ok o' ↔ o' = o ∧ o.validate = .ok ()) ∧
      (∀ o', build edits = .ok o' →
        ofOptions o' = .ok (ofTexts o'.included o'.excluded o'.separator)) ∧
      ∀ o : Options,
        (∀ e, ofOptions o = .error e ↔ o.validate = .error e) ∧
        (∀ e, o.validate = .error e ↔ o.Reports e) ∧
        (o.validate = .ok () ↔ o.SeparatorIsPlain ∧ "" ∉ o.included ∧ "" ∉ o.excluded) := by
  intro o
  have built : ∀ o', build edits = .ok o' ↔ o' = o ∧ o.validate = .ok () := by
    intro o'
    rw [build_eq]
    change o.validate.map (fun _ => o) = .ok o' ↔ _
    cases o.validate <;> simp [Except.map, eq_comm]
  refine ⟨foldl_edit_eq_ofLast edits, ?_, ?_, ?_, built, ?_, ?_⟩
  · intro o e e' h
    exact edit_comm o h
  · intro o e e' h
    exact edit_edit o h
  · intro e
    rw [build_eq, map_eq_error_iff]
  · intro o' h
    obtain ⟨rfl, ok⟩ := (built o').mp h
    rw [ofOptions_eq, ok]
    rfl
  · intro o
    refine ⟨?_, ?_, ?_⟩
    · intro e
      rw [ofOptions_eq, map_eq_error_iff]
    · intro e
      rw [validate_eq_error_iff, fault?_eq_some_iff]
    · rw [validate_eq_ok_iff, fault?_eq_none_iff]

/-- The separator has been set right in the meantime, and both lists hold an empty text. -/
theorem faults_agree_of_overwritten :
    let edits := [.separator (some '*'), .included [""], .separator (some '/'), .excluded [""],
      .included ["a", ""]]
    (ofLast edits).Reports (.emptyPattern .included 1) ∧
      build edits = .error (.emptyPattern .included 1) ∧
      ofOptions (ofLast edits) = .error (.emptyPattern .included 1) := by
  intro edits
  obtain ⟨last, -, -, build_error, -, -, everywhere⟩ := faults_agree edits
  obtain ⟨ofOptions_error, reported, -⟩ := everywhere (ofLast edits)
  have plain : (ofLast edits).SeparatorIsPlain := by
    rintro c ⟨⟩
    decide
  have first : FirstEmpty (ofLast edits).included 1 := ⟨rfl, by decide⟩
  have reports : (ofLast edits).Reports (.emptyPattern .included 1) := .included plain first
  have invalid := (reported _).mpr reports
  refine ⟨reports, (build_error _).mpr ?_, (ofOptions_error _).mpr invalid⟩
  rw [last]
  exact invalid

end Wildcard.PatternSet.Options
