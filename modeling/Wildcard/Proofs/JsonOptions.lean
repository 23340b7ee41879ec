import Wildcard.PatternSet.Encoding
import Mathlib.Data.List.Nodup
import Mathlib.Data.List.Perm.Basic
import Mathlib.Tactic.Common

/-! Options read from JSON.

    Options are read from the values of three fields, each of which may be missing. An object has
    them under their names, an array by their places:

        {"exclude": ["b"], "include": ["a"], "x": 1}       included a    excluded b    separator /
        [["a"], ["b"]]                                    included a    excluded b    separator /
        [["a"], ["b"], null]                              included a    excluded b    no separator

    What is written is read back, and every value is either read or refused for a reason: its shape,
    its length, or a field. A name that stands twice is not among the reasons, since only objects are
    meant whose members have distinct names. -/

namespace Wildcard.PatternSet.Options

/-! ### Fields -/

/-- The texts for which a list field stands: none if it is missing. -/
inductive HoldsTexts : Option Json → List String → Prop
  | missing : HoldsTexts none []
  | array (texts : List String) : HoldsTexts (some (.array (texts.map .string))) texts

/-- The separator for which a field stands: a slash if it is missing, and none if it is `null`. -/
inductive HoldsSeparator : Option Json → Option Char → Prop
  | missing : HoldsSeparator none (some '/')
  | null : HoldsSeparator (some .null) none
  | character (c : Char) : HoldsSeparator (some (.string (String.singleton c))) (some c)

/-- The options for which the values of the three fields stand. -/
structure Holds (included excluded separator : Option Json) (o : Options) : Prop where
  included : HoldsTexts included o.included
  excluded : HoldsTexts excluded o.excluded
  separator : HoldsSeparator separator o.separator

/-- A value is an array of strings. -/
def IsTexts (v : Json) : Prop := ∃ texts : List String, v = .array (texts.map .string)

/-- A value is `null` or a string of one character. -/
def IsSeparator (v : Json) : Prop := v = .null ∨ ∃ c, v = .string (String.singleton c)

/-- A field has a value that is none of its own. -/
def Misfits (included excluded separator : Option Json) : Prop :=
  (∃ v, included = some v ∧ ¬IsTexts v) ∨ (∃ v, excluded = some v ∧ ¬IsTexts v) ∨
    ∃ v, separator = some v ∧ ¬IsSeparator v

/-- The options for which a value stands. -/
inductive Describes : Json → Options → Prop
  | object {members : List (String × Json)} {o : Options}
    (holds : Holds (members.lookup "include") (members.lookup "exclude")
      (members.lookup "separator") o) : Describes (.object members) o
  | array {items : List Json} {o : Options} (short : items.length ≤ 3)
    (holds : Holds items[0]? items[1]? items[2]? o) : Describes (.array items) o

/-- The values that stand for no options. -/
inductive Refused : Json → Prop
  | shape {v : Json} (object : ∀ members, v ≠ .object members) (array : ∀ items, v ≠ .array items) :
    Refused v
  | length {items : List Json} (long : 3 < items.length) : Refused (.array items)
  | member {members : List (String × Json)}
    (misfits : Misfits (members.lookup "include") (members.lookup "exclude")
      (members.lookup "separator")) : Refused (.object members)
  | item {items : List Json} (misfits : Misfits items[0]? items[1]? items[2]?) :
    Refused (.array items)

/-! ### Reading a field -/

/-- Items are read as texts if they are strings, all of them. -/
theorem mapM_string?_eq_some_iff {items : List Json} {texts : List String} :
    items.mapM Json.string? = some texts ↔ items = texts.map .string := by
  induction items generalizing texts with
  | nil => cases texts <;> simp
  | cons item items ih =>
    cases item <;> cases texts <;> simp [Json.string?, Option.bind_eq_some_iff, ih, and_comm]

theorem strings?_eq_some_iff {v : Json} {texts : List String} :
    v.strings? = some texts ↔ v = .array (texts.map .string) := by
  cases v <;> simp [Json.strings?, mapM_string?_eq_some_iff]

theorem char?_eq_some_iff {v : Json} {c : Char} :
    v.char? = some c ↔ v = .string (String.singleton c) := by
  cases v with
  | string s =>
    rw [Json.string.injEq, ← String.toList_inj]
    simp only [Json.char?, Json.string?, Option.map_some]
    split <;> simp_all
  | _ => simp [Json.char?, Json.string?]

theorem separatorOfJson?_of_ne_null {v : Json} (h : v ≠ .null) :
    separatorOfJson? v = v.char?.map some := by
  cases v with
  | null => exact absurd rfl h
  | _ => rfl

theorem separatorOfJson?_eq_some_iff {v : Json} {separator : Option Char} :
    separatorOfJson? v = some separator ↔ HoldsSeparator (some v) separator := by
  constructor
  · intro h
    by_cases hv : v = .null
    · subst hv
      obtain rfl := Option.some.inj h
      exact .null
    · rw [separatorOfJson?_of_ne_null hv, Option.map_eq_some_iff] at h
      obtain ⟨c, hc, rfl⟩ := h
      rw [char?_eq_some_iff.mp hc]
      exact .character c
  · rintro (_ | _ | c)
    · rfl
    · exact Option.map_eq_some_iff.mpr ⟨c, char?_eq_some_iff.mpr rfl, rfl⟩

theorem texts_iff_holds {v? : Option Json} {texts : List String} :
    (v?.map Json.strings?).getD (some []) = some texts ↔ HoldsTexts v? texts := by
  cases v? with
  | none =>
    constructor
    · rintro ⟨⟩
      exact .missing
    · rintro ⟨⟩
      rfl
  | some v =>
    rw [Option.map_some, Option.getD_some, strings?_eq_some_iff]
    constructor
    · rintro rfl
      exact .array texts
    · rintro ⟨⟩
      rfl

theorem separator_iff_holds {v? : Option Json} {separator : Option Char} :
    (v?.map separatorOfJson?).getD (some (some '/')) = some separator ↔
      HoldsSeparator v? separator := by
  cases v? with
  | none =>
    constructor
    · rintro ⟨⟩
      exact .missing
    · rintro ⟨⟩
      rfl
  | some v => exact separatorOfJson?_eq_some_iff

/-- The values of the fields are read as the options for which they stand. -/
theorem ofFields?_eq_some_iff {included excluded separator : Option Json} {o : Options} :
    ofFields? included excluded separator = some o ↔ Holds included excluded separator o := by
  simp only [ofFields?, Option.bind_eq_bind, Option.bind_eq_some_iff, texts_iff_holds,
    separator_iff_holds]
  constructor
  · rintro ⟨texts, hi, texts', he, c, hs, ⟨⟩⟩
    exact ⟨hi, he, hs⟩
  · rintro ⟨hi, he, hs⟩
    exact ⟨_, hi, _, he, _, hs, rfl⟩

theorem exists_holdsTexts_iff {v? : Option Json} :
    (∃ texts, HoldsTexts v? texts) ↔ ∀ v, v? = some v → IsTexts v := by
  constructor
  · rintro ⟨texts, _ | _⟩ v ⟨⟩
    exact ⟨texts, rfl⟩
  · intro h
    cases v? with
    | none => exact ⟨[], .missing⟩
    | some v =>
      obtain ⟨texts, rfl⟩ := h v rfl
      exact ⟨texts, .array texts⟩

theorem exists_holdsSeparator_iff {v? : Option Json} :
    (∃ separator, HoldsSeparator v? separator) ↔ ∀ v, v? = some v → IsSeparator v := by
  constructor
  · rintro ⟨separator, _ | _ | c⟩ v ⟨⟩
    · exact Or.inl rfl
    · exact Or.inr ⟨c, rfl⟩
  · intro h
    cases v? with
    | none => exact ⟨some '/', .missing⟩
    | some v =>
      rcases h v rfl with rfl | ⟨c, rfl⟩
      · exact ⟨none, .null⟩
      · exact ⟨some c, .character c⟩

/-- Fields are refused if one of them has a value that is none of its own. -/
theorem ofFields?_eq_none_iff {included excluded separator : Option Json} :
    ofFields? included excluded separator = none ↔ Misfits included excluded separator := by
  have read : (∃ o, ofFields? included excluded separator = some o) ↔
      (∃ texts, HoldsTexts included texts) ∧ (∃ texts, HoldsTexts excluded texts) ∧
        ∃ c, HoldsSeparator separator c := by
    simp only [ofFields?_eq_some_iff]
    constructor
    · rintro ⟨o, hi, he, hs⟩
      exact ⟨⟨_, hi⟩, ⟨_, he⟩, ⟨_, hs⟩⟩
    · rintro ⟨⟨texts, hi⟩, ⟨texts', he⟩, ⟨c, hs⟩⟩
      exact ⟨⟨texts, texts', c⟩, hi, he, hs⟩
  rw [exists_holdsTexts_iff, exists_holdsTexts_iff, exists_holdsSeparator_iff] at read
  rw [Option.eq_none_iff_forall_ne_some, ← not_exists, read]
  simp only [not_and_or, not_forall, exists_prop, Misfits]

/-! ### Objects and arrays -/

theorem ofJson?_object (members : List (String × Json)) :
    ofJson? (.object members) = ofFields? (members.lookup "include") (members.lookup "exclude")
      (members.lookup "separator") := rfl

/-- An array has its fields at its first three places. -/
theorem ofJson?_array {items : List Json} (short : items.length ≤ 3) :
    ofJson? (.array items) = ofFields? items[0]? items[1]? items[2]? := by
  match items with
  | [] => rfl
  | [_] => rfl
  | [_, _] => rfl
  | [_, _, _] => rfl
  | _ :: _ :: _ :: _ :: _ =>
    simp only [List.length_cons] at short
    omega

theorem ofJson?_long_array {items : List Json} (long : 3 < items.length) :
    ofJson? (.array items) = none := by
  match items with
  | _ :: _ :: _ :: _ :: _ => rfl

theorem ofJson?_of_shape {v : Json} (object : ∀ members, v ≠ .object members)
    (array : ∀ items, v ≠ .array items) : ofJson? v = none := by
  cases v with
  | object members => exact absurd rfl (object members)
  | array items => exact absurd rfl (array items)
  | _ => rfl

/-- A value is read as the options for which it stands. -/
theorem ofJson?_eq_some_iff {v : Json} {o : Options} : ofJson? v = some o ↔ Describes v o := by
  constructor
  · intro h
    cases v with
    | object members => exact .object (ofFields?_eq_some_iff.mp h)
    | array items =>
      have short : items.length ≤ 3 := by
        by_contra long
        rw [ofJson?_long_array (by omega)] at h
        cases h
      rw [ofJson?_array short] at h
      exact .array short (ofFields?_eq_some_iff.mp h)
    | _ => cases h
  · rintro (holds | ⟨short, holds⟩)
    · exact ofFields?_eq_some_iff.mpr holds
    · rw [ofJson?_array short]
      exact ofFields?_eq_some_iff.mpr holds

/-- A value that is not read is refused for a reason. -/
theorem ofJson?_eq_none_iff {v : Json} : ofJson? v = none ↔ Refused v := by
  constructor
  · intro h
    cases v with
    | object members => exact .member (ofFields?_eq_none_iff.mp h)
    | array items =>
      by_cases short : items.length ≤ 3
      · rw [ofJson?_array short] at h
        exact .item (ofFields?_eq_none_iff.mp h)
      · exact .length (by omega)
    | _ => exact .shape (by simp) (by simp)
  · intro refused
    cases refused with
    | shape object array => exact ofJson?_of_shape object array
    | length long => exact ofJson?_long_array long
    | member misfits => exact ofFields?_eq_none_iff.mpr misfits
    | @item items misfits =>
      by_cases short : items.length ≤ 3
      · rw [ofJson?_array short]
        exact ofFields?_eq_none_iff.mpr misfits
      · exact ofJson?_long_array (by omega)

/-- What is written stands for the options that it was written from. -/
theorem holds_written (o : Options) :
    Holds (some (.ofStrings o.included)) (some (.ofStrings o.excluded))
      (some (separatorToJson o.separator)) o := by
  refine ⟨.array o.included, .array o.excluded, ?_⟩
  cases o.separator with
  | none => exact .null
  | some c => exact .character c

/-! ### Missing fields -/

/-- The members that stand for the default options. -/
def defaultMembers : List (String × Json) :=
  [("include", .array []), ("exclude", .array []), ("separator", .string "/")]

/-- A missing field is read as if it had its default value. -/
theorem ofFields?_getD (included excluded separator : Option Json) :
    ofFields? (some (included.getD (.array []))) (some (excluded.getD (.array [])))
        (some (separator.getD (.string "/"))) =
      ofFields? included excluded separator := by
  cases included <;> cases excluded <;> cases separator <;> rfl

/-- Without a separator there is the default one, and with `null` there is none. -/
theorem ofFields?_null {included excluded : Option Json} {o : Options}
    (h : ofFields? included excluded none = some o) :
    o.separator = some '/' ∧
      ofFields? included excluded (some .null) = some { o with separator := none } := by
  obtain ⟨hi, he, hs⟩ := ofFields?_eq_some_iff.mp h
  refine ⟨?_, ofFields?_eq_some_iff.mpr ⟨hi, he, .null⟩⟩
  obtain ⟨texts, texts', c⟩ := o
  cases hs
  rfl

section

variable {before after : List (String × Json)} {name name' : String}

theorem lookup_insert_of_ne (h : name' ≠ name) (v : Json) :
    (before ++ (name, v) :: after).lookup name' = (before ++ after).lookup name' := by
  have hb : (name' == name) = false := by simpa using h
  simp [List.lookup_append, List.lookup_cons, hb]

theorem lookup_eq_none_of_not_mem {members : List (String × Json)}
    (h : name ∉ members.map Prod.fst) : members.lookup name = none := by
  rw [List.lookup_eq_none_iff]
  intro member hm
  simp only [bne_iff_ne]
  rintro rfl
  exact h (List.mem_map_of_mem hm)

theorem lookup_insert_self (absent : name ∉ before.map Prod.fst) (v : Json) :
    (before ++ (name, v) :: after).lookup name = some v := by
  simp [List.lookup_append, lookup_eq_none_of_not_mem absent]

theorem not_mem_of_not_mem_append (absent : name ∉ (before ++ after).map Prod.fst) :
    name ∉ before.map Prod.fst := by
  rw [List.map_append, List.mem_append, not_or] at absent
  exact absent.1

/-- A member that is added with a default value makes no difference where defaults are filled in. -/
theorem getD_lookup_insert (v : Json) (absent : name ∉ (before ++ after).map Prod.fst)
    {d : Json} (default : name' = name → d = v) :
    ((before ++ (name, v) :: after).lookup name').getD d =
      ((before ++ after).lookup name').getD d := by
  by_cases h : name' = name
  · subst h
    rw [lookup_eq_none_of_not_mem absent, lookup_insert_self (not_mem_of_not_mem_append absent),
      default rfl]
    rfl
  · rw [lookup_insert_of_ne h]

end

theorem ofJson?_object_getD (members : List (String × Json)) :
    ofJson? (.object members) =
      ofFields? (some ((members.lookup "include").getD (.array [])))
        (some ((members.lookup "exclude").getD (.array [])))
        (some ((members.lookup "separator").getD (.string "/"))) := by
  rw [ofJson?_object, ofFields?_getD]

/-- A member with its default value may as well be missing. -/
theorem ofJson?_object_default {before after : List (String × Json)} {name : String} {v : Json}
    (default : (name, v) ∈ defaultMembers) (absent : name ∉ (before ++ after).map Prod.fst) :
    ofJson? (.object (before ++ (name, v) :: after)) = ofJson? (.object (before ++ after)) := by
  rw [ofJson?_object_getD, ofJson?_object_getD]
  have own : ∀ name' d, (name', d) ∈ defaultMembers → name' = name → d = v := by
    rintro name' d hd rfl
    simp only [defaultMembers, List.mem_cons, Prod.mk.injEq, List.not_mem_nil, or_false] at *
    rcases hd with ⟨rfl, rfl⟩ | ⟨rfl, rfl⟩ | ⟨rfl, rfl⟩ <;> simp_all
  rw [getD_lookup_insert v absent (own "include" _ (by simp [defaultMembers])),
    getD_lookup_insert v absent (own "exclude" _ (by simp [defaultMembers])),
    getD_lookup_insert v absent (own "separator" _ (by simp [defaultMembers]))]

/-- A separator that is `null` is none, and one that is missing is a slash. -/
theorem ofJson?_object_null {before after : List (String × Json)} {o : Options}
    (absent : "separator" ∉ (before ++ after).map Prod.fst)
    (h : ofJson? (.object (before ++ after)) = some o) :
    o.separator = some '/' ∧
      ofJson? (.object (before ++ ("separator", .null) :: after)) =
        some { o with separator := none } := by
  rw [ofJson?_object, lookup_eq_none_of_not_mem absent] at h
  rw [ofJson?_object, lookup_insert_self (not_mem_of_not_mem_append absent),
    lookup_insert_of_ne (by decide), lookup_insert_of_ne (by decide)]
  exact ofFields?_null h

/-- A member of another name does not count. -/
theorem ofJson?_object_unknown {before after : List (String × Json)} {name : String}
    (unknown : name ∉ defaultMembers.map Prod.fst) (v : Json) :
    ofJson? (.object (before ++ (name, v) :: after)) = ofJson? (.object (before ++ after)) := by
  simp only [defaultMembers, List.map_cons, List.map_nil, List.mem_cons, List.not_mem_nil,
    or_false, not_or] at unknown
  obtain ⟨hi, he, hs⟩ := unknown
  rw [ofJson?_object, ofJson?_object, lookup_insert_of_ne (Ne.symm hi),
    lookup_insert_of_ne (Ne.symm he), lookup_insert_of_ne (Ne.symm hs)]

/-- Among members of different names, each is found wherever it stands. -/
theorem lookup_eq_some_iff_mem {members : List (String × Json)}
    (distinct : (members.map Prod.fst).Nodup) {name : String} {v : Json} :
    members.lookup name = some v ↔ (name, v) ∈ members := by
  constructor
  · intro h
    obtain ⟨before, after, rfl, -⟩ := List.lookup_eq_some_iff.mp h
    simp
  · intro h
    obtain ⟨before, after, rfl⟩ := List.append_of_mem h
    rw [List.map_append, List.map_cons] at distinct
    have absent : name ∉ before.map Prod.fst := by
      intro hm
      exact (List.nodup_append.mp distinct).2.2 name hm name List.mem_cons_self rfl
    exact lookup_insert_self absent v

/-- The order of members does not count. -/
theorem ofJson?_object_perm {members members' : List (String × Json)}
    (distinct : (members.map Prod.fst).Nodup) (perm : members.Perm members') :
    ofJson? (.object members') = ofJson? (.object members) := by
  have distinct' := (perm.map Prod.fst).nodup_iff.mp distinct
  have found : ∀ name, members'.lookup name = members.lookup name := by
    intro name
    apply Option.ext
    intro v
    rw [lookup_eq_some_iff_mem distinct, lookup_eq_some_iff_mem distinct', perm.mem_iff]
  rw [ofJson?_object, ofJson?_object, found, found, found]

/-- An item that is added has its default value, or it is not there. -/
theorem getD_getElem?_append {items more defaults : List Json}
    (default : more <+: defaults.drop items.length) {k : ℕ} {d : Json}
    (hd : defaults[k]? = some d) : (items ++ more)[k]?.getD d = items[k]?.getD d := by
  by_cases hk : k < items.length
  · rw [List.getElem?_append_left hk]
  · rw [List.getElem?_append_right (by omega), List.getElem?_eq_none (by omega : items.length ≤ k)]
    by_cases hm : k - items.length < more.length
    · have hmore := List.prefix_iff_getElem?.mp default _ hm
      rw [List.getElem?_drop, Nat.add_sub_cancel' (by omega), hd] at hmore
      rw [List.getElem?_eq_getElem hm, ← hmore]
      rfl
    · rw [List.getElem?_eq_none (by omega)]

theorem ofJson?_array_getD {items : List Json} (short : items.length ≤ 3) :
    ofJson? (.array items) =
      ofFields? (some (items[0]?.getD (.array []))) (some (items[1]?.getD (.array [])))
        (some (items[2]?.getD (.string "/"))) := by
  rw [ofJson?_array short, ofFields?_getD]

/-- Items at the end that have their default values may as well be missing. -/
theorem ofJson?_array_default {items more : List Json}
    (default : more <+: (defaultMembers.map Prod.snd).drop items.length) :
    ofJson? (.array (items ++ more)) = ofJson? (.array items) := by
  have length := default.length_le
  rw [List.length_drop, List.length_map] at length
  change more.length ≤ 3 - items.length at length
  by_cases short : items.length ≤ 3
  · have short' : (items ++ more).length ≤ 3 := by
      rw [List.length_append]
      omega
    rw [ofJson?_array_getD short, ofJson?_array_getD short', getD_getElem?_append default rfl,
      getD_getElem?_append default rfl, getD_getElem?_append default rfl]
  · -- behind three items there is nothing to add
    obtain rfl : more = [] := List.length_eq_zero_iff.mp (by omega)
    rw [List.append_nil]

/-- Options are read back from what they are written as, and from an array of their fields; every
    value is read as the options for which it stands, or refused for a reason. The members of an
    object have names of their own, and their order does not count, nor does a member of another
    name. A member may be missing, and so may the last items of an array, and are then read as the
    default; but a separator that is missing is a slash, and one that is `null` is none. -/
theorem read_or_refused (o : Options) (v : Json) :
    ofJson? o.toJson = some o ∧
      ofJson? (.array [.ofStrings o.included, .ofStrings o.excluded,
        separatorToJson o.separator]) = some o ∧
      (ofJson? v = some o ↔ Describes v o) ∧ (ofJson? v = none ↔ Refused v) ∧
      (∀ members members', (members.map Prod.fst).Nodup → members.Perm members' →
        ofJson? (.object members') = ofJson? (.object members)) ∧
      (∀ before after name w, name ∉ defaultMembers.map Prod.fst →
        ofJson? (.object (before ++ (name, w) :: after)) = ofJson? (.object (before ++ after))) ∧
      (∀ before after name w, (name, w) ∈ defaultMembers →
        name ∉ (before ++ after).map Prod.fst →
        ofJson? (.object (before ++ (name, w) :: after)) = ofJson? (.object (before ++ after))) ∧
      (∀ before after, "separator" ∉ (before ++ after).map Prod.fst →
        ofJson? (.object (before ++ after)) = some o →
        o.separator = some '/' ∧
          ofJson? (.object (before ++ ("separator", .null) :: after)) =
            some { o with separator := none }) ∧
      (∀ items more, more <+: (defaultMembers.map Prod.snd).drop items.length →
        ofJson? (.array (items ++ more)) = ofJson? (.array items)) ∧
      ∀ included excluded, ofJson? (.array [included, excluded]) = some o →
        o.separator = some '/' ∧
          ofJson? (.array [included, excluded, .null]) = some { o with separator := none } := by
  have written := ofFields?_eq_some_iff.mpr (holds_written o)
  refine ⟨written, written, ofJson?_eq_some_iff, ofJson?_eq_none_iff, ?_, ?_, ?_, ?_, ?_, ?_⟩
  · intro members members' distinct perm
    exact ofJson?_object_perm distinct perm
  · intro before after name w unknown
    exact ofJson?_object_unknown unknown w
  · intro before after name w default absent
    exact ofJson?_object_default default absent
  · intro before after absent h
    exact ofJson?_object_null absent h
  · intro items more default
    exact ofJson?_array_default default
  · intro included excluded h
    exact ofFields?_null h

/-- The separator makes the difference, between two members and in another place. -/
theorem read_or_refused_of_null :
    let o : Options := { included := ["a"] }
    let x := ("x", .bool true)
    let texts := ("include", .ofStrings ["a"])
    let separator := ("separator", .null)
    ofJson? (.object [x, texts]) = some o ∧
      ofJson? (.object [x, separator, texts]) = some { o with separator := none } ∧
      ofJson? (.object [texts, separator, x]) = some { o with separator := none } := by
  intro o x texts separator
  obtain ⟨-, -, -, -, order, -, -, null, -, -⟩ := read_or_refused o .null
  have missing : ofJson? (.object [x, texts]) = some o := by decide
  have given := (null [x] [texts] (by decide) missing).2
  have perm : [x, separator, texts].Perm [texts, separator, x] := (List.reverse_perm _).symm
  have distinct : ([x, separator, texts].map Prod.fst).Nodup := by decide
  exact ⟨missing, given, (order _ _ distinct perm).trans given⟩

end Wildcard.PatternSet.Options
