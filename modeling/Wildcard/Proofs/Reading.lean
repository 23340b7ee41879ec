import Mathlib.Data.List.SplitBy
import Wildcard.Proofs.Compiling

/-! What each character of a pattern means, told by the characters around it.

    A text is read from left to right, and what has been read is remembered in one of four contexts.
    But what a character means can be told without reading: it depends on how many escape characters
    and how many stars stand in a row directly before it, and on the one character behind it. The
    tokens are then the groups of what is left, a group being one token or some stars in a row.

        text      \ * a * ? * / + \       the first *    behind one escape
        slots     . l l * . * / + .       the ?          behind one star
        tokens      l l └ ** ┘ / +        the last *     neighbour of a star, the ? being gone -/

namespace Wildcard

/-- How many positions of a set stand in a row directly before a position. -/
def rowBefore (P : ℕ → Bool) : ℕ → ℕ
  | 0 => 0
  | i + 1 => if P i then rowBefore P i + 1 else 0

/-- Whether the character at a position is escaped: an odd number of escape characters stands in a
    row before it, and they are not separators. -/
def isEscapedAt (separator : Option Char) (cs : List Char) (i : ℕ) : Bool :=
  separator ≠ some escapeChar && rowBefore (fun k => cs[k]? = some escapeChar) i % 2 = 1

/-- Whether a star stands at a position that is neither escaped nor the separator. -/
def isStarAt (separator : Option Char) (cs : List Char) (i : ℕ) : Bool :=
  cs[i]? = some '*' && separator ≠ some '*' && !isEscapedAt separator cs i

/-- How many stars stand in a row directly before a position. -/
def starsBefore (separator : Option Char) (cs : List Char) : ℕ → ℕ :=
  rowBefore (isStarAt separator cs)

namespace Slot

/-- The slot of the character at a position. -/
def atPosition (separator : Option Char) (cs : List Char) (i : ℕ) (c : Char) : Slot :=
  if separator = some c then .live (.separator c)
  else if isEscapedAt separator cs i then .live (.literal c)
  else if c = escapeChar then .escape
  else if c = '*' then .live .star
  else if c = '?' then
    if starsBefore separator cs i = 1 ∨ (cs[i + 1]? = some '*' ∧ separator ≠ some '*') then .dropped
    else .live .question
  else if c = '+' then if starsBefore separator cs i = 1 then .dropped else .live .plus
  else .live (.literal c)

/-- The slots of a text, each told by its position. -/
def byPosition (separator : Option Char) (cs : List Char) : List Slot :=
  cs.zipIdx.map fun (c, i) => atPosition separator cs i c

end Slot

namespace Token

/-- The groups of a list of tokens: stars that are neighbours are in one group. -/
def groups (ts : List Token) : List (List Token) :=
  ts.splitBy fun t u => t.kind.isStar && u.kind.isStar

/-- The token that a group becomes: more stars than one become a double star. -/
def ofGroup : List Token → Token
  | [t] => t
  | _ => .doubleStar

/-- The tokens of a text: one for each group of those that its characters mean by their positions. -/
def byPosition (separator : Option Char) (cs : List Char) : List Token :=
  (groups ((Slot.byPosition separator cs).filterMap Slot.token?)).map ofGroup

end Token

/-- The text of the picture above. -/
example : Slot.byPosition (some '/') "\\*a*?*/+\\".toList =
    [.escape, .live (.literal '*'), .live (.literal 'a'), .live .star, .dropped, .live .star,
      .live (.separator '/'), .live .plus, .escape] := by decide

/-! ### What a context tells -/

section

variable {separator : Option Char} {cs : List Char} {i : ℕ} {c : Char}

/-- The character behind an escape is escaped. -/
theorem isEscapedAt_succ (hc : cs[i]? = some c) :
    isEscapedAt separator cs (i + 1) ↔
      separator ≠ some escapeChar ∧ c = escapeChar ∧ ¬isEscapedAt separator cs i := by
  simp only [isEscapedAt, rowBefore, hc, Option.some_inj, Bool.and_eq_true, decide_eq_true_eq]
  by_cases he : c = escapeChar
  · simp only [if_pos he]
    constructor
    · rintro ⟨hs, hodd⟩
      exact ⟨hs, he, fun h => by omega⟩
    · rintro ⟨hs, -, heven⟩
      exact ⟨hs, by have : ¬_ % 2 = 1 := fun h => heven ⟨hs, h⟩; omega⟩
  · simp [he]

/-- A row of stars goes on with a star, and ends with any other character. -/
theorem starsBefore_succ (hc : cs[i]? = some c) :
    starsBefore separator cs (i + 1) =
      if c = '*' ∧ separator ≠ some '*' ∧ ¬isEscapedAt separator cs i then
        starsBefore separator cs i + 1
      else 0 := by
  simp only [starsBefore, rowBefore, isStarAt, hc, Option.some_inj]
  congr 1
  simp [and_assoc]

end

/-- A context tells of the rows that end where it stands. -/
structure Context.Tells (separator : Option Char) (cs : List Char) (i : ℕ) (before : Context) :
    Prop where
  escaped_iff : before = .escaped ↔ isEscapedAt separator cs i
  plain_or_escaped : before = .plain ∨ before = .escaped ↔ starsBefore separator cs i = 0
  afterStar_iff : before = .afterStar ↔ starsBefore separator cs i = 1

namespace Context.Tells

variable {separator : Option Char} {cs : List Char} {i : ℕ} {before : Context} {c : Char}

/-- Nothing stands before the beginning. -/
theorem zero : Tells separator cs 0 .plain where
  escaped_iff := by simp [isEscapedAt, rowBefore]
  plain_or_escaped := by simp [starsBefore, rowBefore]
  afterStar_iff := by simp [starsBefore, rowBefore]

/-- The next context tells of the next position. -/
theorem next (h : Tells separator cs i before) (hc : cs[i]? = some c) :
    Tells separator cs (i + 1) (before.next separator c) where
  escaped_iff := by
    rw [isEscapedAt_succ hc, ← h.escaped_iff, Context.next]
    grind
  plain_or_escaped := by
    have escaped := h.escaped_iff
    rw [starsBefore_succ hc, Context.next]
    grind [escapeChar]
  afterStar_iff := by
    have escaped := h.escaped_iff
    have none_iff := h.plain_or_escaped
    rw [starsBefore_succ hc, Context.next]
    grind [escapeChar]

end Context.Tells

namespace Slot

variable {separator : Option Char}

/-- What a context leads a character to mean is what its position says. -/
theorem classify_eq_atPosition {cs : List Char} {i : ℕ} {before : Context}
    (h : before.Tells separator cs i) (c : Char) :
    classify separator before c cs[i + 1]? = atPosition separator cs i c := by
  simp only [classify, atPosition, h.escaped_iff, h.afterStar_iff]

/-- From any position on, reading says what the positions say. -/
theorem read_eq_byPosition {xs ys : List Char} {before : Context}
    (h : before.Tells separator (xs ++ ys) xs.length) :
    read separator before ys =
      (ys.zipIdx xs.length).map fun (c, i) => atPosition separator (xs ++ ys) i c := by
  induction ys generalizing xs before with
  | nil => rfl
  | cons c ys ih =>
    have hc : (xs ++ c :: ys)[xs.length]? = some c := by simp
    have hnext : (xs ++ c :: ys)[xs.length + 1]? = ys.head? := by
      rw [List.getElem?_append_right (Nat.le_add_right _ _), Nat.add_sub_cancel_left,
        List.getElem?_cons_succ, List.head?_eq_getElem?]
    have htells : (before.next separator c).Tells separator (xs ++ [c] ++ ys) (xs ++ [c]).length := by
      rw [List.append_assoc, List.singleton_append, List.length_append, List.length_singleton]
      exact h.next hc
    have hrest := ih htells
    rw [List.append_assoc, List.singleton_append, List.length_append, List.length_singleton]
      at hrest
    rw [read, ← hnext, classify_eq_atPosition h, hrest, List.zipIdx_cons, List.map_cons]

/-- The slots of a text are told by their positions. -/
theorem ofText_eq_byPosition (separator : Option Char) (text : String) :
    ofText separator text = byPosition separator text.toList :=
  @read_eq_byPosition separator [] text.toList .plain Context.Tells.zero

end Slot

/-! ### Groups of stars -/

namespace Token

/-- A group becomes one token. -/
theorem mergeStars_group {t : Token} {g : List Token}
    (group : (t :: g).IsChain fun t u => t.kind.isStar && u.kind.isStar) :
    mergeStars (t :: g) = [ofGroup (t :: g)] := by
  induction g generalizing t with
  | nil => rfl
  | cons u g ih =>
    obtain ⟨stars, group⟩ := List.isChain_cons_cons.mp group
    rw [Bool.and_eq_true] at stars
    have one : (ofGroup (u :: g)).kind.isStar := by
      cases g with
      | nil => exact stars.2
      | cons v g => rfl
    rw [mergeStars_cons, ih group, push, if_pos (by rw [stars.1, one]; rfl)]
    rfl

/-- A group becomes one token, whatever follows that it is kept apart from. -/
theorem mergeStars_group_append {t : Token} {g ts : List Token}
    (group : (t :: g).IsChain fun t u => t.kind.isStar && u.kind.isStar)
    (apart : ((t :: g).getLast (List.cons_ne_nil t g)).kind.isStar →
      ts.head?.any (fun u => u.kind.isStar) = false) :
    mergeStars (t :: g ++ ts) = ofGroup (t :: g) :: mergeStars ts := by
  have last : endsWithStar (t :: g) → beginsWithStar ts = false := by
    rwa [endsWithStar, List.getLast?_eq_some_getLast (List.cons_ne_nil t g), Option.any_some]
  rw [mergeStars_append last, mergeStars_group group, List.singleton_append]

/-- Groups that are kept apart become one token each. -/
theorem mergeStars_flatten {gs : List (List Token)} (nonempty : [] ∉ gs)
    (group : ∀ g ∈ gs, g.IsChain fun t u => t.kind.isStar && u.kind.isStar)
    (apart : gs.IsChain fun g h => ∃ hg hh,
      ((g.getLast hg).kind.isStar && (h.head hh).kind.isStar) = false) :
    mergeStars gs.flatten = gs.map ofGroup := by
  induction gs with
  | nil => rfl
  | cons g gs ih =>
    rw [List.mem_cons, not_or] at nonempty
    obtain ⟨hg, hgs⟩ := nonempty
    obtain ⟨t, g, rfl⟩ := List.exists_cons_of_ne_nil (Ne.symm hg)
    have rest := ih hgs (fun h hh => group h (List.mem_cons_of_mem _ hh)) apart.tail
    have next : ((t :: g).getLast (List.cons_ne_nil t g)).kind.isStar →
        gs.flatten.head?.any (fun u => u.kind.isStar) = false := by
      intro hlast
      cases gs with
      | nil => rfl
      | cons h gs =>
        obtain ⟨_, hh, hne⟩ := (List.isChain_cons_cons.mp apart).1
        rw [hlast, Bool.true_and] at hne
        rw [List.flatten_cons, List.head?_append, List.head?_eq_some_head hh]
        exact hne
    rw [List.flatten_cons, mergeStars_group_append (group _ List.mem_cons_self) next, rest,
      List.map_cons]

/-- Merging makes one token of each group. -/
theorem mergeStars_eq_groups (ts : List Token) : mergeStars ts = (groups ts).map ofGroup := by
  obtain ⟨flat, nonempty, group, apart⟩ := List.splitBy_eq_iff.mp (rfl : groups ts = groups ts)
  conv_lhs => rw [flat]
  exact mergeStars_flatten nonempty group apart

end Token

/-! ### The whole pattern -/

namespace Pattern

/-- What the text has been read as decides the features: each kind of token brings its own, and an
    escape brings one. -/
theorem contains_features (p : Pattern) (f : Feature) :
    p.features.contains f ↔
      (∃ k ∈ p.kinds, Feature.ofKind? k = some f) ∨
        f = .escape ∧ .escape ∈ Slot.ofText p.separator p.text := by
  rw [features, kinds, tokens, p.compiled_eq]
  simp only [Compiled.ofText, Features.contains_ofList, decide_eq_true_eq, List.mem_append,
    List.mem_filterMap]
  constructor
  · rintro (⟨t, ht, hf⟩ | hf)
    · exact Or.inl ⟨t.kind, Or.inl (List.mem_map_of_mem ht), hf⟩
    · split at hf
      · next he =>
        exact Or.inr ⟨List.mem_singleton.mp hf, List.contains_iff_mem.mp he⟩
      · cases hf
  · rintro (⟨k, hk, hf⟩ | ⟨rfl, he⟩)
    · rcases hk with hk | hk
      · obtain ⟨t, ht, rfl⟩ := List.mem_map.mp hk
        exact Or.inl ⟨t, ht, hf⟩
      · rw [List.mem_singleton.mp hk] at hf
        cases hf
    · rw [if_pos (List.contains_iff_mem.mpr he)]
      exact Or.inr (List.mem_singleton_self _)

/-- A pattern is made of what its characters mean by their positions: its tokens are the groups of
    those that mean one, closed by the end, and its features are those of its kinds, and an escape
    if some character means one. -/
theorem compile_by_position (text : String) (separator : Option Char) :
    (compile text separator).kinds =
        (Token.byPosition separator text.toList).map Token.kind ++ [.endOfPattern] ∧
      (compile text separator).symbols =
        (Token.byPosition separator text.toList).map Token.symbol ++ ['\x00'] ∧
      ∀ f, (compile text separator).features.contains f ↔
        (∃ k ∈ (compile text separator).kinds, Feature.ofKind? k = some f) ∨
          f = .escape ∧ .escape ∈ Slot.byPosition separator text.toList := by
  have hslots := Slot.ofText_eq_byPosition separator text
  have htokens : (compile text separator).tokens = Token.byPosition separator text.toList := by
    calc (compile text separator).tokens
      _ = Token.mergeStars ((Slot.ofText separator text).filterMap Slot.token?) := rfl
      _ = Token.byPosition separator text.toList := by
        rw [hslots, Token.mergeStars_eq_groups, Token.byPosition]
  refine ⟨?_, ?_, fun f => ?_⟩
  · rw [kinds, htokens]
  · rw [symbols, htokens]
  · rw [← hslots]
    exact contains_features (compile text separator) f

end Pattern

end Wildcard
