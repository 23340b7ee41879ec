import Mathlib.Data.List.Chain
import Wildcard.Pattern

/-! What compiling guarantees of the tokens.

    Three facts hold of every compiled list of tokens: no literal is the separator, every separator
    token is the separator, and no two stars are neighbours. A text is compiled piece by piece, too:
    whatever stands before a separator, the reader is back in its first state behind it, so the
    tokens of a text are those of its segments with the separators between them.

        text     a * ? / b *        tokens   a  *  /  b  *
                 └─P0─┘ c └P1┘               └P0┘ c └P1┘ -/

namespace Wildcard

namespace Token

/-- The tokens that stand for more than one character of a text. -/
def isWildcard : Token → Bool
  | .literal _ | .separator _ => false
  | .star | .doubleStar | .question | .plus => true

theorem isWildcard_of_isStar {t : Token} (h : t.kind.isStar) : t.isWildcard := by
  cases t <;> first | rfl | cases h

/-- The character of a literal. -/
def literal? : Token → Option Char
  | .literal c => some c
  | _ => none

theorem literal?_eq_some {t : Token} {c : Char} : t.literal? = some c ↔ t = .literal c := by
  cases t <;> simp [literal?]

theorem literal?_eq_none_iff {t : Token} : t.literal? = none ↔ t.kind ≠ .literal := by
  cases t <;> simp [literal?, kind]

/-- What is true of the tokens of a compiled pattern. -/
structure Tidy (separator : Option Char) (ts : List Token) : Prop where
  /-- A literal never stands for the separator. -/
  literal_ne : ∀ c, .literal c ∈ ts → separator ≠ some c
  /-- A separator token stands for the separator. -/
  separator_eq : ∀ c, .separator c ∈ ts → separator = some c
  /-- No two stars are neighbours. -/
  apart : ts.IsChain fun t u => t.kind.isStar → u.kind.isStar = false

namespace Tidy

variable {separator : Option Char}

/-- What stands further to the right is tidy as well. -/
theorem of_append {ts us : List Token} (h : Tidy separator (ts ++ us)) : Tidy separator us where
  literal_ne c hc := h.literal_ne c (List.mem_append_right _ hc)
  separator_eq c hc := h.separator_eq c (List.mem_append_right _ hc)
  apart := h.apart.right_of_append

theorem tail {t : Token} {ts : List Token} (h : Tidy separator (t :: ts)) : Tidy separator ts :=
  @of_append _ [t] ts h

theorem of_suffix {ts us : List Token} (h : Tidy separator ts) (hu : us <:+ ts) :
    Tidy separator us := by
  obtain ⟨front, rfl⟩ := hu
  exact h.of_append

theorem drop {ts : List Token} (h : Tidy separator ts) (n : ℕ) : Tidy separator (ts.drop n) :=
  h.of_suffix (List.drop_suffix n ts)

end Tidy

/-! ### Merging stars -/

@[simp]
theorem mergeStars_nil : mergeStars [] = [] := rfl

@[simp]
theorem mergeStars_cons (t : Token) (ts : List Token) :
    mergeStars (t :: ts) = push t (mergeStars ts) := rfl

/-- Merging brings in nothing but double stars. -/
theorem mem_of_mem_push {t u : Token} {ts : List Token} (h : u ∈ push t ts) :
    u = .doubleStar ∨ u = t ∨ u ∈ ts := by
  cases ts with
  | nil => exact Or.inr (Or.inl (List.mem_singleton.mp h))
  | cons v ts =>
    rw [push] at h
    split at h
    · rcases List.mem_cons.mp h with rfl | h
      · exact Or.inl rfl
      · exact Or.inr (Or.inr (List.mem_cons_of_mem _ h))
    · rcases List.mem_cons.mp h with rfl | h
      · exact Or.inr (Or.inl rfl)
      · exact Or.inr (Or.inr h)

theorem mem_of_mem_mergeStars {u : Token} {ts : List Token} (h : u ∈ mergeStars ts) :
    u = .doubleStar ∨ u ∈ ts := by
  induction ts with
  | nil => exact absurd h (by simp)
  | cons t ts ih =>
    rw [mergeStars_cons] at h
    rcases mem_of_mem_push h with rfl | rfl | h
    · exact Or.inl rfl
    · exact Or.inr List.mem_cons_self
    · exact (ih h).imp_right (List.mem_cons_of_mem _)

theorem isChain_push {t : Token} {ts : List Token}
    (h : ts.IsChain fun t u => t.kind.isStar → u.kind.isStar = false) :
    (push t ts).IsChain fun t u => t.kind.isStar → u.kind.isStar = false := by
  cases ts with
  | nil => exact List.isChain_singleton t
  | cons u ts =>
    rw [push]
    split
    · next hs =>
      rw [Bool.and_eq_true] at hs
      cases ts with
      | nil => exact List.isChain_singleton _
      | cons v ts =>
        rw [List.isChain_cons_cons] at h ⊢
        exact ⟨fun _ => h.1 hs.2, h.2⟩
    · next hs =>
      rw [Bool.and_eq_true, not_and, Bool.not_eq_true] at hs
      exact List.isChain_cons_cons.mpr ⟨hs, h⟩

theorem isChain_mergeStars (ts : List Token) :
    (mergeStars ts).IsChain fun t u => t.kind.isStar → u.kind.isStar = false := by
  induction ts with
  | nil => exact List.isChain_nil
  | cons t ts ih => exact isChain_push ih

/-- Whether a list of tokens begins with a star. -/
def beginsWithStar (ts : List Token) : Bool := ts.head?.any fun t => t.kind.isStar

/-- Whether a list of tokens ends with a star. -/
def endsWithStar (ts : List Token) : Bool := ts.getLast?.any fun t => t.kind.isStar

theorem endsWithStar_cons_cons (t u : Token) (ts : List Token) :
    endsWithStar (t :: u :: ts) = endsWithStar (u :: ts) := by
  rw [endsWithStar, endsWithStar, List.getLast?_cons_cons]

/-- In front of a list that does not begin with a star, a star or any other token stands alone. -/
theorem push_of_apart {t : Token} {ts : List Token}
    (h : t.kind.isStar → beginsWithStar ts = false) : push t ts = t :: ts := by
  cases ts with
  | nil => rfl
  | cons u ts =>
    rw [push, if_neg]
    rw [Bool.and_eq_true]
    rintro ⟨ht, hu⟩
    exact absurd hu (Bool.eq_false_iff.mp (h ht))

theorem mergeStars_eq_nil_iff {ts : List Token} : mergeStars ts = [] ↔ ts = [] := by
  cases ts with
  | nil => exact iff_of_true rfl rfl
  | cons t ts =>
    refine iff_of_false ?_ (List.cons_ne_nil t ts)
    rw [mergeStars_cons]
    cases mergeStars ts with
    | nil => exact List.cons_ne_nil _ _
    | cons u us =>
      rw [push]
      split <;> exact List.cons_ne_nil _ _

/-- A list begins with a star after merging if it did before. -/
theorem beginsWithStar_mergeStars (ts : List Token) :
    beginsWithStar (mergeStars ts) = beginsWithStar ts := by
  cases ts with
  | nil => rfl
  | cons t ts =>
    rw [mergeStars_cons]
    cases mergeStars ts with
    | nil => rfl
    | cons u us =>
      rw [push]
      split
      · next hs =>
        rw [Bool.and_eq_true] at hs
        exact hs.1.symm
      · rfl

/-- Lists that do not meet in two stars are merged one by one. -/
theorem mergeStars_append {ts us : List Token}
    (apart : endsWithStar ts → beginsWithStar us = false) :
    mergeStars (ts ++ us) = mergeStars ts ++ mergeStars us := by
  induction ts with
  | nil => rfl
  | cons t ts ih =>
    rw [List.cons_append, mergeStars_cons, mergeStars_cons]
    cases ts with
    | nil =>
      rw [List.nil_append]
      exact push_of_apart fun ht => (beginsWithStar_mergeStars us).trans (apart ht)
    | cons u ts =>
      rw [ih (by rwa [endsWithStar_cons_cons] at apart)]
      cases h : mergeStars (u :: ts) with
      | nil => exact absurd (mergeStars_eq_nil_iff.mp h) (List.cons_ne_nil u ts)
      | cons v vs =>
        rw [List.cons_append, push, push]
        split <;> rfl

/-- A separator keeps the stars on its left from those on its right. -/
theorem mergeStars_append_separator (c : Char) (ts us : List Token) :
    mergeStars (ts ++ .separator c :: us) = mergeStars ts ++ .separator c :: mergeStars us := by
  have alone : push (.separator c) (mergeStars us) = .separator c :: mergeStars us :=
    push_of_apart nofun
  rw [mergeStars_append fun _ => rfl, mergeStars_cons, alone]

end Token

/-! ### Reading -/

namespace Slot

variable {separator : Option Char}

/-- No literal is read where the separator stands, and only there a separator. -/
theorem tidy_of_mem_read {before : Context} {cs : List Char} {t : Token}
    (h : .live t ∈ read separator before cs) :
    (∀ c, t = .literal c → separator ≠ some c) ∧ (∀ c, t = .separator c → separator = some c) := by
  induction cs generalizing before with
  | nil => exact absurd h (by simp [read])
  | cons c cs ih =>
    rcases List.mem_cons.mp h with h | h
    · rw [classify] at h
      constructor <;> rintro d rfl <;> grind
    · exact ih h

/-- A separator is read where it stands. -/
theorem mem_of_live_separator {before : Context} {cs : List Char} {c : Char}
    (h : .live (.separator c) ∈ read separator before cs) : c ∈ cs := by
  induction cs generalizing before with
  | nil => exact absurd h (by simp [read])
  | cons d cs ih =>
    rcases List.mem_cons.mp h with h | h
    · rw [classify] at h
      grind
    · exact List.mem_cons_of_mem d (ih h)

/-- A separator ahead does not change how a character is read. -/
theorem classify_before_separator {c : Char} (h : separator = some c) (before : Context)
    (d : Char) : classify separator before d (some c) = classify separator before d none := by
  subst h
  simp only [classify]
  grind

/-- The reader starts again behind a separator. -/
theorem read_append_separator {c : Char} (h : separator = some c) (before : Context)
    (xs ys : List Char) :
    read separator before (xs ++ c :: ys) =
      read separator before xs ++ .live (.separator c) :: read separator .plain ys := by
  induction xs generalizing before with
  | nil => simp [read, classify, Context.next, h]
  | cons x xs ih =>
    rw [List.cons_append, read, read, ih, List.cons_append]
    cases xs with
    | nil => rw [List.nil_append, List.head?_cons, List.head?_nil, classify_before_separator h]
    | cons _ _ => rfl

end Slot

/-! ### Compiling -/

namespace Pattern

theorem tokens_compile (text : String) (separator : Option Char) :
    (compile text separator).tokens =
      Token.mergeStars ((Slot.read separator .plain text.toList).filterMap Slot.token?) := rfl

/-- Every token has been read, but for the double stars that come from merging. -/
theorem live_of_mem_tokens {p : Pattern} {t : Token} (h : t ∈ p.tokens) (hne : t ≠ .doubleStar) :
    .live t ∈ Slot.read p.separator .plain p.text.toList := by
  rw [← compile_text_separator p, tokens_compile] at h
  obtain ⟨slot, hs, he⟩ := List.mem_filterMap.mp ((Token.mem_of_mem_mergeStars h).resolve_left hne)
  cases slot with
  | live u => exact Option.some.inj he ▸ hs
  | escape => cases he
  | dropped => cases he

/-- The tokens of a compiled pattern are tidy. -/
theorem tidy (p : Pattern) : Token.Tidy p.separator p.tokens where
  literal_ne c hc := (Slot.tidy_of_mem_read (live_of_mem_tokens hc nofun)).1 c rfl
  separator_eq c hc := (Slot.tidy_of_mem_read (live_of_mem_tokens hc nofun)).2 c rfl
  apart := by
    rw [← compile_text_separator p, tokens_compile]
    exact Token.isChain_mergeStars _

/-- A separator token stands for one in the text. -/
theorem mem_text_of_separator {p : Pattern} {c : Char} (h : .separator c ∈ p.tokens) :
    c ∈ p.text.toList := Slot.mem_of_live_separator (live_of_mem_tokens h nofun)

/-- The tokens of a text with a separator in it are those of its two parts, the separator between
    them. -/
theorem tokens_append_separator (c : Char) (xs ys : List Char) :
    (compile (String.ofList (xs ++ c :: ys)) (some c)).tokens =
      (compile (String.ofList xs) (some c)).tokens ++
        .separator c :: (compile (String.ofList ys) (some c)).tokens := by
  have live : Slot.token? (.live (.separator c)) = some (.separator c) := rfl
  simp only [tokens_compile, String.toList_ofList]
  rw [Slot.read_append_separator rfl, List.filterMap_append, List.filterMap_cons_some live,
    Token.mergeStars_append_separator]

/-- A pattern is a plain text just when none of its tokens is a wildcard. -/
theorem isLiteral_iff {p : Pattern} : p.isLiteral ↔ ∀ t ∈ p.tokens, t.isWildcard = false := by
  have wildcard_iff : ∀ t : Token,
      t.isWildcard ↔ ∃ f, Feature.ofKind? t.kind = some f ∧ f.isWildcard := by
    intro t
    cases t <;> simp [Token.isWildcard, Token.kind, Feature.ofKind?, Feature.isWildcard]
  have features_eq : ∀ f : Feature, f.isWildcard →
      (p.features.contains f ↔ ∃ t ∈ p.tokens, Feature.ofKind? t.kind = some f) := by
    intro f hf
    have hne : f ≠ .escape := by rintro rfl; cases hf
    rw [features, tokens, p.compiled_eq]
    simp only [Compiled.ofText, Features.contains_ofList, decide_eq_true_eq, List.mem_append,
      List.mem_filterMap]
    constructor
    · rintro (h | h)
      · exact h
      · split at h <;> simp [hne] at h
    · exact Or.inl
  rw [isLiteral, Bool.not_eq_true', ← Bool.not_eq_true, Features.hasWildcards_iff, not_exists]
  constructor
  · intro h t ht
    by_contra hw
    obtain ⟨f, hf, hfw⟩ := (wildcard_iff t).mp (by simpa using hw)
    exact h f ⟨(features_eq f hfw).mpr ⟨t, ht, hf⟩, hfw⟩
  · rintro h f ⟨hc, hfw⟩
    obtain ⟨t, ht, hf⟩ := (features_eq f hfw).mp hc
    have := (wildcard_iff t).mpr ⟨f, hf, hfw⟩
    rw [h t ht] at this
    cases this

end Pattern

end Wildcard
