import Wildcard.Proofs.PlainPrefix

/-! Without a separator, both stars are one.

    A text without a separator is one segment, and there is nothing to cross. Either star then seeks
    a literal run right behind it up to the end of the text, and takes the rest if none is there.
    Every other token asks no more of a star than whether it is one. So a search goes on alike
    whichever of the two a pattern has, whatever it records:

        tokens    *  a  ** ? b        text  x a y a / b
        tokens    ** a  *  ? b        the same moves, the same verdict, the same mask -/

namespace Wildcard

/-- Two kinds that are equal, or are both stars. -/
def Kind.Similar (k l : Kind) : Prop := k = l ∨ k.isStar ∧ l.isStar

instance : DecidableRel Kind.Similar := fun k l =>
  inferInstanceAs (Decidable (k = l ∨ k.isStar ∧ l.isStar))

/-- Two tokens that are equal, or are both stars. -/
def Token.Similar (t u : Token) : Prop := t = u ∨ t.kind.isStar ∧ u.kind.isStar

namespace Token

/-- A token is told by its kind and its character, but for the star that it is. -/
theorem similar_of_kind {t u : Token} (kind : t.kind.Similar u.kind)
    (symbol : t.symbol = u.symbol) : Similar t u := by
  rcases kind with he | hs
  · refine Or.inl ?_
    cases t <;> cases u <;> simp_all [Token.kind, Token.symbol]
  · exact Or.inr hs

/-- Closed lists of kinds that are similar, with the same characters, are those of similar
    tokens. -/
theorem similar_of_kinds {ts us : List Token}
    (kinds : List.Forall₂ Kind.Similar (ts.map kind ++ [.endOfPattern])
      (us.map kind ++ [.endOfPattern]))
    (symbols : ts.map symbol = us.map symbol) : List.Forall₂ Similar ts us := by
  induction ts generalizing us with
  | nil =>
    obtain rfl := List.map_eq_nil_iff.mp symbols.symm
    exact .nil
  | cons t ts ih =>
    cases us with
    | nil => cases symbols
    | cons u us =>
      obtain ⟨symbol, symbols⟩ := List.cons.inj symbols
      obtain ⟨kind, kinds⟩ := List.forall₂_cons.mp kinds
      exact .cons (similar_of_kind kind symbol) (ih kinds symbols)

namespace Similar

variable {t u : Token}

/-- To the token on its right, a star is a star. -/
theorem alike (h : Similar t u) : Alike (some t.kind) (some u.kind) := by
  rcases h with rfl | ⟨ht, hu⟩
  · exact .refl _
  · refine ⟨by simp [ht, hu], ?_⟩
    constructor <;> intro he <;> simp_all [Kind.isStar]

theorem isNullable_eq (h : Similar t u) : t.kind.isNullable = u.kind.isNullable := by
  rcases h with rfl | ⟨ht, hu⟩
  · rfl
  · rw [Kind.isNullable_of_isStar ht, Kind.isNullable_of_isStar hu]

theorem isWildcard_eq (h : Similar t u) : t.isWildcard = u.isWildcard := by
  rcases h with rfl | ⟨ht, hu⟩
  · rfl
  · rw [isWildcard_of_isStar ht, isWildcard_of_isStar hu]

/-- Both stars look the same from the left. -/
theorem before_eq (h : Similar t u) (o : Outlook) : o.before t = o.before u := by
  rcases h with rfl | ⟨ht, hu⟩
  · rfl
  · cases t <;> cases ht <;> cases u <;> cases hu <;> rfl

end Similar

/-- What lies ahead does not tell the two stars apart. -/
theorem ofTokens_similar {ts us : List Token} (h : List.Forall₂ Similar ts us) :
    Outlook.ofTokens ts = Outlook.ofTokens us := by
  induction h with
  | nil => rfl
  | cons ht _ ih => rw [Outlook.ofTokens_cons, Outlook.ofTokens_cons, ih, ht.before_eq]

end Token

/-! ### Searching -/

namespace Leg

variable {s : Subject} {before before' : Option Kind} {t u : Token} {ts us : List Token}

/-- Without a separator, either star stays within the one segment that there is. -/
theorem move_star_of_none (hs : s.separator = none) (ht : t.kind.isStar) (i : ℕ) (c : Char) :
    (facing s before t ts).move s i c = (facing s before t ts).moveInSegment s i := by
  rcases move_star ht with ⟨-, hm⟩ | ⟨-, hsome, -⟩
  · exact hm
  · rw [hs] at hsome
    cases hsome

/-- A leg knows of the tokens behind its own only what lies ahead. -/
theorem facing_congr (ahead : Outlook.ofTokens ts = Outlook.ofTokens us) :
    facing s before t ts = facing s before t us := by
  rw [facing, facing, ahead]

/-- Of the token before, a token asks whether it is a star, and whether it is a `?`. -/
theorem move_alike (hb : Alike before before') (i : ℕ) (c : Char) :
    (facing s before t ts).move s i c = (facing s before' t ts).move s i c := by
  cases t with
  | separator d =>
    simp only [move, facing, hb.isStar]
    rfl
  | question =>
    rw [move_question, move_question]
    exact if_congr (and_congr_left' (not_congr hb.question)) rfl rfl
  | _ => rfl

/-- Without a separator, similar tokens make the same moves. -/
theorem move_similar (hs : s.separator = none) (hb : Alike before before') (ht : t.Similar u)
    (ahead : Outlook.ofTokens ts = Outlook.ofTokens us) (i : ℕ) (c : Char) :
    (facing s before t ts).move s i c = (facing s before' u us).move s i c := by
  rw [move_alike hb, facing_congr ahead]
  rcases ht with rfl | ⟨ht, hu⟩
  · rfl
  · rw [move_star_of_none hs ht, move_star_of_none hs hu]
    rfl

end Leg

namespace Search

variable {μ : Type} [Recorder μ] {s : Subject}

/-- Without a separator, a search through similar tokens is the same search. -/
theorem run_similar (hs : s.separator = none) {ts us : List Token}
    (h : List.Forall₂ Token.Similar ts us) {before before' : Option Kind}
    (hb : Alike before before') (skip i : ℕ) (m : μ) :
    run s (Leg.chain s before ts).1 skip i m = run s (Leg.chain s before' us).1 skip i m := by
  induction h generalizing before before' skip i m with
  | nil => rfl
  | @cons t u ts us ht hts ih =>
    have ahead := Token.ofTokens_similar hts
    have next := fun skip i m => ih ht.alike skip i m
    rw [Leg.chain_cons, Leg.chain_cons]
    cases skip with
    | succ skip => exact next skip i m
    | zero =>
      rw [run, run]
      cases s.chars[i]? with
      | none =>
        have skippable : (Leg.facing s before t ts).isSkippable =
            (Leg.facing s before' u us).isSkippable := by
          simp only [Leg.isSkippable, Leg.facing, ht.isNullable_eq, ahead]
        dsimp only
        rw [skippable]
      | some c =>
        dsimp only
        rw [Leg.move_similar hs hb ht ahead]
        cases (Leg.facing s before' u us).move s i c with
        | seek limit => simp only [Leg.facing, ahead, next]
        | _ => simp only [next]

end Search

/-- Without a separator, similar tokens are searched for with one verdict and one record. -/
theorem search_similar {μ : Type} [Recorder μ] {ts us : List Token}
    (h : List.Forall₂ Token.Similar ts us) (cs : Array Char) (m : μ) :
    search none ts cs m = search none us cs m :=
  Search.run_similar rfl h (.refl none) 0 0 m

/-! ### Matching and masking -/

namespace Pattern

variable {p q : Pattern}

theorem isLiteral_similar (h : List.Forall₂ Token.Similar p.tokens q.tokens) :
    p.isLiteral = q.isLiteral := by
  have plain : ∀ {ts us : List Token}, List.Forall₂ Token.Similar ts us →
      ((∀ t ∈ ts, t.isWildcard = false) ↔ ∀ u ∈ us, u.isWildcard = false) := by
    intro ts us h
    induction h with
    | nil => exact Iff.rfl
    | cons ht _ ih => rw [List.forall_mem_cons, List.forall_mem_cons, ih, ht.isWildcard_eq]
  rw [Bool.eq_iff_iff, isLiteral_iff, isLiteral_iff, plain h]

/-- Two patterns without a separator that have the same characters, and the same kinds but for
    which star stands where, match the same texts, with the same masks. -/
theorem stars_alike_without_separator {a b : String}
    (symbols : (compile a none).symbols = (compile b none).symbols)
    (kinds : List.Forall₂ Kind.Similar (compile a none).kinds (compile b none).kinds)
    (text : String) :
    (compile a none).isMatch text = (compile b none).isMatch text ∧
      (compile a none).mask? text = (compile b none).mask? text := by
  have spelled := List.append_cancel_right symbols
  have similar := Token.similar_of_kinds kinds spelled
  have literal := isLiteral_similar similar
  have spells : (compile a none).spells text = (compile b none).spells text := by
    rw [Pattern.spells, Pattern.spells, spelled]
  constructor
  · simp only [isMatch, literal, spells]
    rw [show (compile a none).separator = none from rfl, search_similar similar]
    rfl
  · simp only [mask?, literal, spells]
    rw [show (compile a none).separator = none from rfl, search_similar similar]
    rfl

/-- Each star is the other one, and the second one gives way before the rest fits. -/
theorem stars_alike_without_separator_of_retried :
    (compile "*a**b?c" none).symbols = (compile "**a*b?c" none).symbols ∧
      List.Forall₂ Kind.Similar (compile "*a**b?c" none).kinds (compile "**a*b?c" none).kinds ∧
      (compile "*a**b?c" none).isMatch "xa/bab/c" = (compile "**a*b?c" none).isMatch "xa/bab/c" ∧
      (compile "*a**b?c" none).mask? "xa/bab/c" = (compile "**a*b?c" none).mask? "xa/bab/c" :=
  have symbols : (compile "*a**b?c" none).symbols = (compile "**a*b?c" none).symbols := by decide
  have kinds : List.Forall₂ Kind.Similar (compile "*a**b?c" none).kinds
      (compile "**a*b?c" none).kinds := by decide
  ⟨symbols, kinds, stars_alike_without_separator symbols kinds "xa/bab/c"⟩

end Pattern

end Wildcard
