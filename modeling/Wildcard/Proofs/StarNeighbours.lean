import Wildcard.Proofs.Reading

/-! What stands next to a star.

    A `?` next to a single star and a `+` behind one are dropped, as the star takes what they would
    take. The reader looks at the characters next to each other in the text, though, and dropping
    brings others together. So a token may stand next to a star that would have been dropped there,
    and this happens over exactly one dropped character:

        text     * ? ?      ? ? *      * ? +        * ? * ? ?
        slots    * . ?      ? . *      * . +        * . * . ?
        tokens   *   ?      ?   *      *   +        └ ** ┘  ?     two stars have become one token

    Two dropped characters never stand in a row but before a star, and then that star is met. -/

namespace Wildcard

/-- Whether two neighbours are a single star and a `?` on either side of it, or a `+` behind it. -/
def Kind.clashes : Kind → Kind → Bool
  | .star, .question | .star, .plus | .question, .star => true
  | _, _ => false

/-- Whether no `?` stands next to a single star, and no `+` behind one. -/
def Settled (kinds : List Kind) : Prop := kinds.IsChain fun k l => k.clashes l = false

instance : DecidablePred Settled := fun kinds =>
  inferInstanceAs (Decidable (kinds.IsChain fun k l => k.clashes l = false))

/-! ### Merging -/

namespace Token

/-- A list ends with a star after merging if it did before. -/
theorem endsWithStar_mergeStars (ts : List Token) :
    endsWithStar (mergeStars ts) = endsWithStar ts := by
  induction ts with
  | nil => rfl
  | cons t ts ih =>
    cases ts with
    | nil => rfl
    | cons u ts =>
      rw [mergeStars_cons, endsWithStar_cons_cons, ← ih]
      cases h : mergeStars (u :: ts) with
      | nil => exact absurd (mergeStars_eq_nil_iff.mp h) (List.cons_ne_nil u ts)
      | cons v vs =>
        rw [push]
        split
        · next hs =>
          rw [Bool.and_eq_true] at hs
          cases vs with
          | nil => exact hs.2.symm
          | cons w ws => rfl
        · rfl

/-- Two stars never meet after merging. -/
theorem apart_of_mergeStars {ts as bs : List Token} (h : mergeStars ts = as ++ bs) :
    endsWithStar as → beginsWithStar bs = false := by
  have chain := isChain_mergeStars ts
  rw [h] at chain
  have apart := (List.isChain_append.mp chain).2.2
  rw [endsWithStar, beginsWithStar, Option.any_eq_true, Option.any_eq_false]
  rintro ⟨t, ht, star⟩ u hu
  exact apart t ht u hu star

/-- Where a merged list can be cut, the list itself can. -/
theorem exists_append_of_mergeStars {ts as bs : List Token} (h : mergeStars ts = as ++ bs) :
    ∃ us vs, ts = us ++ vs ∧ mergeStars us = as ∧ mergeStars vs = bs := by
  induction ts generalizing as with
  | nil =>
    obtain ⟨rfl, rfl⟩ := List.nil_eq_append_iff.mp h
    exact ⟨[], [], rfl, rfl, rfl⟩
  | cons t ts ih =>
    cases as with
    | nil => exact ⟨[], t :: ts, rfl, rfl, h⟩
    | cons a as =>
      rw [mergeStars_cons] at h
      cases hm : mergeStars ts with
      | nil =>
        rw [hm, push, List.cons_append] at h
        obtain ⟨rfl, hrest⟩ := List.cons.inj h
        obtain ⟨rfl, rfl⟩ := List.nil_eq_append_iff.mp hrest
        exact ⟨[t], ts, rfl, rfl, hm⟩
      | cons u us =>
        rw [hm, push, List.cons_append] at h
        split at h
        · next stars =>
          -- the first group goes on, so the cut is behind its next star, too
          obtain ⟨rfl, rfl⟩ := List.cons.inj h
          have cut : mergeStars ts = (u :: as) ++ bs := hm
          obtain ⟨vs, ws, rfl, hv, hw⟩ := ih cut
          exact ⟨t :: vs, ws, rfl, by rw [mergeStars_cons, hv, push, if_pos stars], hw⟩
        · next apart =>
          obtain ⟨rfl, hrest⟩ := List.cons.inj h
          have cut : mergeStars ts = as ++ bs := hm.trans hrest
          obtain ⟨vs, ws, rfl, hv, hw⟩ := ih cut
          refine ⟨t :: vs, ws, rfl, ?_, hw⟩
          rw [mergeStars_cons, hv]
          cases as with
          | nil => rfl
          | cons a as =>
            obtain ⟨rfl, -⟩ := List.cons.inj hrest
            rw [push, if_neg apart]

/-- A merged list is cut where the list itself is, between two tokens that are not both stars. -/
theorem mergeStars_eq_append_iff {ts as bs : List Token} :
    mergeStars ts = as ++ bs ↔ ∃ us vs, ts = us ++ vs ∧
      (endsWithStar us → beginsWithStar vs = false) ∧ mergeStars us = as ∧ mergeStars vs = bs := by
  constructor
  · intro h
    obtain ⟨us, vs, rfl, rfl, rfl⟩ := exists_append_of_mergeStars h
    have apart := apart_of_mergeStars h
    rw [endsWithStar_mergeStars, beginsWithStar_mergeStars] at apart
    exact ⟨us, vs, rfl, apart, rfl, rfl⟩
  · rintro ⟨us, vs, rfl, apart, rfl, rfl⟩
    exact mergeStars_append apart

/-- Only a double star comes from more than one token. -/
theorem mergeStars_eq_singleton_iff {ts : List Token} {t : Token} (ht : t ≠ .doubleStar) :
    mergeStars ts = [t] ↔ ts = [t] := by
  constructor
  · intro h
    cases ts with
    | nil => cases h
    | cons u us =>
      rw [mergeStars_cons] at h
      cases hm : mergeStars us with
      | nil =>
        obtain rfl := mergeStars_eq_nil_iff.mp hm
        exact h
      | cons v vs =>
        rw [hm, push] at h
        split at h
        · exact absurd (List.cons.inj h).1.symm ht
        · cases (List.cons.inj h).2
  · rintro rfl
    rfl

/-- A token that is no double star comes first if it did before, and stood alone. -/
theorem mergeStars_eq_cons_iff {ts bs : List Token} {t : Token} (ht : t ≠ .doubleStar) :
    mergeStars ts = t :: bs ↔ ∃ vs, ts = t :: vs ∧ (t.kind.isStar → beginsWithStar vs = false) ∧
      mergeStars vs = bs := by
  rw [show t :: bs = [t] ++ bs from rfl, mergeStars_eq_append_iff]
  constructor
  · rintro ⟨us, vs, rfl, apart, hu, hv⟩
    obtain rfl := (mergeStars_eq_singleton_iff ht).mp hu
    exact ⟨vs, rfl, apart, hv⟩
  · rintro ⟨vs, rfl, apart, hv⟩
    exact ⟨[t], vs, rfl, apart, rfl, hv⟩

/-- Of two tokens that clash one is a single star, and the other one is a `?`, or a `+` behind it. -/
theorem of_clashes {t u : Token} (h : t.kind.clashes u.kind) :
    t = .star ∧ (u = .question ∨ u = .plus) ∨ t = .question ∧ u = .star := by
  cases t <;> cases u <;> simp_all [kind, Kind.clashes]

/-- Two neighbours that clash after merging have been neighbours before, and the star among them has
    met no other. -/
theorem exists_mergeStars_eq_iff {ts : List Token} {t u : Token}
    (clash : t.kind.clashes u.kind) :
    (∃ as bs, mergeStars ts = as ++ t :: u :: bs) ↔
      ∃ us vs, ts = us ++ t :: u :: vs ∧ (endsWithStar us → t.kind.isStar = false) ∧
        (u.kind.isStar → beginsWithStar vs = false) := by
  have ht : t ≠ .doubleStar := by rcases of_clashes clash with ⟨rfl, -⟩ | ⟨rfl, -⟩ <;> nofun
  have hu : u ≠ .doubleStar := by
    rcases of_clashes clash with ⟨-, rfl | rfl⟩ | ⟨-, rfl⟩ <;> nofun
  have meet : t.kind.isStar → u.kind.isStar = false := by
    rcases of_clashes clash with ⟨-, rfl | rfl⟩ | ⟨rfl, -⟩
    · exact fun _ => rfl
    · exact fun _ => rfl
    · exact nofun
  constructor
  · rintro ⟨as, bs, h⟩
    obtain ⟨us, rest, rfl, left, -, hrest⟩ := mergeStars_eq_append_iff.mp h
    obtain ⟨rest, rfl, -, hrest⟩ := (mergeStars_eq_cons_iff ht).mp hrest
    obtain ⟨vs, rfl, right, -⟩ := (mergeStars_eq_cons_iff hu).mp hrest
    exact ⟨us, vs, rfl, left, right⟩
  · rintro ⟨us, vs, rfl, left, right⟩
    refine ⟨mergeStars us, mergeStars vs, ?_⟩
    have hrest := (mergeStars_eq_cons_iff hu).mpr ⟨vs, rfl, right, rfl⟩
    have hrest := (mergeStars_eq_cons_iff ht).mpr ⟨u :: vs, rfl, meet, hrest⟩
    exact mergeStars_eq_append_iff.mpr ⟨us, t :: u :: vs, rfl, left, rfl, hrest⟩

end Token

/-! ### Reading -/

/-- The context behind a slot. -/
def Context.behind (before : Context) : Slot → Context
  | .live .star => if before = .plain then .afterStar else .afterStars
  | .escape => .escaped
  | _ => .plain

namespace Slot

variable {separator : Option Char} {before : Context} {cs : List Char} {slots : List Slot}

/-- The context behind a character is the one behind its slot. -/
theorem next_eq_behind (separator : Option Char) (before : Context) (c : Char)
    (after : Option Char) :
    before.next separator c = before.behind (classify separator before c after) := by
  simp only [Context.next, classify]
  grind [Context.behind]

/-- What is read behind a slot is read in the context behind it. -/
theorem exists_read_of_cons {x : Slot} (h : read separator before cs = x :: slots) :
    ∃ ds, slots = read separator (before.behind x) ds := by
  cases cs with
  | nil => cases h
  | cons c cs =>
    obtain ⟨rfl, rfl⟩ := List.cons.inj h
    exact ⟨cs, by rw [← next_eq_behind]⟩

/-- What is read behind some slots is read in the context that they lead to. -/
theorem exists_read_of_append {front : List Slot} (h : read separator before cs = front ++ slots) :
    ∃ ds, slots = read separator (front.foldl Context.behind before) ds := by
  induction front generalizing before cs with
  | nil => exact ⟨cs, h.symm⟩
  | cons x front ih =>
    obtain ⟨ds, hd⟩ := exists_read_of_cons h
    exact ih hd.symm

/-- The character behind an escape stands for itself. -/
theorem of_read_escaped {x : Slot} (h : read separator .escaped cs = x :: slots) :
    ∃ t, x = .live t ∧ t.isWildcard = false := by
  cases cs with
  | nil => cases h
  | cons c cs =>
    obtain ⟨rfl, -⟩ := List.cons.inj h
    rw [classify]
    split
    · exact ⟨_, rfl, rfl⟩
    · exact ⟨_, rfl, rfl⟩

/-- Where no star stands before, a token is dropped only if a star comes next. -/
theorem of_read_dropped (h : read separator .plain cs = .dropped :: slots) :
    ∃ rest, slots = .live .star :: rest := by
  cases cs with
  | nil => cases h
  | cons c cs =>
    obtain ⟨hc, rfl⟩ := List.cons.inj h
    have after : cs.head? = some '*' ∧ separator ≠ some '*' := by
      rw [classify] at hc
      grind
    obtain ⟨ds, rfl⟩ := List.head?_eq_some_iff.mp after.1
    rw [next_eq_behind, hc]
    refine ⟨_, congrArg (· :: _) ?_⟩
    simp [classify, Context.behind, after.2, escapeChar]

/-- Behind a single star, no `?` and no `+` is live. -/
theorem of_read_afterStar {t : Token} (h : read separator .afterStar cs = .live t :: slots) :
    t ≠ .question ∧ t ≠ .plus := by
  cases cs with
  | nil => cases h
  | cons c cs =>
    obtain ⟨hc, -⟩ := List.cons.inj h
    rw [classify] at hc
    constructor <;> rintro rfl <;> grind

/-- No star comes directly behind a live `?`. -/
theorem of_read_question (h : read separator before cs = .live .question :: slots) :
    ∀ rest, slots ≠ .live .star :: rest := by
  rintro rest rfl
  cases cs with
  | nil => cases h
  | cons c cs =>
    obtain ⟨hc, hcs⟩ := List.cons.inj h
    have after : ¬(cs.head? = some '*' ∧ separator ≠ some '*') := by
      rw [classify] at hc
      grind
    rw [next_eq_behind, hc] at hcs
    cases cs with
    | nil => cases hcs
    | cons d cs =>
      obtain ⟨hd, -⟩ := List.cons.inj hcs
      rw [classify] at hd
      grind [Context.behind]

/-! ### Slots without a token -/

/-- The slots of a list that have none of the tokens. -/
def AllDead (dead : List Slot) : Prop := ∀ x ∈ dead, x.token? = none

/-- A list of tokens with two neighbours comes from slots with none of the tokens between them. -/
theorem exists_of_filterMap_token? {us vs : List Token} {t u : Token}
    (h : slots.filterMap token? = us ++ t :: u :: vs) :
    ∃ front dead back, slots = front ++ .live t :: (dead ++ .live u :: back) ∧ AllDead dead ∧
      front.filterMap token? = us ∧ back.filterMap token? = vs := by
  have eq_live : ∀ {x : Slot} {v : Token}, x.token? = some v → x = .live v := by
    rintro (w | _ | _) v hv
    · exact congrArg live (Option.some.inj hv)
    · cases hv
    · cases hv
  obtain ⟨front, rest, rfl, rfl, hrest⟩ := List.filterMap_eq_append_iff.mp h
  obtain ⟨skipped, x, rest, rfl, hskipped, hx, hrest⟩ := List.filterMap_eq_cons_iff.mp hrest
  obtain ⟨dead, y, back, rfl, hdead, hy, hback⟩ := List.filterMap_eq_cons_iff.mp hrest
  rw [eq_live hx, eq_live hy]
  refine ⟨front ++ skipped, dead, back, (List.append_assoc _ _ _).symm, hdead, ?_, hback⟩
  rw [List.filterMap_append, List.filterMap_eq_nil_iff.mpr hskipped, List.append_nil]

/-- No wildcard comes next behind an escape, whatever is left out. -/
theorem not_read_escaped {dead : List Slot} (hdead : AllDead dead) {t : Token} (ht : t.isWildcard) :
    read separator .escaped cs ≠ dead ++ .live t :: slots := by
  intro h
  cases dead with
  | nil =>
    obtain ⟨u, hu, plain⟩ := of_read_escaped h
    obtain rfl := live.inj hu
    rw [ht] at plain
    cases plain
  | cons x dead =>
    obtain ⟨u, rfl, -⟩ := of_read_escaped h
    cases hdead _ List.mem_cons_self

/-- Where no star stands before, nothing is left out before a wildcard but one token, and that
    before a star. -/
theorem dead_of_read_plain {dead : List Slot} (hdead : AllDead dead) {t : Token}
    (ht : t.isWildcard) (h : read separator .plain cs = dead ++ .live t :: slots) :
    dead = [] ∨ dead = [.dropped] ∧ t = .star := by
  cases dead with
  | nil => exact Or.inl rfl
  | cons x dead =>
    obtain ⟨hx, hrest⟩ := List.forall_mem_cons.mp hdead
    cases x with
    | live u => cases hx
    | escape =>
      obtain ⟨ds, hd⟩ := exists_read_of_cons h
      exact absurd hd.symm (not_read_escaped hrest ht)
    | dropped =>
      obtain ⟨rest, hr⟩ := of_read_dropped h
      cases dead with
      | nil => exact Or.inr ⟨rfl, live.inj (List.cons.inj hr).1⟩
      | cons y dead =>
        obtain ⟨rfl, -⟩ := List.cons.inj hr
        cases hrest _ List.mem_cons_self

/-- Behind a single star, one token is left out before a `?` or a `+`. -/
theorem dead_of_read_afterStar {dead : List Slot} (hdead : AllDead dead) {t : Token}
    (ht : t = .question ∨ t = .plus)
    (h : read separator .afterStar cs = dead ++ .live t :: slots) : dead = [.dropped] := by
  have wild : t.isWildcard := by rcases ht with rfl | rfl <;> rfl
  cases dead with
  | nil =>
    obtain ⟨question, plus⟩ := of_read_afterStar h
    exact absurd ht (not_or.mpr ⟨question, plus⟩)
  | cons x dead =>
    obtain ⟨hx, hrest⟩ := List.forall_mem_cons.mp hdead
    obtain ⟨ds, hd⟩ := exists_read_of_cons h
    cases x with
    | live u => cases hx
    | escape => exact absurd hd.symm (not_read_escaped hrest wild)
    | dropped =>
      rcases dead_of_read_plain hrest wild hd.symm with rfl | ⟨-, rfl⟩
      · rfl
      · rcases ht with ht | ht <;> cases ht

/-- Where the tokens before end with no star, the context tells of none. -/
theorem behind_of_not_endsWithStar {front : List Slot}
    (h : Token.endsWithStar (front.filterMap token?) = false) :
    front.foldl Context.behind .plain = .plain ∨ front.foldl Context.behind .plain = .escaped := by
  rcases List.eq_nil_or_concat front with rfl | ⟨front, x, rfl⟩
  · exact Or.inl rfl
  · rw [List.concat_eq_append, List.filterMap_append] at h
    rw [List.concat_eq_append, List.foldl_append, List.foldl_cons, List.foldl_nil]
    cases x with
    | live t =>
      cases t with
      | star => simp [Token.endsWithStar, token?, Token.kind, Kind.isStar] at h
      | _ => exact Or.inl rfl
    | escape => exact Or.inr rfl
    | dropped => exact Or.inl rfl

/-- Two tokens that clash are next to each other over one dropped slot only, if the star among them
    is single. -/
theorem dead_of_clashes {t u : Token} (clash : t.kind.clashes u.kind) {front dead back : List Slot}
    (hdead : AllDead dead)
    (h : read separator .plain cs = front ++ .live t :: (dead ++ .live u :: back))
    (single : Token.endsWithStar (front.filterMap token?) → t.kind.isStar = false) :
    dead = [.dropped] := by
  obtain ⟨ds, hd⟩ := exists_read_of_append h
  obtain ⟨es, he⟩ := exists_read_of_cons hd.symm
  rcases Token.of_clashes clash with ⟨rfl, hu⟩ | ⟨rfl, rfl⟩
  · have apart : Token.endsWithStar (front.filterMap token?) = false :=
      Bool.eq_false_iff.mpr fun hs => by cases single hs
    rcases behind_of_not_endsWithStar apart with hplain | hescaped
    · rw [hplain] at he
      exact dead_of_read_afterStar hdead hu he.symm
    · rw [hescaped] at hd
      obtain ⟨v, hv, plain⟩ := of_read_escaped hd.symm
      obtain rfl := live.inj hv
      cases plain
  · rcases dead_of_read_plain hdead rfl he.symm with rfl | ⟨rfl, -⟩
    · exact absurd rfl (of_read_question hd.symm back)
    · rfl

/-- Two tokens that clash, with one dropped slot between them, and the star among them not next to
    another one, whatever is left out. -/
def Rejoins (slots : List Slot) : Prop :=
  ∃ front t u back, slots = front ++ .live t :: .dropped :: .live u :: back ∧
    t.kind.clashes u.kind ∧ (Token.endsWithStar (front.filterMap token?) → t.kind.isStar = false) ∧
    (u.kind.isStar → Token.beginsWithStar (back.filterMap token?) = false)

end Slot

namespace Pattern

theorem settled_kinds_iff (p : Pattern) :
    Settled p.kinds ↔ p.tokens.IsChain fun t u => t.kind.clashes u.kind = false := by
  have last : ∀ k : Kind, k.clashes .endOfPattern = false := by
    intro k
    cases k <;> rfl
  rw [Settled, kinds, List.isChain_append, List.isChain_map]
  simp [last]

/-- No `?` is left next to a single star, and no `+` behind one, but where one dropped character
    stands between them in the text. -/
theorem settled_iff (text : String) (separator : Option Char) :
    Settled (compile text separator).kinds ↔ ¬Slot.Rejoins (Slot.ofText separator text) := by
  rw [settled_kinds_iff, List.isChain_iff_forall_rel_of_append_cons_cons, tokens_compile]
  constructor
  · rintro settled ⟨front, t, u, back, hs, clash, left, right⟩
    have met : (Slot.ofText separator text).filterMap Slot.token? =
        front.filterMap Slot.token? ++ t :: u :: back.filterMap Slot.token? := by
      rw [hs, List.filterMap_append]
      rfl
    obtain ⟨as, bs, h⟩ := (Token.exists_mergeStars_eq_iff clash).mpr ⟨_, _, met, left, right⟩
    rw [settled h] at clash
    cases clash
  · intro apart t u as bs h
    by_contra clash
    rw [Bool.not_eq_false] at clash
    obtain ⟨us, vs, met, left, right⟩ := (Token.exists_mergeStars_eq_iff clash).mp ⟨as, bs, h⟩
    obtain ⟨front, dead, back, hs, hdead, rfl, rfl⟩ := Slot.exists_of_filterMap_token? met
    obtain rfl := Slot.dead_of_clashes clash hdead hs left
    exact apart ⟨front, t, u, back, hs, clash, left, right⟩

/-- What is left of two `?` or `+` next to a star stands next to the star, on either side. -/
theorem not_settled_of_two_questions :
    ¬Settled (compile "*??" (some '/')).kinds ∧ ¬Settled (compile "??*" (some '/')).kinds ∧
      ¬Settled (compile "*?+" (some '/')).kinds := by
  decide

end Pattern

end Wildcard
