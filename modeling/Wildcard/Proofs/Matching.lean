import Wildcard.Matching
import Wildcard.Proofs.Compiling
import Wildcard.Proofs.Record

/-! What a pattern answers, told by the route of its search.

    A pattern matches where its search has a route, and the mask is what the strides of that route
    mark. A pattern without wildcards never searches, but its search would have said the same.

        isMatch, mask?  ──▶  search  ──▶  route p text  =  strides of the way that succeeds -/

namespace Wildcard

open Subject (ofChars)

/-! ### Patterns without wildcards -/

/-- A token that stands for itself takes its own character only. -/
theorem Leg.move_plain {s : Subject} {before : Option Kind} {t : Token} (ts : List Token) {i : ℕ}
    {c : Char} (ht : t.isWildcard = false) :
    (facing s before t ts).move s i c =
      if c = t.symbol then
        if t.kind = .separator ∧ before.any Kind.isStar then .trail else .pass
      else .stuck := by
  cases t with
  | literal d => simp [move, facing, Token.symbol, Token.kind]
  | separator d =>
    by_cases hb : before.any Kind.isStar <;> simp [move, facing, Token.symbol, Token.kind, hb]
  | _ => cases ht

namespace Search

/-- Whatever stands before it, a token that stands for itself goes one way. -/
theorem route_cons_plain {s : Subject} {i : ℕ} {c : Char} (hc : s.chars[i]? = some c)
    (before : Option Kind) {t : Token} (ht : t.isWildcard = false) (ts : List Token) :
    route s before (t :: ts) i =
      if c = t.symbol then (route s (some t.kind) ts (i + 1)).prepend [⟨t, i, i + 1⟩]
      else .failed := by
  rw [route_cons hc, Leg.move_plain ts ht]
  by_cases he : c = t.symbol
  · by_cases hb : t.kind = .separator ∧ before.any Kind.isStar
    · rw [if_pos he, if_pos he, if_pos hb]
    · rw [if_pos he, if_pos he, if_neg hb]
  · rw [if_neg he, if_neg he]

/-- Tokens that stand for themselves fit where the text goes on with their characters to the end. -/
theorem isMatched_route_plain {separator : Option Char} {cs : Array Char} (before : Option Kind)
    {ts : List Token} (plain : ∀ t ∈ ts, t.isWildcard = false) {i : ℕ} (hi : i ≤ cs.size) :
    (route (ofChars separator cs) before ts i).isMatched ↔
      ts.map Token.symbol = cs.toList.drop i := by
  have hsize : (ofChars separator cs).size = cs.size := rfl
  induction ts generalizing before i with
  | nil =>
    rcases hi.eq_or_lt with rfl | hlt
    · rw [route_of_size_le hsize.le, List.drop_eq_nil_of_le Array.length_toList.le]
      simp [Outcome.isMatched]
    · rw [route_nil (hsize ▸ hlt), List.drop_eq_getElem_cons (Array.length_toList ▸ hlt)]
      simp [Outcome.isMatched]
  | cons t ts ih =>
    obtain ⟨ht, hts⟩ := List.forall_mem_cons.mp plain
    rcases hi.eq_or_lt with rfl | hlt
    · have hn : t.kind.isNullable = false := by cases t <;> simp_all [Token.isWildcard] <;> rfl
      rw [route_of_size_le hsize.le, List.drop_eq_nil_of_le Array.length_toList.le]
      simp [Outcome.isMatched, hn]
    · have hc : (ofChars separator cs).chars[i]? = some cs[i] := Array.getElem?_eq_getElem hlt
      have hd : cs.toList.drop i = cs[i] :: cs.toList.drop (i + 1) :=
        List.drop_eq_getElem_cons (Array.length_toList ▸ hlt)
      rw [route_cons_plain hc before ht, hd, List.map_cons, List.cons_eq_cons,
        ← show _ ↔ _ = cs.toList.drop (i + 1) from ih (some t.kind) hts hlt]
      by_cases he : cs[i] = t.symbol
      · rw [if_pos he, Outcome.isMatched_prepend]
        simp [he]
      · rw [if_neg he]
        simp [Outcome.isMatched, Ne.symm he]

end Search

/-! ### The strides of a course -/

theorem Stride.map_token_spell (i : ℕ) (run : List Char) :
    (spell i run).map token = run.map .literal := by
  induction run generalizing i with
  | nil => rfl
  | cons c run ih => rw [spell, List.map_cons, ih, List.map_cons]

/-- There is one stride for each token. -/
theorem Course.map_token {s : Subject} {ts : List Token} {i : ℕ} {path : List Stride}
    (h : Course s ts i path) : path.map Stride.token = ts := by
  induction h with
  | ended => exact List.map_map.trans (List.map_id _)
  | seek _ _ _ _ _ _ _ ih =>
    rw [List.map_cons, List.map_append, List.map_append, Stride.map_token_spell, ih, List.map_map]
    exact congrArg (_ :: · ++ _) (List.map_id _)
  | _ => rw [List.map_cons]; congr

/-- Strides of tokens that are no wildcards mark nothing by themselves. -/
theorem replay_plain {before : Option Kind} (hb : ¬before.any Kind.isStar) {path : List Stride}
    (h : ∀ q ∈ path, q.token.isWildcard = false) (M : Positions) : replay before path M = M := by
  induction path generalizing before with
  | nil => rfl
  | cons q path ih =>
    obtain ⟨hq, hpath⟩ := List.forall_mem_cons.mp h
    have hs : ¬(some q.token.kind).any Kind.isStar := by
      revert hq
      cases q.token <;> simp [Token.isWildcard, Token.kind, Kind.isStar]
    have hm : q.mark before M = M := by
      rw [Stride.mark, if_neg (by simp [hq]), if_neg (by simp [hb])]
    rw [replay, hm, ih hs hpath]

/-! ### The answers of a pattern -/

namespace Pattern

/-- The way the search of a pattern goes through a text. -/
def route (p : Pattern) (text : String) : Outcome :=
  Search.route (ofChars p.separator text.toList.toArray) none p.tokens 0

/-- The strides of a successful way go a course that begins with the text. -/
theorem course_of_route {p : Pattern} {text : String} {path : List Stride}
    (h : p.route text = .matched path) :
    Course (ofChars p.separator text.toList.toArray) p.tokens 0 path :=
  Search.course_of_route none h (Nat.zero_le _)

theorem spells_eq_isMatched {p : Pattern} (hp : p.isLiteral) (text : String) :
    p.spells text = (p.route text).isMatched := by
  rw [Bool.eq_iff_iff, route,
    Search.isMatched_route_plain none (isLiteral_iff.mp hp) (Nat.zero_le _), spells]
  simp

/-- Whatever a search records, it ends like its route. -/
theorem follows_search {μ : Type} [Recorder μ] {R : Positions → μ → Prop}
    (hR : Recorder.Tracks R) (p : Pattern) (text : String) {m : μ} (hm : R (fun _ => false) m) :
    Search.Follows R (ofChars p.separator text.toList.toArray) none p.tokens 0 (fun _ => false)
      (search p.separator p.tokens text.toList.toArray m) (p.route text) :=
  Search.follows_run hR none (Nat.zero_le _) hm fun _ h => by cases h

/-- A pattern matches just when its search has a route. -/
theorem isMatch_eq (p : Pattern) (text : String) : p.isMatch text = (p.route text).isMatched := by
  rw [isMatch]
  split
  · next hp => exact spells_eq_isMatched hp text
  · exact (follows_search (μ := Unit) Recorder.tracks_true p text trivial).isMatched_eq

/-- The mask is what the strides of the route mark. -/
theorem mask?_eq (p : Pattern) (text : String) :
    p.mask? text = (p.route text).path?.map fun path =>
      String.ofList (pick (replay none path fun _ => false) text.toList) := by
  rw [mask?]
  split
  · next hp =>
    rw [spells_eq_isMatched hp]
    cases hr : p.route text with
    | matched path =>
      have plain : ∀ q ∈ path, q.token.isWildcard = false := fun q hq =>
        isLiteral_iff.mp hp _ ((course_of_route hr).map_token ▸ List.mem_map_of_mem hq)
      simp [Outcome.isMatched, Outcome.path?, replay_plain _ plain, pick_of_forall_not]
    | failed => rfl
    | exhausted => rfl
  · have hf := follows_search Spans.tracks p text ⟨Spans.ordered_empty, rfl⟩
    dsimp only
    revert hf
    generalize search p.separator p.tokens text.toList.toArray Spans.empty = v
    generalize p.route text = o
    intro hf
    cases hf with
    | matched h =>
      simp only [Outcome.path?, Option.map_some, Spans.charsOf_eq_pick h.1, h.2]
    | failed => rfl
    | exhausted => rfl

/-- A pattern has a mask of every text that it matches, and of no other. -/
theorem isSome_mask? (p : Pattern) (text : String) : (p.mask? text).isSome = p.isMatch text := by
  rw [mask?_eq, isMatch_eq]
  cases p.route text <;> rfl

end Pattern

end Wildcard
