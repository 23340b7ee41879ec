import Wildcard.Proofs.Matching

/-! The language of a pattern.

    `Fits` says what it means that tokens match a text from a position on, with every choice of a
    star open. A search leaves only one star a choice at a time, and gives a choice up for good
    when a later star has found its run. It finds a way all the same as long as no wildcard that
    takes one character follows a star, and as long as a star across segments comes to rest on a
    literal and leaves no star that seeks within a segment behind it:

        failed      the tokens do not fit at i
        exhausted   the tokens do not fit at i, nor at any later place that a star could go to -/

namespace Wildcard

open Subject (ofChars)

/-- Whether tokens match a text from a position on to the end. A single star stays within its
    segment, and a `?` behind no other `?` leaves its character to a literal behind it. -/
def Fits (separator : Option Char) (cs : Array Char) : Option Kind → List Token → ℕ → Prop
  | _, [], i => i = cs.size
  | _, .literal c :: ts, i => cs[i]? = some c ∧ Fits separator cs (some .literal) ts (i + 1)
  | _, .separator _ :: ts, i =>
    (∃ c, cs[i]? = some c ∧ separator = some c) ∧ Fits separator cs (some .separator) ts (i + 1)
  | _, .plus :: ts, i =>
    (∃ c, cs[i]? = some c ∧ separator ≠ some c) ∧ Fits separator cs (some .plus) ts (i + 1)
  | before, .question :: ts, i =>
    ∃ c, cs[i]? = some c ∧
      if before ≠ some .question ∧ ts.head? = some (.literal c) then
        Fits separator cs (some .question) ts i
      else separator ≠ some c ∧ Fits separator cs (some .question) ts (i + 1)
  | _, .star :: ts, i =>
    ∃ j, i ≤ j ∧ j ≤ cs.size ∧ (∀ k, i ≤ k → k < j → cs[k]? ≠ separator) ∧
      Fits separator cs (some .star) ts j
  | _, .doubleStar :: ts, i =>
    ∃ j, i ≤ j ∧ j ≤ cs.size ∧ Fits separator cs (some .doubleStar) ts j

/-- Which kinds may follow each other, for one choice at a time to be enough. -/
structure Orderly (separator : Option Char) (kinds : List Kind) : Prop where
  /-- No wildcard that takes one character comes right behind a star. -/
  apart : kinds.IsChain fun k l => k.isStar → l ≠ .question ∧ l ≠ .plus
  /-- A star across segments has a literal behind it, or nothing. -/
  anchored : separator.isSome →
    kinds.IsChain fun k l => k = .doubleStar → l = .literal ∨ l = .endOfPattern
  /-- Behind a star across segments no single star seeks a literal. -/
  settled : separator.isSome → ¬[.star, .literal] <:+: kinds.dropWhile (· ≠ .doubleStar)

theorem Orderly.tail {separator : Option Char} {k : Kind} {kinds : List Kind}
    (h : Orderly separator (k :: kinds)) : Orderly separator kinds where
  apart := h.apart.of_cons
  anchored hs := (h.anchored hs).of_cons
  settled hs hin := by
    refine h.settled hs ?_
    by_cases hk : k = .doubleStar
    · rw [List.dropWhile_cons_of_neg (by simp [hk])]
      exact (hin.trans (List.dropWhile_suffix _).isInfix).trans (List.suffix_cons _ _).isInfix
    · rwa [List.dropWhile_cons_of_pos (by simp [hk])]

theorem Orderly.of_append {separator : Option Char} {ks ls : List Kind}
    (h : Orderly separator (ks ++ ls)) : Orderly separator ls := by
  induction ks with
  | nil => exact h
  | cons k ks ih => exact ih h.tail

/-! ### Segments -/

namespace Subject

variable {separator : Option Char} {cs : Array Char} {i j : ℕ} {c : Char}

theorem segmentStop_of_ne (hc : cs[i]? = some c) (hs : separator ≠ some c) :
    (ofChars separator cs).segmentStop i = (ofChars separator cs).segmentStop (i + 1) := by
  rw [segmentStop_of_lt (Array.getElem?_eq_some_iff.mp hc).1, hc, if_neg (Ne.symm hs)]

theorem segmentStop_of_eq (hc : cs[i]? = some c) (hs : separator = some c) :
    (ofChars separator cs).segmentStop i = i := by
  rw [segmentStop_of_lt (Array.getElem?_eq_some_iff.mp hc).1, hc, if_pos hs.symm]

/-- A stretch without separators ends within the segment. -/
theorem clear_iff (hi : i ≤ cs.size) :
    (j ≤ cs.size ∧ ∀ k, i ≤ k → k < j → cs[k]? ≠ separator) ↔
      j ≤ (ofChars separator cs).segmentStop i := by
  have h := endsSegment separator hi
  constructor
  · rintro ⟨hj, hclear⟩
    by_contra hlt
    exact hclear _ h.le (Nat.lt_of_not_le hlt) (h.eq_separator (by omega))
  · exact fun hj => ⟨hj.trans h.le_size, fun k hk hlt => h.ne_separator k hk (by omega)⟩

/-- Without a separator there is one segment. -/
theorem segmentStop_none (hi : i ≤ cs.size) : (ofChars none cs).segmentStop i = cs.size := by
  have h := endsSegment none hi
  refine h.le_size.antisymm (Nat.le_of_not_lt fun hlt => ?_)
  have := h.eq_separator hlt
  rw [Array.getElem?_eq_none_iff] at this
  omega

/-- A run without separators ends within the segment. -/
theorem occursAt_le_segmentStop {run : List Char} (hr : ∀ d ∈ run, separator ≠ some d)
    (hi : i ≤ cs.size) (h : occursAt cs run i) :
    i + run.length ≤ (ofChars separator cs).segmentStop i := by
  induction run generalizing i with
  | nil => exact (endsSegment separator hi).le
  | cons d run ih =>
    rw [occursAt, Bool.and_eq_true, decide_eq_true_eq] at h
    obtain ⟨hd, hrun⟩ := List.forall_mem_cons.mp hr
    have := ih (i := i + 1) hrun (Array.getElem?_eq_some_iff.mp h.1).1 h.2
    rw [segmentStop_of_ne h.1 hd, List.length_cons]
    omega

end Subject

/-! ### What fits -/

section

variable {separator : Option Char} {cs : Array Char} {before : Option Kind} {t : Token}
  {ts : List Token} {i j : ℕ}

/-- At the end of a text fit the tokens that may all stand for nothing. -/
theorem fits_size_iff :
    Fits separator cs before ts cs.size ↔ ∀ t ∈ ts, t.kind.isNullable := by
  induction ts generalizing before with
  | nil => simp [Fits]
  | cons t ts ih =>
    rw [List.forall_mem_cons]
    cases t with
    | star =>
      rw [← @ih (some .star)]
      constructor
      · rintro ⟨j, hij, hj, -, h⟩
        exact ⟨rfl, Nat.le_antisymm hj hij ▸ h⟩
      · rintro ⟨-, h⟩
        exact ⟨cs.size, le_rfl, le_rfl, fun k _ _ => by omega, h⟩
    | doubleStar =>
      rw [← @ih (some .doubleStar)]
      constructor
      · rintro ⟨j, hij, hj, h⟩
        exact ⟨rfl, Nat.le_antisymm hj hij ▸ h⟩
      · rintro ⟨-, h⟩
        exact ⟨cs.size, le_rfl, le_rfl, h⟩
    | _ => simp [Fits, Token.kind, Kind.isNullable]

/-- A star that stays in its segment goes to some place in it. -/
theorem fits_star_iff (ht : t.kind.isStar) (hs : t = .star ∨ separator = none)
    (hi : i ≤ cs.size) :
    Fits separator cs before (t :: ts) i ↔
      ∃ j, i ≤ j ∧ j ≤ (ofChars separator cs).segmentStop i ∧
        Fits separator cs (some t.kind) ts j := by
  have hc := fun j => @Subject.clear_iff separator cs i j hi
  cases t with
  | star =>
    refine exists_congr fun j => and_congr_right fun _ => ?_
    rw [← hc, and_assoc]
    rfl
  | doubleStar =>
    obtain rfl := hs.resolve_left nofun
    refine exists_congr fun j => and_congr_right fun _ => ?_
    have clear : j ≤ cs.size → ∀ k, i ≤ k → k < j → cs[k]? ≠ none := fun hj k _ hk hn => by
      rw [Array.getElem?_eq_none_iff] at hn
      omega
    rw [← hc, and_iff_left_of_imp clear]
    rfl
  | _ => cases ht

/-- A run fits where it occurs, if the rest fits behind it. -/
theorem fits_run {run : List Char} (hr : run ≠ []) :
    Fits separator cs before (run.map .literal ++ ts) i ↔
      Subject.occursAt cs run i ∧ Fits separator cs (some .literal) ts (i + run.length) := by
  induction run generalizing before i with
  | nil => exact absurd rfl hr
  | cons c run ih =>
    have hl : i + (c :: run).length = i + 1 + run.length := by rw [List.length_cons]; omega
    rw [List.map_cons, List.cons_append, Fits, Subject.occursAt, Bool.and_eq_true,
      decide_eq_true_eq, and_assoc, hl]
    refine and_congr_right fun _ => ?_
    cases run with
    | nil => simp [Subject.occursAt]
    | cons d run => exact ih (List.cons_ne_nil _ _)

/-- Behind a star that jumps fits nothing but the end of the segment. -/
theorem segmentStop_eq_of_fits (h : Fits separator cs before ts i)
    (hts : ts = [] ∨ ∃ c us, ts = .separator c :: us) :
    (ofChars separator cs).segmentStop i = i := by
  rcases hts with rfl | ⟨c, us, rfl⟩
  · obtain rfl : i = cs.size := h
    exact Subject.segmentStop_of_size_le le_rfl
  · obtain ⟨⟨d, hc, hs⟩, -⟩ := h
    exact Subject.segmentStop_of_eq hc hs

end

/-! ### Searching for what fits -/

namespace Search

/-- How far the failure of a search tells about later places: to the end of the segment, and to the
    end of the text if no star ahead seeks within a segment. -/
def Reaches (s : Subject) (ts : List Token) (i j : ℕ) : Prop :=
  s.segmentStop j = s.segmentStop i ∨ ¬[.star, .literal] <:+: ts.map Token.kind

/-- The outcome of a search says what fits. -/
def Agrees (separator : Option Char) (cs : Array Char) (before : Option Kind) (ts : List Token)
    (i : ℕ) : Outcome → Prop
  | .matched _ => Fits separator cs before ts i
  | .failed => ¬Fits separator cs before ts i
  | .exhausted => ∀ j, i ≤ j → j ≤ cs.size → Reaches (ofChars separator cs) ts i j →
    ¬Fits separator cs before ts j

section

variable {separator : Option Char} {cs : Array Char} {before : Option Kind} {t : Token}
  {ts : List Token} {i j : ℕ} {c : Char}

theorem Agrees.fits_iff {o : Outcome} (h : Agrees separator cs before ts i o) (hi : i ≤ cs.size) :
    o.isMatched ↔ Fits separator cs before ts i := by
  cases o with
  | matched path => exact iff_of_true rfl h
  | failed => exact iff_of_false nofun h
  | exhausted => exact iff_of_false nofun (h i le_rfl hi (Or.inl rfl))

/-- What a search tells of the tokens behind one it tells of this one as well, if the token leads
    from each place in reach to a place in reach. -/
theorem Agrees.cons {o : Outcome} (h : Agrees separator cs (some t.kind) ts j o) (q : Stride)
    (here : Fits separator cs before (t :: ts) i ↔ Fits separator cs (some t.kind) ts j)
    (later : ∀ k, i ≤ k → k ≤ cs.size → Reaches (ofChars separator cs) (t :: ts) i k →
      Fits separator cs before (t :: ts) k → ∃ l, j ≤ l ∧ l ≤ cs.size ∧
        Reaches (ofChars separator cs) ts j l ∧ Fits separator cs (some t.kind) ts l) :
    Agrees separator cs before (t :: ts) i (o.prepend [q]) := by
  cases o with
  | matched path => exact here.mpr h
  | failed => exact mt here.mp h
  | exhausted =>
    intro k hik hk hreach hfits
    obtain ⟨l, hjl, hl, hreach', hfits'⟩ := later k hik hk hreach hfits
    exact h l hjl hl hreach' hfits'

theorem Reaches.of_cons {s : Subject} {k l : ℕ} (h : Reaches s (t :: ts) i k)
    (hs : s.segmentStop k = s.segmentStop i → s.segmentStop l = s.segmentStop j) :
    Reaches s ts j l :=
  h.imp hs fun hn hin => hn (hin.trans (List.suffix_cons _ _).isInfix)

/-- One more character in each of two places, none of them a separator, and what reached reaches. -/
theorem Reaches.succ {k : ℕ} {d : Char} (h : Reaches (ofChars separator cs) (t :: ts) i k)
    (hc : cs[i]? = some c) (hs : separator ≠ some c) (hd : cs[k]? = some d)
    (hs' : separator ≠ some d) : Reaches (ofChars separator cs) ts (i + 1) (k + 1) :=
  h.of_cons fun he =>
    (Subject.segmentStop_of_ne hd hs').symm.trans (he.trans (Subject.segmentStop_of_ne hc hs))

variable {o : Outcome} (hc : cs[i]? = some c) (q : Stride)

include hc

theorem agrees_literal (h : Agrees separator cs (some .literal) ts (i + 1) o)
    (hs : separator ≠ some c) :
    Agrees separator cs before (.literal c :: ts) i (o.prepend [q]) := by
  refine h.cons q ⟨And.right, And.intro hc⟩ fun k hik hk hreach ⟨hd, hfits⟩ => ?_
  exact ⟨k + 1, Nat.succ_le_succ hik, (Array.getElem?_eq_some_iff.mp hd).1,
    hreach.succ hc hs hd hs, hfits⟩

theorem agrees_separator (h : Agrees separator cs (some .separator) ts (i + 1) o)
    (hs : separator = some c) :
    Agrees separator cs before (.separator c :: ts) i (o.prepend [q]) := by
  refine h.cons q ⟨And.right, And.intro ⟨c, hc, hs⟩⟩ fun k hik hk hreach ⟨⟨d, hd, hs'⟩, hfits⟩ => ?_
  refine ⟨k + 1, Nat.succ_le_succ hik, (Array.getElem?_eq_some_iff.mp hd).1,
    hreach.of_cons fun he => ?_, hfits⟩
  rw [Subject.segmentStop_of_eq hd hs', Subject.segmentStop_of_eq hc hs] at he
  rw [he]

theorem agrees_plus (h : Agrees separator cs (some .plus) ts (i + 1) o)
    (hs : separator ≠ some c) :
    Agrees separator cs before (.plus :: ts) i (o.prepend [q]) := by
  refine h.cons q ⟨And.right, And.intro ⟨c, hc, hs⟩⟩ fun k hik hk hreach ⟨⟨d, hd, hs'⟩, hfits⟩ => ?_
  exact ⟨k + 1, Nat.succ_le_succ hik, (Array.getElem?_eq_some_iff.mp hd).1,
    hreach.succ hc hs hd hs', hfits⟩

/-- A `?` that yields loses nothing: what could fit behind its character fits later on. -/
theorem agrees_yield (h : Agrees separator cs (some .question) ts i o)
    (hq : before ≠ some .question ∧ ts.head? = some (.literal c)) :
    Agrees separator cs before (.question :: ts) i (o.prepend [q]) := by
  refine h.cons q ?_ fun k hik hk hreach ⟨d, hd, hfits⟩ => ?_
  · constructor
    · rintro ⟨d, hd, hfits⟩
      obtain rfl : c = d := Option.some.inj (hc.symm.trans hd)
      rwa [if_pos hq] at hfits
    · exact fun hfits => ⟨c, hc, by rwa [if_pos hq]⟩
  · split at hfits
    · exact ⟨k, hik, hk, hreach.of_cons id, hfits⟩
    · exact ⟨k + 1, hik.trans (Nat.le_succ k), (Array.getElem?_eq_some_iff.mp hd).1,
        hreach.of_cons (Subject.segmentStop_of_ne hd hfits.1).symm.trans, hfits.2⟩

/-- A `?` that takes its character may yield further on, but then to a later place. -/
theorem agrees_question (h : Agrees separator cs (some .question) ts (i + 1) o)
    (hs : separator ≠ some c) (hq : ¬(before ≠ some .question ∧ ts.head? = some (.literal c))) :
    Agrees separator cs before (.question :: ts) i (o.prepend [q]) := by
  refine h.cons q ?_ fun k hik hk hreach ⟨d, hd, hfits⟩ => ?_
  · constructor
    · rintro ⟨d, hd, hfits⟩
      obtain rfl : c = d := Option.some.inj (hc.symm.trans hd)
      rw [if_neg hq] at hfits
      exact hfits.2
    · exact fun hfits => ⟨c, hc, by rw [if_neg hq]; exact ⟨hs, hfits⟩⟩
  · split at hfits
    · next hq' =>
      have hne : i ≠ k := by
        rintro rfl
        exact hq (Option.some.inj (hc.symm.trans hd) ▸ hq')
      exact ⟨k, by omega, hk, hreach.of_cons fun he => he.trans (Subject.segmentStop_of_ne hc hs),
        hfits⟩
    · exact ⟨k + 1, Nat.succ_le_succ hik, (Array.getElem?_eq_some_iff.mp hd).1,
        hreach.succ hc hs hd hfits.1, hfits.2⟩

omit hc

/-- A star that jumps leaves nothing to fit but the end of the segment. -/
theorem agrees_jump (h : Agrees separator cs (some t.kind) ts
      ((ofChars separator cs).segmentStop i) o) (ht : t.kind.isStar)
    (hs : t = .star ∨ separator = none) (hi : i ≤ cs.size)
    (hts : ts = [] ∨ ∃ c us, ts = .separator c :: us) :
    Agrees separator cs before (t :: ts) i (o.prepend [q]) := by
  have here : ∀ k ≤ cs.size, Fits separator cs before (t :: ts) k ↔
      Fits separator cs (some t.kind) ts ((ofChars separator cs).segmentStop k) := by
    intro k hk
    rw [fits_star_iff ht hs hk]
    constructor
    · rintro ⟨l, hkl, hl, hfits⟩
      rwa [← Subject.segmentStop_eq hkl hl, segmentStop_eq_of_fits hfits hts]
    · exact fun hfits => ⟨_, (Subject.endsSegment separator hk).le, le_rfl, hfits⟩
  refine h.cons q (here i hi) fun k hik hk hreach hfits => ?_
  have hstop := Subject.endsSegment separator hk
  exact ⟨_, Subject.segmentStop_mono hik hk, hstop.le_size,
    hreach.of_cons fun he => by rw [he], (here k hk).mp hfits⟩

/-- A star across segments with nothing behind it takes the rest of the text. -/
theorem agrees_rest (h : Agrees separator cs (some .doubleStar) [] cs.size o) (hi : i ≤ cs.size) :
    Agrees separator cs before [.doubleStar] i (o.prepend [q]) := by
  refine h.cons q (iff_of_true ⟨cs.size, hi, le_rfl, rfl⟩ rfl) fun k _ _ _ _ => ?_
  exact ⟨cs.size, le_rfl, le_rfl, Or.inl rfl, rfl⟩

/-- Where a star that seeks a run may go: it stays in its segment, or it goes anywhere and no star
    behind the run seeks within a segment. -/
def Seeks (separator : Option Char) (cs : Array Char) (t : Token) (ts : List Token)
    (i limit : ℕ) : Prop :=
  (t = .star ∨ separator = none) ∧ limit = (ofChars separator cs).segmentStop i ∨
    t = .doubleStar ∧ limit = cs.size ∧ ¬[.star, .literal] <:+: ts.map Token.kind

theorem Seeks.le_size {limit : ℕ} (hs : Seeks separator cs t ts i limit) (hi : i ≤ cs.size) :
    limit ≤ cs.size := by
  rcases hs with ⟨-, rfl⟩ | ⟨-, rfl, -⟩
  · exact (Subject.endsSegment separator hi).le_size
  · exact le_rfl

variable {run : List Char} {limit : ℕ} (ht : t.kind.isStar) (hr : run ≠ [])
  (hrun : ∀ d ∈ run, separator ≠ some d)

include ht hr hrun

/-- A star that seeks a run fits just where the rest fits behind an occurrence of the run. -/
theorem fits_seek_iff (hs : Seeks separator cs t ts i limit) (hi : i ≤ cs.size) :
    Fits separator cs before (t :: (run.map .literal ++ ts)) i ↔
      ∃ p ∈ sitesWithin cs run i limit, Fits separator cs (some .literal) ts (p + run.length) := by
  have hpos := List.length_pos_of_ne_nil hr
  rcases hs with ⟨hs, rfl⟩ | ⟨rfl, rfl, -⟩
  · rw [fits_star_iff ht hs hi]
    have hseg := Subject.endsSegment separator hi
    constructor
    · rintro ⟨p, hip, hp, hfits⟩
      obtain ⟨hocc, hfits⟩ := (fits_run hr).mp hfits
      have hle := Subject.occursAt_le_segmentStop hrun (hp.trans hseg.le_size) hocc
      rw [Subject.segmentStop_eq hip hp] at hle
      have := hseg.le_size
      exact ⟨p, mem_sitesWithin.mpr ⟨hip, by omega, hocc, hle⟩, hfits⟩
    · rintro ⟨p, hp, hfits⟩
      obtain ⟨hip, -, hocc, hle⟩ := mem_sitesWithin.mp hp
      exact ⟨p, hip, by omega, (fits_run hr).mpr ⟨hocc, hfits⟩⟩
  · constructor
    · rintro ⟨p, hip, hp, hfits⟩
      obtain ⟨hocc, hfits⟩ := (fits_run hr).mp hfits
      have hle := Subject.occursAt_le_segmentStop hrun hp hocc
      have := (Subject.endsSegment separator hp).le_size
      exact ⟨p, mem_sitesWithin.mpr ⟨hip, by omega, hocc, by omega⟩, hfits⟩
    · rintro ⟨p, hp, hfits⟩
      obtain ⟨hip, hlt, hocc, hle⟩ := mem_sitesWithin.mp hp
      exact ⟨p, hip, hlt.le, (fits_run hr).mpr ⟨hocc, hfits⟩⟩

/-- What fits at a later place in reach fits behind an occurrence that is tried. -/
theorem exists_site_of_fits (hs : Seeks separator cs t ts i limit) {k : ℕ} (hik : i ≤ k)
    (hk : k ≤ cs.size)
    (hreach : Reaches (ofChars separator cs) (t :: (run.map .literal ++ ts)) i k)
    (hfits : Fits separator cs before (t :: (run.map .literal ++ ts)) k) :
    ∃ p ∈ sitesWithin cs run i limit, Fits separator cs (some .literal) ts (p + run.length) := by
  have hs' : Seeks separator cs t ts k limit := by
    rcases hs with ⟨rfl | rfl, rfl⟩ | hs
    · refine Or.inl ⟨Or.inl rfl, (hreach.resolve_right fun hn => hn ?_).symm⟩
      obtain ⟨d, run, rfl⟩ := List.exists_cons_of_ne_nil hr
      exact (List.prefix_append [Kind.star, Kind.literal] _).isInfix
    · refine Or.inl ⟨Or.inr rfl, ?_⟩
      rw [Subject.segmentStop_none (hik.trans hk), Subject.segmentStop_none hk]
    · exact Or.inr hs
  obtain ⟨p, hp, hfits⟩ := (fits_seek_iff ht hr hrun hs' hk).mp hfits
  obtain ⟨hkp, hp⟩ := mem_sitesWithin.mp hp
  exact ⟨p, mem_sitesWithin.mpr ⟨hik.trans hkp, hp⟩, hfits⟩

omit ht hr hrun in
/-- From behind one occurrence the search reaches behind the others. -/
theorem reaches_sites (hs : Seeks separator cs t ts i limit) {p p' : ℕ}
    (hp : p ∈ sitesWithin cs run i limit) (hp' : p' ∈ sitesWithin cs run i limit) :
    Reaches (ofChars separator cs) ts (p + run.length) (p' + run.length) := by
  rcases hs with ⟨-, rfl⟩ | ⟨-, -, hn⟩
  · rw [mem_sitesWithin] at hp hp'
    left
    rw [Subject.segmentStop_eq (by omega) hp.2.2.2, Subject.segmentStop_eq (by omega) hp'.2.2.2]
  · exact Or.inr hn

/-- A star that seeks a run has tried enough, when what is behind the run could tell. -/
theorem agrees_seek (hs : Seeks separator cs t ts i limit) (hi : i ≤ cs.size)
    {go : ℕ → Outcome} (hgo : ∀ p ∈ sitesWithin cs run i limit,
      Agrees separator cs (some .literal) ts (p + run.length) (go p)) (strides : ℕ → List Stride) :
    Agrees separator cs before (t :: (run.map .literal ++ ts)) i
      (.firstOf (fun p => (go p).prepend (strides p)) false (sitesWithin cs run i limit)) := by
  have unfit : ∀ {p}, p ∈ sitesWithin cs run i limit → go p = .failed →
      ¬Fits separator cs (some .literal) ts (p + run.length) := fun hp hf => by
    have := hgo _ hp
    rwa [hf] at this
  rcases Outcome.firstOf_cases (fun p => (go p).prepend (strides p)) false
      (sitesWithin cs run i limit) with ⟨qs, p, ps, he, hqs, hp, hres⟩ | ⟨hall, hres⟩
  · have hmem : p ∈ sitesWithin cs run i limit := he ▸ by simp
    have hagree := hgo p hmem
    rw [hres]
    cases hg : go p with
    | matched path =>
      rw [hg] at hagree
      exact (fits_seek_iff ht hr hrun hs hi).mpr ⟨p, hmem, hagree⟩
    | failed => exact absurd (Outcome.prepend_eq_failed.mpr hg) hp
    | exhausted =>
      rw [hg] at hagree
      intro k hik hk hreach hfits
      obtain ⟨r, hmem', hfits⟩ := exists_site_of_fits ht hr hrun hs hik hk hreach hfits
      have sorted := pairwise_sitesWithin cs run i limit
      rw [he, List.pairwise_append, List.pairwise_cons] at sorted
      have hreach' := reaches_sites hs hmem hmem'
      have hr' := he ▸ hmem'
      rcases List.mem_append.mp hr' with hq | hq
      · exact unfit hmem' (Outcome.prepend_eq_failed.mp (hqs r hq)) hfits
      · have hpr : p ≤ r := by
          rcases List.mem_cons.mp hq with rfl | hq
          · exact le_rfl
          · exact (sorted.2.1.1 r hq).le
        have hle := (mem_sitesWithin.mp hmem').2.2.2
        have := hs.le_size hi
        exact hagree _ (by omega) (by omega) hreach' hfits
  · have none : ∀ k, i ≤ k → k ≤ cs.size →
        Reaches (ofChars separator cs) (t :: (run.map .literal ++ ts)) i k →
        ¬Fits separator cs before (t :: (run.map .literal ++ ts)) k := by
      intro k hik hk hreach hfits
      obtain ⟨p, hp, hfits⟩ := exists_site_of_fits ht hr hrun hs hik hk hreach hfits
      exact unfit hp (Outcome.prepend_eq_failed.mp (hall p hp)) hfits
    rw [hres]
    split
    · exact none
    · exact none i le_rfl hi (Or.inl rfl)

end

/-- The kinds of the tokens that are left, closed by the end. -/
def kindsOf (ts : List Token) : List Kind := ts.map Token.kind ++ [.endOfPattern]

theorem kindsOf_cons (t : Token) (ts : List Token) : kindsOf (t :: ts) = t.kind :: kindsOf ts := rfl

theorem orderly_drop {separator : Option Char} {ts : List Token}
    (h : Orderly separator (kindsOf ts)) (n : ℕ) : Orderly separator (kindsOf (ts.drop n)) := by
  rw [kindsOf, ← List.take_append_drop n ts, List.map_append, List.append_assoc] at h
  exact h.of_append

section

variable {separator : Option Char} {cs : Array Char} {before : Option Kind} {t : Token}
  {ts : List Token} {i : ℕ} {c : Char}

/-- Behind a star stands a literal, or a wildcard that takes one character, or else a separator or
    nothing. -/
theorem separator_of_head? (ht : t.kind.isStar) (tidy : Token.Tidy separator (t :: ts))
    (apart : (kindsOf ts).head? ≠ some .question ∧ (kindsOf ts).head? ≠ some .plus)
    (hr : (Outlook.ofTokens ts).nextRun = []) : ts = [] ∨ ∃ c us, ts = .separator c :: us := by
  cases ts with
  | nil => exact Or.inl rfl
  | cons u us =>
    have hstar := (List.isChain_cons_cons.mp tidy.apart).1 ht
    cases u with
    | separator c => exact Or.inr ⟨c, us, rfl⟩
    | literal c => cases hr
    | question => exact absurd rfl apart.1
    | plus => exact absurd rfl apart.2
    | star => cases hstar
    | doubleStar => cases hstar

/-- What comes behind a star that jumps within its segment. -/
theorem separator_of_jump (ht : t.kind.isStar) (tidy : Token.Tidy separator (t :: ts))
    (orderly : Orderly separator (kindsOf (t :: ts))) (hr : (Outlook.ofTokens ts).nextRun = []) :
    ts = [] ∨ ∃ c us, ts = .separator c :: us := by
  have apart := (List.isChain_cons.mp orderly.apart).1
  exact separator_of_head? ht tidy
    ⟨fun he => (apart _ he ht).1 rfl, fun he => (apart _ he ht).2 rfl⟩ hr

/-- A star across segments stands before a literal, or at the end. -/
theorem literal_of_doubleStar (hs : separator.isSome)
    (orderly : Orderly separator (kindsOf (.doubleStar :: ts))) :
    ts = [] ∨ ∃ c us, ts = .literal c :: us := by
  cases ts with
  | nil => exact Or.inl rfl
  | cons u us =>
    have := (List.isChain_cons_cons.mp (orderly.anchored hs)).1 rfl
    cases u with
    | literal c => exact Or.inr ⟨c, us, rfl⟩
    | _ => rcases this with h | h <;> cases h

/-- Behind a star across segments no star seeks within one. -/
theorem not_infix_behind_doubleStar (hs : separator.isSome)
    (orderly : Orderly separator (kindsOf (.doubleStar :: ts))) (n : ℕ) :
    ¬[.star, .literal] <:+: (ts.drop n).map Token.kind := by
  intro hin
  refine orderly.settled hs ?_
  have hd : (kindsOf (.doubleStar :: ts)).dropWhile (fun k => k ≠ .doubleStar) =
      .doubleStar :: kindsOf ts := List.dropWhile_cons_of_neg (by simp [Token.kind])
  rw [hd]
  have hkinds : ts.map Token.kind <:+: .doubleStar :: kindsOf ts :=
    (List.prefix_append _ _).isInfix.trans (List.suffix_cons _ _).isInfix
  rw [List.map_drop] at hin
  exact (hin.trans (List.drop_suffix _ _).isInfix).trans hkinds

theorem not_fits_of_stuck (hc : cs[i]? = some c) (tidy : Token.Tidy separator (t :: ts))
    (h : (Leg.facing (ofChars separator cs) before t ts).move (ofChars separator cs) i c = .stuck) :
    ¬Fits separator cs before (t :: ts) i := by
  rcases Leg.of_move_stuck h with ⟨d, rfl | rfl, hne⟩ | ⟨⟨rfl, hq⟩ | rfl, hs⟩
  · rintro ⟨hd, -⟩
    exact hne (Option.some.inj (hc.symm.trans hd))
  · rintro ⟨⟨e, he, hs⟩, -⟩
    obtain rfl : c = e := Option.some.inj (hc.symm.trans he)
    have := tidy.separator_eq d List.mem_cons_self
    exact hne (Option.some.inj (hs.symm.trans this))
  · rintro ⟨e, he, hfits⟩
    obtain rfl : c = e := Option.some.inj (hc.symm.trans he)
    rw [if_neg hq] at hfits
    exact hfits.1 hs
  · rintro ⟨⟨e, he, hs'⟩, -⟩
    obtain rfl : c = e := Option.some.inj (hc.symm.trans he)
    exact hs' hs

/-- What a star seeks comes right behind it, holds no separator, and is sought far enough. -/
theorem seeks_of_move {limit : ℕ} (tidy : Token.Tidy separator (t :: ts))
    (orderly : Orderly separator (kindsOf (t :: ts)))
    (h : (Leg.facing (ofChars separator cs) before t ts).move (ofChars separator cs) i c =
      .seek limit) :
    ts = (Outlook.ofTokens ts).run.map .literal ++ ts.drop (Outlook.ofTokens ts).reach ∧
      (∀ d ∈ (Outlook.ofTokens ts).run, separator ≠ some d) ∧
      Seeks separator cs t (ts.drop (Outlook.ofTokens ts).reach) i limit := by
  obtain ⟨hr, hs⟩ := Leg.of_move_seek h
  have hgap : (Outlook.ofTokens ts).gap = 0 := by
    rcases hs with ⟨-, hg, -⟩ | ⟨rfl, hs, -⟩
    · exact hg
    · rcases literal_of_doubleStar hs orderly with rfl | ⟨c, us, rfl⟩
      · exact absurd rfl hr
      · rfl
  have hts := Outlook.drop_gap ts
  rw [hgap, List.drop_zero] at hts
  refine ⟨hts, fun d hd => ?_, ?_⟩
  · exact tidy.tail.literal_ne d (hts ▸ List.mem_append_left _ (List.mem_map_of_mem hd))
  · rcases hs with ⟨hs, -, hlim⟩ | ⟨rfl, hs, hlim⟩
    · exact Or.inl ⟨hs, hlim⟩
    · exact Or.inr ⟨rfl, hlim, not_infix_behind_doubleStar hs orderly _⟩

end

/-- Wherever it may stand, a search agrees with what fits. -/
theorem agrees_route {separator : Option Char} {cs : Array Char} (before : Option Kind)
    {ts : List Token} (tidy : Token.Tidy separator ts) (orderly : Orderly separator (kindsOf ts))
    {i : ℕ} (hi : i ≤ cs.size) :
    Agrees separator cs before ts i (route (ofChars separator cs) before ts i) := by
  rcases hi.eq_or_lt with rfl | hlt
  · rw [route_of_size_le (show (ofChars separator cs).size ≤ cs.size from le_rfl)]
    split
    · next hn => exact fits_size_iff.mpr (List.all_eq_true.mp hn)
    · next hn => exact mt fits_size_iff.mp (mt List.all_eq_true.mpr hn)
  · match ts with
    | [] =>
      rw [route_nil (show i < (ofChars separator cs).size from hlt)]
      exact hlt.ne
    | t :: ts =>
      have hc : cs[i]? = some cs[i] := Array.getElem?_eq_getElem hlt
      have next : ∀ {j}, j ≤ cs.size → Agrees separator cs (some t.kind) ts j
          (route (ofChars separator cs) (some t.kind) ts j) :=
        fun hj => agrees_route _ tidy.tail orderly.tail hj
      rw [route_cons hc]
      cases hm : (Leg.facing (ofChars separator cs) before t ts).move (ofChars separator cs) i cs[i]
        with
      | stuck => exact not_fits_of_stuck hc tidy hm
      | yield =>
        obtain ⟨rfl, -⟩ := Leg.of_move_yield hm
        exact agrees_yield hc _ (next hi) (Leg.move_question_eq_yield.mp hm)
      | pass =>
        rcases Leg.of_move_pass hm with rfl | ⟨rfl, -⟩
        · exact agrees_literal hc _ (next hlt) (tidy.literal_ne _ List.mem_cons_self)
        · exact agrees_separator hc _ (next hlt) (tidy.separator_eq _ List.mem_cons_self)
      | take =>
        obtain ⟨rfl | rfl, hs⟩ := Leg.of_move_take hm
        · refine agrees_question hc _ (next hlt) hs fun hq => ?_
          cases (Leg.move_question_eq_yield.mpr hq).symm.trans hm
        · exact agrees_plus hc _ (next hlt) hs
      | trail =>
        obtain ⟨rfl, -⟩ := Leg.of_move_trail hm
        exact agrees_separator hc _ (next hlt) (tidy.separator_eq _ List.mem_cons_self)
      | jump stop =>
        have ht := Leg.isStar_of_move (Or.inl hm)
        rcases Leg.of_move_jump hm with ⟨hs, hr, rfl⟩ | ⟨rfl, hs, hr, -⟩
        · have hts := separator_of_jump ht tidy orderly hr
          exact agrees_jump _ (next (Subject.endsSegment separator hi).le_size) ht hs hi hts
        · rcases literal_of_doubleStar hs orderly with rfl | ⟨c, us, rfl⟩
          · obtain rfl := Move.jump.inj (hm.symm.trans (Leg.move_doubleStar_nil hs))
            exact agrees_rest _ (next le_rfl) hi
          · cases hr
      | seek limit =>
        obtain ⟨hts, hrun, hs⟩ := seeks_of_move tidy orderly hm
        have hsites : ∀ p ∈ sitesWithin cs (Outlook.ofTokens ts).run i limit,
            Agrees separator cs (some .literal) (ts.drop (Outlook.ofTokens ts).reach)
              (p + (Outlook.ofTokens ts).run.length) _ := fun p hp =>
          agrees_route (some .literal) (tidy.tail.drop _) (orderly_drop orderly.tail _)
            ((mem_sitesWithin.mp hp).2.2.2.trans (hs.le_size hi))
        have hseek : Agrees separator cs before
            (t :: ((Outlook.ofTokens ts).run.map .literal ++ ts.drop (Outlook.ofTokens ts).reach))
            i _ :=
          agrees_seek (Leg.isStar_of_move (Or.inr hm)) (Leg.of_move_seek hm).1 hrun hs hi hsites
            fun p => ⟨t, i, p⟩ :: ((ts.take (Outlook.ofTokens ts).gap).map (.idle p) ++
              Stride.spell p (Outlook.ofTokens ts).run)
        rwa [← hts] at hseek
termination_by ts.length
decreasing_by all_goals (simp only [List.length_cons, List.length_drop]; omega)

end Search

namespace Pattern

/-- A pattern whose kinds are in order matches just the texts that its tokens fit. -/
theorem isMatch_iff_fits (p : Pattern) (orderly : Orderly p.separator p.kinds) (text : String) :
    p.isMatch text ↔ Fits p.separator text.toList.toArray none p.tokens 0 := by
  rw [isMatch_eq]
  exact (Search.agrees_route none p.tidy orderly (Nat.zero_le _)).fits_iff (Nat.zero_le _)

/-- Three stars, one of them across segments, and a `?` that yields. -/
theorem isMatch_iff_fits_of_three_stars :
    Orderly (compile "*/*b?c**d/" (some '/')).separator (compile "*/*b?c**d/" (some '/')).kinds ∧
      ((compile "*/*b?c**d/" (some '/')).isMatch "x/abc/y/d/" ↔
        Fits (compile "*/*b?c**d/" (some '/')).separator "x/abc/y/d/".toList.toArray none
          (compile "*/*b?c**d/" (some '/')).tokens 0) :=
  have h : Orderly (compile "*/*b?c**d/" (some '/')).separator
      (compile "*/*b?c**d/" (some '/')).kinds :=
    ⟨by decide +kernel, fun _ => by decide +kernel, fun _ => by decide +kernel⟩
  ⟨h, isMatch_iff_fits _ h _⟩

end Pattern

end Wildcard
