import Wildcard.Proofs.Recency

/-! What a cache gives out, told by all that it has given out before.

    An entry is known by its serial, the number of patterns compiled before it: what has been given
    out twice has one serial, and what is compiled anew has one that nobody has seen.

        get a    get b    get a    clear    get a        serials given out
        0 (miss) 1 (miss) 0 (hit)           2 (miss)     0 1 0 2

    Every miss puts in one entry, which later is there, has made room for another, or has been
    cleared away. -/

namespace Wildcard

namespace Cache

/-- What a request for a pattern has led to: the key asked for, and the entry given out. -/
structure Answer where
  key : Key
  entry : Entry
  deriving DecidableEq

/-- Whether a request asks for a pattern. -/
def Request.isGet : Request → Bool
  | .get _ => true
  | .contains _ | .clear => false

/-- The answer to a request that has one. -/
def answer? (c : Cache) : Request → Option Answer
  | .get key => some ⟨key, (c.get key.1 key.2).1⟩
  | .contains _ | .clear => none

/-- The answers to some requests, the first of them first. -/
def answers (c : Cache) : List Request → List Answer
  | [] => []
  | r :: rs => (c.answer? r).toList ++ (c.request r).answers rs

/-- How many entries are dropped in all when a cache is cleared in the course of some requests. -/
def cleared (c : Cache) : List Request → ℕ
  | [] => 0
  | r :: rs => (if r = .clear then c.length else 0) + (c.request r).cleared rs

/-- The latest answer for a key is an entry. -/
def Latest (past : List Answer) (key : Key) (e : Entry) : Prop :=
  ∃ before since, past = before ++ ⟨key, e⟩ :: since ∧ ∀ a ∈ since, a.key ≠ key

theorem answers_concat (c : Cache) (rs : List Request) (r : Request) :
    c.answers (rs ++ [r]) = c.answers rs ++ ((c.after rs).answer? r).toList := by
  induction rs generalizing c with
  | nil => exact List.append_nil _
  | cons r' rs ih =>
    rw [List.cons_append, answers, answers, ih, List.append_assoc]
    rfl

theorem cleared_concat (c : Cache) (rs : List Request) (r : Request) :
    c.cleared (rs ++ [r]) = c.cleared rs + if r = .clear then (c.after rs).length else 0 := by
  induction rs generalizing c with
  | nil => exact Nat.add_comm _ 0
  | cons r' rs ih =>
    rw [List.cons_append, cleared, cleared, ih, Nat.add_assoc]
    rfl

namespace Latest

variable {past : List Answer} {key : Key} {e : Entry}

theorem concat_self (past : List Answer) (key : Key) (e : Entry) :
    Latest (past ++ [⟨key, e⟩]) key e :=
  ⟨past, [], rfl, by simp⟩

/-- An answer for another key does not matter. -/
theorem concat_of_ne (h : Latest past key e) {a : Answer} (ha : a.key ≠ key) :
    Latest (past ++ [a]) key e := by
  obtain ⟨before, since, rfl, hsince⟩ := h
  refine ⟨before, since ++ [a], by rw [List.append_assoc, List.cons_append], ?_⟩
  exact List.forall_mem_append.mpr ⟨hsince, List.forall_mem_singleton.mpr ha⟩

theorem mem (h : Latest past key e) : ⟨key, e⟩ ∈ past := by
  obtain ⟨before, since, rfl, -⟩ := h
  exact List.mem_append_right before List.mem_cons_self

/-- There is one latest answer for a key. -/
theorem unique (h : Latest past key e) {e' : Entry} (h' : Latest past key e') : e = e' := by
  obtain ⟨before, since, rfl, hsince⟩ := h
  obtain ⟨before', since', heq, hsince'⟩ := h'
  rcases List.append_eq_append_iff.mp heq with ⟨mid, -, hmid⟩ | ⟨mid, -, hmid⟩
  · cases mid with
    | nil => exact (Answer.mk.inj (List.cons.inj hmid).1).2
    | cons a mid =>
      have hmem : (⟨key, e'⟩ : Answer) ∈ since := by simp [(List.cons.inj hmid).2]
      exact absurd rfl (hsince _ hmem)
  · cases mid with
    | nil => exact (Answer.mk.inj (List.cons.inj hmid).1).2.symm
    | cons a mid =>
      have hmem : (⟨key, e⟩ : Answer) ∈ since' := by simp [(List.cons.inj hmid).2]
      exact absurd rfl (hsince' _ hmem)

end Latest

/-! ### One request for a pattern -/

/-- A stored entry is given out and comes to the front. -/
theorem get_of_find? {c : Cache} {key : Key} {e : Entry}
    (h : c.entries.find? (·.isFor key.1 key.2) = some e) :
    (c.get key.1 key.2).1 = e ∧
      (c.get key.1 key.2).2.entries = e :: c.entries.eraseP (·.isFor key.1 key.2) ∧
      (c.get key.1 key.2).2.hits = c.hits + 1 ∧ (c.get key.1 key.2).2.misses = c.misses ∧
      (c.get key.1 key.2).2.evictions = c.evictions := by
  rw [get]
  split
  · next e' he' =>
    obtain rfl : e' = e := Option.some.inj (he'.symm.trans h)
    exact ⟨rfl, rfl, rfl, rfl, rfl⟩
  · next hnone => cases hnone.symm.trans h

/-- If none is stored, one is compiled, and what there is no room for is dropped. -/
theorem get_of_find?_eq_none {c : Cache} {key : Key}
    (h : c.entries.find? (·.isFor key.1 key.2) = none) :
    (c.get key.1 key.2).1 = ⟨.compile key.1 key.2, c.misses⟩ ∧
      (c.get key.1 key.2).2.entries =
        ⟨.compile key.1 key.2, c.misses⟩ :: c.entries.take (c.capacity - 1) ∧
      (c.get key.1 key.2).2.hits = c.hits ∧ (c.get key.1 key.2).2.misses = c.misses + 1 ∧
      (c.get key.1 key.2).2.evictions =
        c.evictions + (c.entries.drop (c.capacity - 1)).length := by
  rw [get]
  split
  · next e he => cases he.symm.trans h
  · exact ⟨rfl, rfl, rfl, rfl, rfl⟩

/-- An entry holds what its key compiles to. -/
theorem Entry.pattern_eq {e : Entry} {key : Key} (h : e.key = key) :
    e.pattern = .compile key.1 key.2 := by
  subst h
  exact (Pattern.compile_text_separator e.pattern).symm

/-- What is given out is found by the key that has been asked for. -/
theorem key_get (c : Cache) (key : Key) : (c.get key.1 key.2).1.key = key := by
  cases h : c.entries.find? (·.isFor key.1 key.2) with
  | some e =>
    rw [(get_of_find? h).1]
    exact isFor_iff.mp (List.find?_some h)
  | none =>
    rw [(get_of_find?_eq_none h).1]
    rfl

/-! ### What all answers have in common -/

/-- A cache goes with the answers that it has given: every entry it holds is the latest answer for
    its key, and a serial that has been given out tells its key and will not be used again. -/
structure Shares (c : Cache) (past : List Answer) : Prop where
  latest : ∀ e ∈ c.entries, Latest past e.key e
  serial_lt : ∀ a ∈ past, a.entry.serial < c.misses
  key_unique : ∀ a ∈ past, ∀ b ∈ past, a.entry.serial = b.entry.serial → a.key = b.key

namespace Shares

variable {c : Cache} {past : List Answer} {key : Key}

/-- A hit gives out the latest answer for its key once more. -/
theorem hit (h : c.Shares past) {e : Entry}
    (he : c.entries.find? (·.isFor key.1 key.2) = some e) :
    (c.get key.1 key.2).2.Shares (past ++ [⟨key, e⟩]) := by
  obtain ⟨-, entries, -, misses, -⟩ := get_of_find? he
  obtain rfl : e.key = key := isFor_iff.mp (List.find?_some he)
  have hlast : Latest past e.key e := h.latest e (List.mem_of_find?_eq_some he)
  have hmem : ∀ a ∈ past ++ [⟨e.key, e⟩], a ∈ past := by
    intro a ha
    rcases List.mem_append.mp ha with ha | ha
    · exact ha
    · exact List.mem_singleton.mp ha ▸ hlast.mem
  constructor
  · intro e' he'
    rw [entries] at he'
    rcases List.mem_cons.mp he' with rfl | he'
    · exact .concat_self past e'.key e'
    · have hlast' := h.latest e' (List.mem_of_mem_eraseP he')
      by_cases hkey : e.key = e'.key
      · obtain rfl : e = e' := hlast.unique (hkey ▸ hlast')
        exact .concat_self past e.key e
      · exact hlast'.concat_of_ne hkey
  · rw [misses]
    exact fun a ha => h.serial_lt a (hmem a ha)
  · exact fun a ha b hb => h.key_unique a (hmem a ha) b (hmem b hb)

/-- A miss gives out what has not been given out before. -/
theorem miss (h : c.Shares past) (hnone : c.entries.find? (·.isFor key.1 key.2) = none) :
    (c.get key.1 key.2).2.Shares (past ++ [⟨key, ⟨.compile key.1 key.2, c.misses⟩⟩]) := by
  obtain ⟨-, entries, -, misses, -⟩ := get_of_find?_eq_none hnone
  constructor
  · intro e he
    rw [entries] at he
    rcases List.mem_cons.mp he with rfl | he
    · exact .concat_self past key _
    · have hstored := List.mem_of_mem_take he
      refine (h.latest e hstored).concat_of_ne fun hkey => ?_
      exact List.find?_eq_none.mp hnone e hstored (isFor_iff.mpr hkey.symm)
  · rw [misses]
    intro a ha
    rcases List.mem_append.mp ha with ha | ha
    · exact Nat.lt_succ_of_lt (h.serial_lt a ha)
    · rw [List.mem_singleton.mp ha]
      exact Nat.lt_succ_self c.misses
  · -- an earlier answer and this one never agree in their serial
    have apart : ∀ a ∈ past, a.entry.serial ≠ c.misses := fun a ha => (h.serial_lt a ha).ne
    intro a ha b hb hab
    rcases List.mem_append.mp ha with ha | ha <;> rcases List.mem_append.mp hb with hb | hb
    · exact h.key_unique a ha b hb hab
    · rw [List.mem_singleton.mp hb] at hab
      exact absurd hab (apart a ha)
    · rw [List.mem_singleton.mp ha] at hab
      exact absurd hab.symm (apart b hb)
    · rw [List.mem_singleton.mp ha, List.mem_singleton.mp hb]

/-- Whatever is asked for, a cache goes on with its answers. -/
theorem step (h : c.Shares past) (r : Request) :
    (c.request r).Shares (past ++ (c.answer? r).toList) := by
  cases r with
  | get key =>
    rw [request, answer?, Option.toList_some]
    cases he : c.entries.find? (·.isFor key.1 key.2) with
    | some e =>
      rw [(get_of_find? he).1]
      exact h.hit he
    | none =>
      rw [(get_of_find?_eq_none he).1]
      exact h.miss he
  | contains key =>
    rw [answer?, Option.toList_none, List.append_nil]
    exact h
  | clear =>
    rw [answer?, Option.toList_none, List.append_nil]
    exact ⟨by simp [request, clear], h.serial_lt, h.key_unique⟩

end Shares

theorem shares_after (capacity : ℕ) (rs : List Request) :
    ((new capacity).after rs).Shares ((new capacity).answers rs) := by
  induction rs using List.reverseRecOn with
  | nil => exact ⟨by simp [after, new], by simp [answers], by simp [answers]⟩
  | append_singleton rs r ih =>
    rw [after_concat, answers_concat]
    exact ih.step r

/-! ### Counting -/

/-- Every request for a pattern is a hit or a miss. -/
theorem hits_add_misses (capacity : ℕ) (rs : List Request) :
    ((new capacity).after rs).hits + ((new capacity).after rs).misses =
      rs.countP Request.isGet := by
  induction rs using List.reverseRecOn with
  | nil => rfl
  | append_singleton rs r ih =>
    rw [after_concat, List.countP_append, ← ih, List.countP_singleton]
    generalize (new capacity).after rs = c
    cases r with
    | get key =>
      rw [request]
      cases he : c.entries.find? (·.isFor key.1 key.2) with
      | some e =>
        obtain ⟨-, -, hits, misses, -⟩ := get_of_find? he
        rw [hits, misses, Request.isGet, if_pos rfl]
        omega
      | none =>
        obtain ⟨-, -, hits, misses, -⟩ := get_of_find?_eq_none he
        rw [hits, misses, Request.isGet, if_pos rfl]
        omega
    | contains key => rfl
    | clear => rfl

/-- Every compiled pattern is stored, has made room, or has been cleared away. -/
theorem misses_eq (capacity : ℕ) (rs : List Request) :
    ((new capacity).after rs).misses =
      ((new capacity).after rs).length + ((new capacity).after rs).evictions +
        (new capacity).cleared rs := by
  induction rs using List.reverseRecOn with
  | nil => rfl
  | append_singleton rs r ih =>
    rw [after_concat, cleared_concat]
    revert ih
    generalize (new capacity).after rs = c
    intro ih
    cases r with
    | get key =>
      have hne : Request.get key ≠ .clear := by simp
      rw [request, if_neg hne]
      cases he : c.entries.find? (·.isFor key.1 key.2) with
      | some e =>
        obtain ⟨-, entries, -, misses, evictions⟩ := get_of_find? he
        have hmem := List.mem_of_find?_eq_some he
        have hlen := List.length_eraseP_of_mem hmem (List.find?_some he)
        have hpos := List.length_pos_of_mem hmem
        rw [length, entries, misses, evictions, List.length_cons, hlen]
        rw [length] at ih
        omega
      | none =>
        obtain ⟨-, entries, -, misses, evictions⟩ := get_of_find?_eq_none he
        rw [length, entries, misses, evictions, List.length_cons, List.length_take,
          List.length_drop]
        rw [length] at ih
        omega
    | contains key => exact ih
    | clear =>
      rw [if_pos rfl]
      change c.misses = 0 + c.evictions + (_ + c.length)
      omega

/-! ### What is given out -/

/-- Behind any requests, a pattern asked for is what its text and separator compile to. If it is
    found, it is the very entry that was given out for the key before; if not, it is an entry that
    was never given out. No entry is given out for two keys. And every request for a pattern is
    counted once, as is every entry that has been put in. -/
theorem gives_shared_instances (capacity : ℕ) (rs : List Request) :
    let c := (new capacity).after rs
    let past := (new capacity).answers rs
    (∀ key, let given := c.get key.1 key.2
      given.1.pattern = .compile key.1 key.2 ∧
        (given.2.hits = c.hits + 1 ∧ given.2.misses = c.misses ∧ Latest past key given.1 ∨
          given.2.hits = c.hits ∧ given.2.misses = c.misses + 1 ∧
            ∀ a ∈ past, a.entry.serial ≠ given.1.serial)) ∧
    (∀ a ∈ past, ∀ b ∈ past, a.entry.serial = b.entry.serial → a.key = b.key) ∧
    c.hits + c.misses = rs.countP Request.isGet ∧
    c.misses = c.length + c.evictions + (new capacity).cleared rs := by
  intro c past
  have shares : c.Shares past := shares_after capacity rs
  refine ⟨fun key => ⟨Entry.pattern_eq (key_get c key), ?_⟩, shares.key_unique,
    hits_add_misses capacity rs, misses_eq capacity rs⟩
  cases he : c.entries.find? (·.isFor key.1 key.2) with
  | some e =>
    obtain ⟨given, -, hits, misses, -⟩ := get_of_find? he
    refine Or.inl ⟨hits, misses, ?_⟩
    rw [given]
    exact isFor_iff.mp (List.find?_some he) ▸ shares.latest e (List.mem_of_find?_eq_some he)
  | none =>
    obtain ⟨given, -, hits, misses, -⟩ := get_of_find?_eq_none he
    refine Or.inr ⟨hits, misses, fun a ha => ?_⟩
    rw [given]
    exact (shares.serial_lt a ha).ne

end Cache

end Wildcard
