import Mathlib.Data.Finset.Card
import Mathlib.Data.List.Nodup
import Wildcard.Cache

/-! Which patterns a cache holds, told by what it has been asked for.

    Of all keys that have been asked for since the cache was cleared, it holds those asked for last,
    as many as there is room for. So a key is held just when fewer others than there is room for have
    been asked for since it was.

        asked for     a b a c b        latest first   b c a b a
        in order      b c a            with room for two, the cache holds  b c

    The same keys are held by a store that keeps no order but stamps each key with the time of its
    last use, and lets go of one with the least stamp. -/

namespace Wildcard

namespace Cache

/-- What a pattern is asked for by: its text and its separator. -/
abbrev Key := String × Option Char

/-- The key that an entry is found by. -/
def Entry.key (e : Entry) : Key := (e.pattern.text, e.pattern.separator)

/-- The keys of the entries, the most recently used first. -/
def keys (c : Cache) : List Key := c.entries.map Entry.key

/-- A use of a cache. -/
inductive Request where
  | get (key : Key)
  | contains (key : Key)
  | clear
  deriving DecidableEq

/-- The cache behind one request. -/
def request (c : Cache) : Request → Cache
  | .get key => (c.get key.1 key.2).2
  | .contains _ => c
  | .clear => c.clear

/-- The cache behind some requests, the first of them first. -/
def after (c : Cache) (rs : List Request) : Cache := rs.foldl request c

/-- The keys asked for, one request later. -/
def Request.note (asked : List Key) : Request → List Key
  | .get key => key :: asked
  | .contains _ => asked
  | .clear => []

/-- The keys asked for since the last clearing, the latest first; one asked for twice is there
    twice. -/
def asked (rs : List Request) : List Key := rs.foldl Request.note []

/-- The keys of a list in the order of their first occurrence. -/
def inOrder (ks : List Key) : List Key := ks.foldr (fun k order => k :: order.erase k) []

/-- A key has been asked for, and fewer than `room` distinct others since its latest request. -/
def Recent (room : ℕ) (ks : List Key) (key : Key) : Prop :=
  ∃ since before, ks = since ++ key :: before ∧ key ∉ since ∧ since.toFinset.card < room

theorem after_concat (c : Cache) (rs : List Request) (r : Request) :
    c.after (rs ++ [r]) = (c.after rs).request r := by
  simp [after]

theorem asked_concat (rs : List Request) (r : Request) : asked (rs ++ [r]) = r.note (asked rs) := by
  simp [asked]

/-! ### Keys in order -/

@[simp]
theorem inOrder_nil : inOrder [] = [] := rfl

@[simp]
theorem inOrder_cons (k : Key) (ks : List Key) :
    inOrder (k :: ks) = k :: (inOrder ks).erase k := rfl

theorem nodup_inOrder (ks : List Key) : (inOrder ks).Nodup := by
  induction ks with
  | nil => exact List.nodup_nil
  | cons k ks ih => exact List.nodup_cons.mpr ⟨ih.not_mem_erase, ih.erase k⟩

theorem mem_inOrder {key : Key} {ks : List Key} : key ∈ inOrder ks ↔ key ∈ ks := by
  induction ks with
  | nil => exact Iff.rfl
  | cons k ks ih =>
    rw [inOrder_cons, List.mem_cons, List.mem_cons, (nodup_inOrder ks).mem_erase_iff, ih]
    by_cases h : key = k <;> simp [h]

/-- There are as many keys in order as there are distinct ones. -/
theorem length_inOrder (ks : List Key) : (inOrder ks).length = ks.toFinset.card := by
  rw [← List.toFinset_card_of_nodup (nodup_inOrder ks)]
  congr 1
  ext key
  rw [List.mem_toFinset, List.mem_toFinset, mem_inOrder]

/-- In front of a key stand just those that come before its first occurrence. -/
theorem exists_inOrder_append {key : Key} {since : List Key} (h : key ∉ since) (before : List Key) :
    ∃ rest, inOrder (since ++ key :: before) = inOrder since ++ key :: rest := by
  induction since with
  | nil => exact ⟨_, rfl⟩
  | cons k since ih =>
    rw [List.mem_cons, not_or] at h
    obtain ⟨rest, hrest⟩ := ih h.2
    rw [List.cons_append, inOrder_cons, inOrder_cons, hrest, List.erase_append]
    split
    · exact ⟨rest, rfl⟩
    · next hk =>
      rw [List.erase_cons_tail (by simpa using h.1), List.erase_of_not_mem hk]
      exact ⟨_, rfl⟩

/-- The first keys in order are the recent ones. -/
theorem mem_take_inOrder {room : ℕ} {ks : List Key} {key : Key} :
    key ∈ (inOrder ks).take room ↔ Recent room ks key := by
  constructor
  · intro hkey
    have hks := mem_inOrder.mp (List.mem_of_mem_take hkey)
    obtain ⟨since, before, rfl, hsince⟩ := List.eq_append_cons_of_mem hks
    refine ⟨since, before, rfl, hsince, ?_⟩
    obtain ⟨rest, hrest⟩ := exists_inOrder_append hsince before
    rw [← length_inOrder]
    by_contra hroom
    rw [hrest, List.take_append_of_le_length (Nat.not_lt.mp hroom)] at hkey
    exact hsince (mem_inOrder.mp (List.mem_of_mem_take hkey))
  · rintro ⟨since, before, rfl, hsince, hroom⟩
    obtain ⟨rest, hrest⟩ := exists_inOrder_append hsince before
    rw [← length_inOrder] at hroom
    obtain ⟨n, rfl⟩ := Nat.exists_eq_add_of_lt hroom
    rw [hrest, Nat.add_assoc, List.take_length_add_append, List.take_succ_cons]
    exact List.mem_append_right _ List.mem_cons_self

/-! ### One request -/

/-- The keys held, one request later: a key asked for goes to the front, and if it has not been held
    the last one leaves unless there is room. -/
def Request.advance (room : ℕ) (held : List Key) : Request → List Key
  | .get key => key :: if key ∈ held then held.erase key else held.take (room - 1)
  | .contains _ => held
  | .clear => []

theorem take_erase_of_mem {key : Key} {ks : List Key} {n : ℕ} (h : key ∈ ks.take (n + 1)) :
    (ks.erase key).take n = (ks.take (n + 1)).erase key := by
  have hlen := List.length_erase_of_mem h
  rw [List.length_take] at hlen
  conv_lhs => rw [← List.take_append_drop (n + 1) ks, List.erase_append_left _ h]
  rcases Nat.lt_or_ge n ks.length with hn | hn
  · exact List.take_left' (by omega)
  · rw [List.drop_eq_nil_of_le (by omega), List.append_nil, List.take_of_length_le (by omega)]

theorem take_erase_of_not_mem {key : Key} {ks : List Key} {n : ℕ} (h : key ∉ ks.take (n + 1)) :
    (ks.erase key).take n = (ks.take (n + 1)).take n := by
  conv_lhs => rw [← List.take_append_drop (n + 1) ks, List.erase_append_right _ h]
  rcases Nat.lt_or_ge n ks.length with hn | hn
  · rw [List.take_append_of_le_length (by rw [List.length_take]; omega)]
  · rw [List.drop_eq_nil_of_le (by omega), List.erase_nil, List.append_nil]

/-- The first keys in order go on from one request to the next by themselves. -/
theorem take_inOrder_note {room : ℕ} (pos : 0 < room) (ks : List Key) (r : Request) :
    (inOrder (r.note ks)).take room = r.advance room ((inOrder ks).take room) := by
  cases r with
  | get key =>
    obtain ⟨n, rfl⟩ := Nat.exists_eq_add_of_lt pos
    rw [Nat.zero_add, Request.note, inOrder_cons, List.take_succ_cons, Request.advance,
      Nat.add_sub_cancel]
    split
    · next h => rw [take_erase_of_mem h]
    · next h => rw [take_erase_of_not_mem h]
  | contains key => rfl
  | clear => exact List.take_nil

/-! ### The cache -/

theorem isFor_iff {e : Entry} {key : Key} : e.isFor key.1 key.2 ↔ e.key = key := by
  simp [Entry.isFor, Entry.key, Prod.ext_iff]

/-- A cache contains what it has an entry for. -/
theorem contains_iff {c : Cache} {key : Key} : c.contains key.1 key.2 ↔ key ∈ c.keys := by
  simp only [contains, keys, List.any_eq_true, List.mem_map, isFor_iff]

/-- A key that is held is found, and its entry comes to the front. -/
theorem get_of_mem {c : Cache} {key : Key} (h : key ∈ c.keys) :
    ∃ e, e.key = key ∧ (c.get key.1 key.2).2.entries = e :: c.entries.eraseP (·.isFor key.1 key.2) ∧
      (c.get key.1 key.2).2.hits = c.hits + 1 ∧ (c.get key.1 key.2).2.misses = c.misses := by
  rw [get]
  split
  · next e he => exact ⟨e, isFor_iff.mp (List.find?_some he), rfl, rfl, rfl⟩
  · next hnone =>
    obtain ⟨e, he, hkey⟩ := List.mem_map.mp h
    exact absurd (isFor_iff.mpr hkey) (List.find?_eq_none.mp hnone e he)

/-- Any other key is compiled, and its entry is put in front of as many as there is room for. -/
theorem get_of_not_mem {c : Cache} {key : Key} (h : key ∉ c.keys) :
    ∃ e, e.key = key ∧ (c.get key.1 key.2).2.entries = e :: c.entries.take (c.capacity - 1) ∧
      (c.get key.1 key.2).2.hits = c.hits ∧ (c.get key.1 key.2).2.misses = c.misses + 1 := by
  rw [get]
  split
  · next e he =>
    exact absurd (List.mem_map.mpr ⟨e, List.mem_of_find?_eq_some he,
      isFor_iff.mp (List.find?_some he)⟩) h
  · exact ⟨_, rfl, rfl, rfl, rfl⟩

/-- A request never changes how many entries there may be. -/
theorem capacity_request (c : Cache) (r : Request) : (c.request r).capacity = c.capacity := by
  cases r with
  | get key =>
    rw [request, get]
    split <;> rfl
  | contains key => rfl
  | clear => rfl

theorem capacity_after (c : Cache) (rs : List Request) : (c.after rs).capacity = c.capacity := by
  induction rs generalizing c with
  | nil => rfl
  | cons r rs ih => exact (ih (c.request r)).trans (capacity_request c r)

/-- What a request does to the keys of a cache. -/
theorem keys_request (c : Cache) (r : Request) :
    (c.request r).keys = r.advance c.capacity c.keys := by
  cases r with
  | get key =>
    rw [request, Request.advance, keys]
    split
    · next h =>
      obtain ⟨e, rfl, he, -⟩ := get_of_mem h
      have herase : (c.entries.eraseP (·.isFor e.key.1 e.key.2)).map Entry.key =
          c.keys.erase e.key := by
        rw [keys, List.erase_eq_eraseP, List.eraseP_map]
        congr 2
        funext e'
        rw [Bool.eq_iff_iff, isFor_iff, Function.comp_apply, beq_iff_eq, eq_comm]
      rw [he, List.map_cons, herase]
    · next h =>
      obtain ⟨e, rfl, he, -⟩ := get_of_not_mem h
      rw [he, List.map_cons, List.map_take, keys]
  | contains key => rfl
  | clear => rfl

/-- A cache that has been empty holds the keys asked for last, as many as there is room for. -/
theorem keys_after (capacity : ℕ) (rs : List Request) :
    ((new capacity).after rs).keys = (inOrder (asked rs)).take (max capacity 1) := by
  induction rs using List.reverseRecOn with
  | nil => exact List.take_nil.symm
  | append_singleton rs r ih =>
    rw [after_concat, asked_concat, keys_request, capacity_after, ih,
      take_inOrder_note (by omega : 0 < max capacity 1)]
    rfl

/-! ### A clock in place of the order -/

/-- A store that keeps its keys in no order, each with the time of its last use. -/
structure Clocked where
  capacity : ℕ
  clock : ℕ := 0
  slots : Multiset (Key × ℕ) := 0

namespace Clocked

/-- Whether a key is held. -/
def Holds (s : Clocked) (key : Key) : Prop := ∃ slot ∈ s.slots, slot.1 = key

/-- What one request may lead to. The clock goes on when a key is looked for, and again when it is
    put in; if there is no room for it, some slot leaves of which none has been used earlier. -/
inductive Step : Clocked → Request → Clocked → Prop
  | hit {s : Clocked} {key : Key} {stamp : ℕ} {rest : Multiset (Key × ℕ)}
    (held : s.slots = (key, stamp) ::ₘ rest) :
    Step s (.get key) { s with clock := s.clock + 1, slots := (key, s.clock + 1) ::ₘ rest }
  | add {s : Clocked} {key : Key} (missing : ¬s.Holds key) (room : s.slots.card < s.capacity) :
    Step s (.get key) { s with clock := s.clock + 2, slots := (key, s.clock + 2) ::ₘ s.slots }
  | replace {s : Clocked} {key : Key} {oldest : Key × ℕ} {rest : Multiset (Key × ℕ)}
    (missing : ¬s.Holds key) (full : s.capacity ≤ s.slots.card)
    (held : s.slots = oldest ::ₘ rest) (least : ∀ slot ∈ rest, oldest.2 ≤ slot.2) :
    Step s (.get key) { s with clock := s.clock + 2, slots := (key, s.clock + 2) ::ₘ rest }
  | contains {s : Clocked} (key : Key) : Step s (.contains key) s
  | clear {s : Clocked} : Step s .clear { s with slots := 0 }

/-- What some requests may lead to from an empty store. -/
inductive Reaches (capacity : ℕ) : List Request → Clocked → Prop
  | start : Reaches capacity [] { capacity }
  | step {rs : List Request} {r : Request} {s s' : Clocked} (reaches : Reaches capacity rs s)
    (next : Step s r s') : Reaches capacity (rs ++ [r]) s'

/-- The slots can be put in a row by their stamps, the latest first, and their keys are then some
    keys in order. No two stamps are equal, and none is ahead of the clock. -/
def Shows (s : Clocked) (ks : List Key) : Prop :=
  ∃ row : List (Key × ℕ), s.slots = row ∧ row.map Prod.fst = ks ∧
    row.Pairwise (fun later slot => slot.2 < later.2) ∧ ∀ slot ∈ row, slot.2 ≤ s.clock

namespace Shows

variable {s s' : Clocked} {ks : List Key} {r : Request}

theorem holds_iff (h : s.Shows ks) {key : Key} : s.Holds key ↔ key ∈ ks := by
  obtain ⟨row, hrow, rfl, -⟩ := h
  simp only [Holds, hrow, Multiset.mem_coe, List.mem_map]

theorem card_slots (h : s.Shows ks) : s.slots.card = ks.length := by
  obtain ⟨row, hrow, rfl, -⟩ := h
  rw [hrow, Multiset.coe_card, List.length_map]

/-- A key with a stamp ahead of the clock comes to the front of a row. -/
theorem cons {row : List (Key × ℕ)} (sorted : row.Pairwise fun later slot => slot.2 < later.2)
    {clock : ℕ} (past : ∀ slot ∈ row, slot.2 ≤ clock) (capacity : ℕ) (key : Key) {now : ℕ}
    (lt : clock < now) :
    Shows ⟨capacity, now, (key, now) ::ₘ row⟩ (key :: row.map Prod.fst) := by
  refine ⟨(key, now) :: row, rfl, rfl, List.pairwise_cons.mpr ⟨fun slot hslot => ?_, sorted⟩, ?_⟩
  · exact (past slot hslot).trans_lt lt
  · intro slot hslot
    rcases List.mem_cons.mp hslot with rfl | hslot
    · exact le_rfl
    · exact (past slot hslot).trans lt.le

/-- What is left of a row without one of its slots. -/
theorem exists_split {row : List (Key × ℕ)} {slot : Key × ℕ} {rest : Multiset (Key × ℕ)}
    (held : (row : Multiset (Key × ℕ)) = slot ::ₘ rest) :
    ∃ pre post, row = pre ++ slot :: post ∧ rest = ↑(pre ++ post) := by
  have hmem : slot ∈ row := by
    rw [← Multiset.mem_coe, held]
    exact Multiset.mem_cons_self _ _
  obtain ⟨pre, post, rfl⟩ := List.append_of_mem hmem
  refine ⟨pre, post, rfl, ?_⟩
  rw [← Multiset.cons_inj_right slot, ← held, Multiset.cons_coe, Multiset.coe_eq_coe]
  exact List.perm_middle

/-- Whatever slot leaves, its key is the last one. -/
theorem step (h : s.Shows ks) (nodup : ks.Nodup) (le : ks.length ≤ s.capacity)
    (next : Step s r s') : s'.Shows (r.advance s.capacity ks) := by
  have hcard := h.card_slots
  cases next with
  | @hit key stamp rest held =>
    have hkey : key ∈ ks := h.holds_iff.mp ⟨(key, stamp), by simp [held], rfl⟩
    obtain ⟨row, hrow, rfl, sorted, past⟩ := h
    obtain ⟨pre, post, rfl, rfl⟩ := exists_split (hrow.symm.trans held)
    have hpre : key ∉ pre.map Prod.fst := by
      rw [List.map_append, List.map_cons] at nodup
      exact fun hk => List.disjoint_of_nodup_append nodup hk List.mem_cons_self
    have hsub : (pre ++ post).Sublist (pre ++ (key, stamp) :: post) :=
      (List.sublist_cons_self _ _).append_left pre
    have herase : ((pre ++ (key, stamp) :: post).map Prod.fst).erase key =
        (pre ++ post).map Prod.fst := by
      rw [List.map_append, List.map_cons, List.erase_append_right _ hpre, List.erase_cons_head,
        List.map_append]
    rw [Request.advance, if_pos hkey, herase]
    exact cons (sorted.sublist hsub) (fun slot hs => past slot (hsub.subset hs)) _ key
      (Nat.lt_succ_self _)
  | @add key missing room =>
    have hkey : key ∉ ks := fun hk => missing (h.holds_iff.mpr hk)
    have htake : ks.take (s.capacity - 1) = ks := List.take_of_length_le (by omega)
    obtain ⟨row, hrow, rfl, sorted, past⟩ := h
    rw [Request.advance, if_neg hkey, htake, hrow]
    exact cons sorted past _ key (by omega)
  | @replace key oldest rest missing full held least =>
    have hkey : key ∉ ks := fun hk => missing (h.holds_iff.mpr hk)
    obtain ⟨row, hrow, rfl, sorted, past⟩ := h
    obtain ⟨pre, post, rfl, rfl⟩ := exists_split (hrow.symm.trans held)
    -- a slot behind the one that leaves would have an earlier stamp
    obtain rfl : post = [] := by
      rw [List.eq_nil_iff_forall_not_mem]
      intro slot hslot
      have hle := least slot (by simp [hslot])
      have hlt := (List.pairwise_cons.mp (List.pairwise_append.mp sorted).2.1).1 slot hslot
      omega
    have hlen : (pre.map Prod.fst).length = s.capacity - 1 := by
      simp only [List.length_map, List.length_append, List.length_cons, List.length_nil]
        at le hcard ⊢
      omega
    have htake : ((pre ++ [oldest]).map Prod.fst).take (s.capacity - 1) = pre.map Prod.fst := by
      rw [List.map_append, List.take_left' hlen]
    rw [Request.advance, if_neg hkey, htake, List.append_nil]
    exact cons (List.pairwise_append.mp sorted).1
      (fun slot hs => past slot (List.mem_append_left _ hs)) _ key (by omega)
  | contains key => exact h
  | clear => exact ⟨[], rfl, rfl, List.Pairwise.nil, by simp⟩

/-- Every request leads somewhere. -/
theorem exists_step (h : s.Shows ks) (pos : 0 < s.capacity) (r : Request) : ∃ s', Step s r s' := by
  cases r with
  | get key =>
    by_cases hkey : s.Holds key
    · obtain ⟨⟨_, stamp⟩, hslot, rfl⟩ := hkey
      obtain ⟨rest, held⟩ := Multiset.exists_cons_of_mem hslot
      exact ⟨_, .hit held⟩
    · rcases Nat.lt_or_ge s.slots.card s.capacity with room | full
      · exact ⟨_, .add hkey room⟩
      · have hne : s.slots ≠ 0 := by
          rintro h0
          rw [h0, Multiset.card_zero] at full
          omega
        obtain ⟨row, hrow, -, sorted, -⟩ := h
        obtain ⟨pre, oldest, rfl⟩ := (List.eq_nil_or_concat' row).resolve_left
          (by rintro rfl; exact hne hrow)
        have held : s.slots = oldest ::ₘ pre := by
          rw [hrow, Multiset.cons_coe, Multiset.coe_eq_coe]
          exact List.perm_append_singleton oldest pre
        refine ⟨_, .replace hkey full held fun slot hslot => ?_⟩
        exact ((List.pairwise_append.mp sorted).2.2 slot hslot oldest
          (List.mem_singleton_self _)).le
  | contains key => exact ⟨s, .contains key⟩
  | clear => exact ⟨_, .clear⟩

end Shows

/-- A request never changes how many slots there may be. -/
theorem capacity_of_step {s s' : Clocked} {r : Request} (h : Step s r s') :
    s'.capacity = s.capacity := by
  cases h <;> rfl

/-- A store that has been empty holds the keys asked for last, as many as there is room for. -/
theorem shows_of_reaches {capacity : ℕ} (pos : 0 < capacity) {rs : List Request} {s : Clocked}
    (h : Reaches capacity rs s) :
    s.capacity = capacity ∧ s.Shows ((inOrder (asked rs)).take capacity) := by
  induction h with
  | start => exact ⟨rfl, [], rfl, List.take_nil.symm, List.Pairwise.nil, by simp⟩
  | @step rs r s s' _ next ih =>
    obtain ⟨rfl, shows⟩ := ih
    have nodup : ((inOrder (asked rs)).take s.capacity).Nodup :=
      (nodup_inOrder _).sublist (List.take_sublist _ _)
    refine ⟨capacity_of_step next, ?_⟩
    rw [asked_concat, take_inOrder_note pos]
    exact shows.step nodup (List.length_take_le _ _) next

theorem exists_reaches {capacity : ℕ} (pos : 0 < capacity) (rs : List Request) :
    ∃ s, Reaches capacity rs s := by
  induction rs using List.reverseRecOn with
  | nil => exact ⟨_, .start⟩
  | append_singleton rs r ih =>
    obtain ⟨s, reaches⟩ := ih
    obtain ⟨rfl, shows⟩ := shows_of_reaches pos reaches
    obtain ⟨s', next⟩ := shows.exists_step pos r
    exact ⟨s', .step reaches next⟩

end Clocked

/-! ### What is found -/

/-- A request finds what has been asked for recently, and only that: a pattern is stored just when
    its key is recent, a look for it changes nothing later, and there are as many entries as
    distinct keys, as far as there is room. A store with a clock in place of the order holds the
    same keys, in whatever order it looks through its slots. -/
theorem recent_is_held (capacity : ℕ) (rs : List Request) :
    let c := (new capacity).after rs
    let room := max capacity 1
    let ks := asked rs
    (∀ key, ((c.get key.1 key.2).2.hits = c.hits + 1 ↔ Recent room ks key) ∧
      ((c.get key.1 key.2).2.misses = c.misses + 1 ↔ ¬Recent room ks key)) ∧
    (∀ key, c.contains key.1 key.2 ↔ Recent room ks key) ∧
    (∀ key later, (new capacity).after (rs ++ .contains key :: later) = c.after later) ∧
    c.length = min room ks.toFinset.card ∧
    (∃ s, Clocked.Reaches room rs s) ∧
    ∀ s, Clocked.Reaches room rs s →
      (∀ key, s.Holds key ↔ Recent room ks key) ∧ s.slots.card = min room ks.toFinset.card := by
  intro c room ks
  have pos : 0 < room := by omega
  have held : c.keys = (inOrder ks).take room := keys_after capacity rs
  have length_held : ((inOrder ks).take room).length = min room ks.toFinset.card := by
    rw [List.length_take, length_inOrder]
  refine ⟨fun key => ?_, fun key => ?_, fun key later => ?_, ?_, Clocked.exists_reaches pos rs,
    fun s hs => ?_⟩
  · rw [← mem_take_inOrder, ← held]
    by_cases hkey : key ∈ c.keys
    · obtain ⟨_, -, -, hits, misses⟩ := get_of_mem hkey
      exact ⟨iff_of_true hits hkey, iff_of_false (by omega) (not_not_intro hkey)⟩
    · obtain ⟨_, -, -, hits, misses⟩ := get_of_not_mem hkey
      exact ⟨iff_of_false (by omega) hkey, iff_of_true misses hkey⟩
  · rw [contains_iff, held, mem_take_inOrder]
  · rw [after, List.foldl_append, List.foldl_cons]
    rfl
  · rw [length, ← length_held, ← held, keys, List.length_map]
  · obtain ⟨-, shows⟩ := Clocked.shows_of_reaches pos hs
    refine ⟨fun key => ?_, ?_⟩
    · rw [shows.holds_iff, mem_take_inOrder]
    · rw [shows.card_slots, length_held]

end Cache

end Wildcard
