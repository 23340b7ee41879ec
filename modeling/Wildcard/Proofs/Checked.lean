import Mathlib.Data.String.Basic

/-! Accesses that can fail.

    An access by index, by range or by difference is right only if it stays within bounds. Here each
    is a function that says so when it does not, and each has one lemma that says what it takes to
    be right.

        get, set     index < size                          otherwise  index
        slice        start ≤ stop ≤ size                   otherwise  range
        substring    start ≤ stop, both between characters otherwise  range
        sub          what is taken away ≤ what there is    otherwise  difference -/

namespace Wildcard

/-- What can be wrong with an access. -/
inductive Fault where
  /-- Nothing stands at the index. -/
  | index
  /-- The range runs backwards, leaves what it is cut from, or ends within a character. -/
  | range
  /-- More is taken away than there is. -/
  | difference
  deriving DecidableEq

namespace Checked

variable {α β : Type}

/-- What stands at an index. -/
def get (xs : Array α) (i : ℕ) : Except Fault α :=
  match xs[i]? with
  | some x => .ok x
  | none => .error .index

/-- Replaces what stands at an index. -/
def set (xs : Array α) (i : ℕ) (x : α) : Except Fault (Array α) :=
  if h : i < xs.size then .ok (xs.set i x) else .error .index

/-- What stands from `start` up to `stop`. -/
def slice (xs : Array α) (start stop : ℕ) : Except Fault (Array α) :=
  if start ≤ stop ∧ stop ≤ xs.size then .ok (xs.extract start stop) else .error .range

/-- The part of a text from byte `start` up to byte `stop`. -/
def substring (text : String) (start stop : ℕ) : Except Fault String :=
  if start ≤ stop ∧ (String.Pos.Raw.mk start).IsValid text ∧
      (String.Pos.Raw.mk stop).IsValid text then
    .ok (String.Pos.Raw.extract text ⟨start⟩ ⟨stop⟩)
  else .error .range

/-- The difference of two numbers. -/
def sub (m n : ℕ) : Except Fault ℕ := if n ≤ m then .ok (m - n) else .error .difference

/-! ### When an access is right -/

@[simp]
theorem ok_bind (a : α) (f : α → Except Fault β) : (Except.ok a >>= f) = f a := rfl

@[simp]
theorem map_ok (f : α → β) (a : α) : f <$> (Except.ok a : Except Fault α) = .ok (f a) := rfl

@[simp]
theorem pure_eq_ok (a : α) : (pure a : Except Fault α) = .ok a := rfl

theorem get_of_getElem? {xs : Array α} {i : ℕ} {x : α} (h : xs[i]? = some x) :
    get xs i = .ok x := by
  rw [get, h]

theorem get_of_lt {xs : Array α} {i : ℕ} (h : i < xs.size) : get xs i = .ok xs[i] :=
  get_of_getElem? (Array.getElem?_eq_getElem h)

theorem set_of_lt {xs : Array α} {i : ℕ} (h : i < xs.size) (x : α) :
    set xs i x = .ok (xs.set i x) := dif_pos h

theorem slice_of_le {xs : Array α} {start stop : ℕ} (h : start ≤ stop) (hs : stop ≤ xs.size) :
    slice xs start stop = .ok (xs.extract start stop) := if_pos ⟨h, hs⟩

theorem sub_of_le {m n : ℕ} (h : n ≤ m) : sub m n = .ok (m - n) := if_pos h

/-- Where a computation goes well, so has what it goes on from. -/
theorem exists_of_bind {x : Except Fault α} {f : α → Except Fault β} {b : β}
    (h : (x >>= f) = .ok b) : ∃ a, x = .ok a ∧ f a = .ok b := by
  cases x with
  | error e => cases h
  | ok a => exact ⟨a, rfl, h⟩

/-- What goes well for each goes well for all. -/
theorem mapM_of_forall {f : α → Except Fault β} {g : α → β} {xs : List α}
    (h : ∀ x ∈ xs, f x = .ok (g x)) : xs.mapM f = .ok (xs.map g) := by
  induction xs with
  | nil => rfl
  | cons x xs ih =>
    obtain ⟨hx, hxs⟩ := List.forall_mem_cons.mp h
    rw [List.mapM_cons, hx, ok_bind, ih hxs]
    rfl

/-- A part of a text lies between two byte positions. -/
def Lies (cs : List Char) (start stop : ℕ) (part : List Char) : Prop :=
  ∃ l r, cs = l ++ part ++ r ∧ String.utf8Len l = start ∧
    String.utf8Len l + String.utf8Len part = stop

/-- A position behind some characters of a text lies between characters. -/
theorem isValid_utf8Len (l r : List Char) :
    (String.Pos.Raw.mk (String.utf8Len l)).IsValid (String.ofList (l ++ r)) := by
  rw [String.Pos.Raw.isValid_iff_exists_append]
  refine ⟨String.ofList l, String.ofList r, String.ofList_append, ?_⟩
  rw [String.rawEndPos_ofList]

/-- What lies between two byte positions can be cut out. -/
theorem substring_of_lies {text : String} {start stop : ℕ} {part : List Char}
    (h : Lies text.toList start stop part) :
    substring text start stop = .ok (String.ofList part) := by
  obtain ⟨l, r, hcs, rfl, rfl⟩ := h
  obtain rfl : text = String.ofList (l ++ part ++ r) := by rw [← hcs, String.ofList_toList]
  have hstart := isValid_utf8Len l (part ++ r)
  have hstop := isValid_utf8Len (l ++ part) r
  rw [← List.append_assoc] at hstart
  rw [String.utf8Len_append] at hstop
  rw [substring, if_pos ⟨Nat.le_add_right _ _, hstart, hstop⟩, String.extract_of_valid]

end Checked

end Wildcard
