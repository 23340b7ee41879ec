import Wildcard.Proofs.Checked
import Wildcard.Proofs.Segmentwise
import Wildcard.Proofs.Verdict

/-! What a session remembers.

    Behind any calls a session shows the last text alone, if that was divided or passed: its
    segments, from which the separators give the text back. The same is shown by a form of session
    that keeps the text in one piece and beside it the bytes at which separators begin. It cuts a
    segment out when it is asked for one, and never cuts a character in two.

        가→나→다      separators at bytes 3 and 9, of three bytes each
        0‥3  6‥9  12‥15                        segments 가, 나, 다 -/

namespace Wildcard

/-! ### Marks -/

/-- How many bytes a separator takes. -/
def width : Option Char → ℕ
  | some c => c.utf8Size
  | none => 0

/-- The bytes at which separators begin, in a text that begins at byte `first`. -/
def marks (separator : Option Char) : ℕ → List Char → List ℕ
  | _, [] => []
  | first, c :: cs =>
    if separator = some c then first :: marks separator (first + c.utf8Size) cs
    else marks separator (first + c.utf8Size) cs

/-- The byte at which a segment begins, if there are enough separators. -/
def beginning (first width : ℕ) (marks : List ℕ) : ℕ → Option ℕ
  | 0 => some first
  | n + 1 => marks[n]?.map (· + width)

theorem marks_none (first : ℕ) (cs : List Char) : marks none first cs = [] := by
  induction cs generalizing first with
  | nil => rfl
  | cons d cs ih =>
    rw [marks, if_neg (by simp)]
    exact ih _

/-- Other characters only move the marks on. -/
theorem marks_append {c : Char} {xs : List Char} (h : c ∉ xs) (first : ℕ) (ys : List Char) :
    marks (some c) first (xs ++ ys) = marks (some c) (first + String.utf8Len xs) ys := by
  induction xs generalizing first with
  | nil => simp
  | cons x xs ih =>
    rw [List.mem_cons, not_or] at h
    have hx : some c ≠ some x := fun he => h.1 (Option.some.inj he)
    rw [List.cons_append, marks, if_neg hx, ih h.2, String.utf8Len_cons]
    congr 1
    omega

theorem marks_separator (c : Char) (first : ℕ) (cs : List Char) :
    marks (some c) first (c :: cs) = first :: marks (some c) (first + c.utf8Size) cs := if_pos rfl

/-- There is one mark for each separator. -/
theorem length_marks (separator : Option Char) (first : ℕ) (cs : List Char) :
    (marks separator first cs).length = cs.countP (separator = some ·) := by
  induction cs generalizing first with
  | nil => rfl
  | cons c cs ih =>
    rw [marks, List.countP_cons]
    by_cases h : separator = some c
    · rw [if_pos h, List.length_cons, ih, if_pos (decide_eq_true h)]
    · rw [if_neg h, ih, if_neg (by simpa using h)]
      rfl

/-- There is one segment more than marks. -/
theorem length_segments {c : Char} {cs : List Char} {segments : List (List Char)}
    (h : Divides c cs segments) (first : ℕ) :
    segments.length = (marks (some c) first cs).length + 1 := by
  induction h generalizing first with
  | last h =>
    have := marks_append h first []
    rw [List.append_nil] at this
    rw [this]
    rfl
  | cons h behind ih =>
    rw [marks_append h, marks_separator, List.length_cons, List.length_cons, ih]

/-- Every segment lies between two marks, less the separator at the first. -/
theorem lies_segment {c : Char} {cs : List Char} {segments : List (List Char)}
    (h : Divides c cs segments) (before : List Char) {n : ℕ} {part : List Char}
    (hn : segments[n]? = some part) :
    ∃ start, beginning (String.utf8Len before) c.utf8Size
        (marks (some c) (String.utf8Len before) cs) n = some start ∧
      Checked.Lies (before ++ cs) start
        ((marks (some c) (String.utf8Len before) cs)[n]?.getD (String.utf8Len (before ++ cs)))
        part := by
  induction h generalizing before n with
  | @last xs h =>
    have hm := marks_append h (String.utf8Len before) []
    rw [List.append_nil] at hm
    cases n with
    | zero =>
      obtain rfl : xs = part := by simpa using hn
      rw [hm]
      exact ⟨_, rfl, before, [], by simp, rfl, by simp [marks]⟩
    | succ n => simp at hn
  | @cons xs rest segments h behind ih =>
    have hm := (marks_append h (String.utf8Len before) (c :: rest)).trans (marks_separator ..)
    rw [hm]
    cases n with
    | zero =>
      obtain rfl : xs = part := by simpa using hn
      exact ⟨_, rfl, before, c :: rest, by simp, rfl, by simp⟩
    | succ n =>
      have hb : before ++ (xs ++ c :: rest) = (before ++ xs ++ [c]) ++ rest := by simp
      have hl : String.utf8Len (before ++ xs ++ [c]) =
          String.utf8Len before + String.utf8Len xs + c.utf8Size := by simp [Nat.add_assoc]
      obtain ⟨start, hstart, lies⟩ := ih (before ++ xs ++ [c]) hn
      rw [hl] at hstart lies
      rw [hb]
      refine ⟨start, ?_, lies⟩
      rw [← hstart]
      cases n <;> rfl

/-! ### Segments and the text -/

/-- No segment holds a separator. -/
theorem Divides.apart {c : Char} {cs : List Char} {segments : List (List Char)}
    (h : Divides c cs segments) : ∀ part ∈ segments, c ∉ part := by
  induction h with
  | last h => exact List.forall_mem_singleton.mpr h
  | cons h behind ih => exact List.forall_mem_cons.mpr ⟨h, ih⟩

/-- With a separator between them the segments make up the text. -/
theorem Divides.joined {c : Char} {cs : List Char} {segments : List (List Char)}
    (h : Divides c cs segments) :
    String.intercalate (String.singleton c) (segments.map String.ofList) = String.ofList cs := by
  induction h with
  | last h => simp
  | @cons xs rest segments h behind ih =>
    have hne : segments.map String.ofList ≠ [] := by simpa using behind.ne_nil
    rw [List.map_cons, String.intercalate_cons_of_ne_nil hne, ih, String.ofList_append,
      String.ofList_cons, String.append_assoc]

namespace Division

/-- The segments of a text by their numbers. -/
theorem segment?_eq (d : Division) (n : ℕ) : d.segment? n = d.segments.toList[n]? := by
  cases n with
  | zero => simp [segment?, segments]
  | succ n => simp [segment?, segments]

theorem divides_ofText (c : Char) (text : String) :
    ∃ segments, Divides c text.toList segments ∧
      (ofText (some c) text).segments.toList = segments.map String.ofList :=
  ⟨_, divides_cut c text.toList, toList_segments c text⟩

theorem segments_ofText_none (text : String) : (ofText none text).segments.toList = [text] := by
  have hcut : ∀ cs : List Char, cut none cs = (cs, []) := by
    intro cs
    induction cs with
    | nil => rfl
    | cons c cs ih => rw [cut_cons_other (by simp), ih]
  simp [segments, ofText, hcut]

theorem length_segments_ofText (separator : Option Char) (text : String) :
    (ofText separator text).segments.toList.length =
      text.toList.countP (separator = some ·) + 1 := by
  cases separator with
  | none => simp [segments_ofText_none]
  | some c =>
    obtain ⟨segments, divides, hs⟩ := divides_ofText c text
    rw [hs, List.length_map, length_segments divides 0, length_marks]

theorem separatorCount_ofText (separator : Option Char) (text : String) :
    (ofText separator text).separatorCount = text.toList.countP (separator = some ·) := by
  have hsize := (ofText separator text).size_segments
  rw [← Array.length_toList, length_segments_ofText] at hsize
  exact (Nat.succ.inj hsize).symm

/-- No segment of a text holds a separator. -/
theorem ne_separator_of_mem_segments (separator : Option Char) (text : String) :
    ∀ segment ∈ (ofText separator text).segments.toList, ∀ c ∈ segment.toList,
      separator ≠ some c := by
  cases separator with
  | none => nofun
  | some c =>
    obtain ⟨segments, divides, hs⟩ := divides_ofText c text
    rw [hs]
    intro segment hm d hd hc
    obtain ⟨part, hpart, rfl⟩ := List.mem_map.mp hm
    obtain rfl := Option.some.inj hc
    rw [String.toList_ofList] at hd
    exact divides.apart part hpart hd

/-- The separators that have been cut out give the text back. -/
theorem intercalate_segments (separator : Option Char) (text : String) :
    String.intercalate ((separator.map String.singleton).getD "")
      (ofText separator text).segments.toList = text := by
  cases separator with
  | none => simp [segments_ofText_none]
  | some c =>
    obtain ⟨segments, divides, hs⟩ := divides_ofText c text
    rw [hs]
    exact divides.joined.trans String.ofList_toList

end Division

/-! ### Sessions -/

namespace Session

/-- The text that a call leaves behind, if it leaves one. -/
def Call.kept? (p : Pattern) : Call → Option String
  | .check text => if p.isMatch text then some text else none
  | .divide text => some text

/-- The text that some calls leave behind: the last call decides. -/
def kept? (p : Pattern) (calls : List Call) : Option String := calls.getLast?.bind (Call.kept? p)

/-- A session shows a text. -/
structure Remembers (s : Session) (separator : Option Char) (text : String) : Prop where
  /-- It tells the number of separators. -/
  count : s.separatorCount? = some (text.toList.countP (separator = some ·))
  /-- There is one segment more than separators. -/
  length : s.segments.toList.length = text.toList.countP (separator = some ·) + 1
  /-- No segment holds a separator. -/
  apart : ∀ segment ∈ s.segments.toList, ∀ c ∈ segment.toList, separator ≠ some c
  /-- Joined by the separator, the segments are the text. -/
  joined : String.intercalate ((separator.map String.singleton).getD "") s.segments.toList = text
  /-- Without a separator there is nothing to join. -/
  whole : separator = none → s.segments.toList = [text]
  /-- A segment is found by its number, -/
  segment : ∀ n, s.segment? n = s.segments.toList[n]?
  /-- and there is none behind the last separator's. -/
  beyond : ∀ n, text.toList.countP (separator = some ·) < n → s.segment? n = none

/-- A session shows nothing. -/
structure Forgets (s : Session) : Prop where
  count : s.separatorCount? = none
  segment : ∀ n, s.segment? n = none
  segments : s.segments.toList = []

/-- Each call decides alone what is left. -/
theorem division_call (s : Session) (k : Call) :
    (s.call k).division? =
      (Call.kept? s.pattern k).map (Division.ofText s.pattern.separator) := by
  cases k with
  | check text =>
    simp only [call, check, Call.kept?]
    split <;> rfl
  | divide text => rfl

theorem division_after {s : Session} (h : s.division? = none) (calls : List Call) :
    (s.after calls).division? =
      (kept? s.pattern calls).map (Division.ofText s.pattern.separator) := by
  induction calls using List.reverseRecOn with
  | nil => exact h
  | append_singleton calls k ih =>
    have hafter : s.after (calls ++ [k]) = (s.after calls).call k := List.foldl_concat ..
    rw [hafter, division_call, pattern_after, kept?, List.getLast?_concat, Option.bind_some]

/-- What a division of a text shows of it. -/
theorem remembers_of_division {s : Session} {separator : Option Char} {text : String}
    (h : s.division? = some (.ofText separator text)) : s.Remembers separator text := by
  have hsegments : s.segments.toList = (Division.ofText separator text).segments.toList := by
    rw [segments, h]
    exact Segments.toList_ofArray _
  have hlength := Division.length_segments_ofText separator text
  have hsegment : ∀ n, s.segment? n = (Division.ofText separator text).segments.toList[n]? := by
    intro n
    rw [← Division.segment?_eq, segment?, h]
    rfl
  refine ⟨?_, ?_, ?_, ?_, ?_, ?_, ?_⟩
  · rw [separatorCount?, h, Option.map_some, Division.separatorCount_ofText]
  · rw [hsegments, hlength]
  · rw [hsegments]
    exact Division.ne_separator_of_mem_segments separator text
  · rw [hsegments]
    exact Division.intercalate_segments separator text
  · rintro rfl
    rw [hsegments, Division.segments_ofText_none]
  · rw [hsegments]
    exact hsegment
  · intro n hn
    rw [hsegment, List.getElem?_eq_none_iff, hlength]
    exact hn

theorem forgets_of_division {s : Session} (h : s.division? = none) : s.Forgets := by
  refine ⟨?_, fun n => ?_, ?_⟩
  · rw [separatorCount?, h]
    rfl
  · rw [segment?, h]
    rfl
  · rw [segments, h]
    exact Segments.toList_ofArray _

end Session

/-! ### A session that keeps the text in one piece -/

/-- A text with the bytes at which separators begin, if one is held. -/
structure Ruled where
  text : String := ""
  marks : Array ℕ := #[]
  held : Bool := false

namespace Ruled

/-- Lets go of the text. -/
def reset (r : Ruled) : Ruled := { r with text := "", marks := #[], held := false }

/-- Takes a text up, behind what is there. -/
def record (separator : Option Char) (r : Ruled) (text : String) : Ruled :=
  { text := r.text ++ text
    marks := r.marks ++ (Wildcard.marks separator 0 text.toList).toArray
    held := true }

/-- What one call does. -/
def call (p : Pattern) (r : Ruled) : Session.Call → Ruled
  | .check text => if p.isMatch text then r.reset.record p.separator text else r.reset
  | .divide text => r.reset.record p.separator text

/-- What some calls do, the first of them first. -/
def after (p : Pattern) (r : Ruled) (calls : List Session.Call) : Ruled := calls.foldl (call p) r

def separatorCount? (r : Ruled) : Option ℕ := if r.held then some r.marks.size else none

/-- The byte at which a segment begins. -/
def start (separator : Option Char) (r : Ruled) : ℕ → Except Fault ℕ
  | 0 => .ok 0
  | n + 1 => (· + width separator) <$> Checked.get r.marks n

/-- Cuts a segment out of the text. -/
def segment? (separator : Option Char) (r : Ruled) (n : ℕ) : Except Fault (Option String) :=
  if r.held = false ∨ r.marks.size < n then .ok none
  else do
    let start ← r.start separator n
    let segment ← Checked.substring r.text start (r.marks[n]?.getD r.text.utf8ByteSize)
    return some segment

/-- A text that is held alone. -/
def holding (separator : Option Char) (text : String) : Ruled :=
  { text, marks := (Wildcard.marks separator 0 text.toList).toArray, held := true }

/-- Nothing of what was there before is left. -/
theorem record_reset (separator : Option Char) (r : Ruled) (text : String) :
    r.reset.record separator text = holding separator text := by
  simp [record, reset, holding]

theorem call_eq (p : Pattern) (r : Ruled) (k : Session.Call) :
    r.call p k = ((k.kept? p).map (holding p.separator)).getD {} := by
  cases k with
  | check text =>
    rw [call, Session.Call.kept?]
    split
    · exact record_reset ..
    · rfl
  | divide text => exact record_reset ..

theorem after_eq (p : Pattern) (calls : List Session.Call) :
    Ruled.after p {} calls = ((Session.kept? p calls).map (holding p.separator)).getD {} := by
  induction calls using List.reverseRecOn with
  | nil => rfl
  | append_singleton calls k ih =>
    rw [after, List.foldl_concat, call_eq, Session.kept?, List.getLast?_concat, Option.bind_some]

/-- Every segment of a text is cut out between characters. -/
theorem lies_of_segment? {separator : Option Char} {text : String} {n : ℕ} {segment : String}
    (h : (Division.ofText separator text).segments.toList[n]? = some segment) :
    ∃ start, beginning 0 (width separator) (Wildcard.marks separator 0 text.toList) n =
        some start ∧
      Checked.Lies text.toList start
        ((Wildcard.marks separator 0 text.toList)[n]?.getD text.utf8ByteSize) segment.toList := by
  have hsize : text.utf8ByteSize = String.utf8Len text.toList := by
    rw [← String.utf8ByteSize_ofList, String.ofList_toList]
  rw [hsize]
  cases separator with
  | none =>
    rw [Division.segments_ofText_none] at h
    cases n with
    | zero =>
      obtain rfl : text = segment := by simpa using h
      exact ⟨0, rfl, [], [], by simp, rfl, by simp [marks_none]⟩
    | succ n => simp at h
  | some c =>
    obtain ⟨segments, divides, hs⟩ := Division.divides_ofText c text
    rw [hs, List.getElem?_map, Option.map_eq_some_iff] at h
    obtain ⟨part, hpart, rfl⟩ := h
    rw [String.toList_ofList]
    exact lies_segment divides [] hpart

theorem start_of_beginning {separator : Option Char} {text : String} {n start : ℕ}
    (h : beginning 0 (width separator) (Wildcard.marks separator 0 text.toList) n = some start) :
    (holding separator text).start separator n = .ok start := by
  cases n with
  | zero => exact congrArg Except.ok (Option.some.inj h)
  | succ n =>
    rw [beginning, Option.map_eq_some_iff] at h
    obtain ⟨mark, hmark, rfl⟩ := h
    have hget : (holding separator text).marks[n]? = some mark := by
      rw [holding, List.getElem?_toArray]
      exact hmark
    rw [start, Checked.get_of_getElem? hget, Checked.map_ok]

/-- A held text gives its segments, and fails at none. -/
theorem segment?_holding (separator : Option Char) (text : String) (n : ℕ) :
    (holding separator text).segment? separator n =
      .ok ((Division.ofText separator text).segment? n) := by
  have hlength : (Division.ofText separator text).segments.toList.length =
      (holding separator text).marks.size + 1 := by
    rw [Division.length_segments_ofText, holding, List.size_toArray, length_marks]
  rw [Division.segment?_eq, segment?]
  by_cases hn : (holding separator text).marks.size < n
  · rw [if_pos (Or.inr hn), List.getElem?_eq_none (hlength ▸ hn)]
  · have hlt : n < (Division.ofText separator text).segments.toList.length := by
      rw [hlength]
      omega
    have hsegment := List.getElem?_eq_getElem hlt
    obtain ⟨start, hstart, lies⟩ := lies_of_segment? hsegment
    have hcut := Checked.substring_of_lies lies
    have hheld : ¬ ((holding separator text).held = false ∨
        (holding separator text).marks.size < n) := by
      rintro (h | h)
      · cases h
      · exact hn h
    have htext : (holding separator text).text = text := rfl
    have hstop : (holding separator text).marks[n]? =
        (Wildcard.marks separator 0 text.toList)[n]? := List.getElem?_toArray
    rw [if_neg hheld, hsegment, start_of_beginning hstart, Checked.ok_bind, htext, hstop, hcut,
      Checked.ok_bind, String.ofList_toList]
    rfl

end Ruled

namespace Session

/-- Behind any calls a session shows the last text alone if that was divided or passed, and else
    nothing; and the form of session that keeps the text in one piece shows the same, each of its
    cuts lying between characters. -/
theorem remembers_last (pattern : String) (separator : Option Char) (calls : List Call) :
    let p := Pattern.compile pattern separator
    let s := (Session.mk p none).after calls
    let r := Ruled.after p {} calls
    (match kept? p calls with
      | some text => s.Remembers separator text
      | none => s.Forgets) ∧
      r.separatorCount? = s.separatorCount? ∧
      ∀ n, r.segment? separator n = .ok (s.segment? n) := by
  intro p s r
  have hdivision : s.division? = (kept? p calls).map (Division.ofText separator) :=
    division_after rfl calls
  have hruled : r = ((kept? p calls).map (Ruled.holding separator)).getD {} :=
    Ruled.after_eq p calls
  cases hk : kept? p calls with
  | none =>
    rw [hk] at hdivision hruled
    have forgets := forgets_of_division hdivision
    refine ⟨forgets, ?_, fun n => ?_⟩
    · rw [hruled, forgets.count]
      rfl
    · rw [hruled, forgets.segment]
      rfl
  | some text =>
    rw [hk] at hdivision hruled
    have remembers := remembers_of_division hdivision
    refine ⟨remembers, ?_, fun n => ?_⟩
    · rw [hruled, remembers.count, ← length_marks separator 0, Option.map_some, Option.getD_some,
        Ruled.holding, Ruled.separatorCount?, if_pos rfl, List.size_toArray]
    · rw [hruled, segment?, hdivision]
      exact Ruled.segment?_holding separator text n

end Session

end Wildcard
