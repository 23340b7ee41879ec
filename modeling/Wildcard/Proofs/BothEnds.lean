import Wildcard.Proofs.Remembering

/-! A row of segments that is read from both ends.

    Whoever reads a row asks for its first segment, for its last one, or for how many are left, in
    any order. What came from the front are the first segments of the row, what came from the back
    are the last ones, the very last of them first, and what lies between is left:

        asked    next  length  back  next  length  back  next
        a b c    a     2       c     b     0       -     -

    The row of a session can be read without being laid out, by two numbers that close in on each
    other and a look at the session for each segment. Every segment that is looked for is there, and
    the numbers never pass each other. -/

namespace Wildcard

namespace Segments

/-- What can be asked of a row. -/
inductive Ask where | next | nextBack | length
  deriving DecidableEq

/-- What is told: a segment, if there is one to come, or a number of segments. -/
inductive Answer where
  | next (segment? : Option String)
  | nextBack (segment? : Option String)
  | length (n : ℕ)
  deriving DecidableEq

namespace Answer

/-- What was asked. -/
def ask : Answer → Ask
  | .next _ => .next
  | .nextBack _ => .nextBack
  | .length _ => .length

/-- The segment that came from the front. -/
def first? : Answer → Option String
  | .next segment? => segment?
  | _ => none

/-- The segment that came from the back. -/
def last? : Answer → Option String
  | .nextBack segment? => segment?
  | _ => none

/-- Whether a segment was asked for. -/
def isRead : Answer → Bool
  | .length _ => false
  | _ => true

/-- Whether a segment was asked for and none came. -/
def isNothing (a : Answer) : Bool := a.isRead && a.first?.isNone && a.last?.isNone

/-- Whether an answer is right when so many segments are left. -/
def Fits (left : ℕ) : Answer → Prop
  | .length n => n = left
  | .next segment? | .nextBack segment? => segment? = none ↔ left = 0

/-- Nothing comes just when nothing is left. -/
theorem Fits.isNothing_iff {left : ℕ} {a : Answer} (h : a.Fits left) (read : a.isRead) :
    a.isNothing ↔ left = 0 := by
  cases a with
  | length n => cases read
  | next segment? => simpa [isNothing, isRead, first?, last?, Fits] using h
  | nextBack segment? => simpa [isNothing, isRead, first?, last?, Fits] using h

theorem isRead_of_isNothing {a : Answer} (h : a.isNothing) : a.isRead := by
  simp only [isNothing, Bool.and_eq_true] at h
  exact h.1.1

end Answer

/-- The segments that came from the front, in the order in which they came. -/
def firsts (answers : List Answer) : List String := answers.filterMap Answer.first?

/-- The segments that came from the back, in the order in which they came. -/
def lasts (answers : List Answer) : List String := answers.filterMap Answer.last?

/-- How many segments came. -/
def yielded (answers : List Answer) : ℕ := (firsts answers).length + (lasts answers).length

/-- One answer, and the row behind it. -/
def ask (w : Segments) : Ask → Answer × Segments
  | .next => (.next (w.next?.map Prod.fst), (w.next?.map Prod.snd).getD w)
  | .nextBack => (.nextBack (w.nextBack?.map Prod.fst), (w.nextBack?.map Prod.snd).getD w)
  | .length => (.length w.length, w)

/-- The answers to what is asked of a row, the first of them first. -/
def answers (w : Segments) : List Ask → List Answer
  | [] => []
  | k :: asks => (w.ask k).1 :: (w.ask k).2.answers asks

/-- Answers that read a row as they should. -/
structure Reads (row : List String) (asks : List Ask) (answers : List Answer) : Prop where
  /-- Everything that is asked is answered, in turn. -/
  asked : answers.map Answer.ask = asks
  /-- From the front came the first segments in order, from the back the last ones in reverse. -/
  split : ∃ left, row = firsts answers ++ left ++ (lasts answers).reverse
  /-- No more came than there are, and each answer is right for what had not come before it. -/
  fits : ∀ before a after, answers = before ++ a :: after →
    yielded before ≤ row.length ∧ a.Fits (row.length - yielded before)

theorem yielded_append (before after : List Answer) :
    yielded (before ++ after) = yielded before + yielded after := by
  simp only [yielded, firsts, lasts, List.filterMap_append, List.length_append]
  omega

theorem filterMap_cons_eq_append (f : Answer → Option String) (a : Answer)
    (answers : List Answer) :
    (a :: answers).filterMap f = (f a).toList ++ answers.filterMap f := by
  rw [List.filterMap_cons]
  cases f a <;> rfl

theorem firsts_cons (a : Answer) (answers : List Answer) :
    firsts (a :: answers) = a.first?.toList ++ firsts answers :=
  filterMap_cons_eq_append Answer.first? a answers

theorem lasts_cons (a : Answer) (answers : List Answer) :
    lasts (a :: answers) = a.last?.toList ++ lasts answers :=
  filterMap_cons_eq_append Answer.last? a answers

theorem yielded_cons (a : Answer) (answers : List Answer) :
    yielded (a :: answers) = a.first?.toList.length + a.last?.toList.length + yielded answers := by
  simp only [yielded, firsts_cons, lasts_cons, List.length_append]
  omega

namespace Reads

variable {row rest : List String} {asks : List Ask} {answers : List Answer}

theorem nil (row : List String) : Reads row [] [] where
  asked := rfl
  split := ⟨row, by simp [firsts, lasts]⟩
  fits := by simp

/-- One answer takes what came off the row, at its end. -/
theorem cons (h : Reads rest asks answers) {a : Answer}
    (off : row = a.first?.toList ++ rest ++ a.last?.toList) (fits : a.Fits row.length) :
    Reads row (a.ask :: asks) (a :: answers) where
  asked := by rw [List.map_cons, h.asked]
  split := by
    obtain ⟨left, hrest⟩ := h.split
    refine ⟨left, ?_⟩
    have last : a.last?.toList.reverse = a.last?.toList := by cases a.last? <;> rfl
    rw [off, hrest, firsts_cons, lasts_cons, List.reverse_append, last]
    simp only [List.append_assoc]
  fits := by
    intro before b after hsplit
    have length : row.length = a.first?.toList.length + a.last?.toList.length + rest.length := by
      rw [off, List.length_append, List.length_append]
      omega
    rcases List.cons_eq_append_iff.mp hsplit with ⟨rfl, hb⟩ | ⟨before, rfl, hrest⟩
    · obtain ⟨rfl, -⟩ := List.cons.inj hb
      simpa [yielded, firsts, lasts] using fits
    · obtain ⟨hle, hfits⟩ := h.fits before b after hrest
      rw [yielded_cons, length]
      refine ⟨by omega, ?_⟩
      rwa [Nat.add_sub_add_left]

/-- A segment that is asked for comes, unless all have come before. -/
theorem isNothing_iff (h : Reads row asks answers) {before : List Answer} {a : Answer}
    {after : List Answer} (hsplit : answers = before ++ a :: after) (read : a.isRead) :
    a.isNothing ↔ yielded before = row.length := by
  obtain ⟨hle, hfits⟩ := h.fits before a after hsplit
  rw [hfits.isNothing_iff read]
  omega

/-- Once nothing has come, every segment has come. -/
theorem eq_of_isNothing (h : Reads row asks answers) {a : Answer} (ha : a ∈ answers)
    (nothing : a.isNothing) : row = firsts answers ++ (lasts answers).reverse := by
  obtain ⟨before, after, hsplit⟩ := List.append_of_mem ha
  have all := (h.isNothing_iff hsplit (Answer.isRead_of_isNothing nothing)).mp nothing
  have more : yielded before ≤ yielded answers := by
    rw [hsplit, yielded_append]
    exact Nat.le_add_right _ _
  obtain ⟨left, hrow⟩ := h.split
  have length := congrArg List.length hrow
  simp only [List.length_append, List.length_reverse] at length
  have none_left : left = [] := by
    rw [← List.length_eq_zero_iff]
    rw [yielded, yielded] at more
    rw [yielded] at all
    omega
  rw [hrow, none_left, List.append_nil]

/-- Once nothing has come, nothing comes any more. -/
theorem isNothing_of_isNothing (h : Reads row asks answers) {before : List Answer} {a : Answer}
    {after : List Answer} (hsplit : answers = before ++ a :: after) (nothing : a.isNothing)
    {b : Answer} (hb : b ∈ after) (read : b.isRead) : b.isNothing := by
  obtain ⟨since, later, rfl⟩ := List.append_of_mem hb
  have all := (h.isNothing_iff hsplit (Answer.isRead_of_isNothing nothing)).mp nothing
  have hsplit' : answers = (before ++ a :: since) ++ b :: later := by
    rw [hsplit, List.append_assoc, List.cons_append]
  refine (h.isNothing_iff hsplit' read).mpr ?_
  -- all had come before the first of the two, and there are no more to come before the second
  obtain ⟨hle, -⟩ := h.fits _ _ _ hsplit'
  have more := yielded_append before (a :: since)
  omega

end Reads

/-- Reading does not change the row, only what is left of it. -/
theorem all_ask (w : Segments) (k : Ask) : (w.ask k).2.all = w.all := by
  cases k with
  | next =>
    simp only [ask, next?]
    split <;> rfl
  | nextBack =>
    simp only [ask, nextBack?]
    split <;> rfl
  | length => rfl

/-- One answer is right, and takes off the row what it tells. -/
theorem ask_spec (w : Segments) (k : Ask) :
    (w.ask k).1.ask = k ∧
      w.toList = (w.ask k).1.first?.toList ++ (w.ask k).2.toList ++ (w.ask k).1.last?.toList ∧
      (w.ask k).1.Fits w.toList.length := by
  rw [length_toList]
  cases k with
  | next =>
    refine ⟨rfl, ?_, ?_⟩
    · cases h : w.next? with
      | none => simp [ask, h, Answer.first?, Answer.last?]
      | some read => simp [ask, h, Answer.first?, Answer.last?, toList_of_next? h]
    · simp [ask, Answer.Fits, next?_eq_none]
  | nextBack =>
    refine ⟨rfl, ?_, ?_⟩
    · cases h : w.nextBack? with
      | none => simp [ask, h, Answer.first?, Answer.last?]
      | some read => simp [ask, h, Answer.first?, Answer.last?, toList_of_nextBack? h]
    · simp [ask, Answer.Fits, nextBack?_eq_none]
  | length => simp [ask, Answer.ask, Answer.first?, Answer.last?, Answer.Fits]

/-- Whatever is asked, the row is read as it should. -/
theorem reads_answers (w : Segments) (asks : List Ask) : Reads w.toList asks (w.answers asks) := by
  induction asks generalizing w with
  | nil => exact .nil w.toList
  | cons k asks ih =>
    obtain ⟨asked, off, fits⟩ := w.ask_spec k
    have reads := (ih (w.ask k).2).cons off fits
    rwa [asked] at reads

end Segments

/-! ### Two numbers instead of a row -/

/-- The segments with numbers from `front` up to `back`, which are still to be read. -/
structure Ends where
  front : ℕ
  back : ℕ

namespace Ends

variable (segment? : ℕ → Except Fault (Option String))

/-- One answer, and the numbers behind it. Segments are found by `segment?`. -/
def ask (e : Ends) : Segments.Ask → Except Fault (Segments.Answer × Ends)
  | .next =>
    if e.back ≤ e.front then .ok (.next none, e)
    else do
      let s ← segment? e.front
      return (.next s, { e with front := e.front + 1 })
  | .nextBack =>
    if e.back ≤ e.front then .ok (.nextBack none, e)
    else do
      let back ← Checked.sub e.back 1
      let s ← segment? back
      return (.nextBack s, { e with back })
  | .length => do
    let n ← Checked.sub e.back e.front
    return (.length n, e)

/-- The answers to what is asked, the first of them first. -/
def answers (e : Ends) : List Segments.Ask → Except Fault (List Segments.Answer)
  | [] => .ok []
  | k :: asks => do
    let (a, e) ← e.ask segment? k
    let rest ← e.answers asks
    return a :: rest

/-- The numbers between which a row is still to be read. -/
def ofSegments (w : Segments) : Ends := ⟨w.front, w.back⟩

variable {segment?}

/-- Where the segments of a row are found by their numbers, two numbers answer as the row does. -/
theorem ask_ofSegments {w : Segments} (found : ∀ n, segment? n = .ok w.all[n]?)
    (k : Segments.Ask) :
    (ofSegments w).ask segment? k = .ok ((w.ask k).1, ofSegments (w.ask k).2) := by
  have within := w.back_le_size
  cases k with
  | next =>
    by_cases h : w.front < w.back
    · have hn : ¬ w.back ≤ w.front := by omega
      have hs : w.all[w.front]? = some w.all[w.front] := Array.getElem?_eq_getElem (by omega)
      simp [ask, ofSegments, Segments.ask, Segments.next?, h, hn, found, hs]
    · have hn : w.back ≤ w.front := by omega
      simp [ask, ofSegments, Segments.ask, Segments.next?, h, hn]
  | nextBack =>
    by_cases h : w.front < w.back
    · have hn : ¬ w.back ≤ w.front := by omega
      have hs : w.all[w.back - 1]? = some w.all[w.back - 1] :=
        Array.getElem?_eq_getElem (by omega)
      have hsub : Checked.sub w.back 1 = .ok (w.back - 1) := Checked.sub_of_le (by omega)
      simp [ask, ofSegments, Segments.ask, Segments.nextBack?, h, hn, found, hs, hsub]
    · have hn : w.back ≤ w.front := by omega
      simp [ask, ofSegments, Segments.ask, Segments.nextBack?, h, hn]
  | length =>
    have hsub : Checked.sub w.back w.front = .ok w.length := Checked.sub_of_le w.front_le_back
    simp [ask, ofSegments, Segments.ask, hsub]

/-- Two numbers answer everything as the row does. -/
theorem answers_ofSegments {w : Segments}
    (found : ∀ n, segment? n = .ok w.all[n]?) (asks : List Segments.Ask) :
    (ofSegments w).answers segment? asks = .ok (w.answers asks) := by
  induction asks generalizing w with
  | nil => rfl
  | cons k asks ih =>
    have found' : ∀ n, segment? n = .ok (w.ask k).2.all[n]? := by
      rw [w.all_ask k]
      exact found
    rw [answers, ask_ofSegments found, Checked.ok_bind]
    dsimp only
    rw [ih found']
    rfl

end Ends

/-! ### The segments of a session -/

namespace Session

variable (s : Session)

theorem all_segments : s.segments.all = (s.division?.map Division.segments).getD #[] := rfl

/-- The segments to be read are those that are found by their numbers. -/
theorem segment?_eq_getElem? (n : ℕ) : s.segment? n = s.segments.all[n]? := by
  rw [segment?, all_segments]
  cases s.division? with
  | none => rfl
  | some d => exact (d.segment?_eq n).trans Array.getElem?_toList

/-- There is one segment more than separators, or none at all. -/
theorem size_segments : s.segments.all.size = s.separatorCount?.elim 0 (· + 1) := by
  rw [all_segments, separatorCount?]
  cases s.division? with
  | none => rfl
  | some d => exact d.size_segments

end Session

namespace Ruled

/-- The numbers of all segments of the text, if one is held. -/
def ends (r : Ruled) : Ends := ⟨0, if r.held then r.marks.size + 1 else 0⟩

variable (p : Pattern) (calls : List Session.Call)

/-- Behind the same calls, the two forms of session find the same segments. -/
theorem segment?_after (n : ℕ) :
    (Ruled.after p {} calls).segment? p.separator n =
      .ok (((Session.mk p none).after calls).segment? n) := by
  rw [after_eq, Session.segment?, Session.division_after rfl]
  cases Session.kept? p calls with
  | none => rfl
  | some text => exact segment?_holding p.separator text n

/-- Behind the same calls, there are as many segments to be read. -/
theorem ends_after :
    (Ruled.after p {} calls).ends = .ofSegments ((Session.mk p none).after calls).segments := by
  rw [after_eq, Session.segments, Session.division_after rfl]
  cases Session.kept? p calls with
  | none => rfl
  | some text =>
    have size := Division.length_segments_ofText p.separator text
    rw [← length_marks p.separator 0, Array.length_toList] at size
    simp [ends, holding, Ends.ofSegments, Segments.ofArray, size]

end Ruled

namespace Session

/-- Whatever is asked of the segments of a session, behind any calls: there is one for each number
    up to the number of separators, the first ones come from the front and the last ones from the
    back, no segment is left out or comes twice, what is told to be left is what has not come, and
    once nothing has come nothing comes any more. The two numbers that close in on each other tell
    the same, look for no segment that is not there, and never pass each other. -/
theorem read_from_both_ends (pattern : String) (separator : Option Char) (calls : List Call)
    (asks : List Segments.Ask) :
    let p := Pattern.compile pattern separator
    let s := (Session.mk p none).after calls
    let r := Ruled.after p {} calls
    let row := s.segments.toList
    let told := s.segments.answers asks
    row.length = s.separatorCount?.elim 0 (· + 1) ∧ (∀ n, s.segment? n = row[n]?) ∧
      Segments.Reads row asks told ∧
      (∀ a ∈ told, a.isNothing → row = Segments.firsts told ++ (Segments.lasts told).reverse) ∧
      (∀ before a after, told = before ++ a :: after → a.isNothing →
        ∀ b ∈ after, b.isRead → b.isNothing) ∧
      r.ends.answers (r.segment? separator) asks = .ok told := by
  intro p s r row told
  have hrow : row = s.segments.all.toList := Segments.toList_ofArray _
  have reads : Segments.Reads row asks told := s.segments.reads_answers asks
  refine ⟨?_, ?_, reads, ?_, ?_, ?_⟩
  · rw [hrow, Array.length_toList, s.size_segments]
  · intro n
    rw [hrow, Array.getElem?_toList, s.segment?_eq_getElem?]
  · intro a ha nothing
    exact reads.eq_of_isNothing ha nothing
  · intro before a after hsplit nothing b hb read
    exact reads.isNothing_of_isNothing hsplit nothing hb read
  · have found : ∀ n, r.segment? separator n = .ok s.segments.all[n]? := by
      intro n
      rw [← s.segment?_eq_getElem?]
      exact Ruled.segment?_after p calls n
    have ends : r.ends = .ofSegments s.segments := Ruled.ends_after p calls
    rw [ends, Ends.answers_ofSegments found]

/-- Nothing is left once the ends have met at the second of three segments. -/
theorem read_from_both_ends_of_three :
    let s := (Session.mk (Pattern.compile "**" (some '→')) none).after [.divide "가→나→다"]
    let told := s.segments.answers [.next, .length, .nextBack, .next, .length, .nextBack, .next]
    told = [.next (some "가"), .length 2, .nextBack (some "다"), .next (some "나"), .length 0,
        .nextBack none, .next none] ∧
      s.segments.toList = Segments.firsts told ++ (Segments.lasts told).reverse := by
  intro s told
  have htold : told = [.next (some "가"), .length 2, .nextBack (some "다"), .next (some "나"),
      .length 0, .nextBack none, .next none] := by decide +kernel
  have nothing : .nextBack none ∈ told := by simp [htold]
  obtain ⟨-, -, -, all, -⟩ := read_from_both_ends "**" (some '→') [.divide "가→나→다"]
    [.next, .length, .nextBack, .next, .length, .nextBack, .next]
  exact ⟨htold, all _ nothing rfl⟩

end Session

end Wildcard
