import Mathlib.Data.List.TakeWhile
import Mathlib.Logic.Relation
import Wildcard.Proofs.Lookups
import Wildcard.Proofs.Loop

/-! A walk through a pattern and a text by two cursors.

    The loop of a search can be walked with two positions, one in the pattern and one in the text,
    that look everything up in tables. Of the stars it keeps the last one that has found its run,
    again by positions. Each round reads some entries, and each may be out of bounds for cursors
    that stand anywhere. From where a walk comes to stand none is: the cursors stay within pattern
    and text, and every round leads where the round of the loop leads.

        cursors   token 2, char 3, resume  ──round──▶  token 3, char 4, resume     nothing fails
                          │                                      │
        loop      going legs i choice      ──step───▶  going legs' i' choice' -/

namespace Wildcard

open Subject (ofChars)

/-! ### Records that are asked within bounds -/

/-- A record that looks its answer up. -/
class Tracker (μ : Type) extends Recorder μ where
  /-- Whether a position is taken. -/
  ask : μ → ℕ → Except Fault Bool

instance : Tracker Unit where
  ask _ _ := .ok false

/-- Looks a position up in spans: the last one that starts no later decides. -/
def Spans.ask (s : Spans) (i : ℕ) : Except Fault Bool :=
  let spans := s.latestFirst.reverse
  let after := (spans.takeWhile fun span => span.start ≤ i).length
  if after = 0 then .ok false
  else do
    let last ← Checked.sub after 1
    let span ← Checked.get spans.toArray last
    return i < span.stop

instance : Tracker Spans where
  ask := Spans.ask

/-- What a walk relies on: its record keeps a set of positions, counts no looks, takes nothing where
    there is nothing to take, and answers what it should. -/
structure Tracker.Lawful {μ : Type} [Tracker μ] (R : Positions → μ → Prop) : Prop where
  tracks : Recorder.Tracks R
  look : ∀ (m : μ) i, Recorder.look m i = m
  take : ∀ (m : μ) {start stop}, stop ≤ start → Recorder.take m start stop = m
  ask : ∀ {M m} i, R M m → Tracker.ask m i = .ok (Recorder.taken m i)

theorem Tracker.lawful_unit : Tracker.Lawful fun (_ : Positions) (_ : Unit) => True :=
  ⟨Recorder.tracks_true, fun _ _ => rfl, fun _ _ _ _ => rfl, fun _ _ => rfl⟩

namespace Spans

/-- Of spans in order, the last that starts no later is the latest that does. -/
theorem getLast?_takeWhile {s : Spans} (h : s.Ordered) (i : ℕ) :
    (s.latestFirst.reverse.takeWhile fun span => span.start ≤ i).getLast? =
      s.latestFirst.find? fun span => span.start ≤ i := by
  obtain ⟨spans⟩ := s
  induction spans with
  | nil => rfl
  | cons top rest ih =>
    obtain ⟨⟨hne, below⟩, hrest⟩ := ordered_cons.mp h
    rw [List.reverse_cons, List.find?_cons]
    by_cases hi : top.start ≤ i
    · have all : ∀ span ∈ rest.reverse ++ [top], decide (span.start ≤ i) = true := by
        intro span hm
        rw [decide_eq_true_eq]
        rcases List.mem_append.mp hm with hm | hm
        · have hlt := hrest.nonempty span (List.mem_reverse.mp hm)
          have := below span (List.mem_reverse.mp hm)
          omega
        · rw [List.mem_singleton.mp hm]
          exact hi
      rw [List.takeWhile_eq_self_iff.mpr all, List.getLast?_concat]
      simp only [hi, decide_true]
    · have hstop : (rest.reverse ++ [top]).takeWhile (fun span => decide (span.start ≤ i)) =
          rest.reverse.takeWhile fun span => decide (span.start ≤ i) := by
        rw [List.takeWhile_append]
        split
        · next hl =>
          rw [(List.takeWhile_prefix _).eq_of_length hl]
          simp [hi]
        · rfl
      rw [hstop, ih hrest]
      simp only [hi, decide_false]

theorem ask_of_ordered {s : Spans} (h : s.Ordered) (i : ℕ) : s.ask i = .ok (s.taken i) := by
  have hlast := getLast?_takeWhile h i
  rw [ask, taken, ← hlast]
  generalize hw : (s.latestFirst.reverse.takeWhile fun span => decide (span.start ≤ i)) = front
  obtain ⟨behind, hfront⟩ : front <+: s.latestFirst.reverse := hw ▸ List.takeWhile_prefix _
  by_cases hn : front.length = 0
  · rw [if_pos hn, List.eq_nil_of_length_eq_zero hn]
    rfl
  · have hidx : front.length - 1 < front.length := by omega
    have hget : s.latestFirst.reverse.toArray[front.length - 1]? =
        some front[front.length - 1] := by
      rw [List.getElem?_toArray, ← hfront, List.getElem?_append_left hidx,
        List.getElem?_eq_getElem hidx]
    rw [if_neg hn, Checked.sub_of_le (by omega), Checked.ok_bind, Checked.get_of_getElem? hget,
      Checked.ok_bind, List.getLast?_eq_getElem?, List.getElem?_eq_getElem hidx, Option.any_some]
    rfl

theorem lawful : Tracker.Lawful fun M (s : Spans) => s.Ordered ∧ s.taken = M :=
  ⟨Spans.tracks, fun _ _ => rfl, fun _ _ _ h => if_pos h, fun i h => ask_of_ordered h.1 i⟩

end Spans

namespace Outlook

/-- Behind the gap stands the run. -/
theorem nextRun_drop_gap (ts : List Token) :
    (ofTokens (ts.drop (ofTokens ts).gap)).nextRun = (ofTokens ts).run := by
  induction ts with
  | nil => rfl
  | cons t ts ih =>
    cases h : t.literal? with
    | none => rw [ofTokens_cons, gap_before h, run_before h, List.drop_succ_cons, ih]
    | some c =>
      obtain rfl := Token.literal?_eq_some.mp h
      rw [ofTokens_cons, before_literal, List.drop_zero, nextRun_literal]

/-- Without a run the gap goes to the end. -/
theorem gap_eq_length {ts : List Token} (h : (ofTokens ts).run = []) :
    (ofTokens ts).gap = ts.length := by
  induction ts with
  | nil => rfl
  | cons t ts ih =>
    rw [ofTokens_cons] at h ⊢
    cases ht : t.literal? with
    | none =>
      rw [run_before ht] at h
      rw [gap_before ht, List.length_cons, ih h]
    | some c =>
      obtain rfl := Token.literal?_eq_some.mp ht
      cases h

/-- Behind the gap stands the first literal of the run. -/
theorem exists_getElem?_gap {ts : List Token} (h : (ofTokens ts).run ≠ []) :
    ∃ c, ts[(ofTokens ts).gap]? = some (.literal c) := by
  have hdrop := drop_gap ts
  obtain ⟨c, run, hrun⟩ := List.exists_cons_of_ne_nil h
  rw [hrun] at hdrop
  exact ⟨c, by rw [← List.head?_drop, hdrop]; rfl⟩

end Outlook

/-! ### The walk -/

/-- Where the last star that has found its run may look for it again. -/
structure Resume where
  /-- Where the run begins in the pattern. -/
  runStart : ℕ
  /-- Where the run ends in the pattern. -/
  runEnd : ℕ
  /-- Where the star begins in the text. -/
  regionStart : ℕ
  /-- The first position that has not been tried. -/
  nextFrom : ℕ
  /-- Where the run must have ended. -/
  limit : ℕ

/-- How far a walk has come. -/
structure Cursors (μ : Type) where
  /-- The position in the pattern. -/
  token : ℕ
  /-- The position in the text. -/
  char : ℕ
  /-- The star that may give way. -/
  resume : Option Resume
  /-- The tables of places made so far. -/
  runs : Runs
  /-- The record so far. -/
  record : μ

/-- What a token does to the cursors. -/
inductive Turn (μ : Type) where
  /-- They move on. -/
  | onward (c : Cursors μ)
  /-- The token does not fit. -/
  | failed (c : Cursors μ)

/-- What a round leads to. -/
inductive Status (μ : Type) where
  /-- The walk goes on. -/
  | going (c : Cursors μ)
  /-- It is over, and the pattern fits or does not. -/
  | ended (fits : Bool) (record : μ)

/-- Whether the position before another one is taken. -/
def Tracker.askBefore {μ : Type} [Tracker μ] (m : μ) (i : ℕ) : Except Fault Bool :=
  if i = 0 then .ok false
  else do
    let last ← Checked.sub i 1
    Tracker.ask m last

/-- Behind a token, at a position. -/
def Cursors.next {μ : Type} (c : Cursors μ) (char : ℕ) (record : μ) : Cursors μ :=
  { c with token := c.token + 1, char, record }

/-- Behind a run that has been found at a place. -/
def Resume.land {μ : Type} (r : Resume) (runs : Runs) (site : ℕ) (record : μ) :
    Except Fault (Cursors μ) := do
  let char ← Checked.sub (site + r.runEnd) r.runStart
  return { token := r.runEnd, char, resume := some { r with nextFrom := site + 1 }, runs, record }

namespace Layout

section

variable {μ : Type} [Tracker μ]

/-- The kind of the token before a position, if there is one. -/
def kindBefore (l : Layout) (i : ℕ) : Except Fault (Option Kind) :=
  if i = 0 then .ok none
  else do
    let last ← Checked.sub i 1
    let kind ← Checked.get l.kinds last
    return some kind

/-- Whether the token at a position is a literal and stands for a character. -/
def isLiteralAt (l : Layout) (i : ℕ) (d : Char) : Except Fault Bool := do
  let kind ← Checked.get l.kinds i
  if kind = .literal then
    let symbol ← Checked.get l.symbols i
    return symbol = d
  else return false

def faceLiteral (l : Layout) (c : Cursors μ) (d : Char) : Except Fault (Turn μ) := do
  let symbol ← Checked.get l.symbols c.token
  return if symbol = d then .onward (c.next (c.char + 1) c.record) else .failed c

/-- A separator behind a star goes with the character before it. -/
def faceSeparator (l : Layout) (c : Cursors μ) (d : Char) : Except Fault (Turn μ) :=
  if l.separator ≠ some d then .ok (.failed c)
  else do
    let before ← l.kindBefore c.token
    let taken ← if before.any Kind.isStar then Tracker.askBefore c.record c.char else .ok false
    return .onward (c.next (c.char + 1)
      (if taken then Recorder.take c.record c.char (c.char + 1) else c.record))

/-- A wildcard for one character takes any but the separator. -/
def faceOne (l : Layout) (c : Cursors μ) (d : Char) : Turn μ :=
  if l.separator = some d then .failed c
  else .onward (c.next (c.char + 1) (Recorder.take c.record c.char (c.char + 1)))

/-- Whether a `?` at a position is single and has a literal behind it that fits. -/
def yieldsAt (l : Layout) (i : ℕ) (d : Char) : Except Fault Bool := do
  let before ← l.kindBefore i
  if before = some .question then return false else l.isLiteralAt (i + 1) d

/-- A single `?` lets a literal go first that fits. -/
def faceQuestion (l : Layout) (c : Cursors μ) (d : Char) : Except Fault (Turn μ) := do
  let yields ← l.yieldsAt c.token d
  return if yields then .onward (c.next c.char c.record) else l.faceOne c d

/-- A star seeks a run, and takes what comes before it. -/
def seekRun (l : Layout) (c : Cursors μ) (start stop limit : ℕ) : Except Fault (Turn μ) := do
  let (site, runs) ← l.findRun c.runs start stop c.char limit
  match site with
  | none => return .failed { c with runs }
  | some site =>
    let behind ← Resume.land ⟨start, stop, c.char, c.char, limit⟩ runs site
      (Recorder.take c.record c.char site)
    return .onward behind

/-- A star that stays before a limit seeks a run right behind it, or goes to the limit. -/
def starWithin (l : Layout) (c : Cursors μ) (limit : ℕ) : Except Fault (Turn μ) := do
  let ahead ← Checked.get l.ahead (c.token + 1)
  if c.token + 1 = ahead.runEnd then
    return .onward (c.next limit (Recorder.take c.record c.char limit))
  else l.seekRun c (c.token + 1) ahead.runEnd limit

/-- Without a literal ahead a star across segments leaves as many separators as are wanted. -/
def leaveSeparators (l : Layout) (c : Cursors μ) : ℕ → Except Fault (Turn μ)
  | 0 => .ok (.onward (c.next l.input.size (Recorder.take c.record c.char l.input.size)))
  | wanted => do
    let found ← separatorFromEnd l.separators c.char wanted
    match found with
    | some stop =>
      return .onward (c.next stop
        (if c.char < stop then Recorder.take c.record c.char stop else c.record))
    | none => return .onward (c.next c.char c.record)

/-- A star across segments seeks the next run anywhere. -/
def starAcross (l : Layout) (c : Cursors μ) : Except Fault (Turn μ) := do
  let ahead ← Checked.get l.ahead (c.token + 1)
  let kind ← Checked.get l.kinds ahead.nextLiteral
  if kind = .literal then
    let run ← Checked.get l.ahead ahead.nextLiteral
    l.seekRun c ahead.nextLiteral run.runEnd l.input.size
  else l.leaveSeparators c ahead.separators

/-- Holds the token at the one cursor against the character at the other. -/
def turn (l : Layout) (c : Cursors μ) : Except Fault (Turn μ) := do
  let kind ← Checked.get l.kinds c.token
  let d ← Checked.get l.input c.char
  match kind with
  | .literal => l.faceLiteral c d
  | .separator => l.faceSeparator c d
  | .question => l.faceQuestion c d
  | .plus => return l.faceOne c d
  | .star => l.starWithin c (l.segmentEnd c.char)
  | .doubleStar =>
    if l.separator.isSome then l.starAcross c else l.starWithin c l.input.size
  | .endOfPattern => return .failed c

/-- After a failure the star that may give way looks for the next place of its run. -/
def retry (l : Layout) (c : Cursors μ) : Except Fault (Status μ) :=
  match c.resume with
  | none => .ok (.ended false c.record)
  | some r => do
    let (site, runs) ← l.findRun c.runs r.runStart r.runEnd r.nextFrom r.limit
    match site with
    | none => return .ended false c.record
    | some site =>
      let behind ← r.land runs site
        (Recorder.take (Recorder.undo c.record r.regionStart) r.regionStart site)
      return .going behind

/-- One round. At the end of the text, the tokens that are left must all be able to take nothing. -/
def round (l : Layout) (c : Cursors μ) : Except Fault (Status μ) :=
  if c.char < l.input.size then do
    let turned ← l.turn c
    match turned with
    | .onward c => return .going c
    | .failed c => l.retry c
  else do
    let ahead ← Checked.get l.ahead c.token
    if ahead.skippable then return .ended true c.record else l.retry c

/-- Before the first round. -/
def start (l : Layout) (record : μ) : Cursors μ :=
  { token := 0, char := 0, resume := none, runs := Array.replicate l.kinds.size none, record }

/-- One place of a walk leads to another. -/
def Reaches (l : Layout) : Cursors μ → Cursors μ → Prop :=
  Relation.ReflTransGen fun c d => l.round c = .ok (.going d)

end

/-- The characters of the text that spans hold. -/
def collect (l : Layout) (spans : Spans) : Except Fault (List Char) := do
  let parts ← spans.latestFirst.reverse.mapM fun span =>
    Checked.slice l.input span.start span.stop
  return parts.flatMap Array.toList

/-! ### What the tables say of a token -/

/-- The kind of the token before a position in a pattern. -/
def before (ts : List Token) : ℕ → Option Kind
  | 0 => none
  | i + 1 => ts[i]?.map Token.kind

section

variable {separator : Option Char} {ts : List Token} {cs : Array Char} {i : ℕ}

theorem kindBefore_tabled (hi : i ≤ ts.length) :
    (tabled separator ts cs).kindBefore i = .ok (before ts i) := by
  cases i with
  | zero => rfl
  | succ i =>
    have hget : ts[i]? = some ts[i] := List.getElem?_eq_getElem hi
    rw [kindBefore, if_neg (Nat.succ_ne_zero i), Checked.sub_of_le (by omega), Checked.ok_bind,
      Nat.add_sub_cancel, get_kinds hget, Checked.ok_bind, before, hget]
    rfl

/-- The run behind a gap ends where the outlook reaches. -/
theorem runEnd_prospect_gap (ts : List Token) (i : ℕ) :
    (prospect ts (i + (Outlook.ofTokens (ts.drop i)).gap)).runEnd =
      i + (Outlook.ofTokens (ts.drop i)).reach := by
  have hdrop : ts.drop (i + (Outlook.ofTokens (ts.drop i)).gap) =
      (ts.drop i).drop (Outlook.ofTokens (ts.drop i)).gap := List.drop_drop.symm
  rw [prospect, Prospect.ofOutlook, hdrop, Outlook.nextRun_drop_gap, Outlook.reach, Nat.add_assoc]

theorem isLiteralAt_tabled (hi : i ≤ ts.length) (d : Char) :
    (tabled separator ts cs).isLiteralAt i d = .ok (decide (ts[i]? = some (.literal d))) := by
  rcases hi.lt_or_eq with hlt | rfl
  · have hget : ts[i]? = some ts[i] := List.getElem?_eq_getElem hlt
    rw [isLiteralAt, get_kinds hget, get_symbols hget, hget, Checked.ok_bind]
    cases ts[i] with
    | literal c => simp [Token.kind, Token.symbol]
    | _ => simp [Token.kind]
  · rw [isLiteralAt, get_kinds_length, Checked.ok_bind]
    simp

theorem yieldsAt_tabled (hi : i + 1 ≤ ts.length) (d : Char) :
    (tabled separator ts cs).yieldsAt i d =
      .ok (decide (before ts i ≠ some .question ∧ ts[i + 1]? = some (.literal d))) := by
  rw [yieldsAt, kindBefore_tabled (Nat.le_of_succ_le hi), Checked.ok_bind]
  split
  · next h => simp [h]
  · next h => simp [h, isLiteralAt_tabled hi]

variable {μ : Type} [Tracker μ] {R : Positions → μ → Prop} (lawful : Tracker.Lawful R)

include lawful in
theorem askBefore_eq {M : Positions} {m : μ} (hm : R M m) (i : ℕ) :
    Tracker.askBefore m i = .ok (decide (0 < i) && Recorder.taken m (i - 1)) := by
  rw [Tracker.askBefore]
  split
  · next h => simp [h]
  · next h =>
    rw [Checked.sub_of_le (by omega), Checked.ok_bind, lawful.ask _ hm,
      decide_eq_true (by omega), Bool.true_and]

/-- What the move of a token does to the cursors, with the outlook on what stands behind it. -/
def perform (l : Layout) (c : Cursors μ) (ahead : Outlook) : Move → Except Fault (Turn μ)
  | .stuck => .ok (.failed c)
  | .yield => .ok (.onward (c.next c.char c.record))
  | .pass => .ok (.onward (c.next (c.char + 1) c.record))
  | .take =>
    .ok (.onward (c.next (c.char + 1) (Recorder.take c.record c.char (c.char + 1))))
  | .trail =>
    .ok (.onward (c.next (c.char + 1)
      (if 0 < c.char ∧ Recorder.taken c.record (c.char - 1) then
        Recorder.take c.record c.char (c.char + 1) else c.record)))
  | .jump stop => .ok (.onward (c.next stop (Recorder.take c.record c.char stop)))
  | .seek limit =>
    l.seekRun c (c.token + 1 + ahead.gap) (c.token + 1 + ahead.reach) limit

/-! ### A turn does what the move says -/

variable {c : Cursors μ} {d : Char}

theorem faceLiteral_eq {e : Char} (ht : ts[c.token]? = some (.literal e)) (prev : Option Kind)
    (us : List Token) :
    (tabled separator ts cs).faceLiteral c d = perform (tabled separator ts cs) c (.ofTokens us)
      ((Leg.facing (ofChars separator cs) prev (.literal e) us).move (ofChars separator cs)
        c.char d) := by
  have hmove : (Leg.facing (ofChars separator cs) prev (.literal e) us).move (ofChars separator cs)
      c.char d = if d = e then .pass else .stuck := rfl
  rw [faceLiteral, get_symbols ht, Checked.ok_bind, hmove, Token.symbol]
  by_cases h : d = e
  · rw [if_pos h, if_pos h.symm]
    rfl
  · rw [if_neg h, if_neg (Ne.symm h)]
    rfl

include lawful in
theorem faceSeparator_eq {M : Positions} (hm : R M c.record) {e : Char}
    (ht : ts[c.token]? = some (.separator e)) (he : separator = some e) (us : List Token) :
    (tabled separator ts cs).faceSeparator c d = perform (tabled separator ts cs) c (.ofTokens us)
      ((Leg.facing (ofChars separator cs) (before ts c.token) (.separator e) us).move
        (ofChars separator cs) c.char d) := by
  have hle : c.token ≤ ts.length := (List.getElem?_eq_some_iff.mp ht).1.le
  have hsep : (tabled separator ts cs).separator = some e := he
  have hmove : (Leg.facing (ofChars separator cs) (before ts c.token) (.separator e) us).move
      (ofChars separator cs) c.char d =
        if d = e then if (before ts c.token).any Kind.isStar then .trail else .pass
        else .stuck := rfl
  rw [faceSeparator, hsep, kindBefore_tabled hle, hmove]
  by_cases h : d = e
  · subst h
    rw [if_neg (not_not.mpr rfl), if_pos rfl, Checked.ok_bind]
    by_cases hstar : (before ts c.token).any Kind.isStar
    · simp only [if_pos hstar, askBefore_eq lawful hm, Checked.ok_bind, perform,
        Bool.and_eq_true, decide_eq_true_eq, Checked.pure_eq_ok]
    · simp only [if_neg hstar, Checked.ok_bind]
      rfl
  · rw [if_pos (fun hd => h (Option.some.inj hd).symm), if_neg h]
    rfl

theorem faceOne_eq {t : Token} (prev : Option Kind) (us : List Token)
    (hmove : (Leg.facing (ofChars separator cs) prev t us).move (ofChars separator cs) c.char d =
      if separator = some d then .stuck else .take) :
    .ok ((tabled separator ts cs).faceOne c d) = perform (tabled separator ts cs) c (.ofTokens us)
      ((Leg.facing (ofChars separator cs) prev t us).move (ofChars separator cs) c.char d) := by
  rw [hmove, faceOne]
  have hsep : (tabled separator ts cs).separator = separator := rfl
  rw [hsep]
  split <;> rfl

theorem faceQuestion_eq (ht : ts[c.token]? = some .question) :
    (tabled separator ts cs).faceQuestion c d =
      perform (tabled separator ts cs) c (.ofTokens (ts.drop (c.token + 1)))
        ((Leg.facing (ofChars separator cs) (before ts c.token) .question
          (ts.drop (c.token + 1))).move (ofChars separator cs) c.char d) := by
  have hlt : c.token + 1 ≤ ts.length := (List.getElem?_eq_some_iff.mp ht).1
  have hmove := @Leg.move_question (ofChars separator cs) (before ts c.token)
    (ts.drop (c.token + 1)) c.char d
  rw [List.head?_drop] at hmove
  rw [faceQuestion, yieldsAt_tabled hlt, Checked.ok_bind]
  by_cases hyield : before ts c.token ≠ some .question ∧ ts[c.token + 1]? = some (.literal d)
  · rw [hmove, if_pos hyield, if_pos (decide_eq_true hyield)]
    rfl
  · rw [if_neg (by simpa using hyield)]
    refine faceOne_eq _ _ ?_
    rw [hmove, if_neg hyield]
    rfl

theorem starWithin_eq {t : Token} (ht : ts[c.token]? = some t) {limit : ℕ}
    (hlimit : (ofChars separator cs).segmentStop c.char = limit) :
    (tabled separator ts cs).starWithin c limit =
      perform (tabled separator ts cs) c (.ofTokens (ts.drop (c.token + 1)))
        ((Leg.facing (ofChars separator cs) (before ts c.token) t
          (ts.drop (c.token + 1))).moveInSegment (ofChars separator cs) c.char) := by
  have hlt : c.token + 1 ≤ ts.length := (List.getElem?_eq_some_iff.mp ht).1
  have hend : (prospect ts (c.token + 1)).runEnd =
      c.token + 1 + (Outlook.ofTokens (ts.drop (c.token + 1))).nextRun.length := rfl
  rw [starWithin, get_ahead hlt, Checked.ok_bind, hend]
  rcases Leg.moveInSegment_cases (Leg.facing (ofChars separator cs) (before ts c.token) t
    (ts.drop (c.token + 1))) (ofChars separator cs) c.char with ⟨hrun, hmove⟩ | ⟨hrun, hmove⟩
  · have hrun : (Outlook.ofTokens (ts.drop (c.token + 1))).nextRun ≠ [] := hrun
    obtain ⟨hgap, hr⟩ := Outlook.run_eq_nextRun hrun
    have hpos := List.length_pos_of_ne_nil hrun
    rw [hmove, hlimit, if_neg (by omega), perform, Outlook.reach, hgap, hr, Nat.zero_add,
      Nat.add_zero]
  · have hrun : (Outlook.ofTokens (ts.drop (c.token + 1))).nextRun = [] := hrun
    rw [hmove, hlimit, if_pos (by rw [hrun]; rfl)]
    rfl

include lawful in
/-- What is left to a star across segments when no literal is ahead. -/
theorem leaveSeparators_eq {e : Char} (he : separator = some e) (leg : Leg)
    (hrun : leg.ahead.run = []) :
    (tabled separator ts cs).leaveSeparators c leg.ahead.separators =
      perform (tabled separator ts cs) c leg.ahead
        (leg.moveAcross (ofChars separator cs) c.char) := by
  subst he
  rw [Leg.moveAcross, if_pos (List.isEmpty_iff.mpr hrun)]
  cases leg.ahead.separators with
  | zero => rfl
  | succ k =>
    have hpositions : (tabled (some e) ts cs).separators = separatorPositions (some e) cs := rfl
    rw [leaveSeparators, hpositions, separatorFromEnd_positions, Checked.ok_bind]
    · dsimp only
      generalize ((ofChars (some e) cs).separatorFromEnd k).filter
        (fun stop => c.char ≤ stop + 1) = found
      cases found with
      | none =>
        rw [Option.getD_none, perform, lawful.take c.record le_rfl]
        rfl
      | some stop =>
        have hrecord : (if c.char < stop then Recorder.take c.record c.char stop else c.record) =
            Recorder.take c.record c.char stop := by
          split
          · rfl
          · next h => exact (lawful.take c.record (Nat.le_of_not_lt h)).symm
        rw [Option.getD_some, perform]
        simp only [hrecord]
        rfl
    · exact Nat.succ_ne_zero k

include lawful in
theorem starAcross_eq {t : Token} (ht : ts[c.token]? = some t) {e : Char}
    (he : separator = some e) :
    (tabled separator ts cs).starAcross c =
      perform (tabled separator ts cs) c (.ofTokens (ts.drop (c.token + 1)))
        ((Leg.facing (ofChars separator cs) (before ts c.token) t
          (ts.drop (c.token + 1))).moveAcross (ofChars separator cs) c.char) := by
  have hlt : c.token + 1 ≤ ts.length := (List.getElem?_eq_some_iff.mp ht).1
  have hnext : (prospect ts (c.token + 1)).nextLiteral =
      c.token + 1 + (Outlook.ofTokens (ts.drop (c.token + 1))).gap := rfl
  rw [starAcross, get_ahead hlt, Checked.ok_bind, hnext]
  by_cases hrun : (Outlook.ofTokens (ts.drop (c.token + 1))).run = []
  · have hend : c.token + 1 + (Outlook.ofTokens (ts.drop (c.token + 1))).gap = ts.length := by
      rw [Outlook.gap_eq_length hrun, List.length_drop]
      omega
    rw [hend, get_kinds_length, Checked.ok_bind, if_neg (by decide)]
    exact leaveSeparators_eq lawful he (Leg.facing (ofChars separator cs) (before ts c.token) t
      (ts.drop (c.token + 1))) hrun
  · obtain ⟨f, hf⟩ := Outlook.exists_getElem?_gap hrun
    rw [List.getElem?_drop] at hf
    have hle : c.token + 1 + (Outlook.ofTokens (ts.drop (c.token + 1))).gap ≤ ts.length :=
      (List.getElem?_eq_some_iff.mp hf).1.le
    have hmove : (Leg.facing (ofChars separator cs) (before ts c.token) t
        (ts.drop (c.token + 1))).moveAcross (ofChars separator cs) c.char =
          .seek (ofChars separator cs).size := if_neg (mt List.isEmpty_iff.mp hrun)
    have hkind : (Token.literal f).kind = .literal := rfl
    rw [get_kinds hf, Checked.ok_bind, if_pos hkind, get_ahead hle, Checked.ok_bind,
      runEnd_prospect_gap, hmove]
    rfl

include lawful in
/-- The token at the one cursor does to both what its move says. -/
theorem turn_eq (tidy : Token.Tidy separator ts) {M : Positions} (hm : R M c.record) {t : Token}
    (ht : ts[c.token]? = some t) (hd : cs[c.char]? = some d) :
    (tabled separator ts cs).turn c =
      perform (tabled separator ts cs) c (.ofTokens (ts.drop (c.token + 1)))
        ((Leg.facing (ofChars separator cs) (before ts c.token) t (ts.drop (c.token + 1))).move
          (ofChars separator cs) c.char d) := by
  have hmem : t ∈ ts := List.mem_of_getElem? ht
  have hinput : Checked.get (tabled separator ts cs).input c.char = .ok d :=
    Checked.get_of_getElem? hd
  rw [turn, get_kinds ht, Checked.ok_bind, hinput, Checked.ok_bind]
  cases t with
  | literal e => exact faceLiteral_eq ht _ _
  | separator e => exact faceSeparator_eq lawful hm ht (tidy.separator_eq e hmem) _
  | question => exact faceQuestion_eq ht
  | plus => exact faceOne_eq _ _ rfl
  | star =>
    rw [Token.kind, segmentEnd_tabled]
    exact starWithin_eq ht rfl
  | doubleStar =>
    have hle : c.char ≤ cs.size := (Array.getElem?_eq_some_iff.mp hd).1.le
    cases separator with
    | none => exact starWithin_eq ht (Subject.segmentStop_none hle)
    | some e => exact starAcross_eq lawful ht rfl

end

end Layout

end Wildcard
