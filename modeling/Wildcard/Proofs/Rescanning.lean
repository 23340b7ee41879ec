import Wildcard.Proofs.Cursors
import Wildcard.Proofs.Scans

/-! A walk that looks nothing up.

    The same walk can be made without tables: whenever the cursors need an answer, the pattern or
    the text is scanned for it. From where a walk comes to stand, each round then does the same to
    the cursors, so it ends with the same verdict and the same record:

        cursors, tables  ──round──▶  cursors', tables'      tables filled before, or on the way
           │ bare                        │ bare
        cursors         ──rescan──▶  cursors'               nothing kept but the cursors -/

namespace Wildcard

open Search (kindsOf)
open Subject (ofChars)

/-! ### The walk -/

namespace Rescan

variable {μ : Type} [Tracker μ]

/-- A star seeks a run, and takes what comes before it. -/
def seekRun (l : Layout) (c : Cursors μ) (start stop limit : ℕ) : Except Fault (Turn μ) :=
  match l.scanRun start stop c.char limit with
  | none => .ok (.failed c)
  | some site => do
    let behind ← Resume.land ⟨start, stop, c.char, c.char, limit⟩ c.runs site
      (Recorder.take c.record c.char site)
    return .onward behind

/-- A star that stays before a limit seeks a run right behind it, or goes to the limit. -/
def starWithin (l : Layout) (c : Cursors μ) (limit : ℕ) : Except Fault (Turn μ) :=
  let stop := (Prospect.scan l.kinds.toList (c.token + 1)).runEnd
  if c.token + 1 = stop then
    .ok (.onward (c.next limit (Recorder.take c.record c.char limit)))
  else seekRun l c (c.token + 1) stop limit

/-- Without a literal ahead a star across segments leaves as many separators as are wanted. -/
def leaveSeparators (l : Layout) (c : Cursors μ) : ℕ → Turn μ
  | 0 => .onward (c.next l.input.size (Recorder.take c.record c.char l.input.size))
  | wanted =>
    match l.scanSeparatorFromEnd c.char wanted with
    | some stop =>
      .onward (c.next stop
        (if c.char < stop then Recorder.take c.record c.char stop else c.record))
    | none => .onward (c.next c.char c.record)

/-- A star across segments seeks the next run anywhere. -/
def starAcross (l : Layout) (c : Cursors μ) : Except Fault (Turn μ) := do
  let ahead := Prospect.scan l.kinds.toList (c.token + 1)
  let kind ← Checked.get l.kinds ahead.nextLiteral
  if kind = .literal then
    seekRun l c ahead.nextLiteral (Prospect.scan l.kinds.toList ahead.nextLiteral).runEnd
      l.input.size
  else return leaveSeparators l c ahead.separators

/-- Holds the token at the one cursor against the character at the other. -/
def turn (l : Layout) (c : Cursors μ) : Except Fault (Turn μ) := do
  let kind ← Checked.get l.kinds c.token
  let d ← Checked.get l.input c.char
  match kind with
  | .literal => l.faceLiteral c d
  | .separator => l.faceSeparator c d
  | .question => l.faceQuestion c d
  | .plus => return l.faceOne c d
  | .star => starWithin l c (l.scanSegmentEnd c.char)
  | .doubleStar => if l.separator.isSome then starAcross l c else starWithin l c l.input.size
  | .endOfPattern => return .failed c

/-- After a failure the star that may give way looks for the next place of its run. -/
def retry (l : Layout) (c : Cursors μ) : Except Fault (Status μ) :=
  match c.resume with
  | none => .ok (.ended false c.record)
  | some r =>
    match l.scanRun r.runStart r.runEnd r.nextFrom r.limit with
    | none => .ok (.ended false c.record)
    | some site => do
      let behind ← r.land c.runs site
        (Recorder.take (Recorder.undo c.record r.regionStart) r.regionStart site)
      return .going behind

/-- One round. At the end of the text, the tokens that are left must all be able to take nothing. -/
def round (l : Layout) (c : Cursors μ) : Except Fault (Status μ) :=
  if c.char < l.input.size then do
    let turned ← turn l c
    match turned with
    | .onward c => return .going c
    | .failed c => retry l c
  else if (Prospect.scan l.kinds.toList c.token).skippable then .ok (.ended true c.record)
  else retry l c

/-- Before the first round. -/
def start (record : μ) : Cursors μ :=
  { token := 0, char := 0, resume := none, runs := #[], record }

/-- One place of a walk leads to another. -/
def Reaches (l : Layout) : Cursors μ → Cursors μ → Prop :=
  Relation.ReflTransGen fun c d => round l c = .ok (.going d)

end Rescan

/-! ### Without tables -/

/-- A pattern and a text without their tables. -/
def Layout.bare (l : Layout) : Layout :=
  { l with ahead := #[], segmentEnds := #[], separators := #[] }

/-- A pattern and a text as they are. -/
def Layout.raw (p : Pattern) (text : String) : Layout :=
  { symbols := p.symbols.toArray
    kinds := p.kinds.toArray
    ahead := #[]
    separator := p.separator
    input := text.toList.toArray
    segmentEnds := #[]
    separators := #[] }

section

variable {μ : Type}

/-- Cursors without the tables of places. -/
def Cursors.bare (c : Cursors μ) : Cursors μ := { c with runs := #[] }

def Turn.bare : Turn μ → Turn μ
  | .onward c => .onward c.bare
  | .failed c => .failed c.bare

def Status.bare : Status μ → Status μ
  | .going c => .going c.bare
  | .ended fits m => .ended fits m

end

namespace Layout

variable {μ : Type} [Tracker μ] (l : Layout) (c : Cursors μ) (d : Char)

omit [Tracker μ] in
theorem faceLiteral_bare : l.bare.faceLiteral c.bare d = Turn.bare <$> l.faceLiteral c d := by
  have hget : Checked.get l.bare.symbols c.bare.token = Checked.get l.symbols c.token := rfl
  rw [faceLiteral, faceLiteral, hget]
  cases Checked.get l.symbols c.token with
  | error e => rfl
  | ok symbol =>
    rw [Checked.ok_bind, Checked.ok_bind]
    split <;> rfl

theorem faceSeparator_bare :
    l.bare.faceSeparator c.bare d = Turn.bare <$> l.faceSeparator c d := by
  have hkind : l.bare.kindBefore c.bare.token = l.kindBefore c.token := rfl
  have hsep : l.bare.separator = l.separator := rfl
  have hask : Tracker.askBefore c.bare.record c.bare.char = Tracker.askBefore c.record c.char := rfl
  rw [faceSeparator, faceSeparator, hkind, hsep, hask]
  split
  · rfl
  · cases l.kindBefore c.token with
    | error e => rfl
    | ok before =>
      rw [Checked.ok_bind, Checked.ok_bind]
      dsimp only
      split
      · cases Tracker.askBefore c.record c.char <;> rfl
      · rfl

theorem faceOne_bare : l.bare.faceOne c.bare d = (l.faceOne c d).bare := by
  have hsep : l.bare.separator = l.separator := rfl
  rw [faceOne, faceOne, hsep]
  split <;> rfl

theorem faceQuestion_bare : l.bare.faceQuestion c.bare d = Turn.bare <$> l.faceQuestion c d := by
  have hyields : l.bare.yieldsAt c.bare.token d = l.yieldsAt c.token d := rfl
  rw [faceQuestion, faceQuestion, hyields, faceOne_bare]
  cases l.yieldsAt c.token d with
  | error e => rfl
  | ok yields => cases yields <;> rfl

end Layout

/-! ### One round -/

/-- The next literal stands within the pattern, or it is the end. -/
theorem nextLiteral_le (ts : List Token) {i : ℕ} (hi : i ≤ ts.length) :
    (prospect ts i).nextLiteral ≤ ts.length := by
  have hgap : (Outlook.ofTokens (ts.drop i)).gap ≤ (ts.drop i).length := by
    by_cases hr : (Outlook.ofTokens (ts.drop i)).run = []
    · exact (Outlook.gap_eq_length hr).le
    · exact (Nat.le_add_right _ _).trans (Outlook.reach_le hr)
  have hnext : (prospect ts i).nextLiteral = i + (Outlook.ofTokens (ts.drop i)).gap := rfl
  rw [List.length_drop] at hgap
  omega

namespace Rescan

open Layout (tabled)

variable {μ : Type} [Tracker μ] {separator : Option Char} {ts : List Token} {cs : Array Char}
  {c : Cursors μ}

theorem seekRun_bare (hruns : c.runs.Sound (ofChars separator cs) ts) {start stop : ℕ}
    (hstart : start ≤ ts.length) (hstop : stop = start + (runAt ts start).length) (limit : ℕ) :
    seekRun (tabled separator ts cs).bare c.bare start stop limit =
      Turn.bare <$> (tabled separator ts cs).seekRun c start stop limit := by
  obtain ⟨runs, -, hfind⟩ := Layout.findRun_tabled hruns hstart hstop c.char limit
  have hscan : (tabled separator ts cs).bare.scanRun start stop c.bare.char limit =
      (tabled separator ts cs).scanRun start stop c.char limit := rfl
  rw [seekRun, Layout.seekRun, hfind, Checked.ok_bind, hscan]
  cases (tabled separator ts cs).scanRun start stop c.char limit with
  | none => rfl
  | some site =>
    dsimp only
    rw [Resume.land, Resume.land]
    dsimp only
    cases Checked.sub (site + stop) start <;> rfl

theorem starWithin_bare (hruns : c.runs.Sound (ofChars separator cs) ts)
    (hlt : c.token < ts.length) (limit : ℕ) :
    starWithin (tabled separator ts cs).bare c.bare limit =
      Turn.bare <$> (tabled separator ts cs).starWithin c limit := by
  have hscan : Prospect.scan (tabled separator ts cs).bare.kinds.toList (c.bare.token + 1) =
      prospect ts (c.token + 1) := (prospect_eq_scan hlt).symm
  rw [starWithin, Layout.starWithin, Layout.get_ahead hlt, Checked.ok_bind, hscan]
  split
  · next h =>
    rw [if_pos (show c.token + 1 = _ from h)]
    rfl
  · next h =>
    rw [if_neg (show ¬c.token + 1 = _ from h)]
    exact seekRun_bare hruns hlt rfl limit

theorem leaveSeparators_bare (wanted : ℕ) :
    .ok (leaveSeparators (tabled separator ts cs).bare c.bare wanted) =
      Turn.bare <$> (tabled separator ts cs).leaveSeparators c wanted := by
  cases wanted with
  | zero => rfl
  | succ k =>
    have hscan : (tabled separator ts cs).bare.scanSeparatorFromEnd c.bare.char (k + 1) =
        (tabled separator ts cs).scanSeparatorFromEnd c.char (k + 1) := rfl
    rw [leaveSeparators, Layout.leaveSeparators,
      Layout.separatorFromEnd_tabled c.char (Nat.succ_pos k), Checked.ok_bind, hscan]
    · cases (tabled separator ts cs).scanSeparatorFromEnd c.char (k + 1) <;> rfl
    · exact Nat.succ_ne_zero k
    · exact Nat.succ_ne_zero k

theorem starAcross_bare (hruns : c.runs.Sound (ofChars separator cs) ts)
    (hlt : c.token < ts.length) :
    starAcross (tabled separator ts cs).bare c.bare =
      Turn.bare <$> (tabled separator ts cs).starAcross c := by
  have hscan : Prospect.scan (tabled separator ts cs).bare.kinds.toList (c.bare.token + 1) =
      prospect ts (c.token + 1) := (prospect_eq_scan hlt).symm
  have hnext := nextLiteral_le ts hlt
  have hrun : Prospect.scan (tabled separator ts cs).bare.kinds.toList
      (prospect ts (c.token + 1)).nextLiteral = prospect ts (prospect ts (c.token + 1)).nextLiteral :=
    (prospect_eq_scan hnext).symm
  have hget : Checked.get (tabled separator ts cs).bare.kinds =
      Checked.get (tabled separator ts cs).kinds := rfl
  rw [starAcross, Layout.starAcross, Layout.get_ahead hlt, Checked.ok_bind, hscan, hget, hrun]
  cases Checked.get (tabled separator ts cs).kinds (prospect ts (c.token + 1)).nextLiteral with
  | error e => rfl
  | ok kind =>
    rw [Checked.ok_bind, Checked.ok_bind]
    split
    · rw [Layout.get_ahead hnext, Checked.ok_bind]
      exact seekRun_bare hruns hnext rfl _
    · exact leaveSeparators_bare _

theorem turn_bare (hruns : c.runs.Sound (ofChars separator cs) ts) (hle : c.token ≤ ts.length) :
    turn (tabled separator ts cs).bare c.bare = Turn.bare <$> (tabled separator ts cs).turn c := by
  have hkind : Checked.get (tabled separator ts cs).bare.kinds c.bare.token =
      Checked.get (tabled separator ts cs).kinds c.token := rfl
  have hchar : Checked.get (tabled separator ts cs).bare.input c.bare.char =
      Checked.get (tabled separator ts cs).input c.char := rfl
  rw [turn, Layout.turn, hkind, hchar]
  rcases hle.lt_or_eq with hlt | heq
  · rw [Layout.get_kinds (List.getElem?_eq_getElem hlt), Checked.ok_bind, Checked.ok_bind]
    cases Checked.get (tabled separator ts cs).input c.char with
    | error e => rfl
    | ok d =>
      rw [Checked.ok_bind, Checked.ok_bind]
      cases ts[c.token].kind with
      | literal => exact Layout.faceLiteral_bare _ c d
      | separator => exact Layout.faceSeparator_bare _ c d
      | question => exact Layout.faceQuestion_bare _ c d
      | plus => exact congrArg Except.ok (Layout.faceOne_bare _ c d)
      | star =>
        have hstop : (tabled separator ts cs).bare.scanSegmentEnd c.bare.char =
            (tabled separator ts cs).segmentEnd c.char :=
          (Layout.scans_tabled.segmentEnd c.char).symm
        dsimp only
        rw [hstop]
        exact starWithin_bare hruns hlt _
      | doubleStar =>
        have hsep : (tabled separator ts cs).bare.separator = (tabled separator ts cs).separator :=
          rfl
        dsimp only
        rw [hsep]
        split
        · exact starAcross_bare hruns hlt
        · exact starWithin_bare hruns hlt _
      | endOfPattern => rfl
  · rw [heq, Layout.get_kinds_length, Checked.ok_bind, Checked.ok_bind]
    cases Checked.get (tabled separator ts cs).input c.char <;> rfl

theorem retry_bare (hruns : c.runs.Sound (ofChars separator cs) ts)
    (hresume : ∀ r, c.resume = some r → r.Sound ts cs) :
    retry (tabled separator ts cs).bare c.bare =
      Status.bare <$> (tabled separator ts cs).retry c := by
  have hbare : c.bare.resume = c.resume := rfl
  rw [retry, Layout.retry, hbare]
  cases hr : c.resume with
  | none => rfl
  | some r =>
    have hsound := hresume r hr
    obtain ⟨runs, -, hfind⟩ :=
      Layout.findRun_tabled hruns hsound.runEnd_le.1 hsound.runEnd r.nextFrom r.limit
    have hscan : (tabled separator ts cs).bare.scanRun r.runStart r.runEnd r.nextFrom r.limit =
        (tabled separator ts cs).scanRun r.runStart r.runEnd r.nextFrom r.limit := rfl
    dsimp only
    rw [hfind, Checked.ok_bind, hscan]
    cases (tabled separator ts cs).scanRun r.runStart r.runEnd r.nextFrom r.limit with
    | none => rfl
    | some site =>
      dsimp only
      rw [Resume.land, Resume.land]
      cases Checked.sub (site + r.runEnd) r.runStart <;> rfl

/-- From where a walk may come to stand, a round that scans does the same as one that looks up. -/
theorem round_bare {R : Positions → μ → Prop} (lawful : Tracker.Lawful R)
    (tidy : Token.Tidy separator ts) (hc : c.Sound R separator ts cs) :
    round (tabled separator ts cs).bare c.bare =
      Status.bare <$> (tabled separator ts cs).round c := by
  have hsize : (tabled separator ts cs).bare.input.size = (tabled separator ts cs).input.size := rfl
  have hchar : c.bare.char = c.char := rfl
  rw [round, Layout.round, hsize, hchar]
  split
  · next hlt =>
    obtain ⟨turned, hturn, hsound, -⟩ := Layout.turn_spec lawful tidy hc hlt
    rw [turn_bare hc.runs hc.token_le, hturn, Checked.map_ok, Checked.ok_bind, Checked.ok_bind]
    cases turned with
    | onward d => rfl
    | failed d =>
      have hsound : d.Sound R separator ts cs := hsound
      exact retry_bare hsound.runs hsound.resume
  · have hscan : Prospect.scan (tabled separator ts cs).bare.kinds.toList c.bare.token =
        prospect ts c.token := (prospect_eq_scan hc.token_le).symm
    rw [hscan, Layout.get_ahead hc.token_le, Checked.ok_bind]
    split
    · rfl
    · exact retry_bare hc.runs hc.resume

end Rescan

/-! ### The tables made on the way -/

theorem Resume.runs_of_land {μ : Type} {r : Resume} {runs : Runs} {site : ℕ} {m : μ}
    {d : Cursors μ} (h : r.land runs site m = .ok d) : runs = d.runs := by
  obtain ⟨char, -, hd⟩ := Checked.exists_of_bind h
  obtain rfl := Except.ok.inj hd
  rfl

/-- The cursors behind a turn. -/
def Turn.cursors {μ : Type} : Turn μ → Cursors μ
  | .onward c | .failed c => c

namespace Layout

variable {μ : Type} [Tracker μ] {separator : Option Char} {ts : List Token} {cs : Array Char}
  {c : Cursors μ}

/-- Looking for a run to its end is asking for it. -/
theorem Asked.findRun {runs : Runs} (h : (tabled separator ts cs).Asked runs) {start stop : ℕ}
    (hstart : start ≤ ts.length) (hstop : stop = start + (runAt ts start).length)
    (first limit : ℕ) :
    ∃ found runs', (tabled separator ts cs).findRun runs start stop first limit =
      .ok (found, runs') ∧ (tabled separator ts cs).Asked runs' := by
  obtain ⟨runs', -, hfind⟩ := findRun_tabled h.sound hstart hstop first limit
  have inside : start < (tabled separator ts cs).kinds.size := by
    have hsize : (tabled separator ts cs).kinds.size = ts.length + 1 := size_closed ts
    omega
  have hend : (Prospect.scan (tabled separator ts cs).kinds.toList start).runEnd = stop :=
    (runEnd_scan hstart).trans hstop.symm
  rw [← hend] at hfind ⊢
  exact ⟨_, runs', hfind, .run h inside hfind⟩

theorem asked_seekRun (h : (tabled separator ts cs).Asked c.runs) {start stop limit : ℕ}
    (hstart : start ≤ ts.length) (hstop : stop = start + (runAt ts start).length) {y : Turn μ}
    (hy : (tabled separator ts cs).seekRun c start stop limit = .ok y) :
    (tabled separator ts cs).Asked y.cursors.runs := by
  obtain ⟨found, runs, hfind, hasked⟩ := h.findRun hstart hstop c.char limit
  rw [seekRun, hfind, Checked.ok_bind] at hy
  cases found with
  | none =>
    obtain rfl := Except.ok.inj hy
    exact hasked
  | some site =>
    obtain ⟨d, hland, hd⟩ := Checked.exists_of_bind hy
    obtain rfl := Except.ok.inj hd
    exact Resume.runs_of_land hland ▸ hasked

theorem asked_retry (h : (tabled separator ts cs).Asked c.runs)
    (hresume : ∀ r, c.resume = some r → r.Sound ts cs) {d : Cursors μ}
    (hd : (tabled separator ts cs).retry c = .ok (.going d)) :
    (tabled separator ts cs).Asked d.runs := by
  rw [retry] at hd
  cases hr : c.resume with
  | none =>
    rw [hr] at hd
    cases hd
  | some r =>
    have hsound := hresume r hr
    obtain ⟨found, runs, hfind, hasked⟩ :=
      h.findRun hsound.runEnd_le.1 hsound.runEnd r.nextFrom r.limit
    rw [hr] at hd
    dsimp only at hd
    rw [hfind, Checked.ok_bind] at hd
    cases found with
    | none => cases hd
    | some site =>
      obtain ⟨e, hland, he⟩ := Checked.exists_of_bind hd
      obtain rfl := Status.going.inj (Except.ok.inj he)
      exact Resume.runs_of_land hland ▸ hasked

/-- The run that a move seeks is looked for to its end. -/
theorem asked_perform (h : (tabled separator ts cs).Asked c.runs) (hlt : c.token < ts.length)
    {move : Move} {y : Turn μ}
    (hy : (tabled separator ts cs).perform c (.ofTokens (ts.drop (c.token + 1))) move = .ok y) :
    (tabled separator ts cs).Asked y.cursors.runs := by
  cases move with
  | seek limit =>
    have hstart : c.token + 1 + (Outlook.ofTokens (ts.drop (c.token + 1))).gap ≤ ts.length :=
      nextLiteral_le ts hlt
    have hstop : c.token + 1 + (Outlook.ofTokens (ts.drop (c.token + 1))).reach =
        c.token + 1 + (Outlook.ofTokens (ts.drop (c.token + 1))).gap +
          (runAt ts (c.token + 1 + (Outlook.ofTokens (ts.drop (c.token + 1))).gap)).length :=
      (runEnd_prospect_gap ts (c.token + 1)).symm
    exact asked_seekRun h hstart hstop hy
  | _ =>
    obtain rfl := Except.ok.inj hy
    exact h

/-- A round asks for runs to their ends only. -/
theorem asked_round {R : Positions → μ → Prop} (lawful : Tracker.Lawful R)
    (tidy : Token.Tidy separator ts) (hc : c.Sound R separator ts cs)
    (h : (tabled separator ts cs).Asked c.runs) {d : Cursors μ}
    (hd : (tabled separator ts cs).round c = .ok (.going d)) :
    (tabled separator ts cs).Asked d.runs := by
  rw [round] at hd
  split at hd
  · next hlt =>
    have hlt : c.char < cs.size := hlt
    obtain ⟨turned, hturn, hsound, -⟩ := turn_spec lawful tidy hc hlt
    have hturned : (tabled separator ts cs).Asked turned.cursors.runs := by
      rcases hc.token_le.lt_or_eq with htoken | htoken
      · obtain ⟨M, hm, -⟩ := hc.record
        rw [turn_eq lawful tidy hm (List.getElem?_eq_getElem htoken)
          (Array.getElem?_eq_getElem hlt)] at hturn
        exact asked_perform h htoken hturn
      · have hget : Checked.get (tabled separator ts cs).input c.char = .ok _ :=
          Checked.get_of_lt hlt
        rw [turn, htoken, get_kinds_length, Checked.ok_bind, hget, Checked.ok_bind] at hturn
        obtain rfl := Except.ok.inj hturn
        exact h
    rw [hturn, Checked.ok_bind] at hd
    cases turned with
    | onward e =>
      obtain rfl := Status.going.inj (Except.ok.inj hd)
      exact hturned
    | failed e =>
      have hsound : e.Sound R separator ts cs := hsound
      exact asked_retry hturned hsound.resume hd
  · rw [get_ahead hc.token_le, Checked.ok_bind] at hd
    split at hd
    · cases hd
    · exact asked_retry h hc.resume hd

/-- Wherever a walk comes to stand, its tables are those of runs asked for to their ends. -/
theorem Reaches.asked {R : Positions → μ → Prop} (lawful : Tracker.Lawful R)
    (tidy : Token.Tidy separator ts) (hc : c.Sound R separator ts cs)
    (h : (tabled separator ts cs).Asked c.runs) {d : Cursors μ}
    (hreach : (tabled separator ts cs).Reaches c d) : (tabled separator ts cs).Asked d.runs := by
  induction hreach with
  | refl => exact h
  | tail hreach hround ih =>
    exact asked_round lawful tidy (Reaches.sound lawful tidy hc hreach) ih hround

end Layout

namespace Rescan

open Layout (tabled)

variable {μ : Type} [Tracker μ] {separator : Option Char} {ts : List Token} {cs : Array Char}
  {c : Cursors μ}

/-! ### The whole walk -/

/-- A walk that scans comes where one that looks up comes. -/
theorem Reaches.of_tabled {R : Positions → μ → Prop} (lawful : Tracker.Lawful R)
    (tidy : Token.Tidy separator ts) (hc : c.Sound R separator ts cs) {d : Cursors μ}
    (h : (tabled separator ts cs).Reaches c d) :
    Reaches (tabled separator ts cs).bare c.bare d.bare := by
  induction h with
  | refl => exact .refl
  | @tail d e hreach hround ih =>
    have hsound := Layout.Reaches.sound lawful tidy hc hreach
    refine .tail ih ?_
    rw [round_bare lawful tidy hsound, hround]
    rfl

/-- Two walks from the start that end alike, one that looks up and one that scans. The one makes its
    tables for runs that it looks for to their ends, and each of its rounds is a round of the
    other. -/
structure Agrees (l : Layout) (m : μ) (fits : Bool) (m' : μ) : Prop where
  asked : ∀ c, l.Reaches (l.start m) c → l.Asked c.runs
  round_eq : ∀ c, l.Reaches (l.start m) c → round l.bare c.bare = Status.bare <$> l.round c
  ends : ∃ c, l.Reaches (l.start m) c ∧ l.round c = .ok (.ended fits m')
  scans : ∃ c, Reaches l.bare (start m) c ∧ round l.bare c = .ok (.ended fits m')

/-- Both walks end like the search. -/
theorem agrees_search {R : Positions → μ → Prop} (lawful : Tracker.Lawful R) {m : μ}
    (hm : R (fun _ => false) m) (p : Pattern) (text : String) :
    let found := search p.separator p.tokens text.toList.toArray m
    Agrees (tabled p.separator p.tokens text.toList.toArray) m found.isMatched found.record := by
  intro found
  obtain ⟨hsound, -⟩ := @Layout.start_spec μ _ R p.separator p.tokens text.toList.toArray m hm
  have hround : ∀ c, (tabled p.separator p.tokens text.toList.toArray).Reaches
      ((tabled p.separator p.tokens text.toList.toArray).start m) c →
      round (tabled p.separator p.tokens text.toList.toArray).bare c.bare =
        Status.bare <$> (tabled p.separator p.tokens text.toList.toArray).round c :=
    fun c hc => round_bare lawful p.tidy (Layout.Reaches.sound lawful p.tidy hsound hc)
  obtain ⟨c, hreach, hend⟩ := (Layout.safe_search lawful hm p text).1.ends
  refine ⟨fun d hd => hd.asked lawful p.tidy hsound .nothing, hround, ⟨c, hreach, hend⟩, c.bare,
    .of_tabled lawful p.tidy hsound hreach, ?_⟩
  rw [hround c hreach, hend]
  rfl

end Rescan

namespace Pattern

/-- Whatever the pattern, the separator and the text, every table says what a scan says, the tables
    of runs in whatever order they are made and asked. A walk through the pattern and the text as
    they are, with a scan in place of each look-up, goes the same rounds as the walk with tables,
    and both end with the verdict of the pattern, and with spans that hold its mask. -/
theorem rescanning_changes_nothing (pattern : String) (separator : Option Char) (text : String) :
    ∃ l, Layout.ofPattern (compile pattern separator) text = .ok l ∧
      l.bare = .raw (compile pattern separator) text ∧ l.Scans ∧
      Rescan.Agrees l () ((compile pattern separator).isMatch text) () ∧
      ∃ spans kept,
        Rescan.Agrees l Spans.empty ((compile pattern separator).isMatch text) spans ∧
        l.collect spans = .ok kept ∧
        (compile pattern separator).mask? text =
          if (compile pattern separator).isMatch text then some (String.ofList kept) else none := by
  generalize compile pattern separator = p
  have verdict := Rescan.agrees_search Tracker.lawful_unit (m := ()) trivial p text
  have marked := Rescan.agrees_search Spans.lawful (m := Spans.empty)
    ⟨Spans.ordered_empty, rfl⟩ p text
  obtain ⟨-, _, ⟨hordered, rfl⟩, within⟩ :=
    Layout.safe_search Spans.lawful (m := Spans.empty) ⟨Spans.ordered_empty, rfl⟩ p text
  dsimp only at verdict marked
  rw [isMatched_search] at verdict marked
  exact ⟨_, Layout.ofPattern_eq p text, rfl, Layout.scans_tabled, verdict, _, _, marked,
    Layout.collect_tabled hordered within, mask?_eq_search p text⟩

end Pattern

end Wildcard
