import Wildcard.Leg
import Wildcard.Recorder

/-! Holding a pattern against a subject.

    The search goes through the legs from left to right with one position in the subject. Only a
    star that seeks a literal run leaves a choice behind: the occurrences that come later. They are
    tried in order, the earliest first, but only as long as no later star has found a run:

        * a b + * c d        tokens
        └seek┘  └seek┘       a failure behind "cd" moves the second star, and when that one has no
                             place left to go the search is over; a failure before "cd" is found
                             moves the first star

    So at any time there is one star at most that may give way. -/

namespace Wildcard

/-- How a search ends, with the record it leaves. -/
inductive Verdict (μ : Type) where
  /-- The pattern fits. -/
  | matched (record : μ)
  /-- It does not fit from here on; a star further left may give way. -/
  | failed (record : μ)
  /-- It does not fit, and no star further left is asked. -/
  | exhausted (record : μ)

/-- Whether the pattern fits. -/
def Verdict.isMatched {μ : Type} : Verdict μ → Bool
  | .matched _ => true
  | _ => false

namespace Search

variable {μ : Type} [Recorder μ]

/-- The end of a seek. A star that has found its run once ends the search, one that never did hands
    the failure on. -/
def giveUp (found : Bool) (m : μ) : Verdict μ := if found then .exhausted m else .failed m

/-- Tries the occurrences of a run in turn for a star at `start`, as long as they end within
    `limit`. The star takes what comes before the occurrence, and gives it back before it tries the
    next one. -/
def trySites (limit start : Nat) (go : Nat → μ → Verdict μ) :
    (found : Bool) → List Span → μ → Verdict μ
  | found, [], m => giveUp found m
  | found, site :: later, m =>
    if site.stop ≤ limit then
      let m := if found then Recorder.undo m start else m
      match go site.stop (Recorder.take m start site.start) with
      | .failed m => trySites limit start go true later m
      | verdict => verdict
    else giveUp found m

/-- Runs the legs, the first `skip` of them passed over, from position `i` on. When the text ends
    first, the tokens that are left must all be able to take nothing. -/
def run (s : Subject) : List Leg → (skip i : Nat) → μ → Verdict μ
  | [], _, i, m => if i < s.size then .failed (Recorder.look m i) else .matched m
  | _ :: legs, skip + 1, i, m => run s legs skip i m
  | leg :: legs, 0, i, m =>
    match s.chars[i]? with
    | none => if leg.isSkippable then .matched m else .failed m
    | some c =>
      let m := Recorder.look m i
      match leg.move s i c with
      | .stuck => .failed m
      | .yield => run s legs 0 i m
      | .pass => run s legs 0 (i + 1) m
      | .take => run s legs 0 (i + 1) (Recorder.take m i (i + 1))
      | .trail =>
        run s legs 0 (i + 1)
          (if 0 < i ∧ Recorder.taken m (i - 1) then Recorder.take m i (i + 1) else m)
      | .jump stop => run s legs 0 stop (Recorder.take m i stop)
      | .seek limit =>
        trySites limit i (fun stop m => run s legs leg.ahead.reach stop m) false
          (leg.sites.onward i) m

end Search

/-- Holds a list of tokens against a text. -/
def search {μ : Type} [Recorder μ] (separator : Option Char) (ts : List Token) (cs : Array Char)
    (m : μ) : Verdict μ :=
  let s := Subject.ofChars separator cs
  Search.run s (Leg.ofTokens s ts) 0 0 m

end Wildcard
