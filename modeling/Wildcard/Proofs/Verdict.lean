import Wildcard.Session
import Wildcard.Proofs.Matching

/-! One verdict, whoever asks for it.

    A text is held against a pattern to learn whether it matches, to mask it, or within a session.
    The search asks its record whether a position is taken, but what it does with the answer goes
    into the record again and nowhere else, so every record leads to one verdict. A session keeps
    its pattern through all calls, and what it remembers of earlier texts is not asked.

        isMatch    records nothing       ┐
        mask?      records spans         ├──▶ the verdict of the route
        check      behind any calls      ┘ -/

namespace Wildcard

namespace Session

/-- A use of a session that changes what it remembers. -/
inductive Call where
  | check (text : String)
  | divide (text : String)
  deriving DecidableEq

/-- The session behind one call. -/
def call (s : Session) : Call → Session
  | .check text => (s.check text).2
  | .divide text => (s.divide text).2

/-- The session behind some calls, the first of them first. -/
def after (s : Session) (calls : List Call) : Session := calls.foldl call s

/-- A call leaves the pattern as it is. -/
theorem pattern_call (s : Session) (k : Call) : (s.call k).pattern = s.pattern := by
  cases k with
  | check text =>
    simp only [call, check]
    split <;> rfl
  | divide text => rfl

theorem pattern_after (s : Session) (calls : List Call) : (s.after calls).pattern = s.pattern := by
  induction calls generalizing s with
  | nil => rfl
  | cons k calls ih =>
    calc ((s.call k).after calls).pattern
      _ = (s.call k).pattern := ih (s.call k)
      _ = s.pattern := pattern_call s k

/-- A check tells whether the pattern matches. -/
theorem fst_check (s : Session) (text : String) : (s.check text).1 = s.pattern.isMatch text := by
  rw [check]
  split
  · next h => exact h.symm
  · next h => exact (Bool.eq_false_iff.mpr h).symm

end Session

namespace Pattern

/-- Whatever a search records, its verdict is that of the pattern. -/
theorem isMatched_search {μ : Type} [Recorder μ] (p : Pattern) (text : String) (m : μ) :
    (search p.separator p.tokens text.toList.toArray m).isMatched = p.isMatch text := by
  have follows := follows_search Recorder.tracks_true p text (m := m) trivial
  rw [isMatch_eq]
  exact follows.isMatched_eq

/-- A pattern matches a text, has a mask of it and passes it in a session at once, whatever the
    session has been used for before; and a search for the pattern finds the same, whatever it
    records and starts with. -/
theorem verdict_unique (pattern : String) (separator : Option Char) (text : String)
    (calls : List Session.Call) :
    let p := compile pattern separator
    (p.mask? text).isSome = p.isMatch text ∧
      (((Session.mk p none).after calls).check text).1 = p.isMatch text ∧
      ∀ (μ : Type) [Recorder μ] (m : μ),
        (search p.separator p.tokens text.toList.toArray m).isMatched = p.isMatch text := by
  intro p
  refine ⟨isSome_mask? p text, ?_, fun μ _ m => isMatched_search p text m⟩
  rw [Session.fst_check, Session.pattern_after]

end Pattern

end Wildcard
