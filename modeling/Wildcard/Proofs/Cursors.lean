import Wildcard.Proofs.Verdict
import Wildcard.Proofs.Walk

/-! The cursors of a walk stay within bounds.

    Where a walk comes to stand, its cursors are in the pattern and in the text, the star that may
    give way has its run in the pattern and its region in the text, the tables made so far are
    right, and nothing has been recorded that has not been passed. That is enough for the next
    round: each of its accesses is right, it leads where a round of the loop leads, and all of this
    holds again. At the end of the text a round only tries the next place of a run, and there are no
    more of them than characters, so the walk ends as the loop does.

        cursors  ──round──▶  cursors        Sound to Sound, no fault
           │ phase              │ phase
        loop     ───step──▶  loop           or the same, at the end of the text -/

namespace Wildcard

open Subject (ofChars)

/-! ### The places of a run and the legs behind a position -/

/-- Either a run does not occur any more, or its first place is followed by the others. -/
theorem Subject.onward_place (separator : Option Char) (cs : Array Char) (run : List Char)
    (i : ℕ) :
    (place (ofChars separator cs) run i = none ∧
      ((ofChars separator cs).sites run).onward i = []) ∨
    ∃ site, place (ofChars separator cs) run i = some site ∧ i ≤ site ∧ site < cs.size ∧
      ((ofChars separator cs).sites run).onward i =
        ⟨site, site + run.length⟩ :: ((ofChars separator cs).sites run).onward (site + 1) := by
  induction hn : cs.size - i generalizing i with
  | zero =>
    have hend : ((ofChars separator cs).sites run).onward i = [] :=
      onward_of_size_le (by omega)
    exact Or.inl ⟨by rw [place, hend]; rfl, hend⟩
  | succ n ih =>
    have hlt : i < cs.size := by omega
    rw [place, onward_of_lt hlt]
    split
    · exact Or.inr ⟨i, rfl, le_rfl, hlt, rfl⟩
    · rcases ih (i + 1) (by omega) with hnone | ⟨site, hplace, hle, hsize, honward⟩
      · exact Or.inl hnone
      · exact Or.inr ⟨site, hplace, by omega, hsize, honward⟩

namespace Leg

variable {s : Subject} {ts : List Token} {i : ℕ}

theorem drop_chain (prev : Option Kind) (hi : i < ts.length) :
    (chain s prev ts).1.drop (i + 1) =
      (chain s (ts[i]?.map Token.kind) (ts.drop (i + 1))).1 := by
  induction ts generalizing prev i with
  | nil => exact absurd hi (Nat.not_lt_zero i)
  | cons t ts ih =>
    rw [chain_cons, List.drop_succ_cons]
    cases i with
    | zero => rfl
    | succ i => exact ih (some t.kind) (Nat.lt_of_succ_lt_succ hi)

/-- From a token on there is its leg, and then the legs behind it. -/
theorem drop_ofTokens {t : Token} (ht : ts[i]? = some t) :
    (ofTokens s ts).drop i =
      facing s (Layout.before ts i) t (ts.drop (i + 1)) :: (ofTokens s ts).drop (i + 1) := by
  obtain ⟨hi, rfl⟩ := List.getElem?_eq_some_iff.mp ht
  have hrest := drop_chain (s := s) none hi
  rw [ht, Option.map_some] at hrest
  have hhere : (ofTokens s ts).drop i = (chain s (Layout.before ts i) (ts.drop i)).1 := by
    cases i with
    | zero => rfl
    | succ i => exact drop_chain none (Nat.lt_of_succ_lt hi)
  rw [hhere, List.drop_eq_getElem_cons hi, chain_cons, ofTokens, hrest]

theorem drop_length_ofTokens (s : Subject) (ts : List Token) :
    (ofTokens s ts).drop ts.length = [] := by
  rw [ofTokens, List.drop_eq_nil_iff, Search.length_chain]

/-- The tokens from a position on may be left over just when their legs may. -/
theorem isLeavable_drop (s : Subject) (hi : i ≤ ts.length) :
    Search.isLeavable ((ofTokens s ts).drop i) = (prospect ts i).skippable := by
  rw [prospect, Prospect.ofOutlook, Outlook.skippable_ofTokens]
  rcases hi.lt_or_eq with hlt | rfl
  · rw [drop_ofTokens (List.getElem?_eq_getElem hlt), List.drop_eq_getElem_cons hlt, List.all_cons,
      ← Outlook.skippable_ofTokens]
    rfl
  · rw [drop_length_ofTokens, List.drop_length]
    rfl

end Leg

namespace Search

variable {μ : Type} [Recorder μ] {s : Subject} {legs : List Leg} {start limit : ℕ}
  {sites : List Span} {m : μ}

/-- A star that has no place to go to, or none in time, has failed. -/
theorem seek_eq_fail {choice : Option Choice} (h : ∀ p ∈ sites.head?, limit < p.stop) :
    seek s legs start limit choice sites m = fail s choice m := by
  cases sites with
  | nil => rfl
  | cons p later => exact if_neg (Nat.not_le.mpr (h p rfl))

/-- With one that should give way the loop is over. -/
theorem retry_eq_ended (h : ∀ p ∈ sites.head?, limit < p.stop) :
    retry s legs start limit sites m = .ended false m := by
  cases sites with
  | nil => rfl
  | cons p later => exact if_neg (Nat.not_le.mpr (h p rfl))

end Search

/-! ### Where a walk comes to stand -/

/-- A star that may give way has a run in the pattern and a region in the text. -/
structure Resume.Sound (ts : List Token) (cs : Array Char) (r : Resume) : Prop where
  run : runAt ts r.runStart ≠ []
  runEnd : r.runEnd = r.runStart + (runAt ts r.runStart).length
  region : r.regionStart ≤ r.nextFrom
  limit : r.limit ≤ cs.size

/-- The choice that the loop has there. -/
def Resume.choice (s : Subject) (ts : List Token) (r : Resume) : Search.Choice :=
  { legs := (Leg.ofTokens s ts).drop r.runEnd
    start := r.regionStart
    limit := r.limit
    later := (s.sites (runAt ts r.runStart)).onward r.nextFrom }

theorem Resume.Sound.runEnd_le {ts : List Token} {cs : Array Char} {r : Resume}
    (h : r.Sound ts cs) : r.runStart ≤ ts.length ∧ r.runEnd ≤ ts.length := by
  have hlen := Outlook.length_nextRun_le (ts.drop r.runStart)
  have hpos := List.length_pos_of_ne_nil h.run
  rw [List.length_drop] at hlen
  rw [runAt] at hpos
  rw [h.runEnd, runAt]
  omega

section

variable {μ : Type} [Tracker μ]

/-- Cursors that a walk may come to. -/
structure Cursors.Sound (R : Positions → μ → Prop) (separator : Option Char) (ts : List Token)
    (cs : Array Char) (c : Cursors μ) : Prop where
  token_le : c.token ≤ ts.length
  char_le : c.char ≤ cs.size
  resume : ∀ r, c.resume = some r → r.Sound ts cs
  runs : c.runs.Sound (ofChars separator cs) ts
  record : ∃ M, R M c.record ∧
    Search.Passed (ofChars separator cs) (ts.drop c.token) c.char M

/-- The star that may give way, as the loop has it. -/
def Cursors.choice (s : Subject) (ts : List Token) (c : Cursors μ) : Option Search.Choice :=
  c.resume.map (Resume.choice s ts)

/-- Where the loop is when a walk has come to some cursors. -/
def Cursors.phase (s : Subject) (ts : List Token) (c : Cursors μ) : Search.Phase μ :=
  Search.arrive s ((Leg.ofTokens s ts).drop c.token) c.char (c.choice s ts) c.record

/-- How many places may still be tried at the end of the text. -/
def Cursors.pending (cs : Array Char) (c : Cursors μ) : ℕ :=
  match c.resume with
  | none => 0
  | some r => cs.size - r.nextFrom

/-- What a token has done leads to cursors that a walk may come to. -/
def Turn.Sound (R : Positions → μ → Prop) (separator : Option Char) (ts : List Token)
    (cs : Array Char) : Turn μ → Prop
  | .onward c | .failed c => c.Sound R separator ts cs

/-- Where the loop is then. -/
def Turn.phase (s : Subject) (ts : List Token) : Turn μ → Search.Phase μ
  | .onward c => c.phase s ts
  | .failed c => Search.fail s (c.choice s ts) c.record

/-- A round leads to cursors that a walk may come to, or it has recorded positions of the text. -/
def Status.Sound (R : Positions → μ → Prop) (separator : Option Char) (ts : List Token)
    (cs : Array Char) : Status μ → Prop
  | .going c => c.Sound R separator ts cs
  | .ended _ m => ∃ M, R M m ∧ ∀ p, M p → p < cs.size

/-- Where the loop is then. -/
def Status.phase (s : Subject) (ts : List Token) : Status μ → Search.Phase μ
  | .going c => c.phase s ts
  | .ended fits m => .ended fits m

variable {R : Positions → μ → Prop} {separator : Option Char} {ts : List Token} {cs : Array Char}
  {c : Cursors μ}

/-- Only positions of the text have been passed. -/
theorem Search.Passed.lt_size {us : List Token} {i : ℕ} {M : Positions}
    (h : Search.Passed (ofChars separator cs) us i M) (hi : i ≤ cs.size) :
    ∀ p, M p → p < cs.size := by
  intro p hp
  rcases h p hp with hlt | ⟨rfl, -, k, -, hat⟩
  · omega
  · exact (Subject.separatorFromEnd_spec hat).1

/-! ### Looking for a run -/

/-- A run is looked for without a fault. Either it has no place that ends in time, or it is found at
    its first place, and the others follow. -/
theorem Layout.findRun_cases {runs : Runs} (hruns : runs.Sound (ofChars separator cs) ts)
    {start stop : ℕ} (hstart : start ≤ ts.length) (hstop : stop = start + (runAt ts start).length)
    (first limit : ℕ) :
    ∃ (found : Option ℕ) (runs' : Runs), runs'.Sound (ofChars separator cs) ts ∧
      (tabled separator ts cs).findRun runs start stop first limit = .ok (found, runs') ∧
      match found with
      | none => ∀ p ∈ (((ofChars separator cs).sites (runAt ts start)).onward first).head?,
          limit < p.stop
      | some site => first ≤ site ∧ site < cs.size ∧ site + (runAt ts start).length ≤ limit ∧
          ((ofChars separator cs).sites (runAt ts start)).onward first =
            ⟨site, site + (runAt ts start).length⟩ ::
              ((ofChars separator cs).sites (runAt ts start)).onward (site + 1) := by
  obtain ⟨runs', hruns', hfind⟩ := findRun_spec hruns hstart first limit
  rw [← hstop] at hfind
  refine ⟨_, runs', hruns', hfind, ?_⟩
  rcases Subject.onward_place separator cs (runAt ts start) first with
    ⟨hplace, honward⟩ | ⟨site, hplace, hle, hsize, honward⟩
  · rw [hplace, honward]
    nofun
  · rw [hplace, honward, Option.filter_some]
    by_cases hlimit : site + (runAt ts start).length ≤ limit
    · rw [if_pos (decide_eq_true hlimit)]
      exact ⟨hle, hsize, hlimit, rfl⟩
    · rw [if_neg (by simpa using hlimit)]
      intro p hp
      obtain rfl := Option.some.inj hp
      exact Nat.lt_of_not_le hlimit

/-- A walk comes to stand behind a run that it has found. -/
theorem Resume.land_spec {r : Resume} (hr : r.Sound ts cs) {runs : Runs}
    (hruns : runs.Sound (ofChars separator cs) ts) {site : ℕ} (hfrom : r.nextFrom ≤ site)
    (hlimit : site + (runAt ts r.runStart).length ≤ r.limit) {m : μ} {M : Positions} (hm : R M m)
    (hM : ∀ p, M p → p < site + (runAt ts r.runStart).length) :
    ∃ c : Cursors μ, r.land runs site m = .ok c ∧ c.Sound R separator ts cs ∧
      c.phase (ofChars separator cs) ts =
        Search.arrive (ofChars separator cs)
          ((Leg.ofTokens (ofChars separator cs) ts).drop r.runEnd)
          (site + (runAt ts r.runStart).length)
          (some ⟨(Leg.ofTokens (ofChars separator cs) ts).drop r.runEnd, r.regionStart, r.limit,
            ((ofChars separator cs).sites (runAt ts r.runStart)).onward (site + 1)⟩) m ∧
      c.resume = some { r with nextFrom := site + 1 } := by
  have hchar : site + r.runEnd - r.runStart = site + (runAt ts r.runStart).length := by
    rw [hr.runEnd]
    omega
  have hsub : Checked.sub (site + r.runEnd) r.runStart =
      .ok (site + (runAt ts r.runStart).length) := by
    rw [Checked.sub_of_le (by rw [hr.runEnd]; omega), hchar]
  refine ⟨_, by rw [land, hsub, Checked.ok_bind]; rfl, ?_, rfl, rfl⟩
  refine ⟨hr.runEnd_le.2, hlimit.trans hr.limit, ?_, hruns, M, hm, Search.passed_of_lt hM⟩
  rintro r' h
  obtain rfl := Option.some.inj h
  exact ⟨hr.run, hr.runEnd, hr.region.trans (by dsimp only; omega), hr.limit⟩

open Layout (tabled)

/-- A star seeks its run as the loop does. -/
theorem Layout.seekRun_spec (lawful : Tracker.Lawful R) (hc : c.Sound R separator ts cs)
    {start stop limit : ℕ} (hr : Resume.Sound ts cs ⟨start, stop, c.char, c.char, limit⟩)
    {M : Positions} (hm : R M c.record) (hM : ∀ p, M p → p < c.char) :
    ∃ t, (tabled separator ts cs).seekRun c start stop limit = .ok t ∧
      t.Sound R separator ts cs ∧ t.phase (ofChars separator cs) ts =
        Search.seek (ofChars separator cs) ((Leg.ofTokens (ofChars separator cs) ts).drop stop)
          c.char limit (c.choice (ofChars separator cs) ts)
          (((ofChars separator cs).sites (runAt ts start)).onward c.char) c.record := by
  obtain ⟨found, runs, hruns, hfind, hfound⟩ :=
    findRun_cases hc.runs hr.runEnd_le.1 hr.runEnd c.char limit
  dsimp only at hfind hfound
  rw [seekRun, hfind, Checked.ok_bind]
  cases found with
  | none =>
    rw [Search.seek_eq_fail hfound]
    exact ⟨_, rfl, ⟨hc.token_le, hc.char_le, hc.resume, hruns, hc.record⟩, rfl⟩
  | some site =>
    obtain ⟨hle, -, hlimit, honward⟩ := hfound
    have htake := lawful.tracks.take site hm fun p hp => (hM p hp).le
    have hpos := List.length_pos_of_ne_nil hr.run
    obtain ⟨behind, hland, hsound, hphase, -⟩ := Resume.land_spec hr hruns hle hlimit htake
      (fun p hp => by
        dsimp only at hpos
        rcases Positions.add_apply.mp hp with hp | hp
        · have := hM p hp
          omega
        · omega)
    dsimp only
    rw [hland, Checked.ok_bind, honward, Search.seek, if_pos hlimit]
    exact ⟨_, rfl, hsound, hphase⟩

/-- After a failure the star that may give way does what it does in the loop, and has tried one
    place more. -/
theorem Layout.retry_spec (lawful : Tracker.Lawful R) (hc : c.Sound R separator ts cs) :
    ∃ y, (tabled separator ts cs).retry c = .ok y ∧ y.Sound R separator ts cs ∧
      y.phase (ofChars separator cs) ts =
        Search.fail (ofChars separator cs) (c.choice (ofChars separator cs) ts) c.record ∧
      ∀ d, y = .going d → d.pending cs < c.pending cs := by
  obtain ⟨M, hm, hM⟩ := hc.record
  have gaveUp : Status.Sound R separator ts cs (.ended false c.record) :=
    ⟨M, hm, hM.lt_size hc.char_le⟩
  rw [retry, Cursors.choice, Cursors.pending]
  cases hresume : c.resume with
  | none => exact ⟨_, rfl, gaveUp, rfl, nofun⟩
  | some r =>
    have hr := hc.resume r hresume
    obtain ⟨found, runs, hruns, hfind, hfound⟩ :=
      findRun_cases hc.runs hr.runEnd_le.1 hr.runEnd r.nextFrom r.limit
    dsimp only
    rw [hfind, Checked.ok_bind, Option.map_some, Search.fail, Resume.choice]
    cases found with
    | none =>
      rw [Search.retry_eq_ended hfound]
      exact ⟨_, rfl, gaveUp, rfl, nofun⟩
    | some site =>
      obtain ⟨hle, hsize, hlimit, honward⟩ := hfound
      have hundo := lawful.tracks.undo r.regionStart hm
      have htake := lawful.tracks.take site hundo fun p hp => (Positions.below_apply.mp hp).2.le
      have hpos := List.length_pos_of_ne_nil hr.run
      have hregion := hr.region
      obtain ⟨behind, hland, hsound, hphase, hbehind⟩ := Resume.land_spec hr hruns hle hlimit
        htake (fun p hp => by
          rcases Positions.add_apply.mp hp with hp | hp
          · have := (Positions.below_apply.mp hp).2
            omega
          · omega)
      dsimp only
      rw [hland, Checked.ok_bind, honward, Search.retry, if_pos hlimit]
      refine ⟨_, rfl, hsound, hphase, ?_⟩
      intro d hd
      obtain rfl := Status.going.inj hd
      rw [Cursors.pending, hbehind]
      dsimp only
      omega

/-! ### One round -/

omit [Tracker μ] in
/-- What has been recorded of a token is right for the cursors behind it. -/
theorem Cursors.Sound.next (hc : c.Sound R separator ts cs) (hlt : c.token < ts.length)
    {M : Positions} {before : Option Kind} {q : Stride} {m : μ}
    (hq : Search.Recorded R (ofChars separator cs) before (ts.drop (c.token + 1)) M q m) :
    (c.next q.stop m).Sound R separator ts cs :=
  ⟨hlt, hq.le_size, hc.resume, hc.runs, _, hq.holds, hq.passed⟩

/-- What a move does to the cursors it does to the loop. -/
theorem Layout.perform_spec (lawful : Tracker.Lawful R) (hc : c.Sound R separator ts cs)
    {t : Token} (ht : ts[c.token]? = some t) (hlt : c.char < cs.size) {d : Char} {move : Move}
    (hmove : (Leg.facing (ofChars separator cs) (before ts c.token) t
      (ts.drop (c.token + 1))).move (ofChars separator cs) c.char d = move) :
    ∃ y, (tabled separator ts cs).perform c (.ofTokens (ts.drop (c.token + 1))) move = .ok y ∧
      y.Sound R separator ts cs ∧ y.phase (ofChars separator cs) ts =
        Search.act (ofChars separator cs) (Leg.facing (ofChars separator cs) (before ts c.token) t
            (ts.drop (c.token + 1)))
          ((Leg.ofTokens (ofChars separator cs) ts).drop (c.token + 1)) c.char
          (c.choice (ofChars separator cs) ts) c.record move := by
  obtain ⟨M, hm, hM⟩ := hc.record
  have htoken : c.token < ts.length := (List.getElem?_eq_some_iff.mp ht).1
  have hdrop : ts.drop c.token = t :: ts.drop (c.token + 1) := by
    rw [List.drop_eq_getElem_cons htoken, (List.getElem?_eq_some_iff.mp ht).2]
  rw [hdrop] at hM
  cases move with
  | stuck => exact ⟨_, rfl, hc, rfl⟩
  | yield =>
    have hq := Search.recorded_yield lawful.tracks hm hmove hlt.le hM
    rw [lawful.look] at hq
    exact ⟨_, rfl, hc.next htoken hq, rfl⟩
  | pass =>
    have hq := Search.recorded_pass lawful.tracks hm hmove hlt hM
    rw [lawful.look] at hq
    exact ⟨_, rfl, hc.next htoken hq, rfl⟩
  | take =>
    have hq := Search.recorded_take lawful.tracks hm hmove hlt hM
    rw [lawful.look] at hq
    exact ⟨_, rfl, hc.next htoken hq, rfl⟩
  | trail =>
    have hq := Search.recorded_trail lawful.tracks hm hmove hlt hM
    rw [lawful.look] at hq
    exact ⟨_, rfl, hc.next htoken hq, rfl⟩
  | jump stop =>
    have hq := Search.recorded_jump lawful.tracks hm hmove hlt.le hM
    rw [lawful.look] at hq
    exact ⟨_, rfl, hc.next htoken hq, rfl⟩
  | seek limit =>
    have hrun := (Leg.of_move_seek hmove).1
    have hstar := Leg.isStar_of_move (Or.inr hmove)
    have hat : runAt ts (c.token + 1 + (Outlook.ofTokens (ts.drop (c.token + 1))).gap) =
        (Outlook.ofTokens (ts.drop (c.token + 1))).run := by
      rw [runAt, ← List.drop_drop, Outlook.nextRun_drop_gap]
    have hr : Resume.Sound ts cs ⟨c.token + 1 + (Outlook.ofTokens (ts.drop (c.token + 1))).gap,
        c.token + 1 + (Outlook.ofTokens (ts.drop (c.token + 1))).reach, c.char, c.char, limit⟩ := by
      refine ⟨hat ▸ hrun, ?_, le_rfl, Search.seek_le_size hmove hlt.le⟩
      rw [hat, Outlook.reach]
      exact (Nat.add_assoc _ _ _).symm
    have hbefore : ∀ p, M p → p < c.char := by
      intro p hp
      refine (hM p hp).resolve_right fun h => hrun ?_
      rw [← (Search.outlook_wildcard (Token.isWildcard_of_isStar hstar)).1]
      exact h.2.1
    obtain ⟨y, hseek, hsound, hphase⟩ := seekRun_spec lawful hc hr hm hbefore
    refine ⟨y, hseek, hsound, ?_⟩
    rw [hphase, hat, ← List.drop_drop]
    rfl

/-- A token does to the cursors what a step of the loop does. -/
theorem Layout.turn_spec (lawful : Tracker.Lawful R) (tidy : Token.Tidy separator ts)
    (hc : c.Sound R separator ts cs) (hlt : c.char < cs.size) :
    ∃ y, (tabled separator ts cs).turn c = .ok y ∧ y.Sound R separator ts cs ∧
      y.phase (ofChars separator cs) ts =
        Search.step (ofChars separator cs) (c.phase (ofChars separator cs) ts) := by
  obtain ⟨M, hm, hM⟩ := hc.record
  have hd : cs[c.char]? = some cs[c.char] := Array.getElem?_eq_getElem hlt
  have hphase : c.phase (ofChars separator cs) ts =
      .going ((Leg.ofTokens (ofChars separator cs) ts).drop c.token) c.char
        (c.choice (ofChars separator cs) ts) c.record := if_pos hlt
  rw [hphase]
  rcases hc.token_le.lt_or_eq with htoken | htoken
  · have ht : ts[c.token]? = some ts[c.token] := List.getElem?_eq_getElem htoken
    have hs : (ofChars separator cs).chars[c.char]? = some cs[c.char] := hd
    obtain ⟨y, hperform, hsound, hact⟩ := perform_spec lawful hc ht hlt rfl
    rw [turn_eq lawful tidy hm ht hd, Leg.drop_ofTokens ht, Search.step_going hs, lawful.look]
    exact ⟨y, hperform, hsound, hact⟩
  · have hinput : Checked.get (tabled separator ts cs).input c.char = .ok cs[c.char] :=
      Checked.get_of_lt hlt
    rw [turn, htoken, get_kinds_length, Checked.ok_bind, hinput, Checked.ok_bind,
      Leg.drop_length_ofTokens, Search.step, lawful.look]
    exact ⟨_, rfl, hc, rfl⟩

/-- A round is a step of the loop, or at the end of the text another try. -/
theorem Layout.round_spec (lawful : Tracker.Lawful R) (tidy : Token.Tidy separator ts)
    (hc : c.Sound R separator ts cs) :
    ∃ y, (tabled separator ts cs).round c = .ok y ∧ y.Sound R separator ts cs ∧
      ((c.char < cs.size ∧ y.phase (ofChars separator cs) ts =
          Search.step (ofChars separator cs) (c.phase (ofChars separator cs) ts)) ∨
        (cs.size ≤ c.char ∧
          y.phase (ofChars separator cs) ts = c.phase (ofChars separator cs) ts ∧
          ∀ d, y = .going d → d.pending cs < c.pending cs)) := by
  have hinput : (tabled separator ts cs).input.size = cs.size := rfl
  rw [round, hinput]
  by_cases hlt : c.char < cs.size
  · obtain ⟨turned, hturn, hsound, hphase⟩ := turn_spec lawful tidy hc hlt
    rw [if_pos hlt, hturn, Checked.ok_bind]
    cases turned with
    | onward d => exact ⟨_, rfl, hsound, Or.inl ⟨hlt, hphase⟩⟩
    | failed d =>
      obtain ⟨y, hretry, hs, hp, -⟩ := retry_spec lawful (c := d) hsound
      exact ⟨y, hretry, hs, Or.inl ⟨hlt, hp.trans hphase⟩⟩
  · have hle := Nat.le_of_not_lt hlt
    have hphase : c.phase (ofChars separator cs) ts =
        if (prospect ts c.token).skippable then .ended true c.record
        else Search.fail (ofChars separator cs) (c.choice (ofChars separator cs) ts) c.record := by
      rw [Cursors.phase, Search.arrive, Subject.size_ofChars, if_neg hlt,
        Leg.isLeavable_drop _ hc.token_le]
    rw [if_neg hlt, get_ahead hc.token_le, Checked.ok_bind, hphase]
    by_cases hskip : (prospect ts c.token).skippable
    · obtain ⟨M, hm, hM⟩ := hc.record
      rw [if_pos hskip, if_pos hskip]
      refine ⟨_, rfl, ⟨M, hm, hM.lt_size hc.char_le⟩, Or.inr ⟨hle, rfl, ?_⟩⟩
      intro d hd
      cases hd
    · obtain ⟨y, hretry, hs, hp, hpending⟩ := retry_spec lawful hc
      rw [if_neg hskip, if_neg hskip]
      exact ⟨y, hretry, hs, Or.inr ⟨hle, hp, hpending⟩⟩

/-! ### A whole walk -/

/-- A walk begins where the loop does. -/
theorem Layout.start_spec {m : μ} (hm : R (fun _ => false) m) :
    ((tabled separator ts cs).start m).Sound R separator ts cs ∧
      ((tabled separator ts cs).start m).phase (ofChars separator cs) ts =
        Search.start (ofChars separator cs) ts m := by
  have hsize : (tabled separator ts cs).kinds.size = ts.length + 1 := size_closed ts
  refine ⟨⟨Nat.zero_le _, Nat.zero_le _, nofun, ?_, _, hm, nofun⟩, rfl⟩
  rw [start, hsize]
  exact Runs.sound_replicate _ ts

/-- Every place that a walk comes to is one that it may come to. -/
theorem Layout.Reaches.sound (lawful : Tracker.Lawful R) (tidy : Token.Tidy separator ts)
    (hc : c.Sound R separator ts cs) {d : Cursors μ} (h : (tabled separator ts cs).Reaches c d) :
    d.Sound R separator ts cs := by
  induction h with
  | refl => exact hc
  | tail _ hround ih =>
    obtain ⟨y, hy, hsound, -⟩ := round_spec lawful tidy ih
    rw [hround] at hy
    obtain rfl := Except.ok.inj hy
    exact hsound

/-- A walk ends where the loop does. At the end of the text, where the loop has no step left to
    take, there are fewer and fewer places to try. -/
theorem Layout.ends (lawful : Tracker.Lawful R) (tidy : Token.Tidy separator ts) {c : Cursors μ}
    (hc : c.Sound R separator ts cs) {k : ℕ} {fits : Bool} {m : μ}
    (h : (Search.step (ofChars separator cs))^[k] (c.phase (ofChars separator cs) ts) =
      .ended fits m) :
    ∃ d, (tabled separator ts cs).Reaches c d ∧
      (tabled separator ts cs).round d = .ok (.ended fits m) ∧
      ∃ M, R M m ∧ ∀ p, M p → p < cs.size := by
  obtain ⟨y, hround, hsound, hstep⟩ := round_spec lawful tidy hc
  rcases hstep with ⟨hlt, hphase⟩ | ⟨hle, hphase, hpending⟩
  · cases k with
    | zero =>
      have hgoing : c.phase (ofChars separator cs) ts = .going _ _ _ _ := if_pos hlt
      rw [Function.iterate_zero_apply, hgoing] at h
      cases h
    | succ k =>
      rw [Function.iterate_succ_apply, ← hphase] at h
      cases y with
      | ended fits' m' =>
        rw [Status.phase, Search.iterate_ended] at h
        obtain ⟨rfl, rfl⟩ := Search.Phase.ended.inj h
        exact ⟨c, .refl, hround, hsound⟩
      | going e =>
        obtain ⟨d, hreach, hend⟩ := ends lawful tidy hsound h
        exact ⟨d, .head hround hreach, hend⟩
  · rw [← hphase] at h
    cases y with
    | ended fits' m' =>
      rw [Status.phase, Search.iterate_ended] at h
      obtain ⟨rfl, rfl⟩ := Search.Phase.ended.inj h
      exact ⟨c, .refl, hround, hsound⟩
    | going e =>
      have := hpending e rfl
      obtain ⟨d, hreach, hend⟩ := ends lawful tidy hsound h
      exact ⟨d, .head hround hreach, hend⟩
termination_by (k, c.pending cs)

end

/-- A walk over a layout is safe: its cursors stay within the pattern, the end included, and within
    the text, no round fails, and the walk ends with a verdict and a record. -/
structure Layout.Safe {μ : Type} [Tracker μ] (l : Layout) (m : μ) (fits : Bool) (m' : μ) :
    Prop where
  token_lt : ∀ c, l.Reaches (l.start m) c → c.token < l.kinds.size
  char_le : ∀ c, l.Reaches (l.start m) c → c.char ≤ l.input.size
  round : ∀ c, l.Reaches (l.start m) c → ∃ y, l.round c = .ok y
  ends : ∃ c, l.Reaches (l.start m) c ∧ l.round c = .ok (.ended fits m')

/-- A walk is safe and ends like the search. -/
theorem Layout.safe_search {μ : Type} [Tracker μ] {R : Positions → μ → Prop}
    (lawful : Tracker.Lawful R) {m : μ} (hm : R (fun _ => false) m) (p : Pattern) (text : String) :
    let found := search p.separator p.tokens text.toList.toArray m
    (Layout.tabled p.separator p.tokens text.toList.toArray).Safe m found.isMatched found.record ∧
      ∃ M, R M found.record ∧ ∀ i, M i → i < text.toList.toArray.size := by
  intro found
  obtain ⟨hsound, hphase⟩ :=
    @start_spec μ _ R p.separator p.tokens text.toList.toArray m hm
  obtain ⟨k, -, hk⟩ := Search.within_search p.separator p.tokens text.toList.toArray m
  rw [← hphase] at hk
  obtain ⟨d, hreach, hround, hrecord⟩ := ends lawful p.tidy hsound hk
  refine ⟨⟨fun c hc => ?_, fun c hc => ?_, fun c hc => ?_, d, hreach, hround⟩, hrecord⟩
  · have hsize : (tabled p.separator p.tokens text.toList.toArray).kinds.size =
        p.tokens.length + 1 := size_closed p.tokens
    rw [hsize]
    exact Nat.lt_succ_of_le (Reaches.sound lawful p.tidy hsound hc).token_le
  · exact (Reaches.sound lawful p.tidy hsound hc).char_le
  · obtain ⟨y, hy, -⟩ := round_spec lawful p.tidy (Reaches.sound lawful p.tidy hsound hc)
    exact ⟨y, hy⟩

/-! ### What is read off in the end -/

/-- All characters of a pattern but the last, which closes it. -/
theorem Layout.slice_symbols_length {separator : Option Char} {ts : List Token}
    {cs : Array Char} :
    Checked.slice (tabled separator ts cs).symbols 0 ts.length =
      .ok (ts.map Token.symbol).toArray := by
  have hsize : (tabled separator ts cs).symbols.size = ts.length + 1 := by simp [tabled]
  rw [Checked.slice_of_le (Nat.zero_le _) (by omega)]
  simp [tabled]

/-- Spans within a text are cut out of it without a fault. -/
theorem Layout.collect_of_ordered (l : Layout) {spans : Spans} (h : spans.Ordered)
    (within : ∀ p, spans.taken p → p < l.input.size) :
    l.collect spans = .ok (spans.charsOf l.input) := by
  have hslice : ∀ span ∈ spans.latestFirst.reverse,
      Checked.slice l.input span.start span.stop = .ok (l.input.extract span.start span.stop) := by
    intro span hm
    have hmem := List.mem_reverse.mp hm
    have hne := h.nonempty span hmem
    have hlast := within (span.stop - 1)
      ((Spans.taken_iff h).mpr ⟨span, hmem, by omega, by omega⟩)
    exact Checked.slice_of_le hne.le (by omega)
  rw [collect, Checked.mapM_of_forall hslice, Checked.ok_bind, List.flatMap_map]
  rfl

theorem Layout.collect_tabled {separator : Option Char} {ts : List Token} {cs : Array Char}
    {spans : Spans} (h : spans.Ordered) (within : ∀ p, spans.taken p → p < cs.size) :
    (tabled separator ts cs).collect spans = .ok (spans.charsOf cs) :=
  collect_of_ordered (tabled separator ts cs) h within

namespace Pattern

open Layout (tabled)

/-- The mask is what the spans of the search hold, whether the pattern has wildcards or not. -/
theorem mask?_eq_search (p : Pattern) (text : String) :
    let found := search p.separator p.tokens text.toList.toArray Spans.empty
    p.mask? text =
      if p.isMatch text then some (String.ofList (found.record.charsOf text.toList.toArray))
      else none := by
  intro found
  have follows := follows_search Spans.tracks p text ⟨Spans.ordered_empty, rfl⟩
  rw [mask?_eq, isMatch_eq]
  change Search.Follows _ _ _ _ _ _ found (p.route text) at follows
  revert follows
  generalize found = v
  generalize p.route text = o
  intro follows
  cases follows with
  | matched h =>
    simp only [Outcome.path?, Option.map_some, Outcome.isMatched, if_true, Verdict.record,
      Spans.charsOf_eq_pick h.1, h.2]
  | failed => rfl
  | exhausted => rfl

/-- Whatever the pattern, the separator and the text, no access fails: not while the tables are
    filled, not when a plain pattern is compared, not in a walk for the verdict or for the mask, and
    not when the mask is read off. What comes out is the verdict and the mask of the pattern. -/
theorem accesses_within_bounds (pattern : String) (separator : Option Char) (text : String) :
    ∃ l, Layout.ofPattern (compile pattern separator) text = .ok l ∧
      (∃ length plain, Checked.sub l.kinds.size 1 = .ok length ∧
        Checked.slice l.symbols 0 length = .ok plain ∧
        ((compile pattern separator).spells text ↔ plain = l.input)) ∧
      l.Safe () ((compile pattern separator).isMatch text) () ∧
      ∃ spans kept, l.Safe Spans.empty ((compile pattern separator).isMatch text) spans ∧
        l.collect spans = .ok kept ∧
        (compile pattern separator).mask? text =
          if (compile pattern separator).isMatch text then some (String.ofList kept) else none := by
  generalize compile pattern separator = p
  have hsize : (tabled p.separator p.tokens text.toList.toArray).kinds.size = p.tokens.length + 1 :=
    size_closed p.tokens
  have hinput : (tabled p.separator p.tokens text.toList.toArray).input = text.toList.toArray := rfl
  refine ⟨_, Layout.ofPattern_eq p text, ⟨_, _, ?_, Layout.slice_symbols_length, ?_⟩, ?_, ?_⟩
  · rw [hsize]
    exact Checked.sub_of_le (by omega)
  · rw [hinput, spells, decide_eq_true_eq]
    exact ⟨congrArg List.toArray, List.toArray_inj⟩
  · have safe := (Layout.safe_search Tracker.lawful_unit (m := ()) trivial p text).1
    rwa [isMatched_search] at safe
  · obtain ⟨safe, _, ⟨hordered, rfl⟩, within⟩ :=
      Layout.safe_search Spans.lawful (m := Spans.empty) ⟨Spans.ordered_empty, rfl⟩ p text
    rw [isMatched_search] at safe
    exact ⟨_, _, safe, Layout.collect_tabled hordered within, mask?_eq_search p text⟩

end Pattern

end Wildcard
