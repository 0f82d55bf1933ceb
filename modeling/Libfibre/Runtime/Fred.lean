import Libfibre.Schemes.Transition
import Mathlib.Algebra.Group.Nat.Defs
import Mathlib.Tactic.Basic

/-! The suspend/resume protocol of one `Fred` (`Fred.h`, `Fred.cc`): the words `runState` and
    `resumeInfo`, the fibre's own path `prepareResumeRace` → `suspend` → stack switch →
    `postSuspend`, and any number of resumers that call `resume` after winning `raceResume`. Every
    atomic instruction on the two words, the stack switch, `postSuspend` and each hand-over to a
    ready queue is a step of its own. The history fields record, per race, the winner, the pointer
    `suspend` returned, the executed `resume` calls and the times the fibre entered a ready queue.

        running ──▶ raced ──▶ spinning ──▶ switching ──▶ switched ──▶ away ──▶ woken ──▶ running
                                 │ ResumedEarly              │ ResumedEarly      ▲
                                 ▼                           ▼                   │ dispatch
                               woken                      handing ──▶ ready queue -/

namespace Libfibre.Fred
open Transition

/-! ### The code -/

/-- `Fred::RunState`, the values of the word `runState`. -/
def Parked : ℕ := 0
def Running : ℕ := 1
def ResumedEarly : ℕ := 2

/-- The word after `__atomic_fetch_add(&runState, 1)`. -/
def fetchAdd (w : ℕ) : ℕ := (w + 1) % 2 ^ 64

/-- The word after `__atomic_fetch_sub(&runState, 1)`. -/
def fetchSub (w : ℕ) : ℕ := (w + (2 ^ 64 - 1)) % 2 ^ 64

/-- Where the control of the fibre is. -/
inductive Loc where
  | running                -- outside `suspend`
  | raced                  -- after `prepareResumeRace`, before `suspend`
  | spinning (spin : ℕ)    -- before the compare-and-swap of `suspend`, with its local `spin`
  | switching              -- in `suspendInternal`, before the stack switch
  | switched               -- off its stack; `postSuspend` comes next, on the next fibre's stack
  | handing                -- `postSuspend` saw `ResumedEarly`; its `resumeInternal` comes next
  | away                   -- `postSuspend` has run
  | woken                  -- before the final `return resumeInfo` of `suspend`
  deriving DecidableEq

/-- Where a resumer is: elsewhere, past a won `raceResume`, or past a `fetch_add` of `resume` that
    found `Parked` (`direct`: its `DirectSwitch`). Both keep the race they belong to. -/
inductive Resumer where
  | idle
  | won (race : ℕ)
  | handing (race : ℕ) (direct : Bool)
  deriving DecidableEq

/-- The two words of the fibre, where it is, and where those that resume it are. -/
structure State (R P : Type) where
  runState : ℕ
  resumeInfo : Option P
  loc : Loc
  ready : ℕ                       -- occurrences of the fibre in ready queues
  resumer : R → Resumer
  race : ℕ                        -- `prepareResumeRace` calls so far: the current race
  winners : List (ℕ × R × P)
  results : List (ℕ × Option P)   -- what `suspend` returned
  resumed : List ℕ                -- races whose winner's `resume` has executed
  enqueued : List ℕ               -- races in which the fibre entered a ready queue

/-- The fibre, the worker that runs it or one that resumes it takes a step. -/
inductive Action (R P : Type) where
  | prepareResumeRace
  | suspend
  | trySkip
  | stackSwitch
  | postSuspend
  | postResumeInternal
  | dispatch
  | finish
  | raceResume (r : R) (ri : P)
  | resume (r : R) (direct : Bool)
  | resumeInternal (r : R)
  | resumeDirect (r : R)

variable {R P : Type} [DecidableEq R]

/-- `prepareResumeRace` opens a race that anybody may win. -/
def prepareResumeRace (s : State R P) : Option (State R P) :=
  if s.loc = .running then
    some { s with resumeInfo := none, loc := .raced, race := s.race + 1 }
  else none

/-- `suspend` up to its loop: `spin = SpinStart`. -/
def suspend (SpinStart : ℕ) (s : State R P) : Option (State R P) :=
  if s.loc = .raced then some { s with loc := .spinning SpinStart } else none

/-- One round of the loop of `suspend`: resumed already? then skip the suspension. -/
def trySkip (SpinEnd : ℕ) (s : State R P) : Option (State R P) :=
  match s.loc with
  | .spinning spin =>
    if s.runState = ResumedEarly then some { s with runState := Running, loc := .woken }
    else if SpinEnd < spin then some { s with loc := .switching }
    else some { s with loc := .spinning (spin + spin) }
  | _ => none

/-- `suspendInternal`: the switch to the fibre that `scheduleFull` picked. -/
def stackSwitch (s : State R P) : Option (State R P) :=
  if s.loc = .switching then some { s with loc := .switched } else none

/-- `postSuspend`, on the next fibre's stack: the fibre is parked, or has been resumed early. -/
def postSuspend (s : State R P) : Option (State R P) :=
  if s.loc = .switched then
    some { s with
      runState := fetchSub s.runState
      loc := if s.runState = ResumedEarly then .handing else .away }
  else none

/-- `resumeInternal` as `postSuspend` calls it: into the ready queue of the fibre's processor. -/
def postResumeInternal (s : State R P) : Option (State R P) :=
  if s.loc = .handing then
    some { s with loc := .away, ready := s.ready + 1, enqueued := s.race :: s.enqueued }
  else none

/-- A worker takes the fibre out of a ready queue and switches to it. -/
def dispatch (s : State R P) : Option (State R P) :=
  if 0 < s.ready then some { s with ready := s.ready - 1, loc := .woken } else none

/-- `return resumeInfo`. -/
def finish (s : State R P) : Option (State R P) :=
  if s.loc = .woken then
    some { s with loc := .running, results := (s.race, s.resumeInfo) :: s.results }
  else none

/-- Resumers only race once a race has been prepared: before that `resumeInfo` is uninitialised. -/
def raceResume (s : State R P) (r : R) (ri : P) : Option (State R P) :=
  if s.resumer r = .idle ∧ 0 < s.race then
    match s.resumeInfo with
    | none =>
      some { s with
        resumeInfo := some ri
        resumer := Function.update s.resumer r (.won s.race)
        winners := (s.race, r, ri) :: s.winners }
    | some _ => some s
  else none

/-- The `fetch_add` of `resume`; only a winner calls it. -/
def resume (s : State R P) (r : R) (direct : Bool) : Option (State R P) :=
  match s.resumer r with
  | .won k =>
    if s.runState = Parked then
      some { s with
        runState := fetchAdd s.runState
        resumer := Function.update s.resumer r (.handing k direct) }
    else
      some { s with
        runState := fetchAdd s.runState
        resumer := Function.update s.resumer r .idle
        resumed := k :: s.resumed }
  | _ => none

/-- `resumeInternal`: the resumer puts the fibre into a ready queue. -/
def resumeInternal (s : State R P) (r : R) : Option (State R P) :=
  match s.resumer r with
  | .handing k false =>
    some { s with
      resumer := Function.update s.resumer r .idle
      resumed := k :: s.resumed
      ready := s.ready + 1
      enqueued := s.race :: s.enqueued }
  | _ => none

/-- `resumeDirect`: the resumer's worker switches straight to the fibre. -/
def resumeDirect (s : State R P) (r : R) : Option (State R P) :=
  match s.resumer r with
  | .handing k true =>
    some { s with
      resumer := Function.update s.resumer r .idle
      resumed := k :: s.resumed
      loc := .woken }
  | _ => none

/-- One step; `SpinStart` and `SpinEnd` bound the attempts to skip the switch. -/
def step (SpinStart SpinEnd : ℕ) (s : State R P) : Action R P → Option (State R P)
  | .prepareResumeRace => prepareResumeRace s
  | .suspend => suspend SpinStart s
  | .trySkip => trySkip SpinEnd s
  | .stackSwitch => stackSwitch s
  | .postSuspend => postSuspend s
  | .postResumeInternal => postResumeInternal s
  | .dispatch => dispatch s
  | .finish => finish s
  | .raceResume r ri => raceResume s r ri
  | .resume r direct => resume s r direct
  | .resumeInternal r => resumeInternal s r
  | .resumeDirect r => resumeDirect s r

/-- A constructed `Fred`: `runState(Running)`, `resumeInfo` left uninitialised. -/
def start (garbage : Option P) : State R P :=
  { runState := Running, resumeInfo := garbage, loc := .running, ready := 0,
    resumer := fun _ => .idle, race := 0, winners := [], results := [], resumed := [],
    enqueued := [] }

/-- A fibre with any old `resumeInfo`, and any number of resumers. -/
def system (R P : Type) [DecidableEq R] (SpinStart SpinEnd : ℕ) : System (State R P) (Action R P) where
  init s := ∃ garbage, s = start garbage
  step := step SpinStart SpinEnd

/-! ### The invariant -/

/-- How far the current race has got: no race yet, nobody has won, the winner has yet to call
    `resume`, it found `Parked` and holds the fibre, or its `resume` has executed. -/
inductive Phase (R P : Type) where
  | fresh
  | opened
  | won (r : R) (ri : P)
  | handing (r : R) (ri : P) (direct : Bool)
  | ended (r : R) (ri : P)

/-- The fibre has prepared a race and `postSuspend` has not run: its stack is in use. -/
def Loc.early : Loc → Prop
  | .raced | .spinning _ | .switching | .switched => True
  | _ => False

/-- The places of the fibre that go with a phase. -/
def Phase.legal : Phase R P → Loc → Prop
  | .fresh, l => l = .running
  | .opened, l | .won _ _, l => l.early ∨ l = .away
  | .handing _ _ _, l => l = .away
  | .ended _ _, _ => True

/-- The one value `runState` can have. -/
def Phase.runState : Phase R P → Loc → ℕ
  | .opened, .away | .won _ _, .away => Parked
  | .ended _ _, .raced | .ended _ _, .spinning _ | .ended _ _, .switching | .ended _ _, .switched =>
    ResumedEarly
  | _, _ => Running

/-- How often the fibre is in a ready queue. -/
def Phase.ready : Phase R P → Loc → ℕ
  | .ended _ _, .away => 1
  | _, _ => 0

/-- What `resumeInfo` is in a phase of the race. -/
def Phase.info : Phase R P → Option P → Prop
  | .fresh, _ => True
  | .opened, ri => ri = none
  | .won _ p, ri | .handing _ p _, ri | .ended _ p, ri => ri = some p

/-- Where the resumers are, in race `k`. -/
def Phase.resumer (k : ℕ) : Phase R P → R → Resumer
  | .won r _ => Function.update (fun _ => .idle) r (.won k)
  | .handing r _ d => Function.update (fun _ => .idle) r (.handing k d)
  | _ => fun _ => .idle

/-- The winner of the current race, as recorded. -/
def Phase.winner : Phase R P → Option (R × P)
  | .won r p | .handing r p _ | .ended r p => some (r, p)
  | _ => none

/-- INVARIANT: the words and the places are those of the phase. -/
structure Inv (ph : Phase R P) (s : State R P) : Prop where
  fresh : s.race = 0 ↔ ph = .fresh
  legal : ph.legal s.loc
  word : s.runState = ph.runState s.loc
  queued : s.ready = ph.ready s.loc
  info : ph.info s.resumeInfo
  resumer : s.resumer = ph.resumer s.race
  winner : ∀ r p, (s.race, r, p) ∈ s.winners ↔ ph.winner = some (r, p)
  winners_le : ∀ x ∈ s.winners, x.1 ≤ s.race
  winners_one : (s.winners.map (·.1)).Nodup
  results : ∀ x ∈ s.results, ∃ r p, x.2 = some p ∧ (x.1, r, p) ∈ s.winners
  resumed : s.race ∈ s.resumed ↔ ∃ r p, ph = .ended r p
  resumed_le : ∀ k ∈ s.resumed, k ≤ s.race
  enqueued : s.race ∈ s.enqueued → (∃ r p, ph = .ended r p) ∧ ¬ s.loc.early ∧ s.loc ≠ .handing
  enqueued_le : ∀ k ∈ s.enqueued, k ≤ s.race
  enqueued_one : s.enqueued.Nodup

/-! ### What each step preserves -/

variable {ph : Phase R P} {s s' : State R P}

theorem inv_start (garbage : Option P) : Inv .fresh (start garbage : State R P) := by
  constructor <;> simp [start, Phase.legal, Phase.runState, Phase.ready, Phase.info, Phase.resumer,
    Phase.winner]

/-- Outside a race's handshake no resumer is at work and the word says `Running`. -/
theorem Inv.at_running (hi : Inv ph s) (hloc : s.loc = .running) :
    s.resumer = (fun _ => .idle) ∧ s.runState = Running ∧ s.ready = 0 := by
  rw [hi.resumer, hi.word, hi.queued, hloc]
  have hl := hi.legal
  rw [hloc] at hl
  cases ph with
  | fresh => exact ⟨rfl, rfl, rfl⟩
  | opened => exact ⟨rfl, rfl, rfl⟩
  | won r ri => rcases hl with hl | hl <;> simp [Loc.early] at hl
  | handing r ri d => simp [Phase.legal] at hl
  | ended r ri => exact ⟨rfl, rfl, rfl⟩

theorem inv_prepareResumeRace (hi : Inv ph s) (h : prepareResumeRace s = some s') :
    ∃ ph, Inv ph s' := by
  simp only [prepareResumeRace, Option.ite_none_right_eq_some, Option.some.injEq] at h
  obtain ⟨hloc, rfl⟩ := h
  obtain ⟨hidle, hword, hready⟩ := hi.at_running hloc
  -- everything recorded belongs to an earlier race
  have hwinners : ∀ r p, (s.race + 1, r, p) ∉ s.winners := fun r p hmem =>
    absurd (hi.winners_le _ hmem) (Nat.not_succ_le_self _)
  have hresumed : s.race + 1 ∉ s.resumed := fun hmem =>
    absurd (hi.resumed_le _ hmem) (Nat.not_succ_le_self _)
  have henqueued : s.race + 1 ∉ s.enqueued := fun hmem =>
    absurd (hi.enqueued_le _ hmem) (Nat.not_succ_le_self _)
  exact ⟨.opened, {
    fresh := by simp
    legal := Or.inl trivial
    word := hword
    queued := hready
    info := rfl
    resumer := hidle
    winner := by simpa [Phase.winner] using hwinners
    winners_le := fun x hx => Nat.le_succ_of_le (hi.winners_le x hx)
    winners_one := hi.winners_one
    results := hi.results
    resumed := by simpa using hresumed
    resumed_le := fun k hk => Nat.le_succ_of_le (hi.resumed_le k hk)
    enqueued := fun hmem => absurd hmem henqueued
    enqueued_le := fun k hk => Nat.le_succ_of_le (hi.enqueued_le k hk)
    enqueued_one := hi.enqueued_one }⟩

/-- A move of the fibre inside a race that changes no resumer and no record. -/
theorem Inv.move (hi : Inv ph s) {l : Loc} {w n : ℕ} (hlegal : ph.legal l)
    (hword : w = ph.runState l) (hqueued : n = ph.ready l)
    (henq : s.race ∈ s.enqueued → ¬ l.early ∧ l ≠ .handing) :
    Inv ph { s with loc := l, runState := w, ready := n } :=
  { hi with
    legal := hlegal
    word := hword
    queued := hqueued
    enqueued := fun hmem => ⟨(hi.enqueued hmem).1, henq hmem⟩ }

/-- Before `postSuspend` the fibre has not been queued in this race. -/
theorem Inv.early_notMem (hi : Inv ph s) (hl : s.loc.early) : s.race ∉ s.enqueued :=
  fun hmem => (hi.enqueued hmem).2.1 hl

/-- Up to the stack switch the place of the fibre makes no difference to anybody. -/
theorem Inv.move_early (hi : Inv ph s) {l : Loc} (hs : s.loc.early) (hl : l.early) :
    Inv ph { s with loc := l } := by
  refine hi.move (l := l) (w := s.runState) (n := s.ready) ?_ ?_ ?_ fun hmem =>
    absurd hmem (hi.early_notMem hs)
  · have hlegal := hi.legal
    generalize s.loc = k at hs hlegal
    cases ph <;> cases k <;> simp_all [Phase.legal, Loc.early]
  · rw [hi.word]
    generalize s.loc = k at hs
    cases ph <;> cases k <;> cases l <;> simp_all [Phase.runState, Loc.early]
  · rw [hi.queued]
    generalize s.loc = k at hs
    cases ph <;> cases k <;> cases l <;> simp_all [Phase.ready, Loc.early]

theorem inv_suspend {SpinStart : ℕ} (hi : Inv ph s) (h : suspend SpinStart s = some s') :
    ∃ ph, Inv ph s' := by
  simp only [suspend, Option.ite_none_right_eq_some, Option.some.injEq] at h
  obtain ⟨hloc, rfl⟩ := h
  exact ⟨ph, hi.move_early (by rw [hloc]; trivial) trivial⟩

/-- `ResumedEarly` is seen on the fibre's own stack only after the winner's `resume`. -/
theorem Inv.resumedEarly (hi : Inv ph s) (hl : s.loc.early) :
    s.runState = ResumedEarly ↔ ∃ r p, ph = .ended r p := by
  rw [hi.word]
  have hlegal := hi.legal
  generalize s.loc = k at hl hlegal
  cases ph <;> cases k <;>
    simp_all [Phase.runState, Phase.legal, Loc.early, Running, ResumedEarly]

theorem inv_trySkip {SpinEnd : ℕ} (hi : Inv ph s) (h : trySkip SpinEnd s = some s') :
    ∃ ph, Inv ph s' := by
  unfold trySkip at h
  split at h
  · rename_i spin hloc
    have hearly : s.loc.early := by rw [hloc]; trivial
    split at h
    · rename_i hword
      obtain ⟨r, p, rfl⟩ := (hi.resumedEarly hearly).mp hword
      rw [Option.some.injEq] at h
      subst h
      refine ⟨.ended r p, hi.move (l := .woken) (w := Running) (n := s.ready) trivial rfl ?_
        fun hmem => absurd hmem (hi.early_notMem hearly)⟩
      rw [hi.queued, hloc]; rfl
    · split at h <;> rw [Option.some.injEq] at h <;> subst h
      · exact ⟨ph, hi.move_early hearly trivial⟩
      · exact ⟨ph, hi.move_early hearly trivial⟩
  · cases h

theorem inv_stackSwitch (hi : Inv ph s) (h : stackSwitch s = some s') : ∃ ph, Inv ph s' := by
  simp only [stackSwitch, Option.ite_none_right_eq_some, Option.some.injEq] at h
  obtain ⟨hloc, rfl⟩ := h
  exact ⟨ph, hi.move_early (by rw [hloc]; trivial) trivial⟩

theorem inv_postSuspend (hi : Inv ph s) (h : postSuspend s = some s') : ∃ ph, Inv ph s' := by
  simp only [postSuspend, Option.ite_none_right_eq_some, Option.some.injEq] at h
  obtain ⟨hloc, rfl⟩ := h
  have hearly : s.loc.early := by rw [hloc]; trivial
  have hnot : s.race ∉ s.enqueued := hi.early_notMem hearly
  have hlegal := hi.legal
  have hword := hi.word
  have hqueued := hi.queued
  rw [hloc] at hlegal hword hqueued
  refine ⟨ph, hi.move (n := s.ready) ?_ ?_ ?_ fun hmem => absurd hmem hnot⟩
  all_goals
    cases ph <;> simp_all [Phase.legal, Phase.runState, Phase.ready, Loc.early, fetchSub, Running,
      ResumedEarly, Parked]

/-- Entering a ready queue, by whichever of the two paths, is recorded once. -/
theorem Inv.enqueue {r : R} {p : P} (hi : Inv (.ended r p) s) (hnot : s.race ∉ s.enqueued)
    (hword : s.runState = Running) :
    Inv (.ended r p) { s with loc := .away, ready := 1, enqueued := s.race :: s.enqueued } :=
  { hi with
    legal := trivial
    word := hword
    queued := rfl
    enqueued := fun _ => ⟨⟨r, p, rfl⟩, fun h => h, by simp⟩
    enqueued_le := by
      intro k hk
      rcases List.mem_cons.mp hk with rfl | hk
      · exact Nat.le_refl _
      · exact hi.enqueued_le k hk
    enqueued_one := List.nodup_cons.mpr ⟨hnot, hi.enqueued_one⟩ }

theorem inv_postResumeInternal (hi : Inv ph s) (h : postResumeInternal s = some s') :
    ∃ ph, Inv ph s' := by
  simp only [postResumeInternal, Option.ite_none_right_eq_some, Option.some.injEq] at h
  obtain ⟨hloc, rfl⟩ := h
  have hnot : s.race ∉ s.enqueued := fun hmem => (hi.enqueued hmem).2.2 hloc
  have hlegal := hi.legal
  have hword := hi.word
  have hqueued := hi.queued
  rw [hloc] at hlegal hword hqueued
  cases ph with
  | ended r p =>
    have hready : s.ready + 1 = 1 := by rw [hqueued]; rfl
    rw [hready]
    exact ⟨.ended r p, hi.enqueue hnot hword⟩
  | fresh => simp [Phase.legal] at hlegal
  | opened => simp [Phase.legal, Loc.early] at hlegal
  | won r p => simp [Phase.legal, Loc.early] at hlegal
  | handing r p d => simp [Phase.legal] at hlegal

/-- Whoever is in a ready queue is off its stack, its race decided and resumed. -/
theorem Inv.of_ready (hi : Inv ph s) (hpos : 0 < s.ready) :
    (∃ r p, ph = .ended r p) ∧ s.loc = .away ∧ s.ready = 1 := by
  have hq := hi.queued
  rw [hq] at hpos ⊢
  generalize s.loc = k at hpos
  cases ph <;> cases k <;> simp_all [Phase.ready]

theorem inv_dispatch (hi : Inv ph s) (h : dispatch s = some s') : ∃ ph, Inv ph s' := by
  simp only [dispatch, Option.ite_none_right_eq_some, Option.some.injEq] at h
  obtain ⟨hpos, rfl⟩ := h
  obtain ⟨⟨r, p, rfl⟩, hloc, hready⟩ := hi.of_ready hpos
  have hword := hi.word
  rw [hloc] at hword
  refine ⟨.ended r p, hi.move (l := .woken) (n := s.ready - 1) trivial hword ?_
    fun _ => ⟨fun h => h, by simp⟩⟩
  rw [hready]; rfl

/-- A woken fibre returns the pointer of its race's winner. -/
theorem inv_finish (hi : Inv ph s) (h : finish s = some s') : ∃ ph, Inv ph s' := by
  simp only [finish, Option.ite_none_right_eq_some, Option.some.injEq] at h
  obtain ⟨hloc, rfl⟩ := h
  have hlegal := hi.legal
  have hword := hi.word
  have hqueued := hi.queued
  rw [hloc] at hlegal hword hqueued
  cases ph with
  | ended r p =>
    refine ⟨.ended r p, { hi with
      legal := trivial
      word := hword
      queued := hqueued
      enqueued := fun hmem => ⟨⟨r, p, rfl⟩, fun h => h, by simp⟩
      results := ?_ }⟩
    intro x hx
    rcases List.mem_cons.mp hx with rfl | hx
    · exact ⟨r, p, hi.info, (hi.winner r p).mpr rfl⟩
    · exact hi.results x hx
  | fresh => simp [Phase.legal] at hlegal
  | opened => simp [Phase.legal, Loc.early] at hlegal
  | won r p => simp [Phase.legal, Loc.early] at hlegal
  | handing r p d => simp [Phase.legal] at hlegal

/-- Only an open race can be won, and then by nobody else. -/
theorem inv_raceResume {r : R} {ri : P} (hi : Inv ph s) (h : raceResume s r ri = some s') :
    ∃ ph, Inv ph s' := by
  simp only [raceResume, Option.ite_none_right_eq_some] at h
  obtain ⟨⟨_, hrace⟩, h⟩ := h
  split at h <;> rw [Option.some.injEq] at h <;> subst h
  · rename_i hinfo
    have hopen : ph = .opened := by
      have hp := hi.info
      have hf := hi.fresh
      rw [hinfo] at hp
      cases ph <;> simp_all [Phase.info]
    subst hopen
    have hnone : ∀ r p, (s.race, r, p) ∉ s.winners := fun r p hmem =>
      absurd ((hi.winner r p).mp hmem) (by simp [Phase.winner])
    refine ⟨.won r ri, { hi with
      fresh := by simpa using hi.fresh
      legal := hi.legal
      word := ?_
      queued := hi.queued
      info := rfl
      resumer := ?_
      winner := ?_
      winners_le := ?_
      winners_one := ?_
      results := ?_
      resumed := by simpa using hi.resumed
      enqueued := fun hmem => absurd (hi.enqueued hmem).1 (by simp) }⟩
    · rw [hi.word]
      cases s.loc <;> rfl
    · simp only [Phase.resumer, hi.resumer]
    · intro r' p'
      simp only [List.mem_cons, Prod.mk.injEq, true_and, hnone, or_false, Phase.winner,
        Option.some.injEq]
      exact ⟨fun ⟨h1, h2⟩ => ⟨h1.symm, h2.symm⟩, fun ⟨h1, h2⟩ => ⟨h1.symm, h2.symm⟩⟩
    · intro x hx
      rcases List.mem_cons.mp hx with rfl | hx
      · exact Nat.le_refl _
      · exact hi.winners_le x hx
    · refine List.nodup_cons.mpr ⟨fun hmem => ?_, hi.winners_one⟩
      obtain ⟨⟨k, r', p'⟩, hx, hk⟩ := List.mem_map.mp hmem
      dsimp only at hk
      subst hk
      exact hnone r' p' hx
    · intro x hx
      obtain ⟨r', p', hp, hw⟩ := hi.results x hx
      exact ⟨r', p', hp, List.mem_cons_of_mem _ hw⟩
  · exact ⟨ph, hi⟩

/-- The resumer that has won belongs to the current race, and it is the only one at work. -/
theorem Inv.of_won (hi : Inv ph s) {r : R} {k : ℕ} (h : s.resumer r = .won k) :
    k = s.race ∧ ∃ p, ph = .won r p := by
  rw [hi.resumer] at h
  cases ph with
  | won r' p =>
    by_cases hr : r = r'
    · subst hr
      simp only [Phase.resumer, Function.update_self, Resumer.won.injEq] at h
      exact ⟨h.symm, p, rfl⟩
    · simp [Phase.resumer, Function.update_of_ne hr] at h
  | handing r' p d =>
    by_cases hr : r = r'
    · subst hr; simp [Phase.resumer] at h
    · simp [Phase.resumer, Function.update_of_ne hr] at h
  | fresh => simp [Phase.resumer] at h
  | opened => simp [Phase.resumer] at h
  | ended r' p => simp [Phase.resumer] at h

theorem Inv.of_handing (hi : Inv ph s) {r : R} {k : ℕ} {d : Bool}
    (h : s.resumer r = .handing k d) : k = s.race ∧ ∃ p, ph = .handing r p d := by
  rw [hi.resumer] at h
  cases ph with
  | won r' p =>
    by_cases hr : r = r'
    · subst hr; simp [Phase.resumer] at h
    · simp [Phase.resumer, Function.update_of_ne hr] at h
  | handing r' p d' =>
    by_cases hr : r = r'
    · subst hr
      simp only [Phase.resumer, Function.update_self, Resumer.handing.injEq] at h
      exact ⟨h.1.symm, p, by rw [h.2]⟩
    · simp [Phase.resumer, Function.update_of_ne hr] at h
  | fresh => simp [Phase.resumer] at h
  | opened => simp [Phase.resumer] at h
  | ended r' p => simp [Phase.resumer] at h

/-- The winner's `resume` has executed: nobody is at work any more, the race is over. -/
theorem Inv.conclude {r : R} {p : P} {l : Loc} {w n : ℕ} (hi : Inv ph s)
    (hph : ph.winner = some (r, p)) (hidle : Function.update s.resumer r .idle = fun _ => .idle)
    (hinfo : s.resumeInfo = some p) (hword : w = (Phase.ended r p).runState l)
    (hqueued : n = (Phase.ended r p : Phase R P).ready l) (hnot : s.race ∉ s.enqueued) :
    Inv (.ended r p) { s with
      loc := l, runState := w, ready := n, resumer := Function.update s.resumer r .idle,
      resumed := s.race :: s.resumed } :=
  { hi with
    fresh := by
      have hf := hi.fresh
      constructor
      · intro h0; rw [hf.mp h0] at hph; simp [Phase.winner] at hph
      · intro h0; cases h0
    legal := trivial
    word := hword
    queued := hqueued
    info := hinfo
    resumer := hidle
    winner := fun r' p' => by rw [hi.winner r' p', hph]; rfl
    resumed := ⟨fun _ => ⟨r, p, rfl⟩, fun _ => List.mem_cons_self ..⟩
    resumed_le := by
      intro k hk
      rcases List.mem_cons.mp hk with rfl | hk
      · exact Nat.le_refl _
      · exact hi.resumed_le k hk
    enqueued := fun hmem => absurd hmem hnot }

theorem inv_resume {r : R} {d : Bool} (hi : Inv ph s) (h : resume s r d = some s') :
    ∃ ph, Inv ph s' := by
  unfold resume at h
  split at h
  · rename_i k hwon
    obtain ⟨rfl, p, rfl⟩ := hi.of_won hwon
    have hnot : s.race ∉ s.enqueued := fun hmem => absurd (hi.enqueued hmem).1 (by simp)
    have hword := hi.word
    have hlegal := hi.legal
    have hqueued := hi.queued
    split at h <;> rename_i hparked <;> rw [Option.some.injEq] at h <;> subst h
    · -- the fibre is parked: the resumer now holds it
      have hloc : s.loc = .away := by
        rcases hlegal with hl | hl
        · generalize s.loc = k at hl hword
          rw [hword] at hparked
          cases k <;> simp_all [Phase.runState, Loc.early, Parked, Running]
        · exact hl
      refine ⟨.handing r p d, { hi with
        fresh := by simpa using hi.fresh
        legal := hloc
        word := ?_
        queued := by rw [hqueued, hloc]; rfl
        info := hi.info
        resumer := ?_
        winner := hi.winner
        resumed := by simpa using hi.resumed
        enqueued := fun hmem => absurd hmem hnot }⟩
      · rw [hparked, hloc]; rfl
      · simp only [hi.resumer, Phase.resumer, Function.update_idem]
    · -- the fibre is still on its way: `Running` becomes `ResumedEarly`
      have hidle : Function.update s.resumer r .idle = fun _ => .idle := by
        rw [hi.resumer, Phase.resumer, Function.update_idem, Function.update_eq_self_iff]
      refine ⟨.ended r p, hi.conclude (l := s.loc) (n := s.ready) rfl hidle hi.info ?_ ?_ hnot⟩
      · rw [hword] at hparked ⊢
        rcases hlegal with hl | hl
        · generalize s.loc = k at hl
          cases k <;> simp_all [Phase.runState, Loc.early, Running, ResumedEarly, fetchAdd]
        · rw [hl] at hparked; exact absurd rfl hparked
      · rw [hword] at hparked
        rw [hqueued]
        generalize s.loc = k at hparked
        cases k <;> simp_all [Phase.ready, Phase.runState]
  · cases h

/-- What the winner finds that has to enqueue the fibre or to switch to it. -/
theorem Inv.handed {r : R} {p : P} {d : Bool} (hi : Inv (.handing r p d) s) :
    (s.race ∉ s.enqueued ∧ Function.update s.resumer r .idle = fun _ => .idle) ∧
      s.loc = .away ∧ s.runState = Running ∧ s.ready = 0 := by
  have hloc : s.loc = .away := hi.legal
  refine ⟨⟨fun hmem => absurd (hi.enqueued hmem).1 (by simp), ?_⟩, hloc, ?_, ?_⟩
  · rw [hi.resumer, Phase.resumer, Function.update_idem, Function.update_eq_self_iff]
  · rw [hi.word, hloc]
    rfl
  · rw [hi.queued, hloc]
    rfl

theorem inv_resumeInternal {r : R} (hi : Inv ph s) (h : resumeInternal s r = some s') :
    ∃ ph, Inv ph s' := by
  unfold resumeInternal at h
  split at h
  · rename_i k hhand
    obtain ⟨rfl, p, rfl⟩ := hi.of_handing hhand
    rw [Option.some.injEq] at h
    subst h
    obtain ⟨⟨hnot, hidle⟩, hloc, hword, hready⟩ := hi.handed
    have hover := hi.conclude (l := .woken) (w := Running) (n := 0) rfl hidle hi.info rfl rfl hnot
    rw [hready]
    have henq := hover.enqueue hnot rfl
    rw [← hword, ← hloc] at henq
    exact ⟨_, henq⟩
  · cases h

theorem inv_resumeDirect {r : R} (hi : Inv ph s) (h : resumeDirect s r = some s') :
    ∃ ph, Inv ph s' := by
  unfold resumeDirect at h
  split at h
  · rename_i k hhand
    obtain ⟨rfl, p, rfl⟩ := hi.of_handing hhand
    rw [Option.some.injEq] at h
    subst h
    obtain ⟨⟨hnot, hidle⟩, -, hword, hready⟩ := hi.handed
    exact ⟨.ended r p, hi.conclude (l := .woken) (w := s.runState) (n := s.ready) rfl hidle hi.info
      hword hready hnot⟩
  · cases h

/-- STEP: whatever action is taken, the handshake is in one of its phases afterwards. -/
theorem inv_step {SpinStart SpinEnd : ℕ} (a : Action R P) (hi : ∃ ph, Inv ph s)
    (h : step SpinStart SpinEnd s a = some s') : ∃ ph, Inv ph s' := by
  obtain ⟨ph, hi⟩ := hi
  cases a with
  | prepareResumeRace => exact inv_prepareResumeRace hi h
  | suspend => exact inv_suspend hi h
  | trySkip => exact inv_trySkip hi h
  | stackSwitch => exact inv_stackSwitch hi h
  | postSuspend => exact inv_postSuspend hi h
  | postResumeInternal => exact inv_postResumeInternal hi h
  | dispatch => exact inv_dispatch hi h
  | finish => exact inv_finish hi h
  | raceResume r ri => exact inv_raceResume hi h
  | resume r direct => exact inv_resume hi h
  | resumeInternal r => exact inv_resumeInternal hi h
  | resumeDirect r => exact inv_resumeDirect hi h

theorem inv_reach {SpinStart SpinEnd : ℕ} (h : Reach (system R P SpinStart SpinEnd) s) :
    ∃ ph, Inv ph s := by
  refine h.inv (I := fun s => ∃ ph, Inv ph s) ?_ fun _ a _ hi hs => inv_step a hi hs
  rintro _ ⟨garbage, rfl⟩
  exact ⟨.fresh, inv_start garbage⟩

/-! ### The protocol -/

/-- The assertions of `prepareResumeRace`, `resume` and `postSuspend` hold whenever control is at
    them. -/
theorem rassert_reach {SpinStart SpinEnd : ℕ} (h : Reach (system R P SpinStart SpinEnd) s) :
    (s.loc = .running → s.runState = Running) ∧
    (s.loc = .switched → s.runState ≠ ResumedEarly → s.runState = Running) ∧
    (∀ r k, s.resumer r = .won k → s.runState ≠ Parked → s.runState = Running) := by
  obtain ⟨ph, hi⟩ := inv_reach h
  refine ⟨fun hloc => (hi.at_running hloc).2.1, fun hloc hne => ?_, fun r k hwon hne => ?_⟩
  · rw [hi.word, hloc] at hne ⊢
    cases ph <;> simp_all [Phase.runState]
  · obtain ⟨_, p, rfl⟩ := hi.of_won hwon
    rw [hi.word] at hne ⊢
    generalize s.loc = l at hne ⊢
    cases l <;> simp_all [Phase.runState]

/-- The fibre is on its way through `suspend`, `postSuspend`'s own hand-over included. -/
def Loc.onTheWay : Loc → Prop
  | .raced | .spinning _ | .switching | .switched | .handing => True
  | _ => False

/-- CORRECT: the suspend/resume protocol of one fibre, in every interleaving with any resumers. -/
theorem suspend_resume_protocol {SpinStart SpinEnd : ℕ}
    (h : Reach (system R P SpinStart SpinEnd) s) :
    -- `runState` takes no other value
    (s.runState = Parked ∨ s.runState = Running ∨ s.runState = ResumedEarly) ∧
    -- a race is won at most once, and `suspend` returns the winner's pointer
    (s.winners.map (·.1)).Nodup ∧
    (∀ k ri, (k, ri) ∈ s.results → ∃ r p, ri = some p ∧ (k, r, p) ∈ s.winners) ∧
    -- after the winner's `resume` the fibre is on its way, in a ready queue, or running again
    (s.race ∈ s.resumed → s.runState ≠ Parked ∧
      (s.loc.onTheWay ∨ (s.loc = .away ∧ s.ready = 1) ∨ s.loc = .woken ∨ s.loc = .running)) ∧
    -- it is queued at most once per suspension, and only after `postSuspend`
    s.enqueued.Nodup ∧ s.ready ≤ 1 ∧ (0 < s.ready → s.loc = .away) ∧
    (s.race ∈ s.enqueued → ¬ s.loc.early) := by
  obtain ⟨ph, hi⟩ := inv_reach h
  refine ⟨?_, hi.winners_one, fun k ri hmem => hi.results (k, ri) hmem, fun hmem => ?_,
    hi.enqueued_one, ?_, fun hpos => (hi.of_ready hpos).2.1, fun hmem => (hi.enqueued hmem).2.1⟩
  · rw [hi.word]
    generalize s.loc = l
    cases ph <;> cases l <;> simp [Phase.runState]
  · obtain ⟨r, p, rfl⟩ := hi.resumed.mp hmem
    rw [hi.word, hi.queued]
    generalize s.loc = l
    cases l <;> simp [Phase.runState, Phase.ready, Loc.onTheWay, Parked, Running, ResumedEarly]
  · rcases Nat.eq_zero_or_pos s.ready with h0 | hpos
    · omega
    · exact Nat.le_of_eq (hi.of_ready hpos).2.2

/-- A resume between the compare-and-swap and the stack switch, and a loser of the race. -/
def lateResume (winner loser : R) (p q : P) : List (Action R P) :=
  [.prepareResumeRace, .suspend, .trySkip, .raceResume winner p, .raceResume loser q,
    .resume winner false, .stackSwitch, .postSuspend, .postResumeInternal, .dispatch, .finish]

theorem suspend_resume_protocol_late : ∃ s : State (Fin 2) ℕ,
    Reach (system (Fin 2) ℕ 1 0) s ∧ s.results = [(1, some 7)] ∧ s.enqueued = [1] ∧
      (s.winners.map (·.1)).Nodup ∧ s.ready ≤ 1 := by
  obtain ⟨s, hr, hp⟩ := reach_of_exec (system (Fin 2) ℕ 1 0) (start none)
    (lateResume 1 0 7 8) (fun s => s.results == [(1, some 7)] && s.enqueued == [1])
    ⟨none, rfl⟩ (by decide)
  simp only [Bool.and_eq_true, beq_iff_eq] at hp
  have hcorrect := suspend_resume_protocol hr
  exact ⟨s, hr, hp.1, hp.2, hcorrect.2.1, hcorrect.2.2.2.2.2.1⟩

end Libfibre.Fred
