import Libfibre.Schemes.Transition
import Mathlib.Data.List.Induction
import Mathlib.Tactic.Basic

/-! `SynchronizedFlag` under the lock of its `SyncPoint` (`BlockingSync.h`), as `Fibre` uses it for
    `join`, `detach` and the end of a fibre: one `post`, at most one `detach`, and one joiner that may
    wait again and again. Each section under the lock is one step; so is the joiner's `suspend`
    between the two sections of `wait`. State and waiter share one word.

        Running ──wait──▶ waiter ──post / detach (resume)──▶ Posted / Detached
           └──────────────post / detach─────────────────────────▲

    `post` looks for `Detached` before it takes the word for a waiter. `detach` does not look for
    `Posted`: after `post` it takes the word 2 for a `Fred` and overwrites the state. -/

namespace Libfibre.SyncPoint
open Transition

/-! ### The code -/

/-- `SynchronizedFlag::State`. -/
def Running : ℕ := 0
def Posted : ℕ := 2
def Detached : ℕ := 4

/-- The address of a `Fred`: it is none of the values of `State`. -/
abbrev Address := { a : ℕ // 4 < a }

/-- Where the joiner is. Before its `suspend` takes effect, `early` tells whether it has been resumed
    already. -/
inductive Joiner where
  | outside
  | released (early : Bool)   -- the lock is free again; `suspend` comes next
  | parked
  | woken                     -- past `suspend`; `lock.acquire` comes next
  deriving DecidableEq

/-- The word, where the joiner is, and what has been called. -/
structure State where
  word : ℕ               -- the union of `waiter` and `state`
  joiner : Joiner
  posting : Bool         -- `post` has been called
  detaching : Bool       -- `detach` has been called
  results : List Bool    -- what `wait` returned
  waits : ℕ              -- times the joiner has stored itself as `waiter`
  resumes : ℕ            -- times it has been resumed out of that
  wild : List ℕ          -- words resumed as a waiter though no fibre waited there
  aborted : Bool         -- `wait` reached its `RABORT`
  deriving DecidableEq

/-- The joiner, the one that posts or the one that detaches takes a step. -/
inductive Action where
  | wait
  | suspend
  | reacquire
  | post
  | detach
  deriving DecidableEq

/-- Nobody has called anything. -/
def State.init : State := ⟨Running, .outside, false, false, [], 0, 0, [], false⟩

/-- The end of `wait`, still under the lock. -/
def check (s : State) : State :=
  if s.word = Posted then { s with joiner := .outside, results := true :: s.results }
  else if s.word = Detached then { s with joiner := .outside, results := false :: s.results }
  else { s with aborted := true }

/-- `wait` up to the release of the lock. -/
def wait (me : Address) (s : State) : Option State :=
  if s.joiner = .outside ∧ s.aborted = false then
    some (if s.word = Running then
      { s with word := me, joiner := .released false, waits := s.waits + 1 }
    else check s)
  else none

/-- The joiner sleeps, unless it has been resumed already. -/
def suspend (s : State) : Option State :=
  match s.joiner with
  | .released early => some { s with joiner := if early then .woken else .parked }
  | _ => none

/-- `wait` from `lock.acquire` on. -/
def reacquire (s : State) : Option State :=
  if s.joiner = .woken then some (check s) else none

/-- A fibre waits: it has stored itself and nobody has resumed it. -/
def Joiner.waiting : Joiner → Bool
  | .released early => !early
  | .parked => true
  | _ => false

/-- `waiter->resume()`. -/
def resumeWaiter (me : Address) (s : State) : State :=
  if s.word = me ∧ s.joiner.waiting = true then
    { s with
      joiner := if s.joiner = .parked then .woken else .released true
      resumes := s.resumes + 1 }
  else { s with wild := s.word :: s.wild }

/-- The end of `post` and of `detach`: wake a waiter, and set the state. -/
def settle (me : Address) (w : ℕ) (s : State) : State :=
  { (if s.word ≠ Running then resumeWaiter me s else s) with word := w }

/-- The fibre's own `post`, once. -/
def post (me : Address) (s : State) : Option State :=
  if s.posting = false then
    some (if s.word = Detached then { s with posting := true }
    else settle me Posted { s with posting := true })
  else none

/-- `detach`, once. -/
def detach (me : Address) (s : State) : Option State :=
  if s.detaching = false then some (settle me Detached { s with detaching := true }) else none

/-- One step; `me` is the address of the joiner. -/
def step (me : Address) (s : State) : Action → Option State
  | .wait => wait me s
  | .suspend => suspend s
  | .reacquire => reacquire s
  | .post => post me s
  | .detach => detach me s

/-- All interleavings of a joiner, a `post` and a `detach`. -/
def system (me : Address) : System State Action := ⟨fun s => s = State.init, step me⟩

/-- A `detach` that finds the flag posted. -/
def late (s : State) (a : Action) : Bool := decide (a = .detach ∧ s.word = Posted)

/-! ### What is expected of the flag -/

/-- The first `post` or `detach` decides the state of the flag. -/
def outcome (as : List Action) : Option ℕ :=
  as.findSome? fun a => match a with
    | .post => some Posted
    | .detach => some Detached
    | _ => none

/-- What the claims about `SyncPoint` ask of a state when the calls so far decided `o`. -/
structure Sound (o : Option ℕ) (s : State) : Prop where
  /-- The word is taken for a waiter only when a fibre waits there. -/
  pointer : s.wild = []
  /-- Every time the joiner waited it has been resumed once, unless it still waits. -/
  once : s.waits = s.resumes + s.joiner.waiting.toNat
  /-- It does not wait any more when the flag has been posted or detached. -/
  awake : s.joiner.waiting = true → o = none
  /-- `wait` returns `true` if the flag was posted and not detached before, else `false`. -/
  results : ∀ b ∈ s.results, o = some (if b then Posted else Detached)
  /-- It always returns. -/
  returns : s.aborted = false
  /-- Nothing changes a flag once posted or detached. -/
  final : ∀ w, o = some w → s.word = w

/-- INVARIANT: `Sound`, and what `o` says of the calls and of the word. -/
structure Inv (me : Address) (o : Option ℕ) (s : State) : Prop extends Sound o s where
  undecided : o = none → s.posting = false ∧ s.detaching = false ∧
    (s.word = Running ∧ s.joiner = .outside ∨ s.word = me ∧ s.joiner.waiting = true)
  decided : ∀ w, o = some w →
    w = Posted ∧ s.posting = true ∨ w = Detached ∧ s.detaching = true

/-- What one more call decides. -/
def decides (o : Option ℕ) : Action → Option ℕ
  | .post => o.or (some Posted)
  | .detach => o.or (some Detached)
  | _ => o

theorem outcome_append (as : List Action) (a : Action) :
    outcome (as ++ [a]) = decides (outcome as) a := by
  rw [outcome, List.findSome?_append]
  cases a <;> simp [decides, outcome]

theorem Inv.start (me : Address) : Inv me none State.init where
  pointer := rfl
  once := rfl
  awake _ := rfl
  results := by intro b hb; cases hb
  returns := rfl
  final := by intro w hw; cases hw
  undecided _ := ⟨rfl, rfl, .inl ⟨rfl, rfl⟩⟩
  decided := by intro w hw; cases hw

/-! ### The steps -/

/-- A decided flag lets `wait` return what was decided. -/
theorem Inv.check {me : Address} {w : ℕ} {s : State} (hi : Inv me (some w) s) :
    Inv me (some w) (check s) := by
  have hidle : s.joiner.waiting = false := by
    cases hw : s.joiner.waiting with
    | true => cases hi.awake hw
    | false => rfl
  have hword : s.word = w := hi.final w rfl
  obtain ⟨b, hb⟩ : ∃ b : Bool, w = if b then Posted else Detached := by
    rcases hi.decided w rfl with ⟨h, _⟩ | ⟨h, _⟩
    · exact ⟨true, h⟩
    · exact ⟨false, h⟩
  have hcheck : SyncPoint.check s = { s with joiner := .outside, results := b :: s.results } := by
    rw [SyncPoint.check, hword, hb]
    cases b <;> rfl
  rw [hcheck]
  refine ⟨⟨hi.pointer, by rw [hi.once, hidle]; rfl, nofun, ?_, hi.returns, hi.final⟩, nofun,
    hi.decided⟩
  intro c hc
  rcases List.mem_cons.mp hc with rfl | hc
  · rw [hb]
  · exact hi.results c hc

theorem settle_calls (me : Address) (w : ℕ) (s : State) :
    (settle me w s).posting = s.posting ∧ (settle me w s).detaching = s.detaching := by
  rw [settle, resumeWaiter]
  split
  · split <;> exact ⟨rfl, rfl⟩
  · exact ⟨rfl, rfl⟩

/-- While nothing is decided, a word that is not `Running` is a fibre that waits: the deciding call
    resumes it. -/
theorem Sound.settle {me : Address} {s : State} (hs : Sound none s)
    (hword : s.word = Running ∧ s.joiner = .outside ∨ s.word = me ∧ s.joiner.waiting = true)
    (w : ℕ) : Sound (some w) (settle me w s) := by
  rw [SyncPoint.settle]
  rcases hword with ⟨hrun, hout⟩ | ⟨hme, hwait⟩
  · rw [if_neg (not_not.mpr hrun)]
    have hidle : s.joiner.waiting = false := by rw [hout]; rfl
    refine ⟨hs.pointer, hs.once, ?_, ?_, hs.returns, ?_⟩
    · intro hwait
      rw [hidle] at hwait
      cases hwait
    · intro b hb
      cases hs.results b hb
    · intro v hv
      exact Option.some.inj hv
  · have hne : s.word ≠ Running := by
      have := me.2
      rw [hme, Running]
      omega
    have hidle : (if s.joiner = .parked then Joiner.woken else .released true).waiting = false := by
      split <;> rfl
    rw [if_pos hne, resumeWaiter, if_pos ⟨hme, hwait⟩]
    refine ⟨hs.pointer, ?_, ?_, ?_, hs.returns, ?_⟩
    · show s.waits = s.resumes + 1 + _
      rw [hidle, hs.once, hwait]
      rfl
    · intro hw
      rw [hidle] at hw
      cases hw
    · intro b hb
      cases hs.results b hb
    · intro v hv
      exact Option.some.inj hv

theorem Inv.wait {me : Address} {o : Option ℕ} {s s' : State} (hi : Inv me o s)
    (h : wait me s = some s') : Inv me o s' := by
  obtain ⟨⟨hout, _⟩, h⟩ := Option.ite_none_right_eq_some.mp h
  cases h
  cases o with
  | some w =>
    have hne : s.word ≠ Running := by
      rw [hi.final w rfl]
      rcases hi.decided w rfl with ⟨rfl, _⟩ | ⟨rfl, _⟩ <;> decide
    rw [if_neg hne]
    exact hi.check
  | none =>
    obtain ⟨hpost, hdet, hword⟩ := hi.undecided rfl
    have hrun : s.word = Running := by
      rcases hword with ⟨hrun, _⟩ | ⟨_, hwait⟩
      · exact hrun
      · rw [hout] at hwait; cases hwait
    rw [if_pos hrun]
    refine ⟨⟨hi.pointer, ?_, fun _ => rfl, hi.results, hi.returns, nofun⟩, ?_, nofun⟩
    · show s.waits + 1 = s.resumes + 1
      rw [hi.once, hout]
      rfl
    · intro _
      exact ⟨hpost, hdet, .inr ⟨rfl, rfl⟩⟩

theorem Inv.suspend {me : Address} {o : Option ℕ} {s s' : State} (hi : Inv me o s)
    (h : suspend s = some s') : Inv me o s' := by
  rw [SyncPoint.suspend] at h
  split at h
  case h_2 => cases h
  case h_1 early hj =>
    have hsame : (if early then Joiner.woken else .parked).waiting = s.joiner.waiting := by
      rw [hj]; cases early <;> rfl
    cases h
    refine ⟨⟨hi.pointer, by rw [hsame]; exact hi.once, by rw [hsame]; exact hi.awake, hi.results,
      hi.returns, hi.final⟩, ?_, hi.decided⟩
    intro ho
    obtain ⟨hpost, hdet, hword⟩ := hi.undecided ho
    refine ⟨hpost, hdet, ?_⟩
    rcases hword with ⟨_, hout⟩ | ⟨hme, hwait⟩
    · rw [hj] at hout; cases hout
    · exact .inr ⟨hme, hsame.trans hwait⟩

theorem Inv.reacquire {me : Address} {o : Option ℕ} {s s' : State} (hi : Inv me o s)
    (h : reacquire s = some s') : Inv me o s' := by
  obtain ⟨hwoken, h⟩ := Option.ite_none_right_eq_some.mp h
  cases h
  cases o with
  | some w => exact hi.check
  | none =>
    rcases (hi.undecided rfl).2.2 with ⟨_, hout⟩ | ⟨_, hwait⟩
    · rw [hwoken] at hout; cases hout
    · rw [hwoken] at hwait; cases hwait

theorem Inv.post {me : Address} {o : Option ℕ} {s s' : State} (hi : Inv me o s)
    (h : post me s = some s') : Inv me (decides o .post) s' := by
  obtain ⟨hfirst, h⟩ := Option.ite_none_right_eq_some.mp h
  cases h
  cases o with
  | some w =>
    -- a flag decided before the only `post` is a detached one
    rcases hi.decided w rfl with ⟨_, hpost⟩ | ⟨hw, hdet⟩
    · rw [hfirst] at hpost; cases hpost
    · rw [if_pos ((hi.final w rfl).trans hw)]
      refine ⟨⟨hi.pointer, hi.once, hi.awake, hi.results, hi.returns, hi.final⟩, nofun, ?_⟩
      intro v hv
      cases hv
      exact .inr ⟨hw, hdet⟩
  | none =>
    obtain ⟨_, _, hword⟩ := hi.undecided rfl
    have hne : s.word ≠ Detached := by
      rcases hword with ⟨hrun, _⟩ | ⟨hme, _⟩
      · rw [hrun]; decide
      · have := me.2
        rw [hme, Detached]
        omega
    rw [if_neg hne]
    have hs : Sound none { s with posting := true } :=
      ⟨hi.pointer, hi.once, hi.awake, hi.results, hi.returns, hi.final⟩
    refine ⟨hs.settle hword Posted, nofun, ?_⟩
    intro v hv
    cases hv
    exact .inl ⟨rfl, (settle_calls _ _ _).1⟩

theorem Inv.detach {me : Address} {o : Option ℕ} {s s' : State} (hi : Inv me o s)
    (hlate : late s .detach = false) (h : detach me s = some s') :
    Inv me (decides o .detach) s' := by
  obtain ⟨hfirst, h⟩ := Option.ite_none_right_eq_some.mp h
  cases h
  cases o with
  | some w =>
    exfalso
    rcases hi.decided w rfl with ⟨hw, _⟩ | ⟨_, hdet⟩
    · have hword : s.word = Posted := (hi.final w rfl).trans hw
      rw [late, decide_eq_false_iff_not] at hlate
      exact hlate ⟨rfl, hword⟩
    · rw [hfirst] at hdet; cases hdet
  | none =>
    obtain ⟨_, _, hword⟩ := hi.undecided rfl
    have hs : Sound none { s with detaching := true } :=
      ⟨hi.pointer, hi.once, hi.awake, hi.results, hi.returns, hi.final⟩
    refine ⟨hs.settle hword Detached, nofun, ?_⟩
    intro v hv
    cases hv
    exact .inr ⟨rfl, (settle_calls _ _ _).2⟩

/-- STEP: every step but a late `detach` keeps the invariant. -/
theorem Inv.step {me : Address} {o : Option ℕ} {s s' : State} {a : Action} (hi : Inv me o s)
    (hlate : late s a = false) (h : step me s a = some s') : Inv me (decides o a) s' := by
  cases a with
  | wait => exact hi.wait h
  | suspend => exact hi.suspend h
  | reacquire => exact hi.reacquire h
  | post => exact hi.post h
  | detach => exact hi.detach hlate h

/-- RUN: without a late `detach` the flag is sound. -/
theorem inv_of_avoids {me : Address} {as : List Action} {s : State}
    (h : Run (system me) (Avoids late) as s) : Inv me (outcome as) s := by
  induction h with
  | start h0 => rw [show _ = State.init from h0]; exact Inv.start me
  | step _ hg hs ih => rw [outcome_append]; exact ih.step hg hs

/-! ### A late detach -/

@[simp] theorem check_wild (s : State) : (check s).wild = s.wild := by
  rw [check]
  split
  · rfl
  · split <;> rfl

/-- Only the joiner's own address is taken for a waiter unrecorded. -/
theorem wild_of_settle {me : Address} {w : ℕ} {s : State} (h : (settle me w s).wild = []) :
    s.wild = [] ∧ (s.word = Running ∨ s.word = me) := by
  rw [settle, resumeWaiter] at h
  by_cases hrun : s.word = Running
  · rw [if_neg (not_not.mpr hrun)] at h
    exact ⟨h, .inl hrun⟩
  · rw [if_pos hrun] at h
    split at h
    case isTrue hw => exact ⟨h, .inr hw.1⟩
    case isFalse => cases h

/-- STEP: what was taken for a waiter stays recorded, and a late `detach` is recorded. -/
theorem wild_step {me : Address} {s s' : State} {a : Action} (h : step me s a = some s')
    (hs' : s'.wild = []) : s.wild = [] ∧ late s a = false := by
  cases a with
  | wait =>
    obtain ⟨_, h⟩ := Option.ite_none_right_eq_some.mp h
    cases h
    refine ⟨?_, rfl⟩
    split at hs'
    · exact hs'
    · rw [check_wild] at hs'; exact hs'
  | suspend =>
    simp only [step, suspend] at h
    split at h
    · cases h; exact ⟨hs', rfl⟩
    · cases h
  | reacquire =>
    obtain ⟨_, h⟩ := Option.ite_none_right_eq_some.mp h
    cases h
    exact ⟨by rw [check_wild] at hs'; exact hs', rfl⟩
  | post =>
    obtain ⟨_, h⟩ := Option.ite_none_right_eq_some.mp h
    cases h
    refine ⟨?_, rfl⟩
    split at hs'
    · exact hs'
    · exact (wild_of_settle hs').1
  | detach =>
    obtain ⟨_, h⟩ := Option.ite_none_right_eq_some.mp h
    cases h
    obtain ⟨hwild, hword⟩ := wild_of_settle hs'
    refine ⟨hwild, ?_⟩
    rw [late, decide_eq_false_iff_not]
    rintro ⟨_, hposted⟩
    rcases hword with hrun | hme
    · exact absurd (hposted.symm.trans hrun) (by decide)
    · have haddr : (me : ℕ) = Posted := hme.symm.trans hposted
      have := me.2
      rw [haddr, Posted] at this
      omega

/-- CORRECT: in a run of `wait`, the one `post` and at most one `detach`, the flag behaves as
    expected exactly if no `detach` found it posted. -/
theorem sound_iff_no_late_detach {me : Address} {as : List Action} {s : State}
    (h : Run (system me) Free as s) :
    Sound (outcome as) s ↔ Run (system me) (Avoids late) as s := by
  constructor
  · intro hsound
    have hwild : s.wild = [] := hsound.pointer
    clear hsound
    induction h with
    | start h0 => exact .start h0
    | step _ _ hs ih =>
      obtain ⟨hbefore, hlate⟩ := wild_step hs hwild
      exact .step (ih hbefore) hlate hs
  · intro hrun
    exact (inv_of_avoids hrun).toSound

/-- An address of a joining fibre. -/
def someFred : Address := ⟨4096, by decide⟩

/-- WRONG: a fibre finishes, then it is detached: the word 2 is resumed as a waiter, and the flag is
    not posted any more; a `wait` after that returns `false`. -/
theorem detach_after_post : ∃ s, Run (system someFred) Free [.post, .detach, .wait] s ∧
    s.wild = [Posted] ∧ s.word = Detached ∧ s.results = [false] ∧
    ¬ Sound (outcome [.post, .detach, .wait]) s := by
  obtain ⟨s, hrun, hs⟩ := run_of_execAvoiding (system someFred) (fun _ _ => false) State.init
    [.post, .detach, .wait]
    (fun s => decide (s.wild = [Posted] ∧ s.word = Detached ∧ s.results = [false])) rfl (by decide)
  obtain ⟨hwild, hword, hresults⟩ := of_decide_eq_true hs
  refine ⟨s, hrun.mono fun _ _ _ => trivial, hwild, hword, hresults, ?_⟩
  intro hsound
  rw [hsound.pointer] at hwild
  cases hwild

theorem sound_iff_no_late_detach_join : ∃ s,
    Run (system someFred) Free [.wait, .suspend, .post, .reacquire, .wait] s ∧
    s.results = [true, true] ∧
    (Sound (outcome [.wait, .suspend, .post, .reacquire, .wait]) s ↔
      Run (system someFred) (Avoids late) [.wait, .suspend, .post, .reacquire, .wait] s) := by
  obtain ⟨s, hrun, hs⟩ := run_of_execAvoiding (system someFred) (fun _ _ => false) State.init
    [.wait, .suspend, .post, .reacquire, .wait] (fun s => decide (s.results = [true, true])) rfl
    (by decide)
  have hfree := hrun.mono (H := Free) fun _ _ _ => trivial
  exact ⟨s, hfree, of_decide_eq_true hs, sound_iff_no_late_detach hfree⟩

end Libfibre.SyncPoint
