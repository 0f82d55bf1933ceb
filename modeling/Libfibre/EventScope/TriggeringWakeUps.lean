import Libfibre.EventScope.Triggering

/-! No fibre sleeps in `syncIO` through what there is, however it is that events are polled for, as long
    as the calls that need it try before they wait, and on-demand items are of sockets only. -/

namespace Libfibre.EventScope.Triggering
open Transition LockedSemaphore BlockingQueue

variable {E : Epoll} {c : Config} {s s' t : State E} {a : Action} {as : List Action}

theorem sleepsOn_iff : s.sleepsOn = true ↔ s.asleep ∧ 0 < s.avail := by
  rw [State.sleepsOn, Bool.and_eq_true, decide_eq_true_eq, decide_eq_true_eq]
  rfl

theorem Inv.closed (h : Inv c s) (hsleep : s.asleep) : ¬ 1 ≤ s.sem.counter := by
  have hclosed := h.sole.closed hsleep
  omega

theorem Inv.asleep_live (h : Inv c s) (hsleep : s.asleep) (hidle : s.stage = .idle) : s.enabled = true := by
  rcases h.live (.inr (.inr hsleep)) with hen | hstage | hopen
  · exact hen
  · exact absurd hidle hstage
  · exact absurd hopen (h.closed hsleep)

/-- A fibre does not sleep through what there is. -/
theorem Inv.coming (h : Inv c s) (hsleep : s.asleep) (hpos : 0 < s.avail) : s.Coming := by
  by_cases hidle : s.stage = .idle
  · have hen := h.asleep_live hsleep hidle
    rcases h.told (.inr (.inr (.inr hsleep))) hen with hzero | hcalls | hlinked | hstage | hopen
    · omega
    · exact .inr ⟨hen, .inr hcalls⟩
    · exact .inr ⟨hen, .inl hlinked⟩
    · exact absurd hidle hstage
    · exact absurd hopen (h.closed hsleep)
  · exact .inl hidle

/-- The steps of the poller. -/
def Action.polls : Action → Bool
  | .scan | .finish | .V => true
  | _ => false

/-- The poller can move, or `ep_poll_callback` is still to be called. -/
theorem Inv.progress (h : Inv c s) (hsleep : s.asleep) (hpos : 0 < s.avail) :
    ∃ a, (a.polls = true ∨ a = .callback) ∧ (Triggering.step c s a).isSome = true := by
  cases hstage : s.stage with
  | sending =>
    refine ⟨.finish, .inl rfl, ?_⟩
    rw [Triggering.step, if_pos hstage]
    rfl
  | fetched => exact ⟨.V, .inl rfl, by rw [Triggering.step, if_pos hstage]; rfl⟩
  | idle =>
    rcases h.coming hsleep hpos with hbusy | ⟨-, hlinked | hcalls⟩
    · exact absurd hstage hbusy
    · exact ⟨.scan, .inl rfl, by rw [Triggering.step, if_pos ⟨hstage, hlinked⟩]; rfl⟩
    · exact ⟨.callback, .inr rfl, by rw [Triggering.step, if_pos hcalls]; rfl⟩

def Stage.rank : Stage → ℕ
  | .idle => 0
  | .sending => 1
  | .fetched => 2

/-- STEP: while the fibre sleeps and there is something, each step of the poller brings the event nearer. -/
theorem Inv.nearer (h : Inv c s) (hsleep : s.asleep) (hpos : 0 < s.avail)
    (hs : Triggering.step c s a = some s') (hsleep' : s'.asleep) :
    (if a.polls then 1 else 0) + s.stage.rank = s'.stage.rank := by
  have hinside := h.toPlaces.asleep hsleep
  have hquiet : a.polls = false → s'.stage = s.stage →
      (if a.polls then 1 else 0) + s.stage.rank = s'.stage.rank := by
    intro hpolls hstage
    rw [hpolls, hstage]
    exact Nat.zero_add _
  cases a with
  | call | look | P =>
    obtain ⟨hpc, -⟩ := Option.ite_none_right_eq_some.mp hs
    rw [hinside] at hpc
    cases hpc
  | tryIO r =>
    rw [Triggering.step, Triggering.tryIO, hinside] at hs
    cases hs
  | ondemand =>
    rw [Triggering.step, Triggering.ondemand, hinside] at hs
    cases hs
  | setupFD =>
    rw [Triggering.step, Triggering.setupFD, hinside] at hs
    cases hs
  | resumption =>
    obtain ⟨sem, hsem, -⟩ := Option.map_eq_some_iff.mp hs
    obtain ⟨hgranted, -⟩ := h.sole.resumption hsem
    exact absurd hgranted (State.asleep.ne_granted hsleep)
  | arrive n =>
    obtain rfl := Option.some.inj hs
    exact hquiet rfl rfl
  | vanish | callback =>
    obtain ⟨-, hs⟩ := Option.ite_none_right_eq_some.mp hs
    obtain rfl := Option.some.inj hs
    exact hquiet rfl rfl
  | scan =>
    obtain ⟨⟨hidle, -⟩, hs⟩ := Option.ite_none_right_eq_some.mp hs
    obtain rfl := Option.some.inj hs
    have hsend : (if s.enabled = true ∧ 0 < s.avail then Stage.sending else .idle) = .sending :=
      if_pos ⟨h.asleep_live hsleep hidle, hpos⟩
    rw [hsend, hidle]
    rfl
  | finish =>
    obtain ⟨hsend, hs⟩ := Option.ite_none_right_eq_some.mp hs
    rw [hsend]
    obtain rfl := Option.some.inj hs
    rfl
  | V =>
    obtain ⟨-, hs⟩ := Option.ite_none_right_eq_some.mp hs
    obtain rfl := Option.some.inj hs
    rcases h.sole.V with ⟨-, -, hgranted⟩ | ⟨hawake, -⟩
    · exact absurd hgranted (State.asleep.ne_granted hsleep')
    · exact absurd hsleep hawake

/-- RUN: a fibre sleeps through two steps of the poller at most while there is something, and is never left
    to what may come later. -/
theorem wakes_up (hc : c.Sound) (hs : Reach (system E c) s) (he : exec (system E c) s as = some t)
    (hal : Along (system E c) (fun u => u.sleepsOn = true) s as) :
    times (system E c) (fun _ a => a.polls) s as ≤ 2 ∧
    ∃ a, (a.polls = true ∨ a = .callback) ∧ (step c t a).isSome = true := by
  have hcount : times (system E c) (fun _ a => a.polls) s as + s.stage.rank = t.stage.rank := by
    have hI := inv_of_reach hc hs
    clear hs
    induction as generalizing s with
    | nil =>
      rw [exec_nil, Option.some.injEq] at he
      rw [he]
      exact Nat.zero_add _
    | cons a as ih =>
      obtain ⟨u, hu, he⟩ := exec_cons_some he
      have hrest := ih he (hal.2 u hu) (hI.step hc hu)
      obtain ⟨hsleep, hpos⟩ := sleepsOn_iff.mp hal.1
      have hhere := hI.nearer hsleep hpos hu (sleepsOn_iff.mp (hal.2 u hu).here).1
      rw [times_cons hu]
      omega
  have hrank : t.stage.rank ≤ 2 := by
    cases t.stage <;> decide
  obtain ⟨hsleep, hpos⟩ := sleepsOn_iff.mp (hal.last he)
  exact ⟨by omega, (inv_of_reach hc (hs.exec he)).progress hsleep hpos⟩

/-! ### An item that shows what it is -/

/-- What an item shows. -/
structure Bits where
  present : Bool
  enabled : Bool
  linked : Bool
  deriving DecidableEq

/-- An item that is just that: the kernel's as far as this development goes. -/
def bits : Epoll where
  Item := Bits
  absent := ⟨false, false, false⟩
  present := Bits.present
  enabled := Bits.enabled
  linked := Bits.linked
  arm ready i := ⟨true, true, i.linked || ready⟩
  callback i := { i with linked := i.linked || i.enabled }
  take i := { i with linked := false }
  report v i :=
    ⟨i.present, i.enabled && decide (v = .level ∨ v = .edge), i.linked || decide (v = .level)⟩
  present_absent := rfl
  enabled_absent := rfl
  linked_absent := rfl
  present_arm _ _ := rfl
  enabled_arm _ _ := rfl
  linked_arm _ _ := rfl
  present_callback _ := rfl
  enabled_callback _ := rfl
  linked_callback _ := rfl
  present_take _ := rfl
  enabled_take _ := rfl
  linked_take _ := rfl
  present_report _ _ := rfl
  enabled_report _ _ := rfl
  linked_report _ _ := rfl

/-- What an item shows, as an item. -/
def Epoll.shows (E : Epoll) (i : E.Item) : bits.Item :=
  Bits.mk (E.present i) (E.enabled i) (E.linked i)

def State.shows (s : State E) : State bits :=
  ⟨s.pc, s.sem, s.poller, E.shows s.item, s.avail, s.callbacks, s.stage⟩

theorem shows_absent (E : Epoll) : E.shows E.absent = bits.absent := by
  rw [Epoll.shows, E.present_absent, E.enabled_absent, E.linked_absent]
  rfl

theorem shows_arm (ready : Bool) (i : E.Item) : E.shows (E.arm ready i) = bits.arm ready (E.shows i) := by
  rw [Epoll.shows, E.present_arm, E.enabled_arm, E.linked_arm]
  rfl

theorem shows_callback (i : E.Item) : E.shows (E.callback i) = bits.callback (E.shows i) := by
  rw [Epoll.shows, E.present_callback, E.enabled_callback, E.linked_callback]
  rfl

theorem shows_take (i : E.Item) : E.shows (E.take i) = bits.take (E.shows i) := by
  rw [Epoll.shows, E.present_take, E.enabled_take, E.linked_take]
  rfl

theorem shows_report (v : Variant) (i : E.Item) :
    E.shows (E.report v i) = bits.report v (E.shows i) := by
  rw [Epoll.shows, E.present_report, E.enabled_report, E.linked_report]
  rfl

theorem arm_shows (s : State E) : s.arm.shows = s.shows.arm :=
  congrArg (fun b => { s.shows with item := b }) (shows_arm _ s.item)

theorem atEagain_shows (c : Config) (s : State E) : (c.atEagain s).shows = c.atEagain s.shows := by
  simp only [Config.atEagain, sockInOndemand, apply_ite State.shows, arm_shows]
  rfl

theorem look_shows (v : Variant) (s : State E) : (look v s).shows = look v s.shows := by
  simp only [look, apply_ite State.shows]
  rfl

theorem stepP_shows (v : Variant) (s : State E) : (stepP v s).shows = stepP v s.shows := by
  have hsem : s.shows.sem = s.sem := rfl
  rw [stepP, stepP, hsem]
  split <;> rfl

theorem attempt_shows (s : State E) (retry : Bool) (r : Outcome) :
    (attempt s retry r).map State.shows = attempt s.shows retry r := by
  cases r with
  | took k =>
    simp only [attempt, apply_ite (Option.map _), Option.map_some, Option.map_none]
    rfl
  | error => rfl

/-- SIMULATION: whatever else the kernel keeps, the next state shows what follows from what this one
    shows. -/
theorem step_shows (c : Config) (s : State E) (a : Action) :
    (step c s a).map State.shows = step c s.shows a := by
  have hpc : s.shows.pc = s.pc := rfl
  cases a with
  | call | arrive n | vanish | V =>
    simp only [step, apply_ite (Option.map _), Option.map_some, Option.map_none]
    try rfl
  | look =>
    simp only [step, apply_ite (Option.map _), Option.map_some, Option.map_none, look_shows, hpc]
  | P =>
    simp only [step, apply_ite (Option.map _), Option.map_some, Option.map_none, stepP_shows, hpc]
  | resumption =>
    simp only [step, Option.map_map]
    rfl
  | tryIO r =>
    rw [step, step, tryIO, tryIO, hpc]
    split
    · exact attempt_shows s false r
    · exact attempt_shows s true r
    · rfl
  | ondemand =>
    rw [step, step, ondemand, ondemand, hpc, ← atEagain_shows]
    split <;> rfl
  | setupFD =>
    rw [step, step, setupFD, setupFD, hpc, ← arm_shows]
    split
    · simp only [apply_ite (Option.map _), Option.map_some, Option.map_none]
      rfl
    · simp only [apply_ite (Option.map _), Option.map_some, Option.map_none]
      rfl
    · rfl
  | callback =>
    have hitem := congrArg
      (fun b => { s.shows with callbacks := s.callbacks - 1, item := b }) (shows_callback s.item)
    simp only [step, apply_ite (Option.map _), Option.map_some, Option.map_none]
    exact if_congr Iff.rfl (congrArg some hitem) rfl
  | scan =>
    have hitem := congrArg
      (fun b => { s.shows with
        item := b
        stage := if s.enabled = true ∧ 0 < s.avail then .sending else .idle }) (shows_take s.item)
    simp only [step, apply_ite (Option.map _), Option.map_some, Option.map_none]
    exact if_congr Iff.rfl (congrArg some hitem) rfl
  | finish =>
    have hitem := congrArg
      (fun b => { s.shows with stage := .fetched, item := b }) (shows_report c.variant s.item)
    simp only [step, apply_ite (Option.map _), Option.map_some, Option.map_none]
    exact if_congr Iff.rfl (congrArg some hitem) rfl

theorem exec_shows (c : Config) (as : List Action) :
    (exec (system E c) .init as).map State.shows = exec (system bits c) .init as := by
  have hinit : (State.init : State E).shows = State.init :=
    congrArg (fun b => { (State.init : State bits) with item := b }) (shows_absent E)
  rw [← hinit]
  exact exec_map (M := system E c) (N := system bits c) (step_shows c) State.init as

/-- A reader on demand. -/
def onDemandSocket : Config := ⟨.ondemand, true, true, false, true, nofun⟩

/-- An on-demand reader sleeps, data arrive, and the poller takes the event. -/
theorem wakes_up_ondemand : ∃ s t, Reach (system bits onDemandSocket) s ∧
    exec (system bits onDemandSocket) s [.callback, .scan, .finish] = some t ∧
    times (system bits onDemandSocket) (fun _ a => a.polls) s [.callback, .scan, .finish] ≤ 2 ∧
    ∃ a, (a.polls = true ∨ a = .callback) ∧ (step onDemandSocket t a).isSome = true := by
  obtain ⟨s, hs, hp⟩ := reach_of_exec (system bits onDemandSocket) .init
    [.call, Action.tryIO (.took 1), .ondemand, .look, .setupFD, .P, .arrive 1]
    (fun s => along (system bits onDemandSocket) State.sleepsOn s [.callback, .scan, .finish] &&
      (exec (system bits onDemandSocket) s [.callback, .scan, .finish]).isSome) rfl (by decide)
  rw [Bool.and_eq_true] at hp
  obtain ⟨t, ht⟩ := Option.isSome_iff_exists.mp hp.2
  exact ⟨s, t, hs, ht, wakes_up ⟨fun _ => rfl, fun _ => rfl⟩ hs ht (.of_along hp.1)⟩

/-! ### Who is left asleep -/

/-- Asleep on what there is, with nothing coming. -/
def stranded (s : State E) : Bool :=
  s.sleepsOn && decide (s.stage = .idle) && !s.linked && decide (s.callbacks = 0)

/-- A reader takes a part of what there is, and the next one waits at once. -/
def partRead : List Action :=
  [.call, .look, .setupFD, .P, .arrive 1, .callback, .scan, .finish, .V, .resumption,
    Action.tryIO (.took 1), .call, .look, .P]

/-- A reader of a pipe takes what there is; the next one finds nothing, and more comes when it sleeps. -/
def pipeRead : List Action :=
  [.call, Action.tryIO (.took 1), .ondemand, .look, .setupFD, .P, .arrive 0, .callback, .scan,
    .finish, .V, .resumption, Action.tryIO (.took 1), .call, Action.tryIO (.took 1), .ondemand, .look,
    .P, .arrive 0, .callback]

theorem not_coming (h : stranded s = true) : s.asleep ∧ 0 < s.avail ∧ ¬ s.Coming := by
  simp only [stranded, Bool.and_eq_true, decide_eq_true_eq, Bool.not_eq_true'] at h
  obtain ⟨⟨⟨hsleeps, hidle⟩, hlinked⟩, hcalls⟩ := h
  obtain ⟨hsleep, hpos⟩ := sleepsOn_iff.mp hsleeps
  refine ⟨hsleep, hpos, ?_⟩
  rintro (hbusy | ⟨-, hlinked' | hpending⟩)
  · exact hbusy hidle
  · rw [hlinked] at hlinked'
    cases hlinked'
  · omega

theorem strands_of_bits {as : List Action} (h : (exec (system bits c) .init as).map stranded = some true) :
    (exec (system E c) .init as).map stranded = some true := by
  rw [← exec_shows (E := E), Option.map_map] at h
  exact h

/-- A configuration that is not sound strands a reader. -/
theorem strands (hno : ¬ c.Sound) :
    ∃ as, (exec (system bits c) .init as).map stranded = some true := by
  rw [Config.Sound, not_and_or, Classical.not_imp, Classical.not_imp] at hno
  obtain ⟨mode, tryRead, input, accept, socket, accepts⟩ := c
  rcases hno with ⟨hv, htries⟩ | ⟨hv, hsocket⟩
  · cases input with
    | false => exact absurd rfl htries
    | true =>
      cases accept with
      | true => exact absurd rfl htries
      | false =>
        cases tryRead with
        | true => exact absurd rfl htries
        | false =>
          refine ⟨partRead, ?_⟩
          cases mode with
          | edge => cases socket <;> decide +revert
          | ondemand => cases socket <;> decide +revert
          | oneshot => rcases hv with hv | hv <;> cases hv
          | level => rcases hv with hv | hv <;> cases hv
  · cases input with
    | false => cases mode <;> cases hv
    | true =>
      cases mode with
      | ondemand =>
        cases socket with
        | true => exact absurd rfl hsocket
        | false =>
          cases accept with
          | true => cases accepts rfl
          | false =>
            cases tryRead with
            | true => exact ⟨pipeRead, by decide +revert⟩
            | false => exact ⟨partRead, by decide +revert⟩
      | edge => cases hv
      | oneshot => cases hv
      | level => cases accept <;> cases hv

/-- EXACTLY WHEN: no fibre sleeps on a descriptor with something there and no wake-up on its way, if and only
    if edge-triggered and on-demand input is tried before it waits, and on-demand items are of sockets. -/
theorem wakes_iff (E : Epoll) (c : Config) :
    (∀ s, Reach (system E c) s → s.asleep → 0 < s.avail → s.Coming) ↔ c.Sound := by
  constructor
  · intro hall
    by_contra hno
    obtain ⟨as, hrun⟩ := strands hno
    obtain ⟨s, hs, hstranded⟩ :=
      reach_of_exec (system E c) .init as stranded rfl (strands_of_bits hrun)
    obtain ⟨hsleep, hpos, hnot⟩ := not_coming hstranded
    exact hnot (hall s hs hsleep hpos)
  · intro hc s hs hsleep hpos
    exact (inv_of_reach hc hs).coming hsleep hpos

end Libfibre.EventScope.Triggering
