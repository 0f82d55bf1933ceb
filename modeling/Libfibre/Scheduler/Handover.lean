import Libfibre.Scheduler.Places

/-! What a fibre looks like at each of its places, and which queue its link is in. The scheduler's
    hand-overs keep this, as long as no timer resumes a fibre that is still linked
    (`ResumesLinked`). -/

namespace Libfibre.Scheduler
open Transition
open Fred (Parked Running ResumedEarly fetchAdd fetchSub)

variable {W X G Q S : Type}

/-! ### One fibre -/

/-- `runState` of a fibre that runs, by its wake-up. -/
def Wake.word : Wake → ℕ
  | .used _ => ResumedEarly
  | _ => Running

/-- Nobody has taken the link out of its queue. -/
def Wake.unpopped : Wake → Bool
  | .opened | .won false | .used false => true
  | _ => false

/-- The queue that the link of the fibre is in. -/
def FredState.queue (r : FredState W Q) : Option Q :=
  match r.loc with
  | .linked q _ | .notifying q _ _ | .suspending (.link q _) | .woken (.link q _) =>
    if r.wake.unpopped then some q else none
  | .removing q => some q
  | _ => none

/-- A wake-up that goes with the way the fibre suspends. -/
structure Suspension (kind : Q → Kind) (how : How Q) (wake : Wake) : Prop where
  live : wake ≠ .closed
  timed : ∀ q, how = .link q true → kind q = .conditional
  races : wake = .won false ∨ wake = .used false → how.races = true

/-- Nobody races for a fibre that waits without a timer. -/
theorem Suspension.untimed {kind : Q → Kind} {q : Q} {wake : Wake} (hlive : wake ≠ .closed)
    (hwake : ¬ (wake = .won false ∨ wake = .used false)) :
    Suspension kind (.link q false) wake :=
  ⟨hlive, nofun, fun hw => absurd hw hwake⟩

/-- A fibre that runs. -/
def Awake (kind : Q → Kind) (r : FredState W Q) : Prop :=
  match r.loc with
  | .free => r.wake = .closed ∧ r.runState = Running
  | .linked q timed =>
    Suspension kind (.link q timed) r.wake ∧ r.wake ≠ .won false ∧ r.wake ≠ .used false ∧
      r.runState = r.wake.word
  | .notifying q _ park =>
    (∃ n, kind q = .barrier n) ∧ (park = false ↔ r.wake = .closed) ∧ r.wake ≠ .won false ∧
      r.wake ≠ .used false ∧ r.runState = r.wake.word
  | .suspending how => Suspension kind how r.wake ∧ r.runState = r.wake.word
  | .woken how => Suspension kind how r.wake ∧ (∃ b, r.wake = .used b) ∧ r.runState = Running
  | .removing q => kind q = .conditional ∧ r.wake = .closed ∧ r.runState = Running

/-- A fibre on its way to a stack switch, by its code; if it is resumed, its link is in no queue. -/
def Leaving (kind : Q → Kind) (r : FredState W Q) : SwitchCode → Prop
  | .Idle => False
  | .Suspend =>
    ∃ how, r.loc = .suspending how ∧ Suspension kind how r.wake ∧ r.runState = r.wake.word ∧
      (r.wake = .used false → how = .race)
  | _ => r.Fresh

/-- A fibre that waits to be run. -/
def Runnable (kind : Q → Kind) (r : FredState W Q) : Prop :=
  r.Fresh ∨ r.runState = Running ∧ ∃ how b, r.loc = .suspending how ∧ r.wake = .used b ∧
    Suspension kind how r.wake ∧ (b = false → how = .race)

/-- A fibre that waits to be resumed. -/
def Asleep (kind : Q → Kind) (r : FredState W Q) : Prop :=
  r.runState = Parked ∧ ∃ how, r.loc = .suspending how ∧ Suspension kind how r.wake ∧
    ∀ b, r.wake ≠ .used b

/-- A fibre other than the idle ones at its place. -/
def User (kind : Q → Kind) (r : FredState W Q) : Place W X → Prop
  | .rest =>
    r.Fresh ∧ (r.life = .fresh ∧ r.saved = true ∨ r.life = .destroyed) ∨
    r.life = .started ∧ r.saved = true ∧ Asleep kind r
  | .exec _ | .arriving _ => r.life = .started ∧ r.saved = false ∧ Awake kind r
  | .leaving _ code => r.life = .started ∧ r.saved = false ∧ Leaving kind r code
  | .left _ code => r.life = .started ∧ r.saved = true ∧ Leaving kind r code
  | .next _ | .held _ | .ready _ _ => r.life = .started ∧ r.saved = true ∧ Runnable kind r

/-- The idle fibre of worker `v` at its place. -/
def Idle (v : W) (r : FredState W Q) (p : Place W X) : Prop :=
  r.Fresh ∧ r.life = .started ∧
  match p with
  | .rest => True
  | .exec w | .arriving w | .next w => w = v
  | .leaving w code | .left w code => w = v ∧ code = .Idle
  | .held _ | .ready _ _ => False

def Legal (kind : Q → Kind) (f : Fibre W G) (p : Place W X) (r : FredState W Q) : Prop :=
  match f with
  | .idle v => Idle v r p
  | .user _ => User kind r p

theorem queue_congr {r r' : FredState W Q} (hloc : r'.loc = r.loc) (hwake : r'.wake = r.wake) :
    r'.queue = r.queue := by
  rw [FredState.queue, FredState.queue, hloc, hwake]

theorem FredState.Fresh.queue {r : FredState W Q} (h : r.Fresh) : r.queue = none := by
  rw [FredState.queue, h.loc]

theorem FredState.Fresh.awake {kind : Q → Kind} {r : FredState W Q} (h : r.Fresh) : Awake kind r := by
  rw [Awake, h.loc]
  exact ⟨h.wake, h.runState⟩

/-- A fibre that waits to be run has its link in no queue. -/
theorem Runnable.queue {kind : Q → Kind} {r : FredState W Q} (h : Runnable kind r) : r.queue = none := by
  rcases h with h | ⟨-, how, b, hloc, hwake, -, hrace⟩
  · exact h.queue
  · rw [FredState.queue, hloc, hwake]
    cases how with
    | race => rfl
    | link q timed =>
      cases b with
      | true => rfl
      | false => exact absurd (hrace rfl) nofun

/-- Wherever a fibre is: it is outside all of this, or it suspends, or it runs. -/
theorem User.shape {kind : Q → Kind} {r : FredState W Q} {p : Place W X} (h : User kind r p) :
    r.Fresh ∨ (∃ how, r.loc = .suspending how ∧ Suspension kind how r.wake) ∨ Awake kind r := by
  have hleaving : ∀ code, Leaving kind r code →
      r.Fresh ∨ ∃ how, r.loc = .suspending how ∧ Suspension kind how r.wake := by
    intro code hl
    cases code with
    | Idle => exact hl.elim
    | Suspend =>
      obtain ⟨how, hloc, hs, -⟩ := hl
      exact .inr ⟨how, hloc, hs⟩
    | Yield => exact .inl hl
    | Resume => exact .inl hl
    | Terminate => exact .inl hl
  have hrunnable : Runnable kind r →
      r.Fresh ∨ ∃ how, r.loc = .suspending how ∧ Suspension kind how r.wake := by
    rintro (hf | ⟨-, how, b, hloc, -, hs, -⟩)
    · exact .inl hf
    · exact .inr ⟨how, hloc, hs⟩
  cases p with
  | rest =>
    rcases h with ⟨hf, -⟩ | ⟨-, -, -, how, hloc, hs, -⟩
    · exact .inl hf
    · exact .inr (.inl ⟨how, hloc, hs⟩)
  | exec w => exact .inr (.inr h.2.2)
  | arriving w => exact .inr (.inr h.2.2)
  | leaving w code => exact (hleaving code h.2.2).imp_right .inl
  | left w code => exact (hleaving code h.2.2).imp_right .inl
  | next w => exact (hrunnable h.2.2).imp_right .inl
  | held t => exact (hrunnable h.2.2).imp_right .inl
  | ready w p => exact (hrunnable h.2.2).imp_right .inl

/-- A fibre that takes its own link out has no wake-up any more. -/
theorem User.closed_of_removing {kind : Q → Kind} {r : FredState W Q} {p : Place W X}
    (h : User kind r p) {q : Q} (hloc : r.loc = .removing q) :
    kind q = .conditional ∧ r.wake = .closed := by
  rcases h.shape with hf | ⟨how, hs, -⟩ | ha
  · have := hf.loc
    rw [hloc] at this
    cases this
  · rw [hloc] at hs
    cases hs
  · rw [Awake, hloc] at ha
    exact ⟨ha.1, ha.2.1⟩

/-- In a queue without timeouts, nobody has won the wake-up of a linked fibre. -/
theorem User.opened {kind : Q → Kind} {r : FredState W Q} {p : Place W X} (h : User kind r p)
    {q : Q} (hq : r.queue = some q) (hk : kind q ≠ .conditional) : r.wake = .opened := by
  have hunpopped : ∀ p : Q, (if r.wake.unpopped = true then some p else none) = some q →
      r.wake.unpopped = true ∧ p = q := by
    intro p hp
    obtain ⟨hu, hp⟩ := Option.ite_none_right_eq_some.mp hp
    exact ⟨hu, Option.some.inj hp⟩
  have hcases : r.wake.unpopped = true → r.wake ≠ .won false → r.wake ≠ .used false →
      r.wake = .opened := by
    intro hu hwon hused
    cases hw : r.wake with
    | opened => rfl
    | closed => rw [hw] at hu; cases hu
    | won b => cases b with
      | false => exact absurd hw hwon
      | true => rw [hw] at hu; cases hu
    | used b => cases b with
      | false => exact absurd hw hused
      | true => rw [hw] at hu; cases hu
  have hlink : ∀ p timed, Suspension kind (.link p timed) r.wake →
      (if r.wake.unpopped = true then some p else none) = some q → r.wake = .opened := by
    intro p timed hs hp
    obtain ⟨hu, rfl⟩ := hunpopped p hp
    have hnot : ¬ (r.wake = .won false ∨ r.wake = .used false) := by
      intro hw
      have htimed : timed = true := hs.races hw
      exact hk (hs.timed p (by rw [htimed]))
    exact hcases hu (fun hw => hnot (.inl hw)) fun hw => hnot (.inr hw)
  rw [FredState.queue] at hq
  rcases h.shape with hf | ⟨how, hloc, hs⟩ | ha
  · rw [hf.loc] at hq
    cases hq
  · rw [hloc] at hq
    cases how with
    | race => cases hq
    | link p timed => exact hlink p timed hs hq
  · rw [Awake] at ha
    cases hloc : r.loc with
    | free => rw [hloc] at hq; cases hq
    | linked p timed =>
      rw [hloc] at hq ha
      exact hlink p timed ha.1 hq
    | notifying p n park =>
      rw [hloc] at hq ha
      exact hcases (hunpopped p hq).1 ha.2.2.1 ha.2.2.2.1
    | suspending how =>
      rw [hloc] at hq ha
      cases how with
      | race => cases hq
      | link p timed => exact hlink p timed ha.1 hq
    | woken how =>
      rw [hloc] at hq ha
      cases how with
      | race => cases hq
      | link p timed => exact hlink p timed ha.1 hq
    | removing p =>
      rw [hloc] at hq ha
      cases hq
      exact absurd ha.1 hk

/-- Who wins the wake-up of a fibre changes nothing else about it. -/
theorem User.won {kind : Q → Kind} {r : FredState W Q} {p : Place W X} (h : User kind r p)
    (hwake : r.wake = .opened) {b : Bool}
    (hb : b = false → ∃ how, r.loc = .suspending how ∧ how.races = true) :
    User kind { r with wake := .won b } p := by
  have hfresh : ¬ r.Fresh := fun hf => by
    rw [hf.wake] at hwake
    cases hwake
  have hsus : ∀ how, r.loc = .suspending how → Suspension kind how r.wake →
      Suspension kind how (.won b) := by
    intro how hloc hs
    refine ⟨nofun, hs.timed, fun hw => ?_⟩
    rcases hw with hw | hw
    · obtain ⟨how', hloc', hraces⟩ := hb (Wake.won.inj hw)
      rw [hloc] at hloc'
      cases hloc'
      exact hraces
    · cases hw
  have hrun : ¬ Runnable kind r := by
    rintro (hf | ⟨-, how, b', -, hused, -⟩)
    · exact hfresh hf
    · rw [hused] at hwake
      cases hwake
  have hpopped : (∀ how, r.loc ≠ .suspending how) → b = true := by
    intro hloc
    cases b with
    | true => rfl
    | false =>
      obtain ⟨how, hs, -⟩ := hb rfl
      exact absurd hs (hloc how)
  have hawake : Awake kind r → Awake kind { r with wake := .won b } := by
    intro ha
    rw [Awake] at ha ⊢
    rw [hwake] at ha
    cases hloc : r.loc with
    | free => rw [hloc] at ha; exact absurd ha.1 nofun
    | linked q timed =>
      rw [hloc] at ha
      cases hpopped fun how hs => by rw [hloc] at hs; cases hs
      exact ⟨⟨nofun, ha.1.timed, nofun⟩, nofun, nofun, ha.2.2.2⟩
    | notifying q n park =>
      rw [hloc] at ha
      cases hpopped fun how hs => by rw [hloc] at hs; cases hs
      exact ⟨ha.1, ⟨fun hp => absurd (ha.2.1.mp hp) nofun, nofun⟩, nofun, nofun, ha.2.2.2.2⟩
    | suspending how =>
      rw [hloc] at ha
      exact ⟨hsus how hloc (hwake ▸ ha.1), ha.2⟩
    | woken how =>
      rw [hloc] at ha
      obtain ⟨b', hu⟩ := ha.2.1
      cases hu
    | removing q => rw [hloc] at ha; exact absurd ha.2.1 nofun
  have hleaving : ∀ code, Leaving kind r code → Leaving kind { r with wake := .won b } code := by
    intro code hl
    cases code with
    | Idle => exact hl
    | Suspend =>
      obtain ⟨how, hloc, hs, hword, -⟩ := hl
      rw [hwake] at hword
      exact ⟨how, hloc, hsus how hloc hs, hword, nofun⟩
    | Yield => exact absurd hl hfresh
    | Resume => exact absurd hl hfresh
    | Terminate => exact absurd hl hfresh
  cases p with
  | rest =>
    rcases h with ⟨hf, -⟩ | ⟨hlife, hsaved, hparked, how, hloc, hs, -⟩
    · exact absurd hf hfresh
    · exact .inr ⟨hlife, hsaved, hparked, how, hloc, hsus how hloc hs, nofun⟩
  | exec w => exact ⟨h.1, h.2.1, hawake h.2.2⟩
  | arriving w => exact ⟨h.1, h.2.1, hawake h.2.2⟩
  | leaving w code => exact ⟨h.1, h.2.1, hleaving code h.2.2⟩
  | left w code => exact ⟨h.1, h.2.1, hleaving code h.2.2⟩
  | next w => exact absurd h.2.2 hrun
  | held t => exact absurd h.2.2 hrun
  | ready w p => exact absurd h.2.2 hrun

theorem resumed_queue {r : FredState W Q} {b : Bool} (h : r.wake = .won b) :
    (resumed r b).queue = r.queue := by
  rw [FredState.queue, FredState.queue, h, resumed]
  cases b <;> rfl

/-- The suspension of a fibre whose wake-up has been used. -/
theorem Suspension.used {kind : Q → Kind} {how : How Q} {b : Bool}
    (h : Suspension kind how (.won b)) : Suspension kind how (.used b) := by
  refine ⟨nofun, h.timed, fun hw => h.races (.inl ?_)⟩
  rcases hw with hw | hw
  · cases hw
  · rw [Wake.used.inj hw]

/-- A fibre that is resumed: a sleeping one is in the hand of who resumes it, any other one stays where
    it is. -/
theorem User.resumed {kind : Q → Kind} {r : FredState W Q} {p : Place W X} {b : Bool}
    (h : User kind r p) (hwon : r.wake = .won b)
    (hlate : r.wake = .won false → (∃ q, r.loc = .suspending (.link q true)) → ∃ w, p = .exec w) :
    r.runState = Parked ∧ p = .rest ∧ (resumed r b).life = .started ∧ (resumed r b).saved = true ∧
      Runnable kind (resumed r b) ∨
    r.runState ≠ Parked ∧ User kind (Scheduler.resumed r b) p := by
  have hfresh : ¬ r.Fresh := fun hf => by
    rw [hf.wake] at hwon
    cases hwon
  have hrace : ∀ how, r.loc = .suspending how → Suspension kind how r.wake →
      (∀ w, p ≠ .exec w) → b = false → how = .race := by
    rintro how hloc hs hexec rfl
    cases how with
    | race => rfl
    | link q timed =>
      have htimed : timed = true := hs.races (.inl hwon)
      subst htimed
      obtain ⟨w, hw⟩ := hlate hwon ⟨q, hloc⟩
      exact absurd hw (hexec w)
  have hrun : ¬ Runnable kind r := by
    rintro (hf | ⟨-, how, b', -, hused, -⟩)
    · exact hfresh hf
    · rw [hused] at hwon
      cases hwon
  have hword : r.runState = r.wake.word →
      r.runState ≠ Parked ∧ (Scheduler.resumed r b).runState = ResumedEarly := by
    intro hw
    rw [hwon] at hw
    refine ⟨?_, ?_⟩
    · rw [hw]
      exact nofun
    · show fetchAdd r.runState = ResumedEarly
      rw [hw]
      rfl
  have hawake : Awake kind r → r.runState ≠ Parked ∧ Awake kind (Scheduler.resumed r b) := by
    intro ha
    have hloc' : (Scheduler.resumed r b).loc = r.loc := rfl
    rw [Awake] at ha ⊢
    rw [hloc']
    cases hloc : r.loc with
    | free =>
      rw [hloc] at ha
      exact absurd (hwon.symm.trans ha.1) nofun
    | linked q timed =>
      rw [hloc, hwon] at ha
      obtain ⟨hs, hnot, -, hw⟩ := ha
      obtain ⟨hne, hearly⟩ := hword (hwon ▸ hw)
      exact ⟨hne, hs.used, nofun, fun hu => hnot (by rw [Wake.used.inj hu]), hearly⟩
    | notifying q n park =>
      rw [hloc, hwon] at ha
      obtain ⟨hk, hpark, hnot, -, hw⟩ := ha
      obtain ⟨hne, hearly⟩ := hword (hwon ▸ hw)
      exact ⟨hne, hk, ⟨fun hp => absurd (hpark.mp hp) nofun, nofun⟩, nofun,
        fun hu => hnot (by rw [Wake.used.inj hu]), hearly⟩
    | suspending how =>
      rw [hloc] at ha
      obtain ⟨hne, hearly⟩ := hword ha.2
      exact ⟨hne, (hwon ▸ ha.1 : Suspension kind how (.won b)).used, hearly⟩
    | woken how =>
      rw [hloc] at ha
      obtain ⟨b', hu⟩ := ha.2.1
      rw [hwon] at hu
      cases hu
    | removing q =>
      rw [hloc] at ha
      exact absurd (hwon.symm.trans ha.2.1) nofun
  have hleaving : ∀ code, (∀ w, p ≠ .exec w) → Leaving kind r code →
      r.runState ≠ Parked ∧ Leaving kind (Scheduler.resumed r b) code := by
    intro code hexec hl
    cases code with
    | Idle => exact hl.elim
    | Suspend =>
      obtain ⟨how, hloc, hs, hw, -⟩ := hl
      obtain ⟨hne, hearly⟩ := hword hw
      exact ⟨hne, how, hloc, (hwon ▸ hs : Suspension kind how (.won b)).used, hearly,
        fun hu => hrace how hloc hs hexec (Wake.used.inj hu)⟩
    | Yield => exact absurd hl hfresh
    | Resume => exact absurd hl hfresh
    | Terminate => exact absurd hl hfresh
  cases p with
  | rest =>
    rcases h with ⟨hf, -⟩ | ⟨hlife, hsaved, hparked, how, hloc, hs, -⟩
    · exact absurd hf hfresh
    · refine .inl ⟨hparked, rfl, hlife, hsaved, .inr ⟨?_, how, b, hloc, rfl, ?_, ?_⟩⟩
      · show fetchAdd r.runState = Running
        rw [hparked]
        rfl
      · exact (hwon ▸ hs : Suspension kind how (.won b)).used
      · exact hrace how hloc hs nofun
  | exec w =>
    obtain ⟨hne, ha⟩ := hawake h.2.2
    exact .inr ⟨hne, h.1, h.2.1, ha⟩
  | arriving w =>
    obtain ⟨hne, ha⟩ := hawake h.2.2
    exact .inr ⟨hne, h.1, h.2.1, ha⟩
  | leaving w code =>
    obtain ⟨hne, hl⟩ := hleaving code nofun h.2.2
    exact .inr ⟨hne, h.1, h.2.1, hl⟩
  | left w code =>
    obtain ⟨hne, hl⟩ := hleaving code nofun h.2.2
    exact .inr ⟨hne, h.1, h.2.1, hl⟩
  | next w => exact absurd h.2.2 hrun
  | held t => exact absurd h.2.2 hrun
  | ready w p => exact absurd h.2.2 hrun

end Libfibre.Scheduler
