import Libfibre.Isolation.Places

/-! What the invariant becomes over a step, routine by routine: a worker leaves a fibre, looks for
    another one, switches to it and disposes of the one it has left; a thread enqueues a fibre. -/

set_option linter.unusedSectionVars false

namespace Libfibre.Isolation
open Transition
open Scheduler (Fibre Priority Life)
open Fred (Parked Running ResumedEarly fetchAdd fetchSub)
open Placement

variable {W X G S : Type} [DecidableEq W] [DecidableEq X] [DecidableEq G] [DecidableEq S]
  {c : Config W S} {s s' : State W X G S} {w : W} {t : W ⊕ X} {f h : Fibre W G} {g : G}

/-! ### Who may step -/

theorem State.at_eq {a : Pc W G} :
    s.at w = some a ↔ s.adding (.inl w) = .done ∧ s.pc w = a := by
  rw [State.at]
  split
  case isTrue hdone => rw [Option.some.injEq, and_iff_right hdone]
  case isFalse hnot => exact iff_of_false nofun fun hd => hnot hd.1

theorem State.current_eq :
    s.current w = some g ↔ s.pc w = .exec (.user g) ∧ s.adding (.inl w) = .done := by
  constructor
  · intro hcur
    rw [State.current] at hcur
    split at hcur
    case h_1 g' hpc hadd =>
      rw [Option.some.injEq] at hcur
      subst hcur
      exact ⟨hpc, hadd⟩
    case h_2 => cases hcur
  · rintro ⟨hpc, hadd⟩
    rw [State.current, hpc, hadd]

theorem State.free_eq : s.free w = some g ↔
    (s.pc w = .exec (.user g) ∧ s.adding (.inl w) = .done) ∧ (s.fred (.user g)).target = none := by
  constructor
  · intro hfree
    rw [State.free] at hfree
    split at hfree
    case h_1 g' hcur =>
      split at hfree
      case isTrue htarget =>
        rw [Option.some.injEq] at hfree
        subst hfree
        exact ⟨State.current_eq.mp hcur, htarget⟩
      case isFalse => cases hfree
    case h_2 => cases hfree
  · rintro ⟨hcur, htarget⟩
    rw [State.free, State.current_eq.mpr hcur]
    exact if_pos htarget

theorem State.has_pc {a : Pc W G} {p : Place W X S} (hpc : s.pc w = a) (hin : s.AtPc w a f p) :
    s.Has f p := .inl ⟨w, hpc.symm ▸ hin⟩

theorem State.has_adding {a : Add W G} {p : Place W X S} (hadd : s.adding t = a)
    (hin : s.AtAdd t a f p) : s.Has f p := .inr (.inl ⟨t, hadd.symm ▸ hin⟩)

/-! ### Fibres that are nowhere -/

theorem Inv.nowhere_fresh (hi : Inv c s) (hfresh : (s.fred f).life = .fresh) : Nowhere s.Has f :=
  fun p hp => (hi.freds.good f p hp).started hfresh

theorem Inv.nowhere_parked (hi : Inv c s) (hparked : (s.fred f).runState = Parked) :
    Nowhere s.Has f :=
  fun p hp => (hi.freds.good f p hp).awake hparked

/-- Whatever a worker has, its idle fibre is nowhere else. -/
theorem Inv.nowhere_idle (hi : Inv c s) (hnot : ∀ p, ¬ s.AtPc w (s.pc w) (.idle w) p) :
    Nowhere s.Has (.idle w) :=
  fun p hp => hnot p (hp.of_worker ((hi.freds.good (.idle w) p hp).idle w rfl))

theorem Goal.suits_user {goal : Goal} (hne : goal ≠ .idle) : goal.Suits w (.user g) :=
  ⟨fun he => absurd he hne, fun _ => ⟨g, rfl⟩⟩

theorem Goal.suits_idle : Goal.idle.Suits (G := G) w (.idle w) :=
  ⟨fun _ => rfl, fun hne => absurd rfl hne⟩

theorem Place.Fits.congr {p : Place W X S} {r r' : FredState W S} (h : p.Fits c r)
    (htarget : r'.target = r.target) (hproc : r'.processor = r.processor) : p.Fits c r' := by
  cases p with
  | reading _ => trivial
  | adding _ _ | ready _ _ => exact hproc.trans h
  | taking _ | waking _ _ | written _ _ | posted _ | waiting _ =>
    exact (congrArg c.scheduler hproc).trans h
  | runs _ | leaves _ _ | next _ _ =>
    simp only [Place.Fits, htarget, hproc] at h ⊢
    exact h

/-- A fibre that is not parked after it stays where it is. -/
theorem Inv.setRunState (hi : Inv c s) {n : ℕ} (hn : n ≠ Parked) :
    Inv c (s.setFred f { s.fred f with runState := n }) := by
  have hok := hi.fred f
  refine hi.setFred ⟨fun x hx => ⟨(hok.target x hx).1, hn⟩, fun hl => ⟨hn, (hok.fresh hl).2⟩,
    fun w hw => ?_⟩ fun p hp => ?_
  · obtain ⟨hproc, -, hl, htarget⟩ := hok.idle w hw
    exact ⟨hproc, hn, hl, htarget⟩
  · have hgood := hi.freds.good f p hp
    exact ⟨hn, hgood.started, hgood.idle, hgood.fits.congr rfl rfl⟩

/-! ### A worker stays with the fibre that it leaves -/

/-- The positions in which a worker has no other fibre than the one it leaves. -/
inductive Leaves (w : W) (f : Fibre W G) (settled : Bool) : Pc W G → Prop
  | token (goal : Goal) : goal.settled = settled → goal ≠ .direct → goal.Suits w f →
      Leaves w f settled (.token f goal)
  | search (goal : Goal) (steal : Bool) : goal.settled = settled → goal ≠ .direct →
      goal.Suits w f → Leaves w f settled (.search f goal steal)
  | getReadyFred : f = .idle w → settled = true → Leaves w f settled .getReadyFred
  | block : f = .idle w → settled = true → Leaves w f settled .block

theorem Leaves.places {a : Pc W G} {settled : Bool} (ha : Leaves w f settled a) :
    a.places w (s.handoverFred w) = [(f, (.leaves w settled : Place W X S))] := by
  cases ha with
  | token _ hs _ _ | search _ _ hs _ _ => rw [Pc.places, hs]
  | getReadyFred hf hs | block hf hs => rw [Pc.places, hf, hs]

theorem Leaves.fits {a : Pc W G} {settled : Bool} (ha : Leaves w f settled a) : a.Fits w := by
  cases ha with
  | token _ _ hd hsuits | search _ _ _ hd hsuits => exact ⟨hd, hsuits⟩
  | getReadyFred | block => trivial

theorem Leaves.not_halt {a : Pc W G} {settled : Bool} (ha : Leaves w f settled a) : a ≠ .halt := by
  cases ha <;> nofun

theorem Leaves.has {a : Pc W G} {settled : Bool} (hpc : s.pc w = a) (ha : Leaves w f settled a) :
    s.Has f (.leaves w settled) :=
  State.has_pc hpc (by rw [State.AtPc, ha.places]; exact List.mem_singleton_self _)

theorem Leaves.mem {a : Pc W G} {settled : Bool} {p : Place W X S} (ha : Leaves w f settled a)
    (hin : s.AtPc w a h p) : h = f ∧ p = .leaves w settled := by
  rw [State.AtPc, ha.places] at hin
  exact Prod.mk.inj (List.mem_singleton.mp hin)

theorem leaves_nonblocking (goal : Goal) (hd : goal ≠ .direct) (hsuits : goal.Suits w f) :
    Leaves w f goal.settled (nonblocking c f goal) := by
  rw [nonblocking]
  split
  · exact .search goal false rfl hd hsuits
  · exact .token goal rfl hd hsuits

/-- A worker leaves its fibre. -/
theorem Inv.leave {a : Pc W G} {settled : Bool} (hi : Inv c s) (hpc : s.pc w = .exec f)
    (ha : Leaves w f settled a) (htarget : settled = true → (s.fred f).target = none) :
    Inv c (s.setPc w a) := by
  have hhas : s.Has f (.runs w) := State.has_pc hpc (List.mem_singleton_self _)
  have hgood := hi.freds.good f _ hhas
  exact hi.one (by rw [hpc]; nofun) ha.fits (fun _ _ => ha.mem) rfl hhas
    ⟨hgood.awake, hgood.started, hgood.idle, htarget⟩

/-- It goes on without having found another one. -/
theorem Inv.goOn {a b : Pc W G} {settled : Bool} (hi : Inv c s) (hpc : s.pc w = b)
    (hb : Leaves w f settled b) (ha : Leaves w f settled a) : Inv c (s.setPc w a) := by
  have hhas := hb.has hpc
  exact hi.one (hpc.symm ▸ hb.not_halt) ha.fits (fun _ _ => ha.mem) rfl hhas
    (hi.freds.good f _ hhas)

/-- It returns to the fibre. -/
theorem Inv.stay {b : Pc W G} (hi : Inv c s) (hpc : s.pc w = b) {settled : Bool}
    (hb : Leaves w f settled b) (htarget : ∀ x, (s.fred f).target = some x → c.scheduler w = x) :
    Inv c (s.setPc w (.exec f)) := by
  have hhas := hb.has hpc
  have hgood := hi.freds.good f _ hhas
  exact hi.one (hpc.symm ▸ hb.not_halt) trivial
    (fun _ _ hin => Prod.mk.inj (List.mem_singleton.mp hin)) rfl hhas
    ⟨hgood.awake, hgood.started, hgood.idle, htarget⟩

/-! ### It finds another fibre -/

/-- The positions in which a worker has another fibre besides the one it leaves. -/
inductive Holds (w : W) (f : Fibre W G) (goal : Goal) (g : Fibre W G) : Pc W G → Prop
  | taken : goal ≠ .direct → Holds w f goal g (.taken f goal g)
  | chosen : Holds w f goal g (.chosen f goal g)
  | post : Holds w f goal g (.post f goal g)

theorem Holds.places {a : Pc W G} {goal : Goal} {g : Fibre W G} (ha : Holds w f goal g a) :
    a.places w (s.handoverFred w) = [(f, (.leaves w goal.settled : Place W X S)),
      (g, .next w (decide (goal = .direct)))] := by
  cases ha <;> rfl

theorem Holds.mem {a : Pc W G} {goal : Goal} {g : Fibre W G} {p : Place W X S}
    (ha : Holds w f goal g a) (hin : s.AtPc w a h p) :
    h = f ∧ p = .leaves w goal.settled ∨ h = g ∧ p = .next w (decide (goal = .direct)) := by
  rw [State.AtPc, ha.places, List.mem_cons, List.mem_singleton] at hin
  exact hin.imp Prod.mk.inj Prod.mk.inj

theorem Holds.fits {a : Pc W G} {goal : Goal} {g : Fibre W G} (ha : Holds w f goal g a)
    (hsuits : goal.Suits w f) : a.Fits w := by
  cases ha with
  | taken hd => exact ⟨hd, hsuits⟩
  | chosen | post => exact hsuits

theorem Holds.has {a : Pc W G} {goal : Goal} {g : Fibre W G} (hpc : s.pc w = a)
    (ha : Holds w f goal g a) : s.Has f (.leaves w goal.settled) ∧
      s.Has g (.next w (decide (goal = .direct))) :=
  ⟨State.has_pc hpc (by rw [State.AtPc, ha.places]; exact List.mem_cons_self ..),
    State.has_pc hpc (by
      rw [State.AtPc, ha.places]
      exact List.mem_cons_of_mem _ (List.mem_singleton_self _))⟩

theorem Holds.not_halt {a : Pc W G} {goal : Goal} {g : Fibre W G} (ha : Holds w f goal g a) :
    a ≠ .halt := by
  cases ha <;> nofun

/-- A fibre from nowhere, whose processor is in the worker's scheduler. -/
theorem Inv.find {a b : Pc W G} {goal : Goal} {settled : Bool} {g : Fibre W G} (hi : Inv c s)
    (hpc : s.pc w = b) (hb : Leaves w f settled b) (hsettled : goal.settled = settled)
    (hd : goal ≠ .direct) (hsuits : goal.Suits w f) (ha : Holds w f goal g a)
    (hno : Nowhere s.Has g) (hawake : (s.fred g).runState ≠ Parked)
    (hstarted : (s.fred g).life ≠ .fresh) (hidle : ∀ v, g = .idle v → v = w)
    (hsched : c.scheduler (s.fred g).processor = c.scheduler w) : Inv c (s.setPc w a) := by
  have hhas := hb.has hpc
  subst hsettled
  refine hi.two (hpc.symm ▸ hb.not_halt) (ha.fits hsuits) (fun _ _ => ha.mem) rfl hhas
    (hi.freds.good f _ hhas) (.inl hno) ⟨hawake, hstarted, fun v hv => ?_, ?_⟩
  · rw [hidle v hv]
    rfl
  · rw [decide_eq_false hd]
    exact hsched

/-- It has been in a queue. -/
theorem Inv.findQueued {a b : Pc W G} {goal : Goal} {settled : Bool} {g : Fibre W G} (hi : Inv c s)
    (hpc : s.pc w = b) (hb : Leaves w f settled b) (hsettled : goal.settled = settled)
    (hd : goal ≠ .direct) (hsuits : goal.Suits w f) (ha : Holds w f goal g a)
    (hno : Nowhere s.Has g) {p : Place W X S} (hgood : Good c g (s.fred g) p)
    (hp : p.worker = none) (hsched : c.scheduler (s.fred g).processor = c.scheduler w) :
    Inv c (s.setPc w a) := by
  refine hi.find hpc hb hsettled hd hsuits ha hno hgood.awake hgood.started (fun v hv => ?_) hsched
  have hv := hgood.idle v hv
  rw [hp] at hv
  cases hv

/-- A worker falls back on its idle fibre. -/
theorem Inv.fallBack {b : Pc W G} {goal : Goal} (hi : Inv c s) (hpc : s.pc w = b)
    (hb : Leaves w f goal.settled b) (hd : goal ≠ .direct) (hidle : goal ≠ .idle)
    (hsuits : goal.Suits w f) : Inv c (s.setPc w (.chosen f goal (.idle w))) := by
  obtain ⟨hproc, hawake, hstarted, -⟩ := (hi.fred (.idle w)).idle w rfl
  obtain ⟨u, hu⟩ := hsuits.2 hidle
  refine hi.find hpc hb rfl hd hsuits .chosen (hi.nowhere_idle fun p hp => ?_) hawake hstarted
    (fun v hv => ?_) (congrArg c.scheduler hproc)
  · rw [hpc] at hp
    have hf := (hb.mem hp).1
    rw [hu] at hf
    cases hf
  · cases hv
    rfl

/-- It takes a fibre from the ready queue of a worker of its scheduler. -/
theorem Inv.takeFrom {a b : Pc W G} {goal : Goal} {v : W} {r : Priority} {g : Fibre W G}
    {rest : List (Fibre W G)} (hi : Inv c s) (hpc : s.pc w = b) (hb : Leaves w f goal.settled b)
    (hd : goal ≠ .direct) (hsuits : goal.Suits w f) (ha : Holds w f goal g a)
    (hq : s.readyQueue v r = g :: rest) (hv : c.scheduler v = c.scheduler w) :
    Inv c ((s.setReady v r rest).setPc w a) := by
  obtain ⟨hi', hno⟩ := hi.takeReady hq
  have hgood := hi.freds.good g (.ready v r) (State.has_ready.mpr (hq ▸ List.mem_cons_self ..))
  have hproc : (s.fred g).processor = v := hgood.fits
  refine hi'.findQueued hpc hb rfl hd hsuits ha hno hgood rfl ?_
  show c.scheduler (s.fred g).processor = c.scheduler w
  rw [hproc, hv]

/-- A worker goes on with the two fibres that it has. -/
theorem Inv.keep {a b : Pc W G} {goal : Goal} {g : Fibre W G} (hi : Inv c s) (hpc : s.pc w = b)
    (hb : Holds w f goal g b) (ha : Holds w f goal g a) (hsuits : goal.Suits w f) :
    Inv c (s.setPc w a) := by
  have hin : ∀ {k p}, s.AtPc w a k p → s.Has k p := by
    intro k p hk
    rw [State.AtPc, ha.places, ← hb.places (s := s)] at hk
    exact State.has_pc hpc hk
  exact hi.setPc (hpc.symm ▸ hb.not_halt) (ha.fits hsuits)
    (fun k p hk => .inr ⟨p, State.AtPc.worker hk, hin hk⟩)
    (fun k p q hp hq => hi.freds.one k p q (hin hp) (hin hq))
    fun k p hk => hi.freds.good k p (hin hk)

theorem checkAffinity_same (r : FredState W S) (w : W) :
    (checkAffinity r w).runState = r.runState ∧ (checkAffinity r w).life = r.life ∧
      (checkAffinity r w).target = r.target := by
  rw [checkAffinity]
  split <;> exact ⟨rfl, rfl, rfl⟩

/-- The new processor is as good as the old one, or the worker itself. -/
theorem checkAffinity_processor (r : FredState W S) (w : W) :
    (checkAffinity r w).processor = r.processor ∨ (checkAffinity r w).processor = w := by
  rw [checkAffinity]
  split
  · exact .inl rfl
  · exact .inr rfl

/-- `checkAffinity`, of who has been taken from another worker's queue or handed over. -/
theorem Inv.affine {goal : Goal} {g : Fibre W G} (hi : Inv c s) (hpc : s.pc w = .taken f goal g) :
    Inv c ((s.setFred g (checkAffinity (s.fred g) w)).setPc w (.chosen f goal g)) := by
  have hfits := hi.pc w
  rw [hpc] at hfits
  obtain ⟨hd, hsuits⟩ := hfits
  have hg := ((Holds.taken hd).has hpc).2
  have hgood := hi.freds.good g _ hg
  have hok := hi.fred g
  rw [decide_eq_false hd] at hg hgood
  have hsched : c.scheduler (s.fred g).processor = c.scheduler w := hgood.fits
  obtain ⟨hrun, hlife, htarget⟩ := checkAffinity_same (s.fred g) w
  have hthere : c.scheduler (checkAffinity (s.fred g) w).processor = c.scheduler w := by
    rcases checkAffinity_processor (s.fred g) w with he | he
    · rw [he, hsched]
    · rw [he]
  have hi' : Inv c (s.setFred g (checkAffinity (s.fred g) w)) := by
    refine hi.setFred ⟨fun x hx => ?_, fun hl => ?_, fun v hv => ?_⟩ fun p hp => ?_
    · rw [htarget] at hx
      rw [hthere, ← hsched, hrun]
      exact hok.target x hx
    · rw [hlife] at hl
      rw [hrun, htarget]
      exact hok.fresh hl
    · have hvw : w = v := Option.some.inj (hgood.idle v hv)
      obtain ⟨hproc, hrest⟩ := hok.idle v hv
      rw [hrun, hlife, htarget]
      refine ⟨?_, hrest⟩
      rcases checkAffinity_processor (s.fred g) w with he | he
      · rw [he, hproc]
      · rw [he, hvw]
    · obtain rfl := hi.freds.one g p _ hp hg
      exact ⟨hrun.symm ▸ hgood.awake, hlife.symm ▸ hgood.started, hgood.idle, hthere⟩
  exact hi'.keep (b := .taken f goal g) hpc (.taken hd) .chosen hsuits

/-! ### It arrives at the other fibre -/

/-- The other fibre runs; the one that has been left is nowhere yet. -/
theorem Inv.arrive {goal : Goal} {g : Fibre W G} (hi : Inv c s) (hpc : s.pc w = .post f goal g) :
    Inv c (s.setPc w (.exec g)) ∧ Nowhere (s.setPc w (.exec g)).Has f := by
  obtain ⟨hf, hg⟩ := Holds.post.has hpc
  have hgood := hi.freds.good g _ hg
  have hok := hi.fred g
  have hin : ∀ {k p}, s.AtPc w (.exec g) k p → k = g ∧ p = .runs w :=
    fun hk => Prod.mk.inj (List.mem_singleton.mp hk)
  refine ⟨hi.one (by rw [hpc]; nofun) trivial (fun _ _ => hin) rfl hg
    ⟨hgood.awake, hgood.started, hgood.idle, fun x hx => ?_⟩, hi.nowhere_setPc rfl hf fun p hp => ?_⟩
  · have hfits := hgood.fits
    by_cases hd : goal = .direct
    · rw [decide_eq_true hd] at hfits
      have hnone : (s.fred g).target = none := hfits
      rw [hnone] at hx
      cases hx
    · rw [decide_eq_false hd] at hfits
      have hsched : c.scheduler (s.fred g).processor = c.scheduler w := hfits
      rw [← hsched]
      exact (hok.target x hx).1
  · obtain ⟨rfl, -⟩ := hin hp
    cases hi.freds.one f _ _ hf hg

/-- A thread takes a fibre from nowhere in hand, to resume it. -/
theorem Inv.takeUp (hi : Inv c s) (hno : Nowhere s.Has (.user g)) (hadd : s.adding t = .done)
    (hawake : (s.fred (.user g)).runState ≠ Parked) (hstarted : (s.fred (.user g)).life ≠ .fresh)
    (yield : Bool) : Inv c (s.setAdding t (.reading (.user g) yield)) :=
  hi.setAdding (by rw [hadd]; rfl) (fun _ _ hin => Prod.mk.inj (List.mem_singleton.mp hin))
    (.inl hno) ⟨hawake, hstarted, nofun, trivial⟩

/-- `post`, of who has been left. -/
theorem Inv.dispose {goal : Goal} {g : Fibre W G} (hi : Inv c s) (hpc : s.pc w = .post f goal g)
    (hadd : s.adding (.inl w) = .done) : Inv c (post s w f g goal) := by
  obtain ⟨harrived, hno⟩ := hi.arrive hpc
  have hold := hi.freds.good f _ (Holds.post.has hpc).1
  have hsuits := hi.pc w
  rw [hpc] at hsuits
  have huser : goal ≠ .idle → ∃ g, f = .user g := hsuits.2
  cases hgoal : goal with
  | idle => exact harrived
  | yield | yieldGlobal | migrate | resume | direct =>
    obtain ⟨u, rfl⟩ := huser (by rw [hgoal]; nofun)
    exact harrived.takeUp hno hadd hold.awake hold.started _
  | suspend =>
    obtain ⟨u, rfl⟩ := huser (by rw [hgoal]; nofun)
    have htarget : (s.fred (.user u)).target = none := hold.fits (by rw [hgoal]; rfl)
    have hsub : Inv c ((s.setPc w (.exec g)).setFred (.user u)
        { s.fred (.user u) with runState := fetchSub (s.fred (.user u)).runState }) :=
      harrived.setFred ⟨fun x hx => absurd (htarget.symm.trans hx) nofun,
        fun hl => absurd hl hold.started, nofun⟩ fun p hp => absurd hp (hno p)
    change Inv c (if _ then _ else _)
    split
    case isTrue hearly =>
      refine hsub.takeUp hno hadd ?_ ?_ false
      · show (Function.update s.fred _ _ (.user u)).runState ≠ Parked
        rw [Function.update_self, hearly]
        show fetchSub ResumedEarly ≠ Parked
        decide
      · show (Function.update s.fred _ _ (.user u)).life ≠ .fresh
        rw [Function.update_self]
        exact hold.started
    case isFalse => exact hsub
  | terminate =>
    obtain ⟨u, rfl⟩ := huser (by rw [hgoal]; nofun)
    exact harrived.setFred ⟨(hi.fred (.user u)).target, nofun, nofun⟩ fun p hp => absurd hp (hno p)

/-! ### A thread enqueues a fibre -/

/-- Its own fibre, in hand or on the way to a processor. -/
theorem Inv.goOnAdding {a b : Add W G} {p q : Place W X S} (hi : Inv c s) (hadd : s.adding t = b)
    (hq : (f, q) ∈ b.places t s.handoverFred) (ha : a.places t s.handoverFred = [(f, p)])
    (hproc : a.proc = b.proc) (hfits : p.Fits c (s.fred f)) :
    Inv c (s.setAdding t a) := by
  have hhas : s.Has f q := State.has_adding hadd hq
  have hthread : q.thread = some t := State.AtAdd.thread (a := b) (s := s) hq
  have hgood := hi.freds.good f q hhas
  refine hi.setAdding (by rw [hadd, hproc]) (fun h r hin => ?_) (.inr ⟨q, hthread, hhas⟩)
    ⟨hgood.awake, hgood.started, fun v hv => ?_, hfits⟩
  · rw [State.AtAdd, ha] at hin
    exact Prod.mk.inj (List.mem_singleton.mp hin)
  · have hworker := hgood.idle v hv
    rw [Place.thread_of_worker hworker] at hthread
    cases hthread

/-- `IdleManager::unblock`. -/
theorem Inv.unblocked {proc : W} (hi : Inv c s) (hadd : s.adding t = .unblock f proc) :
    Inv c (unblock c s t f proc) := by
  have hhas : s.Has f (.adding t proc) := State.has_adding hadd (List.mem_singleton_self _)
  have hgood := hi.freds.good f _ hhas
  have hproc : (s.fred f).processor = proc := hgood.fits
  have hidle : ∀ v, f = .idle v → False := fun v hv => nomatch hgood.idle v hv
  rw [unblock]
  split
  case h_1 hnone =>
    obtain ⟨hi', hno⟩ := hi.release rfl hhas (by rw [hadd]; rfl)
    exact hi'.putWaiting hno ⟨hgood.awake, hgood.started, fun v hv => (hidle v hv).elim,
      congrArg c.scheduler hproc⟩
  case h_2 first rest hprocs =>
    have hnodup := hi.procsNodup (c.scheduler proc)
    -- whoever is taken out is halted, and a worker of the same scheduler
    have hwake : ∀ v l, v ∈ (s.idleManager (c.scheduler proc)).waitingProcs → l.Nodup →
        (∀ u, u ∈ l ↔ u ∈ (s.idleManager (c.scheduler proc)).waitingProcs ∧ u ≠ v) →
        Inv c { (s.setIdleManager (c.scheduler proc)
            { s.idleManager (c.scheduler proc) with waitingProcs := l }).setAdding t (.wake f v) with
          halting := Function.update s.halting v false } := by
      intro v l hv hl hmem
      obtain ⟨hhalt, hsched⟩ := hi.procs.good v (.waiting (c.scheduler proc)) hv
      obtain ⟨hi', hno⟩ := hi.takeProc hv hl hmem
      refine hi'.setWake hno hhalt (q := .adding t proc) rfl
        (State.has_adding (a := .unblock f proc) hadd (List.mem_singleton_self _)) ?_
      show c.scheduler (s.fred f).processor = c.scheduler v
      rw [hproc, hsched _ rfl]
    split
    case isTrue hwakes =>
      exact hwake proc _ (hi.halting proc hwakes.2) (hnodup.erase proc) fun u => by
        rw [hnodup.mem_erase_iff, and_comm]
    case isFalse =>
      rw [hprocs] at hnodup
      obtain ⟨hnot, hrest⟩ := List.nodup_cons.mp hnodup
      refine hwake first rest (hprocs ▸ List.mem_cons_self ..) hrest fun u => ?_
      rw [hprocs, List.mem_cons]
      constructor
      · exact fun hu => ⟨.inr hu, fun he => hnot (he ▸ hu)⟩
      · exact fun ⟨hu, hne⟩ => hu.resolve_left hne

theorem Inv.enqueue (hi : Inv c s) (hs : addNext c s t = some s') : Inv c s' := by
  rw [addNext] at hs
  cases hadd : s.adding t with
  | done => simp only [hadd, reduceCtorEq] at hs
  | reading f yield =>
    simp only [hadd, Option.some.injEq] at hs
    subst hs
    split
    · exact hi.goOnAdding (p := .adding t (s.fred f).processor) hadd (List.mem_singleton_self _) rfl
        rfl rfl
    · exact hi.goOnAdding (p := .adding t (s.fred f).processor) hadd (List.mem_singleton_self _) rfl
        rfl rfl
  | addReadyFred f proc =>
    simp only [hadd, Option.some.injEq] at hs
    subst hs
    have hhas : s.Has f (.adding t proc) := State.has_adding hadd (List.mem_singleton_self _)
    have hfits := (hi.freds.good f _ hhas).fits
    rw [addReadyFred]
    split
    · exact (hi.count _).goOnAdding (b := .addReadyFred f proc) (p := .adding t proc) hadd
        (List.mem_singleton_self _) rfl rfl hfits
    · exact (hi.count _).goOnAdding (b := .addReadyFred f proc) (p := .adding t proc) hadd
        (List.mem_singleton_self _) rfl rfl hfits
  | enqueueFred f proc =>
    simp only [hadd, Option.some.injEq] at hs
    subst hs
    have hhas : s.Has f (.adding t proc) := State.has_adding hadd (List.mem_singleton_self _)
    have hgood := hi.freds.good f _ hhas
    obtain ⟨hi', hno⟩ := hi.release rfl hhas (by rw [hadd]; rfl)
    exact hi'.putReady hno ⟨hgood.awake, hgood.started, fun v hv => (nomatch hgood.idle v hv),
      hgood.fits⟩
  | unblock f proc =>
    simp only [hadd, Option.some.injEq] at hs
    exact hs ▸ hi.unblocked hadd
  | wake f proc =>
    simp only [hadd, Option.some.injEq] at hs
    exact hs ▸ hi.write hadd
  | haltSemV proc =>
    simp only [hadd, Option.some.injEq] at hs
    exact hs ▸ hi.signal hadd

/-! ### A worker leaves its fibre -/

theorem Inv.begin (hi : Inv c s) (proc : W) (affinity : Bool)
    (hfresh : (s.fred (.user g)).life = .fresh) : Inv c (s.setFred (.user g)
      { s.fred (.user g) with life := .started, processor := proc, affinity := affinity }) := by
  obtain ⟨hawake, htarget⟩ := (hi.fred (.user g)).fresh hfresh
  exact hi.setFred ⟨fun x hx => absurd (htarget.symm.trans hx) nofun, nofun, nofun⟩
    fun p hp => absurd hp (hi.nowhere_fresh hfresh p)

theorem Inv.start (hi : Inv c s) {proc : W} {affinity : Bool}
    (hfresh : (s.fred (.user g)).life = .fresh) (hadd : s.adding t = .done) :
    Inv c (start s t g proc affinity) := by
  refine (hi.begin _ _ hfresh).takeUp (hi.nowhere_fresh hfresh) hadd ?_ ?_ false
  · show (Function.update s.fred _ _ (.user g)).runState ≠ Parked
    rw [Function.update_self]
    exact ((hi.fred (.user g)).fresh hfresh).1
  · show (Function.update s.fred _ _ (.user g)).life ≠ .fresh
    rw [Function.update_self]
    nofun

theorem Inv.initFred (hi : Inv c s) (hfresh : (s.fred (.user g)).life = .fresh)
    (hpc : s.pc w = .exec (.idle w)) : Inv c (initFred s w g) := by
  have hidle : s.Has (.idle w) (.runs w) := State.has_pc hpc (List.mem_singleton_self _)
  have hgood := (hi.begin w true hfresh).freds.good (.idle w) (.runs w) hidle
  have htarget := ((hi.begin w true hfresh).fred (.idle w)).idle w rfl
  refine (hi.begin _ _ hfresh).two (f := .idle w) (g := .user g) (p := .leaves w true)
    (b := .next w false) (q := .runs w) ?_ Goal.suits_idle (fun _ _ => Holds.chosen.mem) rfl hidle
    ⟨hgood.awake, hgood.started, hgood.idle, fun _ => htarget.2.2.2⟩
    (.inl (hi.nowhere_fresh hfresh)) ?_
  · show s.pc w ≠ .halt
    rw [hpc]
    nofun
  · show Good c (.user g) (Function.update s.fred _ _ (.user g)) _
    rw [Function.update_self]
    exact ⟨((hi.fred (.user g)).fresh hfresh).1, nofun, nofun, rfl⟩

/-- `migrate` of the fibre that runs, up to its search. -/
theorem Inv.migrate {proc : W} (hi : Inv c s) (hpc : s.pc w = .exec (.user g)) :
    Inv c (migrate c s w g proc) := by
  have hhas : s.Has (.user g) (.runs w) := State.has_pc hpc (List.mem_singleton_self _)
  have hold := hi.freds.good (.user g) _ hhas
  -- the fields are written while the worker has the fibre, whatever it looks for
  have hleave : ∀ a : Pc W G, Leaves w (.user g) false a → Inv c ((s.setPc w a).setFred (.user g)
      { s.fred (.user g) with processor := proc, target := some (c.scheduler proc) }) := by
    intro a ha
    have hi' := hi.leave hpc ha nofun
    refine hi'.setFred ⟨fun x hx => ⟨Option.some.inj hx, hold.awake⟩,
      fun hl => absurd hl hold.started, nofun⟩ fun p hp => ?_
    obtain rfl := hi'.freds.one _ p _ hp (ha.has (Function.update_self ..))
    exact ⟨hold.awake, hold.started, nofun, nofun⟩
  rw [Libfibre.Isolation.migrate]
  split
  · exact hleave _ (.search .migrate false rfl nofun (Goal.suits_user nofun))
  · exact hleave _ (leaves_nonblocking .resume nofun (Goal.suits_user nofun))

/-- `migrate` returns. -/
theorem Inv.migrated (hi : Inv c s) (hpc : s.pc w = .exec (.user g)) :
    Inv c (s.setFred (.user g) { s.fred (.user g) with target := none }) := by
  have hhas : s.Has (.user g) (.runs w) := State.has_pc hpc (List.mem_singleton_self _)
  have hold := hi.freds.good (.user g) _ hhas
  refine hi.setFred ⟨nofun, fun hl => absurd hl hold.started, nofun⟩ fun p hp => ?_
  obtain rfl := hi.freds.one _ p _ hp hhas
  exact ⟨hold.awake, hold.started, nofun, nofun⟩

theorem Inv.suspend (hi : Inv c s) (hpc : s.pc w = .exec (.user g))
    (htarget : (s.fred (.user g)).target = none) : Inv c (suspend c s w g) := by
  rw [Libfibre.Isolation.suspend]
  split
  · exact hi.setRunState (by decide)
  · exact hi.leave hpc (leaves_nonblocking .suspend nofun (Goal.suits_user nofun))
      fun _ => htarget

theorem fetchAdd_awake {n : ℕ} (h : n = Parked ∨ n = Running) : fetchAdd n ≠ Parked := by
  rcases h with rfl | rfl <;> decide

theorem Inv.resume (hi : Inv c s) (hadd : s.adding t = .done) (hs : resume s t g = some s') :
    Inv c s' := by
  have hok := hi.fred (.user g)
  rw [Libfibre.Isolation.resume] at hs
  split at hs
  case isTrue hparked =>
    rw [Option.some.injEq] at hs
    subst hs
    have hawake := fetchAdd_awake (.inl hparked)
    refine (hi.setRunState hawake).takeUp (hi.nowhere_parked hparked) hadd ?_ ?_ false
    · show (Function.update s.fred _ _ (.user g)).runState ≠ Parked
      rw [Function.update_self]
      exact hawake
    · show (Function.update s.fred _ _ (.user g)).life ≠ .fresh
      rw [Function.update_self]
      exact fun hl => (hok.fresh hl).1 hparked
  case isFalse =>
    split at hs
    case isTrue hrunning =>
      rw [Option.some.injEq] at hs
      subst hs
      exact hi.setRunState (fetchAdd_awake (.inr hrunning))
    case isFalse => cases hs

/-- A direct switch: nothing relates the processor of the fibre to the worker. -/
theorem Inv.resumeDirect {h : G} (hi : Inv c s) (hpc : s.pc w = .exec (.user h))
    (htarget : (s.fred (.user h)).target = none) (hs : resumeDirect s w h g = some s') :
    Inv c s' := by
  have hok := hi.fred (.user g)
  rw [Libfibre.Isolation.resumeDirect] at hs
  split at hs
  case isTrue hparked =>
    rw [Option.some.injEq] at hs
    subst hs
    have hawake := fetchAdd_awake (.inl hparked)
    have hi' : Inv c (s.setFred (.user g) (resumed (s.fred (.user g)))) := hi.setRunState hawake
    have hhas : s.Has (.user h) (.runs w) := State.has_pc hpc (List.mem_singleton_self _)
    have hold := hi'.freds.good (.user h) _ hhas
    have hne : h ≠ g := by
      rintro rfl
      exact hi.nowhere_parked hparked _ hhas
    refine hi'.two (f := .user h) (g := .user g) (p := .leaves w true) (b := .next w true)
      (q := .runs w) (by change s.pc w ≠ _; rw [hpc]; nofun) (Goal.suits_user nofun)
      (fun _ _ => Holds.chosen.mem) rfl hhas ⟨hold.awake, hold.started, nofun, fun _ => ?_⟩
      (.inl (hi.nowhere_parked hparked)) ?_
    · show (Function.update s.fred _ _ (.user h)).target = none
      rw [Function.update_of_ne (fun he => hne (Fibre.user.inj he))]
      exact htarget
    · show Good c (.user g) (Function.update s.fred _ _ (.user g)) _
      rw [Function.update_self]
      refine ⟨hawake, fun hl => (hok.fresh hl).1 hparked, nofun, ?_⟩
      show (s.fred (.user g)).target = none
      by_contra hsome
      obtain ⟨x, hx⟩ := Option.ne_none_iff_exists'.mp hsome
      exact (hok.target x hx).2 hparked
  case isFalse =>
    split at hs
    case isTrue hrunning =>
      rw [Option.some.injEq] at hs
      subst hs
      exact hi.setRunState (fetchAdd_awake (.inr hrunning))
    case isFalse => cases hs

/-! ### A worker goes on with its search -/

theorem Inv.tryGetReadyFred {goal : Goal} {lost last : Bool} (hi : Inv c s)
    (hpc : s.pc w = .token f goal) : Inv c (tryGetReadyFred c s w f goal lost last) := by
  have hfits := hi.pc w
  rw [hpc] at hfits
  obtain ⟨hd, hsuits⟩ := hfits
  have htoken : Leaves w f goal.settled (.token f goal) := .token goal rfl hd hsuits
  rw [Libfibre.Isolation.tryGetReadyFred]
  split
  · exact (hi.count _).goOn hpc htoken (.search goal false rfl hd hsuits)
  · cases hgoal : goal with
    | idle =>
      subst hgoal
      rw [noToken]
      split
      · exact hi.goOn hpc htoken (.getReadyFred (hsuits.1 rfl) rfl)
      · exact hi.goOn hpc htoken htoken
    | yield | yieldGlobal | migrate | resume | suspend | terminate | direct =>
      rw [← hgoal, noToken]
      · exact hi.fallBack hpc htoken hd (by rw [hgoal]; nofun) hsuits
      · rw [hgoal]
        nofun

theorem Inv.searchFails {goal : Goal} {steal : Bool} (hi : Inv c s)
    (hpc : s.pc w = .search f goal steal) : Inv c (s.setPc w (searchFails c w f goal steal)) := by
  have hfits := hi.pc w
  rw [hpc] at hfits
  obtain ⟨hd, hsuits⟩ := hfits
  have hsearch : Leaves w f goal.settled (.search f goal steal) := .search goal steal rfl hd hsuits
  have hagain : ∀ b, Inv c (s.setPc w (.search f goal b)) :=
    fun b => hi.goOn hpc hsearch (.search goal b rfl hd hsuits)
  have hback : goal.settled = true → Inv c (s.setPc w (.exec f)) := by
    intro hsettled
    have hnone := (hi.freds.good f _ (hsearch.has hpc)).fits hsettled
    exact hi.stay hpc hsearch fun x hx => absurd (hnone.symm.trans hx) nofun
  have hlast : goal ≠ .idle → Inv c (s.setPc w
      (if c.go then .chosen f goal (.idle w) else .search f goal false)) := by
    intro hidle
    split
    · exact hi.fallBack hpc hsearch hd hidle hsuits
    · exact hagain false
  cases goal with
  | idle =>
    cases steal with
    | false => exact hagain true
    | true => exact hagain false
  | yield => exact hback rfl
  | yieldGlobal =>
    cases steal with
    | false => exact hagain true
    | true => exact hback rfl
  | migrate =>
    cases steal with
    | false => exact hagain true
    | true =>
      obtain ⟨u, rfl⟩ := hsuits.2 nofun
      exact hi.goOn hpc hsearch (leaves_nonblocking .resume nofun (Goal.suits_user nofun))
  | resume | suspend | terminate | direct =>
    cases steal with
    | false => exact hagain true
    | true => exact hlast nofun

theorem Inv.getReadyFred (hi : Inv c s) (hpc : s.pc w = .getReadyFred) :
    Inv c (getReadyFred c s w) := by
  have hb : Leaves w (.idle w) true (.getReadyFred : Pc W G) := .getReadyFred rfl rfl
  rw [Libfibre.Isolation.getReadyFred]
  split
  · exact (hi.count _).goOn hpc hb (.search .idle false rfl nofun Goal.suits_idle)
  · exact (hi.count _).goOn hpc hb (.block rfl rfl)

theorem Inv.block (hi : Inv c s) (hpc : s.pc w = .block) : Inv c (block c s w) := by
  have hb : Leaves w (.idle w) true (.block : Pc W G) := .block rfl rfl
  rw [Libfibre.Isolation.block]
  split
  case h_1 hnone =>
    have hhas : s.Has (.idle w) (.leaves w true) := hb.has hpc
    have hhalt : Inv c (s.setPc w .halt) :=
      hi.one (by rw [hpc]; nofun) trivial (fun _ _ hin => Prod.mk.inj (List.mem_singleton.mp hin)) rfl
        hhas (hi.freds.good _ _ hhas)
    exact hhalt.putProc (Function.update_self ..) (hi.noProc (by rw [hpc]; nofun))
  case h_2 g rest hfreds =>
    obtain ⟨hi', hno⟩ := hi.takeWaiting hfreds
    have hgood := hi.freds.good g (.waiting (c.scheduler w))
      (State.has_waiting.mpr (hfreds ▸ List.mem_cons_self ..))
    have hd : Goal.idle ≠ .direct := nofun
    exact hi'.findQueued hpc hb rfl hd Goal.suits_idle (.taken hd) hno hgood rfl
      hgood.fits

/-- A worker that has been woken takes what has been handed over. -/
theorem Inv.handover {g : Fibre W G} (hi : Inv c s) (hpc : s.pc w = .handover)
    (hslot : s.handoverFred w = some g) : Inv c (s.setPc w (.taken (.idle w) .idle g)) := by
  have hidle : s.Has (.idle w) (.leaves w true) := State.has_pc hpc (List.mem_cons_self ..)
  have hg : s.Has g (.taking w) := by
    refine State.has_pc hpc (List.mem_cons_of_mem _ ?_)
    rw [hslot]
    exact List.mem_singleton_self _
  have hgood := hi.freds.good g _ hg
  have hd : Goal.idle ≠ .direct := nofun
  exact hi.two (p := .leaves w true) (b := .next w false) (by rw [hpc]; nofun)
    ⟨hd, Goal.suits_idle⟩ (fun _ _ => (Holds.taken hd).mem) rfl hidle (hi.freds.good _ _ hidle)
    (.inr ⟨.taking w, rfl, hg, nofun⟩) ⟨hgood.awake, hgood.started, hgood.idle, hgood.fits⟩

end Libfibre.Isolation
