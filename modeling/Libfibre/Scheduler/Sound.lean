import Mathlib.Data.Fintype.Basic
import Libfibre.Scheduler.Handover
import Libfibre.Schemes.Threads

/-! No fibre is duplicated or lost: the invariant of the scheduler, step by step, and what it says of a
    whole run in which no timer resumes a linked fibre. -/

set_option linter.unusedSectionVars false

namespace Libfibre.Scheduler
open Transition
open Fred (Parked Running ResumedEarly fetchAdd fetchSub)

variable {W X G Q S : Type} [DecidableEq W] [DecidableEq X] [DecidableEq G] [DecidableEq Q]
  [DecidableEq S]

/-! ### The invariant -/

/-- The queues hold the fibres whose links are in them. -/
structure Linked (queue : Q → List (Fibre W G)) (fred : Fibre W G → FredState W Q) : Prop where
  mem : ∀ q f, f ∈ queue q ↔ (fred f).queue = some q
  nodup : ∀ q, (queue q).Nodup

/-- INVARIANT: every fibre has one place, and looks as one does there. -/
structure Inv (c : Config W Q S) (s : State W X G Q) (place : Fibre W G → Place W X) : Prop where
  agree : Agree s.pc s.held s.readyQueue place
  linked : Linked s.queue s.fred
  legal : ∀ f, Legal c.kind f (place f) (s.fred f)

variable {c : Config W Q S} {s s' : State W X G Q} {place place' : Fibre W G → Place W X}

theorem Linked.congr {queue : Q → List (Fibre W G)} {fred fred' : Fibre W G → FredState W Q}
    (h : Linked queue fred) (heq : ∀ f, (fred' f).queue = (fred f).queue) : Linked queue fred' :=
  ⟨fun q f => by rw [h.mem, heq], h.nodup⟩

/-- A fibre pushes its link. -/
theorem Linked.push {queue : Q → List (Fibre W G)} {fred : Fibre W G → FredState W Q}
    (h : Linked queue fred) {f : Fibre W G} {r : FredState W Q} {q : Q}
    (hold : (fred f).queue = none) (hnew : r.queue = some q) :
    Linked (Function.update queue q (queue q ++ [f])) (Function.update fred f r) := by
  have hnot : ∀ q, f ∉ queue q := by
    intro q
    rw [h.mem, hold]
    nofun
  refine ⟨fun p g => ?_, fun p => ?_⟩
  · rcases eq_or_ne g f with rfl | hg
    · rw [Function.update_self, hnew, Option.some.injEq]
      rcases eq_or_ne p q with rfl | hp
      · rw [Function.update_self]
        exact iff_of_true (List.mem_append_right _ (List.mem_singleton_self g)) rfl
      · rw [Function.update_of_ne hp]
        exact iff_of_false (hnot p) hp.symm
    · rw [Function.update_of_ne hg, ← h.mem]
      rcases eq_or_ne p q with rfl | hp
      · rw [Function.update_self, List.mem_append, List.mem_singleton, or_iff_left hg]
      · rw [Function.update_of_ne hp]
  · rcases eq_or_ne p q with rfl | hp
    · rw [Function.update_self]
      exact List.nodup_append.mpr ⟨h.nodup p, List.nodup_singleton f, by
        rintro a ha b hb rfl
        exact hnot p (List.mem_singleton.mp hb ▸ ha)⟩
    · rw [Function.update_of_ne hp]
      exact h.nodup p

/-- A link is taken out of its queue. -/
theorem Linked.erase {queue : Q → List (Fibre W G)} {fred : Fibre W G → FredState W Q}
    (h : Linked queue fred) {f : Fibre W G} {r : FredState W Q} {q : Q}
    (hold : (fred f).queue = some q) (hnew : r.queue = none) :
    Linked (Function.update queue q ((queue q).erase f)) (Function.update fred f r) := by
  refine ⟨fun p g => ?_, fun p => ?_⟩
  · rcases eq_or_ne g f with rfl | hg
    · rw [Function.update_self, hnew]
      refine iff_of_false ?_ nofun
      rcases eq_or_ne p q with rfl | hp
      · rw [Function.update_self]
        exact (h.nodup p).not_mem_erase
      · rw [Function.update_of_ne hp, h.mem, hold]
        exact fun he => hp (Option.some.inj he).symm
    · rw [Function.update_of_ne hg, ← h.mem]
      rcases eq_or_ne p q with rfl | hp
      · rw [Function.update_self]
        exact List.mem_erase_of_ne hg
      · rw [Function.update_of_ne hp]
  · rcases eq_or_ne p q with rfl | hp
    · rw [Function.update_self]
      exact (h.nodup p).erase f
    · rw [Function.update_of_ne hp]
      exact h.nodup p

/-- Only fibre `f` changes, and stays where it is. -/
theorem Inv.setFred (hi : Inv c s place) {f : Fibre W G} {r : FredState W Q}
    (hq : r.queue = (s.fred f).queue) (hr : Legal c.kind f (place f) r) :
    Inv c (s.setFred f r) place := by
  refine ⟨hi.agree, hi.linked.congr fun g => ?_, fun g => ?_⟩
  · exact Threads.same_at (f := FredState.queue) hq g
  · show Legal c.kind g (place g) (Function.update s.fred f r g)
    rcases eq_or_ne g f with rfl | hne
    · rw [Function.update_self]
      exact hr
    · rw [Function.update_of_ne hne]
      exact hi.legal g

/-- Fibre `f` changes, and so does the queue its link is in. -/
theorem Inv.relink (hi : Inv c s place) {f : Fibre W G} {r : FredState W Q} {q : Q}
    {l : List (Fibre W G)}
    (hl : Linked (Function.update s.queue q l) (Function.update s.fred f r))
    (hr : Legal c.kind f (place f) r) : Inv c ((s.setFred f r).setQueue q l) place := by
  refine ⟨hi.agree, hl, fun g => ?_⟩
  show Legal c.kind g (place g) (Function.update s.fred f r g)
  rcases eq_or_ne g f with rfl | hne
  · rw [Function.update_self]
    exact hr
  · rw [Function.update_of_ne hne]
    exact hi.legal g

/-- Fibres move: those that do, or that change, are as they should be at their new places. -/
theorem Inv.moved (hi : Inv c s place) (ha : Agree s'.pc s'.held s'.readyQueue place')
    (hq : s'.queue = s.queue)
    (hf : ∀ f, place' f = place f ∧ s'.fred f = s.fred f ∨
      Legal c.kind f (place' f) (s'.fred f) ∧ (s'.fred f).queue = (s.fred f).queue) :
    Inv c s' place' := by
  refine ⟨ha, ?_, fun f => ?_⟩
  · rw [hq]
    refine hi.linked.congr fun f => ?_
    rcases hf f with h | h
    · rw [h.2]
    · exact h.2
  · rcases hf f with h | h
    · rw [h.1, h.2]
      exact hi.legal f
    · exact h.1

/-! ### A worker and its fibre -/

theorem current_some {w : W} {g : G} (h : s.current w = some g) :
    s.pc w = .exec (.user g) ∧ s.held (.inl w) = none := by
  rw [State.current] at h
  split at h
  case h_1 h' hpc hheld =>
    cases h
    exact ⟨hpc, hheld⟩
  case h_2 => cases h

theorem free_some {w : W} {g : G} (h : s.free w = some g) :
    s.current w = some g ∧ (s.fred (.user g)).loc = .free := by
  rw [State.free] at h
  split at h
  case h_1 g' hcur =>
    split at h
    case isTrue hloc =>
      cases h
      exact ⟨hcur, hloc⟩
    case isFalse => cases h
  case h_2 => cases h

theorem Inv.of_current (hi : Inv c s place) {w : W} {g : G} (h : s.current w = some g) :
    place (.user g) = .exec w ∧ (s.fred (.user g)).life = .started ∧
      (s.fred (.user g)).saved = false ∧ Awake c.kind (s.fred (.user g)) := by
  obtain ⟨hpc, -⟩ := current_some h
  have hp : place (.user g) = .exec w := hi.agree.pc_at w _ _ (by rw [hpc]; exact ⟨rfl, rfl⟩)
  have hlegal := hi.legal (.user g)
  rw [hp] at hlegal
  exact ⟨hp, hlegal⟩

theorem Inv.of_free (hi : Inv c s place) {w : W} {g : G} (h : s.free w = some g) :
    place (.user g) = .exec w ∧ (s.fred (.user g)).life = .started ∧
      (s.fred (.user g)).saved = false ∧ (s.fred (.user g)).Fresh := by
  obtain ⟨hcur, hloc⟩ := free_some h
  obtain ⟨hp, hlife, hsaved, hawake⟩ := hi.of_current hcur
  rw [Awake, hloc] at hawake
  exact ⟨hp, hlife, hsaved, hawake.2, hawake.1, hloc⟩

/-! ### Steps of a fibre that runs -/

/-- STEP: a fibre that runs goes from one place of its own code to another. -/
theorem Inv.goes (hi : Inv c s place) {w : W} {g : G} (hcur : s.current w = some g)
    {r : FredState W Q} (hlife : r.life = .started) (hsaved : r.saved = false)
    (hq : r.queue = (s.fred (.user g)).queue) (hr : Awake c.kind r) :
    Inv c (s.setFred (.user g) r) place := by
  obtain ⟨hp, -⟩ := hi.of_current hcur
  refine hi.setFred hq ?_
  rw [hp]
  exact ⟨hlife, hsaved, hr⟩

/-- STEP: one round of `suspend` that skips the suspension. -/
theorem Inv.skips (hi : Inv c s place) {w : W} {g : G} (hcur : s.current w = some g) {how : How Q}
    (hloc : (s.fred (.user g)).loc = .suspending how)
    (hearly : (s.fred (.user g)).runState = ResumedEarly) :
    Inv c (s.setFred (.user g) { s.fred (.user g) with runState := Running, loc := .woken how })
      place := by
  obtain ⟨-, hlife, hsaved, hawake⟩ := hi.of_current hcur
  rw [Awake, hloc] at hawake
  obtain ⟨hs, hword⟩ := hawake
  refine hi.goes hcur hlife hsaved ?_ ⟨hs, ?_, rfl⟩
  · rw [FredState.queue, FredState.queue, hloc]
    cases how <;> rfl
  · rw [hearly] at hword
    show ∃ b, (s.fred (.user g)).wake = .used b
    cases hwake : (s.fred (.user g)).wake with
    | used b => exact ⟨b, rfl⟩
    | _ => rw [hwake] at hword; cases hword

/-- STEP: `suspend` returns. -/
theorem Inv.resumeInfo (hi : Inv c s place) {w : W} {g : G} (hcur : s.current w = some g)
    (h : resumeInfo s g = some s') : Inv c s' place := by
  obtain ⟨-, hlife, hsaved, hawake⟩ := hi.of_current hcur
  rw [Scheduler.resumeInfo] at h
  split at h
  case h_1 q hloc =>
    rw [Awake, hloc] at hawake
    obtain ⟨hs, ⟨b, hused⟩, hrun⟩ := hawake
    cases h
    rw [hused]
    cases b with
    | false =>
      refine hi.goes hcur hlife hsaved ?_ ⟨hs.timed q rfl, rfl, hrun⟩
      rw [FredState.queue, FredState.queue, hloc, hused]
      rfl
    | true =>
      refine hi.goes hcur hlife hsaved ?_ ⟨rfl, hrun⟩
      rw [FredState.queue, FredState.queue, hloc, hused]
      rfl
  case h_2 how hnot hloc =>
    rw [Awake, hloc] at hawake
    obtain ⟨hs, ⟨b, hused⟩, hrun⟩ := hawake
    cases h
    refine hi.goes hcur hlife hsaved ?_ ⟨rfl, hrun⟩
    rw [FredState.queue, FredState.queue, hloc, hused]
    cases how with
    | race => rfl
    | link q timed =>
      cases b with
      | true => rfl
      | false =>
        have htimed : timed = true := hs.races (.inr hused)
        subst htimed
        exact (hnot q rfl).elim
  case h_3 => cases h

/-- STEP: a fibre prepares its race and has its link put into a queue. -/
theorem Inv.push (hi : Inv c s place) {w : W} {g : G} (hfree : s.free w = some g) {q : Q}
    {l : Loc Q} (hq : { s.fred (.user g) with wake := .opened, loc := l }.queue = some q)
    (hr : Awake c.kind { s.fred (.user g) with wake := .opened, loc := l }) :
    Inv c (push s g q l) place := by
  obtain ⟨hp, hlife, hsaved, hfresh⟩ := hi.of_free hfree
  refine hi.relink (hi.linked.push hfresh.queue hq) ?_
  rw [hp]
  exact ⟨hlife, hsaved, hr⟩

/-- STEP: a fibre counts itself at a barrier. -/
theorem Inv.arrive (hi : Inv c s place) {w : W} {g : G} (hcur : s.current w = some g)
    (h : arrive c s g = some s') : Inv c s' place := by
  obtain ⟨-, hlife, hsaved, hawake⟩ := hi.of_current hcur
  rw [Scheduler.arrive] at h
  split at h
  case h_1 q timed hloc =>
    rw [Awake, hloc] at hawake
    obtain ⟨hs, hwon, hused, hword⟩ := hawake
    split at h
    case h_1 target hkind =>
      dsimp only at h
      split at h
      case isTrue =>
        cases h
        have hi' : Inv c (s.setFred (.user g)
            { s.fred (.user g) with loc := .notifying q target true }) place := by
          have hpark : true = false ↔ (s.fred (.user g)).wake = .closed :=
            iff_of_false (by decide) hs.live
          refine hi.goes hcur hlife hsaved ?_ ⟨⟨target, hkind⟩, hpark, hwon, hused, hword⟩
          rw [FredState.queue, FredState.queue, hloc]
        exact ⟨hi'.agree, hi'.linked, hi'.legal⟩
      case isFalse =>
        cases h
        have hi' : Inv c (s.setFred (.user g)
            { s.fred (.user g) with loc := .suspending (.link q false) }) place := by
          refine hi.goes hcur hlife hsaved ?_ ⟨.untimed hs.live (not_or.mpr ⟨hwon, hused⟩), hword⟩
          rw [FredState.queue, FredState.queue, hloc]
        exact ⟨hi'.agree, hi'.linked, hi'.legal⟩
    case h_2 => cases h
  case h_2 => cases h

/-- STEP: the test in `ConditionalNemesisQueue::block`. -/
theorem Inv.func (hi : Inv c s place) {w : W} {g : G} (hcur : s.current w = some g) {ok : Bool}
    (h : func c s g ok = some s') : Inv c s' place := by
  obtain ⟨-, hlife, hsaved, hawake⟩ := hi.of_current hcur
  rw [Scheduler.func] at h
  split at h
  case h_1 q timed hloc =>
    rw [Awake, hloc] at hawake
    obtain ⟨hs, hwon, hused, hword⟩ := hawake
    have hnot := not_or.mpr ⟨hwon, hused⟩
    split at h
    case isTrue hkind =>
      split at h
      case isTrue =>
        cases h
        refine hi.goes hcur hlife hsaved ?_ ⟨hs, hword⟩
        rw [FredState.queue, FredState.queue, hloc]
      case isFalse =>
        split at h
        case isTrue hopened =>
          cases h
          refine hi.goes hcur hlife hsaved ?_ ⟨hkind, rfl, ?_⟩
          · rw [FredState.queue, FredState.queue, hloc, hopened]
            rfl
          · rw [hopened] at hword
            exact hword
        case isFalse =>
          cases h
          refine hi.goes hcur hlife hsaved ?_ ⟨.untimed hs.live hnot, hword⟩
          rw [FredState.queue, FredState.queue, hloc]
    case isFalse => cases h
  case h_2 => cases h

/-- STEP: a fibre takes its own link out of a queue. -/
theorem Inv.remove (hi : Inv c s place) {w : W} {g : G} (hcur : s.current w = some g)
    (h : remove s g = some s') : Inv c s' place := by
  obtain ⟨hp, hlife, hsaved, hawake⟩ := hi.of_current hcur
  rw [Scheduler.remove] at h
  split at h
  case h_1 q hloc =>
    rw [Awake, hloc] at hawake
    obtain ⟨-, hclosed, hrun⟩ := hawake
    cases h
    refine hi.relink (hi.linked.erase ?_ rfl) ?_
    · rw [FredState.queue, hloc]
    · rw [hp]
      exact ⟨hlife, hsaved, hclosed, hrun⟩
  case h_2 => cases h

/-- The first fibre of a queue is no idle fibre. -/
theorem Inv.head_user (hi : Inv c s place) {q : Q} {f : Fibre W G} {rest : List (Fibre W G)}
    (hq : s.queue q = f :: rest) : (s.fred f).queue = some q ∧ ∃ g, f = .user g := by
  have hmem : (s.fred f).queue = some q :=
    (hi.linked.mem q f).mp (by rw [hq]; exact List.mem_cons_self ..)
  refine ⟨hmem, ?_⟩
  cases f with
  | user g => exact ⟨g, rfl⟩
  | idle v =>
    obtain ⟨hfresh, -⟩ := hi.legal (.idle v)
    rw [hfresh.queue] at hmem
    cases hmem

/-- STEP: the first fibre of a queue is popped by who wins its wake-up. -/
theorem Inv.pop (hi : Inv c s place) {q : Q} {f : Fibre W G} {rest : List (Fibre W G)}
    (hq : s.queue q = f :: rest) (hopened : (s.fred f).wake = .opened) :
    Inv c (pop s q f rest) place := by
  obtain ⟨hmem, g, rfl⟩ := hi.head_user hq
  have hrest : rest = (s.queue q).erase (.user g) := by rw [hq, List.erase_cons_head]
  rw [Scheduler.pop, hrest]
  refine hi.relink (hi.linked.erase hmem ?_) (User.won (hi.legal (.user g)) hopened nofun)
  rw [FredState.queue, hopened] at hmem
  rw [FredState.queue]
  cases hloc : (s.fred (.user g)).loc with
  | removing p =>
    obtain ⟨-, hclosed⟩ := User.closed_of_removing (hi.legal (.user g)) hloc
    rw [hopened] at hclosed
    cases hclosed
  | suspending how => cases how <;> rfl
  | woken how => cases how <;> rfl
  | _ => rfl

/-- STEP: one round of the loop at a barrier. -/
theorem Inv.notify (hi : Inv c s place) {w : W} {g : G} (hcur : s.current w = some g)
    (h : notify s g = some s') : Inv c s' place := by
  obtain ⟨hp, hlife, hsaved, hawake⟩ := hi.of_current hcur
  rw [Scheduler.notify] at h
  split at h
  case h_1 q park hloc =>
    rw [Awake, hloc] at hawake
    obtain ⟨-, hpark, hwon, hused, hword⟩ := hawake
    cases h
    cases park with
    | true =>
      have hlive : (s.fred (.user g)).wake ≠ .closed := fun hc =>
        absurd (hpark.mpr hc) (by decide)
      refine hi.goes hcur hlife hsaved ?_ ⟨.untimed hlive (not_or.mpr ⟨hwon, hused⟩), hword⟩
      rw [FredState.queue, FredState.queue, hloc]
      rfl
    | false =>
      have hclosed := hpark.mp rfl
      rw [hclosed] at hword
      refine hi.goes hcur hlife hsaved ?_ ⟨hclosed, hword⟩
      rw [FredState.queue, FredState.queue, hloc, hclosed]
      rfl
  case h_2 q n park hloc =>
    rw [Awake, hloc] at hawake
    obtain ⟨⟨target, hkind⟩, hpark, hwon, hused, hword⟩ := hawake
    have hk : c.kind q ≠ .conditional := by
      rw [hkind]
      exact fun hn => by cases hn
    split at h
    case h_1 f rest hq =>
      obtain ⟨hmem, g', rfl⟩ := hi.head_user hq
      have hopened := User.opened (hi.legal (.user g')) hmem hk
      split at h
      case isTrue heq =>
        cases h
        rw [heq] at hmem hopened ⊢
        have hrest : rest = (s.queue q).erase (.user g) := by
          rw [hq, heq, List.erase_cons_head]
        rw [hrest]
        rw [hopened] at hword
        refine hi.relink (hi.linked.erase hmem rfl) ?_
        rw [hp]
        have hopen : Wake.closed ≠ .won false ∧ Wake.closed ≠ .used false := by decide
        exact ⟨hlife, hsaved, ⟨target, hkind⟩, iff_of_true rfl rfl, hopen.1, hopen.2, hword⟩
      case isFalse hne =>
        cases h
        have hi' : Inv c (Scheduler.pop s q (.user g') rest) place := hi.pop hq hopened
        have hg : (Scheduler.pop s q (.user g') rest).fred (.user g) = s.fred (.user g) :=
          Function.update_of_ne (Ne.symm hne) ..
        refine hi'.setFred ?_ ?_
        · rw [hg, FredState.queue, FredState.queue, hloc]
        · rw [hp]
          exact ⟨hlife, hsaved, ⟨target, hkind⟩, hpark, hwon, hused, hword⟩
    case h_2 => cases h
  case h_3 => cases h

/-- STEP: somebody wins the race of a suspension. -/
theorem Inv.raceResume (hi : Inv c s place) {g : G} (h : raceResume s g = some s') :
    Inv c s' place := by
  rw [Scheduler.raceResume] at h
  split at h
  case h_1 how hloc =>
    obtain ⟨⟨hraces, hopened⟩, h⟩ := Option.ite_none_right_eq_some.mp h
    cases h
    refine hi.setFred ?_ (User.won (hi.legal (.user g)) hopened fun _ => ⟨how, hloc, hraces⟩)
    rw [FredState.queue, FredState.queue, hloc, hopened]
    cases how <;> rfl
  case h_2 => cases h

/-- The condition on a `resume`, told by the place of the fibre. -/
theorem Inv.not_linked (hi : Inv c s place) {g : G}
    (hlate : ¬ ((s.fred (.user g)).wake = .won false ∧
      (∃ q, (s.fred (.user g)).loc = .suspending (.link q true)) ∧ ∀ w, s.pc w ≠ .exec (.user g)))
    (hwon : (s.fred (.user g)).wake = .won false)
    (hloc : ∃ q, (s.fred (.user g)).loc = .suspending (.link q true)) :
    ∃ w, place (.user g) = .exec w := by
  by_contra hnone
  refine hlate ⟨hwon, hloc, fun w hpc => hnone ⟨w, ?_⟩⟩
  exact hi.agree.pc_at w _ _ (by rw [hpc]; exact ⟨rfl, rfl⟩)

/-! ### Steps of a worker -/

/-- At most two fibres move or change. -/
theorem Inv.moved_two (hi : Inv c s place) (ha : Agree s'.pc s'.held s'.readyQueue place')
    (hq : s'.queue = s.queue) (f g : Fibre W G)
    (hf : Legal c.kind f (place' f) (s'.fred f) ∧ (s'.fred f).queue = (s.fred f).queue)
    (hg : Legal c.kind g (place' g) (s'.fred g) ∧ (s'.fred g).queue = (s.fred g).queue)
    (hother : ∀ h, h ≠ f → h ≠ g → place' h = place h ∧ s'.fred h = s.fred h) :
    Inv c s' place' := by
  refine hi.moved ha hq fun h => ?_
  by_cases hhf : h = f
  · rw [hhf]
    exact .inr hf
  · by_cases hhg : h = g
    · rw [hhg]
      exact .inr hg
    · exact .inl (hother h hhf hhg)

/-- The one fibre of a worker moves on with it. -/
theorem Inv.one (hi : Inv c s place) {w : W} {f : Fibre W G} {c' : Pc W G} {p d : Place W X}
    {r : FredState W Q} (hpc : ∀ h q, (s.pc w).At w h q ↔ h = f ∧ q = p)
    (hc : ∀ h q, c'.At w h q ↔ h = f ∧ q = d) (hq : r.queue = (s.fred f).queue)
    (hr : Legal c.kind f d r) :
    Inv c ((s.setFred f r).setPc w c') (Function.update place f d) := by
  have hfred : (Function.update s.fred f r) f = r := Function.update_self ..
  have hplace : (Function.update place f d) f = d := Function.update_self ..
  have hlegal : Legal c.kind f (Function.update place f d f) (Function.update s.fred f r f) ∧
      (Function.update s.fred f r f).queue = (s.fred f).queue := by
    rw [hfred, hplace]
    exact ⟨hr, hq⟩
  exact hi.moved_two (hi.agree.one hpc hc) rfl f f hlegal hlegal fun h hne _ =>
    ⟨Function.update_of_ne hne .., Function.update_of_ne hne ..⟩

/-- The same with nothing about the fibre changed. -/
theorem Inv.one' (hi : Inv c s place) {w : W} {f : Fibre W G} {c' : Pc W G} {p d : Place W X}
    (hpc : ∀ h q, (s.pc w).At w h q ↔ h = f ∧ q = p)
    (hc : ∀ h q, c'.At w h q ↔ h = f ∧ q = d) (hr : Legal c.kind f d (s.fred f)) :
    Inv c (s.setPc w c') (Function.update place f d) := by
  have h := hi.one hpc hc rfl hr
  rw [State.setFred, Function.update_eq_self] at h
  exact h

/-- STEP: a fibre looks for another one to switch to. -/
theorem Inv.seeks (hi : Inv c s place) {w : W} {g : G} (hfree : s.free w = some g) {goal : Goal}
    (hgoal : goal.code = .Yield ∨ goal.code = .Resume ∨ goal.code = .Terminate) {r : FredState W Q}
    (hr : r.Fresh) (hlife : r.life = .started) (hsaved : r.saved = false) :
    Inv c ((s.setFred (.user g) r).setPc w (.search (.user g) goal false))
      (Function.update place (.user g) (.leaving w goal.code)) := by
  obtain ⟨hcur, -⟩ := free_some hfree
  obtain ⟨hpc, -⟩ := current_some hcur
  obtain ⟨-, -, -, hfresh⟩ := hi.of_free hfree
  refine hi.one (p := .exec w) (fun h q => by rw [hpc]; exact Iff.rfl) (fun h q => Iff.rfl)
    (hr.queue.trans hfresh.queue.symm) ⟨hlife, hsaved, ?_⟩
  rcases hgoal with hcode | hcode | hcode
  · rw [hcode]; exact hr
  · rw [hcode]; exact hr
  · rw [hcode]; exact hr

/-- The same with nothing about the fibre changed. -/
theorem Inv.seeks' (hi : Inv c s place) {w : W} {g : G} (hfree : s.free w = some g) {goal : Goal}
    (hgoal : goal.code = .Yield ∨ goal.code = .Resume ∨ goal.code = .Terminate) :
    Inv c (s.setPc w (.search (.user g) goal false))
      (Function.update place (.user g) (.leaving w goal.code)) := by
  obtain ⟨-, hlife, hsaved, hfresh⟩ := hi.of_free hfree
  have h := hi.seeks hfree hgoal hfresh hlife hsaved
  rw [State.setFred, Function.update_eq_self] at h
  exact h

/-- STEP: one round of `suspend`. -/
theorem Inv.suspend (hi : Inv c s place) {w : W} {g : G} (hcur : s.current w = some g)
    (h : suspend s w g = some s') : ∃ place', Inv c s' place' := by
  obtain ⟨hpc, -⟩ := current_some hcur
  obtain ⟨-, hlife, hsaved, hawake⟩ := hi.of_current hcur
  rw [Scheduler.suspend] at h
  split at h
  case h_1 how hloc =>
    split at h
    case isTrue hearly =>
      cases h
      exact ⟨place, hi.skips hcur hloc hearly⟩
    case isFalse hearly =>
      cases h
      rw [Awake, hloc] at hawake
      obtain ⟨hs, hword⟩ := hawake
      refine ⟨_, hi.one' (p := .exec w) (d := .leaving w .Suspend)
        (fun h q => by rw [hpc]; exact Iff.rfl) (fun h q => Iff.rfl)
        ⟨hlife, hsaved, how, hloc, hs, hword, fun hused => ?_⟩⟩
      rw [hused] at hword
      exact absurd hword hearly
  case h_2 => cases h

/-- A fibre that has not been started is nowhere. -/
theorem Inv.of_fresh (hi : Inv c s place) {g : G} (hlife : (s.fred (.user g)).life = .fresh) :
    place (.user g) = .rest ∧ (s.fred (.user g)).Fresh ∧ (s.fred (.user g)).saved = true := by
  have hl : User c.kind (s.fred (.user g)) (place (.user g)) := hi.legal (.user g)
  have hno : ∀ {P : Prop}, ¬ ((s.fred (.user g)).life = .started ∧ P) := fun h => by
    rw [hlife] at h
    cases h.1
  cases hp : place (.user g) with
  | rest =>
    rw [hp] at hl
    rcases hl with ⟨hf, ⟨-, hsaved⟩ | hd⟩ | hs
    · exact ⟨rfl, hf, hsaved⟩
    · rw [hlife] at hd
      cases hd
    · exact absurd hs hno
  | exec w => rw [hp] at hl; exact absurd hl hno
  | arriving w => rw [hp] at hl; exact absurd hl hno
  | leaving w code => rw [hp] at hl; exact absurd hl hno
  | left w code => rw [hp] at hl; exact absurd hl hno
  | next w => rw [hp] at hl; exact absurd hl hno
  | held t => rw [hp] at hl; exact absurd hl hno
  | ready w p => rw [hp] at hl; exact absurd hl hno

/-- STEP: `start`. -/
theorem Inv.start (hi : Inv c s place) {t : W ⊕ X} {g : G} (hlife : (s.fred (.user g)).life = .fresh)
    (ht : s.held t = none) (proc : W) :
    Inv c (start s t g proc) (Function.update place (.user g) (.held t)) := by
  obtain ⟨hrest, hfresh, hsaved⟩ := hi.of_fresh hlife
  have hg : (Scheduler.start s t g proc).fred (.user g) =
      { s.fred (.user g) with life := .started, processor := proc } := Function.update_self ..
  have hnew : Legal c.kind (.user g) (Function.update place (.user g) (.held t) (.user g))
      ((Scheduler.start s t g proc).fred (.user g)) ∧
      ((Scheduler.start s t g proc).fred (.user g)).queue = (s.fred (.user g)).queue := by
    rw [Function.update_self, hg]
    exact ⟨⟨rfl, hsaved, .inl ⟨hfresh.runState, hfresh.wake, hfresh.loc⟩⟩, rfl⟩
  exact hi.moved_two (hi.agree.hold hrest ht) rfl (.user g) (.user g) hnew hnew fun h hne _ =>
    ⟨Function.update_of_ne hne .., Function.update_of_ne hne ..⟩

/-- STEP: the first fibre of a worker. -/
theorem Inv.initFred (hi : Inv c s place) {w : W} {g : G}
    (hlife : (s.fred (.user g)).life = .fresh) (hpc : s.pc w = .exec (.idle w)) :
    ∃ place', Inv c (initFred s w g) place' := by
  obtain ⟨hrest, hfresh, hsaved⟩ := hi.of_fresh hlife
  have hw : place (.idle w) = .exec w := hi.agree.pc_at w _ _ (by rw [hpc]; exact ⟨rfl, rfl⟩)
  have hne : (.idle w : Fibre W G) ≠ .user g := nofun
  have ha := hi.agree.two (c := .chosen (.idle w) .Idle (.user g)) (d := .leaving w .Idle)
    (e := .next w) hne (by rw [hw]; rfl) (.inl hrest)
    (fun h r hat => by rw [hpc] at hat; exact .inl hat.1) (fun h r hat => hat)
    (.inr (.inl ⟨rfl, rfl⟩)) (.inr ⟨rfl, rfl⟩)
  have hidle : (Scheduler.initFred s w g).fred (.idle w) = s.fred (.idle w) :=
    Function.update_of_ne hne { s.fred (.user g) with life := .started } s.fred
  have hg : (Scheduler.initFred s w g).fred (.user g) =
      { s.fred (.user g) with life := .started } := Function.update_self ..
  obtain ⟨hif, hil, -⟩ := hi.legal (.idle w)
  refine ⟨_, hi.moved_two ha rfl (.idle w) (.user g) ?_ ?_ fun h h1 h2 => ?_⟩
  · rw [Function.update_of_ne hne, Function.update_self, hidle]
    exact ⟨⟨hif, hil, rfl, rfl⟩, rfl⟩
  · rw [Function.update_self, hg]
    exact ⟨⟨rfl, hsaved, .inl ⟨hfresh.runState, hfresh.wake, hfresh.loc⟩⟩, rfl⟩
  · rw [Function.update_of_ne h2, Function.update_of_ne h1]
    exact ⟨rfl, Function.update_of_ne h2 ..⟩

/-- A fibre that runs and looks for another one goes on to the stack switch as well. -/
theorem Legal.leaving {kind : Q → Kind} {f : Fibre W G} {w : W} {code : SwitchCode}
    {r : FredState W Q} (h : Legal kind f (.leaving w code : Place W X) r) :
    (∃ v, f = .idle v ∧ w = v ∧ code = .Idle ∧ r.Fresh ∧ r.life = .started) ∨
    ∃ g, f = .user g ∧ code ≠ .Idle := by
  cases f with
  | idle v => exact .inl ⟨v, rfl, h.2.2.1, h.2.2.2, h.1, h.2.1⟩
  | user g =>
    refine .inr ⟨g, rfl, ?_⟩
    rintro rfl
    exact h.2.2

/-- STEP: a search finds a fibre in a ready queue, and takes it along with `r` as it then is. -/
theorem Inv.finds (hi : Inv c s place) {w v : W} {p : Priority} {f g : Fibre W G} {goal : Goal}
    {steal : Bool} {rest : List (Fibre W G)} {r : FredState W Q} (hpc : s.pc w = .search f goal steal)
    (hq : s.readyQueue v p = g :: rest) (hr : ∀ place : Place W X,
      Legal c.kind g place (s.fred g) → Legal c.kind g place r) (hqueue : r.queue = (s.fred g).queue) :
    ∃ place', Inv c (((s.setReady v p rest).setFred g r).setPc w (.chosen f goal.code g)) place' := by
  have hf : place f = .leaving w goal.code :=
    hi.agree.pc_at w _ _ (by rw [hpc]; exact ⟨rfl, rfl⟩)
  have hg : place g = .ready v p :=
    (hi.agree.queued v p g).mp (by rw [hq]; exact List.mem_cons_self ..)
  have hne : f ≠ g := by
    rintro rfl
    rw [hf] at hg
    cases hg
  have hf' : Function.update place g .rest f = .leaving w goal.code := by
    rw [Function.update_of_ne hne, hf]
  have ha := (hi.agree.take hq).two (c := .chosen f goal.code g) (d := .leaving w goal.code)
    (e := .next w) hne (by rw [hf']; rfl) (.inl (Function.update_self ..))
    (fun h r hat => by rw [hpc] at hat; exact .inl hat.1) (fun h r hat => hat)
    (.inr (.inl ⟨rfl, rfl⟩)) (.inr ⟨rfl, rfl⟩)
  have hlegal := hi.legal g
  rw [hg] at hlegal
  refine ⟨_, hi.moved_two ha rfl f g ?_ ?_ fun h h1 h2 => ?_⟩
  · have hfred : (Function.update s.fred g r) f = s.fred f := Function.update_of_ne hne ..
    show Legal c.kind f _ (Function.update s.fred g r f) ∧ _
    rw [Function.update_of_ne hne, Function.update_self, hfred, ← hf]
    exact ⟨hi.legal f, congrArg _ hfred⟩
  · have hfred : (Function.update s.fred g r) g = r := Function.update_self ..
    show Legal c.kind g _ (Function.update s.fred g r g) ∧ (Function.update s.fred g r g).queue = _
    rw [Function.update_self, hfred]
    refine ⟨?_, hqueue⟩
    have hready := hr _ hlegal
    cases g with
    | idle u => exact hready.2.2.elim
    | user g => exact hready
  · rw [Function.update_of_ne h2, Function.update_of_ne h1, Function.update_of_ne h2]
    exact ⟨rfl, Function.update_of_ne h2 ..⟩

/-- Processor, priority and affinity of a fibre make no difference. -/
theorem Legal.congr {kind : Q → Kind} {f : Fibre W G} {p : Place W X} {r : FredState W Q}
    (h : Legal kind f p r) (proc : W) (pri : Priority) (aff : Bool) :
    Legal kind f p { r with processor := proc, priority := pri, affinity := aff } := by
  cases f with
  | idle v => exact ⟨⟨h.1.runState, h.1.wake, h.1.loc⟩, h.2⟩
  | user g =>
    have hf : r.Fresh → FredState.Fresh
        { r with processor := proc, priority := pri, affinity := aff } :=
      fun hf => ⟨hf.runState, hf.wake, hf.loc⟩
    have hl : ∀ code, Leaving kind r code → Leaving kind
        { r with processor := proc, priority := pri, affinity := aff } code := by
      intro code hl
      cases code with
      | Idle => exact hl
      | Suspend => exact hl
      | Yield => exact hf hl
      | Resume => exact hf hl
      | Terminate => exact hf hl
    cases p with
    | rest => exact h.imp_left fun hr => ⟨hf hr.1, hr.2⟩
    | exec w => exact h
    | arriving w => exact h
    | leaving w code => exact ⟨h.1, h.2.1, hl code h.2.2⟩
    | left w code => exact ⟨h.1, h.2.1, hl code h.2.2⟩
    | next w => exact ⟨h.1, h.2.1, h.2.2.imp_left hf⟩
    | held t => exact ⟨h.1, h.2.1, h.2.2.imp_left hf⟩
    | ready w p => exact ⟨h.1, h.2.1, h.2.2.imp_left hf⟩

/-- `checkAffinity` touches only the processor. -/
theorem Legal.checkAffinity {kind : Q → Kind} {f : Fibre W G} {p : Place W X} {r : FredState W Q}
    (h : Legal kind f p r) (w : W) : Legal kind f p (checkAffinity r w) := by
  rw [Scheduler.checkAffinity]
  split
  · exact h
  · exact h.congr w r.priority r.affinity

theorem checkAffinity_queue (r : FredState W Q) (w : W) : (checkAffinity r w).queue = r.queue := by
  rw [checkAffinity]
  split <;> rfl

/-- The idle fibre of a worker that runs another one is nowhere. -/
theorem Inv.idle_rest (hi : Inv c s place) {w : W} (hother : ∀ p : Place W X,
    ¬ (s.pc w).At w (.idle w) p) : place (.idle w) = .rest := by
  obtain ⟨-, -, hplace⟩ := hi.legal (.idle w)
  have hno : (place (.idle w)).worker ≠ some w := fun hw => hother _ (hi.agree.at_pc w _ hw)
  cases hp : place (.idle w) with
  | rest => rfl
  | exec v =>
    rw [hp] at hplace hno
    exact absurd (congrArg some hplace) hno
  | arriving v =>
    rw [hp] at hplace hno
    exact absurd (congrArg some hplace) hno
  | next v =>
    rw [hp] at hplace hno
    exact absurd (congrArg some hplace) hno
  | leaving v code =>
    rw [hp] at hplace hno
    exact absurd (congrArg some hplace.1) hno
  | left v code =>
    rw [hp] at hplace hno
    exact absurd (congrArg some hplace.1) hno
  | held t => rw [hp] at hplace; exact hplace.elim
  | ready v p => rw [hp] at hplace; exact hplace.elim

/-- `scheduleFull` falls back on the idle fibre. -/
theorem Inv.fallsBack (hi : Inv c s place) {w : W} {f : Fibre W G} {goal : Goal} {steal : Bool}
    (hpc : s.pc w = .search f goal steal) (hgoal : goal.code ≠ .Idle) :
    ∃ place', Inv c (s.setPc w (.chosen f goal.code (.idle w))) place' := by
  have hf : place f = .leaving w goal.code :=
    hi.agree.pc_at w _ _ (by rw [hpc]; exact ⟨rfl, rfl⟩)
  have hlegal := hi.legal f
  rw [hf] at hlegal
  have hne : f ≠ .idle w := by
    rintro rfl
    exact hgoal hlegal.2.2.2
  have hrest : place (.idle w) = .rest := hi.idle_rest fun p hat => by
    rw [hpc] at hat
    exact hne hat.1.symm
  have ha := hi.agree.two (c := .chosen f goal.code (.idle w)) (d := .leaving w goal.code)
    (e := .next w) hne (by rw [hf]; rfl) (.inl hrest)
    (fun h r hat => by rw [hpc] at hat; exact .inl hat.1) (fun h r hat => hat)
    (.inr (.inl ⟨rfl, rfl⟩)) (.inr ⟨rfl, rfl⟩)
  obtain ⟨hif, hil, -⟩ := hi.legal (.idle w)
  refine ⟨_, hi.moved_two ha rfl f (.idle w) ⟨?_, rfl⟩ ⟨?_, rfl⟩ fun h h1 h2 => ⟨?_, rfl⟩⟩
  · rw [Function.update_of_ne hne, Function.update_self]
    exact hlegal
  · rw [Function.update_self]
    exact ⟨hif, hil, rfl⟩
  · rw [Function.update_of_ne h2, Function.update_of_ne h1]

/-- A worker searches on, with the same code or none of its own. -/
theorem Inv.searchesOn (hi : Inv c s place) {w : W} {f : Fibre W G} {goal goal' : Goal}
    {steal steal' : Bool} (hpc : s.pc w = .search f goal steal)
    (hcode : goal'.code = goal.code ∨ goal.code = .Yield ∧ goal'.code = .Resume) :
    ∃ place', Inv c (s.setPc w (.search f goal' steal')) place' := by
  have hf : place f = .leaving w goal.code :=
    hi.agree.pc_at w _ _ (by rw [hpc]; exact ⟨rfl, rfl⟩)
  have hlegal := hi.legal f
  rw [hf] at hlegal
  refine ⟨_, hi.one' (p := .leaving w goal.code) (d := .leaving w goal'.code)
    (fun h q => by rw [hpc]; exact Iff.rfl) (fun h q => Iff.rfl) ?_⟩
  rcases hcode with hsame | ⟨hyield, hresume⟩
  · rw [hsame]
    exact hlegal
  · rw [hyield] at hlegal
    rw [hresume]
    cases f with
    | idle v => exact absurd hlegal.2.2.2 nofun
    | user g => exact hlegal

/-- A fibre that has found nobody to yield to goes on. -/
theorem Inv.staysOn (hi : Inv c s place) {w : W} {f : Fibre W G} {goal : Goal} {steal : Bool}
    (hpc : s.pc w = .search f goal steal) (hcode : goal.code = .Yield) :
    ∃ place', Inv c (s.setPc w (.exec f)) place' := by
  have hf : place f = .leaving w goal.code :=
    hi.agree.pc_at w _ _ (by rw [hpc]; exact ⟨rfl, rfl⟩)
  have hlegal := hi.legal f
  rw [hf, hcode] at hlegal
  refine ⟨_, hi.one' (p := .leaving w goal.code) (d := .exec w)
    (fun h q => by rw [hpc]; exact Iff.rfl) (fun h q => Iff.rfl) ?_⟩
  cases f with
  | idle v => exact absurd hlegal.2.2.2 nofun
  | user g => exact ⟨hlegal.1, hlegal.2.1, FredState.Fresh.awake hlegal.2.2⟩

/-- STEP: a search that has found nothing. -/
theorem Inv.searchFails (hi : Inv c s place) {w : W} {f : Fibre W G} {goal : Goal} {steal : Bool}
    (hpc : s.pc w = .search f goal steal) :
    ∃ place', Inv c (s.setPc w (searchFails w f goal steal)) place' := by
  cases goal with
  | idle => exact hi.searchesOn hpc (.inl rfl)
  | yield => exact hi.staysOn hpc rfl
  | yieldGlobal =>
    cases steal with
    | false => exact hi.searchesOn hpc (.inl rfl)
    | true => exact hi.staysOn hpc rfl
  | migrate =>
    cases steal with
    | false => exact hi.searchesOn hpc (.inl rfl)
    | true => exact hi.searchesOn hpc (.inr ⟨rfl, rfl⟩)
  | resume =>
    cases steal with
    | false => exact hi.searchesOn hpc (.inl rfl)
    | true => exact hi.fallsBack hpc nofun
  | suspend =>
    cases steal with
    | false => exact hi.searchesOn hpc (.inl rfl)
    | true => exact hi.fallsBack hpc nofun
  | terminate =>
    cases steal with
    | false => exact hi.searchesOn hpc (.inl rfl)
    | true => exact hi.fallsBack hpc nofun

/-- The stack of a fibre that waits to be run comes into use. -/
theorem Legal.activate {kind : Q → Kind} {g : Fibre W G} {w : W} {r : FredState W Q}
    (h : Legal kind g (.next w : Place W X) r) :
    Legal kind g (.arriving w : Place W X) (activate r) ∧ (activate r).queue = r.queue := by
  have hfresh : r.Fresh → (Scheduler.activate r).Fresh := fun hf =>
    ⟨hf.runState, hf.wake, by rw [Scheduler.activate, hf.loc]⟩
  cases g with
  | idle v =>
    obtain ⟨hf, hlife, hv⟩ := h
    exact ⟨⟨hfresh hf, hlife, hv⟩, (hfresh hf).queue.trans hf.queue.symm⟩
  | user g =>
    obtain ⟨hlife, -, hrun⟩ := h
    refine ⟨⟨hlife, rfl, ?_⟩, ?_⟩
    · rcases hrun with hf | ⟨hrun, how, b, hloc, hused, hs, -⟩
      · exact (hfresh hf).awake
      · rw [Awake, Scheduler.activate, hloc]
        exact ⟨hs, ⟨b, hused⟩, hrun⟩
    · rw [hrun.queue]
      rcases hrun with hf | ⟨-, how, b, hloc, hused, -, hrace⟩
      · exact (hfresh hf).queue
      · rw [FredState.queue, Scheduler.activate, hloc, hused]
        cases how with
        | race => rfl
        | link q timed =>
          cases b with
          | true => rfl
          | false => exact absurd (hrace rfl) fun hn => by cases hn

/-- STEP: the stack switch. -/
theorem Inv.stackSwitch (hi : Inv c s place) {w : W} {f g : Fibre W G} {code : SwitchCode}
    (hpc : s.pc w = .chosen f code g) : ∃ place', Inv c (stackSwitch s w f code g) place' := by
  have hf : place f = .leaving w code :=
    hi.agree.pc_at w _ _ (by rw [hpc]; exact .inl ⟨rfl, rfl⟩)
  have hg : place g = .next w := hi.agree.pc_at w _ _ (by rw [hpc]; exact .inr ⟨rfl, rfl⟩)
  have hne : f ≠ g := by
    rintro rfl
    rw [hf] at hg
    cases hg
  have ha := hi.agree.two (c := .post f code g) (d := .left w code) (e := .arriving w) hne
    (by rw [hf]; rfl) (.inr (by rw [hg]; rfl))
    (fun h r hat => by rw [hpc] at hat; exact hat.imp And.left And.left) (fun h r hat => hat)
    (.inr (.inl ⟨rfl, rfl⟩)) (.inr ⟨rfl, rfl⟩)
  have hlf := hi.legal f
  have hlg := hi.legal g
  rw [hf] at hlf
  rw [hg] at hlg
  obtain ⟨hactive, hqueue⟩ := hlg.activate
  have hsf : (Scheduler.stackSwitch s w f code g).fred f = { s.fred f with saved := true } := by
    show Function.update (Function.update s.fred f _) g _ f = _
    rw [Function.update_of_ne hne, Function.update_self]
  have hsg : (Scheduler.stackSwitch s w f code g).fred g = activate (s.fred g) :=
    Function.update_self ..
  refine ⟨_, hi.moved_two ha rfl f g ?_ ?_ fun h h1 h2 => ⟨?_, ?_⟩⟩
  · rw [Function.update_of_ne hne, Function.update_self, hsf]
    refine ⟨?_, rfl⟩
    cases f with
    | idle v => exact ⟨⟨hlf.1.runState, hlf.1.wake, hlf.1.loc⟩, hlf.2.1, hlf.2.2⟩
    | user g' =>
      obtain ⟨hlife, -, hl⟩ := hlf
      refine ⟨hlife, rfl, ?_⟩
      cases code with
      | Idle => exact hl
      | Suspend => exact hl
      | Yield => exact ⟨hl.runState, hl.wake, hl.loc⟩
      | Resume => exact ⟨hl.runState, hl.wake, hl.loc⟩
      | Terminate => exact ⟨hl.runState, hl.wake, hl.loc⟩
  · rw [Function.update_self, hsg]
    exact ⟨hactive, hqueue⟩
  · rw [Function.update_of_ne h2, Function.update_of_ne h1]
  · show Function.update (Function.update s.fred f _) g _ h = _
    rw [Function.update_of_ne h2, Function.update_of_ne h1]

/-- A fibre whose callback is over runs. -/
theorem Legal.arrived {kind : Q → Kind} {g : Fibre W G} {w : W} {r : FredState W Q}
    (h : Legal kind g (.arriving w : Place W X) r) : Legal kind g (.exec w : Place W X) r := by
  cases g with
  | idle v => exact h
  | user g => exact h

/-- The fibre that a callback is about is left behind, and the other one runs. -/
theorem Inv.parting (hi : Inv c s place) {w : W} {f g : Fibre W G} {code : SwitchCode}
    (hpc : s.pc w = .post f code g) :
    f ≠ g ∧
      Agree (Function.update s.pc w (.exec g)) s.held s.readyQueue
        (Function.update (Function.update place f .rest) g (.exec w)) ∧
      Legal c.kind g (.exec w : Place W X) (s.fred g) := by
  have hf : place f = .left w code := hi.agree.pc_at w _ _ (by rw [hpc]; exact .inl ⟨rfl, rfl⟩)
  have hg : place g = .arriving w := hi.agree.pc_at w _ _ (by rw [hpc]; exact .inr ⟨rfl, rfl⟩)
  have hne : f ≠ g := by
    rintro rfl
    rw [hf] at hg
    cases hg
  have hlg := hi.legal g
  rw [hg] at hlg
  refine ⟨hne, ?_, hlg.arrived⟩
  exact hi.agree.two hne (by rw [hf]; rfl) (.inr (by rw [hg]; rfl))
    (fun h r hat => by rw [hpc] at hat; exact hat.imp And.left And.left)
    (fun h r hat => .inr hat) (.inl rfl) ⟨rfl, rfl⟩

/-- STEP: the callback that leaves the fibre alone, parks it or destroys it, with `r` as the fibre then
    is. -/
theorem Inv.lays (hi : Inv c s place) {w : W} {f g : Fibre W G} {code : SwitchCode}
    {r : FredState W Q} (hpc : s.pc w = .post f code g)
    (hr : Legal c.kind f (.rest : Place W X) r) (hq : r.queue = (s.fred f).queue) :
    ∃ place', Inv c ((s.setPc w (.exec g)).setFred f r) place' := by
  obtain ⟨hne, ha, hlg⟩ := hi.parting hpc
  have hsf : ((s.setPc w (.exec g)).setFred f r).fred f = r := Function.update_self ..
  have hother : ∀ h, h ≠ f → ((s.setPc w (.exec g)).setFred f r).fred h = s.fred h :=
    fun h hh => Function.update_of_ne hh ..
  refine ⟨_, hi.moved_two ha rfl f g ?_ ?_ fun h h1 h2 => ⟨?_, hother h h1⟩⟩
  · rw [Function.update_of_ne hne, Function.update_self, hsf]
    exact ⟨hr, hq⟩
  · rw [Function.update_self, hother g hne.symm]
    exact ⟨hlg, rfl⟩
  · rw [Function.update_of_ne h2, Function.update_of_ne h1]

/-- STEP: the callback that takes the fibre in hand to enqueue it. -/
theorem Inv.takes (hi : Inv c s place) {w : W} {f g : Fibre W G} {code : SwitchCode}
    {r : FredState W Q} (hpc : s.pc w = .post f code g) (hheld : s.held (.inl w) = none)
    (hr : Legal c.kind f (.held (.inl w) : Place W X) r) (hq : r.queue = (s.fred f).queue) :
    ∃ place', Inv c (((s.setPc w (.exec g)).setFred f r).hold (.inl w) f) place' := by
  obtain ⟨hne, ha, hlg⟩ := hi.parting hpc
  have ha' := ha.hold (t := .inl w) (f := f)
    (by rw [Function.update_of_ne hne, Function.update_self]) hheld
  have hsf : (((s.setPc w (.exec g)).setFred f r).hold (.inl w) f).fred f = r :=
    Function.update_self ..
  have hother : ∀ h, h ≠ f →
      (((s.setPc w (.exec g)).setFred f r).hold (.inl w) f).fred h = s.fred h :=
    fun h hh => Function.update_of_ne hh ..
  refine ⟨_, hi.moved_two ha' rfl f g ?_ ?_ fun h h1 h2 => ⟨?_, hother h h1⟩⟩
  · rw [Function.update_self, hsf]
    exact ⟨hr, hq⟩
  · rw [Function.update_of_ne hne.symm, Function.update_self, hother g hne.symm]
    exact ⟨hlg, rfl⟩
  · rw [Function.update_of_ne h1, Function.update_of_ne h2, Function.update_of_ne h1]

/-- STEP: the callbacks. -/
theorem Inv.post (hi : Inv c s place) {w : W} {f g : Fibre W G} {code : SwitchCode}
    (hpc : s.pc w = .post f code g) (hheld : s.held (.inl w) = none) :
    ∃ place', Inv c (post s w f g code) place' := by
  have hf : place f = .left w code := hi.agree.pc_at w _ _ (by rw [hpc]; exact .inl ⟨rfl, rfl⟩)
  have hlf := hi.legal f
  rw [hf] at hlf
  have hsame : (s.setPc w (.exec g)).setFred f (s.fred f) = s.setPc w (.exec g) := by
    rw [State.setFred]
    exact congrArg (fun fred => { s.setPc w (.exec g) with fred := fred })
      (Function.update_eq_self f s.fred)
  cases code with
  | Idle =>
    rw [Scheduler.post, ← hsame]
    cases f with
    | idle v => exact hi.lays hpc ⟨hlf.1, hlf.2.1, trivial⟩ rfl
    | user g' => exact hlf.2.2.elim
  | Yield =>
    rw [Scheduler.post, ← hsame]
    cases f with
    | idle v => exact absurd hlf.2.2.2 nofun
    | user g' => exact hi.takes hpc hheld ⟨hlf.1, hlf.2.1, .inl hlf.2.2⟩ rfl
  | Resume =>
    rw [Scheduler.post, ← hsame]
    cases f with
    | idle v => exact absurd hlf.2.2.2 nofun
    | user g' => exact hi.takes hpc hheld ⟨hlf.1, hlf.2.1, .inl hlf.2.2⟩ rfl
  | Terminate =>
    rw [Scheduler.post]
    cases f with
    | idle v => exact absurd hlf.2.2.2 nofun
    | user g' =>
      obtain ⟨-, -, hf⟩ := hlf
      exact hi.lays hpc (.inl ⟨⟨hf.runState, hf.wake, hf.loc⟩, .inr rfl⟩) rfl
  | Suspend =>
    cases f with
    | idle v => exact absurd hlf.2.2.2 nofun
    | user g' =>
      obtain ⟨hlife, hsaved, how, hloc, hs, hword, hrace⟩ := hlf
      rw [Scheduler.post]
      dsimp only
      split
      case isTrue hearly =>
        rw [hearly] at hword
        have hused : ∃ b, (s.fred (.user g')).wake = .used b := by
          cases hwake : (s.fred (.user g')).wake with
          | used b => exact ⟨b, rfl⟩
          | _ => rw [hwake] at hword; cases hword
        obtain ⟨b, hused⟩ := hused
        refine hi.takes hpc hheld ⟨hlife, hsaved, .inr ⟨?_, how, b, hloc, hused, hs, ?_⟩⟩
          (queue_congr rfl rfl)
        · show fetchSub (s.fred (.user g')).runState = Running
          rw [hearly]
          rfl
        · rintro rfl
          exact hrace hused
      case isFalse hearly =>
        have hnot : ∀ b, (s.fred (.user g')).wake ≠ .used b := by
          intro b hused
          rw [hused] at hword
          exact hearly hword
        have hrun : (s.fred (.user g')).runState = Running := by
          rw [hword]
          cases hwake : (s.fred (.user g')).wake with
          | used b => exact absurd hwake (hnot b)
          | _ => rfl
        refine hi.lays hpc (.inr ⟨hlife, hsaved, ?_, how, hloc, hs, hnot⟩) (queue_congr rfl rfl)
        show fetchSub (s.fred (.user g')).runState = Parked
        rw [hrun]
        rfl

/-- STEP: a fibre is put into the ready queue of its processor. -/
theorem Inv.enqueue (hi : Inv c s place) {t : W ⊕ X} {f : Fibre W G} (ht : s.held t = some f) :
    ∃ place', Inv c (enqueue s t f) place' := by
  have hf : place f = .held t := (hi.agree.holds t f).mp ht
  have hlf := hi.legal f
  rw [hf] at hlf
  refine ⟨_, hi.moved_two (hi.agree.put ht (s.fred f).processor (s.fred f).priority) rfl f f ?_ ?_
    fun h hh _ => ⟨Function.update_of_ne hh .., rfl⟩⟩
  all_goals
    rw [Function.update_self]
    refine ⟨?_, rfl⟩
    cases f with
    | idle v => exact hlf.2.2.elim
    | user g => exact hlf

/-- STEP: `resume`. -/
theorem Inv.resume (hi : Inv c s place) {t : W ⊕ X} {g : G} {popped : Bool}
    (hwon : (s.fred (.user g)).wake = .won popped) (ht : s.held t = none)
    (hlate : ¬ ResumesLinked s (.resume t g)) : ∃ place', Inv c (resume s t g popped) place' := by
  have hg : (s.setFred (.user g) (resumed (s.fred (.user g)) popped)).fred (.user g) =
      resumed (s.fred (.user g)) popped := Function.update_self ..
  rw [Scheduler.resume]
  rcases User.resumed (hi.legal (.user g)) hwon fun hw hloc => hi.not_linked hlate hw hloc with
    ⟨hparked, hrest, hlife, hsaved, hrun⟩ | ⟨hparked, hlegal⟩
  · rw [if_pos hparked]
    have hnew : Legal c.kind (.user g) (Function.update place (.user g) (.held t) (.user g))
        ((s.setFred (.user g) (resumed (s.fred (.user g)) popped)).fred (.user g)) ∧
        ((s.setFred (.user g) (resumed (s.fred (.user g)) popped)).fred (.user g)).queue =
          (s.fred (.user g)).queue := by
      rw [Function.update_self, hg]
      exact ⟨⟨hlife, hsaved, hrun⟩, resumed_queue hwon⟩
    exact ⟨_, hi.moved_two (hi.agree.hold hrest ht) rfl (.user g) (.user g) hnew hnew fun h hh _ =>
      ⟨Function.update_of_ne hh .., Function.update_of_ne hh ..⟩⟩
  · rw [if_neg hparked]
    exact ⟨place, hi.setFred (resumed_queue hwon) hlegal⟩

/-- STEP: `resume` with a direct switch. -/
theorem Inv.resumeDirect (hi : Inv c s place) {w : W} {h g : G} {popped : Bool}
    (hfree : s.free w = some h) (hwon : (s.fred (.user g)).wake = .won popped)
    (hlate : ¬ ResumesLinked s (.resumeDirect w g)) :
    ∃ place', Inv c (resumeDirect s w h g popped) place' := by
  obtain ⟨hp, hlife', hsaved', hfresh⟩ := hi.of_free hfree
  obtain ⟨hpc, -⟩ := current_some (free_some hfree).1
  have hg : (s.setFred (.user g) (resumed (s.fred (.user g)) popped)).fred (.user g) =
      resumed (s.fred (.user g)) popped := Function.update_self ..
  rw [Scheduler.resumeDirect]
  rcases User.resumed (hi.legal (.user g)) hwon fun hw hloc => hi.not_linked hlate hw hloc with
    ⟨hparked, hrest, hlife, hsaved, hrun⟩ | ⟨hparked, hlegal⟩
  · rw [if_pos hparked]
    have hne : (.user h : Fibre W G) ≠ .user g := by
      intro heq
      rw [heq, hrest] at hp
      cases hp
    have ha := hi.agree.two (c := .chosen (.user h) .Resume (.user g)) (d := .leaving w .Resume)
      (e := .next w) hne (by rw [hp]; rfl) (.inl hrest)
      (fun h r hat => by rw [hpc] at hat; exact .inl hat.1) (fun h r hat => hat)
      (.inr (.inl ⟨rfl, rfl⟩)) (.inr ⟨rfl, rfl⟩)
    have hh : (s.setFred (.user g) (resumed (s.fred (.user g)) popped)).fred (.user h) =
        s.fred (.user h) := Function.update_of_ne hne ..
    refine ⟨_, hi.moved_two ha rfl (.user h) (.user g) ?_ ?_ fun k h1 h2 => ⟨?_, ?_⟩⟩
    · rw [Function.update_of_ne hne, Function.update_self]
      show Legal c.kind _ _ ((s.setFred (.user g) (resumed (s.fred (.user g)) popped)).fred
        (.user h)) ∧ ((s.setFred (.user g) (resumed (s.fred (.user g)) popped)).fred
        (.user h)).queue = _
      rw [hh]
      exact ⟨⟨hlife', hsaved', hfresh⟩, rfl⟩
    · rw [Function.update_self]
      show Legal c.kind _ _ ((s.setFred (.user g) (resumed (s.fred (.user g)) popped)).fred
        (.user g)) ∧ ((s.setFred (.user g) (resumed (s.fred (.user g)) popped)).fred
        (.user g)).queue = _
      rw [hg]
      exact ⟨⟨hlife, hsaved, hrun⟩, resumed_queue hwon⟩
    · rw [Function.update_of_ne h2, Function.update_of_ne h1]
    · exact Function.update_of_ne h2 ..
  · rw [if_neg hparked]
    exact ⟨place, hi.setFred (resumed_queue hwon) hlegal⟩

/-- STEP: `scheduleIdle`. -/
theorem Inv.idle (hi : Inv c s place) {w : W} (hpc : s.pc w = .exec (.idle w)) :
    ∃ place', Inv c (s.setPc w (.search (.idle w) .idle false)) place' := by
  obtain ⟨hf, hlife, -⟩ := hi.legal (.idle w)
  exact ⟨_, hi.one' (p := .exec w) (d := .leaving w .Idle) (fun h q => by rw [hpc]; exact Iff.rfl)
    (fun h q => Iff.rfl) ⟨hf, hlife, rfl, rfl⟩⟩

/-- STEP: a worker searches its own ready queue, or another one's. -/
theorem Inv.searches (hi : Inv c s place) {a : Action W X G Q} {w v : W} {p : Priority}
    (ha : a = .searchLocal w p ∨ a = .searchSteal w v p) (h : step c s a = some s') :
    ∃ place', Inv c s' place' := by
  rcases ha with rfl | rfl
  · rw [Scheduler.step] at h
    split at h
    case h_1 f goal g rest hpc hq =>
      obtain ⟨-, h⟩ := Option.ite_none_right_eq_some.mp h
      cases h
      have hfinds := hi.finds (r := s.fred g) hpc hq (fun _ hl => hl) rfl
      rw [State.setFred, show (s.setReady w p rest).fred = s.fred from rfl,
        Function.update_eq_self] at hfinds
      exact hfinds
    case h_2 => cases h
  · rw [Scheduler.step] at h
    split at h
    case h_1 f goal g rest hpc hq =>
      obtain ⟨-, h⟩ := Option.ite_none_right_eq_some.mp h
      cases h
      exact hi.finds hpc hq (fun _ hl => hl.checkAffinity w) (checkAffinity_queue _ w)
    case h_2 => cases h

/-- STEP: a fibre blocks in one of the queues. -/
theorem Inv.blocks (hi : Inv c s place) (timed : Bool) {a : Action W X G Q} {w : W} {q : Q}
    (ha : a = .semaphoreP w q ∨ a = .barrierWait w q ∨ a = .block w q timed)
    (h : step c s a = some s') : ∃ place', Inv c s' place' := by
  rcases ha with rfl | rfl | rfl
  · obtain ⟨-, h⟩ := Option.ite_none_right_eq_some.mp h
    obtain ⟨g, hfree, rfl⟩ := Option.map_eq_some_iff.mp h
    obtain ⟨-, -, -, hfresh⟩ := hi.of_free hfree
    exact ⟨place, hi.push hfree rfl ⟨⟨nofun, nofun, nofun⟩, hfresh.runState⟩⟩
  · rw [Scheduler.step] at h
    split at h
    case h_1 =>
      obtain ⟨g, hfree, rfl⟩ := Option.map_eq_some_iff.mp h
      obtain ⟨-, -, -, hfresh⟩ := hi.of_free hfree
      exact ⟨place, hi.push hfree rfl ⟨⟨nofun, nofun, nofun⟩, nofun, nofun, hfresh.runState⟩⟩
    case h_2 => cases h
  · obtain ⟨hkind, h⟩ := Option.ite_none_right_eq_some.mp h
    obtain ⟨g, hfree, rfl⟩ := Option.map_eq_some_iff.mp h
    obtain ⟨-, -, -, hfresh⟩ := hi.of_free hfree
    refine ⟨place, hi.push hfree rfl ⟨⟨nofun, fun p hp => ?_, nofun⟩, nofun, nofun,
      hfresh.runState⟩⟩
    cases hp
    exact hkind

/-- STEP: the first fibre of a queue is popped. -/
theorem Inv.pops (hi : Inv c s place) {a : Action W X G Q} {q : Q}
    (ha : a = .semaphoreV q ∨ a = .unblock q) (h : step c s a = some s') :
    ∃ place', Inv c s' place' := by
  rcases ha with rfl | rfl
  · rw [Scheduler.step] at h
    split at h
    case h_1 f rest hkind hq =>
      cases h
      obtain ⟨hmem, g, rfl⟩ := hi.head_user hq
      have hopened := User.opened (hi.legal (.user g)) hmem (by rw [hkind]; nofun)
      exact ⟨place, hi.pop hq hopened⟩
    case h_2 => cases h
  · rw [Scheduler.step] at h
    split at h
    case h_1 f rest hkind hq =>
      obtain ⟨hopened, h⟩ := Option.ite_none_right_eq_some.mp h
      cases h
      exact ⟨place, hi.pop hq hopened⟩
    case h_2 => cases h

/-- STEP: every step that resumes no linked fibre keeps the invariant. -/
theorem Inv.step (hi : Inv c s place) {a : Action W X G Q} (hok : ¬ ResumesLinked s a)
    (h : step c s a = some s') : ∃ place', Inv c s' place' := by
  cases a with
  | start t g proc =>
    obtain ⟨⟨hlife, ht, -⟩, h⟩ := Option.ite_none_right_eq_some.mp h
    cases h
    exact ⟨_, hi.start hlife ht proc⟩
  | initFred w g =>
    obtain ⟨⟨hlife, -, hpc⟩, h⟩ := Option.ite_none_right_eq_some.mp h
    cases h
    exact hi.initFred hlife hpc
  | idle w =>
    obtain ⟨⟨-, hpc⟩, h⟩ := Option.ite_none_right_eq_some.mp h
    cases h
    exact hi.idle hpc
  | yield w =>
    obtain ⟨g, hfree, rfl⟩ := Option.map_eq_some_iff.mp h
    exact ⟨_, hi.seeks' hfree (.inl rfl)⟩
  | yieldGlobal w =>
    obtain ⟨g, hfree, rfl⟩ := Option.map_eq_some_iff.mp h
    exact ⟨_, hi.seeks' hfree (.inl rfl)⟩
  | terminate w =>
    obtain ⟨g, hfree, rfl⟩ := Option.map_eq_some_iff.mp h
    exact ⟨_, hi.seeks' hfree (.inr (.inr rfl))⟩
  | migrate w proc =>
    obtain ⟨g, hfree, rfl⟩ := Option.map_eq_some_iff.mp h
    obtain ⟨-, hlife, hsaved, hf⟩ := hi.of_free hfree
    rw [migrate]
    split
    · exact ⟨_, hi.seeks hfree (.inl rfl) ⟨hf.runState, hf.wake, hf.loc⟩ hlife hsaved⟩
    · exact ⟨_, hi.seeks hfree (.inr (.inl rfl)) ⟨hf.runState, hf.wake, hf.loc⟩ hlife hsaved⟩
  | setPriority f p =>
    cases h
    exact ⟨place, hi.setFred rfl ((hi.legal f).congr (s.fred f).processor p (s.fred f).affinity)⟩
  | setAffinity f a =>
    cases h
    exact ⟨place, hi.setFred rfl ((hi.legal f).congr (s.fred f).processor (s.fred f).priority a)⟩
  | prepareRace w =>
    obtain ⟨g, hfree, rfl⟩ := Option.map_eq_some_iff.mp h
    obtain ⟨-, hlife, hsaved, hf⟩ := hi.of_free hfree
    refine ⟨place, hi.goes (free_some hfree).1 hlife hsaved ?_ ⟨⟨nofun, nofun, nofun⟩, hf.runState⟩⟩
    rw [hf.queue]
    rfl
  | suspend w =>
    obtain ⟨g, hcur, h⟩ := Option.bind_eq_some_iff.mp h
    exact hi.suspend hcur h
  | resumeInfo w =>
    obtain ⟨g, hcur, h⟩ := Option.bind_eq_some_iff.mp h
    exact ⟨place, hi.resumeInfo hcur h⟩
  | searchLocal w p => exact hi.searches (v := w) (.inl rfl) h
  | searchSteal w victim p => exact hi.searches (.inr rfl) h
  | searchFails w =>
    rw [Scheduler.step] at h
    split at h
    case h_1 f goal steal hpc =>
      obtain ⟨-, h⟩ := Option.ite_none_right_eq_some.mp h
      cases h
      exact hi.searchFails hpc
    case h_2 => cases h
  | stackSwitch w =>
    rw [Scheduler.step] at h
    split at h
    case h_1 f code g hpc =>
      obtain ⟨-, h⟩ := Option.ite_none_right_eq_some.mp h
      cases h
      exact hi.stackSwitch hpc
    case h_2 => cases h
  | post w =>
    rw [Scheduler.step] at h
    split at h
    case h_1 f code g hpc =>
      obtain ⟨hheld, h⟩ := Option.ite_none_right_eq_some.mp h
      cases h
      exact hi.post hpc hheld
    case h_2 => cases h
  | enqueue t =>
    obtain ⟨f, ht, rfl⟩ := Option.map_eq_some_iff.mp h
    exact hi.enqueue ht
  | raceResume g => exact ⟨place, hi.raceResume h⟩
  | resume t g =>
    rw [Scheduler.step] at h
    split at h
    case h_1 popped hwon =>
      obtain ⟨⟨ht, -⟩, h⟩ := Option.ite_none_right_eq_some.mp h
      cases h
      exact hi.resume hwon ht hok
    case h_2 => cases h
  | resumeDirect w g =>
    rw [Scheduler.step] at h
    split at h
    case h_1 popped hwon =>
      obtain ⟨h', hfree, rfl⟩ := Option.map_eq_some_iff.mp h
      exact hi.resumeDirect hfree hwon hok
    case h_2 => cases h
  | semaphoreP w q => exact hi.blocks false (.inl rfl) h
  | semaphoreV q => exact hi.pops (.inl rfl) h
  | barrierWait w q => exact hi.blocks false (.inr (.inl rfl)) h
  | arrive w =>
    obtain ⟨g, hcur, h⟩ := Option.bind_eq_some_iff.mp h
    exact ⟨place, hi.arrive hcur h⟩
  | notify w =>
    obtain ⟨g, hcur, h⟩ := Option.bind_eq_some_iff.mp h
    exact ⟨place, hi.notify hcur h⟩
  | block w q timed => exact hi.blocks timed (.inr (.inr rfl)) h
  | func w ok =>
    obtain ⟨g, hcur, h⟩ := Option.bind_eq_some_iff.mp h
    exact ⟨place, hi.func hcur h⟩
  | remove w =>
    obtain ⟨g, hcur, h⟩ := Option.bind_eq_some_iff.mp h
    exact ⟨place, hi.remove hcur h⟩
  | unblock q => exact hi.pops (.inr rfl) h

/-- The places at the start of a program. -/
theorem inv_booted (hb : Booted s) : ∃ place, Inv c s place := by
  have hplace : ∀ f : Fibre W G, ∃ p : Place W X,
      (p = .rest ∧ ∀ w, s.pc w ≠ .exec f) ∨ ∃ w, p = .exec w ∧ s.pc w = .exec f := by
    intro f
    by_cases hf : ∃ w, s.pc w = .exec f
    · obtain ⟨w, hw⟩ := hf
      exact ⟨.exec w, .inr ⟨w, rfl, hw⟩⟩
    · exact ⟨.rest, .inl ⟨rfl, fun w hw => hf ⟨w, hw⟩⟩⟩
  choose place hplace using hplace
  refine ⟨place, ⟨fun w f p hat => ?_, fun w f hw => ?_, fun t f => ?_, fun w p f => ?_,
    fun w p => ?_⟩, ⟨fun q f => ?_, fun q => ?_⟩, fun f => ?_⟩
  · have hexec : s.pc w = .exec f ∧ p = .exec w := by
      rcases hb.exec w with hpc | ⟨g, hpc⟩
      · rw [hpc] at hat ⊢
        exact ⟨by rw [hat.1], hat.2⟩
      · rw [hpc] at hat ⊢
        exact ⟨by rw [hat.1], hat.2⟩
    rcases hplace f with ⟨-, hno⟩ | ⟨v, hv, hpc⟩
    · exact absurd hexec.1 (hno w)
    · rw [hv, hexec.2, hb.once w v f hexec.1 hpc]
  · rcases hplace f with ⟨hrest, -⟩ | ⟨v, hv, hpc⟩
    · rw [hrest] at hw
      cases hw
    · rw [hv] at hw ⊢
      cases hw
      rw [hpc]
      exact ⟨rfl, rfl⟩
  · rw [hb.held]
    refine iff_of_false nofun fun he => ?_
    rcases hplace f with ⟨hp, -⟩ | ⟨v, hp, -⟩ <;> rw [hp] at he <;> cases he
  · rw [hb.readyQueue]
    refine iff_of_false List.not_mem_nil fun he => ?_
    rcases hplace f with ⟨hp, -⟩ | ⟨v, hp, -⟩ <;> rw [hp] at he <;> cases he
  · rw [hb.readyQueue]
    exact List.nodup_nil
  · rw [hb.queue, (hb.fred f).queue]
    exact iff_of_false List.not_mem_nil nofun
  · rw [hb.queue]
    exact List.nodup_nil
  · rcases hplace f with ⟨hp, hno⟩ | ⟨v, hp, hpc⟩
    · rw [hp]
      cases f with
      | idle v => exact ⟨hb.fred _, (hb.idle v (hno v)).2, trivial⟩
      | user g => exact .inl ⟨hb.fred _, .inl ⟨(hb.user g hno).2, (hb.user g hno).1⟩⟩
    · rw [hp]
      obtain ⟨hsaved, hlife⟩ := hb.running v f hpc
      cases f with
      | user g => exact ⟨hlife, hsaved, (hb.fred _).awake⟩
      | idle u =>
        refine ⟨hb.fred _, hlife, ?_⟩
        rcases hb.exec v with h | ⟨g, h⟩
        · rw [hpc] at h
          cases h
          rfl
        · rw [hpc] at h
          cases h

/-- RUN: as long as no timer resumes a linked fibre, the invariant holds. -/
theorem inv_run {as : List (Action W X G Q)}
    (h : Run (system X G c) (fun s a => ¬ ResumesLinked s a) as s) : ∃ place, Inv c s place := by
  refine h.inv (I := fun s => ∃ place, Inv c s place) (fun s hb => inv_booted hb) ?_
  rintro s a s' ⟨place, hi⟩ hok hs
  exact hi.step hok hs

/-! ### What it says -/

/-- The worker executes the fibre. -/
def State.executes (s : State W X G Q) (w : W) (f : Fibre W G) : Prop :=
  match s.pc w with
  | .exec g | .search g _ _ | .chosen g _ _ | .post _ _ g => f = g

/-- The thread holds the fibre: it is about to run it or to enqueue it, or about to execute the callback
    that enqueues, parks or destroys it. -/
def State.holds (s : State W X G Q) (t : W ⊕ X) (f : Fibre W G) : Prop :=
  s.held t = some f ∨ ∃ w, t = .inl w ∧
    match s.pc w with
    | .chosen _ _ g | .post g _ _ => f = g
    | _ => False

/-- No fibre is duplicated or lost. -/
structure Sound (s : State W X G Q) : Prop where
  one_worker : ∀ f w w', s.executes w f → s.executes w' f → w = w'
  one_ready : ∀ f w p w' p', f ∈ s.readyQueue w p → f ∈ s.readyQueue w' p' → w = w' ∧ p = p'
  ready_once : ∀ w p, (s.readyQueue w p).Nodup
  ready_saved : ∀ f w p, f ∈ s.readyQueue w p → (s.fred f).saved = true ∧ ∀ v, ¬ s.executes v f
  one_queue : ∀ f q q', f ∈ s.queue q → f ∈ s.queue q' → q = q'
  queue_once : ∀ q, (s.queue q).Nodup
  one_link : ∀ f w p q, f ∈ s.readyQueue w p → f ∉ s.queue q
  idle : ∀ v, (∀ w p, .idle v ∉ s.readyQueue w p) ∧ ∀ q, .idle v ∉ s.queue q
  somewhere : ∀ g, (s.fred (.user g)).life = .started → (∀ w, ¬ s.executes w (.user g)) →
    (s.fred (.user g)).runState ≠ Parked →
    (∃ w p, .user g ∈ s.readyQueue w p) ∨ ∃! t, s.holds t (.user g)

/-- The thread that holds the fibre. -/
def Place.holder : Place W X → Option (W ⊕ X)
  | .next w | .left w _ => some (.inl w)
  | .held t => some t
  | _ => none

theorem Inv.executes_iff (hi : Inv c s place) {w : W} {f : Fibre W G} :
    s.executes w f ↔ (place f).runner = some w := by
  constructor
  · intro h
    rw [State.executes] at h
    have hat : ∃ p : Place W X, (s.pc w).At w f p ∧ p.runner = some w := by
      cases hpc : s.pc w with
      | exec g => rw [hpc] at h; exact ⟨_, ⟨h, rfl⟩, rfl⟩
      | search g goal steal => rw [hpc] at h; exact ⟨_, ⟨h, rfl⟩, rfl⟩
      | chosen g code g' => rw [hpc] at h; exact ⟨_, .inl ⟨h, rfl⟩, rfl⟩
      | post g code g' => rw [hpc] at h; exact ⟨_, .inr ⟨h, rfl⟩, rfl⟩
    obtain ⟨p, hat, hp⟩ := hat
    rw [hi.agree.pc_at w f p hat]
    exact hp
  · intro h
    have hw : (place f).worker = some w := by
      cases hp : place f <;> rw [hp] at h <;> first | exact h | cases h
    have hat := hi.agree.at_pc w f hw
    rw [State.executes]
    cases hpc : s.pc w with
    | exec g => rw [hpc] at hat; exact hat.1
    | search g goal steal => rw [hpc] at hat; exact hat.1
    | chosen g code g' =>
      rw [hpc] at hat
      rcases hat with hat | hat
      · exact hat.1
      · rw [hat.2] at h
        cases h
    | post g code g' =>
      rw [hpc] at hat
      rcases hat with hat | hat
      · rw [hat.2] at h
        cases h
      · exact hat.1

theorem Inv.holds_iff (hi : Inv c s place) {t : W ⊕ X} {f : Fibre W G} :
    s.holds t f ↔ (place f).holder = some t := by
  constructor
  · rintro (h | ⟨w, rfl, h⟩)
    · rw [(hi.agree.holds t f).mp h]
      rfl
    · have hat : ∃ p : Place W X, (s.pc w).At w f p ∧ p.holder = some (.inl w) := by
        cases hpc : s.pc w with
        | exec g => rw [hpc] at h; exact h.elim
        | search g goal steal => rw [hpc] at h; exact h.elim
        | chosen g code g' => rw [hpc] at h; exact ⟨_, .inr ⟨h, rfl⟩, rfl⟩
        | post g code g' => rw [hpc] at h; exact ⟨_, .inl ⟨h, rfl⟩, rfl⟩
      obtain ⟨p, hat, hp⟩ := hat
      rw [hi.agree.pc_at w f p hat]
      exact hp
  · intro h
    have hcases : place f = .held t ∨
        ∃ w, t = .inl w ∧ (place f).worker = some w ∧ (place f).runner = none := by
      cases hp : place f <;> rw [hp] at h <;> cases h
      · exact .inr ⟨_, rfl, rfl, rfl⟩
      · exact .inr ⟨_, rfl, rfl, rfl⟩
      · exact .inl rfl
    rcases hcases with hp | ⟨w, rfl, hw, hrun⟩
    · exact .inl ((hi.agree.holds t f).mpr hp)
    · refine .inr ⟨w, rfl, ?_⟩
      have hat := hi.agree.at_pc w f hw
      cases hpc : s.pc w with
      | exec g =>
        rw [hpc] at hat
        rw [hat.2] at hrun
        cases hrun
      | search g goal steal =>
        rw [hpc] at hat
        rw [hat.2] at hrun
        cases hrun
      | chosen g code g' =>
        rw [hpc] at hat
        rcases hat with hat | hat
        · rw [hat.2] at hrun
          cases hrun
        · exact hat.1
      | post g code g' =>
        rw [hpc] at hat
        rcases hat with hat | hat
        · exact hat.1
        · rw [hat.2] at hrun
          cases hrun

/-- The queues of the barriers and semaphores and the ready queues never share a fibre. -/
theorem Inv.ready_unlinked (hi : Inv c s place) {f : Fibre W G} {w : W} {p : Priority}
    (h : f ∈ s.readyQueue w p) :
    (s.fred f).saved = true ∧ (s.fred f).queue = none ∧ ∃ g, f = .user g := by
  have hlegal := hi.legal f
  rw [(hi.agree.queued w p f).mp h] at hlegal
  cases f with
  | idle v => exact hlegal.2.2.elim
  | user g => exact ⟨hlegal.2.1, hlegal.2.2.queue, g, rfl⟩

theorem Inv.sound (hi : Inv c s place) : Sound s := by
  refine ⟨fun f w w' h h' => ?_, fun f w p w' p' h h' => ?_, hi.agree.nodup, fun f w p h => ?_,
    fun f q q' h h' => ?_, hi.linked.nodup, fun f w p q h h' => ?_, fun v => ⟨?_, ?_⟩,
    fun g hlife hexec hrun => ?_⟩
  · rw [hi.executes_iff] at h h'
    exact Option.some.inj (h.symm.trans h')
  · rw [hi.agree.queued] at h h'
    cases h.symm.trans h'
    exact ⟨rfl, rfl⟩
  · refine ⟨(hi.ready_unlinked h).1, fun v hv => ?_⟩
    rw [hi.executes_iff, (hi.agree.queued w p f).mp h] at hv
    cases hv
  · rw [hi.linked.mem] at h h'
    exact Option.some.inj (h.symm.trans h')
  · rw [hi.linked.mem, (hi.ready_unlinked h).2.1] at h'
    cases h'
  · intro w p h
    obtain ⟨-, -, g, hg⟩ := hi.ready_unlinked h
    cases hg
  · intro q h
    rw [hi.linked.mem, (hi.legal (.idle v)).1.queue] at h
    cases h
  · have hlegal := hi.legal (.user g)
    have hone : ∀ t, (place (.user g)).holder = some t → ∃! t, s.holds t (.user g) := by
      intro t ht
      refine ⟨t, hi.holds_iff.mpr ht, fun u (hu : s.holds u (.user g)) => ?_⟩
      rw [hi.holds_iff] at hu
      exact Option.some.inj (hu.symm.trans ht)
    cases hp : place (.user g) with
    | rest =>
      rw [hp] at hlegal
      rcases hlegal with ⟨-, ⟨hl, -⟩ | hl⟩ | ⟨-, -, hparked, -⟩
      · rw [hl] at hlife
        cases hlife
      · rw [hl] at hlife
        cases hlife
      · exact absurd hparked hrun
    | exec w => exact absurd (hi.executes_iff.mpr (by rw [hp]; rfl)) (hexec w)
    | leaving w code => exact absurd (hi.executes_iff.mpr (by rw [hp]; rfl)) (hexec w)
    | arriving w => exact absurd (hi.executes_iff.mpr (by rw [hp]; rfl)) (hexec w)
    | next w => exact .inr (hone (.inl w) (by rw [hp]; rfl))
    | left w code => exact .inr (hone (.inl w) (by rw [hp]; rfl))
    | held t => exact .inr (hone t (by rw [hp]; rfl))
    | ready w p => exact .inl ⟨w, p, (hi.agree.queued w p _).mpr hp⟩

/-- CORRECT: in every run in which no timer resumes a linked fibre, no fibre is duplicated or lost. -/
theorem never_duplicated_or_lost {as : List (Action W X G Q)}
    (h : Run (system X G c) (fun s a => ¬ ResumesLinked s a) as s) : Sound s := by
  obtain ⟨place, hi⟩ := inv_run h
  exact hi.sound

/-! ### The timer that resumes a linked fibre -/

/-- Workers with nothing but their idle fibres. -/
def boot (proc : Fibre W G → W) : State W X G Q where
  pc w := .exec (.idle w)
  held _ := none
  readyQueue _ _ := []
  queue _ := []
  counter _ := 0
  fred f :=
    { saved := match f with
        | .idle _ => false
        | .user _ => true
      processor := proc f
      priority := .DefaultPriority
      affinity := match f with
        | .idle _ => true
        | .user _ => false
      runState := Running
      wake := .closed
      loc := .free
      life := match f with
        | .idle _ => .started
        | .user _ => .fresh }

theorem booted_boot (proc : Fibre W G → W) : Booted (boot proc : State W X G Q) where
  exec _ := .inl rfl
  once w w' f h h' := by
    cases f with
    | user g => cases h
    | idle v => cases h; cases h'; rfl
  held _ := rfl
  readyQueue _ _ := rfl
  queue _ := rfl
  fred _ := ⟨rfl, rfl, rfl⟩
  running w f h := by cases h; exact ⟨rfl, rfl⟩
  idle w h := absurd rfl h
  user _ _ := ⟨rfl, rfl⟩

instance [Fintype W] [Fintype Q] (s : State W X G Q) : DecidablePred (ResumesLinked s)
  | .resume .. | .resumeDirect .. => inferInstanceAs (Decidable (_ ∧ _))
  | .start .. | .initFred .. | .idle .. | .yield .. | .yieldGlobal .. | .migrate .. | .terminate ..
  | .setPriority .. | .setAffinity .. | .prepareRace .. | .suspend .. | .resumeInfo ..
  | .searchLocal .. | .searchSteal .. | .searchFails .. | .stackSwitch .. | .post .. | .enqueue ..
  | .raceResume .. | .semaphoreP .. | .semaphoreV .. | .barrierWait .. | .arrive .. | .notify ..
  | .block .. | .func .. | .remove .. | .unblock .. => inferInstanceAs (Decidable False)

/-- Fibre `g` sleeps in a timed `block` of queue `q`. -/
def timedBlock (w : W) (g : G) (q : Q) : List (Action W X G Q) :=
  [.initFred w g, .stackSwitch w, .post w, .block w q true, .func w true, .suspend w, .searchFails w,
    .searchFails w, .stackSwitch w, .post w]

/-- One scheduler, and queues of `ConditionalNemesisQueue`. -/
def nemesis (W Q : Type) : Config W Q Unit := ⟨fun _ => (), fun _ => .conditional⟩

/-- WRONG: the timer resumes the fibre: its link is in the ready queue and still in the queue it blocked
    in. -/
theorem linked_twice : ∃ s : State (Fin 1) Unit Unit Unit,
    Reach (system Unit Unit (nemesis (Fin 1) Unit)) s ∧
    .user () ∈ s.readyQueue 0 .DefaultPriority ∧ .user () ∈ s.queue () ∧ ¬ Sound s := by
  obtain ⟨s, hr, hp⟩ := reach_of_exec (system Unit Unit (nemesis (Fin 1) Unit)) (boot fun _ => 0)
    (timedBlock 0 () () ++ [.raceResume (), .resume (.inr ()) (), .enqueue (.inr ())])
    (fun s => decide (.user () ∈ s.readyQueue 0 .DefaultPriority ∧ .user () ∈ s.queue ()))
    (booted_boot _) (by decide)
  obtain ⟨hready, hlinked⟩ := of_decide_eq_true hp
  exact ⟨s, hr, hready, hlinked, fun hs => hs.one_link _ _ _ _ hready hlinked⟩

theorem never_duplicated_or_lost_unblock : ∃ s : State (Fin 1) Unit Unit Unit,
    Run (system Unit Unit (nemesis (Fin 1) Unit)) (fun s a => ¬ ResumesLinked s a)
      (timedBlock 0 () () ++ [.unblock (), .resume (.inr ()) (), .enqueue (.inr ())]) s ∧
    .user () ∈ s.readyQueue 0 .DefaultPriority ∧ Sound s := by
  obtain ⟨s, hrun, hp⟩ := run_of_execAvoiding (system Unit Unit (nemesis (Fin 1) Unit))
    (fun s a => decide (ResumesLinked s a)) (boot fun _ => 0)
    (timedBlock 0 () () ++ [.unblock (), .resume (.inr ()) (), .enqueue (.inr ())])
    (fun s => decide (.user () ∈ s.readyQueue 0 .DefaultPriority)) (booted_boot _) (by decide)
  have hrun' := hrun.mono (H := fun s a => ¬ ResumesLinked s a) fun _ _ h => of_decide_eq_false h
  exact ⟨s, hrun', of_decide_eq_true hp, never_duplicated_or_lost hrun'⟩

end Libfibre.Scheduler
