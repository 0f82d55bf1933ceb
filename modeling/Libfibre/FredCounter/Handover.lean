import Libfibre.FredCounter.Conserves
import Libfibre.Schemes.Threads

/-! What a worker that blocks is given, and what becomes of a fibre that is handed over. Both are accounts
    of a run: who has blocked has been given one fibre, or waits for it; a fibre handed over has been
    given to one worker, or is on its way to one. -/

namespace Libfibre.FredCounter
open Transition Tally
open IdleManager (Priority Agent dequeueInternal enqueue priorities idleSpinMax)

variable {n : ℕ} {P Fb : Type} [DecidableEq P] {wakeFredWorker : Bool} {priority : Fb → Priority}
  {s s' s0 : State n P Fb} {w x : Fin (n + 1)} {a : Agent n P} {f : Fb} {c : Action n P Fb}

/-! ### Events -/

/-- The worker that a step gives a fibre out of `getReadyFred`, and the fibre. -/
def given (s : State n P Fb) : Action n P Fb → Option (Fin (n + 1) × Fb)
  | .next w _ =>
    match s.pc w with
    | .block => s.waitingFreds.head?.map fun f => (w, f)
    | .handover => (s.handoverFred w).map fun f => (w, f)
    | _ => none
  | _ => none

def receives (w : Fin (n + 1)) (s : State n P Fb) (c : Action n P Fb) : Bool :=
  (given s c).any fun r => r.1 = w

def gives [DecidableEq Fb] (f : Fb) (s : State n P Fb) (c : Action n P Fb) : Bool :=
  (given s c).any fun r => r.2 = f

/-- A worker finds no token in `getReadyFred`. -/
def blocks (w : Fin (n + 1)) (s : State n P Fb) : Action n P Fb → Bool
  | .next x _ => decide (x = w ∧ s.pc x = .getReadyFred ∧ ¬ 0 < s.fredCounter)
  | _ => false

/-- A call of `addReadyFred` is to return `true`. -/
def handsOver [DecidableEq Fb] (f : Fb) (s : State n P Fb) : Action n P Fb → Bool
  | .addNext a =>
    match s.add a with
    | .addReadyFred g _ => decide (g = f ∧ ¬ 0 < s.fredCounter + 1)
    | _ => false
  | _ => false

/-! ### A worker that has blocked -/

theorem blocked_noToken (caller : Caller) : (noToken caller : Pc n).blocked = 0 := by
  cases caller with
  | full => rfl
  | idle i => rw [noToken]; split_ifs <;> rfl

theorem blocked_found (ctx : Search) : (found ctx : Pc n).blocked = 0 := by
  cases ctx <;> rfl

theorem blocked_advance (w v : Fin (n + 1)) (ctx : Search) : (advance w v ctx).blocked = 0 := by
  cases ctx with
  | blocking => rfl
  | yield everywhere =>
    cases everywhere with
    | false => rfl
    | true => rw [advance]; split_ifs <;> rfl

omit [DecidableEq P] in
theorem blocked_searchNext (ctx : Search) (v : Fin (n + 1)) (contended : Bool) :
    ((searchNext s w ctx v contended).pc w).blocked = 0 := by
  rw [searchNext]
  split_ifs
  · simp only [State.goto, Function.update_self]
    exact blocked_advance w v ctx
  · simp only [State.goto, Function.update_self]
    split_ifs
    · exact blocked_found ctx
    · exact blocked_advance w v ctx

omit [DecidableEq P] in
theorem blocked_quiet {p : Pc n} {contended : Bool} (hpc : s.pc w = p) (htoken : p ≠ .getReadyFred)
    (hblock : p ≠ .block) (hhandover : p ≠ .handover) (h : (s'.pc w).blocked = p.blocked) :
    (if blocks w s (.next w contended) then 1 else 0) + p.blocked
      = (if receives w s (.next w contended) then 1 else 0) + (s'.pc w).blocked := by
  subst hpc
  have hblocks : blocks w s (.next w contended) = false := by simp [blocks, htoken]
  have hgiven : given s (.next w contended) = none := by
    rw [given]
    split
    · rename_i hpc; exact absurd hpc hblock
    · rename_i hpc; exact absurd hpc hhandover
    · rfl
  rw [hblocks, receives, hgiven, h]
  rfl

omit [DecidableEq P] in
/-- STEP: what a worker gains by blocking it loses by being given a fibre. -/
theorem blocked_workerNext [Fintype P] (h : Inv s) {contended : Bool}
    (hs : workerNext s w contended = some s') :
    (if blocks w s (.next w contended) then 1 else 0) + (s.pc w).blocked
      = (if receives w s (.next w contended) then 1 else 0) + (s'.pc w).blocked := by
  rw [workerNext] at hs
  cases hpc : s.pc w with
  | busy | postYield => rw [hpc] at hs; cases hs
  | readCounter caller =>
    rw [hpc] at hs
    obtain rfl := Option.some.inj hs
    refine blocked_quiet hpc (by simp) (by simp) (by simp) ?_
    simp only [State.goto, Function.update_self]
    split_ifs
    · rfl
    · exact blocked_noToken caller
  | casCounter caller k =>
    simp only [hpc] at hs
    refine blocked_quiet hpc (by simp) (by simp) (by simp) ?_
    split_ifs at hs
    · obtain rfl := Option.some.inj hs
      simp only [State.goto, Function.update_self]
      rfl
    · obtain rfl := Option.some.inj hs
      simp only [State.goto, Function.update_self]
      exact blocked_noToken caller
  | search ctx v =>
    rw [hpc] at hs
    obtain rfl := Option.some.inj hs
    refine blocked_quiet hpc (by simp) (by simp) (by simp) ?_
    rw [blocked_searchNext]
    rfl
  | getReadyFred =>
    rw [hpc] at hs
    obtain rfl := Option.some.inj hs
    by_cases hpos : 0 < s.fredCounter
    · simp [blocks, receives, given, hpc, State.goto, Pc.blocked, hpos]
    · simp [blocks, receives, given, hpc, State.goto, Pc.blocked, hpos]
  | block =>
    rw [hpc] at hs
    obtain rfl := Option.some.inj hs
    cases hfreds : s.waitingFreds with
    | nil => simp [block, blocks, receives, given, hpc, hfreds, State.goto, Pc.blocked]
    | cons g rest => simp [block, blocks, receives, given, hpc, hfreds, State.goto, Pc.blocked]
  | halt =>
    simp only [hpc] at hs
    split_ifs at hs
    obtain rfl := Option.some.inj hs
    simp [blocks, receives, given, hpc, State.goto, Pc.blocked]
  | handover =>
    rw [hpc] at hs
    obtain rfl := Option.some.inj hs
    obtain ⟨g, hg⟩ := Option.ne_none_iff_exists'.mp (h.armed w (.inr hpc))
    simp [blocks, receives, given, hpc, hg, State.goto, Pc.blocked]

omit [DecidableEq P] in
theorem workerNext_pc {contended : Bool} (hne : w ≠ x) (hs : workerNext s x contended = some s') :
    s'.pc w = s.pc w := by
  rw [workerNext] at hs
  split at hs
  case h_1 | h_2 => cases hs
  case h_4 =>
    split_ifs at hs
    · obtain rfl := Option.some.inj hs
      exact Function.update_of_ne hne ..
    · obtain rfl := Option.some.inj hs
      exact Function.update_of_ne hne ..
  case h_5 =>
    obtain rfl := Option.some.inj hs
    rw [searchNext]
    split_ifs
    · exact Function.update_of_ne hne ..
    · exact Function.update_of_ne hne ..
  case h_7 =>
    obtain rfl := Option.some.inj hs
    rw [block]
    split
    · exact Function.update_of_ne hne ..
    · exact Function.update_of_ne hne ..
  case h_8 =>
    split_ifs at hs
    obtain rfl := Option.some.inj hs
    exact Function.update_of_ne hne ..
  all_goals
    obtain rfl := Option.some.inj hs
    exact Function.update_of_ne hne ..

theorem addNext_pc (hs : addNext wakeFredWorker priority s a = some s') : s'.pc = s.pc := by
  rw [addNext] at hs
  split at hs
  case h_1 => cases hs
  case h_4 =>
    obtain rfl := Option.some.inj hs
    rw [unblock]
    split
    · rfl
    · split_ifs <;> rfl
  all_goals
    obtain rfl := Option.some.inj hs
    rfl

omit [DecidableEq P] in
theorem given_worker {contended : Bool} {r : Fin (n + 1) × Fb}
    (h : given s (.next x contended) = some r) : r.1 = x := by
  rw [given] at h
  split at h
  · obtain ⟨g, -, rfl⟩ := Option.map_eq_some_iff.mp h
    rfl
  · obtain ⟨g, -, rfl⟩ := Option.map_eq_some_iff.mp h
    rfl
  · cases h

omit [DecidableEq P] in
theorem receives_other {contended : Bool} (hne : w ≠ x) :
    receives w s (.next x contended) = false := by
  rw [receives]
  cases hg : given s (.next x contended) with
  | none => rfl
  | some r =>
    have hr := given_worker hg
    simp [hr, hne.symm]

/-- STEP: the account of a worker. -/
theorem blocked_step [Fintype P] (h : Inv s) (hs : step wakeFredWorker priority s c = some s') :
    (if blocks w s c then 1 else 0) + (s.pc w).blocked
      = (if receives w s c then 1 else 0) + (s'.pc w).blocked := by
  cases c with
  | next x contended =>
    obtain ⟨-, hs⟩ := step_cases hs
    rcases eq_or_ne w x with rfl | hne
    · exact blocked_workerNext h hs
    · rw [workerNext_pc hne hs, receives_other hne]
      simp [blocks, hne.symm]
  | suspend x | yield x everywhere | postYield x v f =>
    obtain ⟨⟨-, hpc⟩, rfl⟩ := step_cases hs
    simp only [blocks, receives, given, State.goto]
    rcases eq_or_ne w x with rfl | hne
    · rw [Function.update_self, hpc]
      rfl
    · rw [Function.update_of_ne hne]
      rfl
  | enqueueResume a v f =>
    obtain ⟨-, rfl⟩ := step_cases hs
    rfl
  | addNext a => rw [addNext_pc hs]; rfl

/-! ### A fibre that is handed over -/

section Fibre
variable [DecidableEq Fb]

/-- A call that hands a fibre over. -/
def Add.carries (f : Fb) : Add n Fb → ℕ
  | .unblock g _ | .wake g _ | .haltSemV g _ => if g = f then 1 else 0
  | _ => 0

/-- A worker that has been woken with a fibre. -/
def held (f : Fb) (s : State n P Fb) (w : Fin (n + 1)) : ℕ :=
  if (0 < s.haltSem w ∨ s.pc w = .handover) ∧ s.handoverFred w = some f then 1 else 0

/-- How often a fibre is on its way to a worker. -/
def pending (f : Fb) (s : State n P Fb) [Fintype P] : ℕ :=
  s.waitingFreds.count f + tally (Add.carries f) s.add + tally id (held f s)

omit [DecidableEq P] in
theorem held_congr (hsem : s'.haltSem x = s.haltSem x) (hhand : s'.handoverFred x = s.handoverFred x)
    (hpc : s'.pc x = .handover ↔ s.pc x = .handover) : held f s' x = held f s x := by
  simp only [held, hsem, hhand, hpc]

omit [DecidableEq P] in
/-- A worker that is not woken moves. -/
theorem held_goto {p : Pc n} (hpc : s'.pc = Function.update s.pc w p) (hsem : s'.haltSem = s.haltSem)
    (hhand : s'.handoverFred = s.handoverFred) (hold : s.pc w ≠ .handover) (hnew : p ≠ .handover) :
    held f s' = held f s := by
  funext x
  refine held_congr (by rw [hsem]) (by rw [hhand]) ?_
  rw [hpc]
  exact Threads.at_iff (iff_of_false hnew hold) x

omit [DecidableEq P] [DecidableEq Fb] in
theorem Inv.haltSem_zero [Fintype P] (h : Inv s) (hhalts : (s.pc w).halts = 0) : s.haltSem w = 0 := by
  have hold := h.halt w
  omega

omit [DecidableEq P] in
theorem noToken_ne (caller : Caller) : (noToken caller : Pc n) ≠ .handover :=
  (open_noToken caller).handover

omit [DecidableEq P] in
theorem pending_moved [Fintype P] {p : Pc n} (hpc : s'.pc = Function.update s.pc w p)
    (hold : s.pc w ≠ .handover) (hnew : p ≠ .handover)
    (hrest : s'.add = s.add ∧ s'.waitingFreds = s.waitingFreds ∧ s'.haltSem = s.haltSem ∧
      s'.handoverFred = s.handoverFred) : pending f s' = pending f s := by
  obtain ⟨hadd, hfreds, hsem, hhand⟩ := hrest
  rw [pending, pending, hadd, hfreds, held_goto hpc hsem hhand hold hnew]

omit [DecidableEq P] in
theorem pending_quiet [Fintype P] {p q : Pc n} {contended : Bool} (hpc : s.pc w = p)
    (hblock : p ≠ .block) (hhandover : p ≠ .handover) (hs' : s'.pc = Function.update s.pc w q)
    (hq : q ≠ .handover)
    (hrest : s'.add = s.add ∧ s'.waitingFreds = s.waitingFreds ∧ s'.haltSem = s.haltSem ∧
      s'.handoverFred = s.handoverFred) :
    pending f s = (if gives f s (.next w contended) then 1 else 0) + pending f s' := by
  subst hpc
  have hgiven : given s (.next w contended) = none := by
    rw [given]
    split
    · rename_i hpc; exact absurd hpc hblock
    · rename_i hpc; exact absurd hpc hhandover
    · rfl
  rw [pending_moved hs' hhandover hq hrest, gives, hgiven]
  exact (Nat.zero_add _).symm

omit [DecidableEq P] [DecidableEq Fb] in
theorem searchNext_rest (s : State n P Fb) (w : Fin (n + 1)) (ctx : Search) (v : Fin (n + 1))
    (contended : Bool) :
    ∃ q : Pc n, q ≠ .handover ∧ (searchNext s w ctx v contended).pc = Function.update s.pc w q ∧
      (searchNext s w ctx v contended).add = s.add ∧
      (searchNext s w ctx v contended).waitingFreds = s.waitingFreds ∧
      (searchNext s w ctx v contended).haltSem = s.haltSem ∧
      (searchNext s w ctx v contended).handoverFred = s.handoverFred := by
  rw [searchNext]
  split_ifs
  · exact ⟨_, (open_advance w v ctx).handover, rfl, rfl, rfl, rfl, rfl⟩
  · dsimp only
    refine ⟨_, ?_, rfl, rfl, rfl, rfl, rfl⟩
    split_ifs
    · exact (open_found ctx).handover
    · exact (open_advance w v ctx).handover

omit [DecidableEq P] in
/-- STEP: a worker that is not running a fibre takes only what it is given. -/
theorem pending_workerNext [Fintype P] (h : Inv s) {contended : Bool}
    (hs : workerNext s w contended = some s') :
    pending f s = (if gives f s (.next w contended) then 1 else 0) + pending f s' := by
  rw [workerNext] at hs
  cases hpc : s.pc w with
  | busy | postYield => rw [hpc] at hs; cases hs
  | readCounter caller =>
    rw [hpc] at hs
    obtain rfl := Option.some.inj hs
    refine pending_quiet hpc (by simp) (by simp) rfl ?_ ⟨rfl, rfl, rfl, rfl⟩
    split_ifs
    · simp
    · exact noToken_ne caller
  | casCounter caller k =>
    simp only [hpc] at hs
    split_ifs at hs
    · obtain rfl := Option.some.inj hs
      exact pending_quiet hpc (by simp) (by simp) rfl (by simp) ⟨rfl, rfl, rfl, rfl⟩
    · obtain rfl := Option.some.inj hs
      exact pending_quiet hpc (by simp) (by simp) rfl (noToken_ne caller) ⟨rfl, rfl, rfl, rfl⟩
  | search ctx v =>
    rw [hpc] at hs
    obtain rfl := Option.some.inj hs
    obtain ⟨q, hq, hpc', hrest⟩ := searchNext_rest s w ctx v contended
    exact pending_quiet hpc (by simp) (by simp) hpc' hq hrest
  | getReadyFred =>
    rw [hpc] at hs
    obtain rfl := Option.some.inj hs
    refine pending_quiet hpc (by simp) (by simp) rfl ?_ ⟨rfl, rfl, rfl, rfl⟩
    split_ifs <;> simp
  | block =>
    rw [hpc] at hs
    obtain rfl := Option.some.inj hs
    cases hfreds : s.waitingFreds with
    | nil =>
      have hheld : held f (block s w) = held f s := by
        rw [block, hfreds]
        exact held_goto rfl rfl rfl (by simp [hpc]) (by simp)
      rw [pending, pending, hheld]
      simp [gives, given, hpc, hfreds, block, State.goto]
    | cons g rest =>
      have hheld : held f (block s w) = held f s := by
        rw [block, hfreds]
        exact held_goto rfl rfl rfl (by simp [hpc]) (by simp)
      rw [pending, pending, hheld]
      simp [gives, given, hpc, hfreds, block, State.goto, List.count_cons]
      omega
  | halt =>
    simp only [hpc] at hs
    split_ifs at hs with hsem
    obtain rfl := Option.some.inj hs
    have hheld : held f (State.goto { s with
        haltSem := Function.update s.haltSem w (s.haltSem w - 1) } w .handover) = held f s := by
      funext x
      rcases eq_or_ne x w with rfl | hne
      · simp [held, State.goto, hsem]
      · simp [held, State.goto, hne]
    rw [pending, pending, hheld]
    simp [gives, given, hpc, State.goto]
  | handover =>
    rw [hpc] at hs
    obtain rfl := Option.some.inj hs
    have hmoved := tally_moved (m := held f s) (n := held f (s.goto w .busy)) w fun x hne => by
      simp [held, State.goto, hne]
    have hnew : held f (s.goto w .busy) w = 0 := by
      have hsem := h.haltSem_zero (w := w) (by rw [hpc]; rfl)
      simp [held, State.goto, hsem]
    obtain ⟨g, hg⟩ := Option.ne_none_iff_exists'.mp (h.armed w (.inr hpc))
    have hgives : (if gives f s (.next w contended) then 1 else 0) = held f s w := by
      simp [gives, given, held, hpc, hg]
    rw [pending, pending, hgives]
    simp only [State.goto] at hmoved hnew ⊢
    omega

/-- One call moves, and no worker is woken. -/
theorem pending_add {r : State n P Fb} [Fintype P] {p : Add n Fb} (hadd : r.add = Function.update s.add a p)
    (hfreds : r.waitingFreds = s.waitingFreds) (hheld : held f r = held f s) :
    pending f r + (s.add a).carries f = pending f s + p.carries f := by
  have hcarries := tally_update (Add.carries f) s.add a p
  rw [pending, pending, hadd, hfreds, hheld]
  omega

/-- STEP: a call of `enqueueResume` keeps what it hands over until a worker has it. -/
theorem pending_addNext [Fintype P] (h : Inv s)
    (hs : addNext wakeFredWorker priority s a = some s') :
    (if handsOver f s (.addNext a) then 1 else 0) + pending f s = pending f s' := by
  rw [addNext] at hs
  cases ha : s.add a with
  | done => rw [ha] at hs; cases hs
  | addReadyFred g proc =>
    rw [ha] at hs
    obtain rfl := Option.some.inj hs
    have hadd := pending_add (s := s) (f := f) (a := a) (r := State.gotoAdd { s with
      fredCounter := s.fredCounter + 1 } a (if 0 < s.fredCounter + 1 then .enqueueFred g proc
        else .unblock g proc)) rfl rfl rfl
    rw [ha] at hadd
    simp only [handsOver, ha, decide_eq_true_eq]
    split_ifs at hadd with hpos
    · rw [if_neg fun hc => hc.2 hpos, if_pos hpos]
      simp only [Add.carries] at hadd
      omega
    · rw [if_neg hpos]
      simp only [Add.carries] at hadd
      split_ifs at hadd with hgf
      · rw [if_pos ⟨hgf, hpos⟩]
        omega
      · rw [if_neg fun hc => hgf hc.1]
        omega
  | enqueueFred g proc =>
    rw [ha] at hs
    obtain rfl := Option.some.inj hs
    have hadd := pending_add (s := s) (f := f) (a := a) (r := (enqueueFred priority s proc g).gotoAdd a
      .done) rfl rfl rfl
    rw [ha] at hadd
    simp only [handsOver, ha, Add.carries] at hadd ⊢
    simpa using hadd.symm
  | unblock g proc =>
    rw [ha] at hs
    obtain rfl := Option.some.inj hs
    simp only [handsOver, ha, Bool.false_eq_true, if_false, Nat.zero_add]
    have hwake : ∀ (halting : Fin (n + 1) → Bool) (procs : List (Fin (n + 1))) (u : Fin (n + 1)),
        pending f s = pending f (State.gotoAdd { s with
          halting := halting
          waitingProcs := procs } a (.wake g u)) := by
      intro halting procs u
      have hadd := pending_add (s := s) (f := f) (a := a) (r := State.gotoAdd { s with
        halting := halting
        waitingProcs := procs } a (.wake g u)) rfl rfl rfl
      rw [ha] at hadd
      simp only [Add.carries] at hadd
      omega
    rw [unblock]
    split
    · have hcarries := tally_update (Add.carries f) s.add a .done
      rw [ha] at hcarries
      simp only [Add.carries] at hcarries
      have hheld : held f (State.gotoAdd { s with waitingFreds := s.waitingFreds ++ [g] } a .done)
          = held f s := rfl
      rw [pending, pending, hheld]
      simp only [State.gotoAdd, List.count_append, List.count_singleton, beq_iff_eq]
      omega
    · split_ifs
      · exact hwake ..
      · exact hwake ..
  | wake g u =>
    rw [ha] at hs
    obtain rfl := Option.some.inj hs
    have hwakes : 0 < tally (Add.wakes u) s.add :=
      lt_of_lt_of_le (by simp [ha, Add.wakes]) (le_tally (Add.wakes u) s.add a)
    obtain ⟨hpc, hsem⟩ := h.halted (x := u) (by omega)
    have hheld : held f (State.gotoAdd { s with
        handoverFred := Function.update s.handoverFred u (some g) } a (.haltSemV g u)) = held f s := by
      funext x
      rcases eq_or_ne x u with rfl | hne
      · simp [held, State.gotoAdd, hpc, hsem]
      · simp [held, State.gotoAdd, hne]
    have hadd := pending_add (s := s) (r := State.gotoAdd { s with
      handoverFred := Function.update s.handoverFred u (some g) } a (.haltSemV g u)) rfl rfl hheld
    rw [ha] at hadd
    simp only [handsOver, ha, Add.carries] at hadd ⊢
    simp only [Bool.false_eq_true, if_false]
    omega
  | haltSemV g u =>
    rw [ha] at hs
    obtain rfl := Option.some.inj hs
    have hwakes : 0 < tally (Add.wakes u) s.add :=
      lt_of_lt_of_le (by simp [ha, Add.wakes]) (le_tally (Add.wakes u) s.add a)
    obtain ⟨hpc, hsem⟩ := h.halted (x := u) (by omega)
    have hhand := h.handed a g u ha
    have hcarries := tally_update (Add.carries f) s.add a .done
    have hmoved := tally_moved (m := held f s) (n := held f (State.gotoAdd { s with
      haltSem := Function.update s.haltSem u (s.haltSem u + 1) } a .done)) u fun x hne => by
        simp [held, State.gotoAdd, hne]
    have hold : held f s u = 0 := by simp [held, hpc, hsem]
    have hnew : held f (State.gotoAdd { s with
        haltSem := Function.update s.haltSem u (s.haltSem u + 1) } a .done) u
          = Add.carries f (.haltSemV (n := n) g u) := by
      simp [held, State.gotoAdd, hhand, Add.carries]
    rw [ha] at hcarries
    have hdone : Add.carries f (.done : Add n Fb) = 0 := rfl
    simp only [handsOver, ha, Bool.false_eq_true, if_false]
    rw [pending, pending]
    simp only [State.gotoAdd] at hmoved hnew ⊢
    omega

/-- STEP: the account of a fibre. -/
theorem pending_step [Fintype P] (h : Inv s) (hs : step wakeFredWorker priority s c = some s') :
    (if handsOver f s c then 1 else 0) + pending f s
      = (if gives f s c then 1 else 0) + pending f s' := by
  cases c with
  | next w contended =>
    exact (Nat.zero_add _).trans (pending_workerNext h (step_cases hs).2)
  | suspend w | yield w everywhere | postYield w v g =>
    obtain ⟨⟨-, hpc⟩, rfl⟩ := step_cases hs
    refine congrArg (0 + ·) (Eq.symm ?_)
    exact pending_moved (w := w) rfl (hpc ▸ by simp) (by simp) ⟨rfl, rfl, rfl, rfl⟩
  | enqueueResume a v g =>
    obtain ⟨⟨hdone, -⟩, rfl⟩ := step_cases hs
    have hadd := pending_add (s := s) (f := f) (a := a) (r := s.gotoAdd a (.addReadyFred g v)) rfl rfl
      rfl
    rw [hdone] at hadd
    exact congrArg (0 + ·) hadd.symm
  | addNext a => exact (pending_addNext h hs).trans (Nat.zero_add _).symm

/-! ### The account of a run -/

/-- What holds after a run `as` from `s0` to `s`. -/
structure Conserves [Fintype P] (wakeFredWorker : Bool) (priority : Fb → Priority) (s0 : State n P Fb)
    (as : List (Action n P Fb)) (s : State n P Fb) : Prop where
  exclusive : s.waitingProcs = [] ∨ s.waitingFreds = []
  token : tally Pc.token s.pc ≤ ready s
  search : ∀ w v, s.pc w = .search .blocking v → 0 < ready s
  worker : ∀ w, times (system wakeFredWorker priority) (blocks w) s0 as
    = times (system wakeFredWorker priority) (receives w) s0 as + (s.pc w).blocked
  fibre : ∀ f, times (system wakeFredWorker priority) (handsOver f) s0 as
    = times (system wakeFredWorker priority) (gives f) s0 as + pending f s
  answered : (∀ a, s.add a = .done) →
    (∀ w, (s.pc w).blocked = 0 ∨ s.pc w = .halt ∧ s.haltSem w = 0) →
    (∀ w, (s.pc w).blocked = 0) ∨ ∀ f, pending f s = 0

omit [DecidableEq P] in
/-- Once every operation has returned or sleeps, a worker and a fibre do not wait for each other. -/
theorem Inv.answered [Fintype P] (h : Inv s) (hadd : ∀ a, s.add a = .done)
    (hpc : ∀ w, (s.pc w).blocked = 0 ∨ s.pc w = .halt ∧ s.haltSem w = 0) :
    (∀ w, (s.pc w).blocked = 0) ∨ ∀ f, pending f s = 0 := by
  rcases h.exclusive with hprocs | hfreds
  · refine .inl fun w => (hpc w).resolve_right ?_
    rintro ⟨hhalt, hsem⟩
    have hold := h.halt w
    rw [hprocs, hsem, hhalt, tally_eq_zero fun a => by rw [hadd a]; rfl] at hold
    cases hold
  · refine .inr fun f => ?_
    have hcarries : tally (Add.carries f) s.add = 0 := tally_eq_zero fun a => by rw [hadd a]; rfl
    have hheld : tally id (held f s) = 0 := by
      refine tally_eq_zero fun w => if_neg fun hw => ?_
      rcases hpc w with hfree | ⟨hhalt, hsem⟩
      · rcases hw.1 with hsem | hhandover
        · cases hpc' : s.pc w with
          | halt => rw [hpc'] at hfree; cases hfree
          | _ => exact absurd (h.haltSem_zero (w := w) (by rw [hpc']; rfl)) hsem.ne'
        · rw [hhandover] at hfree
          cases hfree
      · simp [hhalt, hsem] at hw
    rw [pending, hfreds, hcarries, hheld]
    rfl

/-- RUN: the idle manager with a fred counter loses neither a fibre nor a worker, whatever the order of
    the steps. -/
theorem conserves [Fintype P] (hstart : Start s0) {as : List (Action n P Fb)}
    (hs : exec (system wakeFredWorker priority) s0 as = some s) :
    Conserves wakeFredWorker priority s0 as s := by
  have hkeep : ∀ (s : State n P Fb) (c : Action n P Fb) (s' : State n P Fb), Inv s →
      (system wakeFredWorker priority).step s c = some s' → Inv s' :=
    fun _ _ _ h hstep => h.step hstep
  have hinv : Inv s := inv_exec hkeep (inv_start hstart) hs
  have hle : tally Pc.token s.pc ≤ ready s := hinv.token ▸ Nat.le_add_right ..
  refine ⟨hinv.exclusive, hle, fun w v hpc => ?_, fun w => ?_, fun f => ?_, hinv.answered⟩
  · have htoken := le_tally Pc.token s.pc w
    rw [hpc] at htoken
    exact lt_of_lt_of_le htoken hle
  · have hbalance := times_balance (μ := fun s => (s.pc w).blocked) hkeep
      (fun _ _ _ h hstep => blocked_step h hstep) (inv_start hstart) hs
    have hzero : (s0.pc w).blocked = 0 := by
      rcases hstart.pc w with hpc | hpc <;> rw [hpc] <;> rfl
    rw [hzero, Nat.add_zero] at hbalance
    exact hbalance
  · have hbalance := times_balance (p := handsOver f) (q := gives f) (μ := fun s => pending f s)
      hkeep (fun _ _ _ h hstep => pending_step h hstep) (inv_start hstart) hs
    have hzero : pending f s0 = 0 := by
      have hheld : tally id (held f s0) = 0 := by
        refine tally_eq_zero fun w => if_neg fun hw => ?_
        rcases hstart.pc w with hpc | hpc <;> simp [hstart.haltSem w, hpc] at hw
      rw [pending, hstart.waitingFreds, tally_eq_zero fun a => by rw [hstart.add a]; rfl, hheld]
      rfl
    rw [hzero, Nat.add_zero] at hbalance
    exact hbalance

end Fibre

/-! ### A run with a hand-over -/

/-- The rounds of `scheduleIdle`, from any of them on, in which no token comes up. -/
theorem spins (hdone : s.add (.inl w) = .done) (hnone : s.fredCounter ≤ 0) : ∀ k i,
    i + k + 1 = idleSpinMax →
      exec (system wakeFredWorker priority) (s.goto w (.readCounter (.idle i)))
        (List.replicate (k + 1) (.next w false)) = some (s.goto w .getReadyFred)
  | 0, i, hi => by
    have hend : ¬ i + 1 < idleSpinMax := by omega
    simp [system, step, workerNext, State.goto, Add.isDone_iff.mpr hdone, hnone.not_gt, noToken, hend]
  | k + 1, i, hi => by
    have hround : i + 1 < idleSpinMax := by omega
    have hstep : (system wakeFredWorker priority).step (s.goto w (.readCounter (.idle i)))
        (.next w false) = some (s.goto w (.readCounter (.idle (i + 1)))) := by
      simp [system, step, workerNext, State.goto, Add.isDone_iff.mpr hdone, hnone.not_gt, noToken,
        hround]
    rw [List.replicate_succ, exec_cons, hstep, Option.bind_some]
    exact spins hdone hnone k (i + 1) (by omega)

/-- A worker that finds no token in the whole of `scheduleIdle` blocks. -/
def idles (w : Fin (n + 1)) : List (Action n P Fb) :=
  List.replicate 1023 (.next w false) ++ [.next w false, .next w false]

theorem exec_idles (hdone : s.add (.inl w) = .done) (hnone : s.fredCounter ≤ 0)
    (hfreds : s.waitingFreds = []) (hpc : s.pc w = .readCounter (.idle 1)) :
    exec (system wakeFredWorker priority) s (idles w) = some (State.goto { s with
      fredCounter := s.fredCounter - 1
      halting := Function.update s.halting w true
      waitingProcs := w :: s.waitingProcs } w .halt) := by
  have hspins : exec (system wakeFredWorker priority) (s.goto w (.readCounter (.idle 1)))
      (List.replicate 1023 (.next w false)) = some (s.goto w .getReadyFred) :=
    spins hdone hnone 1022 1 rfl
  have hself : s.goto w (.readCounter (.idle 1)) = s := by
    rw [State.goto, ← hpc, Function.update_eq_self]
  rw [hself] at hspins
  rw [idles, exec_append, hspins, Option.bind_some]
  simp [system, step, workerNext, block, State.goto, Add.isDone_iff.mpr hdone, hnone.not_gt, hfreds]

/-- Two workers about to look for a fibre, and a poller. -/
def twoWorkers : State 1 Unit Unit where
  fredCounter := 0
  waitingProcs := []
  waitingFreds := []
  queue _ _ := []
  halting _ := false
  haltSem _ := 0
  handoverFred _ := none
  pc _ := .readCounter (.idle 1)
  add _ := .done

/-- Workers `v` and `w` block, and fibre `f`, which poller `p` resumes at `v`, is handed to `w`. -/
def handover (v w : Fin (n + 1)) (p : P) (f : Fb) : List (Action n P Fb) :=
  idles v ++ (idles w ++ [.enqueueResume (.inr p) v f, .addNext (.inr p), .addNext (.inr p),
    .addNext (.inr p), .addNext (.inr p), .next w false, .next w false])

theorem conserves_handover : ∃ s,
    exec (system false fun _ => IdleManager.DefaultPriority) twoWorkers (handover 0 1 () ()) = some s ∧
      s.pc 0 = .halt ∧ s.pc 1 = .busy ∧ s.fredCounter = -1 ∧ s.waitingProcs = [0] ∧
      Conserves false (fun _ => IdleManager.DefaultPriority) twoWorkers (handover 0 1 () ()) s := by
  have hrun : (exec (system false fun _ => IdleManager.DefaultPriority) twoWorkers
      (handover 0 1 () ())).map (fun s => decide
        (s.pc 0 = .halt ∧ s.pc 1 = .busy ∧ s.fredCounter = -1 ∧ s.waitingProcs = [0]))
      = some true := by
    rw [handover, exec_append, exec_idles rfl le_rfl rfl rfl, Option.bind_some, exec_append,
      exec_idles rfl (by decide) rfl rfl, Option.bind_some]
    decide
  obtain ⟨s, hs, hend⟩ := Option.map_eq_some_iff.mp hrun
  obtain ⟨hpc₀, hpc₁, hcounter, hprocs⟩ := of_decide_eq_true hend
  exact ⟨s, hs, hpc₀, hpc₁, hcounter, hprocs, conserves ⟨rfl, rfl, rfl, fun _ _ => rfl, fun _ => rfl,
    fun _ => rfl, fun _ => .inl rfl, fun _ => rfl⟩ hs⟩

end Libfibre.FredCounter
