import Libfibre.IdleManager.Stranded

/-! What the counters of the idle manager say in every state, and that the halts and the wakes of a worker
    take turns: a wake goes to one who is halted and has none yet, and a halt ends with the one it
    has got. -/

namespace Libfibre.IdleManager
open Transition Tally

variable {n : ℕ} {P Fb : Type} [DecidableEq P] {priority : Fb → Priority} {s s' t : State n P Fb}
  {w x : Fin (n + 1)} {a : Action n P Fb}

/-! ### Counts of a run -/

theorem counts_reach [Fintype P] (h : Reach (system priority) s) : Counts s :=
  h.inv (fun _ => counts_start) fun _ _ _ => counts_step

theorem halts_pos {p : Pc n Fb} (h : 0 < p.halts) : p = .halt := by
  cases p with
  | halt => rfl
  | _ => exact absurd h (Nat.lt_irrefl 0)

theorem halts_le (p : Pc n Fb) : p.halts ≤ 1 := by
  cases p with
  | halt => exact Nat.le_refl 1
  | _ => exact Nat.zero_le 1

omit [DecidableEq P] in
/-- Whoever is represented once is halted and has no wake. -/
theorem Counts.halted [Fintype P] (h : Counts s)
    (hx : 0 < s.waitingProcs.count x + tally (Unblock.wakes x) s.unblock) :
    s.pc x = .halt ∧ s.haltSem x = 0 := by
  have hold := h.halt x
  have hle := halts_le (s.pc x)
  exact ⟨halts_pos (by omega), by omega⟩

omit [DecidableEq P] in
theorem Counts.woken [Fintype P] (h : Counts s) {b : Agent n P}
    (hb : s.unblock b = .decWaiting x ∨ s.unblock b = .wake x) :
    s.pc x = .halt ∧ s.haltSem x = 0 := by
  refine h.halted ?_
  have hone := le_tally (Unblock.wakes x) s.unblock b
  have hwakes : (s.unblock b).wakes x = 1 := by
    rcases hb with hb | hb <;> simp [hb, Unblock.wakes]
  omega

/-! ### A halt -/

/-- The step that wakes worker `w`. -/
def wakes (w : Fin (n + 1)) (s : State n P Fb) : Action n P Fb → Bool
  | .unblockNext b _ =>
    match s.unblock b with
    | .wake v => v = w
    | _ => false
  | _ => false

omit [DecidableEq P] in
theorem searchNext_other {ctx : Search} {v : Fin (n + 1)} {stage : Stage Fb} (hne : w ≠ x)
    (hs : searchNext s x ctx v stage = some s') :
    s'.pc w = s.pc w ∧ s'.haltSem w = s.haltSem w := by
  cases stage with
  | probe | scan | release f =>
    obtain rfl := Option.some.inj hs
    exact ⟨Function.update_of_ne hne .., rfl⟩
  | acquire =>
    rw [searchNext] at hs
    split at hs
    · obtain rfl := Option.some.inj hs
      exact ⟨Function.update_of_ne hne .., rfl⟩
    · split_ifs at hs
      obtain rfl := Option.some.inj hs
      exact ⟨Function.update_of_ne hne .., rfl⟩

theorem workerNext_other (hne : w ≠ x) (hs : workerNext s x = some s') :
    s'.pc w = s.pc w ∧ s'.haltSem w = s.haltSem w := by
  rw [workerNext] at hs
  split at hs
  case h_1 | h_2 => cases hs
  case h_4 ctx v stage _ => exact searchNext_other hne hs
  case h_10 =>
    split_ifs at hs
    obtain rfl := Option.some.inj hs
    exact ⟨Function.update_of_ne hne .., Function.update_of_ne hne ..⟩
  all_goals
    obtain rfl := Option.some.inj hs
    exact ⟨Function.update_of_ne hne .., rfl⟩

theorem unblockNext_haltSem {b : Agent n P} {contended : Bool}
    (hs : unblockNext s b contended = some s') :
    s'.haltSem w = s.haltSem w + if wakes w s (.unblockNext b contended) then 1 else 0 := by
  rw [unblockNext] at hs
  rw [wakes]
  split at hs
  case h_1 => cases hs
  case h_2 hb | h_4 hb =>
    obtain rfl := Option.some.inj hs
    rw [hb]
    rfl
  case h_3 hb =>
    rw [hb]
    split_ifs at hs
    · obtain rfl := Option.some.inj hs
      rfl
    · split at hs <;> (obtain rfl := Option.some.inj hs; rfl)
  case h_5 v hb =>
    obtain rfl := Option.some.inj hs
    rw [hb]
    rcases eq_or_ne v w with rfl | hne
    · simp [State.gotoUnblock]
    · simp [State.gotoUnblock, hne, Function.update_of_ne hne.symm]

/-- STEP: a halted worker that does not move stays, and its semaphore counts its wakes. -/
theorem halt_step (hpc : s.pc w = .halt) (ha : a ≠ .next w) (hs : step priority s a = some s') :
    s'.pc w = .halt ∧ s'.haltSem w = s.haltSem w + if wakes w s a then 1 else 0 := by
  cases a with
  | next x =>
    simp only [step] at hs
    split_ifs at hs
    have hne : w ≠ x := fun heq => ha (heq ▸ rfl)
    obtain ⟨hpc', hsem⟩ := workerNext_other hne hs
    exact ⟨hpc'.trans hpc, hsem⟩
  | suspend x | yield x everywhere | postYield x v f =>
    simp only [step] at hs
    split at hs
    · rename_i hx
      have hne : w ≠ x := by
        rintro rfl
        rw [hpc] at hx
        cases hx
      split_ifs at hs
      obtain rfl := Option.some.inj hs
      exact ⟨(Function.update_of_ne hne ..).trans hpc, rfl⟩
    · cases hs
  | enqueueResume b v f =>
    simp only [step] at hs
    split_ifs at hs
    obtain rfl := Option.some.inj hs
    exact ⟨hpc, rfl⟩
  | unblockNext b contended =>
    obtain ⟨hpc', -⟩ := unblockNext_pc hs
    exact ⟨by rw [hpc', hpc], unblockNext_haltSem hs⟩

/-- RUN: the same along a stretch. -/
theorem halt_exec {as : List (Action n P Fb)} (hpc : s.pc w = .halt) (has : .next w ∉ as)
    (he : exec (system priority) s as = some t) :
    t.pc w = .halt ∧ t.haltSem w = s.haltSem w + times (system priority) (wakes w) s as := by
  induction as generalizing s with
  | nil =>
    cases he
    exact ⟨hpc, rfl⟩
  | cons a as ih =>
    obtain ⟨s', hs, he⟩ := exec_cons_some he
    obtain ⟨ha, has⟩ := not_or.mp (mt List.mem_cons.mpr has)
    obtain ⟨hpc', hsem⟩ := halt_step hpc (Ne.symm ha) hs
    obtain ⟨ht, hcount⟩ := ih hpc' has he
    refine ⟨ht, ?_⟩
    rw [times_cons hs, hcount, hsem, Nat.add_assoc]

/-! ### Every state -/

/-- What is counted is what is there, and nothing is ever taken from a counter at 0. -/
structure Accounted [Fintype P] (priority : Fb → Priority) (s : State n P Fb) : Prop where
  wait : s.waitCounter = tally Pc.waits s.pc + s.waitingProcs.length + tally Unblock.waits s.unblock
  spin : s.spinCounter = tally Pc.spins s.pc
  dec_spin : ∀ w, s.pc w = .unblockSpin ∨ s.pc w = .decSpinning → 0 < s.spinCounter
  dec_wait : ∀ w, s.pc w = .decWaiting → 0 < s.waitCounter
  dec_unblock : ∀ b v, s.unblock b = .decWaiting v → 0 < s.waitCounter
  once : s.waitingProcs.Nodup
  /-- A wake, and the taking from the list before it, are for one who is halted and has none yet. -/
  wake : ∀ b v, s.unblock b = .decWaiting v ∨ s.unblock b = .wake v → s.pc v = .halt ∧ s.haltSem v = 0
  /-- A worker that halts stays until it has been woken, once. -/
  answered : ∀ (w : Fin (n + 1)) (as : List (Action n P Fb)) (s' t : State n P Fb),
    s.pc w = .block → step priority s (.next w) = some s' → .next w ∉ as →
    exec (system priority) s' as = some t →
    t.pc w = .halt ∧ times (system priority) (wakes w) s' as ≤ 1 ∧
      ∀ u, step priority t (.next w) = some u → times (system priority) (wakes w) s' as = 1

theorem Counts.answered [Fintype P] (h : Counts s) (hpc : s.pc w = .block)
    (hs : step priority s (.next w) = some s') {as : List (Action n P Fb)} (has : .next w ∉ as)
    (he : exec (system priority) s' as = some t) :
    t.pc w = .halt ∧ times (system priority) (wakes w) s' as ≤ 1 ∧
      ∀ u, step priority t (.next w) = some u → times (system priority) (wakes w) s' as = 1 := by
  have hc : Counts t := inv_exec (M := system priority) (fun _ _ _ => counts_step)
    (counts_step h hs) he
  have hzero : s.haltSem w = 0 := by
    have hold := h.halt w
    have hhalts : (s.pc w).halts = 0 := by rw [hpc]; rfl
    omega
  simp only [step, workerNext, hpc] at hs
  split_ifs at hs
  obtain rfl := Option.some.inj hs
  obtain ⟨ht, hsem⟩ := halt_exec (Function.update_self ..) has he
  rw [show (State.goto { s with waitingProcs := w :: s.waitingProcs } w .halt).haltSem w = 0 from
    hzero, Nat.zero_add] at hsem
  have hold := hc.halt w
  rw [ht, Pc.halts] at hold
  refine ⟨ht, by omega, fun u hu => ?_⟩
  simp only [step, workerNext, ht] at hu
  split_ifs at hu
  omega

/-- CORRECT: in every state reached, `waitCounter` and `spinCounter` count who waits and who spins, the
    counters do not underflow, no worker is twice in `waitingProcs`, and each halt is answered by one
    wake. -/
theorem accounting [Fintype P] (h : Reach (system priority) s) : Accounted priority s := by
  have hc := counts_reach h
  have hspin : ∀ w, (s.pc w).spins ≤ s.spinCounter := fun w => by
    rw [hc.spin]
    exact le_tally Pc.spins s.pc w
  have hwait : ∀ w, (s.pc w).waits ≤ s.waitCounter := fun w => by
    have hle := le_tally Pc.waits s.pc w
    have heq := hc.wait
    omega
  refine ⟨hc.wait, hc.spin, fun w hw => ?_, fun w hw => ?_, fun b v hb => ?_, ?_,
    fun b v => hc.woken, fun w as s' t hpc hs has => hc.answered hpc hs has⟩
  · have hle := hspin w
    rcases hw with hw | hw
    · rw [hw] at hle; exact hle
    · rw [hw] at hle; exact hle
  · have hle := hwait w
    rw [hw] at hle
    exact hle
  · have hle := le_tally Unblock.waits s.unblock b
    rw [hb, Unblock.waits] at hle
    have heq := hc.wait
    omega
  · rw [List.nodup_iff_count_le_one]
    intro x
    have hold := hc.halt x
    have hle := halts_le (s.pc x)
    omega

theorem accounting_oneHalted :
    oneHalted.waitCounter = 1 ∧ oneHalted.waitingProcs = [1] ∧
      Accounted (fun _ => DefaultPriority) oneHalted :=
  ⟨rfl, rfl, accounting oneHalted_reach⟩

end Libfibre.IdleManager
