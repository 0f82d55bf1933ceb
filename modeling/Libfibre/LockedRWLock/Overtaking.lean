import Libfibre.LockedRWLock.Accounting

/-! How often readers overtake a waiting writer in `LockedRWLock`. By design `release` alternates: a
    leaving writer lets the waiting readers in, the last of these the next writer. So a writer with
    `k` writers ahead of it waits through up to `k + 1` reader turns, and a reader can be granted the
    lock once in each (`overtaken_once_per_turn`); once in all is too much to ask (`overtaken_twice`).
    Left out of the count are the readers that join `bqR` during a reader turn and are pulled out by
    the cascade in that same turn: nothing is said about these. -/

namespace Libfibre.LockedRWLock
open Transition BlockingQueue

variable {F : Type} [DecidableEq F]

/-- The action is not part of an untimed run. -/
def Action.timed : Action F → Bool
  | .acquireRead _ args | .acquireWrite _ args => args.timed
  | _ => false

/-- The action is the second section of a woken reader. -/
def Action.isCascade : Action F → Bool
  | .cascade _ => true
  | _ => false

/-- The step from `s` to `s'` grants `f` the read lock. -/
def grantsRead (f : F) (s s' : State F) : Bool := !(s.pc f).reads && (s'.pc f).reads

/-- The step from `s` to `s'` grants some fibre the write lock. -/
def grantsWrite [Fintype F] (s s' : State F) : Bool :=
  decide (∃ g, (s.pc g).writes = false ∧ (s'.pc g).writes = true)

/-- How often `f` is granted the read lock. -/
def readGrants (f : F) : State F → List (Action F) → ℕ
  | _, [] => 0
  | s, a :: as =>
    match step s a with
    | none => 0
    | some s' => (grantsRead f s s').toNat + readGrants f s' as

/-- How often the write lock is granted. -/
def writeGrants [Fintype F] : State F → List (Action F) → ℕ
  | _, [] => 0
  | s, a :: as =>
    match step s a with
    | none => 0
    | some s' => (grantsWrite s s').toNat + writeGrants s' as

/-- Whether `f` is a straggler after a step, that is, has joined `bqR` while readers held the lock and
    no writer has been granted it since. -/
def straggler [Fintype F] (f : F) (before : Bool) (s s' : State F) : Bool :=
  if grantsWrite s s' then false
  else if !(s.pc f).queuedR && (s'.pc f).queuedR then decide (0 < s.state)
  else before

/-- How often `f` is granted the read lock, not counting the cascade's grants to a straggler. -/
def promptGrants [Fintype F] (f : F) : Bool → State F → List (Action F) → ℕ
  | _, _, [] => 0
  | late, s, a :: as =>
    match step s a with
    | none => 0
    | some s' =>
      (grantsRead f s s' && !(late && a.isCascade)).toNat
        + promptGrants f (straggler f late s s') s' as

/-! ### One step -/

/-- What `f` may still be granted in the current turn: nothing once readers hold the lock, unless `f`
    was queued before they did. -/
def turnsLeft (f : F) (late : Bool) (s : State F) : ℕ :=
  if s.state ≤ 0 ∨ ((s.pc f).waitsR = true ∧ late = false) then 1 else 0

omit [DecidableEq F] in
theorem turnsLeft_le_one (f : F) (late : Bool) (s : State F) : turnsLeft f late s ≤ 1 := by
  rw [turnsLeft]
  split_ifs <;> omega

omit [DecidableEq F] in
theorem turnsLeft_open {f : F} {late : Bool} {s : State F} (h : s.state ≤ 0) :
    turnsLeft f late s = 1 := if_pos (Or.inl h)

section Step
variable [Fintype F]

/-- The grant counted in one step. -/
def promptGrant (f : F) (late : Bool) (a : Action F) (s s' : State F) : ℕ :=
  (grantsRead f s s' && !(late && a.isCascade)).toNat

/-- STEP: a grant is paid for by a turn of `f`, and only a writer's grant gives a turn back. -/
def Pays (f : F) (late : Bool) (a : Action F) (s s' : State F) : Prop :=
  promptGrant f late a s s' + turnsLeft f (straggler f late s s') s' ≤
    turnsLeft f late s + (grantsWrite s s').toNat

omit [DecidableEq F] in
theorem grantsWrite_intro {s s' : State F} {g : F} (h : (s.pc g).writes = false)
    (h' : (s'.pc g).writes = true) : grantsWrite s s' = true := decide_eq_true ⟨g, h, h'⟩

omit [DecidableEq F] in
/-- A step that grants `f` nothing, and opens the lock to readers only by a writer's grant. -/
theorem pays_of_not_granted {f : F} {late : Bool} {a : Action F} {s s' : State F}
    (hreads : (s'.pc f).reads = true → (s.pc f).reads = true)
    (hstate : grantsWrite s s' = true ∨ (s'.state ≤ 0 → s.state ≤ 0))
    (hwaits : (s'.pc f).waitsR = true → (s.pc f).queuedR = true → (s.pc f).waitsR = true) :
    Pays f late a s s' := by
  have hno : grantsRead f s s' = false := by
    rw [grantsRead]
    cases h' : (s'.pc f).reads with
    | false => rw [Bool.and_false]
    | true => rw [hreads h']; rfl
  have hle := turnsLeft_le_one f (straggler f late s s') s'
  rw [Pays, promptGrant, hno, Bool.false_and, Bool.toNat_false, Nat.zero_add]
  cases hw : grantsWrite s s' with
  | true => rw [Bool.toNat_true]; omega
  | false =>
    rw [Bool.toNat_false, Nat.add_zero]
    by_cases hopen : s.state ≤ 0
    · rw [turnsLeft_open hopen]; exact hle
    · have hshut : ¬ s'.state ≤ 0 := fun h => hopen ((hstate.resolve_left (by simp [hw])) h)
      have hlate : (s'.pc f).waitsR = true → straggler f late s s' = false →
          (s.pc f).waitsR = true ∧ late = false := by
        intro hR hs
        have hqR : (s'.pc f).queuedR = true := by
          obtain ⟨timed, h⟩ := waitsR_iff.mp hR
          rw [h]; rfl
        rw [straggler, hw, hqR, Bool.and_true] at hs
        cases hq : (s.pc f).queuedR with
        | false => simp [hq, hopen] at hs
        | true => simp [hq] at hs; exact ⟨hwaits hR hq, hs⟩
      rw [turnsLeft, turnsLeft]
      split_ifs with h h'
      · exact le_refl _
      · exact absurd (Or.inr (hlate (h.resolve_left hshut).1 (h.resolve_left hshut).2)) h'
      · omega
      · exact le_refl _

omit [DecidableEq F] in
/-- A step that grants `f` the read lock ends its turn. -/
theorem pays_of_granted {f : F} {late : Bool} {a : Action F} {s s' : State F}
    (hpc : s'.pc f = .grantedR) (hstate : 0 < s'.state)
    (hturn : s.state ≤ 0 ∨ ((s.pc f).waitsR = true ∧ a.isCascade = true)) :
    Pays f late a s s' := by
  have h0 : turnsLeft f (straggler f late s s') s' = 0 := by
    rw [turnsLeft, if_neg]
    rintro (h | ⟨h, -⟩)
    · omega
    · rw [hpc] at h; cases h
  have h1 : promptGrant f late a s s' ≤ 1 := Bool.toNat_le _
  rw [Pays, h0, Nat.add_zero]
  rcases hturn with hopen | ⟨hR, hcascade⟩
  · rw [turnsLeft_open hopen]; omega
  · cases late with
    | true => rw [promptGrant, hcascade]; simp
    | false => rw [turnsLeft, if_pos (Or.inr ⟨hR, rfl⟩)]; omega

/-- A step of `g` alone that leaves the counter; no such step takes `f` back to sleep. -/
theorem pays_of_move {f g : F} {p : Pc} {late : Bool} {a : Action F} {s s' : State F}
    (hstate : s'.state = s.state) (hpc : s'.pc = Function.update s.pc g p)
    (hreads : p.reads = true → (s.pc g).reads = true)
    (hwaits : p.waitsR = true → (s.pc g).queuedR = false) : Pays f late a s s' := by
  refine pays_of_not_granted ?_ (Or.inr (by rw [hstate]; exact id)) ?_ <;> rw [hpc] <;>
    rcases eq_or_ne f g with rfl | hg
  · rw [Function.update_self]; exact hreads
  · rw [Function.update_of_ne hg]; exact id
  · rw [Function.update_self]; exact fun h h' => by rw [hwaits h] at h'; cases h'
  · rw [Function.update_of_ne hg]; exact fun h _ => h

theorem pays_step {f w : F} {late : Bool} {a : Action F} {s s' : State F} (hq : Queues s)
    (ha : Accounts s) (hw : (s.pc w).waitsW = true) (h : step s a = some s') :
    Pays f late a s s' := by
  have hnode : w ∈ s.bqW := by
    obtain ⟨timed, h⟩ := waitsW_iff.mp hw
    rw [hq.memW, h]; rfl
  cases step_did hq h with
  | refusedR => exact pays_of_not_granted id (Or.inr id) fun h _ => h
  | refusedW => exact pays_of_not_granted id (Or.inr id) fun h _ => h
  | tookR _ _ hnone => rw [hnone] at hnode; cases hnode
  | joinedR hpc => exact pays_of_move rfl rfl (fun h => by cases h) fun _ => by rw [hpc]; rfl
  | @tookW g args hpc =>
    have hwrite : grantsWrite s { s.goto g .writer with state := s.state - 1 } = true :=
      grantsWrite_intro (g := g) (by rw [hpc]; rfl) (by simp [Pc.writes])
    refine pays_of_not_granted ?_ (Or.inl hwrite) ?_ <;> rcases eq_or_ne f g with rfl | hg
    · simp [Pc.reads]
    · simp [hg]
    · simp [Pc.waitsR]
    · simp only [goto_pc, Function.update_of_ne hg]; exact fun h _ => h
  | joinedW => exact pays_of_move rfl rfl (fun h => by cases h) fun h => by cases h
  | @left g hpc hleft =>
    have hmore : 1 < s.state :=
      hleft.resolve_right fun hnone => by rw [(hnone w).2] at hw; cases hw
    refine pays_of_not_granted ?_ (Or.inr fun h => ?_) ?_
    · rcases eq_or_ne f g with rfl | hg
      · simp [State.leave, Pc.reads]
      · simp [State.leave, hg]
    · have h : s.left ≤ 0 := h
      rw [State.left, if_pos (by omega)] at h
      omega
    · rw [(waits_leave hpc f).1]; exact fun h _ => h
  | @leftToR g next s' hpc hfirst hst hg =>
    have hopen : s.state ≤ 0 := by
      by_contra hpos
      rw [hfirst (by omega) w] at hw
      cases hw
    have h0 : (s.leave g).state = 0 := left_eq_zero ha hpc hst
    rcases hg.pc_cases f with hsame | ⟨-, -, hgranted⟩
    · refine pays_of_not_granted ?_ (Or.inr fun _ => hopen) ?_
      · rw [hsame]
        rcases eq_or_ne f g with rfl | hg
        · simp [State.leave, Pc.reads]
        · simp [State.leave, hg]
      · rw [hsame, (waits_leave hpc f).1]; exact fun h _ => h
    · exact pays_of_granted hgranted (by rw [hg.2.1]; omega) (Or.inl hopen)
  | @leftToW g next s' hpc hfirst hst hg =>
    have hnext : (s'.pc next).writes = true := by rw [hg.2.2.1, Function.update_self]; rfl
    have hslept : (s.pc next).writes = false := by
      have := (waits_leave hpc next).2 ▸ hg.1
      obtain ⟨timed, h⟩ := waitsW_iff.mp this
      rw [h]; rfl
    refine pays_of_not_granted ?_ (Or.inl (grantsWrite_intro hslept hnext)) ?_ <;>
      rcases hg.pc_cases f with hsame | ⟨-, -, hgranted⟩
    · rw [hsame]
      rcases eq_or_ne f g with rfl | hg
      · simp [State.leave, Pc.reads]
      · simp [State.leave, hg]
    · rw [hgranted]; exact fun h => by cases h
    · rw [hsame, (waits_leave hpc f).1]; exact fun h _ => h
    · rw [hgranted]; exact fun h => by cases h
  | timedOutR => exact pays_of_move rfl rfl (fun h => by cases h) fun h => by cases h
  | timedOutW => exact pays_of_move rfl rfl (fun h => by cases h) fun h => by cases h
  | cancelledR => exact pays_of_move rfl rfl (fun h => by cases h) fun h => by cases h
  | cancelledW => exact pays_of_move rfl rfl (fun h => by cases h) fun h => by cases h
  | resumedR hpc => exact pays_of_move rfl rfl (fun _ => by rw [hpc]; rfl) fun h => by cases h
  | resumedW => exact pays_of_move rfl rfl (fun h => by cases h) fun h => by cases h
  | settled hpc => exact pays_of_move rfl rfl (fun _ => by rw [hpc]; rfl) fun h => by cases h
  | @pulled g next s' hpc hg =>
    have hreader : s.state = s.readers ∧ s.writers = 0 :=
      accounts_reader ha (f := g) (by rw [hpc]; rfl)
    have hstate : s'.state = s.state + 1 := hg.2.1
    rcases hg.pc_cases f with hsame | ⟨-, hR, hgranted⟩
    · refine pays_of_not_granted ?_ (Or.inr fun h => by omega) ?_ <;> rw [hsame] <;>
        rcases eq_or_ne f g with rfl | hg
      · rw [hpc]; simp [Pc.reads]
      · simp [hg]
      · rw [hpc]; simp [Pc.waitsR]
      · simp only [goto_pc, Function.update_of_ne hg]; exact fun h _ => h
    · have hslept : (s.pc f).waitsR = true := by
        rcases eq_or_ne f g with rfl | hg
        · simp [Pc.waitsR] at hR
        · rwa [goto_pc, Function.update_of_ne hg] at hR
      exact pays_of_granted hgranted (by omega) (Or.inr ⟨hslept, rfl⟩)

end Step

/-! ### A whole stretch -/

/-- RUN: all the while `w` waits, `f` is granted the read lock at most once more than writers are
    granted the lock. -/
theorem promptGrants_le [Fintype F] {s : State F} (late : Bool) (hr : Reach (system F) s)
    {w f : F} {as : List (Action F)} (hw : Along (system F) (fun s => (s.pc w).waitsW = true) s as) :
    promptGrants f late s as ≤ turnsLeft f late s + writeGrants s as := by
  induction as generalizing s late with
  | nil => exact Nat.zero_le _
  | cons a as ih =>
    obtain ⟨hq, ha⟩ := accounts_reach hr
    rw [promptGrants, writeGrants]
    cases hs : step s a with
    | none => exact Nat.zero_le _
    | some s' =>
      have hpay : Pays f late a s s' := pays_step hq ha hw.1 hs
      have hrest := ih (straggler f late s s') (hr.step hs) (hw.2 s' hs)
      rw [Pays, promptGrant] at hpay
      show (grantsRead f s s' && !(late && a.isCascade)).toNat +
        promptGrants f (straggler f late s s') s' as ≤
        turnsLeft f late s + ((grantsWrite s s').toNat + writeGrants s' as)
      omega

/-- CORRECT: from any moment at which a writer waits to any later one up to its grant, no fibre is
    granted the read lock more than once per turn. -/
theorem overtaken_once_per_turn (F : Type) [DecidableEq F] [Fintype F] (s : State F)
    (hr : Reach (system F) s) (w f : F) (as : List (Action F))
    (hw : Along (system F) (fun s => (s.pc w).waitsW = true) s as) :
    promptGrants f false s as ≤ 1 + writeGrants s as := by
  have h := promptGrants_le (f := f) false hr hw
  have := turnsLeft_le_one f false s
  omega

/-- A writer holds the lock; `v` and `w` wait for it as writers and `f` as a reader. -/
def twoWriters (holder v w f : F) : List (Action F) :=
  [.acquireWrite holder (.wait true), .acquireWrite v (.wait true), .acquireWrite w (.wait true),
    .acquireRead f (.wait true)]

/-- The reader has its turn, then the writer `v`, then the reader again. -/
def twoTurns (holder v f : F) : List (Action F) :=
  [.release holder, .resumption f, .cascade f, .release f, .acquireRead f (.wait true), .resumption v,
    .release v]

theorem overtaken_once_per_turn_twoTurns : ∃ s : State (Fin 4),
    Reach (system (Fin 4)) s ∧ promptGrants 3 false s (twoTurns 0 1 3) = 2 ∧
      promptGrants 3 false s (twoTurns 0 1 3) ≤ 1 + writeGrants s (twoTurns 0 1 3) := by
  obtain ⟨s, hr, hp⟩ := reach_of_exec (system (Fin 4)) start (twoWriters 0 1 2 3)
    (fun s => along (system (Fin 4)) (fun s => (s.pc 2).waitsW) s (twoTurns 0 1 3) &&
      promptGrants 3 false s (twoTurns 0 1 3) == 2) rfl (by decide)
  simp only [Bool.and_eq_true, beq_iff_eq] at hp
  exact ⟨s, hr, hp.2, overtaken_once_per_turn (Fin 4) s hr 2 3 (twoTurns 0 1 3) (Along.of_along hp.1)⟩

/-- WRONG: with another writer in front, a reader overtakes the waiting writer 2 twice. -/
theorem overtaken_twice : ¬ ∀ as (s : State (Fin 4)),
    Run (system (Fin 4)) (Avoids fun _ a => a.timed) as s → ∀ (w f : Fin 4) (bs : List (Action (Fin 4))),
      (∀ b ∈ bs, b.timed = false) →
      Along (system (Fin 4)) (fun s => (s.pc w).waitsW = true) s bs → readGrants f s bs ≤ 1 := by
  intro hall
  obtain ⟨s, hrun, hp⟩ := run_of_execAvoiding (system (Fin 4)) (fun _ a => a.timed) start
    (twoWriters 0 1 2 3) (fun s => along (system (Fin 4)) (fun s => (s.pc 2).waitsW) s (twoTurns 0 1 3) &&
      readGrants 3 s (twoTurns 0 1 3) == 2) rfl (by decide)
  simp only [Bool.and_eq_true, beq_iff_eq] at hp
  have := hall (twoWriters 0 1 2 3) s hrun 2 3 (twoTurns 0 1 3) (by decide) (Along.of_along hp.1)
  omega

end Libfibre.LockedRWLock
