import Libfibre.LockedRWLock.Model
import Libfibre.Schemes.Tally

/-! Exclusion and accounting of `LockedRWLock`. The counter is updated by whoever passes the baton,
    in five different places; it nevertheless always says who holds the lock, granted fibres that
    have not run yet included: -1 for one writer and no reader, `n ≥ 0` for `n` readers and no
    writer. A call that ends with `false` has no part in that at any of its steps. -/

namespace Libfibre.LockedRWLock
open Transition BlockingQueue Tally

variable {F : Type} [DecidableEq F]

section Counting
variable [Fintype F]

/-- The fibres that hold or have been granted the read lock. -/
def State.readers (s : State F) : ℕ := tally (fun p => p.reads.toNat) s.pc

/-- The fibres that hold or have been granted the write lock. -/
def State.writers (s : State F) : ℕ := tally (fun p => p.writes.toNat) s.pc

/-- The counter tells the holders. -/
def Accounts (s : State F) : Prop :=
  (s.state = -1 ∧ s.writers = 1 ∧ s.readers = 0) ∨ (s.state = s.readers ∧ s.writers = 0)

theorem readers_goto (s : State F) (f : F) (p : Pc) :
    (s.goto f p).readers + (s.pc f).reads.toNat = s.readers + p.reads.toNat :=
  tally_update _ s.pc f p

theorem writers_goto (s : State F) (f : F) (p : Pc) :
    (s.goto f p).writers + (s.pc f).writes.toNat = s.writers + p.writes.toNat :=
  tally_update _ s.pc f p

/-- A step that moves one fibre between two places that count the same and leaves the counter. -/
theorem Accounts.move {s s' : State F} {f : F} {p : Pc} (ha : Accounts s)
    (hstate : s'.state = s.state) (hpc : s'.pc = Function.update s.pc f p)
    (hr : p.reads = (s.pc f).reads) (hw : p.writes = (s.pc f).writes) : Accounts s' := by
  have h1 := readers_goto s f p
  have h2 := writers_goto s f p
  have hreaders : s'.readers = (s.goto f p).readers := by simp only [State.readers, hpc, goto_pc]
  have hwriters : s'.writers = (s.goto f p).writers := by simp only [State.writers, hpc, goto_pc]
  rw [hr] at h1
  rw [hw] at h2
  rw [Accounts, hstate, hreaders, hwriters]
  rcases ha with ⟨h3, h4, h5⟩ | ⟨h3, h4⟩ <;> omega

theorem GrantsR.counts {s s' : State F} {next : F} (h : GrantsR s next s') :
    s'.readers = s.readers + 1 ∧ s'.writers = s.writers := by
  obtain ⟨hopen, -, hpc, -⟩ := h
  have h1 := readers_goto s next .grantedR
  have h2 := writers_goto s next .grantedR
  have hreaders : s'.readers = (s.goto next .grantedR).readers := by
    simp only [State.readers, hpc, goto_pc]
  have hwriters : s'.writers = (s.goto next .grantedR).writers := by
    simp only [State.writers, hpc, goto_pc]
  rw [hreaders, hwriters]
  obtain ⟨timed, hn⟩ := waitsR_iff.mp hopen
  rw [hn] at h1 h2
  exact ⟨h1, h2⟩

theorem GrantsW.counts {s s' : State F} {next : F} (h : GrantsW s next s') :
    s'.readers = s.readers ∧ s'.writers = s.writers + 1 := by
  obtain ⟨hopen, -, hpc, -⟩ := h
  have h1 := readers_goto s next .grantedW
  have h2 := writers_goto s next .grantedW
  have hreaders : s'.readers = (s.goto next .grantedW).readers := by
    simp only [State.readers, hpc, goto_pc]
  have hwriters : s'.writers = (s.goto next .grantedW).writers := by
    simp only [State.writers, hpc, goto_pc]
  rw [hreaders, hwriters]
  obtain ⟨timed, hn⟩ := waitsW_iff.mp hopen
  rw [hn] at h1 h2
  exact ⟨h1, h2⟩

/-- A holder's leaving is one reader less or the writer less. -/
theorem accounts_leave {s : State F} {f : F} (ha : Accounts s)
    (hpc : s.pc f = .reader ∨ s.pc f = .writer) :
    (s.leave f).state = (s.leave f).readers ∧ (s.leave f).writers = 0 := by
  have h1 : (s.leave f).readers + (s.pc f).reads.toNat = s.readers + 0 := readers_goto s f .out
  have h2 : (s.leave f).writers + (s.pc f).writes.toNat = s.writers + 0 := writers_goto s f .out
  have hs : (s.leave f).state = s.left := rfl
  rw [hs, State.left]
  rcases hpc with hpc | hpc <;> rw [hpc] at h1 h2 <;>
    simp only [Pc.reads, Pc.writes, Bool.toNat_true, Bool.toNat_false, Nat.add_zero] at h1 h2 <;>
    rcases ha with ⟨h3, h4, h5⟩ | ⟨h3, h4⟩ <;> split_ifs <;> omega

omit [DecidableEq F] in
/-- The section that lets somebody in starts from an open lock. -/
theorem left_eq_zero {s : State F} {f : F} (ha : Accounts s)
    (hpc : s.pc f = .reader ∨ s.pc f = .writer) (hst : s.state ≤ 1) : s.left = 0 := by
  have h1 : (s.pc f).reads.toNat ≤ s.readers := le_tally (fun p : Pc => p.reads.toNat) s.pc f
  have h2 : (s.pc f).writes.toNat ≤ s.writers := le_tally (fun p : Pc => p.writes.toNat) s.pc f
  rw [State.left]
  rcases hpc with hpc | hpc <;> rw [hpc] at h1 h2 <;>
    simp only [Pc.reads, Pc.writes, Bool.toNat_true, Bool.toNat_false] at h1 h2 <;>
    rcases ha with ⟨h3, h4, h5⟩ | ⟨h3, h4⟩ <;> split_ifs <;> omega

/-- Handing the lock on keeps the account, provided it is open when a writer gets it. -/
theorem accounts_grantsR {s s' : State F} {next : F} (h : GrantsR s next s')
    (ha : s.state = s.readers ∧ s.writers = 0) : Accounts s' := by
  obtain ⟨hr, hw⟩ := h.counts
  obtain ⟨-, hstate, -⟩ := h
  right
  omega

theorem accounts_grantsW {s s' : State F} {next : F} (h : GrantsW s next s')
    (ha : s.state = s.readers ∧ s.writers = 0) (h0 : s.state = 0) : Accounts s' := by
  obtain ⟨hr, hw⟩ := h.counts
  obtain ⟨-, hstate, -⟩ := h
  left
  omega

omit [DecidableEq F] in
/-- A reader in its second section is counted, so there is no writer. -/
theorem accounts_reader {s : State F} {f : F} (ha : Accounts s) (hpc : (s.pc f).reads = true) :
    s.state = s.readers ∧ s.writers = 0 := by
  have h1 : (s.pc f).reads.toNat ≤ s.readers := le_tally (fun p : Pc => p.reads.toNat) s.pc f
  rw [hpc, Bool.toNat_true] at h1
  rcases ha with ⟨h3, h4, h5⟩ | ha
  · omega
  · exact ha

/-- STEP: whatever section runs, the counter tells the holders afterwards. -/
theorem accounts_step {s s' : State F} {a : Action F} (hq : Queues s) (ha : Accounts s)
    (h : step s a = some s') : Accounts s' := by
  cases step_did hq h with
  | refusedR => exact ha
  | refusedW => exact ha
  | @tookR f args hpc hst =>
    have h1 := readers_goto s f .reader
    have h2 := writers_goto s f .reader
    simp only [hpc, Pc.reads, Pc.writes, Bool.toNat_true, Bool.toNat_false] at h1 h2
    rcases ha with ⟨h3, -, -⟩ | ⟨h3, h4⟩
    · omega
    · right
      constructor
      · show s.state + 1 = ((s.goto f .reader).readers : ℤ); omega
      · show (s.goto f .reader).writers = 0; omega
  | @tookW f args hpc hst =>
    have h1 := readers_goto s f .writer
    have h2 := writers_goto s f .writer
    simp only [hpc, Pc.reads, Pc.writes, Bool.toNat_true, Bool.toNat_false] at h1 h2
    rcases ha with ⟨h3, -, -⟩ | ⟨h3, h4⟩
    · omega
    · left
      refine ⟨?_, ?_, ?_⟩
      · show s.state - 1 = -1; omega
      · show (s.goto f .writer).writers = 1; omega
      · show (s.goto f .writer).readers = 0; omega
  | joinedR hpc => exact ha.move rfl rfl (by rw [hpc]; rfl) (by rw [hpc]; rfl)
  | joinedW hpc => exact ha.move rfl rfl (by rw [hpc]; rfl) (by rw [hpc]; rfl)
  | left hpc => exact Or.inr (accounts_leave ha hpc)
  | leftToR hpc _ _ hg => exact accounts_grantsR hg (accounts_leave ha hpc)
  | leftToW hpc _ hst hg =>
    exact accounts_grantsW hg (accounts_leave ha hpc) (left_eq_zero ha hpc hst)
  | timedOutR hpc => exact ha.move rfl rfl (by rw [hpc]; rfl) (by rw [hpc]; rfl)
  | timedOutW hpc => exact ha.move rfl rfl (by rw [hpc]; rfl) (by rw [hpc]; rfl)
  | cancelledR hpc => exact ha.move rfl rfl (by rw [hpc]; rfl) (by rw [hpc]; rfl)
  | cancelledW hpc => exact ha.move rfl rfl (by rw [hpc]; rfl) (by rw [hpc]; rfl)
  | resumedR hpc => exact ha.move rfl rfl (by rw [hpc]; rfl) (by rw [hpc]; rfl)
  | resumedW hpc => exact ha.move rfl rfl (by rw [hpc]; rfl) (by rw [hpc]; rfl)
  | settled hpc => exact ha.move rfl rfl (by rw [hpc]; rfl) (by rw [hpc]; rfl)
  | @pulled f next s' hpc hg =>
    have hsame : Accounts (s.goto f .reader) :=
      ha.move rfl rfl (by rw [hpc]; rfl) (by rw [hpc]; rfl)
    exact accounts_grantsR hg (accounts_reader (f := f) hsame (by simp [Pc.reads]))

omit [DecidableEq F] in
theorem accounts_start : Accounts (start : State F) :=
  Or.inr ⟨by simp [start, State.readers, tally, Pc.reads],
    by simp [start, State.writers, tally, Pc.writes]⟩

theorem accounts_reach {s : State F} (h : Reach (system F) s) : Queues s ∧ Accounts s := by
  refine h.inv (I := fun s => Queues s ∧ Accounts s) ?_ fun _ _ _ hi hs =>
    ⟨queues_step hi.1 hs, accounts_step hi.1 hi.2 hs⟩
  rintro _ rfl
  exact ⟨queues_start, accounts_start⟩

end Counting

/-! ### Calls that return `false` -/

/-- The fibre whose own step an action is. -/
def Action.fibre : Action F → F
  | .acquireRead f _ | .acquireWrite f _ | .release f | .timer f | .cancel f | .resumption f
  | .cascade f => f

/-- The action begins a call of `acquireRead` or `acquireWrite`. -/
def Action.begins : Action F → Bool
  | .acquireRead _ _ | .acquireWrite _ _ => true
  | _ => false

/-- Neither the counter nor the set of holders has changed. -/
def Untouched (s s' : State F) : Prop :=
  s'.state = s.state ∧ ∀ g, (s'.pc g).reads = (s.pc g).reads ∧ (s'.pc g).writes = (s.pc g).writes

theorem untouched_move {s s' : State F} {f : F} {p : Pc} (hstate : s'.state = s.state)
    (hpc : s'.pc = Function.update s.pc f p) (hr : p.reads = (s.pc f).reads)
    (hw : p.writes = (s.pc f).writes) : Untouched s s' := by
  refine ⟨hstate, fun g => ?_⟩
  rcases eq_or_ne g f with rfl | hg
  · rw [hpc, Function.update_self]; exact ⟨hr, hw⟩
  · rw [hpc, Function.update_of_ne hg]; exact ⟨rfl, rfl⟩

/-- The fibre has a node in a queue: its call is undecided or has already failed. -/
def Pc.queued (p : Pc) : Bool := p.queuedR || p.queuedW

/-- The end of a holder's `release`: the holder itself is out. -/
theorem release_out {s s' : State F} {f : F} (hq : Queues s) (h : step s (.release f) = some s') :
    s'.pc f = .out := by
  have hout : (s.leave f).pc f = .out := by simp [State.leave]
  cases step_did hq h with
  | left => exact hout
  | leftToR _ _ _ hg =>
    rcases hg.pc_cases f with h | ⟨-, h, -⟩
    · rw [h, hout]
    · rw [hout] at h; cases h
  | leftToW _ _ _ hg =>
    rcases hg.pc_cases f with h | ⟨-, h, -⟩
    · rw [h, hout]
    · rw [hout] at h; cases h

/-- The end of a woken reader's second section: it holds the read lock. -/
theorem cascade_reader {s s' : State F} {f : F} (hq : Queues s) (h : step s (.cascade f) = some s') :
    s'.pc f = .reader := by
  have hreader : (s.goto f .reader).pc f = .reader := by simp
  cases step_did hq h with
  | settled => exact hreader
  | pulled _ hg =>
    rcases hg.pc_cases f with h | ⟨-, h, -⟩
    · rw [h, hreader]
    · rw [hreader] at h; cases h

/-- A fibre's own step that ends with its node in a queue touches nothing. -/
theorem untouched_queued {s s' : State F} {a : Action F} (hq : Queues s)
    (h : step s a = some s') (hend : (s'.pc a.fibre).queued = true) : Untouched s s' := by
  cases step_did hq h with
  | refusedR => exact ⟨rfl, fun _ => ⟨rfl, rfl⟩⟩
  | refusedW => exact ⟨rfl, fun _ => ⟨rfl, rfl⟩⟩
  | joinedR hpc => exact untouched_move rfl rfl (by rw [hpc]; rfl) (by rw [hpc]; rfl)
  | joinedW hpc => exact untouched_move rfl rfl (by rw [hpc]; rfl) (by rw [hpc]; rfl)
  | timedOutR hpc => exact untouched_move rfl rfl (by rw [hpc]; rfl) (by rw [hpc]; rfl)
  | timedOutW hpc => exact untouched_move rfl rfl (by rw [hpc]; rfl) (by rw [hpc]; rfl)
  | cancelledR hpc => exact untouched_move rfl rfl (by rw [hpc]; rfl) (by rw [hpc]; rfl)
  | cancelledW hpc => exact untouched_move rfl rfl (by rw [hpc]; rfl) (by rw [hpc]; rfl)
  | @left f => rw [Action.fibre, release_out hq h] at hend; cases hend
  | @leftToR f => rw [Action.fibre, release_out hq h] at hend; cases hend
  | @leftToW f => rw [Action.fibre, release_out hq h] at hend; cases hend
  | @settled f => rw [Action.fibre, cascade_reader hq h] at hend; cases hend
  | @pulled f => rw [Action.fibre, cascade_reader hq h] at hend; cases hend
  | tookR => simp [Action.fibre, Pc.queued, Pc.queuedR, Pc.queuedW] at hend
  | tookW => simp [Action.fibre, Pc.queued, Pc.queuedR, Pc.queuedW] at hend
  | resumedR => simp [Action.fibre, Pc.queued, Pc.queuedR, Pc.queuedW] at hend
  | resumedW => simp [Action.fibre, Pc.queued, Pc.queuedR, Pc.queuedW] at hend

/-- A node gets into a queue only when its fibre begins a call. -/
theorem queued_back {s s' : State F} {a : Action F} {f : F} (hq : Queues s)
    (h : step s a = some s') (hbegin : a.begins = true → a.fibre ≠ f)
    (hend : (s'.pc f).queued = true) : (s.pc f).queued = true := by
  -- a single fibre moves, and it does not move into a queue
  have hmove : ∀ {g : F} {p : Pc}, (f = g → p.queued = true → (s.pc g).queued = true) →
      ((s.goto g p).pc f).queued = true → (s.pc f).queued = true := by
    intro g p hg hp
    rcases eq_or_ne f g with rfl | hne
    · rw [goto_pc, Function.update_self] at hp; exact hg rfl hp
    · rwa [goto_pc, Function.update_of_ne hne] at hp
  cases step_did hq h with
  | refusedR => exact hend
  | refusedW => exact hend
  | tookR => exact hmove (fun _ hp => by cases hp) hend
  | tookW => exact hmove (fun _ hp => by cases hp) hend
  | joinedR => exact hmove (fun hfg _ => absurd hfg.symm (hbegin rfl)) hend
  | joinedW => exact hmove (fun hfg _ => absurd hfg.symm (hbegin rfl)) hend
  | left => exact hmove (fun _ hp => by cases hp) hend
  | leftToR _ _ _ hg =>
    rcases hg.pc_cases f with h | ⟨-, -, h⟩
    · rw [h] at hend; exact hmove (fun _ hp => by cases hp) hend
    · rw [h] at hend; cases hend
  | leftToW _ _ _ hg =>
    rcases hg.pc_cases f with h | ⟨-, -, h⟩
    · rw [h] at hend; exact hmove (fun _ hp => by cases hp) hend
    · rw [h] at hend; cases hend
  | timedOutR hpc => exact hmove (fun _ _ => by rw [hpc]; rfl) hend
  | timedOutW hpc => exact hmove (fun _ _ => by rw [hpc]; rfl) hend
  | cancelledR => exact hmove (fun _ hp => by cases hp) hend
  | cancelledW => exact hmove (fun _ hp => by cases hp) hend
  | resumedR => exact hmove (fun _ hp => by cases hp) hend
  | resumedW => exact hmove (fun _ hp => by cases hp) hend
  | settled => exact hmove (fun _ hp => by cases hp) hend
  | pulled _ hg =>
    rcases hg.pc_cases f with h | ⟨-, -, h⟩
    · rw [h] at hend; exact hmove (fun _ hp => by cases hp) hend
    · rw [h] at hend; cases hend

theorem queues_reach {s : State F} (h : Reach (system F) s) : Queues s := by
  refine h.inv (I := Queues) ?_ fun _ _ _ hi hs => queues_step hi hs
  rintro _ rfl
  exact queues_start

/-- CORRECT: in every interleaving the counter is -1 exactly for one writer and no reader, `n` exactly
    for no writer and `n` readers, and no step of a call that returns `false` touches the counter or
    the set of holders. -/
theorem exclusion_and_accounting (F : Type) [DecidableEq F] [Fintype F] :
    (∀ s, Reach (system F) s →
      (s.state = -1 ↔ s.writers = 1 ∧ s.readers = 0) ∧
      (∀ n : ℕ, s.state = n ↔ s.writers = 0 ∧ s.readers = n) ∧ -1 ≤ s.state) ∧
    (∀ s₀ s₁ call, Reach (system F) s₀ → call.begins = true → step s₀ call = some s₁ →
      -- refused at once
      (s₁.pc call.fibre = .out → Untouched s₀ s₁) ∧
      -- or queued, timed out and cancelled, whatever the others do in between
      (∀ mid s₂ s₃, exec (system F) s₁ mid = some s₂ →
        (∀ b ∈ mid, b.begins = true → b.fibre ≠ call.fibre) →
        step s₂ (.cancel call.fibre) = some s₃ →
        Untouched s₀ s₁ ∧ Untouched s₂ s₃ ∧
        ∀ front b back t t', mid = front ++ b :: back → exec (system F) s₁ front = some t →
          step t b = some t' → b.fibre = call.fibre → Untouched t t')) := by
  refine ⟨fun s hr => ?_, fun s₀ s₁ call hr hcall h₀ => ⟨fun hout => ?_, ?_⟩⟩
  · obtain ⟨-, ha⟩ := accounts_reach hr
    refine ⟨?_, fun n => ?_, ?_⟩ <;> rcases ha with ⟨h1, h2, h3⟩ | ⟨h1, h2⟩ <;> omega
  · cases step_did (queues_reach hr) h₀ with
    | refusedR => exact ⟨rfl, fun _ => ⟨rfl, rfl⟩⟩
    | refusedW => exact ⟨rfl, fun _ => ⟨rfl, rfl⟩⟩
    | _ => simp_all [Action.begins, Action.fibre]
  · intro mid s₂ s₃ hmid hown h₃
    have hr₁ : Reach (system F) s₁ := hr.step h₀
    have hq₁ := queues_reach hr₁
    have hq₂ := queues_reach (hr₁.exec hmid)
    have hexpired : (s₂.pc call.fibre).queued = true := by
      simp only [step] at h₃
      split at h₃ <;> rename_i hpc <;> first | (rw [hpc]; rfl) | cases h₃
    -- from its end backwards, the fibre's node is in a queue all through the call
    have halong : Along (system F) (fun s => (s.pc call.fibre).queued = true) s₁ mid :=
      Along.of_last (I := Queues) (fun _ _ _ hq h => queues_step hq h)
        (fun b hb _ _ hq h hend => queued_back hq h (hown b hb) hend) hq₁ hmid hexpired
    refine ⟨untouched_queued (queues_reach hr) h₀ halong.here, ?_, ?_⟩
    · cases step_did hq₂ h₃ with
      | cancelledR hpc => exact untouched_move rfl rfl (by rw [hpc]; rfl) (by rw [hpc]; rfl)
      | cancelledW hpc => exact untouched_move rfl rfl (by rw [hpc]; rfl) (by rw [hpc]; rfl)
    · refine halong.own_steps (I := Queues) (fun _ _ _ hq h => queues_step hq h) ?_ hq₁
      intro s a s' hq hfibre h hend
      refine untouched_queued hq h ?_
      rwa [hfibre]

/-- A woken reader that has not run yet is counted. -/
theorem exclusion_and_accounting_granted : ∃ s : State (Fin 2), Reach (system (Fin 2)) s ∧
    s.pc 1 = .grantedR ∧ s.writers = 0 ∧ s.readers = 1 := by
  obtain ⟨s, hr, hp⟩ := reach_of_exec (system (Fin 2)) start
    [.acquireWrite 0 (.wait true), .acquireRead 1 (.timeout true), .release 0]
    (fun s => s.pc 1 == .grantedR && s.state == (1 : ℕ)) rfl (by decide)
  simp only [Bool.and_eq_true, beq_iff_eq] at hp
  obtain ⟨hw, hread⟩ := (((exclusion_and_accounting (Fin 2)).1 s hr).2.1 1).mp hp.2
  exact ⟨s, hr, hp.1, hw, hread⟩

end Libfibre.LockedRWLock
