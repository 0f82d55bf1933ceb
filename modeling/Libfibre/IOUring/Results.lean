import Libfibre.IOUring.Model

/-! What the ring is for. A fibre gets one result for each of its calls, the one that the kernel made for
    it; a worker leaves `halt` once for each time it is resumed, and sleeps only when nothing is left
    to submit. -/

namespace Libfibre.IOUring
open Transition

variable {F : Type} [DecidableEq F] {s s' t : State F} {f : F} {a : Action F} {as : List (Action F)}

/-! ### Results -/

def calls (f : F) (_ : State F) : Action F → Bool
  | Action.syncIO g => decide (g = f)
  | _ => false

def returns (f : F) (_ : State F) : Action F → Bool
  | .return g _ => decide (g = f)
  | _ => false

/-- The kernel completes the request of `f` with `res`. -/
def completes (f : F) (res : ℤ) (_ : State F) : Action F → Bool
  | .complete g r => decide (g = f ∧ r = res)
  | _ => false

/-- `syncIO` returns `res` to `f`. -/
def receives (f : F) (res : ℤ) (_ : State F) : Action F → Bool
  | .return g r => decide (g = f ∧ r = res)
  | _ => false

/-- Results that are on their way to `f`. -/
def State.results (s : State F) (f : F) (res : ℤ) : ℕ :=
  s.cq.count (.block f, res) + if s.pc f = .resumed res then 1 else 0

/-- What a step is for one fibre: nothing, or one of the four stages of a call. -/
inductive Stage (f : F) (s s' : State F) (a : Action F) : Prop
  | other : s'.pc f = s.pc f → (∀ res, s'.cq.count (.block f, res) = s.cq.count (.block f, res)) →
      calls f s a = false → returns f s a = false → (∀ res, completes f res s a = false) →
      (∀ res, receives f res s a = false) → Stage f s s' a
  | called : a = Action.syncIO f → s.pc f = .out → s'.pc f = .waiting → s'.cq = s.cq → Stage f s s' a
  | completed (res : ℤ) : a = .complete f res → s'.pc f = s.pc f → s'.cq = s.cq ++ [(.block f, res)] →
      Stage f s s' a
  | resumed (res : ℤ) : calls f s a = false → returns f s a = false →
      (∀ r, completes f r s a = false) → (∀ r, receives f r s a = false) → s.pc f = .waiting →
      s'.pc f = .resumed res → s.cq = (.block f, res) :: s'.cq → Stage f s s' a
  | returned (res : ℤ) : a = .return f res → s.pc f = .resumed res → s'.pc f = .out → s'.cq = s.cq →
      Stage f s s' a

omit [DecidableEq F] in
theorem submitRing_pc (s : State F) (n : Option ℕ) :
    (submitRing s n).pc = s.pc ∧ (submitRing s n).cq = s.cq := by
  cases n <;> exact ⟨rfl, rfl⟩

/-- A step of the worker that touches neither fibres nor completions. -/
theorem Stage.quiet (hpc : s'.pc = s.pc) (hcq : s'.cq = s.cq) (hcalls : calls f s a = false)
    (hreturns : returns f s a = false) (hcompletes : ∀ res, completes f res s a = false)
    (hreceives : ∀ res, receives f res s a = false) : Stage f s s' a :=
  .other (congrFun hpc f) (fun res => by rw [hcq]) hcalls hreturns hcompletes hreceives

/-- `processCQE`: the completion is for `f`, or it is not. -/
theorem Stage.processed (h : Inv s) {c : Entry F × ℤ} {cq : List (Entry F × ℤ)} {resume : ℕ}
    (hcq : s.cq = c :: cq) (hpc' : s'.pc = (processCQE { s with cq := cq } resume c).1.pc)
    (hcq' : s'.cq = cq) (hcalls : calls f s a = false) (hreturns : returns f s a = false)
    (hcompletes : ∀ res, completes f res s a = false) (hreceives : ∀ res, receives f res s a = false) :
    Stage f s s' a := by
  obtain ⟨e, res⟩ := c
  cases e with
  | halt =>
    refine .other (congrFun hpc' f) (fun r => ?_) hcalls hreturns hcompletes hreceives
    rw [hcq', hcq, List.count_cons, if_neg (by simp)]
    rfl
  | block g =>
    rcases eq_or_ne g f with rfl | hg
    · have hwaiting : s.pc g = .waiting := by
        by_contra hn
        have hb := h.blocks g
        rw [State.total, hcq, List.map_cons, List.count_cons_self, if_neg hn] at hb
        omega
      exact .resumed res hcalls hreturns hcompletes hreceives hwaiting
        ((congrFun hpc' g).trans (Function.update_self ..)) (hcq' ▸ hcq)
    · refine .other ((congrFun hpc' f).trans (Function.update_of_ne hg.symm ..)) (fun r => ?_) hcalls
        hreturns hcompletes hreceives
      rw [hcq', hcq, List.count_cons, if_neg (by simp [hg])]
      rfl

/-- STEP: the stages are all that can happen to a fibre. -/
theorem stage_of_step (h : Inv s) (hs : step s a = some s') : Stage f s s' a := by
  cases a with
  | syncIO g =>
    rw [step] at hs
    split at hs
    · obtain ⟨hpc, hs⟩ := Option.ite_none_right_eq_some.mp hs
      obtain rfl := Option.some.inj hs
      rcases eq_or_ne g f with rfl | hg
      · exact .called rfl hpc (Function.update_self ..) rfl
      · exact .other (Function.update_of_ne hg.symm ..) (fun _ => rfl) (decide_eq_false hg) rfl (fun _ => rfl)
          fun _ => rfl
    · cases hs
  | getSqe =>
    rw [step] at hs
    split at hs
    · rename_i e hw
      obtain rfl := Option.some.inj hs
      have hquiet : (getSqe s e).pc = s.pc ∧ (getSqe s e).cq = s.cq := by
        rw [getSqe]
        split <;> exact ⟨rfl, rfl⟩
      exact .quiet hquiet.1 hquiet.2 rfl rfl (fun _ => rfl) fun _ => rfl
    · cases hs
  | submit n =>
    obtain ⟨-, hs⟩ := Option.ite_none_right_eq_some.mp hs
    have hquiet := submitRing_pc s n
    split at hs
    · obtain rfl := Option.some.inj hs
      exact .quiet hquiet.1 hquiet.2 rfl rfl (fun _ => rfl) fun _ => rfl
    · obtain rfl := Option.some.inj hs
      exact .quiet hquiet.1 hquiet.2 rfl rfl (fun _ => rfl) fun _ => rfl
    · obtain rfl := Option.some.inj hs
      exact .quiet hquiet.1 hquiet.2 rfl rfl (fun _ => rfl) fun _ => rfl
    · cases hs
  | waitCqe =>
    rw [step] at hs
    split at hs
    · rename_i c cq hw hcq
      obtain rfl := Option.some.inj hs
      refine .processed h hcq rfl ?_ rfl rfl (fun _ => rfl) fun _ => rfl
      obtain ⟨e, res⟩ := c
      cases e <;> rfl
    · cases hs
  | peek =>
    rw [step] at hs
    split at hs
    · obtain rfl := Option.some.inj hs
      exact .quiet rfl rfl rfl rfl (fun _ => rfl) fun _ => rfl
    · cases hs
  | processCQE =>
    rw [step] at hs
    split at hs
    · rename_i pt n resume c cq hw hcq
      obtain rfl := Option.some.inj hs
      refine .processed h hcq rfl ?_ rfl rfl (fun _ => rfl) fun _ => rfl
      obtain ⟨e, res⟩ := c
      cases e <;> rfl
    · cases hs
  | endPoll =>
    rw [step] at hs
    split at hs
    · rename_i pt resume hw
      obtain rfl := Option.some.inj hs
      have hquiet : (endPoll s resume pt).pc = s.pc ∧ (endPoll s resume pt).cq = s.cq := by
        cases pt with
        | check e => cases e <;> exact ⟨rfl, rfl⟩
        | suspend =>
          rw [endPoll]
          split <;> exact ⟨rfl, rfl⟩
        | _ => exact ⟨rfl, rfl⟩
      exact .quiet hquiet.1 hquiet.2 rfl rfl (fun _ => rfl) fun _ => rfl
    · cases hs
  | poll | block | trySuspend | suspend =>
    rw [step] at hs
    split at hs
    · obtain rfl := Option.some.inj hs
      exact .quiet rfl rfl rfl rfl (fun _ => rfl) fun _ => rfl
    · cases hs
  | resume =>
    obtain ⟨-, hs⟩ := Option.ite_none_right_eq_some.mp hs
    obtain rfl := Option.some.inj hs
    exact .quiet rfl rfl rfl rfl (fun _ => rfl) fun _ => rfl
  | complete g res =>
    obtain ⟨-, hs⟩ := Option.ite_none_right_eq_some.mp hs
    obtain rfl := Option.some.inj hs
    rcases eq_or_ne g f with rfl | hg
    · exact .completed res rfl rfl rfl
    · refine .other rfl (fun r => ?_) rfl rfl (fun r => decide_eq_false fun hc => hg hc.1) fun _ => rfl
      have hne : (Entry.block g, res) ≠ (Entry.block f, r) := fun heq =>
        hg (Entry.block.inj (Prod.mk.inj heq).1)
      rw [List.count_append, List.count_singleton, if_neg (by simpa using hne)]
      rfl
  | completeHalt =>
    obtain ⟨-, hs⟩ := Option.ite_none_right_eq_some.mp hs
    obtain rfl := Option.some.inj hs
    refine .other rfl (fun r => ?_) rfl rfl (fun _ => rfl) fun _ => rfl
    rw [List.count_append, List.count_singleton, if_neg (by simp)]
    rfl
  | «return» g res =>
    obtain ⟨hpc, hs⟩ := Option.ite_none_right_eq_some.mp hs
    obtain rfl := Option.some.inj hs
    rcases eq_or_ne g f with rfl | hg
    · exact .returned res rfl hpc (Function.update_self ..) rfl
    · exact .other (Function.update_of_ne hg.symm ..) (fun _ => rfl) rfl (decide_eq_false hg) (fun _ => rfl)
        fun r => decide_eq_false fun hc => hg hc.1

/-- STEP: a call that begins or ends is one that the fibre is in, or no longer. -/
theorem called_step (h : Inv s) (hs : step s a = some s') :
    (if calls f s a then 1 else 0) + (if s.pc f = .out then 0 else 1)
      = (if returns f s a then 1 else 0) + if s'.pc f = .out then 0 else 1 := by
  cases stage_of_step (f := f) h hs with
  | other hpc _ hc hr _ _ => rw [hpc, hc, hr]
  | called ha hpc hpc' _ =>
    subst ha
    simp [calls, returns, hpc, hpc']
  | completed res ha hpc' _ =>
    subst ha
    simp [calls, returns, hpc']
  | resumed res hc hr _ _ hpc hpc' _ => simp [hc, hr, hpc, hpc']
  | returned res ha hpc hpc' _ =>
    subst ha
    simp [calls, returns, hpc, hpc']

/-- STEP: a result that the kernel makes stays until the fibre receives it. -/
theorem results_step (res : ℤ) (h : Inv s) (hs : step s a = some s') :
    (if completes f res s a then 1 else 0) + s.results f res
      = (if receives f res s a then 1 else 0) + s'.results f res := by
  rw [State.results, State.results]
  cases stage_of_step (f := f) h hs with
  | other hpc hcq _ _ hc hr => rw [hpc, hcq, hc, hr]
  | called ha hpc hpc' hcq =>
    subst ha
    simp [completes, receives, hpc, hpc', hcq]
  | completed r ha hpc' hcq =>
    subst ha
    rw [hpc', hcq, List.count_append, List.count_singleton]
    simp only [completes, receives, true_and, Bool.false_eq_true, if_false, beq_iff_eq, Prod.mk.injEq,
      decide_eq_true_eq]
    omega
  | resumed r _ _ hc hr hpc hpc' hcq =>
    rw [hc, hr, hpc, hpc', hcq, List.count_cons]
    simp only [beq_iff_eq, Prod.mk.injEq, true_and, Pc.resumed.injEq, reduceCtorEq, if_false]
    omega
  | returned r ha hpc hpc' hcq =>
    subst ha
    rw [hpc, hpc', hcq]
    simp only [completes, receives, true_and, Bool.false_eq_true, if_false, Pc.resumed.injEq, reduceCtorEq,
      decide_eq_true_eq]
    omega

theorem inv_of_exec (he : exec (system F) .init as = some t) : Inv t :=
  inv_exec (fun _ _ _ hi hs => hi.step hs) inv_init he

/-- RUN: `syncIO` returns once for each call, each result that the kernel makes for a fibre reaches that
    fibre once, and as long as a fibre waits for one its entry is in exactly one place: in the hand of
    `submit`, the submission queue, the kernel or the completion queue. -/
theorem syncIO_results (he : exec (system F) .init as = some t) (f : F) :
    times (system F) (calls f) .init as
      = times (system F) (returns f) .init as + (if t.pc f = .out then 0 else 1) ∧
    (∀ res, times (system F) (completes f res) .init as
      = times (system F) (receives f res) .init as + t.results f res) ∧
    t.total (.block f) = if t.pc f = .waiting then 1 else 0 := by
  have hkeep : ∀ (s : State F) a s', Inv s → (system F).step s a = some s' → Inv s' :=
    fun _ _ _ hi hs => hi.step hs
  refine ⟨?_, fun res => ?_, (inv_of_exec he).blocks f⟩
  · exact times_balance (μ := fun s : State F => if s.pc f = .out then 0 else 1) hkeep
      (fun _ _ _ hi hs => called_step hi hs) inv_init he
  · exact times_balance (μ := fun s : State F => s.results f res) hkeep
      (fun _ _ _ hi hs => results_step res hi hs) inv_init he

/-- Two fibres' requests are completed in the other order; the first has its result. -/
theorem syncIO_results_two : ∃ (as : List (Action (Fin 2))) (t : State (Fin 2)),
    exec (system (Fin 2)) .init as = some t ∧ (t.pc 0 = .resumed 5 ∧ t.pc 1 = .out) ∧
    times (system (Fin 2)) (calls 1) .init as
      = times (system (Fin 2)) (returns 1) .init as + (if t.pc 1 = .out then 0 else 1) ∧
    (∀ res, times (system (Fin 2)) (completes 1 res) .init as
      = times (system (Fin 2)) (receives 1 res) .init as + t.results 1 res) ∧
    t.total (.block 1) = if t.pc 1 = .waiting then 1 else 0 := by
  have hrun : (exec (system (Fin 2)) .init [.getSqe, Action.syncIO 0, .getSqe, Action.syncIO 1,
      .getSqe, .poll, .submit (some 3), .complete 1 7, .complete 0 5, .peek, .processCQE,
      .processCQE, .endPoll, .return 1 7]).map
      (fun t => decide (t.pc 0 = .resumed 5 ∧ t.pc 1 = .out)) = some true := by decide
  obtain ⟨t, he, hp⟩ := Option.map_eq_some_iff.mp hrun
  exact ⟨_, t, he, of_decide_eq_true hp, syncIO_results he 1⟩

/-! ### Halting -/

/-- Another worker resumes this one. -/
def resumes (_ : State F) : Action F → Bool
  | .resume => true
  | _ => false

/-- `halt` returns, up to the new read of the eventfd. -/
def leaves (s : State F) : Action F → Bool
  | .endPoll =>
    match s.worker with
    | .processing pt 0 resume => pt.halts && decide (resume ≠ 0)
    | _ => false
  | _ => false

/-- An assertion of the source fails: a second completed read of the eventfd in one poll, or `count` not 1
    as `halt` returns. -/
def Fails (s : State F) : Action F → Prop
  | .waitCqe | .processCQE => (∃ c cq, s.cq = c :: cq ∧ c.1 = .halt) ∧ s.worker.seen ≠ 0
  | .endPoll => leaves s .endPoll = true ∧ s.count ≠ 1
  | _ => False

/-- A submission falls short with no completions to take out. -/
def short (s : State F) : Action F → Bool
  | .submit n => decide (n ≠ some s.sq.length) && s.cq.isEmpty
  | _ => false

/-- Before it sleeps in `io_uring_wait_cqe` the worker has submitted everything. -/
def Flushed (s : State F) : Prop := s.worker = .waiting → s.cq = [] → s.sq = []

/-- Resumed, and yet to leave `halt`. -/
def State.awaited (s : State F) : ℕ := if s.worker.halts && !s.enlisted then 1 else 0

omit [DecidableEq F] in
theorem awaited_congr (hworker : s'.worker.halts = s.worker.halts) (hlist : s'.enlisted = s.enlisted) :
    s'.awaited = s.awaited := by
  rw [State.awaited, State.awaited, hworker, hlist]

/-- The end of a poll: the worker leaves `halt`, with its eventfd read once, or stays where it was. -/
theorem endPoll_cases (h : Inv s) {pt : PollType F} {resume : ℕ} (hw : s.worker = .processing pt 0 resume) :
    (leaves s .endPoll = true ∧ s.count = 1 ∧ s.awaited = 1 ∧ (endPoll s resume pt).awaited = 0) ∨
    (leaves s .endPoll = false ∧ (endPoll s resume pt).awaited = s.awaited) := by
  have hleaves : leaves s .endPoll = (pt.halts && decide (resume ≠ 0)) := by
    rw [leaves, hw]
    rfl
  have hgone : pt.halts = true → resume ≠ 0 → endPoll s resume pt = s.at (.filling .halt) →
      leaves s .endPoll = true ∧ s.count = 1 ∧ s.awaited = 1 ∧ (endPoll s resume pt).awaited = 0 := by
    intro hpt hresume heq
    obtain ⟨-, hcount, hlist⟩ := h.resumed hw hpt hresume
    refine ⟨by rw [hleaves, hpt, decide_eq_true hresume]; rfl, hcount, ?_, by rw [heq]; rfl⟩
    rw [State.awaited, hw, hlist]
    exact if_pos (by rw [Bool.not_false, Bool.and_true]; exact hpt)
  have hstay : pt.halts = false ∨ resume = 0 → (endPoll s resume pt).worker.halts = pt.halts →
      (endPoll s resume pt).enlisted = s.enlisted →
      leaves s .endPoll = false ∧ (endPoll s resume pt).awaited = s.awaited := by
    intro hno hhalts hlist
    refine ⟨?_, awaited_congr (by rw [hhalts, hw]; rfl) hlist⟩
    rw [hleaves]
    rcases hno with hpt | hresume
    · rw [hpt, Bool.false_and]
    · rw [decide_eq_false (not_not.mpr hresume), Bool.and_false]
  cases pt with
  | poll => exact .inr (hstay (.inl rfl) rfl rfl)
  | check e =>
    cases e with
    | none => exact .inr (hstay (.inl rfl) rfl rfl)
    | some e => exact .inr (hstay (.inl rfl) rfl rfl)
  | trying =>
    by_cases hresume : resume = 0
    · exact .inr (hstay (.inr hresume) (by rw [endPoll, if_pos hresume]; rfl) rfl)
    · exact .inl (hgone rfl hresume (by rw [endPoll, if_neg hresume]))
  | suspend =>
    by_cases hresume : resume = 0
    · refine .inr (hstay (.inr hresume) ?_ ?_)
      · rw [endPoll, if_pos hresume, enter, State.at]
        split <;> rfl
      · rw [endPoll, if_pos hresume]
        rfl
    · exact .inl (hgone rfl hresume (by rw [endPoll, if_neg hresume]))

/-- STEP: a worker that is resumed is awaited until it leaves `halt`. -/
theorem awaited_step (h : Inv s) (hs : step s a = some s') :
    (if resumes s a then 1 else 0) + s.awaited = (if leaves s a then 1 else 0) + s'.awaited := by
  have hquiet : s'.worker.halts = s.worker.halts → s'.enlisted = s.enlisted → resumes s a = false →
      leaves s a = false →
      (if resumes s a then 1 else 0) + s.awaited = (if leaves s a then 1 else 0) + s'.awaited := by
    intro hworker hlist hresumes hleaves
    rw [awaited_congr hworker hlist, hresumes, hleaves]
  cases a with
  | syncIO f =>
    rw [step] at hs
    split at hs
    · rename_i hw
      obtain ⟨-, hs⟩ := Option.ite_none_right_eq_some.mp hs
      obtain rfl := Option.some.inj hs
      exact hquiet (by rw [hw]; rfl) rfl rfl rfl
    · cases hs
  | getSqe =>
    rw [step] at hs
    split at hs
    · rename_i e hw
      obtain rfl := Option.some.inj hs
      refine hquiet ?_ ?_ rfl rfl
      · rw [hw, getSqe]
        split
        · rw [State.at]
          split <;> rfl
        · rfl
      · rw [getSqe]
        split <;> rfl
    · cases hs
  | submit n =>
    obtain ⟨-, hs⟩ := Option.ite_none_right_eq_some.mp hs
    have hlist : (submitRing s n).enlisted = s.enlisted := by cases n <;> rfl
    split at hs
    · rename_i hw
      obtain rfl := Option.some.inj hs
      exact hquiet (by rw [hw]; cases n <;> rfl) hlist rfl rfl
    · rename_i e hw
      obtain rfl := Option.some.inj hs
      exact hquiet (by rw [hw]; cases n <;> rfl) hlist rfl rfl
    · rename_i pt hw
      obtain rfl := Option.some.inj hs
      exact hquiet (by rw [hw]; cases pt <;> rfl) hlist rfl rfl
    · cases hs
  | waitCqe =>
    rw [step] at hs
    split at hs
    · rename_i c cq hw hcq
      obtain rfl := Option.some.inj hs
      obtain ⟨e, res⟩ := c
      cases e <;> exact hquiet (by rw [hw]; rfl) rfl rfl rfl
    · cases hs
  | peek =>
    rw [step] at hs
    split at hs
    · rename_i pt resume hw
      obtain rfl := Option.some.inj hs
      exact hquiet (by rw [hw]; rfl) rfl rfl rfl
    · cases hs
  | processCQE =>
    rw [step] at hs
    split at hs
    · rename_i pt n resume c cq hw hcq
      obtain rfl := Option.some.inj hs
      obtain ⟨e, res⟩ := c
      cases e <;> exact hquiet (by rw [hw]; rfl) rfl rfl rfl
    · cases hs
  | endPoll =>
    rw [step] at hs
    split at hs
    · rename_i pt resume hw
      obtain rfl := Option.some.inj hs
      rcases endPoll_cases h hw with ⟨hleaves, -, hbefore, hafter⟩ | ⟨hleaves, hsame⟩
      · rw [hleaves, hbefore, hafter]
        rfl
      · rw [hleaves, hsame]
        rfl
    · cases hs
  | poll | trySuspend | suspend =>
    rw [step] at hs
    split at hs
    · rename_i hw
      obtain rfl := Option.some.inj hs
      refine hquiet ?_ rfl rfl rfl
      rw [hw, enter, State.at]
      split <;> rfl
    · cases hs
  | block =>
    rw [step] at hs
    split at hs
    · rename_i hw
      obtain rfl := Option.some.inj hs
      rw [State.awaited, State.awaited, hw]
      rfl
    · cases hs
  | resume =>
    obtain ⟨hl, hs⟩ := Option.ite_none_right_eq_some.mp hs
    obtain rfl := Option.some.inj hs
    rw [State.awaited, State.awaited, hl, h.listed hl]
    rfl
  | complete f res | completeHalt | «return» f res =>
    obtain ⟨-, hs⟩ := Option.ite_none_right_eq_some.mp hs
    obtain rfl := Option.some.inj hs
    exact hquiet rfl rfl rfl rfl

/-- No assertion fails. -/
theorem not_fails (h : Inv s) (hs : step s a = some s') : ¬ Fails s a := by
  have hfirst : ∀ c cq, s.cq = c :: cq → c.1 = .halt → s.worker.seen = 0 := by
    intro c cq hcq hc
    have hh := h.halts
    have ht := h.token
    have hwakes : 1 ≤ s.wakes := by
      rw [State.wakes, hcq, List.map_cons, hc, List.count_cons_self]
      omega
    split at ht
    · omega
    · omega
  cases a with
  | waitCqe | processCQE =>
    rintro ⟨⟨c, cq, hcq, hc⟩, hne⟩
    exact hne (hfirst c cq hcq hc)
  | endPoll =>
    rintro ⟨hleaves, hne⟩
    rw [step] at hs
    split at hs
    · rename_i pt resume hw
      rcases endPoll_cases h hw with ⟨-, hcount, -, -⟩ | ⟨hno, -⟩
      · exact hne hcount
      · rw [hno] at hleaves
        cases hleaves
    · cases hs
  | _ => exact id

/-- The worker waits at once only with nothing to submit. -/
theorem flushed_enter (h : Inv s) (pt : PollType F) : Flushed (enter s pt) := by
  intro hw _
  rw [enter, State.at] at hw
  by_cases hzero : s.sqe_count = 0
  · rw [h.sqes] at hzero
    exact List.length_eq_zero_iff.mp hzero
  · rw [if_neg hzero] at hw
    cases hw

/-- STEP: everything is submitted before the worker waits. -/
theorem Flushed.step (hf : Flushed s) (h : Inv s) (hg : Avoids short s a) (hs : step s a = some s') :
    Flushed s' := by
  cases a with
  | syncIO f =>
    rw [IOUring.step] at hs
    split at hs
    · obtain ⟨-, hs⟩ := Option.ite_none_right_eq_some.mp hs
      obtain rfl := Option.some.inj hs
      intro hw
      cases hw
    · cases hs
  | getSqe =>
    rw [IOUring.step] at hs
    split at hs
    · rename_i e hw
      obtain rfl := Option.some.inj hs
      rw [getSqe]
      split
      · rw [State.at]
        split
        · intro hw
          cases hw
        · intro hw
          cases hw
      · intro hw
        cases hw
    · cases hs
  | submit n =>
    obtain ⟨-, hs⟩ := Option.ite_none_right_eq_some.mp hs
    split at hs
    · obtain rfl := Option.some.inj hs
      intro hw
      cases n <;> cases hw
    · obtain rfl := Option.some.inj hs
      intro hw
      cases n <;> cases hw
    · rename_i pt hw
      obtain rfl := Option.some.inj hs
      intro _ hempty
      have hcq : s.cq = [] := (submitRing_pc s n).2.symm.trans hempty
      have hall : n = some s.sq.length := by
        by_contra hne
        have hshort : short s (.submit n) = true := by
          rw [short, decide_eq_true hne, hcq]
          rfl
        rw [hg] at hshort
        cases hshort
      rw [hall]
      exact List.drop_length
    · cases hs
  | waitCqe | peek | processCQE | block =>
    rw [IOUring.step] at hs
    split at hs
    · obtain rfl := Option.some.inj hs
      intro hw
      cases hw
    · cases hs
  | endPoll =>
    rw [IOUring.step] at hs
    split at hs
    · rename_i pt resume hw
      obtain rfl := Option.some.inj hs
      cases pt with
      | check e => cases e <;> exact fun hw => by cases hw
      | poll => exact fun hw => by cases hw
      | trying =>
        rw [endPoll]
        split
        · intro hw
          cases hw
        · intro hw
          cases hw
      | suspend =>
        rw [endPoll]
        split
        · exact flushed_enter h .suspend
        · intro hw
          cases hw
    · cases hs
  | poll | trySuspend | suspend =>
    rw [IOUring.step] at hs
    split at hs
    · obtain rfl := Option.some.inj hs
      exact flushed_enter h _
    · cases hs
  | resume | «return» f res =>
    obtain ⟨-, hs⟩ := Option.ite_none_right_eq_some.mp hs
    obtain rfl := Option.some.inj hs
    exact hf
  | complete f res | completeHalt =>
    obtain ⟨-, hs⟩ := Option.ite_none_right_eq_some.mp hs
    obtain rfl := Option.some.inj hs
    intro _ hempty
    exact absurd hempty (by simp)

/-- A worker asleep has left every request, and the read of its eventfd, to the kernel; the read is
    completed if it has been resumed. -/
theorem asleep (h : Inv s) (hf : Flushed s) (hw : s.worker = .waiting) (hcq : s.cq = []) :
    s.sq = [] ∧ (∀ f, s.pc f = .waiting → .block f ∈ s.kernel) ∧
    (s.enlisted = false → (step s .completeHalt).isSome = true) := by
  have hsq := hf hw hcq
  have htotal : ∀ e, s.total e = s.kernel.count e := by
    intro e
    rw [State.total, hsq, hcq, hw]
    exact Nat.zero_add _
  refine ⟨hsq, fun f hpc => ?_, fun hlist => ?_⟩
  · have hb := h.blocks f
    rw [htotal, if_pos hpc] at hb
    exact List.count_pos_iff.mp (by omega)
  · have hh := h.halts
    have ht := h.token
    rw [htotal, hw] at hh
    rw [State.wakes, hcq, hw, hlist] at ht
    have hone : s.kernel.count Entry.halt = 1 := hh
    have hmem : Entry.halt ∈ s.kernel := List.count_pos_iff.mp (by omega)
    have hpos : 0 < s.eventfd := by
      rw [show s.eventfd = 1 from ht]
      exact Nat.one_pos
    rw [step, if_pos ⟨hmem, hpos⟩]
    rfl

/-- RUN: a worker leaves `halt` once for each time it is resumed, no assertion of the source fails, and it
    sleeps only with every request in the kernel's hands and its own waking up to come. -/
theorem uring_halt (h : Run (system F) (Avoids short) as t) :
    times (system F) resumes .init as = times (system F) leaves .init as + t.awaited ∧
    (∀ a, (step t a).isSome = true → ¬ Fails t a) ∧
    (t.worker = .waiting → t.cq = [] → t.sq = [] ∧ (∀ f, t.pc f = .waiting → .block f ∈ t.kernel) ∧
      (t.enlisted = false → (step t .completeHalt).isSome = true)) := by
  have he := h.exec fun s hs => hs
  obtain ⟨hinv, hflushed⟩ : Inv t ∧ Flushed t :=
    h.inv (I := fun s => Inv s ∧ Flushed s) (fun s hs => by cases hs; exact ⟨inv_init, nofun⟩)
      fun _ _ _ hi hg hs =>
      ⟨hi.1.step hs, hi.2.step hi.1 hg hs⟩
  refine ⟨?_, fun a ha => ?_, fun hw hcq => asleep hinv hflushed hw hcq⟩
  · exact times_balance (μ := fun s : State F => s.awaited) (fun _ _ _ hi hs => Inv.step hi hs)
      (fun _ _ _ hi hs => awaited_step hi hs) inv_init he
  · obtain ⟨s', hs⟩ := Option.isSome_iff_exists.mp ha
    exact not_fails hinv hs

/-- A worker has been resumed once, halts again, and sleeps while a request is under way; it is resumed. -/
theorem uring_halt_twice : ∃ (as : List (Action (Fin 1))) (t : State (Fin 1)),
    Run (system (Fin 1)) (Avoids short) as t ∧
    (t.cq = [] ∧ t.enlisted = false ∧ t.eventfd = 1 ∧ t.pc 0 = .waiting) ∧
    times (system (Fin 1)) resumes .init as = times (system (Fin 1)) leaves .init as + t.awaited ∧
    (∀ a, (step t a).isSome = true → ¬ Fails t a) ∧
    (t.worker = .waiting → t.cq = [] → t.sq = [] ∧ (∀ f, t.pc f = .waiting → .block f ∈ t.kernel) ∧
      (t.enlisted = false → (step t .completeHalt).isSome = true)) := by
  obtain ⟨t, h, hp⟩ := run_of_execAvoiding (system (Fin 1)) short State.init
    [.getSqe, .block, .trySuspend, .submit (some 1), .peek, .endPoll, .resume, .completeHalt, .suspend,
      .waitCqe, .peek, .endPoll, .getSqe, Action.syncIO 0, .getSqe, .block, .suspend,
      .submit (some 2), .resume]
    (fun t => decide (t.cq = [] ∧ t.enlisted = false ∧ t.eventfd = 1 ∧ t.pc 0 = .waiting)) rfl (by decide)
  exact ⟨_, t, h, of_decide_eq_true hp, uring_halt h⟩

end Libfibre.IOUring
