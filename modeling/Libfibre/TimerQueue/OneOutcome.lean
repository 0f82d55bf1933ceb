import Libfibre.TimerQueue.Invariant

/-! What a call of `block` comes to. The race for `resumeInfo` gives each call one outcome, and the
    loser's entry is gone before the call returns, but for one moment: `checkExpiry` resumes a fibre
    before it erases the fibre's entry, and the fibre can be faster.

        checkExpiry            fibre
        raceResume   ─────▶
        resume       ─────▶    remove node, return false
        queue.erase(iter)                                    (the node is gone, the entry was not) -/

namespace Libfibre.TimerQueue
open Transition

variable {C F : Type} [DecidableEq C] [DecidableEq F]

/-- What `block` has returned. -/
def Pc.result : Pc → Option Bool
  | .refused => some false
  | .returned r => some r
  | _ => none

/-- The call whose node a step of `unblock` or `checkExpiry` reads or writes, or whose fibre it or
    the caller of `unblock<false>` resumes. -/
def touched (s : State C F) : Action C → Option C
  | .unblockNext =>
    match s.scan with
    | some (.scanning _ (n :: _)) | some (.removing _ n) | some (.resuming n) => some n
    | _ => none
  | .resume n => some n
  | .expiryNext =>
    match s.run, s.tq with
    | some (.scanning now), (deadline, n) :: _ => if now < deadline then none else some n
    | some (.won _ n), _ | some (.lost _ n), _ => some n
    | _, _ => none
  | _ => none

/-- One outcome, and `block` returns it. -/
structure Outcome (s : State C F) (n : C) : Prop where
  once : s.takes n + (if s.timerWon n then 1 else 0) ≤ 1
  unblocked : ∀ r, (s.pc n).result = some r → (r = true ↔ s.takes n = 1)
  timedOut : ∀ r, (s.pc n).result = some r → (r = false ↔ s.timerWon n = true ∨ s.pc n = .refused)

/-- No entry is left of a call but one that the `checkExpiry` in progress erases next, and no step
    touches what the call had. -/
structure Gone (fib : C → F) (s : State C F) (n : C) : Prop where
  node : n ∉ s.bq
  entry : ∀ deadline, (deadline, n) ∈ s.tq →
    ∃ now rest, s.run = some (.erasing now n) ∧ s.tq = (deadline, n) :: rest
  untouched : ∀ a s', step fib s a = some s' → touched s a ≠ some n

/-- What a step does for the `unblock` in progress: it wins the race of the longest-queued node whose
    race is open, or returns, `nullptr` if there is no such node. -/
structure Unblocks (fib : C → F) (s s' : State C F) : Prop where
  winner : ∀ n, s.pending = none → s'.pending = some n → ∃ front back,
    s.bq = front ++ n :: back ∧ s.resumeInfo (fib n) = none ∧
      s'.resumeInfo (fib n) = some .queue ∧ ∀ m ∈ front, s.resumeInfo (fib m) ≠ none
  keeps : ∀ n, s.pending = some n → s'.pending = some n ∨ s'.returned = s.returned ++ [some n]
  returns : s'.returned = s.returned ∨ s'.returned = s.returned ++ [s.pending]
  null : s'.returned = s.returned ++ [none] → ∀ m ∈ s.bq, s.resumeInfo (fib m) ≠ none
  removed : ∀ n, s'.returned = s.returned ++ [some n] → n ∉ s'.bq

/-! ### One outcome -/

section Local
variable {f : FView} {b : BView} {t : TView}

theorem Fits.once (h : Fits f b t) : b.takes + (if t.timerWon then 1 else 0) ≤ 1 := by
  rw [Fits] at h
  split at h
  · obtain ⟨-, -, htakes, -, htw⟩ := h
    simp [htakes, htw]
  · obtain ⟨-, -, htakes, -, htw⟩ := h
    simp [htakes, htw]
  · obtain ⟨-, -, htw, ⟨-, -, hq⟩ | ⟨-, ht⟩⟩ := h
    · simp [hq.takes, htw]
    · simp [ht.1, htw]
  · obtain ⟨-, -, htw, ⟨-, -, hq⟩ | ⟨-, ht⟩⟩ := h
    · simp [hq.takes, htw]
    · simp [ht.1, htw]
  · obtain ⟨-, ⟨-, -, hq, -, htw⟩ | ⟨-, ht, -, htw⟩ | ⟨-, hq, htw, -⟩⟩ := h
    · simp [hq.takes, htw]
    · simp [ht.1, htw]
    · simp [hq.takes, htw]
  · obtain ⟨-, -, -, -, htakes, -, htw⟩ := h
    simp [htakes, htw]
  · obtain ⟨-, -, -, hq, -, htw⟩ := h
    simp [hq.takes, htw]
  · obtain ⟨-, -, htakes, -, htw⟩ := h
    simp [htakes, htw]
  · obtain ⟨-, -, htakes, -, htw⟩ := h
    simp [htakes, htw]

theorem Fits.result (h : Fits f b t) {r : Bool} (hr : f.pc.result = some r) :
    (r = true ↔ b.takes = 1) ∧ (r = false ↔ t.timerWon = true ∨ f.pc = .refused) := by
  rw [Fits] at h
  cases hpc : f.pc with
  | refused =>
    rw [hpc] at h hr
    obtain ⟨-, -, htakes, -, htw⟩ := h
    obtain rfl : false = r := Option.some.inj hr
    simp [htakes]
  | returned result =>
    rw [hpc] at hr
    obtain rfl : result = r := Option.some.inj hr
    cases result <;> rw [hpc] at h
    · obtain ⟨-, -, htakes, -, htw⟩ := h
      simp [htakes, htw]
    · obtain ⟨-, -, htakes, -, htw⟩ := h
      simp [htakes, htw]
  | idle | enqueue _ | asleep _ | erase _ | remove => rw [hpc] at hr; cases hr

/-- What is left of a call that is not going on. -/
theorem Fits.gone (h : Fits f b t) (hr : f.pc.result ≠ none) : b.Clear ∧ t.Late := by
  rw [Fits] at h
  cases hpc : f.pc with
  | refused =>
    rw [hpc] at h
    exact ⟨h.2.1, h.2.2.2.1.won, h.2.2.2.1.lost, h.2.2.2.1.erasing.trans h.2.2.2.1.node.symm⟩
  | returned result =>
    cases result <;> rw [hpc] at h
    · exact ⟨h.2.1, h.2.2.2.1⟩
    · exact ⟨h.2.1, h.2.2.2.1⟩
  | idle | enqueue _ | asleep _ | erase _ | remove => exact absurd (by rw [hpc]; rfl) hr

end Local

section Results
variable {fib : C → F} {s s' : State C F} {n : C}

omit [DecidableEq F] in
theorem Inv.outcome (hi : Inv fib s) (n : C) : Outcome s n := by
  have hresult : ∀ r, (s.pc n).result = some r →
      (r = true ↔ s.takes n = 1) ∧ (r = false ↔ s.timerWon n = true ∨ s.pc n = .refused) := by
    intro r hr
    have h := (hi.fits n).result (r := r) (by rw [fview_pc]; exact hr)
    rwa [fview_pc] at h
  exact ⟨(hi.fits n).once, fun r hr => (hresult r hr).1, fun r hr => (hresult r hr).2⟩

/-! ### No entry is left -/

omit [DecidableEq C] [DecidableEq F] in
/-- The entry a `checkExpiry` is at is not one that it is done with. -/
theorem not_erasing {now : ℕ} (hrun : s.run = some (.scanning now)) :
    s.erasing ≠ some n := by
  simp [State.erasing, hrun]

omit [DecidableEq C] [DecidableEq F] in
theorem erasing_some (h : s.erasing = some n) : ∃ now, s.run = some (.erasing now n) := by
  rw [State.erasing] at h
  split at h
  · rename_i now m hrun
    exact ⟨now, by rw [hrun, Option.some.inj h]⟩
  · cases h

theorem Inv.gone (hi : Inv fib s) (hr : (s.pc n).result ≠ none) : Gone fib s n := by
  obtain ⟨hclear, hlate⟩ := (hi.fits n).gone (by rw [fview_pc]; exact hr)
  have hnode : n ∉ s.bq := of_decide_eq_false hclear.node
  have herasing : n ∈ s.tq.map Prod.snd → s.erasing = some n := fun hmem =>
    of_decide_eq_true (hlate.erasing.trans (decide_eq_true hmem))
  refine ⟨hnode, fun deadline hmem => ?_, fun a s' hstep => ?_⟩
  · have he := herasing (List.mem_map_of_mem (f := Prod.snd) hmem)
    obtain ⟨now, hrun⟩ := erasing_some he
    obtain ⟨deadline', rest, htq⟩ := hi.first n (Or.inr (Or.inr he))
    refine ⟨now, rest, hrun, ?_⟩
    have hnd := hi.tqNodup
    rw [htq, List.map_cons, List.nodup_cons] at hnd
    rw [htq, List.mem_cons, Prod.mk.injEq] at hmem
    rcases hmem with ⟨rfl, -⟩ | hmem
    · exact htq
    · exact absurd (List.mem_map_of_mem (f := Prod.snd) hmem) hnd.1
  · cases a with
    | unblockNext =>
      simp only [touched]
      split
      · rename_i enqueue m rest hscan
        rintro ⟨rfl⟩
        exact hnode (current_of_scan hi hscan).1
      · rename_i enqueue m hscan
        rintro ⟨rfl⟩
        exact of_decide_eq_false hclear.removing (by rw [State.removing, hscan])
      · rename_i m hscan
        rintro ⟨rfl⟩
        exact of_decide_eq_false hclear.resuming (by rw [State.resuming, hscan])
      · simp
    | resume m =>
      simp only [step] at hstep
      split_ifs at hstep with hmem
      rintro ⟨rfl⟩
      exact of_decide_eq_false hclear.handed hmem
    | expiryNext =>
      simp only [touched]
      split
      · rename_i now deadline m rest hrun htq
        split_ifs with hd
        · simp
        · rintro ⟨rfl⟩
          exact not_erasing hrun (herasing (by rw [htq]; simp))
      · rename_i now m hrun
        rintro ⟨rfl⟩
        exact of_decide_eq_false hlate.won (by rw [State.won, hrun])
      · rename_i now m hrun
        rintro ⟨rfl⟩
        exact of_decide_eq_false hlate.lost (by rw [State.lost, hrun])
      · simp
    | block | next | resumption | unblock | checkExpiry => simp [touched]

/-! ### What `unblock` returns -/

/-- The fibre of a call has not been woken yet. -/
def isOpen (fib : C → F) (s : State C F) (n : C) : Bool := decide (s.resumeInfo (fib n) = none)

omit [DecidableEq C] [DecidableEq F] in
theorem isOpen_eq_false (hn : s.resumeInfo (fib n) ≠ none) : isOpen fib s n = false :=
  decide_eq_false hn

omit [DecidableEq F] in
/-- The `raceResume` that an `unblock` wins is about the node that an `unblock` in one piece, made
    instead of it, takes out of the queue. -/
theorem Inv.unblock_take (hi : Inv fib s) {enqueue : Bool} {rest : List C}
    (hscan : s.scan = some (.scanning enqueue (n :: rest))) (hopen : s.resumeInfo (fib n) = none) :
    BlockingQueue.unblock (isOpen fib s) s.bq = (some n, s.bq.erase n) := by
  obtain ⟨front, hbq, hfront⟩ := hi.scanned enqueue (n :: rest) hscan
  have hnd := hi.bqNodup
  have hnot : n ∉ front := fun hm => hfront n hm hopen
  have hhere : isOpen fib s n = true := decide_eq_true hopen
  rw [hbq, BlockingQueue.unblock_closed fun m hm => isOpen_eq_false (hfront m hm),
    List.erase_append_right _ hnot, BlockingQueue.unblock, hhere, if_pos rfl, List.erase_cons_head]

omit [DecidableEq F] in
/-- An `unblock` comes to the end of the queue only if one in one piece finds nobody. -/
theorem Inv.unblock_null (hi : Inv fib s) {enqueue : Bool}
    (hscan : s.scan = some (.scanning enqueue [])) :
    BlockingQueue.unblock (isOpen fib s) s.bq = (none, s.bq) := by
  obtain ⟨front, hbq, hfront⟩ := hi.scanned enqueue [] hscan
  rw [hbq, BlockingQueue.unblock_closed fun m hm => isOpen_eq_false (hfront m hm),
    BlockingQueue.unblock]

/-- A step leaves the `unblock` in progress and what has been returned alone. -/
def KeepsUnblock (s s' : State C F) : Prop := s'.scan = s.scan ∧ s'.returned = s.returned

theorem keeps_finish (s : State C F) (n : C) : KeepsUnblock s (finish fib s n) := by
  rw [finish]
  split_ifs <;> exact ⟨rfl, rfl⟩

theorem keeps_next (h : next fib s n = some s') : KeepsUnblock s s' := by
  obtain ⟨deadline, -, -, rfl⟩ | ⟨-, rfl⟩ | ⟨-, -, rfl⟩ | ⟨-, -, rfl⟩ := next_cases h
  · exact ⟨rfl, rfl⟩
  · split_ifs
    · exact keeps_finish s n
    · exact ⟨rfl, rfl⟩
  · rw [eraseSection]
    split_ifs
    · exact keeps_finish s n
    · exact keeps_finish { s with tq := eraseEntry n s.tq } n
  · exact ⟨rfl, rfl⟩

theorem keeps_resumption (s : State C F) (n : C) (timed : Bool) :
    KeepsUnblock s (resumption fib s n timed) := by
  simp only [resumption]
  split_ifs
  · exact ⟨rfl, rfl⟩
  · exact ⟨rfl, rfl⟩
  · exact keeps_finish { s with resumed := Function.update s.resumed (fib n) false } n

theorem keeps_expiryNext (s : State C F) (run : Expiry C) :
    KeepsUnblock s (expiryNext fib s run) := by
  rcases run with now | ⟨now, n⟩ | ⟨now, n⟩ | ⟨now, n⟩
  · rw [expiryNext]
    split
    · exact ⟨rfl, rfl⟩
    · split_ifs <;> exact ⟨rfl, rfl⟩
  all_goals exact ⟨rfl, rfl⟩

omit [DecidableEq C] [DecidableEq F] in
/-- A step that is not one of `unblock`'s. -/
theorem Unblocks.frame (hp : s'.pending = s.pending) (hr : s'.returned = s.returned) :
    Unblocks fib s s' := by
  have hlen : ∀ r, s'.returned ≠ s.returned ++ [r] := fun r h => by
    have := congrArg List.length h
    rw [hr, List.length_append] at this
    simp at this
  refine ⟨fun n hnone hsome => ?_, fun n h => Or.inl (hp.trans h), Or.inl hr,
    fun h => absurd h (hlen _), fun n h => absurd h (hlen _)⟩
  rw [hp, hnone] at hsome
  cases hsome

omit [DecidableEq C] [DecidableEq F] in
theorem KeepsUnblock.unblocks (h : KeepsUnblock s s') : Unblocks fib s s' :=
  Unblocks.frame (by rw [State.pending, State.pending, h.1]) h.2

omit [DecidableEq C] [DecidableEq F] in
/-- The step in which `unblock` returns. -/
theorem Unblocks.of_return (hr : s'.returned = s.returned ++ [s.pending]) (hp : s'.pending = none)
    (hnull : s.pending = none → ∀ m ∈ s.bq, s.resumeInfo (fib m) ≠ none)
    (hremoved : ∀ n, s.pending = some n → n ∉ s'.bq) : Unblocks fib s s' := by
  refine ⟨fun n _ hn => ?_, fun n hn => Or.inr (hn ▸ hr), Or.inr hr, fun h => hnull ?_,
    fun n h => hremoved n ?_⟩
  · rw [hp] at hn; cases hn
  · rw [hr] at h; simpa using h
  · rw [hr] at h; simpa using h

theorem unblocks_unblockNext (hi : Inv fib s) {scan : Scan C} (hscan : s.scan = some scan) :
    Unblocks fib s (unblockNext fib s scan) := by
  rcases scan with ⟨enqueue, _ | ⟨n, rest⟩⟩ | ⟨_ | _, n⟩ | n
  · have hp : s.pending = none := by rw [State.pending, hscan]
    refine Unblocks.of_return (by rw [hp]; rfl) rfl (fun _ m hm => ?_) (by simp [hp])
    have hclosed := (BlockingQueue.unblock_none (hi.unblock_null hscan)).2 m hm
    exact of_decide_eq_false hclosed
  · have hp : s.pending = none := by rw [State.pending, hscan]
    rw [unblockNext]
    split_ifs with hopen
    · obtain ⟨front, back, hbq, -, -, hfront⟩ :=
        BlockingQueue.unblock_some (hi.unblock_take hscan hopen)
      refine ⟨fun m _ hm => ?_, by simp [hp], Or.inl rfl, by simp, by simp⟩
      obtain rfl : n = m := by simpa [State.pending] using hm
      exact ⟨front, back, hbq, hopen, Function.update_self ..,
        fun m hm => of_decide_eq_false (hfront m hm)⟩
    · exact Unblocks.frame (by rw [hp]; rfl) rfl
  · have hp : s.pending = some n := by rw [State.pending, hscan]
    refine Unblocks.of_return (by rw [hp]; rfl) rfl (by simp [hp]) fun m hm => ?_
    obtain rfl : n = m := by simpa [hp] using hm
    exact fun h => (hi.bqNodup.mem_erase_iff.mp h).1 rfl
  · exact Unblocks.frame (by rw [State.pending, State.pending, hscan]; rfl) rfl
  · have hp : s.pending = some n := by rw [State.pending, hscan]
    refine Unblocks.of_return (by rw [hp]; rfl) rfl (by simp [hp]) fun m hm => ?_
    obtain rfl : n = m := by simpa [hp] using hm
    have hheld : (bview s n).resuming = true := decide_eq_true (by rw [State.resuming, hscan])
    obtain ⟨-, ⟨-, ht⟩, -⟩ := (hi.fits n).taken (Or.inr (Or.inl hheld))
    rcases ht with ⟨-, -, h, -⟩ | ⟨hnode, -⟩ | ⟨hclear, -⟩
    · rw [hheld] at h; cases h
    · exact of_decide_eq_false hnode
    · exact of_decide_eq_false hclear.node

theorem unblocks_step (hi : Inv fib s) {a : Action C} (h : step fib s a = some s') :
    Unblocks fib s s' := by
  cases a with
  | block n args =>
    simp only [step] at h
    split_ifs at h
    obtain rfl := Option.some.inj h
    rw [block]
    split_ifs <;> exact Unblocks.frame rfl rfl
  | next n => exact (keeps_next h).unblocks
  | resumption n =>
    simp only [step] at h
    split at h
    · split_ifs at h
      exact Option.some.inj h ▸ (keeps_resumption s n _).unblocks
    · cases h
  | unblock enqueue =>
    simp only [step] at h
    split_ifs at h with hscan
    obtain rfl := Option.some.inj h
    exact Unblocks.frame (by rw [State.pending, State.pending, hscan]) rfl
  | unblockNext =>
    obtain ⟨scan, hscan, rfl⟩ := Option.map_eq_some_iff.mp h
    exact unblocks_unblockNext hi hscan
  | resume n =>
    simp only [step] at h
    split_ifs at h
    exact Option.some.inj h ▸ Unblocks.frame rfl rfl
  | checkExpiry now =>
    simp only [step] at h
    split_ifs at h
    exact Option.some.inj h ▸ Unblocks.frame rfl rfl
  | expiryNext =>
    obtain ⟨run, -, rfl⟩ := Option.map_eq_some_iff.mp h
    exact (keeps_expiryNext s run).unblocks

/-! ### A call that has returned stays so -/

/-- What a step does to the place of a call: nothing, its entry, or a move of its own. -/
def Moves (s s' : State C F) (a : Action C) (n : C) : Prop :=
  s'.pc n = s.pc n ∨
  (∃ args : Args, a = .block n args ∧ s.pc n = .idle ∧
    s'.pc n = if args.blocks then args.entry else .refused) ∨
  ((s.pc n).result = none ∧ s.pc n ≠ .idle ∧ s'.pc n ≠ .refused)

theorem finish_pc (s : State C F) (n m : C) :
    (m ≠ n → (finish fib s n).pc m = s.pc m) ∧ (finish fib s n).pc n ≠ .refused := by
  rw [finish]
  split_ifs
  · exact ⟨fun hm => Function.update_of_ne hm _ _, by simp [leave, State.goto]⟩
  · exact ⟨fun hm => Function.update_of_ne hm _ _, by simp [State.goto]⟩

theorem moves_next (h : next fib s n = some s') (m : C) : Moves s s' (.next n) m := by
  rcases eq_or_ne m n with rfl | hm
  · refine Or.inr (Or.inr ?_)
    obtain ⟨deadline, hpc, -, rfl⟩ | ⟨hpc, rfl⟩ | ⟨hpc, -, rfl⟩ | ⟨hpc, -, rfl⟩ := next_cases h
    · exact ⟨by rw [hpc]; rfl, by simp [hpc], by simp [enqueue, State.goto]⟩
    · refine ⟨by rw [hpc]; rfl, by simp [hpc], ?_⟩
      split_ifs
      · exact (finish_pc s m m).2
      · simp [State.goto]
    · exact ⟨by rw [hpc]; rfl, by simp [hpc], (finish_pc _ m m).2⟩
    · exact ⟨by rw [hpc]; rfl, by simp [hpc], by simp [leave, State.goto]⟩
  · refine Or.inl ?_
    obtain ⟨deadline, -, -, rfl⟩ | ⟨-, rfl⟩ | ⟨-, -, rfl⟩ | ⟨-, -, rfl⟩ := next_cases h
    · exact Function.update_of_ne hm _ _
    · split_ifs
      · exact (finish_pc s n m).1 hm
      · exact Function.update_of_ne hm _ _
    · rw [(finish_pc _ n m).1 hm, eraseSection]
      split_ifs <;> rfl
    · exact Function.update_of_ne hm _ _

theorem moves_resumption {timed : Bool} (hpc : s.pc n = .asleep timed) (m : C) :
    Moves s (resumption fib s n timed) (.resumption n) m := by
  have hfinish := @finish_pc _ _ _ _ fib
    { s with resumed := Function.update s.resumed (fib n) false } n m
  simp only [resumption]
  rcases eq_or_ne m n with rfl | hm
  · refine Or.inr (Or.inr ⟨by rw [hpc]; rfl, by simp [hpc], ?_⟩)
    split_ifs
    · simp [State.goto]
    · simp [State.goto]
    · exact hfinish.2
  · refine Or.inl ?_
    split_ifs
    · exact Function.update_of_ne hm _ _
    · exact Function.update_of_ne hm _ _
    · exact hfinish.1 hm

theorem moves_step {a : Action C} (h : step fib s a = some s') (m : C) : Moves s s' a m := by
  cases a with
  | block n args =>
    simp only [step] at h
    split_ifs at h with hcond
    obtain rfl := Option.some.inj h
    rw [block]
    rcases eq_or_ne m n with rfl | hm
    · refine Or.inr (Or.inl ⟨args, rfl, hcond.1, ?_⟩)
      split_ifs <;> exact Function.update_self ..
    · refine Or.inl ?_
      split_ifs <;> exact Function.update_of_ne hm _ _
  | next n => exact moves_next h m
  | resumption n =>
    simp only [step] at h
    split at h
    · rename_i timed hpc
      split_ifs at h
      exact Option.some.inj h ▸ moves_resumption hpc m
    · cases h
  | unblock enqueue =>
    simp only [step] at h
    split_ifs at h
    exact Option.some.inj h ▸ Or.inl rfl
  | unblockNext =>
    obtain ⟨scan, -, rfl⟩ := Option.map_eq_some_iff.mp h
    rcases scan with ⟨enqueue, _ | ⟨n, rest⟩⟩ | ⟨_ | _, n⟩ | n
    all_goals first | exact Or.inl rfl | (rw [unblockNext]; split_ifs <;> exact Or.inl rfl)
  | resume n =>
    simp only [step] at h
    split_ifs at h
    exact Option.some.inj h ▸ Or.inl rfl
  | checkExpiry now =>
    simp only [step] at h
    split_ifs at h
    exact Option.some.inj h ▸ Or.inl rfl
  | expiryNext =>
    obtain ⟨run, -, rfl⟩ := Option.map_eq_some_iff.mp h
    rcases run with now | ⟨now, n⟩ | ⟨now, n⟩ | ⟨now, n⟩
    · rw [expiryNext]
      split
      · exact Or.inl rfl
      · split_ifs <;> exact Or.inl rfl
    all_goals exact Or.inl rfl

theorem returned_step {a : Action C} (h : step fib s a = some s')
    (hr : (s.pc n).result ≠ none) : s'.pc n = s.pc n := by
  rcases moves_step h n with hsame | ⟨args, -, hidle, -⟩ | ⟨hnone, -⟩
  · exact hsame
  · exact absurd (by rw [hidle]; rfl) hr
  · exact absurd hnone hr

theorem block_pc {args : Args} (h : step fib s (.block n args) = some s') :
    s'.pc n = if args.blocks then args.entry else .refused := by
  simp only [step] at h
  split_ifs at h
  obtain rfl := Option.some.inj h
  rw [block]
  split_ifs <;> exact Function.update_self ..

/-- A call is refused when it is made, and only if it does not want to wait or its deadline has
    passed. -/
theorem refused_iff {a : Action C} (h : step fib s a = some s') (n : C) :
    s'.pc n = .refused ↔ s.pc n = .refused ∨ a = .block n (.wait false) ∨
      ∃ deadline now, a = .block n (.timeout deadline now) ∧ deadline ≤ now := by
  constructor
  · intro href
    rcases moves_step h n with hsame | ⟨args, rfl, -, hpc⟩ | ⟨-, -, hno⟩
    · exact Or.inl (hsame ▸ href)
    · rw [href] at hpc
      cases args with
      | wait w => cases w with
        | false => exact Or.inr (Or.inl rfl)
        | true => cases hpc
      | timeout deadline now =>
        refine Or.inr (Or.inr ⟨deadline, now, rfl, ?_⟩)
        by_contra hlt
        simp [Args.blocks, Args.entry, Nat.lt_of_not_le hlt] at hpc
    · exact absurd href hno
  · rintro (href | rfl | ⟨deadline, now, rfl, hle⟩)
    · rw [returned_step h (by rw [href]; simp [Pc.result]), href]
    · exact block_pc h
    · rw [block_pc h, Args.blocks, decide_eq_false (Nat.not_lt.mpr hle), if_neg Bool.false_ne_true]

/-! ### The result -/

/-- CORRECT: every call has one outcome, `unblock` returns the longest-queued fibre whose race is
    open, and a call that has returned has left nothing behind but an entry that the `checkExpiry` in
    progress is about to erase. -/
theorem one_outcome (h : Reach (system fib) s) (n : C) :
    Outcome s n ∧
    ((s.pc n).result ≠ none → Gone fib s n) ∧
    ∀ a s', step fib s a = some s' →
      Unblocks fib s s' ∧
      ((s.pc n).result ≠ none → s'.pc n = s.pc n) ∧
      (s'.pc n = .refused ↔ s.pc n = .refused ∨ a = .block n (.wait false) ∨
        ∃ deadline now, a = .block n (.timeout deadline now) ∧ deadline ≤ now) := by
  have hi := inv_reach h
  exact ⟨hi.outcome n, hi.gone, fun a s' hstep =>
    ⟨unblocks_step hi hstep, returned_step hstep, refused_iff hstep n⟩⟩

end Results

/-- The fibre of a call is the call's number. -/
abbrev alone : System (State ℕ ℕ) (Action ℕ) := system id

/-- A call whose timer wins, up to its return before `checkExpiry` goes on. -/
def overtaken : List (Action ℕ) :=
  [.block 0 (.timeout 5 1), .next 0, .checkExpiry 7, .expiryNext, .expiryNext, .resumption 0, .next 0]

theorem one_outcome_overtaken : ∃ s, Reach alone s ∧ s.pc 0 = .returned false ∧ Outcome s 0 ∧
    Gone id s 0 := by
  obtain ⟨s, hr, hp⟩ := reach_of_exec alone start overtaken (fun s => s.pc 0 == .returned false) rfl
    (by decide)
  have hpc : s.pc 0 = .returned false := beq_iff_eq.mp hp
  obtain ⟨houtcome, hgone, -⟩ := one_outcome hr 0
  exact ⟨s, hr, hpc, houtcome, hgone (by simp [hpc, Pc.result])⟩

/-- WRONG: that no entry is left when `block` returns, and that it returns `false` only after its
    timer has won or when the deadline has passed. -/
theorem entry_left :
    (¬ ∀ s, Reach alone s → ∀ n, (s.pc n).result ≠ none → n ∉ s.bq ∧ n ∉ s.tq.map Prod.snd) ∧
    ¬ ∀ s s', Reach alone s → ∀ n args, step id s (.block n args) = some s' →
      (s'.pc n).result = some false →
        s'.timerWon n = true ∨ ∃ deadline now, args = .timeout deadline now ∧ deadline ≤ now := by
  constructor
  · intro hall
    obtain ⟨s, hr, hp⟩ := reach_of_exec alone start overtaken
      (fun s => s.pc 0 == .returned false && decide (0 ∈ s.tq.map Prod.snd)) rfl (by decide)
    rw [Bool.and_eq_true, beq_iff_eq, decide_eq_true_eq] at hp
    exact (hall s hr 0 (by simp [hp.1, Pc.result])).2 hp.2
  · intro hall
    rcases hall start _ (Reach.start rfl) 0 (.wait false) rfl rfl with h | ⟨_, _, h, -⟩
    · cases h
    · cases h

end Libfibre.TimerQueue
