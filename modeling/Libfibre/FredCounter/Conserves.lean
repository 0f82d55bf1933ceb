import Mathlib.Tactic.Linarith
import Libfibre.FredCounter.Model
import Libfibre.Schemes.Threads

/-! Fibres and workers under the fred counter. As long as it is positive, the counter is what the fibres in
    the ready queues and on their way there exceed the tokens by; a worker that blocks and a fibre
    that `addReadyFred` hands over meet in one section under `procLock`. -/

namespace Libfibre.FredCounter
open Transition Tally
open IdleManager (Priority Agent dequeueInternal enqueue priorities)

variable {n : ℕ} {P Fb : Type}

/-! ### What is counted -/

/-- A worker that holds a token. -/
def Pc.token : Pc n → ℕ
  | .search .blocking _ => 1
  | _ => 0

/-- A fibre that has yielded to another one and is yet to be enqueued. -/
def Pc.yields : Pc n → ℕ
  | .postYield => 1
  | _ => 0

/-- A worker that has blocked in `getReadyFred`. -/
def Pc.blocked : Pc n → ℕ
  | .block | .halt | .handover => 1
  | _ => 0

def Pc.halts : Pc n → ℕ
  | .halt => 1
  | _ => 0

/-- A fibre that is committed to being enqueued. -/
def Add.committed : Add n Fb → ℕ
  | .enqueueFred .. => 1
  | _ => 0

/-- A call that is going to wake a worker. -/
def Add.wakes (x : Fin (n + 1)) : Add n Fb → ℕ
  | .wake _ v | .haltSemV _ v => if v = x then 1 else 0
  | _ => 0

/-- The fibres in ready queues. -/
def total (queue : Fin (n + 1) → Priority → List Fb) : ℕ := ∑ v, ∑ p, (queue v p).length

/-- The fibres in ready queues and committed to being enqueued. -/
def ready [Fintype P] (s : State n P Fb) : ℕ :=
  total s.queue + tally Add.committed s.add + tally Pc.yields s.pc

/-- INVARIANT: tokens and fibres; who is halted is represented once. -/
structure Inv [Fintype P] (s : State n P Fb) : Prop where
  token : tally Pc.token s.pc + s.fredCounter.toNat = ready s
  exclusive : s.waitingProcs = [] ∨ s.waitingFreds = []
  halting : ∀ x, s.halting x = true ↔ x ∈ s.waitingProcs
  halt : ∀ x, s.waitingProcs.count x + tally (Add.wakes x) s.add + s.haltSem x = (s.pc x).halts
  handed : ∀ a f x, s.add a = .haltSemV f x → s.handoverFred x = some f
  armed : ∀ x, 0 < s.haltSem x ∨ s.pc x = .handover → s.handoverFred x ≠ none
  cas : ∀ x caller c, s.pc x = .casCounter caller c → 0 < c

/-! ### Queues -/

theorem total_update {f : Fin (n + 1) → Priority → List Fb} (v : Fin (n + 1))
    (q : Priority → List Fb) :
    total (Function.update f v q) + ∑ p, (f v p).length = total f + ∑ p, (q p).length :=
  tally_update (fun q : Priority → List Fb => ∑ p, (q p).length) f v q

theorem length_update {f : Priority → List Fb} (p : Priority) (l : List Fb) :
    ∑ q, (Function.update f p l q).length + (f p).length
      = ∑ q, (f q).length + l.length :=
  tally_update List.length f p l

theorem length_enqueue (priority : Fb → Priority) (queue : Priority → List Fb) (f : Fb) :
    ∑ p, (enqueue priority queue f p).length = ∑ p, (queue p).length + 1 := by
  have h := length_update (f := queue) (priority f) (queue (priority f) ++ [f])
  rw [List.length_append, List.length_singleton] at h
  rw [enqueue]
  omega

theorem length_dequeueInternal (queue : Priority → List Fb) : ∀ ps : List Priority,
    ∑ p, ((dequeueInternal queue ps).2 p).length + (if (dequeueInternal queue ps).1.isSome then 1 else 0)
      = ∑ p, (queue p).length
  | [] => rfl
  | p :: ps => by
    rw [dequeueInternal]
    split
    · rename_i f rest hp
      have h := length_update (f := queue) p rest
      rw [hp, List.length_cons] at h
      simp only [Option.isSome_some, if_true]
      omega
    · exact length_dequeueInternal queue ps

/-! ### One worker moves -/

section Steps
variable [Fintype P] {s s' : State n P Fb} {w x : Fin (n + 1)} {p : Pc n}

/-- Whoever is represented once is halted, and has neither a wake nor a fibre yet. -/
theorem Inv.halted (h : Inv s) (hx : 0 < s.waitingProcs.count x + tally (Add.wakes x) s.add) :
    s.pc x = .halt ∧ s.haltSem x = 0 := by
  have hold := h.halt x
  cases hpc : s.pc x with
  | halt =>
    rw [hpc] at hold
    exact ⟨rfl, by rw [Pc.halts] at hold; omega⟩
  | _ =>
    rw [hpc] at hold
    exact absurd hold (by simp only [Pc.halts]; omega)

theorem Inv.token_move (h : Inv s) {c : ℤ} {q : Fin (n + 1) → Priority → List Fb}
    (htoken : p.token + c.toNat + total s.queue + (s.pc w).yields
      = (s.pc w).token + s.fredCounter.toNat + total q + p.yields) :
    tally Pc.token (Function.update s.pc w p) + c.toNat
      = total q + tally Add.committed s.add + tally Pc.yields (Function.update s.pc w p) := by
  have ht := tally_update Pc.token s.pc w p
  have hy := tally_update Pc.yields s.pc w p
  have hold := h.token
  rw [ready] at hold
  omega

/-- Neither halted nor woken, nor about to take a token that is not there. -/
structure Open (p : Pc n) : Prop where
  halts : p.halts = 0
  handover : p ≠ .handover
  cas : ∀ caller c, p = .casCounter caller c → 0 < c

theorem Inv.armed_update {hand : Fin (n + 1) → Option Fb} {sem : Fin (n + 1) → ℕ}
    {pc : Fin (n + 1) → Pc n} (h : ∀ x, 0 < sem x ∨ pc x = .handover → hand x ≠ none)
    (hp : p ≠ .handover) (x : Fin (n + 1))
    (hx : 0 < sem x ∨ Function.update pc w p x = .handover) : hand x ≠ none := by
  refine h x (hx.imp_right fun hx => ?_)
  rcases eq_or_ne x w with rfl | hne
  · rw [Function.update_self] at hx
    exact absurd hx hp
  · rwa [Function.update_of_ne hne] at hx

theorem Inv.cas_update {pc : Fin (n + 1) → Pc n}
    (h : ∀ x caller c, pc x = .casCounter caller c → 0 < c)
    (hp : ∀ caller c, p = .casCounter caller c → 0 < c) (x : Fin (n + 1)) (caller : Caller) (c : ℤ)
    (hx : Function.update pc w p x = .casCounter caller c) : 0 < c := by
  rcases eq_or_ne x w with rfl | hne
  · rw [Function.update_self] at hx
    exact hp caller c hx
  · rw [Function.update_of_ne hne] at hx
    exact h x caller c hx

/-- A worker moves and touches at most the counter and the ready queues. -/
theorem Inv.goto (h : Inv s) (hpc : s'.pc = Function.update s.pc w p)
    (hrest : s'.add = s.add ∧ s'.waitingProcs = s.waitingProcs ∧ s'.waitingFreds = s.waitingFreds ∧
      s'.halting = s.halting ∧ s'.haltSem = s.haltSem ∧ s'.handoverFred = s.handoverFred)
    (htoken : p.token + s'.fredCounter.toNat + total s.queue + (s.pc w).yields
      = (s.pc w).token + s.fredCounter.toNat + total s'.queue + p.yields)
    (hhalts : (s.pc w).halts = 0) (hp : Open p) : Inv s' := by
  obtain ⟨hadd, hprocs, hfreds, hhalting, hsem, hhand⟩ := hrest
  refine ⟨?_, ?_, fun x => ?_, fun x => ?_, fun a f x ha => ?_, ?_, ?_⟩
  · rw [ready, hpc, hadd]
    exact h.token_move htoken
  · rw [hprocs, hfreds]; exact h.exclusive
  · rw [hhalting, hprocs]; exact h.halting x
  · rw [hprocs, hadd, hsem, h.halt x, hpc]
    rw [Threads.same_at (f := Pc.halts) (hp.halts.trans hhalts.symm)]
  · rw [hhand]; rw [hadd] at ha; exact h.handed a f x ha
  · rw [hhand, hsem, hpc]
    exact Inv.armed_update h.armed hp.handover
  · rw [hpc]
    exact Inv.cas_update h.cas hp.cas

/-- A worker moves and touches nothing. -/
theorem Inv.moves (h : Inv s) (htoken : p.token = (s.pc w).token) (hyields : p.yields = (s.pc w).yields)
    (hhalts : (s.pc w).halts = 0) (hp : Open p) : Inv (s.goto w p) := by
  refine h.goto rfl ⟨rfl, rfl, rfl, rfl, rfl, rfl⟩ ?_ hhalts hp
  rw [htoken, hyields]
  rfl

theorem open_busy : Open (.busy : Pc n) := ⟨rfl, by simp, by simp⟩

theorem open_search (ctx : Search) (v : Fin (n + 1)) : Open (.search ctx v) := ⟨rfl, by simp, by simp⟩

theorem open_noToken (caller : Caller) : Open (noToken caller : Pc n) := by
  cases caller with
  | full => exact ⟨rfl, by simp [noToken], by simp [noToken]⟩
  | idle i => rw [noToken]; split_ifs <;> exact ⟨rfl, by simp, by simp⟩

theorem token_noToken (caller : Caller) :
    (noToken caller : Pc n).token = 0 ∧ (noToken caller : Pc n).yields = 0 := by
  cases caller with
  | full => exact ⟨rfl, rfl⟩
  | idle i => rw [noToken]; split_ifs <;> exact ⟨rfl, rfl⟩

theorem open_found (ctx : Search) : Open (found ctx : Pc n) := by
  cases ctx <;> exact ⟨rfl, by simp [found], by simp [found]⟩

/-- The fibre found is the token's, or takes the place of the one that yields. -/
theorem token_found (ctx : Search) (v : Fin (n + 1)) :
    (Pc.search ctx v).token = (found ctx : Pc n).token + 1 ∧ (found ctx : Pc n).yields = 0 ∨
      (Pc.search ctx v).token = (found ctx : Pc n).token ∧ (found ctx : Pc n).yields = 1 := by
  cases ctx with
  | yield everywhere => exact .inr ⟨rfl, rfl⟩
  | _ => exact .inl ⟨rfl, rfl⟩

theorem open_advance (w v : Fin (n + 1)) (ctx : Search) : Open (advance w v ctx) := by
  cases ctx with
  | yield everywhere =>
    cases everywhere with
    | false => exact open_busy
    | true =>
      rw [advance]
      split_ifs
      · exact open_busy
      · exact open_search ..
  | _ => exact open_search ..

theorem token_advance (w v u : Fin (n + 1)) (ctx : Search) :
    (advance w v ctx).token = (Pc.search ctx u).token ∧ (advance w v ctx).yields = 0 := by
  cases ctx with
  | yield everywhere =>
    cases everywhere with
    | false => exact ⟨rfl, rfl⟩
    | true => rw [advance]; split_ifs <;> exact ⟨rfl, rfl⟩
  | _ => exact ⟨rfl, rfl⟩

theorem Inv.searchNext (h : Inv s) {ctx : Search} {v : Fin (n + 1)} {contended : Bool}
    (hpc : s.pc w = .search ctx v) : Inv (searchNext s w ctx v contended) := by
  have hadvance : Inv (s.goto w (advance w v ctx)) := by
    obtain ⟨htoken, hyields⟩ := token_advance w v v ctx
    exact h.moves (by rw [hpc, htoken]) (by rw [hpc, hyields]; rfl) (by rw [hpc]; rfl)
      (open_advance w v ctx)
  rw [FredCounter.searchNext]
  split_ifs with hc
  · exact hadvance
  · have hlen := length_dequeueInternal (s.queue v) priorities
    have htotal := total_update (f := s.queue) v (dequeueInternal (s.queue v) priorities).2
    dsimp only
    cases hfound : (dequeueInternal (s.queue v) priorities).1 with
    | some f =>
      simp only [hfound, Option.isSome_some, if_true] at hlen ⊢
      refine h.goto (w := w) rfl ⟨rfl, rfl, rfl, rfl, rfl, rfl⟩ ?_ (by rw [hpc]; rfl) (open_found ctx)
      have hy : (Pc.search ctx v).yields = 0 := rfl
      simp only [State.goto, hpc]
      rcases token_found ctx v with ⟨ht, hy'⟩ | ⟨ht, hy'⟩
      · omega
      · omega
    | none =>
      simp only [hfound, Option.isSome_none, Bool.false_eq_true, if_false] at hlen ⊢
      obtain ⟨htoken, hyields⟩ := token_advance w v v ctx
      refine h.goto (w := w) rfl ⟨rfl, rfl, rfl, rfl, rfl, rfl⟩ ?_ (by rw [hpc]; rfl)
        (open_advance w v ctx)
      have hy : (Pc.search ctx v).yields = 0 := rfl
      simp only [State.goto, hpc]
      omega

/-- The worker blocks, or gets the first of the waiting fibres. -/
theorem Inv.block (h : Inv s) (hpc : s.pc w = .block) : Inv (block s w) := by
  rw [FredCounter.block]
  split
  · rename_i hfreds
    refine ⟨h.token_move (by rw [hpc]; rfl), .inr hfreds, fun x => ?_, fun x => ?_, h.handed,
      Inv.armed_update h.armed (by simp), Inv.cas_update h.cas (by simp)⟩
    · simp only [State.goto, List.mem_cons]
      rcases eq_or_ne x w with rfl | hne
      · simp
      · rw [Function.update_of_ne hne, h.halting x, or_iff_right hne]
    · have hold := h.halt x
      simp only [State.goto]
      rcases eq_or_ne x w with rfl | hne
      · have hhalts : (s.pc x).halts = 0 := by rw [hpc]; rfl
        rw [List.count_cons_self, Function.update_self, Pc.halts]
        omega
      · rw [List.count_cons_of_ne hne.symm, Function.update_of_ne hne]
        exact hold
  · rename_i f rest hfreds
    have hprocs : s.waitingProcs = [] := h.exclusive.resolve_right (by rw [hfreds]; simp)
    have hmoved : Inv (s.goto w .busy) :=
      h.moves (by rw [hpc]; rfl) (by rw [hpc]; rfl) (by rw [hpc]; rfl) open_busy
    exact ⟨hmoved.token, .inl hprocs, hmoved.halting, hmoved.halt, hmoved.handed, hmoved.armed,
      hmoved.cas⟩

/-- A halted worker is woken. -/
theorem Inv.woken (h : Inv s) (hpc : s.pc w = .halt) (hsem : 0 < s.haltSem w) :
    Inv (State.goto { s with haltSem := Function.update s.haltSem w (s.haltSem w - 1) } w
      .handover) := by
  refine ⟨h.token_move (by rw [hpc]; rfl), h.exclusive, h.halting, fun x => ?_, h.handed,
    fun x hx => ?_, Inv.cas_update h.cas (by simp)⟩
  · have hold := h.halt x
    simp only [State.goto]
    rcases eq_or_ne x w with rfl | hne
    · have hhalts : (Pc.handover : Pc n).halts = 0 := rfl
      rw [hpc, Pc.halts] at hold
      rw [Function.update_self, Function.update_self, hhalts]
      omega
    · rw [Function.update_of_ne hne, Function.update_of_ne hne]
      exact hold
  · simp only [State.goto] at hx
    rcases eq_or_ne x w with rfl | hne
    · exact h.armed x (.inl hsem)
    · rw [Function.update_of_ne hne, Function.update_of_ne hne] at hx
      exact h.armed x hx

/-- STEP: a worker that is not running a fibre. -/
theorem Inv.workerNext (h : Inv s) {contended : Bool} (hs : workerNext s w contended = some s') :
    Inv s' := by
  rw [FredCounter.workerNext] at hs
  cases hpc : s.pc w with
  | busy | postYield => rw [hpc] at hs; cases hs
  | readCounter caller =>
    rw [hpc] at hs
    obtain rfl := Option.some.inj hs
    split_ifs with hpos
    · refine h.moves (by rw [hpc]; rfl) (by rw [hpc]; rfl) (by rw [hpc]; rfl) ⟨rfl, by simp, ?_⟩
      rintro _ c ⟨rfl, rfl⟩
      exact hpos
    · obtain ⟨htoken, hyields⟩ := token_noToken (n := n) caller
      exact h.moves (by rw [hpc, htoken]; rfl) (by rw [hpc, hyields]; rfl) (by rw [hpc]; rfl)
        (open_noToken caller)
  | casCounter caller c =>
    simp only [hpc] at hs
    split_ifs at hs with hc
    · obtain rfl := Option.some.inj hs
      have hpos := h.cas w caller c hpc
      refine h.goto (w := w) rfl ⟨rfl, rfl, rfl, rfl, rfl, rfl⟩ ?_ (by rw [hpc]; rfl)
        (open_search ..)
      simp only [State.goto, hpc, Pc.token, Pc.yields]
      omega
    · obtain rfl := Option.some.inj hs
      obtain ⟨htoken, hyields⟩ := token_noToken (n := n) caller
      exact h.moves (by rw [hpc, htoken]; rfl) (by rw [hpc, hyields]; rfl) (by rw [hpc]; rfl)
        (open_noToken caller)
  | search ctx v =>
    rw [hpc] at hs
    obtain rfl := Option.some.inj hs
    exact h.searchNext hpc
  | getReadyFred =>
    rw [hpc] at hs
    obtain rfl := Option.some.inj hs
    split_ifs with hpos
    · refine h.goto (w := w) rfl ⟨rfl, rfl, rfl, rfl, rfl, rfl⟩ ?_ (by rw [hpc]; rfl)
        (open_search ..)
      simp only [State.goto, hpc, Pc.token, Pc.yields]
      omega
    · refine h.goto (w := w) rfl ⟨rfl, rfl, rfl, rfl, rfl, rfl⟩ ?_ (by rw [hpc]; rfl)
        ⟨rfl, by simp, by simp⟩
      simp only [State.goto, hpc, Pc.token, Pc.yields]
      omega
  | block =>
    rw [hpc] at hs
    obtain rfl := Option.some.inj hs
    exact h.block hpc
  | halt =>
    simp only [hpc] at hs
    split_ifs at hs with hsem
    obtain rfl := Option.some.inj hs
    exact h.woken hpc hsem
  | handover =>
    rw [hpc] at hs
    obtain rfl := Option.some.inj hs
    exact h.moves (by rw [hpc]; rfl) (by rw [hpc]; rfl) (by rw [hpc]; rfl) open_busy

end Steps

/-! ### One call of `enqueueResume` moves -/

section Adds
variable [DecidableEq P] [Fintype P] {s s' : State n P Fb} {w x : Fin (n + 1)} {a b : Agent n P}
  {f g : Fb} {wakeFredWorker : Bool} {priority : Fb → Priority}

theorem Inv.token_add (h : Inv s) {p : Add n Fb} {c : ℤ} {q : Fin (n + 1) → Priority → List Fb}
    (htoken : c.toNat + total s.queue + (s.add a).committed
      = s.fredCounter.toNat + total q + p.committed) :
    tally Pc.token s.pc + c.toNat
      = total q + tally Add.committed (Function.update s.add a p) + tally Pc.yields s.pc := by
  have ht := tally_update Add.committed s.add a p
  have hold := h.token
  rw [ready] at hold
  omega

theorem Inv.halt_add (h : Inv s) {p : Add n Fb} {procs : List (Fin (n + 1))} {sem : ℕ}
    (hx : procs.count x + sem + p.wakes x
      = s.waitingProcs.count x + s.haltSem x + (s.add a).wakes x) :
    procs.count x + tally (Add.wakes x) (Function.update s.add a p) + sem = (s.pc x).halts := by
  have ht := tally_update (Add.wakes x) s.add a p
  have hold := h.halt x
  omega

/-- Two calls never wake the same worker. -/
theorem Inv.wakes_unique (h : Inv s) (ha : (s.add a).wakes x = 1) (hb : (s.add b).wakes x = 1) :
    a = b := by
  by_contra hne
  have ht := tally_update (Add.wakes x) s.add a .done
  have hle := le_tally (Add.wakes x) (Function.update s.add a .done) b
  rw [Function.update_of_ne (Ne.symm hne)] at hle
  have hdone : (Add.done : Add n Fb).wakes x = 0 := rfl
  have hold := h.halt x
  have hhalts : (s.pc x).halts ≤ 1 := by cases s.pc x <;> simp [Pc.halts]
  omega

omit [Fintype P] in
theorem handed_update {add : Agent n P → Add n Fb} {hand : Fin (n + 1) → Option Fb} {p : Add n Fb}
    (h : ∀ b g x, add b = .haltSemV g x → hand x = some g) (hp : ∀ g x, p ≠ .haltSemV g x)
    (b : Agent n P) (g : Fb) (x : Fin (n + 1)) (hb : Function.update add a p b = .haltSemV g x) :
    hand x = some g := by
  rcases eq_or_ne b a with rfl | hne
  · rw [Function.update_self] at hb
    exact absurd hb (hp g x)
  · rw [Function.update_of_ne hne] at hb
    exact h b g x hb

/-- A call moves and touches at most the counter and the ready queues. -/
theorem Inv.gotoAdd (h : Inv s) {p : Add n Fb} {c : ℤ} {q : Fin (n + 1) → Priority → List Fb}
    (htoken : c.toNat + total s.queue + (s.add a).committed
      = s.fredCounter.toNat + total q + p.committed)
    (hwakes : ∀ x, p.wakes x = (s.add a).wakes x) (hp : ∀ g x, p ≠ .haltSemV g x) :
    Inv (State.gotoAdd { s with fredCounter := c, queue := q } a p) :=
  ⟨h.token_add htoken, h.exclusive, h.halting,
    fun x => h.halt_add (by rw [hwakes]; rfl), handed_update h.handed hp, h.armed, h.cas⟩

/-- A halted worker is taken from the list to be woken. -/
theorem Inv.taken (h : Inv s) {proc u : Fin (n + 1)} (ha : s.add a = .unblock f proc)
    (hu : u ∈ s.waitingProcs) :
    Inv (State.gotoAdd { s with
      halting := Function.update s.halting u false
      waitingProcs := s.waitingProcs.erase u } a (.wake f u)) := by
  have hcount := List.count_pos_iff.mpr hu
  have hone : ∀ x, s.waitingProcs.count x ≤ 1 := by
    intro x
    have hold := h.halt x
    have hhalts : (s.pc x).halts ≤ 1 := by cases s.pc x <;> simp [Pc.halts]
    omega
  refine ⟨h.token_add (by rw [ha]; rfl), h.exclusive.imp_left fun hnil => by rw [hnil]; rfl,
    fun x => ?_, fun x => h.halt_add ?_, handed_update h.handed (by simp), h.armed, h.cas⟩
  · simp only [State.gotoAdd]
    rcases eq_or_ne x u with rfl | hne
    · rw [Function.update_self]
      refine iff_of_false (by simp) fun hmem => ?_
      have hpos := List.count_pos_iff.mpr hmem
      rw [List.count_erase_self] at hpos
      have hle := hone x
      omega
    · rw [Function.update_of_ne hne, h.halting x, List.mem_erase_of_ne hne]
  · rw [ha]
    simp only [State.gotoAdd, Add.wakes]
    rcases eq_or_ne u x with rfl | hne
    · rw [if_pos rfl, List.count_erase_self]
      omega
    · rw [if_neg hne, List.count_erase_of_ne hne.symm]

theorem Inv.unblock (h : Inv s) {proc : Fin (n + 1)} (ha : s.add a = .unblock f proc) :
    Inv (unblock wakeFredWorker s a f proc) := by
  rw [FredCounter.unblock]
  split
  · rename_i hprocs
    exact ⟨h.token_add (by rw [ha]; rfl), .inl hprocs, h.halting,
      fun x => h.halt_add (by rw [ha]; rfl), handed_update h.handed (by simp), h.armed, h.cas⟩
  · rename_i first rest hprocs
    split_ifs with hwake
    · exact h.taken ha ((h.halting proc).mp hwake.2)
    · have htaken := h.taken (u := first) ha (by rw [hprocs]; exact List.mem_cons_self ..)
      rw [hprocs, List.erase_cons_head] at htaken
      exact htaken

/-- STEP: a call of `enqueueResume`. -/
theorem Inv.addNext (h : Inv s) (hs : addNext wakeFredWorker priority s a = some s') : Inv s' := by
  rw [FredCounter.addNext] at hs
  cases ha : s.add a with
  | done => rw [ha] at hs; cases hs
  | addReadyFred f proc =>
    rw [ha] at hs
    obtain rfl := Option.some.inj hs
    split_ifs with hpos
    · refine h.gotoAdd ?_ (fun x => by rw [ha]; rfl) (by simp)
      rw [ha]
      simp only [Add.committed]
      omega
    · refine h.gotoAdd ?_ (fun x => by rw [ha]; rfl) (by simp)
      rw [ha]
      simp only [Add.committed]
      omega
  | enqueueFred f proc =>
    rw [ha] at hs
    obtain rfl := Option.some.inj hs
    refine h.gotoAdd ?_ (fun x => by rw [ha]; rfl) (by simp)
    have htotal := total_update (f := s.queue) proc (enqueue priority (s.queue proc) f)
    rw [length_enqueue] at htotal
    rw [ha]
    simp only [Add.committed]
    omega
  | unblock f proc =>
    rw [ha] at hs
    obtain rfl := Option.some.inj hs
    exact h.unblock ha
  | wake f u =>
    rw [ha] at hs
    obtain rfl := Option.some.inj hs
    refine ⟨h.token_add (by rw [ha]; rfl), h.exclusive, h.halting,
      fun x => h.halt_add (by rw [ha]; rfl), fun b g x hb => ?_, fun x hx => ?_, h.cas⟩
    · simp only [State.gotoAdd] at hb ⊢
      rcases eq_or_ne b a with rfl | hne
      · rw [Function.update_self] at hb
        cases hb
        exact Function.update_self ..
      · rw [Function.update_of_ne hne] at hb
        rw [Function.update_of_ne, h.handed b g x hb]
        rintro rfl
        exact hne (h.wakes_unique (x := x) (by simp [hb, Add.wakes]) (by simp [ha, Add.wakes]))
    · simp only [State.gotoAdd]
      rcases eq_or_ne x u with rfl | hne
      · simp
      · rw [Function.update_of_ne hne]
        exact h.armed x hx
  | haltSemV f u =>
    rw [ha] at hs
    obtain rfl := Option.some.inj hs
    refine ⟨h.token_add (by rw [ha]; rfl), h.exclusive, h.halting, fun x => h.halt_add ?_,
      handed_update h.handed (by simp), fun x hx => ?_, h.cas⟩
    · rw [ha]
      simp only [State.gotoAdd, Add.wakes]
      rcases eq_or_ne u x with rfl | hne
      · rw [if_pos rfl, Function.update_self]
        omega
      · rw [if_neg hne, Function.update_of_ne hne.symm]
    · simp only [State.gotoAdd] at hx ⊢
      rcases eq_or_ne x u with rfl | hne
      · rw [h.handed a f x ha]
        simp
      · rw [Function.update_of_ne hne] at hx
        exact h.armed x hx

/-! ### Every step -/

theorem Inv.step (h : Inv s) {c : Action n P Fb} (hs : step wakeFredWorker priority s c = some s') :
    Inv s' := by
  cases c with
  | next w contended =>
    exact h.workerNext (step_cases hs).2
  | suspend w =>
    obtain ⟨⟨-, hpc⟩, rfl⟩ := step_cases hs
    exact h.moves (by rw [hpc]; rfl) (by rw [hpc]; rfl) (by rw [hpc]; rfl) ⟨rfl, by simp, by simp⟩
  | yield w everywhere =>
    obtain ⟨⟨-, hpc⟩, rfl⟩ := step_cases hs
    exact h.moves (by rw [hpc]; rfl) (by rw [hpc]; rfl) (by rw [hpc]; rfl) (open_search ..)
  | postYield w v f =>
    obtain ⟨⟨-, hpc⟩, rfl⟩ := step_cases hs
    refine h.goto (w := w) rfl ⟨rfl, rfl, rfl, rfl, rfl, rfl⟩ ?_ (by rw [hpc]; rfl) open_busy
    have htotal := total_update (f := s.queue) v (enqueue priority (s.queue v) f)
    rw [length_enqueue] at htotal
    simp only [State.goto, FredCounter.enqueueFred, hpc, Pc.token, Pc.yields]
    omega
  | enqueueResume a v f =>
    obtain ⟨⟨hdone, -⟩, rfl⟩ := step_cases hs
    exact h.gotoAdd (by rw [hdone]; rfl) (fun x => by rw [hdone]; rfl) (by simp)
  | addNext a => exact h.addNext hs

omit [DecidableEq P] in
theorem inv_start (h : Start s) : Inv s := by
  have hpc : ∀ weight : Pc n → ℕ, weight (.readCounter (.idle 1)) = 0 → weight .busy = 0 →
      ∀ x, weight (s.pc x) = 0 := fun weight h1 h2 x => by
    rcases h.pc x with hpc | hpc <;> rw [hpc] <;> assumption
  have htotal : total s.queue = 0 := by simp [total, h.queue]
  refine ⟨?_, .inl h.waitingProcs, fun x => ?_, fun x => ?_, fun a f x ha => ?_, fun x hx => ?_,
    fun x caller c hx => ?_⟩
  · rw [ready, htotal, tally_eq_zero (hpc Pc.token rfl rfl), tally_eq_zero (hpc Pc.yields rfl rfl),
      tally_eq_zero fun a => by rw [h.add a]; rfl, h.fredCounter]
    rfl
  · rw [h.halting, h.waitingProcs]
    simp
  · rw [h.waitingProcs, h.haltSem, tally_eq_zero fun a => by rw [h.add a]; rfl,
      hpc Pc.halts rfl rfl x]
    rfl
  · rw [h.add a] at ha
    cases ha
  · rw [h.haltSem x] at hx
    rcases h.pc x with hpc | hpc <;> simp [hpc] at hx
  · rcases h.pc x with hpc | hpc <;> rw [hpc] at hx <;> cases hx

end Adds

end Libfibre.FredCounter
