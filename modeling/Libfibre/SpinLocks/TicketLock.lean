import Libfibre.Runtime.Word
import Libfibre.Schemes.Threads
import Libfibre.Schemes.Transition
import Mathlib.Data.Fintype.Card
import Mathlib.Tactic.SplitIfs

/-! `TicketLock` (`SpinLocks.h`). Each read of `serving` and `ticket` and each atomic instruction on them is
    one step; both counters live modulo 2^64. An expression with both of them reads them in either order.

        acquire:     out ─▶ draw ─▶ spin mine ─▶ held
        tryAcquire:  out ─▶ first ─▶ second ─▶ reread ─▶ cas tk ─▶ held
                      ▲                │                   │
                      └────────────────┴───────────────────┘
        release:     held ─▶ first ─▶ second ─▶ bump ─▶ out

    There are fewer parties than numbers, so no two that are inside have the same one. A `tryAcquire` that
    has read `serving` is not inside: `ticket` may come round to what it has read. -/

namespace Libfibre.TicketLock
open Transition Threads Word

/-- Who compares `serving` and `ticket`: `tryAcquire`, or the assertion of `release`. -/
inductive Test where
  | tryAcquire
  | release
  deriving DecidableEq

/-- Where a party is; `mine` is `myticket`, `tk` is `tryticket`, `v` is the counter read first. -/
inductive Pc where
  | out
  | draw
  | spin (mine : ℕ)
  | first (test : Test) (servingFirst : Bool)
  | second (test : Test) (servingFirst : Bool) (v : ℕ)
  | reread
  | cas (tk : ℕ)
  | held
  | bump
  deriving DecidableEq

def Pc.holds : Pc → Bool
  | .held | .first .release _ | .second .release _ _ | .bump => true
  | _ => false

/-- It holds the lock or waits for it. -/
def Pc.inside : Pc → Bool
  | .spin _ => true
  | p => p.holds

structure State (T : Type) where
  serving : ℕ
  ticket : ℕ
  pc : T → Pc
  drawn : List T        -- history: by tickets
  obtained : List T     -- history: by obtaining the lock
  inside : List T       -- history: those who have a ticket and have not released it
  barged : Bool         -- history: has a `tryAcquire` succeeded while somebody was inside?
  released : ℕ          -- history: how many tickets have been released
  seen : T → ℕ          -- history: `released` as a `tryAcquire` last read `serving`

inductive Action (T : Type) where
  | acquire (t : T)
  | tryAcquire (t : T) (servingFirst : Bool)
  | release (t : T) (servingFirst : Bool)
  | next (t : T)        -- the next step of the call of `t`

variable {T : Type} [DecidableEq T]

def State.goto (s : State T) (t : T) (p : Pc) : State T :=
  { s with pc := Function.update s.pc t p }

/-- The next ticket is drawn. -/
def State.draw (s : State T) (t : T) : State T :=
  { s with ticket := word (s.ticket + 1), drawn := s.drawn ++ [t], inside := s.inside ++ [t] }

def State.obtain (s : State T) (t : T) : State T :=
  State.goto { s with obtained := s.obtained ++ [t] } t .held

/-- One step of party `t` in `acquire`, `tryAcquire` or `release`. -/
def next (s : State T) (t : T) : Option (State T) :=
  match s.pc t with
  | .out | .held => none
  | .draw => some ((s.draw t).goto t (.spin s.ticket))
  | .spin mine => if mine = s.serving then some (s.obtain t) else some s
  | .first test servingFirst =>
    some (s.goto t (.second test servingFirst (if servingFirst then s.serving else s.ticket)))
  | .second test servingFirst v =>
    let serving := if servingFirst then v else s.serving
    let ticket := if servingFirst then s.ticket else v
    match test with
    | .tryAcquire => if serving = ticket then some (s.goto t .reread) else some (s.goto t .out)
    | .release => if positive (minus ticket serving) then some (s.goto t .bump) else none
  | .reread =>
    some (State.goto { s with seen := Function.update s.seen t s.released } t (.cas s.serving))
  | .cas tk =>
    if s.ticket = tk then
      some (State.obtain { s.draw t with
        ticket := word (tk + 1), barged := s.barged || !s.inside.isEmpty } t)
    else some (s.goto t .out)
  | .bump =>
    some (State.goto { s with
      serving := word (s.serving + 1)
      inside := s.inside.erase t
      released := s.released + 1 } t .out)

def step (s : State T) : Action T → Option (State T)
  | .acquire t => if s.pc t = .out then some (s.goto t .draw) else none
  | .tryAcquire t f => if s.pc t = .out then some (s.goto t (.first .tryAcquire f)) else none
  | .release t f => if s.pc t = .held then some (s.goto t (.first .release f)) else none
  | .next t => next s t

/-- A new lock. -/
def start : State T := ⟨0, 0, fun _ => .out, [], [], [], false, 0, fun _ => 0⟩

def ticketLock : System (State T) (Action T) where
  init s := s = start
  step := step

/-! ### What the lock is for -/

/-- One party at most holds the lock; the counters tell how many hold it or wait for it; it is obtained in
    the order of the tickets; no `tryAcquire` has succeeded while somebody was inside. -/
structure Lawful [Fintype T] (s : State T) : Prop where
  exclusive : ∀ t u, (s.pc t).holds = true → (s.pc u).holds = true → t = u
  count : minus s.ticket s.serving = (Finset.univ.filter fun t => (s.pc t).inside = true).card
  order : s.obtained <+: s.drawn
  alone : s.barged = false

/-- Since a `tryAcquire` has read `serving` again, `ticket` has gone round: the tickets that have been drawn
    are more than those that were released then, by `2^64` or a multiple of it. -/
def comesRound (s : State T) : Action T → Bool
  | .next t =>
    match s.pc t with
    | .cas _ => decide (s.seen t < s.drawn.length ∧ 2 ^ 64 ∣ s.drawn.length - s.seen t)
    | _ => false
  | _ => false

/-- INVARIANT: those inside have the tickets after the released ones, in their order. -/
structure Inv (s : State T) : Prop where
  ticket : s.ticket = word s.drawn.length
  serving : s.serving = word s.released
  length : s.released + s.inside.length = s.drawn.length
  nodup : s.inside.Nodup
  member : ∀ t, t ∈ s.inside ↔ (s.pc t).inside = true
  turn : ∀ (i : ℕ) (t : T) mine, s.inside[i]? = some t → s.pc t = .spin mine →
    mine = word (s.released + i)
  first : ∀ t, (s.pc t).holds = true → s.inside.head? = some t
  history : s.drawn = s.obtained ++ s.inside.filter fun t => !(s.pc t).holds
  alone : s.barged = false
  late : ∀ t tk, s.pc t = .cas tk → tk = word (s.seen t) ∧ s.seen t ≤ s.released

section Facts
variable {s s' : State T} {t u : T} {p : Pc}

omit [DecidableEq T] in
theorem Inv.exclusive (h : Inv s) (ht : (s.pc t).holds = true) (hu : (s.pc u).holds = true) :
    t = u :=
  Option.some.inj ((h.first t ht).symm.trans (h.first u hu))

omit [DecidableEq T] in
theorem Inv.holder (h : Inv s) (ht : (s.pc t).holds = true) : ∃ rest, s.inside = t :: rest :=
  List.head?_eq_some_iff.mp (h.first t ht)

theorem holds_inside {p : Pc} (h : p.holds = true) : p.inside = true := by
  cases p <;> first | rfl | exact h

section Few
variable [Fintype T]

omit [DecidableEq T] in
/-- Those inside are fewer than the numbers there are. -/
theorem Inv.few (h : Inv s) (hcard : Fintype.card T < 2 ^ 64) : s.inside.length < 2 ^ 64 :=
  Nat.lt_of_le_of_lt h.nodup.length_le_card hcard

omit [DecidableEq T] in
theorem Inv.minus_eq (h : Inv s) (hcard : Fintype.card T < 2 ^ 64) :
    minus s.ticket s.serving = s.inside.length := by
  have hfew := h.few hcard
  have hlen := h.length
  have hle : s.released ≤ s.drawn.length := by omega
  have hlt : s.drawn.length - s.released < 2 ^ 64 := by omega
  rw [h.ticket, h.serving, minus_word hle hlt]
  omega

theorem Inv.lawful (h : Inv s) (hcard : Fintype.card T < 2 ^ 64) : Lawful s where
  exclusive _ _ := h.exclusive
  count := by
    have hset : (Finset.univ.filter fun t => (s.pc t).inside = true) = s.inside.toFinset := by
      ext t
      rw [Finset.mem_filter, List.mem_toFinset, h.member]
      exact and_iff_right (Finset.mem_univ t)
    rw [h.minus_eq hcard, hset, List.toFinset_card_of_nodup h.nodup]
  order := ⟨_, h.history.symm⟩
  alone := h.alone

end Few

/-! ### One party moves -/

/-- The call goes on without the lock changing hands, and may read `serving` for its `cas`. -/
theorem Inv.read (h : Inv s) (k : ℕ) (hinside : p.inside = (s.pc t).inside)
    (hholds : p.holds = (s.pc t).holds) (hspin : ∀ mine, p ≠ .spin mine)
    (hcas : ∀ tk, p = .cas tk → tk = word k ∧ k ≤ s.released) :
    Inv (State.goto { s with seen := Function.update s.seen t k } t p) where
  ticket := h.ticket
  serving := h.serving
  length := h.length
  nodup := h.nodup
  member u := (h.member u).trans (iff_of_eq (congrArg (· = true)
    (same_at (f := Pc.inside) hinside u).symm))
  turn i u mine hi hu := by
    have hu' : Function.update s.pc t p u = .spin mine := hu
    rcases eq_or_ne u t with rfl | hut
    · rw [Function.update_self] at hu'
      exact absurd hu' (hspin mine)
    · rw [Function.update_of_ne hut] at hu'
      exact h.turn i u mine hi hu'
  first u hu := h.first u ((same_at (f := Pc.holds) hholds u).symm.trans hu)
  history := by
    have hsame : ∀ u, (Function.update s.pc t p u).holds = (s.pc u).holds :=
      same_at (f := Pc.holds) hholds
    change s.drawn = s.obtained ++ s.inside.filter fun u => !(Function.update s.pc t p u).holds
    simp only [hsame]
    exact h.history
  alone := h.alone
  late u tk hu := by
    have hu' : Function.update s.pc t p u = .cas tk := hu
    change tk = word (Function.update s.seen t k u) ∧ Function.update s.seen t k u ≤ s.released
    rcases eq_or_ne u t with rfl | hut
    · rw [Function.update_self] at hu' ⊢
      exact hcas tk hu'
    · rw [Function.update_of_ne hut] at hu' ⊢
      exact h.late u tk hu'

/-- The call goes on elsewhere. -/
theorem Inv.walk (h : Inv s) (hinside : p.inside = (s.pc t).inside) (hholds : p.holds = (s.pc t).holds)
    (hspin : ∀ mine, p ≠ .spin mine) (hcas : ∀ tk, p ≠ .cas tk) : Inv (s.goto t p) := by
  have hread := h.read (s.seen t) hinside hholds hspin fun tk htk => absurd htk (hcas tk)
  rwa [Function.update_eq_self] at hread

omit [DecidableEq T] in
/-- What is known of a `tryAcquire` before its `cas` depends on itself only. -/
theorem late_of {pc : T → Pc} {released : ℕ} (h : Inv s) (hle : s.released ≤ released)
    (hpc : ∀ u, pc u = s.pc u ∨ ∀ tk, pc u ≠ .cas tk) (u : T) (tk : ℕ) (hu : pc u = .cas tk) :
    tk = word (s.seen u) ∧ s.seen u ≤ released := by
  rcases hpc u with heq | hne
  · obtain ⟨htk, hseen⟩ := h.late u tk (heq ▸ hu)
    exact ⟨htk, hseen.trans hle⟩
  · exact absurd hu (hne tk)

theorem update_cases (hp : ∀ tk, p ≠ .cas tk) (u : T) :
    Function.update s.pc t p u = s.pc u ∨ ∀ tk, Function.update s.pc t p u ≠ .cas tk := by
  rcases eq_or_ne u t with rfl | hut
  · exact .inr (by rwa [Function.update_self])
  · exact .inl (Function.update_of_ne hut ..)

/-- STEP: `acquire` draws a ticket. -/
theorem Inv.draw (h : Inv s) (ht : s.pc t = .draw) :
    Inv ((s.draw t).goto t (.spin s.ticket)) := by
  have hnot : t ∉ s.inside := fun hm => by
    have hinside := (h.member t).mp hm
    rw [ht] at hinside
    cases hinside
  have hholds : ∀ u, (Function.update s.pc t (.spin s.ticket) u).holds = (s.pc u).holds :=
    same_at (f := Pc.holds) (by rw [ht]; rfl)
  refine ⟨?_, h.serving, ?_, ?_, fun u => ?_, fun i u mine hi hu => ?_, fun u hu => ?_, ?_, h.alone,
    late_of (s := s) h le_rfl (update_cases (p := .spin s.ticket) fun _ he => by cases he)⟩
  · change word (s.ticket + 1) = word (s.drawn ++ [t]).length
    rw [h.ticket, List.length_append, List.length_singleton, word_succ]
  · change s.released + (s.inside ++ [t]).length = (s.drawn ++ [t]).length
    rw [List.length_append, List.length_append, ← h.length, Nat.add_assoc, List.length_singleton]
  · refine List.nodup_append.mpr ⟨h.nodup, List.nodup_singleton t, ?_⟩
    rintro x hx y hy rfl
    exact hnot (List.mem_singleton.mp hy ▸ hx)
  · change u ∈ s.inside ++ [t] ↔ (Function.update s.pc t (.spin s.ticket) u).inside = true
    rcases eq_or_ne u t with rfl | hut
    · rw [Function.update_self]
      exact iff_of_true (List.mem_append_right _ List.mem_cons_self) rfl
    · rw [Function.update_of_ne hut, ← h.member]
      simp [hut]
  · have hi' : (s.inside ++ [t])[i]? = some u := hi
    have hu' : Function.update s.pc t (.spin s.ticket) u = .spin mine := hu
    rw [List.getElem?_append] at hi'
    split_ifs at hi' with hlt
    · have hut : u ≠ t := by
        rintro rfl
        exact hnot (List.mem_of_getElem? hi')
      rw [Function.update_of_ne hut] at hu'
      exact h.turn i u mine hi' hu'
    · obtain ⟨hzero, rfl⟩ : i - s.inside.length = 0 ∧ u = t := by
        cases hk : i - s.inside.length with
        | zero => rw [hk] at hi'; exact ⟨rfl, (Option.some.inj hi').symm⟩
        | succ k => rw [hk] at hi'; cases hi'
      rw [Function.update_self] at hu'
      have hlen := h.length
      rw [← Pc.spin.inj hu', h.ticket]
      congr 1
      change s.drawn.length = s.released + i
      omega
  · have hu' : (Function.update s.pc t (.spin s.ticket) u).holds = true := hu
    rw [hholds] at hu'
    obtain ⟨rest, hrest⟩ := h.holder hu'
    change (s.inside ++ [t]).head? = some u
    rw [hrest]
    rfl
  · change s.drawn ++ [t] = s.obtained ++
      (s.inside ++ [t]).filter fun u => !(Function.update s.pc t (.spin s.ticket) u).holds
    have hfalse : (s.pc t).holds = false := by rw [ht]; rfl
    simp only [hholds]
    rw [List.filter_append, ← List.append_assoc, ← h.history,
      List.filter_cons_of_pos (by simp [hfalse]), List.filter_nil]

omit [DecidableEq T] in
theorem Inv.others {rest : List T} (h : Inv s) (hrest : s.inside = t :: rest) (hu : u ≠ t) :
    (s.pc u).holds = false := by
  by_contra hholds
  have hfirst := h.first u (by simpa using hholds)
  rw [hrest] at hfirst
  exact hu (Option.some.inj hfirst).symm

/-- Nobody behind the first holds the lock. -/
theorem Inv.filter_moved {rest : List T} (h : Inv s) (hrest : s.inside = t :: rest) :
    rest.filter (fun u => !(Function.update s.pc t p u).holds) = rest := by
  refine List.filter_eq_self.mpr fun u hu => ?_
  have hnodup := h.nodup
  rw [hrest] at hnodup
  have hut : u ≠ t := by
    rintro rfl
    exact (List.nodup_cons.mp hnodup).1 hu
  rw [Function.update_of_ne hut, h.others hrest hut]
  rfl

/-- STEP: the party whose ticket is served obtains the lock. -/
theorem Inv.see [Fintype T] (h : Inv s) (hcard : Fintype.card T < 2 ^ 64)
    (ht : s.pc t = .spin s.serving) : Inv (s.obtain t) := by
  have hmem : t ∈ s.inside := (h.member t).mpr (by rw [ht]; rfl)
  obtain ⟨i, hi⟩ := List.mem_iff_getElem?.mp hmem
  have hturn := h.turn i t _ hi ht
  obtain ⟨hlt, -⟩ := List.getElem?_eq_some_iff.mp hi
  have hzero : i = 0 := by
    have hfew := h.few hcard
    rw [h.serving, word, word] at hturn
    omega
  obtain ⟨rest, hrest⟩ : ∃ rest, s.inside = t :: rest := by
    rw [hzero, ← List.head?_eq_getElem?] at hi
    exact List.head?_eq_some_iff.mp hi
  have hnot : (s.pc t).holds = false := by rw [ht]; rfl
  refine ⟨h.ticket, h.serving, h.length, h.nodup, fun u => ?_, fun i u mine hi hu => ?_,
    fun u hu => ?_, ?_, h.alone,
    late_of (s := s) h le_rfl (update_cases (p := .held) fun _ he => by cases he)⟩
  · change u ∈ s.inside ↔ (Function.update s.pc t .held u).inside = true
    rw [h.member, same_at (f := Pc.inside) (p := .held) (by rw [ht]; rfl)]
  · have hu' : Function.update s.pc t .held u = .spin mine := hu
    rcases eq_or_ne u t with rfl | hut
    · rw [Function.update_self] at hu'
      cases hu'
    · rw [Function.update_of_ne hut] at hu'
      exact h.turn i u mine hi hu'
  · have hu' : (Function.update s.pc t .held u).holds = true := hu
    rcases eq_or_ne u t with rfl | hut
    · change s.inside.head? = some u
      rw [hrest]
      rfl
    · rw [Function.update_of_ne hut, h.others hrest hut] at hu'
      cases hu'
  · change s.drawn = s.obtained ++ [t] ++
      s.inside.filter fun u => !(Function.update s.pc t .held u).holds
    have hhistory := h.history
    have hwait : (t :: rest).filter (fun u => !(s.pc u).holds) = t :: rest := by
      rw [List.filter_cons_of_pos (by simp [hnot])]
      have hmoved := h.filter_moved (p := s.pc t) hrest
      rw [Function.update_eq_self] at hmoved
      rw [hmoved]
    rw [hrest, hwait] at hhistory
    rw [hrest, List.filter_cons_of_neg (by simp [Pc.holds]), h.filter_moved hrest, hhistory,
      List.append_assoc, List.singleton_append]

/-- STEP: a `tryAcquire` that finds the lock free. -/
theorem Inv.barge (h : Inv s) (hout : (s.pc t).inside = false) (hempty : s.inside = [])
    {tk : ℕ} (htk : s.ticket = tk) :
    Inv (State.obtain { s.draw t with
      ticket := word (tk + 1), barged := s.barged || !s.inside.isEmpty } t) := by
  have hnone : ∀ u, (s.pc u).inside = false := fun u => by
    by_contra hinside
    have hmem := (h.member u).mpr (by simpa using hinside)
    rw [hempty] at hmem
    cases hmem
  have hother : ∀ u, u ≠ t → (Function.update s.pc t .held u).inside = false := fun u hut => by
    rw [Function.update_of_ne hut]
    exact hnone u
  refine ⟨?_, h.serving, ?_, ?_, fun u => ?_, fun i u mine hi hu => ?_, fun u hu => ?_, ?_, ?_,
    late_of (s := s) h le_rfl (update_cases (p := .held) fun _ he => by cases he)⟩
  · change word (tk + 1) = word (s.drawn ++ [t]).length
    rw [← htk, h.ticket, List.length_append, List.length_singleton, word_succ]
  · change s.released + (s.inside ++ [t]).length = (s.drawn ++ [t]).length
    rw [List.length_append, List.length_append, ← h.length, Nat.add_assoc, List.length_singleton]
  · change (s.inside ++ [t]).Nodup
    rw [hempty]
    exact List.nodup_singleton t
  · change u ∈ s.inside ++ [t] ↔ (Function.update s.pc t .held u).inside = true
    rw [hempty, List.nil_append, List.mem_singleton]
    rcases eq_or_ne u t with rfl | hut
    · rw [Function.update_self]
      exact iff_of_true rfl rfl
    · rw [hother u hut]
      exact iff_of_false hut Bool.false_ne_true
  · have hu' : Function.update s.pc t .held u = .spin mine := hu
    rcases eq_or_ne u t with rfl | hut
    · rw [Function.update_self] at hu'
      cases hu'
    · have hinside := hother u hut
      rw [hu'] at hinside
      cases hinside
  · change (s.inside ++ [t]).head? = some u
    have hut : u = t := by
      by_contra hne
      have hfalse := hother u hne
      rw [holds_inside (p := Function.update s.pc t .held u) hu] at hfalse
      cases hfalse
    rw [hempty, hut]
    rfl
  · change s.drawn ++ [t] = s.obtained ++ [t] ++
      (s.inside ++ [t]).filter fun u => !(Function.update s.pc t .held u).holds
    have hhistory : s.drawn = s.obtained := by simpa [hempty] using h.history
    rw [hempty, List.nil_append, List.filter_cons_of_neg (by simp [Pc.holds]), List.filter_nil,
      List.append_nil, hhistory]
  · change (s.barged || !s.inside.isEmpty) = false
    rw [h.alone, hempty]
    rfl

/-- STEP: the holder moves `serving` on. -/
theorem Inv.bump (h : Inv s) (ht : s.pc t = .bump) :
    Inv (State.goto { s with
      serving := word (s.serving + 1)
      inside := s.inside.erase t
      released := s.released + 1 } t .out) := by
  obtain ⟨rest, hrest⟩ := h.holder (t := t) (by rw [ht]; rfl)
  have herase : s.inside.erase t = rest := by rw [hrest, List.erase_cons_head]
  have hnodup := h.nodup
  rw [hrest] at hnodup
  obtain ⟨htr, hr⟩ := List.nodup_cons.mp hnodup
  refine ⟨h.ticket, ?_, ?_, ?_, fun u => ?_, fun i u mine hi hu => ?_, fun u hu => ?_, ?_, h.alone,
    late_of (s := s) h (Nat.le_succ _) (update_cases (p := .out) fun _ he => by cases he)⟩
  · change word (s.serving + 1) = word (s.released + 1)
    rw [h.serving, word_succ]
  · change s.released + 1 + (s.inside.erase t).length = s.drawn.length
    rw [herase, ← h.length, hrest, List.length_cons]
    omega
  · change (s.inside.erase t).Nodup
    rwa [herase]
  · change u ∈ s.inside.erase t ↔ (Function.update s.pc t .out u).inside = true
    rw [herase]
    rcases eq_or_ne u t with rfl | hut
    · rw [Function.update_self]
      exact iff_of_false htr Bool.false_ne_true
    · rw [Function.update_of_ne hut, ← h.member, hrest]
      simp [hut]
  · have hi' : (s.inside.erase t)[i]? = some u := hi
    have hu' : Function.update s.pc t .out u = .spin mine := hu
    rw [herase] at hi'
    have hut : u ≠ t := by
      rintro rfl
      exact htr (List.mem_of_getElem? hi')
    rw [Function.update_of_ne hut] at hu'
    have hturn := h.turn (i + 1) u mine (by rw [hrest]; exact hi') hu'
    change mine = word (s.released + 1 + i)
    rw [hturn]
    congr 1
    omega
  · have hu' : (Function.update s.pc t .out u).holds = true := hu
    rcases eq_or_ne u t with rfl | hut
    · rw [Function.update_self] at hu'
      cases hu'
    · rw [Function.update_of_ne hut, h.others hrest hut] at hu'
      cases hu'
  · change s.drawn = s.obtained ++
      (s.inside.erase t).filter fun u => !(Function.update s.pc t .out u).holds
    have hholds : (s.pc t).holds = true := by rw [ht]; rfl
    have hhistory := h.history
    have hmoved := h.filter_moved (p := s.pc t) hrest
    rw [Function.update_eq_self] at hmoved
    rw [hrest, List.filter_cons_of_neg (by simp [hholds]), hmoved] at hhistory
    rw [herase, h.filter_moved hrest]
    exact hhistory

end Facts

/-! ### Every run -/

section Runs
variable [Fintype T] {s s' : State T} {t : T}

omit [DecidableEq T] [Fintype T] in
/-- A `tryAcquire` that finds its ticket has the first ticket after those it knows to be released, unless
    `ticket` has gone round. -/
theorem Inv.cas (h : Inv s) (hcas : s.pc t = .cas s.ticket) :
    comesRound s (.next t) = true ∨ s.inside = [] := by
  obtain ⟨hword, hseen⟩ := h.late t _ hcas
  rw [h.ticket, word, word] at hword
  have hlen := h.length
  simp only [comesRound, hcas, decide_eq_true_eq, ← List.length_eq_zero_iff]
  rcases Nat.eq_or_lt_of_le (show s.seen t ≤ s.drawn.length by omega) with heq | hlt
  · exact .inr (by omega)
  · exact .inl ⟨hlt, by omega⟩

theorem inv_next (h : Inv s) (hcard : Fintype.card T < 2 ^ 64)
    (hround : comesRound s (.next t) = true → s.inside = []) (hs : next s t = some s') : Inv s' := by
  cases hp : s.pc t <;> simp only [next, hp] at hs
  case out | held => cases hs
  case draw =>
    obtain rfl := Option.some.inj hs
    exact h.draw hp
  case spin mine =>
    split_ifs at hs with hmine
    · obtain rfl := Option.some.inj hs
      exact h.see hcard (hmine ▸ hp)
    · obtain rfl := Option.some.inj hs
      exact h
  case first test f =>
    obtain rfl := Option.some.inj hs
    exact h.walk (by rw [hp]; cases test <;> rfl) (by rw [hp]; cases test <;> rfl) nofun nofun
  case second test f v =>
    cases test with
    | tryAcquire =>
      simp only at hs
      split_ifs at hs
      all_goals
        obtain rfl := Option.some.inj hs
        exact h.walk (by rw [hp]; rfl) (by rw [hp]; rfl) nofun nofun
    | release =>
      simp only at hs
      split_ifs at hs
      all_goals
        obtain rfl := Option.some.inj hs
        exact h.walk (by rw [hp]; rfl) (by rw [hp]; rfl) nofun nofun
  case reread =>
    obtain rfl := Option.some.inj hs
    refine h.read s.released (by rw [hp]; rfl) (by rw [hp]; rfl) nofun ?_
    rintro tk ⟨⟩
    exact ⟨h.serving, le_rfl⟩
  case cas tk =>
    split_ifs at hs with htk
    · obtain rfl := Option.some.inj hs
      have hfree : s.inside = [] := (h.cas (htk ▸ hp)).elim hround id
      exact h.barge (by rw [hp]; rfl) hfree htk
    · obtain rfl := Option.some.inj hs
      exact h.walk (by rw [hp]; rfl) (by rw [hp]; rfl) nofun nofun
  case bump =>
    obtain rfl := Option.some.inj hs
    exact h.bump hp

theorem inv_step (h : Inv s) (hcard : Fintype.card T < 2 ^ 64) {a : Action T}
    (hround : comesRound s a = true → s.inside = []) (hs : step s a = some s') : Inv s' := by
  cases a with
  | next t => exact inv_next h hcard hround hs
  | acquire t | tryAcquire t f | release t f =>
    simp only [step] at hs
    split_ifs at hs with hp
    obtain rfl := Option.some.inj hs
    exact h.walk (by rw [hp]; rfl) (by rw [hp]; rfl) nofun nofun

omit [DecidableEq T] [Fintype T] in
theorem inv_start : Inv (start : State T) where
  ticket := rfl
  serving := rfl
  length := rfl
  nodup := List.nodup_nil
  member _ := iff_of_false List.not_mem_nil Bool.false_ne_true
  turn _ _ _ hi := by cases hi
  first _ hu := by cases hu
  history := rfl
  alone := rfl
  late _ _ hu := by cases hu

omit [Fintype T] in
/-- Where `ticket` has gone round, a `tryAcquire` gets past whoever is inside. -/
theorem Inv.round_barges (h : Inv s) {a : Action T} (hround : comesRound s a = true)
    (hs : step s a = some s') (halone : s'.barged = false) : s.inside = [] := by
  cases a with
  | next t =>
    cases hp : s.pc t <;> simp only [comesRound, hp, Bool.false_eq_true, decide_eq_true_eq] at hround
    case cas tk =>
      obtain ⟨hlt, hdvd⟩ := hround
      have htk : s.ticket = tk := by
        rw [(h.late t tk hp).1, h.ticket, word, word]
        omega
      simp only [step, next, hp, if_pos htk, Option.some.injEq] at hs
      subst hs
      change (s.barged || !s.inside.isEmpty) = false at halone
      simpa [h.alone] using halone
  | _ => cases hround

theorem inv_run (hcard : Fintype.card T < 2 ^ 64) {as : List (Action T)}
    (hr : Run ticketLock (Avoids comesRound) as s) : Inv s := by
  refine hr.inv (I := Inv) (fun s h0 => ?_) fun s a s' h hok hs => inv_step h hcard (fun hround => ?_) hs
  · cases h0
    exact inv_start
  · rw [hok] at hround
    cases hround

/-- CORRECT: in the runs in which `ticket` does not go round in the middle of a `tryAcquire`, the lock is
    lawful in every state. The first time that it does, the lock stays lawful exactly if it is free. -/
theorem ticket_lock (hcard : Fintype.card T < 2 ^ 64) {as : List (Action T)}
    (hr : Run ticketLock (Avoids comesRound) as s) :
    Lawful s ∧ ∀ a s', comesRound s a = true → ticketLock.step s a = some s' →
      (Lawful s' ↔ s.released = s.drawn.length) := by
  have hinv := inv_run hcard hr
  have hlen := hinv.length
  have hfree : s.inside = [] ↔ s.released = s.drawn.length := by
    rw [← List.length_eq_zero_iff]
    omega
  refine ⟨hinv.lawful hcard, fun a s' hround hs => ?_⟩
  rw [← hfree]
  constructor
  · exact fun hlawful => hinv.round_barges hround hs hlawful.alone
  · exact fun hempty => (inv_step hinv hcard (fun _ => hempty) hs).lawful hcard

end Runs

/-- Party `t` is in the middle of a `tryAcquire` when `u` takes the lock and `v` a ticket; it fails. `u` and
    `v` hold the lock in turn, and the second `tryAcquire` succeeds. -/
def contended (t u v : T) : List (Action T) :=
  [.tryAcquire t true, .next t, .next t, .next t, .acquire u, .next u, .next u, .acquire v, .next v,
    .next v, .next t, .release u true, .next u, .next u, .next u, .next v, .release v false, .next v,
    .next v, .next v, .tryAcquire t false, .next t, .next t, .next t, .next t]

theorem ticket_lock_contended : ∃ s : State (Fin 3),
    Run ticketLock (Avoids comesRound) (contended 2 0 1) s ∧ s.pc 2 = .held ∧
      s.obtained = [0, 1, 2] ∧ Lawful s := by
  obtain ⟨s, hr, hp⟩ := run_of_execAvoiding ticketLock comesRound start
    (contended (2 : Fin 3) 0 1)
    (fun s => decide (s.pc 2 = .held ∧ s.obtained = [0, 1, 2])) rfl (by decide)
  obtain ⟨hheld, hobtained⟩ := of_decide_eq_true hp
  exact ⟨s, hr, hheld, hobtained, (ticket_lock (by decide) hr).1⟩

/-! ### Once round -/

/-- Party `false` is about to take the ticket 0, and the lock has been taken and released `n` times. -/
structure Between (s : State Bool) (n : ℕ) : Prop where
  late : s.pc false = .cas 0
  out : s.pc true = .out
  serving : s.serving = word n
  ticket : s.ticket = word n

theorem between_start : ∃ s, Reach ticketLock s ∧ Between s 0 := by
  have he : exec ticketLock (start : State Bool) [.tryAcquire false true, .next false, .next false,
    .next false] = some (start.goto false (.cas 0)) := by
    simp [ticketLock, step, next, start, State.goto]
  exact ⟨_, (Reach.start rfl).exec he, rfl, rfl, rfl, rfl⟩

/-- Party `true` goes through the lock once more. -/
theorem between_next {s : State Bool} {n : ℕ} (hr : Reach ticketLock s) (h : Between s n) :
    ∃ s', Reach ticketLock s' ∧ Between s' (n + 1) := by
  have hword := word_succ n
  have hone : positive (minus (word (n + 1)) (word n)) = true := by
    have hlt : n + 1 - n < 2 ^ 64 := by omega
    rw [minus_word (Nat.le_succ n) hlt, positive_iff]
    omega
  have he : exec ticketLock s [.acquire true, .next true, .next true, .release true true, .next true,
      .next true, .next true] = some { s with
        serving := word (n + 1)
        ticket := word (n + 1)
        pc := Function.update s.pc true .out
        drawn := s.drawn ++ [true]
        obtained := s.obtained ++ [true]
        inside := (s.inside ++ [true]).erase true
        released := s.released + 1 } := by
    simp [ticketLock, step, next, State.goto, State.draw, State.obtain, h.out, h.serving, h.ticket,
      hword, hone]
  refine ⟨_, hr.exec he, ?_, ?_, rfl, rfl⟩
  · exact (Function.update_of_ne Bool.false_ne_true Pc.out s.pc).trans h.late
  · exact Function.update_self true Pc.out s.pc

theorem between (n : ℕ) : ∃ s, Reach ticketLock s ∧ Between s n := by
  induction n with
  | zero => exact between_start
  | succ n ih =>
    obtain ⟨s, hr, h⟩ := ih
    exact between_next hr h

/-- After 2^64 - 1 rounds of one party in the middle of a `tryAcquire` of the other, both get the lock. -/
theorem ticket_comes_round : ¬ ∀ s : State Bool, Reach ticketLock s → Lawful s := by
  intro hall
  obtain ⟨s, hr, h⟩ := between (2 ^ 64 - 1)
  have hfull : word (2 ^ 64 - 1) = 2 ^ 64 - 1 := by decide
  have hticket := h.ticket
  have hserving := h.serving
  rw [hfull] at hticket hserving
  have he : exec ticketLock s [.acquire true, .next true, .next true, .next false] = some { s with
      ticket := 1
      pc := Function.update (Function.update s.pc true .held) false .held
      drawn := s.drawn ++ [true] ++ [false]
      obtained := s.obtained ++ [true] ++ [false]
      inside := s.inside ++ [true] ++ [false]
      barged := true } := by
    simp [ticketLock, step, next, State.goto, State.draw, State.obtain, h.out, h.late, hticket,
      hserving, word]
  have hlawful := hall _ (hr.exec he)
  have hboth := hlawful.exclusive true false rfl rfl
  cases hboth

end Libfibre.TicketLock
