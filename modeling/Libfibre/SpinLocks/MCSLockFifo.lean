import Libfibre.SpinLocks.MCSLock
import Libfibre.Schemes.Threads
import Mathlib.Tactic.Tauto

/-! `MCSLock` is a FIFO queue of parties. The first of the queue holds the lock, or has been woken and is
    about to see it; every other one is on its way to its spin loop or in it. Their nodes are a line
    that is linked up or owed:

        q:      t  ───────▶  u  ───────▶  v
              held         spin         arm t's successor, once it has linked itself, is u -/

namespace Libfibre.MCSLock
open Transition LinkedList Threads

variable {N T : Type}

/-- The predecessor that a party still has to link itself to. -/
def Pc.prev : Pc N → Option N
  | .arm prev | .link prev => some prev
  | _ => none

/-- It is in the queue. -/
def Pc.queued : Pc N → Bool
  | .out | .clear | .swing | .tryClear | .test | .cas => false
  | _ => true

/-- Where a party stands in the queue, and what it has made sure of. -/
def Fits (next : N → Option N) (wait : N → Bool) (q : List T) (t : T) (n : N) : Pc N → Prop
  | .out | .clear | .tryClear => t ∉ q
  | .swing | .test | .cas => t ∉ q ∧ next n = none
  | .arm _ => t ∈ q.tail
  | .link _ => t ∈ q.tail ∧ wait n = true
  | .spin => q.head? = some t ∧ wait n = false ∨ t ∈ q.tail ∧ wait n = true
  | .held | .assert | .casNull => q.head? = some t
  | .await => q.head? = some t ∧ q.tail ≠ []
  | .readNext => q.head? = some t ∧ ∃ m, next n = some m
  | .wake succ => q.head? = some t ∧ next n = some succ

/-- INVARIANT: the queue is `q`. -/
structure Inv (s : State N T) (q : List T) : Prop where
  users : ∀ n t, s.user n = some t ↔ s.pc t ≠ .out ∧ s.node t = n
  fits : ∀ t, Fits s.next s.wait q t (s.node t) (s.pc t)
  line : Line s.next s.tail (fun t => (s.pc t).prev.map (·, s.node t)) (q.map s.node)
  history : s.swung = s.obtained ++ q.filter fun t => !(s.pc t).holds
  last : ∀ t, (s.pc t).holds = true → s.obtained.getLast? = some t

section Facts
variable {s : State N T} {q : List T} {t u : T}

theorem Inv.nodup (h : Inv s q) : q.Nodup := h.line.nodup.of_map s.node

theorem Fits.mem_iff {next : N → Option N} {wait : N → Bool} {n : N} {p : Pc N}
    (h : Fits next wait q t n p) : t ∈ q ↔ p.queued = true := by
  have hfirst : q.head? = some t → t ∈ q := List.mem_of_head?
  have hlater : t ∈ q.tail → t ∈ q := List.mem_of_mem_tail
  cases p <;> simp only [Fits] at h <;> simp only [Pc.queued, iff_true, iff_false,
    Bool.false_eq_true] <;> tauto

theorem Fits.first {next : N → Option N} {wait : N → Bool} {n : N} :
    ∀ {p : Pc N}, Fits next wait q t n p → p.holds = true → q.head? = some t
  | .held, h, _ | .assert, h, _ | .casNull, h, _ => h
  | .await, h, _ | .readNext, h, _ | .wake _, h, _ => h.1

theorem Inv.holder (h : Inv s q) (ht : (s.pc t).holds = true) : ∃ rest, q = t :: rest := by
  have hhead := (h.fits t).first ht
  cases q with
  | nil => cases hhead
  | cons u rest => exact ⟨rest, by rw [Option.some.inj hhead]⟩

/-- SAFETY: one party at most holds the lock. -/
theorem Inv.exclusive (h : Inv s q) (ht : (s.pc t).holds = true) (hu : (s.pc u).holds = true) :
    t = u :=
  Option.some.inj (((h.fits t).first ht).symm.trans ((h.fits u).first hu))

theorem Inv.other_waits {rest : List T} (h : Inv s (t :: rest)) (hu : u ≠ t) :
    (s.pc u).holds = false := by
  by_contra hholds
  have hhead := (h.fits u).first (by simpa using hholds)
  exact hu (Option.some.inj hhead).symm

theorem Inv.filter_rest {rest : List T} (h : Inv s (t :: rest)) :
    rest.filter (fun u => !(s.pc u).holds) = rest := by
  refine List.filter_eq_self.mpr fun u hu => ?_
  have hut : u ≠ t := by
    rintro rfl
    exact (List.nodup_cons.mp h.nodup).1 hu
  rw [h.other_waits hut]
  rfl

/-- While `t` holds the lock, those behind it are the ones that have swung the tail since. -/
theorem Inv.held_history {rest : List T} (h : Inv s (t :: rest)) (ht : (s.pc t).holds = true) :
    s.swung = s.obtained ++ rest := by
  rw [h.history, List.filter_cons_of_neg (by simp [ht]), h.filter_rest]

/-- Nobody holds the lock, and the first is about to. -/
theorem Inv.free_history {rest : List T} (h : Inv s (t :: rest)) (ht : (s.pc t).holds = false) :
    s.swung = s.obtained ++ t :: rest := by
  rw [h.history, List.filter_cons_of_pos (by simp [ht]), h.filter_rest]

/-- The place in the queue of a party whose place is not touched. -/
theorem Fits.congr {next next' : N → Option N} {wait wait' : N → Bool} {q' : List T} {n : N} {p : Pc N}
    (h : Fits next wait q t n p) (hnext : next' n = next n) (hwait : wait' n = wait n)
    (hmem : t ∈ q' ↔ t ∈ q) (hhead : q'.head? = some t ↔ q.head? = some t)
    (htail : t ∈ q'.tail ↔ t ∈ q.tail) (hmore : q.head? = some t → q.tail ≠ [] → q'.tail ≠ []) :
    Fits next' wait' q' t n p := by
  cases p <;> simp only [Fits, hnext, hwait, hmem, hhead, htail] at h ⊢ <;> try exact h
  case await => exact ⟨h.1, hmore h.1 h.2⟩

/-- Two calls have two nodes. -/
theorem Inv.node_ne (h : Inv s q) (ht : s.pc t ≠ .out) (hu : s.pc u ≠ .out) (hne : u ≠ t) :
    s.node u ≠ s.node t := by
  intro heq
  have h1 := (h.users _ u).mpr ⟨hu, rfl⟩
  have h2 := (h.users _ t).mpr ⟨ht, rfl⟩
  rw [heq, h2] at h1
  exact hne (Option.some.inj h1).symm

theorem Inv.not_out (h : Inv s q) (hu : u ∈ q) : s.pc u ≠ .out := by
  intro hout
  have hqueued := (h.fits u).mem_iff.mp hu
  rw [hout] at hqueued
  cases hqueued

end Facts

/-! ### One party moves -/

section Steps
variable [DecidableEq T] {s s' : State N T} {q q' : List T} {t : T} {p : Pc N}

theorem owes_move {node : T → N} {pc : T → Pc N} :
    (fun u => (Function.update pc t p u).prev.map (·, node u)) =
      Function.update (fun u => (pc u).prev.map (·, node u)) t (p.prev.map (·, node t)) := by
  funext u
  rcases eq_or_ne u t with rfl | hu
  · rw [Function.update_self, Function.update_self]
  · rw [Function.update_of_ne hu, Function.update_of_ne hu]

/-- Party `t` moves to `p`; the others fit in as before. -/
theorem inv_move (hpc : s'.pc = Function.update s.pc t p) (hnode : s'.node = s.node)
    (huser : ∀ n u, s'.user n = some u ↔ s'.pc u ≠ .out ∧ s'.node u = n)
    (ht : Fits s'.next s'.wait q' t (s.node t) p)
    (hothers : ∀ u, u ≠ t → Fits s'.next s'.wait q' u (s.node u) (s.pc u))
    (hline : Line s'.next s'.tail
      (Function.update (fun u => (s.pc u).prev.map (·, s.node u)) t (p.prev.map (·, s.node t)))
      (q'.map s.node))
    (hhistory : s'.swung = s'.obtained ++ q'.filter fun u => !(s'.pc u).holds)
    (hlast : ∀ u, (s'.pc u).holds = true → s'.obtained.getLast? = some u) : Inv s' q' := by
  refine ⟨huser, fun u => ?_, ?_, hhistory, hlast⟩
  · rw [hpc, hnode]
    rcases eq_or_ne u t with rfl | hu
    · rwa [Function.update_self]
    · rw [Function.update_of_ne hu]
      exact hothers u hu
  · rw [hpc, hnode, owes_move]
    exact hline

/-- The call goes on. -/
theorem Inv.users_on (h : Inv s q) (hpc : s'.pc = Function.update s.pc t p) (hnode : s'.node = s.node)
    (huser : s'.user = s.user) (ht : s.pc t ≠ .out) (hp : p ≠ .out) (n : N) (u : T) :
    s'.user n = some u ↔ s'.pc u ≠ .out ∧ s'.node u = n := by
  rw [huser, hpc, hnode, h.users]
  refine and_congr_left' (not_congr ?_)
  exact (at_iff (iff_of_false hp ht) u).symm

/-- The call returns. -/
theorem Inv.users_leave [DecidableEq N] (h : Inv s q) (hpc : s'.pc = Function.update s.pc t .out)
    (ht : s.pc t ≠ .out) (hnode : s'.node = s.node)
    (huser : s'.user = Function.update s.user (s.node t) none) (n : N) (u : T) :
    s'.user n = some u ↔ s'.pc u ≠ .out ∧ s'.node u = n := by
  rw [huser, hpc, hnode]
  rcases eq_or_ne u t with rfl | hu
  · rw [Function.update_self]
    refine iff_of_false (fun hn => ?_) fun hn => hn.1 rfl
    rcases eq_or_ne n (s.node u) with rfl | hne
    · rw [Function.update_self] at hn
      cases hn
    · rw [Function.update_of_ne hne] at hn
      exact hne ((h.users n u).mp hn).2.symm
  · rw [Function.update_of_ne hu, ← h.users]
    rcases eq_or_ne n (s.node t) with rfl | hne
    · rw [Function.update_self]
      refine iff_of_false nofun fun hn => hu ?_
      exact Option.some.inj (hn.symm.trans ((h.users _ t).mpr ⟨ht, rfl⟩))
    · rw [Function.update_of_ne hne]

omit [DecidableEq T] in
/-- The party at its own node: the others do not see it. -/
theorem Inv.others (h : Inv s q) (ht : s.pc t ≠ .out)
    (hmem : ∀ n, n ≠ s.node t → s'.next n = s.next n ∧ s'.wait n = s.wait n)
    (hq : ∀ u, u ≠ t → (u ∈ q' ↔ u ∈ q) ∧ (q'.head? = some u ↔ q.head? = some u) ∧
      (u ∈ q'.tail ↔ u ∈ q.tail) ∧ (q.head? = some u → q.tail ≠ [] → q'.tail ≠ [])) (u : T)
    (hu : u ≠ t) : Fits s'.next s'.wait q' u (s.node u) (s.pc u) := by
  obtain ⟨h1, h2, h3, h4⟩ := hq u hu
  by_cases hout : s.pc u = .out
  · have hfits := h.fits u
    rw [hout] at hfits ⊢
    exact fun hmem' => hfits (h1.mp hmem')
  · obtain ⟨hnext, hwait⟩ := hmem _ (h.node_ne ht hout hu)
    exact (h.fits u).congr hnext hwait h1 h2 h3 h4

omit [DecidableEq T] in
/-- The queue stays. -/
theorem same_queue (u : T) (_ : u ≠ t) : (u ∈ q ↔ u ∈ q) ∧ (q.head? = some u ↔ q.head? = some u) ∧
    (u ∈ q.tail ↔ u ∈ q.tail) ∧ (q.head? = some u → q.tail ≠ [] → q.tail ≠ []) :=
  ⟨.rfl, .rfl, .rfl, fun _ => id⟩

/-- A step that leaves the queue and the order as they are. -/
theorem Inv.quiet (h : Inv s q) (hpc : s'.pc = Function.update s.pc t p) (hnode : s'.node = s.node)
    (ht : s.pc t ≠ .out) (huser : ∀ n u, s'.user n = some u ↔ s'.pc u ≠ .out ∧ s'.node u = n)
    (hsame : s'.tail = s.tail ∧ s'.swung = s.swung ∧ s'.obtained = s.obtained)
    (hmem : ∀ n, n ≠ s.node t → s'.next n = s.next n ∧ s'.wait n = s.wait n)
    (hown : t ∈ q → s'.next (s.node t) = s.next (s.node t))
    (hfits : Fits s'.next s'.wait q t (s.node t) p) (hprev : p.prev = (s.pc t).prev)
    (hholds : p.holds = (s.pc t).holds) : Inv s' q := by
  obtain ⟨htail, hswung, hobtained⟩ := hsame
  have hholds' : ∀ u, (s'.pc u).holds = (s.pc u).holds := fun u => by rw [hpc]; exact same_at hholds u
  refine inv_move hpc hnode huser hfits (h.others ht hmem same_queue) ?_ ?_ fun u hu => ?_
  · rw [htail, hprev, Function.update_eq_self t fun u => (s.pc u).prev.map (·, s.node u)]
    refine h.line.congr fun a ha => ?_
    obtain ⟨u, hu, rfl⟩ := List.mem_map.mp ha
    rcases eq_or_ne u t with rfl | hut
    · exact hown hu
    · exact (hmem _ (h.node_ne ht (h.not_out hu) hut)).1
  · simp only [hswung, hobtained, hholds']
    exact h.history
  · rw [hobtained]
    exact h.last u (hholds' u ▸ hu)

/-- A call takes a node. -/
theorem Inv.call [DecidableEq N] {n : N} (h : Inv s q) (ht : s.pc t = .out) (hn : s.user n = none)
    (hp : p = .clear ∨ p = .tryClear) : Inv (s.call t n p) q := by
  have htq : t ∉ q := by
    have hfits := h.fits t
    rwa [ht] at hfits
  have hnodes : q.map (Function.update s.node t n) = q.map s.node :=
    List.map_congr_left fun u hu => Function.update_of_ne (ne_of_mem_of_not_mem hu htq) _ _
  have howes : (fun u => (Function.update s.pc t p u).prev.map (·, Function.update s.node t n u)) =
      fun u => (s.pc u).prev.map (·, s.node u) := by
    funext u
    rcases eq_or_ne u t with rfl | hu
    · rw [Function.update_self, Function.update_self, ht]
      rcases hp with rfl | rfl <;> rfl
    · rw [Function.update_of_ne hu, Function.update_of_ne hu]
  have hholds : ∀ u, (Function.update s.pc t p u).holds = (s.pc u).holds :=
    same_at (f := Pc.holds) (by rw [ht]; rcases hp with rfl | rfl <;> rfl)
  refine ⟨fun m u => ?_, fun u => ?_, ?_, ?_, fun u hu => h.last u ?_⟩
  · change Function.update s.user n (some t) m = some u ↔
      Function.update s.pc t p u ≠ .out ∧ Function.update s.node t n u = m
    rcases eq_or_ne m n with rfl | hm
    · rw [Function.update_self]
      rcases eq_or_ne u t with rfl | hu
      · rw [Function.update_self, Function.update_self]
        refine iff_of_true rfl ⟨?_, rfl⟩
        rcases hp with rfl | rfl <;> nofun
      · rw [Function.update_of_ne hu, Function.update_of_ne hu, ← h.users, hn]
        exact iff_of_false (fun heq => hu (Option.some.inj heq).symm) nofun
    · rw [Function.update_of_ne hm]
      rcases eq_or_ne u t with rfl | hu
      · rw [Function.update_self, Function.update_self, h.users, ht]
        exact iff_of_false (fun hfalse => hfalse.1 rfl) fun hfalse => hm hfalse.2.symm
      · rw [Function.update_of_ne hu, Function.update_of_ne hu]
        exact h.users m u
  · change Fits s.next s.wait q u (Function.update s.node t n u) (Function.update s.pc t p u)
    rcases eq_or_ne u t with rfl | hu
    · rw [Function.update_self, Function.update_self]
      rcases hp with rfl | rfl <;> exact htq
    · rw [Function.update_of_ne hu, Function.update_of_ne hu]
      exact h.fits u
  · change Line s.next s.tail
      (fun u => (Function.update s.pc t p u).prev.map (·, Function.update s.node t n u))
      (q.map (Function.update s.node t n))
    rw [howes, hnodes]
    exact h.line
  · change s.swung = s.obtained ++ q.filter fun u => !(Function.update s.pc t p u).holds
    simp only [hholds]
    exact h.history
  · rw [← hholds]
    exact hu

omit [DecidableEq T] in
theorem Inv.empty (h : Inv s q) (htail : s.tail = none) : q = [] := by
  have hline := h.line
  rw [htail] at hline
  exact List.map_eq_nil_iff.mp hline.eq_nil

theorem Inv.filter_moved {rest : List T} (h : Inv s (t :: rest)) :
    rest.filter (fun u => !(Function.update s.pc t p u).holds) = rest := by
  refine List.filter_eq_self.mpr fun u hu => ?_
  have hut : u ≠ t := by
    rintro rfl
    exact (List.nodup_cons.mp h.nodup).1 hu
  rw [Function.update_of_ne hut, h.other_waits hut]
  rfl

/-- STEP: the tail is swung from null. -/
theorem Inv.take (h : Inv s q) (htail : s.tail = none) (ht : s.pc t = .swing ∨ s.pc t = .cas) :
    Inv (State.obtain { s with tail := some (s.node t), swung := s.swung ++ [t] } t) [t] := by
  obtain rfl := h.empty htail
  have hpc : s.pc t ≠ .out ∧ (s.pc t).prev = none ∧ s.next (s.node t) = none := by
    have hfits := h.fits t
    rcases ht with ht | ht <;> rw [ht] at hfits ⊢ <;> exact ⟨nofun, rfl, hfits.2⟩
  have hline := h.line
  rw [htail] at hline
  have hother : ∀ u, u ≠ t → (Function.update s.pc t .held u).holds = false := by
    intro u hu
    rw [Function.update_of_ne hu]
    by_contra hholds
    obtain ⟨rest, hq⟩ := h.holder (t := u) (by simpa using hholds)
    cases hq
  refine inv_move rfl rfl (h.users_on rfl rfl rfl hpc.1 nofun) rfl
    (h.others hpc.1 (fun n _ => ⟨rfl, rfl⟩) fun u hu => ?_) ?_ ?_ fun u hu => ?_
  · have hne : t ≠ u := Ne.symm hu
    simp [hu, hne]
  · rw [show Pc.held.prev = (s.pc t).prev from hpc.2.1.symm,
      Function.update_eq_self t fun u => (s.pc u).prev.map (·, s.node u)]
    exact hline.start (List.nodup_singleton _)
      (fun x y hxy => absurd hxy (by simp [adj_cons, adj_nil])) fun z hz => by
        obtain rfl := Option.some.inj hz
        exact hpc.2.2
  · have hhistory : s.swung = s.obtained := by simpa using h.history
    change s.swung ++ [t] =
      s.obtained ++ [t] ++ [t].filter fun u => !(Function.update s.pc t Pc.held u).holds
    rw [List.filter_cons_of_neg (by simp [Pc.holds]), List.filter_nil, List.append_nil, hhistory]
  · have hut : u = t := by
      by_contra hne
      have hfalse := hother u hne
      rw [show (Function.update s.pc t .held u).holds = true from hu] at hfalse
      cases hfalse
    rw [hut]
    exact List.getLast?_concat

/-- STEP: the tail is swung from the node of another party. -/
theorem Inv.swing {a : N} (h : Inv s q) (htail : s.tail = some a) (ht : s.pc t = .swing) :
    Inv (State.goto { s with tail := some (s.node t), swung := s.swung ++ [t] } t (.arm a))
      (q ++ [t]) := by
  have hfits := h.fits t
  rw [ht] at hfits
  have hout : s.pc t ≠ .out := by rw [ht]; nofun
  have hline := h.line
  rw [htail] at hline
  obtain ⟨x, rest, rfl⟩ : ∃ x rest, q = x :: rest := by
    cases q with
    | nil => exact absurd hline.last nofun
    | cons x rest => exact ⟨x, rest, rfl⟩
  have hholds : ∀ u, (Function.update s.pc t (.arm a) u).holds = (s.pc u).holds :=
    same_at (f := Pc.holds) (by rw [ht]; rfl)
  refine inv_move rfl rfl (h.users_on rfl rfl rfl hout nofun) ?_
    (h.others hout (fun n _ => ⟨rfl, rfl⟩) fun u hu => ?_) ?_ ?_ fun u hu => h.last u ?_
  · exact List.mem_append_right rest List.mem_cons_self
  · simp [hu]
  · rw [List.map_append]
    refine hline.append (k := [s.node t]) (by rw [ht]; rfl) rfl (List.nodup_singleton _)
      (fun y hy hmem => ?_) (fun y z hyz => absurd hyz (by simp [adj_cons, adj_nil])) fun z hz => ?_
    · obtain rfl := List.mem_singleton.mp hy
      obtain ⟨u, hu, heq⟩ := List.mem_map.mp hmem
      have hut : u ≠ t := ne_of_mem_of_not_mem hu hfits.1
      exact h.node_ne hout (h.not_out hu) hut heq
    · obtain rfl := Option.some.inj hz
      exact hfits.2
  · change s.swung ++ [t] = s.obtained ++
      (x :: rest ++ [t]).filter fun u => !(Function.update s.pc t (.arm a) u).holds
    have hnot : (s.pc t).holds = false := by rw [ht]; rfl
    simp only [hholds]
    rw [List.filter_append, ← List.append_assoc, ← h.history,
      List.filter_cons_of_pos (by simp [hnot]), List.filter_nil]
  · rw [← hholds]
    exact hu

/-- STEP: a party links itself to its predecessor. -/
theorem Inv.link [DecidableEq N] {a : N} (h : Inv s q) (ht : s.pc t = .link a) :
    Inv (State.goto { s with next := Function.update s.next a (some (s.node t)) } t .spin) q := by
  have hfits := h.fits t
  rw [ht] at hfits
  have hout : s.pc t ≠ .out := by rw [ht]; nofun
  have howes : (s.pc t).prev.map (·, s.node t) = some (a, s.node t) := by rw [ht]; rfl
  obtain ⟨hadj, hnull⟩ := h.line.owed t _ _ howes
  have hholds : ∀ u, (Function.update s.pc t .spin u).holds = (s.pc u).holds :=
    same_at (f := Pc.holds) (by rw [ht]; rfl)
  refine inv_move rfl rfl (h.users_on rfl rfl rfl hout nofun) (.inr hfits) (fun u hu => ?_)
    (h.line.link howes) ?_ fun u hu => h.last u ?_
  · rcases eq_or_ne (s.node u) a with hua | hua
    · -- the predecessor has not seen a link yet
      have hfits' := h.fits u
      by_cases hqu : u ∈ q
      · cases hp : s.pc u <;> rw [hp] at hfits' <;> simp only [Fits] at hfits' ⊢ <;>
          try exact hfits'
        case swing | test | cas => exact absurd hqu hfits'.1
        case readNext =>
          obtain ⟨-, m, hm⟩ := hfits'
          rw [hua, hnull] at hm
          cases hm
        case wake m =>
          rw [hua, hnull] at hfits'
          cases hfits'.2
      · obtain ⟨v, hv, rfl⟩ := List.mem_map.mp hadj.left_mem
        by_cases hout' : s.pc u = .out
        · rw [hout']
          exact hqu
        · have huv : u ≠ v := fun heq => hqu (heq ▸ hv)
          exact absurd hua (h.node_ne (h.not_out hv) hout' huv)
    · exact (h.fits u).congr (Function.update_of_ne hua _ _) rfl .rfl .rfl .rfl fun _ => id
  · change s.swung = s.obtained ++ q.filter fun u => !(Function.update s.pc t .spin u).holds
    simp only [hholds]
    exact h.history
  · rw [← hholds]
    exact hu

/-- STEP: a party sees that it has been woken. -/
theorem Inv.see (h : Inv s q) (ht : s.pc t = .spin) (hwait : s.wait (s.node t) = false) :
    Inv (s.obtain t) q := by
  have hfits := h.fits t
  rw [ht] at hfits
  have hhead : q.head? = some t := by
    rcases hfits with ⟨hhead, -⟩ | ⟨-, htrue⟩
    · exact hhead
    · rw [hwait] at htrue
      cases htrue
  have hout : s.pc t ≠ .out := by rw [ht]; nofun
  obtain ⟨rest, rfl⟩ : ∃ rest, q = t :: rest := List.head?_eq_some_iff.mp hhead
  have hfree := h.free_history (by rw [ht]; rfl)
  refine inv_move rfl rfl (h.users_on rfl rfl rfl hout nofun) rfl
    (h.others hout (fun n _ => ⟨rfl, rfl⟩) same_queue) ?_ ?_ fun u hu => ?_
  · rw [show Pc.held.prev = (s.pc t).prev by rw [ht]; rfl,
      Function.update_eq_self t fun u => (s.pc u).prev.map (·, s.node u)]
    exact h.line
  · change s.swung =
      s.obtained ++ [t] ++ (t :: rest).filter fun u => !(Function.update s.pc t Pc.held u).holds
    rw [List.filter_cons_of_neg (by simp [Pc.holds]), h.filter_moved, hfree, List.append_assoc,
      List.singleton_append]
  · have hut : u = t := by
      by_contra hne
      have hfalse := h.other_waits hne
      rw [← Function.update_of_ne hne Pc.held s.pc] at hfalse
      rw [show (Function.update s.pc t Pc.held u).holds = true from hu] at hfalse
      cases hfalse
    rw [hut]
    exact List.getLast?_concat

/-- STEP: the last of the queue releases the lock. -/
theorem Inv.give_up [DecidableEq N] (h : Inv s q) (ht : s.pc t = .casNull)
    (htail : s.tail = some (s.node t)) : Inv (State.leave { s with tail := none } t) [] := by
  have hfits := h.fits t
  rw [ht] at hfits
  have hout : s.pc t ≠ .out := by rw [ht]; nofun
  have hholds : (s.pc t).holds = true := by rw [ht]; rfl
  obtain ⟨rest, rfl⟩ := h.holder hholds
  have hline := h.line
  rw [htail, List.map_cons] at hline
  obtain rfl : rest = [] := List.map_eq_nil_iff.mp hline.sole
  refine inv_move rfl rfl (h.users_leave rfl hout rfl rfl) nofun
    (h.others hout (fun n _ => ⟨rfl, rfl⟩) fun u hu => ?_) ?_ ?_ fun u hu => ?_
  · have hne : t ≠ u := Ne.symm hu
    simp [hu, hne]
  · rw [show Pc.out.prev = (s.pc t).prev by rw [ht]; rfl,
      Function.update_eq_self t fun u => (s.pc u).prev.map (·, s.node u)]
    exact hline.clear
  · have hhistory := h.held_history hholds
    rw [List.append_nil] at hhistory
    change s.swung = s.obtained ++ []
    rw [List.append_nil, hhistory]
  · have hu' : (Function.update s.pc t Pc.out u).holds = true := hu
    rcases eq_or_ne u t with rfl | hut
    · rw [Function.update_self] at hu'
      cases hu'
    · rw [Function.update_of_ne hut, h.other_waits hut] at hu'
      cases hu'

omit [DecidableEq T] in
/-- The successor that the releasing party has read is the second of the queue, and it spins. -/
theorem Inv.successor {m : N} (h : Inv s q) (ht : s.pc t = .wake m) :
    ∃ u rest, q = t :: u :: rest ∧ s.node u = m ∧ s.pc u = .spin ∧ s.wait m = true := by
  have hfits := h.fits t
  rw [ht] at hfits
  obtain ⟨rest, rfl⟩ := h.holder (t := t) (by rw [ht]; rfl)
  have hline := h.line
  rw [List.map_cons] at hline
  have hhead := hline.head?_eq hfits.2
  cases rest with
  | nil => cases hhead
  | cons u rest =>
    obtain rfl : s.node u = m := Option.some.inj hhead
    have hut : u ≠ t := by
      rintro rfl
      exact (List.nodup_cons.mp h.nodup).1 List.mem_cons_self
    have hpc := h.fits u
    have hwaits := h.other_waits hut
    have hu : u ∈ t :: u :: rest := by simp
    have hhead' : (t :: u :: rest).head? ≠ some u := fun heq => hut (Option.some.inj heq).symm
    -- it has linked itself: it owes nothing
    have howes : ∀ a, (s.pc u).prev ≠ some a := by
      intro a ha
      have howed := h.line.owed u a (s.node u) (by rw [ha]; rfl)
      have hadj : Adj ((t :: u :: rest).map s.node) (s.node t) (s.node u) :=
        adj_cons.mpr (.inl ⟨rfl, rfl⟩)
      rw [howed.1.left_unique h.line.nodup hadj, hfits.2] at howed
      cases howed.2
    have hqueued := hpc.mem_iff.mp hu
    refine ⟨u, rest, rfl, rfl, ?_⟩
    cases hp : s.pc u <;> rw [hp] at hpc hwaits howes hqueued <;>
      simp only [Pc.holds, Pc.queued, Bool.true_eq_false, Bool.false_eq_true] at hwaits hqueued
    case spin => exact ⟨rfl, (hpc.resolve_left fun hfirst => hhead' hfirst.1).2⟩
    all_goals exact absurd rfl (howes _)

/-- STEP: the lock is handed over. -/
theorem Inv.hand [DecidableEq N] {m : N} (h : Inv s q) (ht : s.pc t = .wake m) :
    ∃ q', Inv (State.leave { s with wait := Function.update s.wait m false } t) q' := by
  obtain ⟨u, rest, rfl, rfl, hspin, hwait⟩ := h.successor ht
  have hfits := h.fits t
  rw [ht] at hfits
  have hout : s.pc t ≠ .out := by rw [ht]; nofun
  have hholds : (s.pc t).holds = true := by rw [ht]; rfl
  obtain ⟨htq, huq⟩ := List.nodup_cons.mp h.nodup
  have hut : u ≠ t := by
    rintro rfl
    exact htq List.mem_cons_self
  have hline := h.line
  rw [List.map_cons] at hline
  refine ⟨u :: rest, inv_move rfl rfl (h.users_leave rfl hout rfl rfl) htq (fun v hv => ?_) ?_ ?_
    fun v hv => ?_⟩
  · rcases eq_or_ne v u with rfl | hvu
    · rw [hspin]
      exact .inl ⟨rfl, Function.update_self ..⟩
    · by_cases hout' : s.pc v = .out
      · have hfits' := h.fits v
        rw [hout'] at hfits' ⊢
        exact fun hmem => hfits' (List.mem_cons_of_mem t hmem)
      · have hnode : s.node v ≠ s.node u := h.node_ne (by rw [hspin]; nofun) hout' hvu
        refine (h.fits v).congr rfl (Function.update_of_ne hnode _ _) ?_ ?_ ?_ fun hhead => ?_
        · simp [hv]
        · simp [Ne.symm hvu, Ne.symm hv]
        · simp [hvu]
        · exact absurd (Option.some.inj hhead).symm hv
  · rw [show Pc.out.prev = (s.pc t).prev by rw [ht]; rfl,
      Function.update_eq_self t fun u => (s.pc u).prev.map (·, s.node u)]
    exact hline.pop hfits.2
  · change s.swung = s.obtained ++ (u :: rest).filter fun v => !(Function.update s.pc t Pc.out v).holds
    rw [h.filter_moved]
    exact h.held_history hholds
  · have hv' : (Function.update s.pc t Pc.out v).holds = true := hv
    rcases eq_or_ne v t with rfl | hvt
    · rw [Function.update_self] at hv'
      cases hv'
    · rw [Function.update_of_ne hvt, h.other_waits hvt] at hv'
      cases hv'

omit [DecidableEq T] in
/-- Somebody is behind the first whose node is not the tail. -/
theorem Inv.more {rest : List T} (h : Inv s (t :: rest)) : s.tail = some (s.node t) ↔ rest = [] := by
  have hline := h.line
  rw [List.map_cons] at hline
  constructor
  · intro htail
    rw [htail] at hline
    exact List.map_eq_nil_iff.mp hline.sole
  · rintro rfl
    exact hline.last

variable [DecidableEq N]

theorem inv_next (h : Inv s q) (hs : next s t = some s') : ∃ q', Inv s' q' := by
  have hfits := h.fits t
  have hout : s.pc t ≠ .out := by
    intro hout
    rw [next, hout] at hs
    cases hs
  have hmem : t ∈ q ↔ _ := hfits.mem_iff
  cases hp : s.pc t <;> rw [hp] at hfits hmem <;> simp only [next, hp] at hs
  case out | held => cases hs
  case clear | tryClear =>
    obtain rfl := Option.some.inj hs
    refine ⟨q, h.quiet rfl rfl hout (h.users_on rfl rfl rfl hout nofun) ⟨rfl, rfl, rfl⟩
      (fun n hn => ⟨Function.update_of_ne hn _ _, rfl⟩) (fun htq => absurd htq hfits)
      ⟨hfits, Function.update_self ..⟩ (by rw [hp]; rfl) (by rw [hp]; rfl)⟩
  case swing =>
    cases htail : s.tail with
    | none =>
      rw [htail] at hs
      obtain rfl := Option.some.inj hs
      exact ⟨_, h.take htail (.inl hp)⟩
    | some a =>
      rw [htail] at hs
      obtain rfl := Option.some.inj hs
      exact ⟨_, h.swing htail hp⟩
  case arm a =>
    obtain rfl := Option.some.inj hs
    exact ⟨q, h.quiet rfl rfl hout (h.users_on rfl rfl rfl hout nofun) ⟨rfl, rfl, rfl⟩
      (fun n hn => ⟨rfl, Function.update_of_ne hn _ _⟩) (fun _ => rfl)
      ⟨hfits, Function.update_self ..⟩ (by rw [hp]; rfl) (by rw [hp]; rfl)⟩
  case link a =>
    obtain rfl := Option.some.inj hs
    exact ⟨q, h.link hp⟩
  case spin =>
    split_ifs at hs with hwait
    · obtain rfl := Option.some.inj hs
      exact ⟨q, h⟩
    · obtain rfl := Option.some.inj hs
      exact ⟨q, h.see hp (by simpa using hwait)⟩
  case test =>
    split_ifs at hs with htail
    · obtain rfl := Option.some.inj hs
      exact ⟨q, h.quiet rfl rfl hout (h.users_on rfl rfl rfl hout nofun) ⟨rfl, rfl, rfl⟩
        (fun _ _ => ⟨rfl, rfl⟩) (fun _ => rfl) hfits (by rw [hp]; rfl) (by rw [hp]; rfl)⟩
    · obtain rfl := Option.some.inj hs
      exact ⟨q, h.quiet rfl rfl hout (h.users_leave rfl hout rfl rfl) ⟨rfl, rfl, rfl⟩
        (fun _ _ => ⟨rfl, rfl⟩) (fun _ => rfl) hfits.1 (by rw [hp]; rfl) (by rw [hp]; rfl)⟩
  case cas =>
    split_ifs at hs with htail
    · obtain rfl := Option.some.inj hs
      exact ⟨_, h.take htail (.inr hp)⟩
    · obtain rfl := Option.some.inj hs
      exact ⟨q, h.quiet rfl rfl hout (h.users_leave rfl hout rfl rfl) ⟨rfl, rfl, rfl⟩
        (fun _ _ => ⟨rfl, rfl⟩) (fun _ => rfl) hfits.1 (by rw [hp]; rfl) (by rw [hp]; rfl)⟩
  case assert =>
    split_ifs at hs with htail
    obtain rfl := Option.some.inj hs
    exact ⟨q, h.quiet rfl rfl hout (h.users_on rfl rfl rfl hout nofun) ⟨rfl, rfl, rfl⟩
      (fun _ _ => ⟨rfl, rfl⟩) (fun _ => rfl) hfits (by rw [hp]; rfl) (by rw [hp]; rfl)⟩
  case casNull =>
    split_ifs at hs with htail
    · obtain rfl := Option.some.inj hs
      exact ⟨_, h.give_up hp htail⟩
    · obtain rfl := Option.some.inj hs
      obtain ⟨rest, rfl⟩ := h.holder (t := t) (by rw [hp]; rfl)
      exact ⟨_, h.quiet rfl rfl hout (h.users_on rfl rfl rfl hout nofun) ⟨rfl, rfl, rfl⟩
        (fun _ _ => ⟨rfl, rfl⟩) (fun _ => rfl) ⟨rfl, fun hrest => htail (h.more.mpr hrest)⟩
        (by rw [hp]; rfl) (by rw [hp]; rfl)⟩
  case await =>
    split_ifs at hs with hnext
    · obtain rfl := Option.some.inj hs
      exact ⟨q, h⟩
    · obtain rfl := Option.some.inj hs
      exact ⟨q, h.quiet rfl rfl hout (h.users_on rfl rfl rfl hout nofun) ⟨rfl, rfl, rfl⟩
        (fun _ _ => ⟨rfl, rfl⟩) (fun _ => rfl) ⟨hfits.1, Option.ne_none_iff_exists'.mp hnext⟩
        (by rw [hp]; rfl) (by rw [hp]; rfl)⟩
  case readNext =>
    obtain ⟨m, hm, rfl⟩ := Option.map_eq_some_iff.mp hs
    exact ⟨q, h.quiet rfl rfl hout (h.users_on rfl rfl rfl hout nofun) ⟨rfl, rfl, rfl⟩
      (fun _ _ => ⟨rfl, rfl⟩) (fun _ => rfl) ⟨hfits.1, hm⟩ (by rw [hp]; rfl) (by rw [hp]; rfl)⟩
  case wake m =>
    obtain rfl := Option.some.inj hs
    exact h.hand hp

theorem inv_step {a : Action N T} (h : Inv s q) (hs : step s a = some s') : ∃ q', Inv s' q' := by
  cases a with
  | acquire t n =>
    simp only [step] at hs
    split_ifs at hs with hcall
    obtain rfl := Option.some.inj hs
    exact ⟨q, h.call hcall.1 hcall.2 (.inl rfl)⟩
  | tryAcquire t n =>
    simp only [step] at hs
    split_ifs at hs with hcall
    obtain rfl := Option.some.inj hs
    exact ⟨q, h.call hcall.1 hcall.2 (.inr rfl)⟩
  | release t =>
    simp only [step] at hs
    split_ifs at hs with hheld
    obtain rfl := Option.some.inj hs
    have hfits := h.fits t
    have hout : s.pc t ≠ .out := by rw [hheld]; nofun
    rw [hheld] at hfits
    exact ⟨q, h.quiet rfl rfl hout (h.users_on rfl rfl rfl hout nofun) ⟨rfl, rfl, rfl⟩
      (fun _ _ => ⟨rfl, rfl⟩) (fun _ => rfl) hfits (by rw [hheld]; rfl) (by rw [hheld]; rfl)⟩
  | next t => exact inv_next h hs

theorem inv_init (h : mcsLock.init s) : Inv s [] := by
  obtain ⟨htail, hpc, huser, hswung, hobtained⟩ := h
  refine ⟨fun n t => ?_, fun t => ?_, ?_, by rw [hswung, hobtained]; rfl, fun t ht => ?_⟩
  · rw [huser, hpc]
    exact iff_of_false nofun fun hfalse => hfalse.1 rfl
  · rw [hpc]
    exact List.not_mem_nil
  · simp only [hpc, htail, Pc.prev, Option.map_none]
    exact .nil
  · rw [hpc] at ht
    cases ht

theorem reach_inv (h : Reach mcsLock s) : ∃ q, Inv s q :=
  h.inv (I := fun s => ∃ q, Inv s q) (fun _ h => ⟨[], inv_init h⟩)
    fun _ _ _ ⟨_, hI⟩ hs => inv_step hI hs

end Steps

/-! ### The lock -/

section Lock
variable [DecidableEq N] [DecidableEq T] {s : State N T} {q : List T}

end Lock

end Libfibre.MCSLock
