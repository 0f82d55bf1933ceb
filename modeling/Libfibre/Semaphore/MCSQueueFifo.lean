import Libfibre.Semaphore.MCSQueue

/-! `MCSTimeoutQueue` without timeouts is a FIFO queue of calls. The nodes of the calls that have not been
    popped are in a line of nodes that are linked or about to be linked; the line may start with the node
    that some fibre is popping. `head` is the first of the queue, unless one fibre is about to make it so. -/

namespace Libfibre.MCSQueue
open Transition LinkedList Threads

variable {F : Type}

section Steps
variable [DecidableEq F] {s s' : State F} {q q' l l' : List F} {t : F} {p : Pc F}

/-- The links after a step of `t`. -/
theorem Links.move (h : Links s q l) (hpc : s'.pc = Function.update s.pc t p) (hsees : Sees s' t p)
    (hhead : s'.head = s.head ∨ ∀ u n, u ≠ t → s.pc u ≠ .clearHead n)
    (hnext : ∀ u, u ≠ t → s.pc u = .swing → s'.next u = s.next u)
    (hlock : (∀ u, u ≠ t → (s'.lock = some u ↔ s.lock = some u)) ∧ (p.locked = true ↔ s'.lock = some t))
    (hleader : p.leads = true → ∀ u, u ≠ t → (s.pc u).leads = false)
    (hfront : (∃ u, Front s' q' l' u (Function.update s.pc t p u)) ∨
      (∀ u, (Function.update s.pc t p u).leads = false) ∧ s'.head = q'.head? ∧ l' = q')
    (hline : Line (fun f => (s'.next f).node?) s'.tail
      (Function.update (fun u => (s.pc u).pred.map (·, u)) t (p.pred.map (·, t))) l')
    (hinner : ∀ f ∈ l', s'.next f ≠ .atHead) (houter : ∀ f, f ∉ l' → (s'.next f).node? = none) :
    Links s' q' l' := by
  refine ⟨fun u => ?_, by rw [hpc]; exact lock_move h.lock hlock,
    by rw [hpc]; exact leader_move h.leader hleader, by rw [hpc]; exact hfront, ?_, hinner, houter⟩
  · rw [hpc]
    rcases eq_or_ne u t with rfl | hu
    · rwa [Function.update_self]
    · rw [Function.update_of_ne hu]
      have hold := h.sees u
      cases hu' : s.pc u <;> rw [hu'] at hold <;> try exact trivial
      case swing => exact (hnext u hu hu').trans hold
      case cas pred temp => exact hold
      case clearHead n =>
        obtain hsame | hnone := hhead
        · exact hsame.trans hold
        · exact absurd hu' (hnone u n hu)
  · have howes : (fun u => (s'.pc u).pred.map (·, u)) =
        Function.update (fun u => (s.pc u).pred.map (·, u)) t (p.pred.map (·, t)) := by
      funext u
      rw [hpc]
      rcases eq_or_ne u t with rfl | hu
      · rw [Function.update_self, Function.update_self]
      · rw [Function.update_of_ne hu, Function.update_of_ne hu]
    rw [howes]
    exact hline

/-- The front after a fibre that does not lead has moved. -/
theorem Links.front_quiet {r : State F} (h : Links s q l) (k : List F) (hk : k = [] ∨ l ≠ [])
    (ht : (s.pc t).leads = false) (hp : p.leads = false) (hhead : r.head = s.head)
    (hnext : ∀ n ∈ l, r.next n = s.next n ∨ s.next n = .null) :
    (∃ u, Front r (q ++ k) (l ++ k) u (Function.update s.pc t p u)) ∨
      (∀ u, (Function.update s.pc t p u).leads = false) ∧ r.head = (q ++ k).head? ∧ l ++ k = q ++ k := by
  rcases h.front with ⟨u, hu⟩ | ⟨hnone, hq, hl⟩
  · have hut : u ≠ t := by
      rintro rfl
      rw [hu.leads] at ht
      cases ht
    refine .inl ⟨u, ?_⟩
    rw [Function.update_of_ne hut]
    exact hu.mono k hhead hnext
  · refine .inr ⟨none_leads (fun u _ => hnone u) hp, ?_, by rw [hl]⟩
    rw [hhead, hq]
    rcases hk with rfl | hk
    · rw [List.append_nil]
    · rw [List.head?_append_of_ne_nil _ (hl ▸ hk)]

/-- The front after the fibre that leads has moved. -/
theorem front_leads (hfront : Front s' q' l' t p) :
    (∃ u, Front s' q' l' u (Function.update s.pc t p u)) ∨
      (∀ u, (Function.update s.pc t p u).leads = false) ∧ s'.head = q'.head? ∧ l' = q' :=
  .inl ⟨t, by rw [Function.update_self]; exact hfront⟩

/-- The front when the fibre that leads is done. -/
theorem front_done (hother : ∀ u, u ≠ t → (s.pc u).leads = false) (hp : p.leads = false)
    (hhead : s'.head = q'.head?) (hl : l' = q') :
    (∃ u, Front s' q' l' u (Function.update s.pc t p u)) ∨
      (∀ u, (Function.update s.pc t p u).leads = false) ∧ s'.head = q'.head? ∧ l' = q' :=
  .inr ⟨none_leads hother hp, hhead, hl⟩

/-- What a party owes is not changed by its step. -/
theorem owes_kept (hpred : p.pred = (s.pc t).pred) :
    Function.update (fun u => (s.pc u).pred.map (·, u)) t (p.pred.map (·, t)) =
      fun u => (s.pc u).pred.map (·, u) := by
  rw [hpred]
  exact Function.update_eq_self t fun u => (s.pc u).pred.map (·, u)

/-- A step that changes no pointer. -/
theorem Links.walk (h : Links s q l) (hpc : s'.pc = Function.update s.pc t p)
    (hsame : s'.head = s.head ∧ s'.tail = s.tail ∧ s'.next = s.next) (hsees : Sees s' t p)
    (hlock : (∀ u, u ≠ t → (s'.lock = some u ↔ s.lock = some u)) ∧ (p.locked = true ↔ s'.lock = some t))
    (hpred : p.pred = (s.pc t).pred) (hleader : p.leads = true → (s.pc t).leads = true)
    (hfront : (∃ u, Front s' q l u (Function.update s.pc t p u)) ∨
      (∀ u, (Function.update s.pc t p u).leads = false) ∧ s'.head = q.head? ∧ l = q) : Links s' q l := by
  obtain ⟨hhead, htail, hnext⟩ := hsame
  refine h.move hpc hsees (.inl hhead) (fun u _ _ => by rw [hnext]) hlock
    (fun hp u hu => follows h.leader (hleader hp) hu) hfront ?_ (by rw [hnext]; exact h.inner)
    (by rw [hnext]; exact h.outer)
  rw [owes_kept hpred, hnext, htail]
  exact h.line

/-- A fibre that does not lead takes a step that changes no pointer. -/
theorem Links.pass (h : Links s q l) (hpc : s'.pc = Function.update s.pc t p)
    (hsame : s'.head = s.head ∧ s'.tail = s.tail ∧ s'.next = s.next) (hsees : Sees s' t p)
    (hlock : (∀ u, u ≠ t → (s'.lock = some u ↔ s.lock = some u)) ∧ (p.locked = true ↔ s'.lock = some t))
    (hpred : p.pred = (s.pc t).pred) (ht : (s.pc t).leads = false) (hp : p.leads = false) :
    Links s' q l := by
  refine h.walk hpc hsame hsees hlock hpred (fun hlead => ?_) ?_
  · rw [hp] at hlead
    cases hlead
  · have hfront := h.front_quiet (r := s') [] (.inl rfl) ht hp hsame.1 fun n _ => .inl (by rw [hsame.2.2])
    rwa [List.append_nil, List.append_nil] at hfront

theorem node?_update (next : F → Ptr F) (n m : F) :
    (fun f => (Function.update next n (.node m) f).node?) =
      Function.update (fun f => (next f).node?) n (some m) :=
  Function.comp_update Ptr.node? next n (.node m)

/-! ### Each step -/

/-- STEP: `Next(n) = nullptr`. -/
theorem Inv.clear (h : Inv s q l) (hpc : s.pc t = .clear) : Inv ((s.setNext t .null).goto t .swing) q l := by
  have hout : t ∉ l := h.not_line (by rw [hpc]; rfl)
  have hkeep : ∀ f, f ≠ t → Function.update s.next t .null f = s.next f := fun f hf =>
    Function.update_of_ne hf ..
  refine ⟨h.places.walk rfl ⟨rfl, rfl, rfl, rfl, rfl⟩ (by rw [hpc]; rfl) (by rw [hpc]; rfl) nofun, ?_⟩
  refine h.links.move rfl (Function.update_self ..) (.inl rfl) (fun u hu _ => hkeep u hu)
    (lock_same h.links.lock rfl (by rw [hpc]; rfl)) nofun ?_ ?_ (fun f hf => ?_) fun f hf => ?_
  · have hfront := h.links.front_quiet (t := t) (p := .swing)
      (r := (s.setNext t .null).goto t .swing) [] (.inl rfl)
      (by rw [hpc]; rfl) rfl rfl fun n hn => .inl (hkeep n (ne_of_mem_of_not_mem hn hout))
    rwa [List.append_nil, List.append_nil] at hfront
  · rw [owes_kept (by rw [hpc]; rfl)]
    refine h.links.line.congr fun f hf => ?_
    exact congrArg Ptr.node? (hkeep f (ne_of_mem_of_not_mem hf hout))
  · change Function.update s.next t .null f ≠ .atHead
    rw [hkeep f (ne_of_mem_of_not_mem hf hout)]
    exact h.links.inner f hf
  · change (Function.update s.next t .null f).node? = none
    rcases eq_or_ne f t with rfl | hne
    · rw [Function.update_self]
      rfl
    · rw [hkeep f hne]
      exact h.links.outer f hf

/-- STEP: the exchange of `tail` on an empty queue. -/
theorem Inv.swing_empty (h : Inv s q l) (hpc : s.pc t = .swing) (htail : s.tail = none) :
    Inv (State.goto { s.setPlace t .queued with tail := some t, pushed := s.pushed ++ [t] } t .putHead)
      (q ++ [t]) [t] := by
  have hline := h.links.line
  rw [htail] at hline
  obtain rfl := hline.eq_nil
  obtain ⟨rfl, hnone, hhead⟩ := h.links.nobody
  have hnull : s.next t = .null := by
    have hsees := h.links.sees t
    rwa [hpc] at hsees
  refine ⟨h.places.push hpc (.inl rfl), h.links.move rfl trivial (.inl rfl) (fun _ _ _ => rfl)
    (lock_same h.links.lock rfl (by rw [hpc]; rfl)) (fun _ u _ => hnone u) (front_leads ⟨hhead, rfl, rfl⟩)
    ?_ (fun f hf => ?_) fun f hf => h.links.outer f (List.not_mem_nil)⟩
  · rw [owes_kept (by rw [hpc]; rfl)]
    refine hline.start (k := [t]) (List.nodup_singleton t) (fun x y hxy => ?_) fun z hz => ?_
    · rcases adj_cons.mp hxy with ⟨-, hy⟩ | hy
      · cases hy
      · exact (adj_nil hy).elim
    · obtain rfl := Option.some.inj hz
      exact congrArg Ptr.node? hnull
  · obtain rfl := List.mem_singleton.mp hf
    change s.next f ≠ .atHead
    rw [hnull]
    nofun

/-- STEP: the exchange of `tail` behind a predecessor. -/
theorem Inv.swing_behind {pred : F} (h : Inv s q l) (hpc : s.pc t = .swing) (htail : s.tail = some pred) :
    Inv (State.goto { s.setPlace t .queued with tail := some t, pushed := s.pushed ++ [t] } t (.prepare pred))
      (q ++ [t]) (l ++ [t]) := by
  have hline := h.links.line
  rw [htail] at hline
  have hout : t ∉ l := h.not_line (by rw [hpc]; rfl)
  have hne : l ≠ [] := by
    rintro rfl
    cases hline.last
  have hnull : s.next t = .null := by
    have hsees := h.links.sees t
    rwa [hpc] at hsees
  refine ⟨h.places.push hpc (.inr ⟨pred, rfl⟩), h.links.move rfl trivial (.inl rfl) (fun _ _ _ => rfl)
    (lock_same h.links.lock rfl (by rw [hpc]; rfl)) nofun ?_ ?_ (fun f hf => ?_)
    fun f hf => h.links.outer f fun hl => hf (List.mem_append_left [t] hl)⟩
  · exact h.links.front_quiet [t] (.inr hne) (by rw [hpc]; rfl) rfl rfl fun n _ => .inl rfl
  · refine hline.append (k := [t]) (by rw [hpc]; rfl) rfl (List.nodup_singleton t) (fun x hx => ?_)
      (fun x y hxy => ?_) fun z hz => ?_
    · rwa [List.mem_singleton.mp hx]
    · rcases adj_cons.mp hxy with ⟨-, hy⟩ | hy
      · cases hy
      · exact (adj_nil hy).elim
    · obtain rfl := Option.some.inj hz
      exact congrArg Ptr.node? hnull
  · change s.next f ≠ .atHead
    rcases List.mem_append.mp hf with hf | hf
    · exact h.links.inner f hf
    · rw [List.mem_singleton.mp hf, hnull]
      nofun

/-- STEP: the first of an empty queue becomes the head. -/
theorem Inv.putHead (h : Inv s q l) (hpc : s.pc t = .putHead) :
    Inv (State.goto { s with head := some t } t (.suspending true)) q l := by
  have hleads : (s.pc t).leads = true := by rw [hpc]; rfl
  have hfront := h.links.front_of hleads
  rw [hpc] at hfront
  obtain ⟨hhead, hq, hl⟩ := hfront
  refine ⟨h.places.walk rfl ⟨rfl, rfl, rfl, rfl, rfl⟩ (by rw [hpc]; rfl) (by rw [hpc]; rfl) nofun, ?_⟩
  refine h.links.move rfl trivial (.inr fun u n _ => h.links.clears_null hhead u n) (fun _ _ _ => rfl)
    (lock_same h.links.lock rfl (by rw [hpc]; rfl)) nofun
    (front_done (fun u => follows h.links.leader hleads) rfl hq.symm hl) ?_ h.links.inner h.links.outer
  rw [owes_kept (by rw [hpc]; rfl)]
  exact h.links.line

/-- The predecessor of one that still has to link itself is not linked. -/
theorem Inv.unlinked {pred : F} (h : Inv s q l) (hpred : (s.pc t).pred = some pred) :
    pred ∈ l ∧ s.next pred = .null := by
  obtain ⟨hadj, hnull⟩ := h.links.line.owed t pred t (by rw [hpred]; rfl)
  refine ⟨hadj.left_mem, ?_⟩
  have hinner := h.links.inner pred hadj.left_mem
  cases hnext : s.next pred with
  | null => rfl
  | node n =>
    rw [hnext] at hnull
    cases hnull
  | atHead => exact absurd hnext hinner

/-- STEP: `Next(*pred)` gets its link. -/
theorem Inv.cas {pred : F} {temp : Ptr F} (h : Inv s q l) (hpc : s.pc t = .cas pred temp) :
    Inv ((s.setNext pred (.node t)).goto t (.suspending false)) q l := by
  have howed : (s.pc t).pred = some pred := by
    rw [hpc]
    rfl
  obtain ⟨hmem, hnull⟩ := h.unlinked howed
  have hkeep : ∀ f, f ≠ pred → Function.update s.next pred (.node t) f = s.next f := fun f hf =>
    Function.update_of_ne hf ..
  refine ⟨h.places.walk rfl ⟨rfl, rfl, rfl, rfl, rfl⟩ (by rw [hpc]; rfl) (by rw [hpc]; rfl) nofun, ?_⟩
  refine h.links.move rfl trivial (.inl rfl) (fun u _ hu => hkeep u ?_)
    (lock_same h.links.lock rfl (by rw [hpc]; rfl)) nofun ?_ ?_ (fun f hf => ?_) fun f hf => ?_
  · rintro rfl
    exact h.not_line (by rw [hu]; rfl) hmem
  · have hfront := h.links.front_quiet (t := t) (p := .suspending false)
      (r := (s.setNext pred (.node t)).goto t (.suspending false)) [] (.inl rfl) (by rw [hpc]; rfl) rfl rfl
      fun n _ => ?_
    · rwa [List.append_nil, List.append_nil] at hfront
    · rcases eq_or_ne n pred with rfl | hne
      · exact .inr hnull
      · exact .inl (hkeep n hne)
  · have hlink := h.links.line.link (t := t) (a := pred) (b := t) (by rw [hpc]; rfl)
    rw [← node?_update s.next pred t] at hlink
    exact hlink
  · change Function.update s.next pred (.node t) f ≠ .atHead
    rcases eq_or_ne f pred with rfl | hne
    · rw [Function.update_self]
      nofun
    · rw [hkeep f hne]
      exact h.links.inner f hf
  · change (Function.update s.next pred (.node t) f).node? = none
    rw [hkeep f (ne_of_mem_of_not_mem hmem hf).symm]
    exact h.links.outer f hf

/-- STEP: the first of the queue is taken. -/
theorem Inv.clearHead {n : F} (h : Inv s q l) (hpc : s.pc t = .clearHead n) :
    ∃ q', q = n :: q' ∧ Inv (State.goto { s.setPlace n (.popping t) with
      head := none, popped := s.popped ++ [n] } t (.unlock n)) q' l := by
  have hlocked : (s.pc t).locked = true := by rw [hpc]; rfl
  have hhead : s.head = some n := by
    have hsees := h.links.sees t
    rwa [hpc] at hsees
  obtain ⟨hnone, hq, rfl⟩ := h.links.head_some hhead
  obtain ⟨q', rfl⟩ : ∃ q', l = n :: q' := by
    cases l with
    | nil => cases hq
    | cons a q' => exact ⟨q', by rw [Option.some.inj hq]⟩
  have hnq : n ∉ q' := (List.nodup_cons.mp h.links.line.nodup).1
  have hearly : (s.pc n).early = false := by
    cases hn : s.pc n <;> try rfl
    case putHead =>
      have hlead := hnone n
      rw [hn] at hlead
      cases hlead
    -- it would have a predecessor in the line
    case prepare pred | read pred | cas pred temp =>
      have hadj := (h.links.line.owed n pred n (by rw [hn]; rfl)).1
      exact absurd hq (hadj.not_first h.links.line.nodup)
  refine ⟨q', rfl, h.places.take hnq hpc hearly, ?_⟩
  refine h.links.move rfl trivial (.inr fun u m hu => h.links.clears hlocked u m hu) (fun _ _ _ => rfl)
    (lock_same h.links.lock rfl (by rw [hpc]; rfl)) (fun _ u _ => hnone u) (front_leads ⟨rfl, rfl⟩) ?_
    h.links.inner h.links.outer
  rw [owes_kept (by rw [hpc]; rfl)]
  exact h.links.line

/-- STEP: `Next(n)` of the node that is popped. -/
theorem Inv.readNext {n : F} (h : Inv s q l) (hpc : s.pc t = .readNext n) (hs : MCSQueue.next s t = some s') :
    Inv s' q l := by
  have hleads : (s.pc t).leads = true := by rw [hpc]; rfl
  have hfront := h.links.front_of hleads
  rw [hpc] at hfront
  obtain ⟨hhead, hl⟩ := hfront
  rw [MCSQueue.next, hpc] at hs
  dsimp only at hs
  cases hnext : s.next n with
  | null =>
    rw [hnext] at hs
    obtain rfl := Option.some.inj hs
    exact ⟨h.places.walk rfl ⟨rfl, rfl, rfl, rfl, rfl⟩ (by rw [hpc]; rfl) (by rw [hpc]; rfl) nofun,
      h.links.walk rfl ⟨rfl, rfl, rfl⟩ trivial (lock_same h.links.lock rfl (by rw [hpc]; rfl))
        (by rw [hpc]; rfl)
        (fun _ => hleads) (front_leads ⟨hhead, hl⟩)⟩
  | node succ =>
    rw [hnext] at hs
    obtain rfl := Option.some.inj hs
    exact ⟨h.places.walk rfl ⟨rfl, rfl, rfl, rfl, rfl⟩ (by rw [hpc]; rfl) (by rw [hpc]; rfl) nofun,
      h.links.walk rfl ⟨rfl, rfl, rfl⟩ trivial (lock_same h.links.lock rfl (by rw [hpc]; rfl))
        (by rw [hpc]; rfl)
        (fun _ => hleads) (front_leads ⟨hhead, hl, hnext⟩)⟩
  | atHead =>
    rw [hnext] at hs
    cases hs

/-- STEP: `tail` is fixed, or somebody has come. -/
theorem Inv.casTail {n : F} (h : Inv s q l) (hpc : s.pc t = .casTail n) (hs : MCSQueue.next s t = some s') :
    ∃ l', Inv s' q l' := by
  have hleads : (s.pc t).leads = true := by rw [hpc]; rfl
  have hfront := h.links.front_of hleads
  rw [hpc] at hfront
  obtain ⟨hhead, rfl⟩ := hfront
  rw [MCSQueue.next, hpc] at hs
  dsimp only at hs
  split_ifs at hs with htail
  · obtain rfl := Option.some.inj hs
    have hline := h.links.line
    rw [htail] at hline
    obtain rfl := hline.sole
    refine ⟨[], h.places.walk rfl ⟨rfl, rfl, rfl, rfl, rfl⟩ (by rw [hpc]; rfl) (by rw [hpc]; rfl) nofun, ?_⟩
    refine h.links.move rfl trivial (.inl rfl) (fun _ _ _ => rfl)
      (lock_same h.links.lock rfl (by rw [hpc]; rfl))
      nofun (front_done (fun u => follows h.links.leader hleads) rfl hhead rfl) ?_ (fun f hf => (nomatch hf))
      fun f _ => ?_
    · rw [owes_kept (by rw [hpc]; rfl)]
      exact hline.clear
    · rcases eq_or_ne f n with rfl | hne
      · exact hline.ends f rfl
      · exact h.links.outer f fun hf => hne (List.mem_singleton.mp hf)
  · obtain rfl := Option.some.inj hs
    have hq : q ≠ [] := by
      rintro rfl
      exact htail h.links.line.last
    exact ⟨n :: q, h.places.walk rfl ⟨rfl, rfl, rfl, rfl, rfl⟩ (by rw [hpc]; rfl) (by rw [hpc]; rfl) nofun,
      h.links.walk rfl ⟨rfl, rfl, rfl⟩ trivial (lock_same h.links.lock rfl (by rw [hpc]; rfl))
        (by rw [hpc]; rfl)
        (fun _ => hleads) (front_leads ⟨hhead, rfl, hq⟩)⟩

/-- STEP: the popped node lets its successor go. -/
theorem Inv.casNext {n succ : F} (h : Inv s q l) (hpc : s.pc t = .casNext n succ)
    (hs : MCSQueue.next s t = some s') : ∃ l', Inv s' q l' := by
  have hleads : (s.pc t).leads = true := by rw [hpc]; rfl
  have hfront := h.links.front_of hleads
  rw [hpc] at hfront
  obtain ⟨hhead, rfl, hnext⟩ := hfront
  rw [MCSQueue.next, hpc] at hs
  dsimp only at hs
  rw [if_pos hnext] at hs
  obtain rfl := Option.some.inj hs
  have hnode : (s.next n).node? = some succ := by rw [hnext]; rfl
  have hpop := h.links.line.pop (n := succ) hnode
  have hfirst := h.links.line.head?_eq (n := succ) hnode
  have hnq : n ∉ q := (List.nodup_cons.mp h.links.line.nodup).1
  have hkeep : ∀ f, f ≠ n → Function.update s.next n .atHead f = s.next f := fun f hf =>
    Function.update_of_ne hf ..
  refine ⟨q, h.places.walk rfl ⟨rfl, rfl, rfl, rfl, rfl⟩ (by rw [hpc]; rfl) (by rw [hpc]; rfl) nofun, ?_⟩
  refine h.links.move rfl trivial (.inl rfl) (fun u _ hu => hkeep u ?_)
    (lock_same h.links.lock rfl (by rw [hpc]; rfl)) (fun _ u => follows h.links.leader hleads)
    (front_leads ⟨hhead, rfl, hfirst⟩) ?_ (fun f hf => ?_) fun f hf => ?_
  · rintro rfl
    exact h.not_line (by rw [hu]; rfl) List.mem_cons_self
  · rw [owes_kept (by rw [hpc]; rfl)]
    refine hpop.congr fun f hf => ?_
    exact congrArg Ptr.node? (hkeep f (ne_of_mem_of_not_mem hf hnq))
  · change Function.update s.next n .atHead f ≠ .atHead
    rw [hkeep f (ne_of_mem_of_not_mem hf hnq)]
    exact h.links.inner f (List.mem_cons_of_mem n hf)
  · change (Function.update s.next n .atHead f).node? = none
    rcases eq_or_ne f n with rfl | hne
    · rw [Function.update_self]
      rfl
    · rw [hkeep f hne]
      exact h.links.outer f fun hmem => hf (List.mem_of_ne_of_mem hne hmem)

/-- STEP: the successor becomes the head. -/
theorem Inv.setHead {n succ : F} (h : Inv s q l) (hpc : s.pc t = .setHead n succ) :
    Inv (State.goto { s with head := some succ } t (.resume n)) q l := by
  have hleads : (s.pc t).leads = true := by rw [hpc]; rfl
  have hfront := h.links.front_of hleads
  rw [hpc] at hfront
  obtain ⟨hhead, hl, hq⟩ := hfront
  refine ⟨h.places.walk rfl ⟨rfl, rfl, rfl, rfl, rfl⟩ (by rw [hpc]; rfl) (by rw [hpc]; rfl) nofun, ?_⟩
  refine h.links.move rfl trivial (.inr fun u m _ => h.links.clears_null hhead u m) (fun _ _ _ => rfl)
    (lock_same h.links.lock rfl (by rw [hpc]; rfl)) nofun
    (front_done (fun u => follows h.links.leader hleads) rfl hq.symm hl) ?_ h.links.inner h.links.outer
  rw [owes_kept (by rw [hpc]; rfl)]
  exact h.links.line

/-- A step of a fibre that does not lead, which changes no pointer and no place. -/
theorem Inv.pass (h : Inv s q l) (hpc : s'.pc = Function.update s.pc t p)
    (hplaces : s'.place = s.place ∧ s'.resumed = s.resumed ∧ s'.pushed = s.pushed ∧ s'.popped = s.popped ∧
      s'.returned = s.returned)
    (hlinks : s'.head = s.head ∧ s'.tail = s.tail ∧ s'.next = s.next) (hsees : Sees s' t p)
    (hlock : (∀ u, u ≠ t → (s'.lock = some u ↔ s.lock = some u)) ∧ (p.locked = true ↔ s'.lock = some t))
    (helem : p.elem = (s.pc t).elem) (hwaits : p.waits = (s.pc t).waits) (hearly : p.early = (s.pc t).early)
    (hpred : p.pred = (s.pc t).pred) (ht : (s.pc t).leads = false) (hp : p.leads = false) : Inv s' q l :=
  ⟨h.places.walk hpc hplaces helem hwaits (fun he => hearly ▸ he),
    h.links.pass hpc hlinks hsees hlock hpred ht hp⟩

/-- STEP. -/
theorem Inv.next (h : Inv s q l) (hs : MCSQueue.next s t = some s') : ∃ q' l', Inv s' q' l' := by
  have hs' := hs
  unfold MCSQueue.next at hs'
  split at hs'
  · cases hs'
  · next hpc =>
    obtain rfl := Option.some.inj hs'
    exact ⟨_, _, h.clear hpc⟩
  · next hpc =>
    cases htail : s.tail with
    | none =>
      rw [htail] at hs'
      obtain rfl := Option.some.inj hs'
      exact ⟨_, _, h.swing_empty hpc htail⟩
    | some pred =>
      rw [htail] at hs'
      obtain rfl := Option.some.inj hs'
      exact ⟨_, _, h.swing_behind hpc htail⟩
  · next hpc =>
    obtain rfl := Option.some.inj hs'
    exact ⟨_, _, h.putHead hpc⟩
  · next pred hpc =>
    obtain ⟨-, hs'⟩ := Option.ite_none_right_eq_some.mp hs'
    obtain rfl := Option.some.inj hs'
    exact ⟨_, _, h.pass rfl ⟨rfl, rfl, rfl, rfl, rfl⟩ ⟨rfl, rfl, rfl⟩ trivial
      (lock_same h.links.lock rfl (by rw [hpc]; rfl)) (by rw [hpc]; rfl) (by rw [hpc]; rfl) (by rw [hpc]; rfl)
      (by rw [hpc]; rfl) (by rw [hpc]; rfl) rfl⟩
  · next pred hpc =>
    obtain rfl := Option.some.inj hs'
    exact ⟨_, _, h.pass rfl ⟨rfl, rfl, rfl, rfl, rfl⟩ ⟨rfl, rfl, rfl⟩ (h.unlinked (by rw [hpc]; rfl)).2
      (lock_same h.links.lock rfl (by rw [hpc]; rfl)) (by rw [hpc]; rfl) (by rw [hpc]; rfl) (by rw [hpc]; rfl)
      (by rw [hpc]; rfl) (by rw [hpc]; rfl) rfl⟩
  · next pred temp hpc =>
    split_ifs at hs' with htemp
    · obtain rfl := Option.some.inj hs'
      exact ⟨_, _, h.cas hpc⟩
    · obtain rfl := Option.some.inj hs'
      exact ⟨_, _, h.pass rfl ⟨rfl, rfl, rfl, rfl, rfl⟩ ⟨rfl, rfl, rfl⟩ trivial
        (lock_same h.links.lock rfl (by rw [hpc]; rfl))
        (by rw [hpc]; rfl) (by rw [hpc]; rfl) (by rw [hpc]; rfl)
        (by rw [hpc]; rfl) (by rw [hpc]; rfl) rfl⟩
  · next first hpc =>
    split_ifs at hs' with hres
    all_goals
      obtain rfl := Option.some.inj hs'
      refine ⟨_, _, (h.places.leave hpc hres (by simp)).2, h.links.pass rfl ⟨rfl, rfl, rfl⟩ trivial
        (lock_same h.links.lock rfl (by rw [hpc]; rfl)) (by rw [hpc]; rfl) (by rw [hpc]; rfl) rfl⟩
  · next hpc =>
    split_ifs at hs' with hhead
    obtain rfl := Option.some.inj hs'
    exact ⟨_, _, h.pass rfl ⟨rfl, rfl, rfl, rfl, rfl⟩ ⟨rfl, rfl, rfl⟩ trivial
      (lock_same h.links.lock rfl (by rw [hpc]; rfl)) (by rw [hpc]; rfl) (by rw [hpc]; rfl) (by rw [hpc]; rfl)
      (by rw [hpc]; rfl) (by rw [hpc]; rfl) rfl⟩
  · next hpc =>
    obtain ⟨hlock, hs'⟩ := Option.ite_none_right_eq_some.mp hs'
    obtain rfl := Option.some.inj hs'
    exact ⟨_, _, h.pass rfl ⟨rfl, rfl, rfl, rfl, rfl⟩ ⟨rfl, rfl, rfl⟩ trivial (lock_taken hlock rfl rfl)
      (by rw [hpc]; rfl) (by rw [hpc]; rfl) (by rw [hpc]; rfl) (by rw [hpc]; rfl) (by rw [hpc]; rfl) rfl⟩
  · next hpc =>
    cases hhead : s.head with
    | none =>
      rw [hhead] at hs'
      obtain rfl := Option.some.inj hs'
      exact ⟨_, _, h.pass rfl ⟨rfl, rfl, rfl, rfl, rfl⟩ ⟨rfl, rfl, rfl⟩ trivial
        (lock_same h.links.lock rfl (by rw [hpc]; rfl)) (by rw [hpc]; rfl) (by rw [hpc]; rfl)
        (by rw [hpc]; rfl) (by rw [hpc]; rfl) (by rw [hpc]; rfl) rfl⟩
    | some n =>
      rw [hhead] at hs'
      obtain rfl := Option.some.inj hs'
      exact ⟨_, _, h.pass rfl ⟨rfl, rfl, rfl, rfl, rfl⟩ ⟨rfl, rfl, rfl⟩ hhead
        (lock_same h.links.lock rfl (by rw [hpc]; rfl)) (by rw [hpc]; rfl) (by rw [hpc]; rfl)
        (by rw [hpc]; rfl) (by rw [hpc]; rfl) (by rw [hpc]; rfl) rfl⟩
  · next hpc =>
    obtain rfl := Option.some.inj hs'
    exact ⟨_, _, h.pass rfl ⟨rfl, rfl, rfl, rfl, rfl⟩ ⟨rfl, rfl, rfl⟩ trivial
      (lock_released h.links.lock (by rw [hpc]; rfl) rfl rfl) (by rw [hpc]; rfl) (by rw [hpc]; rfl)
      (by rw [hpc]; rfl) (by rw [hpc]; rfl) (by rw [hpc]; rfl) rfl⟩
  · next n hpc =>
    obtain rfl := Option.some.inj hs'
    obtain ⟨q', rfl, h'⟩ := h.clearHead hpc
    exact ⟨_, _, h'⟩
  · next n hpc =>
    obtain rfl := Option.some.inj hs'
    have hleads : (s.pc t).leads = true := by rw [hpc]; rfl
    have hfront := h.links.front_of hleads
    rw [hpc] at hfront
    exact ⟨_, _, h.places.walk rfl ⟨rfl, rfl, rfl, rfl, rfl⟩ (by rw [hpc]; rfl) (by rw [hpc]; rfl) nofun,
      h.links.walk rfl ⟨rfl, rfl, rfl⟩ trivial (lock_released h.links.lock (by rw [hpc]; rfl) rfl rfl)
        (by rw [hpc]; rfl) (fun _ => hleads) (front_leads hfront)⟩
  · next n hpc => exact ⟨_, _, h.readNext hpc hs⟩
  · next n hpc => exact ⟨_, h.casTail hpc hs⟩
  · next n hpc =>
    obtain rfl := Option.some.inj hs'
    exact ⟨_, _, h.pass rfl ⟨rfl, rfl, rfl, rfl, rfl⟩ ⟨rfl, rfl, rfl⟩ trivial
      (lock_same h.links.lock rfl (by rw [hpc]; rfl)) (by rw [hpc]; rfl) (by rw [hpc]; rfl) (by rw [hpc]; rfl)
      (by rw [hpc]; rfl) (by rw [hpc]; rfl) rfl⟩
  · next n hpc =>
    obtain rfl := Option.some.inj hs'
    split_ifs with hnull
    · exact ⟨_, _, h⟩
    · have hleads : (s.pc t).leads = true := by rw [hpc]; rfl
      have hfront := h.links.front_of hleads
      rw [hpc] at hfront
      exact ⟨_, _, h.places.walk rfl ⟨rfl, rfl, rfl, rfl, rfl⟩ (by rw [hpc]; rfl) (by rw [hpc]; rfl) nofun,
        h.links.walk rfl ⟨rfl, rfl, rfl⟩ trivial (lock_same h.links.lock rfl (by rw [hpc]; rfl))
          (by rw [hpc]; rfl) (fun _ => hleads) (front_leads ⟨hfront.1, hfront.2.1⟩)⟩
  · next n succ hpc => exact ⟨_, h.casNext hpc hs⟩
  · next n succ hpc =>
    obtain rfl := Option.some.inj hs'
    exact ⟨_, _, h.setHead hpc⟩
  · next n hpc =>
    split_ifs at hs' with hres
    obtain rfl := Option.some.inj hs'
    exact ⟨_, _, h.places.wake hpc hres, h.links.pass rfl ⟨rfl, rfl, rfl⟩ trivial
      (lock_same h.links.lock rfl (by rw [hpc]; rfl)) (by rw [hpc]; rfl) (by rw [hpc]; rfl) rfl⟩

theorem Inv.step {a : Action F} (h : Inv s q l) (hs : MCSQueue.step s a = some s') :
    ∃ q' l', Inv s' q' l' := by
  cases a with
  | push t | pop t =>
    obtain ⟨hpc, hs⟩ := Option.ite_none_right_eq_some.mp hs
    obtain rfl := Option.some.inj hs
    exact ⟨_, _, h.pass rfl ⟨rfl, rfl, rfl, rfl, rfl⟩ ⟨rfl, rfl, rfl⟩ trivial
      (lock_same h.links.lock rfl (by rw [hpc]; rfl)) (by rw [hpc]; rfl) (by rw [hpc]; rfl) (by rw [hpc]; rfl)
      (by rw [hpc]; rfl) (by rw [hpc]; rfl) rfl⟩
  | next t => exact h.next hs

theorem Inv.init : Inv (State.init : State F) [] [] where
  places := ⟨rfl, fun _ => iff_of_false nofun nofun, fun _ _ => iff_of_false nofun nofun, fun _ => rfl,
    fun _ => iff_of_false (fun hne => hne rfl) Bool.false_ne_true, fun _ hf => (nomatch hf), fun _ => rfl⟩
  links := ⟨fun _ => trivial, fun _ => iff_of_false Bool.false_ne_true nofun, fun _ _ ht => (nomatch ht),
    .inr ⟨fun _ => rfl, rfl, rfl⟩, Line.nil, fun _ hf => (nomatch hf), fun _ _ => rfl⟩

theorem inv_reach (h : Reach (system F) s) : ∃ q l, Inv s q l := by
  refine h.inv (I := fun s => ∃ q l, Inv s q l) (fun s hs => ?_) fun s a s' ⟨q, l, hI⟩ hs => hI.step hs
  rw [hs]
  exact ⟨[], [], .init⟩

end Steps

/-! ### What the queue is for -/

section Results
variable [DecidableEq F] {s : State F} {q l : List F} {t f : F}

/-- The nodes of others that a fibre has in hand. -/
def Pc.uses : Pc F → List F
  | .prepare pred | .read pred | .cas pred _ => [pred]
  | .clearHead n | .unlock n | .readNext n | .casTail n | .reread n | .wait n | .resume n => [n]
  | .casNext n succ | .setHead n succ => [n, succ]
  | _ => []

theorem Inv.queue_waits (h : Inv s q l) (hf : f ∈ q) : (s.pc f).waits = true := by
  refine (h.places.waits f).mp ?_
  rw [(h.places.queued f).mpr hf]
  nofun

theorem Inv.elem_waits (h : Inv s q l) (hf : (s.pc t).elem = some f) : (s.pc f).waits = true := by
  refine (h.places.waits f).mp ?_
  rw [(h.places.elem t f).mp hf]
  nofun

/-- Whatever a fibre has in hand is in use. -/
theorem Inv.uses_waits (h : Inv s q l) (hf : f ∈ (s.pc t).uses) : (s.pc f).waits = true := by
  have hpred : ∀ {pred}, (s.pc t).pred = some pred → (s.pc pred).waits = true := fun hpred =>
    h.line_waits (h.unlinked hpred).1
  cases hpc : s.pc t <;> rw [hpc] at hf <;>
    simp only [Pc.uses, List.mem_cons, List.not_mem_nil, or_false] at hf
  case prepare pred | read pred | cas pred temp =>
    rw [hf]
    exact hpred (by rw [hpc]; rfl)
  case clearHead n =>
    have hhead := h.links.sees t
    rw [hpc] at hhead
    rw [hf]
    exact h.queue_waits (List.mem_of_mem_head? (h.links.head_some hhead).2.1)
  case casNext n succ =>
    have hfront := h.links.front_of (t := t) (by rw [hpc]; rfl)
    rw [hpc] at hfront
    obtain ⟨-, rfl, hnext⟩ := hfront
    have hline := h.links.line
    rcases hf with rfl | rfl
    · exact h.elem_waits (t := t) (by rw [hpc]; rfl)
    · have hfirst := hline.head?_eq (n := f) (congrArg Ptr.node? hnext)
      exact h.queue_waits (List.mem_of_mem_head? hfirst)
  case setHead n succ =>
    have hfront := h.links.front_of (t := t) (by rw [hpc]; rfl)
    rw [hpc] at hfront
    rcases hf with rfl | rfl
    · exact h.elem_waits (t := t) (by rw [hpc]; rfl)
    · exact h.queue_waits (List.mem_of_mem_head? hfront.2.2)
  all_goals
    rw [hf]
    exact h.elem_waits (t := t) (by rw [hpc]; rfl)

/-- Every pointer leads to a node that is in use. -/
theorem Inv.pointers (h : Inv s q l) :
    (∀ f, s.head = some f → (s.pc f).waits = true) ∧ (∀ f, s.tail = some f → (s.pc f).waits = true) ∧
      ∀ f g, s.next g = .node f → (s.pc g).waits = true ∧ (s.pc f).waits = true := by
  refine ⟨fun f hf => ?_, fun f hf => ?_, fun f g hg => ?_⟩
  · exact h.queue_waits (List.mem_of_mem_head? (h.links.head_some hf).2.1)
  · rw [h.links.line.last] at hf
    exact h.line_waits (List.mem_of_getLast? hf)
  · have hnode : (s.next g).node? = some f := congrArg Ptr.node? hg
    have hmem : g ∈ l := by
      by_contra hout
      rw [h.links.outer g hout] at hnode
      cases hnode
    have hadj := h.links.line.adj hmem hnode
    exact ⟨h.line_waits hadj.left_mem, h.line_waits hadj.right_mem⟩

/-- Nothing stops a fibre but the lock, a `suspend` that nobody has ended, and a link that is not made. -/
theorem Inv.goes_on (h : Inv s q l) (hout : s.pc t ≠ .out) (hlock : s.pc t = .lock → s.lock = none)
    (hsuspend : ∀ first, s.pc t = .suspending first → s.resumed t ≠ 0) : (MCSQueue.next s t).isSome := by
  cases hpc : s.pc t <;> unfold MCSQueue.next <;> rw [hpc] <;> dsimp only
  case out => exact absurd hpc hout
  case lock => rw [if_pos (hlock hpc)]; rfl
  case swing => cases s.tail <;> rfl
  case load => cases s.head <;> rfl
  case suspending first => rw [if_neg (hsuspend first hpc)]; rfl
  case prepare pred =>
    have hzero : s.resumed t = 0 := by
      rw [h.places.resumed, h.places.early t (by rw [hpc]; rfl)]
      rfl
    rw [if_pos hzero]
    rfl
  case cas pred temp => split <;> rfl
  case checking =>
    have hnot : s.head ≠ some t := by
      intro hhead
      have hwaits := h.pointers.1 t hhead
      rw [hpc] at hwaits
      cases hwaits
    rw [if_neg hnot]
    rfl
  case readNext n =>
    have hfront := h.links.front_of (t := t) (by rw [hpc]; rfl)
    rw [hpc] at hfront
    have hinner := h.links.inner n (hfront.2 ▸ List.mem_cons_self)
    cases hnext : s.next n with
    | null | node succ => rfl
    | atHead => exact absurd hnext hinner
  case casTail n => split <;> rfl
  case casNext n succ => split <;> rfl
  case resume n =>
    have hzero : s.resumed n = 0 := by
      rw [h.places.resumed, (h.places.elem t n).mp (by rw [hpc]; rfl)]
      rfl
    rw [if_pos hzero]
    rfl
  all_goals rfl

/-- Who waits for a link waits for a fibre that is about to make it. -/
theorem Inv.link_coming {n : F} (h : Inv s q l) (hpc : s.pc t = .wait n) (hnull : s.next n = .null) :
    ∃ u, (s.pc u).pred = some n := by
  have hfront := h.links.front_of (t := t) (by rw [hpc]; rfl)
  rw [hpc] at hfront
  obtain ⟨-, rfl, hq⟩ := hfront
  obtain ⟨m, q', rfl⟩ := List.exists_cons_of_ne_nil hq
  obtain hlink | ⟨u, hu⟩ := h.links.line.links n m (adj_cons.mpr (.inl ⟨rfl, rfl⟩))
  · rw [hnull] at hlink
    cases hlink
  · obtain ⟨pred, hpred, heq⟩ := Option.map_eq_some_iff.mp hu
    exact ⟨u, hpred.trans (congrArg some (Prod.mk.inj heq).1)⟩

/-- Nobody is in the middle of a call, but for those who are suspended. -/
def Quiet (s : State F) : Prop := ∀ u, s.pc u = .out ∨ ∃ first, s.pc u = .suspending first

theorem Inv.quiet (h : Inv s q l) (hquiet : Quiet s) :
    s.lock = none ∧ s.head = q.head? ∧ l = q ∧ ∀ u, (s.pc u).pred = none := by
  have hnone {β : Type} {g : Pc F → β} {b : β} (hout : g .out = b)
    (hsusp : ∀ first, g (.suspending first) = b)
      (u : F) : g (s.pc u) = b := by
    obtain hu | ⟨first, hu⟩ := hquiet u
    · rw [hu, hout]
    · rw [hu, hsusp]
  have hpred : ∀ u, (s.pc u).pred = none := hnone rfl fun _ => rfl
  have hleads : ∀ u, (s.pc u).leads = false := hnone rfl fun _ => rfl
  have hlocked : ∀ u, (s.pc u).locked = false := hnone rfl fun _ => rfl
  have hlock : s.lock = none := by
    by_contra hne
    obtain ⟨u, hu⟩ := Option.ne_none_iff_exists'.mp hne
    have hheld := (h.links.lock u).mpr hu
    rw [hlocked u] at hheld
    cases hheld
  obtain ⟨u, hu⟩ | ⟨-, hhead, hl⟩ := h.links.front
  · have hlead := hu.leads
    rw [hleads u] at hlead
    cases hlead
  · exact ⟨hlock, hhead, hl, hpred⟩

/-- The call of `tryPop` goes on alone until it returns the first of the queue. -/
theorem Inv.pop_alone (h : Inv s q l) (hquiet : Quiet s) (ht : s.pc t = .out) :
    ∃ k s', exec (system F) s (.pop t :: List.replicate k (.next t)) = some s' ∧ s'.pc t = .out ∧
      s'.result t = q.head? ∧ ∀ e, q.head? = some e → s'.resumed e = 1 := by
  obtain ⟨hlock, hhead, rfl, hpred⟩ := h.quiet hquiet
  cases l with
  | nil =>
    refine ⟨3, ?_⟩
    simp [List.replicate_succ, system, MCSQueue.step, MCSQueue.next, State.goto, State.returns,
      ht, hlock, hhead]
  | cons e rest =>
    have hzero : s.resumed e = 0 := by
      rw [h.places.resumed, (h.places.queued e).mpr List.mem_cons_self]
      rfl
    refine ⟨8, ?_⟩
    cases hn : s.next e with
    | node n =>
      simp [List.replicate_succ, system, MCSQueue.step, MCSQueue.next, State.goto, State.returns,
        State.setPlace, State.setNext, ht, hlock, hhead, hn, hzero]
    | atHead => exact absurd hn (h.links.inner e List.mem_cons_self)
    | null =>
      -- nobody owes a link, so the node is the last
      have hrest : rest = [] := by
        cases rest with
        | nil => rfl
        | cons x rest =>
          obtain hx | ⟨u, hu⟩ := h.links.line.links e x (adj_cons.mpr (.inl ⟨rfl, rfl⟩))
          · rw [hn] at hx
            cases hx
          · rw [hpred u] at hu
            cases hu
      have htail : s.tail = some e := by
        rw [h.links.line.last, hrest]
        rfl
      simp [List.replicate_succ, system, MCSQueue.step, MCSQueue.next, State.goto, State.returns,
        State.setPlace, ht, hlock, hhead, hn, hzero, htail]

/-- The calls that have exchanged the tail and are not popped, in that order. -/
def State.waiting (s : State F) : List F := s.pushed.drop s.popped.length

/-- Calls are popped in the order of their tail exchanges, each at most once, and `suspend` ends once for
    each one popped; every node that a pointer leads to or that a fibre has in hand belongs to a call that
    has not returned; no assertion fails and no fibre is stuck, but for the lock, its suspension and a link
    that another one is about to make; and while nothing is in progress, `tryPop` resumes the first of the
    queue, or returns null if all have been popped. -/
structure Sound (s : State F) : Prop where
  order : s.popped <+: s.pushed
  once : ∀ f, s.returned.count f ≤ s.popped.count f ∧
    s.pushed.count f = s.returned.count f + if (s.pc f).waits then 1 else 0
  pointers : ∀ f, s.head = some f ∨ s.tail = some f ∨ (∃ t, f ∈ (s.pc t).uses) → (s.pc f).waits = true
  links : ∀ f g, s.next g = .node f → (s.pc g).waits = true ∧ (s.pc f).waits = true
  goes_on : ∀ t, s.pc t ≠ .out → (s.pc t = .lock → s.lock = none) →
    (∀ first, s.pc t = .suspending first → s.resumed t ≠ 0) → (next s t).isSome
  link_coming : ∀ t n, s.pc t = .wait n → s.next n = .null → ∃ u, (s.pc u).pred = some n
  pop_alone : Quiet s → ∀ t, s.pc t = .out → ∃ k s' r,
    exec (system F) s (.pop t :: List.replicate k (.next t)) = some s' ∧ s'.pc t = .out ∧
      s'.result t = r ∧ r = s.waiting.head? ∧ (∀ e, r = some e → s'.resumed e = 1) ∧
      (r = none ↔ s.popped = s.pushed)

/-- RUN: the queue is sound in every state reached. -/
theorem mcs_queue (h : Reach (system F) s) : Sound s := by
  obtain ⟨q, l, hI⟩ := inv_reach h
  have hcalls : ∀ f, (s.place f).calls = if (s.pc f).waits then 1 else 0 := by
    intro f
    have hwaits := hI.places.waits f
    cases hplace : s.place f <;> rw [hplace] at hwaits
    case idle =>
      rw [if_neg fun hw => hwaits.mpr hw rfl]
      rfl
    all_goals
      rw [if_pos (hwaits.mp nofun)]
      rfl
  obtain ⟨hhead, htail, hnext⟩ := hI.pointers
  refine ⟨⟨q, hI.places.history.symm⟩, fun f => ⟨?_, ?_⟩, fun f hf => ?_, fun f g => hnext f g,
    fun t => hI.goes_on, fun t n => hI.link_coming, fun hquiet t ht => ?_⟩
  · -- who has been pushed and not popped has not returned
    have hcount := hI.places.count f
    rw [hI.places.history, List.count_append] at hcount
    have hq : q.count f ≤ (s.place f).calls := by
      by_cases hmem : f ∈ q
      · rw [(hI.places.queued f).mpr hmem, Place.calls]
        have hnodup : q.Nodup := hI.links.suffix.sublist.nodup hI.links.line.nodup
        exact List.nodup_iff_count_le_one.mp hnodup f
      · rw [List.count_eq_zero.mpr hmem]
        exact Nat.zero_le _
    omega
  · rw [← hcalls]
    exact hI.places.count f
  · obtain hf | hf | ⟨t, hf⟩ := hf
    · exact hhead f hf
    · exact htail f hf
    · exact hI.uses_waits hf
  · obtain ⟨k, s', hexec, hout, hresult, hresumed⟩ := hI.pop_alone hquiet ht
    have hwaiting : q = s.waiting := by rw [State.waiting, hI.places.history, List.drop_left]
    refine ⟨k, s', q.head?, hexec, hout, hresult, congrArg List.head? hwaiting, hresumed, ?_⟩
    rw [List.head?_eq_none_iff, hI.places.history]
    constructor
    · rintro rfl
      exact (List.append_nil _).symm
    · intro hq
      exact List.append_right_eq_self.mp hq.symm

/-- A call links itself to the node that is being popped, and is the next to be popped. -/
theorem mcs_queue_race : ∃ s : State (Fin 3), Reach (system (Fin 3)) s ∧
    (s.pushed = [0, 1] ∧ s.popped = [0] ∧ s.head = some 1 ∧ s.pc 1 = .suspending false ∧
      s.resumed 0 = 1) ∧ Sound s ∧
    ∃ k s', exec (system (Fin 3)) s (.pop 2 :: List.replicate k (.next 2)) = some s' ∧
      s'.result 2 = some 1 ∧ s'.resumed 1 = 1 := by
  obtain ⟨s, hs, htest⟩ := reach_of_exec (system (Fin 3)) State.init
    ([.push 0, .next 0, .next 0, .next 0, .push 1, .next 1, .next 1, .pop 2, .next 2, .next 2, .next 2,
      .next 2, .next 2, .next 2, .next 2, .next 1, .next 1, .next 1, .next 2, .next 2, .next 2, .next 2,
      .next 2])
    (fun s => decide ((s.pushed = [0, 1] ∧ s.popped = [0] ∧ s.head = some 1 ∧
      s.pc 1 = .suspending false ∧ s.resumed 0 = 1) ∧ s.pc 0 = .suspending true ∧ s.pc 2 = .out))
    rfl (by decide)
  obtain ⟨hstate, hpc₀, hpc₂⟩ := of_decide_eq_true htest
  have ⟨hpushed, hpopped, _, hpc₁, _⟩ := hstate
  have hquiet : Quiet s := fun u => by
    rcases (show ∀ u : Fin 3, u = 0 ∨ u = 1 ∨ u = 2 by decide) u with rfl | rfl | rfl
    · exact .inr ⟨true, hpc₀⟩
    · exact .inr ⟨false, hpc₁⟩
    · exact .inl hpc₂
  have hsound : Sound s := mcs_queue hs
  obtain ⟨k, s', r, hexec, -, hresult, rfl, hresumed, -⟩ := hsound.pop_alone hquiet 2 hpc₂
  have hfirst : s.waiting.head? = some 1 := by rw [State.waiting, hpushed, hpopped]; rfl
  exact ⟨s, hs, hstate, hsound, k, s', hexec, hresult.trans hfirst, hresumed 1 hfirst⟩

end Results

end Libfibre.MCSQueue
