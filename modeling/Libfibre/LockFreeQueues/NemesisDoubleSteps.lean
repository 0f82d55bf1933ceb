import Libfibre.LockFreeQueues.NemesisDoubleInv

/-! Each step of `NemesisDoubleQueue` keeps the invariant. A lock section finds its element where `head` and
    the back link say, since pushers only ever append; an element leaves the line when its successor is
    known, or with the tail exchange that makes it unreachable. -/

namespace Libfibre.NemesisDoubleQueue
open Transition LinkedList Threads

variable {N T : Type} [DecidableEq T]

section Steps
variable {s s' : State N T} {l : List N} {t : T} {op : Op} {e n prev first : N} {rest : List N}

/-! ### Moving on -/

theorem Inv.popLock (h : Inv s l) (hpc : s.pc t = .popLock) (hlock : s.lock = none) :
    Inv (State.goto { s with lock := some t } t .load) l :=
  h.quiet hpc rfl ⟨rfl, rfl, rfl, rfl, rfl, rfl⟩ rfl (lock_taken hlock rfl rfl) rfl trivial

theorem Inv.load (h : Inv s l) (hpc : s.pc t = .load) :
    Inv (s.goto t (match s.head with
      | none => .leave
      | some elem => .check elem)) l := by
  cases hhead : s.head with
  | none => exact h.goto hpc rfl rfl rfl trivial
  | some e =>
    have ht : (s.pc t).locked = true := by rw [hpc]; rfl
    obtain ⟨hnone, hl⟩ := h.head_some ht (by rw [hpc]; rfl) hhead
    exact h.goto hpc rfl rfl rfl ⟨hl, h.queued ht hnone (by rw [hpc]; rfl) hl⟩

theorem Inv.leave (h : Inv s l) (hpc : s.pc t = .leave) :
    Inv (State.returns { s with lock := none } t (.popped none)) l :=
  h.quiet hpc rfl ⟨rfl, rfl, rfl, rfl, rfl, rfl⟩ rfl
    (lock_released h.turns.lock (by rw [hpc]; rfl) rfl rfl) rfl trivial

theorem Inv.casHead_fail (h : Inv s l) (hpc : s.pc t = .casHead op e) (htail : s.tail ≠ some e) :
    Inv (s.goto t (.waitHead op e)) l :=
  h.goto hpc rfl rfl rfl ⟨(h.here hpc).2, by rw [← h.links.line.last]; exact htail⟩

theorem Inv.waitHead (h : Inv s l) (hpc : s.pc t = .waitHead op e) (hn : s.next e ≠ none) :
    Inv (s.goto t (.readHead op e)) l :=
  h.goto hpc rfl rfl rfl ⟨(h.here hpc).1, hn⟩

theorem Inv.readPrev {next : Option N} (h : Inv s l) (hpc : s.pc t = .readPrev e next) :
    Inv (s.goto t (.bypass e next (s.prev e))) l := by
  obtain ⟨⟨a, ha⟩, hn⟩ := h.here hpc
  have hprev := h.prev_eq (by rw [hpc]; rfl) (by rw [hpc]; rfl) (h.owner hpc rfl) ha
  exact h.goto hpc rfl rfl rfl ⟨⟨a, hprev, ha⟩, hn⟩

theorem Inv.casTail_fail (h : Inv s l) (hpc : s.pc t = .casTail e prev) (htail : s.tail ≠ some e) :
    Inv (s.goto t (.waitTail e prev)) l := by
  rw [h.links.line.last] at htail
  exact h.goto hpc rfl rfl rfl htail

theorem Inv.unlock (h : Inv s l) (hpc : s.pc t = .unlock op e) :
    Inv (State.goto { s with lock := none } t (.clear op e)) l :=
  h.quiet hpc rfl ⟨rfl, rfl, rfl, rfl, rfl, rfl⟩ rfl
    (lock_released h.turns.lock (by rw [hpc]; rfl) rfl rfl) rfl
    (h.here (p := .unlock op e) hpc)

/-! ### Setting `head` -/

theorem Inv.setHead_none (h : Inv s l) (hpc : s.pc t = .setHead op e none) :
    Inv (State.goto { s with head := none } t (.casHead op e)) l :=
  h.walk hpc rfl ⟨rfl, rfl, rfl, rfl, rfl, rfl⟩ rfl ⟨rfl, rfl⟩ (h.alone_with hpc rfl rfl (h.here hpc))
    (fun hp => by cases hp) ⟨rfl, h.here hpc⟩

theorem Inv.setHead_some (h : Inv s l) (hpc : s.pc t = .setHead op e (some n)) :
    Inv (State.goto { s with head := some n } t (.unlock op e)) l :=
  h.walk hpc rfl ⟨rfl, rfl, rfl, rfl, rfl, rfl⟩ rfl ⟨rfl, rfl⟩
    (fun u hu => follows h.turns.leader (by rw [hpc]; rfl) hu) (fun _ => (h.here hpc).1.symm) (h.here hpc).2

theorem Inv.fixHead {next : Option N} (h : Inv s l) (hpc : s.pc t = .fixHead op e next) :
    Inv (State.goto { s with head := next } t (.unlock op e)) l := by
  obtain ⟨⟨n, rfl, hl⟩, he⟩ := h.here hpc
  exact h.walk hpc rfl ⟨rfl, rfl, rfl, rfl, rfl, rfl⟩ rfl ⟨rfl, rfl⟩
    (fun u hu => follows h.turns.leader (by rw [hpc]; rfl) hu) (fun _ => hl.symm) he

/-! ### Leaving the line -/

variable [DecidableEq N]

theorem Inv.compare (h : Inv s l) (hpc : s.pc t = .compare e) :
    Inv (s.goto t (if s.head = some e then .loadNext .remove e else .readNext e)) l := by
  have ht : (s.pc t).locked = true := by rw [hpc]; rfl
  have hlead : (s.pc t).leads = false := by rw [hpc]; rfl
  split_ifs with hhead
  · exact h.goto hpc rfl rfl rfl (h.head_some ht hlead hhead).2
  · refine h.goto hpc rfl rfl rfl ((exists_adj (h.here hpc)).resolve_left fun hl => hhead ?_)
    -- nobody else is about to set `head`
    exact (h.head_first hlead (h.alone_with hpc rfl rfl hl)).trans hl

/-- The first element leaves the line when the next one is known. -/
theorem Inv.popFirst (h : Inv s l) {p q : Pc N} (hpc : s.pc t = q) (hl : l.head? = some e)
    (hn : s.next e = some n) (hlocked : p.locked = true ∧ q.locked = true)
    (he : p.elem = some e ∧ q.elem = some e) (hlinks : p.owes = q.owes ∧ q.fixes = none)
    (hp : p.leads = true) (hhere : (l.erase e).head? = some n → e ∉ l.erase e → Local s (l.erase e) p) :
    Inv (s.goto t p) (l.erase e) := by
  have hnodup := h.links.line.nodup
  have hadj := h.links.line.adj (List.mem_of_mem_head? hl) hn
  have hline : Line s.next s.tail (fun u => (s.pc u).owes) (l.erase e) := by
    obtain ⟨m, rfl⟩ := List.head?_eq_some_iff.mp hl
    rw [List.erase_cons_head]
    exact h.links.line.pop hn
  refine h.erase hpc rfl hlocked ⟨rfl, rfl, rfl, rfl⟩ (fun _ _ => rfl) he hlinks.2
    (line_same hpc hlinks.1 hline) (fun a n hae _ => absurd hl (hae.not_first hnodup))
    (fun _ m hm => by rw [hn, hadj.right_unique hnodup hm])
    (fun _ => h.alone_with hpc hlocked.2 he.2 hl) (fun hp' _ => by rw [hp] at hp'; cases hp') (.inl rfl) ?_
  refine (hhere ?_ hnodup.not_mem_erase).mono (fun _ => rfl) (fun _ _ _ => rfl) fun _ h => h
  exact (head?_erase hnodup).mpr (.inr ⟨hl, hadj⟩)

theorem Inv.loadNext (h : Inv s l) (hpc : s.pc t = .loadNext op e) :
    ∃ l', Inv (s.goto t (.setHead op e (s.next e))) l' := by
  cases hn : s.next e with
  | none => exact ⟨l, h.goto hpc rfl rfl rfl (h.here (p := .loadNext op e) hpc)⟩
  | some n =>
    exact ⟨l.erase e, h.popFirst hpc (h.here hpc) hn ⟨rfl, rfl⟩ ⟨rfl, rfl⟩ ⟨rfl, rfl⟩ rfl
      fun hfirst hnot => ⟨hfirst, hnot⟩⟩

theorem Inv.casHead (h : Inv s l) (hpc : s.pc t = .casHead op e) (htail : s.tail = some e) :
    Inv (State.goto { s with tail := none } t (.unlock op e)) (l.erase e) := by
  obtain ⟨hhead, hl⟩ : s.head = none ∧ l.head? = some e := h.here hpc
  have hnodup := h.links.line.nodup
  have hlast : l.getLast? = some e := by rw [← h.links.line.last, htail]
  have hother := fun u (hu : u ≠ t) => follows h.turns.leader (by rw [hpc]; rfl) hu
  have hline := h.links.line
  obtain ⟨m, rfl⟩ := List.head?_eq_some_iff.mp hl
  rw [htail] at hline
  obtain rfl := hline.sole
  refine h.erase hpc rfl ⟨rfl, rfl⟩ ⟨rfl, rfl, rfl, rfl⟩ (fun _ _ => rfl) ⟨rfl, rfl⟩ rfl
    (line_same hpc rfl (by rw [List.erase_cons_head]; exact hline.clear))
    (fun a n _ hen => absurd hlast (hen.not_last hnodup)) (fun _ n hen => absurd hlast (hen.not_last hnodup))
    (fun _ => hother) (fun _ _ => ?_) (.inr hother) hnodup.not_mem_erase
  rw [List.erase_cons_head]
  exact hhead

theorem Inv.readHead (h : Inv s l) (hpc : s.pc t = .readHead op e) :
    Inv (s.goto t (.fixHead op e (s.next e))) (l.erase e) := by
  obtain ⟨hl, hne⟩ : l.head? = some e ∧ s.next e ≠ none := h.here hpc
  obtain ⟨n, hn⟩ := Option.ne_none_iff_exists'.mp hne
  rw [hn]
  exact h.popFirst hpc hl hn ⟨rfl, rfl⟩ ⟨rfl, rfl⟩ ⟨rfl, rfl⟩ rfl fun hfirst hnot => ⟨⟨n, rfl, hfirst⟩, hnot⟩

/-! ### Removing from the middle -/

/-- An element leaves the line that is not the first. -/
theorem Inv.popMiddle (h : Inv s l) {p q : Pc N} {a : N} (hpc : s.pc t = q)
    (hpc' : s'.pc = Function.update s.pc t p) (hadj : Adj l a e)
    (hlocked : p.locked = true ∧ q.locked = true)
    (hsame : s'.prev = s.prev ∧ s'.owner = s.owner ∧ s'.list = s.list ∧ s'.lock = s.lock)
    (hhead : s'.head = s.head) (hnext : ∀ n, (s.owner n).inside = false → s'.next n = s.next n)
    (he : p.elem = some e ∧ q.elem = some e) (hq' : q.fixes = none)
    (hline : Line s'.next s'.tail (Function.update (fun u => (s.pc u).owes) t p.owes) (l.erase e))
    (hfixes : ∀ n, Adj l e n → p.fixes = some n) (hleads : p.leads = false ∧ q.leads = false)
    (hhere : Local s' (l.erase e) p) : Inv s' (l.erase e) := by
  have hl := hadj.not_first h.links.line.nodup
  refine h.erase hpc hpc' hlocked hsame hnext he hq' hline (fun _ n _ => hfixes n)
    (fun hfirst => absurd hfirst hl) (fun hp => ?_) (fun _ hnone => ?_) (.inl hhead) hhere
  · rw [hleads.1] at hp
    cases hp
  · rw [hhead, h.head_first (hpc ▸ hleads.2) hnone, head?_erase_ne hl]

/-- `next` was there before the element is bypassed. -/
theorem Inv.bypass_some (h : Inv s l) {prev : Option N} (hpc : s.pc t = .bypass e (some n) prev) :
    ∃ a, prev = some a ∧ Inv (State.goto { s with next := Function.update s.next a (some n) } t
      (.back e n a)) (l.erase e) := by
  obtain ⟨⟨a, rfl, hadj⟩, hn⟩ := h.here hpc
  have hn : s.next e = some n := hn (Option.some_ne_none n)
  have hnodup := h.links.line.nodup
  have hen := h.links.line.adj hadj.right_mem hn
  have hlink := h.next_eq (t := t) (by rw [hpc]; rfl) (by rw [hpc]; rfl) (h.owner hpc rfl) hadj
  refine ⟨a, rfl, h.popMiddle hpc rfl hadj ⟨rfl, rfl⟩ ⟨rfl, rfl, rfl, rfl⟩ rfl
    (fun x hx => h.outside hadj.left_mem hx) ⟨rfl, rfl⟩ rfl
    (line_same hpc rfl (h.links.line.unlink (t := t) (by rw [hpc]; rfl) hadj hlink hn))
    (fun m hm => by rw [hen.right_unique hnodup hm]; rfl) ⟨rfl, rfl⟩ ⟨hnodup.not_mem_erase, ?_⟩⟩
  exact (adj_erase hnodup).mpr (.inr ⟨hadj, hen⟩)

theorem Inv.bypass_none (h : Inv s l) {prev : Option N} (hpc : s.pc t = .bypass e none prev) :
    ∃ a, prev = some a ∧ Inv (State.goto { s with next := Function.update s.next a none } t
      (.casTail e a)) l := by
  obtain ⟨⟨a, rfl, hadj⟩, -⟩ := h.here hpc
  have hlink := h.next_eq (t := t) (by rw [hpc]; rfl) (by rw [hpc]; rfl) (h.owner hpc rfl) hadj
  refine ⟨a, rfl, h.relink hpc rfl ⟨rfl, rfl⟩ ⟨rfl, rfl, rfl, rfl⟩
    (fun x hx => ⟨h.outside hadj.left_mem hx, rfl⟩) rfl ⟨rfl, rfl⟩
    (links_move rfl ?_ fun x y hxy => ?_) trivial⟩
  · exact h.links.line.cut (t := t) (by rw [hpc]; rfl) hadj hlink
  · exact (h.links.back_of hxy (by rw [hpc]; exact fun hy => by cases hy)).imp_right .inr

theorem Inv.back (h : Inv s l) (hpc : s.pc t = .back e n prev) :
    Inv (State.goto { s with prev := Function.update s.prev n (some prev) } t (.unlock .remove e)) l := by
  obtain ⟨he, hadj⟩ := h.here hpc
  exact h.relink hpc rfl ⟨rfl, rfl⟩ ⟨rfl, rfl, rfl, rfl⟩
    (fun x hx => ⟨rfl, h.outside hadj.right_mem hx⟩) rfl ⟨rfl, rfl⟩
    (h.links.backlink rfl hadj ⟨rfl, rfl⟩ rfl (by rw [hpc]; rfl) (by rw [hpc]; rfl)) he

/-- The element is still the last one: the tail swings back. -/
theorem Inv.casTail (h : Inv s l) (hpc : s.pc t = .casTail e prev) (htail : s.tail = some e) :
    Inv (State.goto { s with tail := some prev } t (.unlock .remove e)) (l.erase e) := by
  have hnodup := h.links.line.nodup
  have hline := h.links.line
  rw [htail] at hline
  exact h.popMiddle hpc rfl (h.owed hpc rfl).1 ⟨rfl, rfl⟩ ⟨rfl, rfl, rfl, rfl⟩ rfl (fun _ _ => rfl)
    ⟨rfl, rfl⟩ rfl (hline.retreat (by rw [hpc]; rfl))
    (fun m hm => absurd hline.last.symm (hm.not_last hnodup)) ⟨rfl, rfl⟩ hnodup.not_mem_erase

/-- Somebody has pushed behind the element. -/
theorem Inv.readTail (h : Inv s l) (hpc : s.pc t = .readTail e prev) :
    Inv (s.goto t (.backTail e (s.next e) prev)) (l.erase e) := by
  have hnodup := h.links.line.nodup
  obtain ⟨n, hn⟩ := Option.ne_none_iff_exists'.mp (h.here hpc)
  obtain ⟨hadj, -⟩ := h.owed hpc rfl
  have hen := h.links.line.adj hadj.right_mem hn
  rw [hn]
  exact h.popMiddle hpc rfl hadj ⟨rfl, rfl⟩ ⟨rfl, rfl, rfl, rfl⟩ rfl (fun _ _ => rfl) ⟨rfl, rfl⟩ rfl
    (h.links.line.skip (by rw [hpc]; rfl) hn) (fun m hm => by rw [hen.right_unique hnodup hm]; rfl)
    ⟨rfl, rfl⟩ ⟨hnodup.not_mem_erase, Option.some_ne_none n⟩

theorem Inv.backTail {next : Option N} (h : Inv s l) (hpc : s.pc t = .backTail e next prev) :
    ∃ n, next = some n ∧ Inv (State.goto { s with prev := Function.update s.prev n (some prev) } t
      (.linkTail e n prev)) l := by
  obtain ⟨he, hne⟩ := h.here hpc
  obtain ⟨n, rfl⟩ := Option.ne_none_iff_exists'.mp hne
  obtain ⟨hadj, -⟩ := h.owed hpc rfl
  exact ⟨n, rfl, h.relink hpc rfl ⟨rfl, rfl⟩ ⟨rfl, rfl, rfl, rfl⟩
    (fun x hx => ⟨rfl, h.outside hadj.right_mem hx⟩) rfl ⟨rfl, rfl⟩
    (h.links.backlink rfl hadj ⟨rfl, rfl⟩ rfl (by rw [hpc]; rfl) (by rw [hpc]; rfl)) he⟩

theorem Inv.linkTail (h : Inv s l) (hpc : s.pc t = .linkTail e n prev) :
    Inv (State.goto { s with next := Function.update s.next prev (some n) } t (.unlock .remove e)) l := by
  obtain ⟨hadj, -⟩ := h.owed hpc rfl
  exact h.relink hpc rfl ⟨rfl, rfl⟩ ⟨rfl, rfl, rfl, rfl⟩
    (fun x hx => ⟨h.outside hadj.left_mem hx, rfl⟩) rfl ⟨rfl, rfl⟩
    (h.links.forelink rfl (by rw [hpc]; rfl) ⟨rfl, rfl⟩ rfl rfl (by rw [hpc]; rfl))
    (h.here (p := .linkTail e n prev) hpc)

/-! ### Taking and giving back -/

/-- A queued element is taken. -/
theorem Inv.take (h : Inv s l) {p q : Pc N} (hpc : s.pc t = q) (hpc' : s'.pc = Function.update s.pc t p)
    (hqueued : s.owner e = .queued)
    (hsame : s'.next = s.next ∧ s'.prev = s.prev ∧ s'.tail = s.tail ∧ s'.head = s.head)
    (howner : s'.owner = Function.update s.owner e (.taking t)) (hlist : s'.list = s.list.erase e)
    (hlock : (∀ u, u ≠ t → (s'.lock = some u ↔ s.lock = some u)) ∧
      (p.locked = true ↔ s'.lock = some t))
    (hunlocked : ∀ u, u ≠ t → (s.pc u).locked = false)
    (hhand : q.hand = (none, none, none, [], none) ∧ p.hand = (none, none, some e, [], none))
    (hlead : p.leads = false ∧ q.leads = false) (hhere : Local s' l p) : Inv s' l := by
  obtain ⟨hnext, hprev, htail, hhead⟩ := hsame
  obtain ⟨hq, hp⟩ := hhand
  simp only [Pc.hand, Prod.mk.injEq] at hq hp
  subst hpc
  have hnodup := h.links.line.nodup
  rw [updateAll_singleton] at howner
  have hin : s'.owner e = .taking t := by rw [howner, updateAll_mem (List.mem_singleton_self e)]
  have hout : ∀ {n}, n ≠ e → s'.owner n = s.owner n := fun hn => by
    rw [howner, updateAll_other fun hmem => hn (List.mem_singleton.mp hmem)]
  have hlinking : ∀ n u, s'.owner n = .linking u → s.owner n = .linking u := fun n u hn => by
    rcases eq_or_ne n e with rfl | hne
    · rw [hin] at hn
      cases hn
    · rwa [hout hne] at hn
  refine ⟨h.links.walk hpc' ⟨hnext, hprev, htail⟩ ⟨hp.1.trans hq.1.symm, hp.2.1.trans hq.2.1.symm⟩, ?_,
    h.turns.move hpc' hlock (fun hp => by rw [hlead.1] at hp; cases hp)
      (fun _ hnone => hhead.trans (h.head_first hlead.2 hnone))
      (fun n hn => ⟨fun hn' => ?_, fun u _ hn' => h.turns.first n u hn (hlinking n u hn')⟩)
      ⟨hhere, fun u hu => ?_⟩⟩
  · refine h.owners.handover (v := .queued) hpc' howner (fun n hn => ?_) (fun u hu => ?_) ?_
      ⟨fun n hn => hn, fun n hn => .inl hn⟩ (fun n _ => ?_)
      (fun n _ _ => by rw [hnext, hprev]; exact ⟨rfl, rfl⟩)
      (fun n => ?_) (fun n => ?_) (fun k hk => ?_) (fun a b hab => ?_) fun a b hab => hab
    · rwa [List.mem_singleton.mp hn]
    · refine ⟨by simp, fun htu => hu ?_, by simp⟩
      exact (Owner.taking.inj htu).symm
    · rw [hlist, h.owners.content, (hnodup.filter _).erase_eq_filter, List.filter_filter]
      refine List.filter_congr fun n _ => ?_
      rcases eq_or_ne n e with rfl | hne
      · simp [hin, Owner.listed]
      · simp [hout hne, hne]
    · exact ⟨fun hw => (by cases hw), fun _ => rfl, fun hw => (by cases hw)⟩
    · rw [hp.2.2.1, hq.2.2.1]
      refine ⟨fun hn => iff_of_true rfl (by rw [List.mem_singleton.mp hn]), fun hn => ?_⟩
      refine iff_of_false (fun hn' => by cases hn') fun hn' => hn ?_
      exact List.mem_singleton.mpr (Option.some.inj hn').symm
    · rw [hp.2.2.2.1, hq.2.2.2.1]
      exact ⟨fun _ => iff_of_false (fun hw => by cases hw) List.not_mem_nil, fun _ => Iff.rfl⟩
    · rw [hp.2.2.2.2] at hk
      cases hk
    · rw [hp.2.2.2.1] at hab
      exact (adj_nil hab).elim
  · have := h.turns.first n t hn (hlinking n t hn')
    rw [hlead.2] at this
    cases this
  · exact (h.turns.here u).shrink (hunlocked u hu) (fun _ => hhead) (fun n _ hn => hn) fun n hn => hn

theorem Inv.accept (h : Inv s l) (hpc : s.pc t = .check e) :
    Inv (s.take t e (.loadNext .pop e)) l := by
  obtain ⟨hl, hqueued⟩ := h.here hpc
  exact h.take hpc rfl hqueued ⟨rfl, rfl, rfl, rfl⟩ rfl rfl (lock_same h.turns.lock rfl (by rw [hpc]; rfl))
    (fun u hu => unlocked h.turns.lock (by rw [hpc]; rfl) hu) ⟨rfl, rfl⟩ ⟨rfl, rfl⟩ hl

theorem Inv.removeLock (h : Inv s l) (hpc : s.pc t = .removeLock e) (hlock : s.lock = none)
    (hqueued : s.owner e = .queued) :
    Inv (State.take { s with lock := some t } t e (.compare e)) l := by
  refine h.take hpc rfl hqueued ⟨rfl, rfl, rfl, rfl⟩ rfl rfl (lock_taken hlock rfl rfl) (fun u hu => ?_)
    ⟨rfl, rfl⟩ ⟨rfl, rfl⟩ (h.owners.listed e (by rw [hqueued]; rfl))
  by_contra hlocked
  have := (h.turns.lock u).mp (by simpa using hlocked)
  rw [hlock] at this
  cases this

theorem Inv.clear (h : Inv s l) (hpc : s.pc t = .clear op e) :
    Inv (State.returns { s with
      next := Function.update s.next e none
      owner := Function.update s.owner e .free } t (op.result e)) l := by
  have he : e ∉ l := h.here (p := .clear op e) hpc
  have htaking := h.owner hpc rfl
  have hne : ∀ {n}, n ∈ l → n ≠ e := by
    rintro n hn rfl
    exact he hn
  have hin : Function.update s.owner e .free e = .free := Function.update_self ..
  have hout : ∀ {n}, n ≠ e → Function.update s.owner e .free n = s.owner n := fun hn =>
    Function.update_of_ne hn ..
  have hnext : ∀ {n}, n ≠ e → Function.update s.next e none n = s.next n := fun hn =>
    Function.update_of_ne hn ..
  refine ⟨links_move rfl ?_ fun a b hab => ?_, ?_,
    h.turns.quiet rfl (lock_same h.turns.lock rfl (by rw [hpc]; rfl)) rfl
    (by rw [hpc]; rfl) (fun n u hn => ?_) (fun n hn => ?_) (fun u n hu hn _ => hnext ?_) trivial⟩
  · exact line_same hpc rfl (h.links.line.congr fun a ha => hnext (hne ha))
  · exact (h.links.back_of hab (by rw [hpc]; exact fun hb => by cases hb)).imp_right .inr
  · refine h.owners.handover rfl updateAll_singleton (v := .taking t) (fun n hn => ?_) (fun u hu => ?_) ?_
      ⟨fun n hn => hn, fun n hn => .inl hn⟩ (fun n hn => ?_) (fun n hn _ => ⟨hnext ?_, rfl⟩) (fun n => ?_)
      (fun n => ?_) (fun k hk => by cases hk) (fun a b hab => (adj_nil hab).elim) fun a b hab => hab
    · rwa [List.mem_singleton.mp hn]
    · exact ⟨⟨fun htu => hu (Owner.taking.inj htu).symm, by simp, by simp⟩, by simp, by simp⟩
    · refine h.owners.content.trans (List.filter_congr fun n hn => ?_)
      exact congrArg Owner.listed (hout (hne hn)).symm
    · obtain rfl := List.mem_singleton.mp hn
      exact ⟨fun hw => (by cases hw), fun hn => absurd hn he, fun _ => Function.update_self ..⟩
    · exact fun hne => hn (List.mem_singleton.mpr hne)
    · rw [hpc]
      refine ⟨fun _ => iff_of_false (fun hw => by cases hw) fun hw => (by cases hw), fun hn => ?_⟩
      refine iff_of_false (fun hw => hn ?_) fun hw => by cases hw
      exact List.mem_singleton.mpr (Option.some.inj hw).symm
    · rw [hpc]
      exact ⟨fun _ => iff_of_false (fun hw => by cases hw) List.not_mem_nil, fun _ => Iff.rfl⟩
  · rcases eq_or_ne n e with rfl | hne
    · cases hin.symm.trans hn
    · exact (hout hne).symm.trans hn
  · refine (hout ?_).trans hn
    rintro rfl
    rw [htaking] at hn
    cases hn
  · rintro rfl
    have := (h.owners.taking n u).mpr hn
    rw [htaking] at this
    exact hu (Owner.taking.inj this).symm

/-! ### Pushing -/

theorem Inv.push (h : Inv s l) (hpc : s.pc t = .out) (hnodup : (first :: rest).Nodup)
    (hfree : ∀ n ∈ first :: rest, s.owner n = .free) :
    Inv (State.goto { s with
      next := prelink s.next (first :: rest)
      prev := prelink s.prev (first :: rest).reverse
      owner := updateAll s.owner (first :: rest) (.pushing t) } t (.swing first rest)) l := by
  generalize hk : first :: rest = k at *
  have hrev : k.reverse.Nodup := List.nodup_reverse.mpr hnodup
  have hnext : ∀ {n}, n ∉ k → prelink s.next k n = s.next n := fun hn => prelink_other s.next hn
  have hprev : ∀ {n}, n ∉ k → prelink s.prev k.reverse n = s.prev n := fun hn =>
    prelink_other s.prev fun hmem => hn (List.mem_reverse.mp hmem)
  have hl : ∀ {n}, n ∈ l → n ∉ k := fun hn hmem => by
    have := h.owners.inside _ hn
    rw [hfree _ hmem] at this
    cases this
  have hkeep : ∀ {n v}, v ≠ .free → s.owner n = v → n ∉ k := fun hv hn hmem =>
    hv (hn.symm.trans (hfree _ hmem))
  refine ⟨links_move rfl ?_ fun a b hab => ?_, ?_,
    h.turns.quiet rfl (lock_same h.turns.lock rfl (by rw [hpc]; rfl)) rfl
    (by rw [hpc]; rfl) (fun n u hn => ?_) (fun n hn => ?_) (fun u n hu hn _ => hnext ?_) trivial⟩
  · exact line_same hpc rfl (h.links.line.congr fun a ha => hnext (hl ha))
  · refine (h.links.back_of hab (by rw [hpc]; exact fun hb => by cases hb)).imp (fun hb => ?_) .inr
    exact (hprev (hl hab.right_mem)).trans hb
  · refine h.owners.handover rfl rfl hfree (fun u hu => ?_) ?_ ⟨fun n hn => hn, fun n hn => .inl hn⟩
      (fun n hn => ?_) (fun n hn _ => ⟨hnext hn, hprev hn⟩) (fun n => ?_) (fun n => ?_) (fun k' hk' => ?_)
      (fun a b hab => (adj_nil hab).elim) fun a b hab => hab
    · exact ⟨⟨by simp, by simp, by simp⟩, by simp, by simp⟩
    · refine h.owners.content.trans (List.filter_congr fun n hn => ?_)
      exact congrArg Owner.listed (updateAll_other (hl hn)).symm
    · exact ⟨fun hw => (by cases hw), fun hn' => absurd hn (hl hn'), fun hw => (by cases hw)⟩
    · rw [hpc]
      exact ⟨fun _ => iff_of_false (fun hw => by cases hw) fun hw => (by cases hw), fun _ => Iff.rfl⟩
    · rw [hpc]
      exact ⟨fun _ => iff_of_false (fun hw => by cases hw) List.not_mem_nil, fun _ => Iff.rfl⟩
    · obtain rfl : k = k' := hk.symm.trans (Option.some.inj hk')
      refine ⟨hnodup, fun n hn => updateAll_mem hn, fun a b hab => prelink_adj s.next hnodup hab,
        fun a b hab => prelink_adj s.prev hrev (adj_reverse.mpr hab), fun z hz => ?_⟩
      exact (prelink_last s.next hnodup hz).trans
        (h.owners.free z (hfree z (List.mem_of_getLast? hz)))
  · exact (of_updateAll hn nofun).2
  · exact (updateAll_other (hkeep (by simp) hn)).trans hn
  · exact hkeep (by simp) ((h.owners.taking n u).mpr hn)

omit [DecidableEq N] [DecidableEq T] in
theorem Inv.segment_fresh (h : Inv s l) {k : List N} (hk : Segment s t k) : ∀ n ∈ k, n ∉ l := by
  intro n hn hl
  have := h.owners.inside n hl
  rw [hk.owned n hn] at this
  cases this

/-- The segment is in the list from the tail exchange on. -/
theorem Inv.swing_owners (h : Inv s l) {p q : Pc N} {k : List N} (hpc : s.pc t = q)
    (hpc' : s'.pc = Function.update s.pc t p) (hk : Segment s t k)
    (hsame : s'.next = s.next ∧ s'.prev = s.prev)
    (howner : s'.owner = updateAll s.owner k (.linking t)) (hlist : s'.list = s.list ++ k)
    (hq : q.elem = none ∧ q.puts = []) (hp : p.elem = none ∧ p.puts = k ∧ p.pushes = none) :
    Owners s' (l ++ k) := by
  have hfresh := h.segment_fresh hk
  refine h.owners.handover hpc' howner hk.owned (fun u hu => ?_) ?_
    ⟨fun n hn => List.mem_append_left k hn, fun n hn => List.mem_append.mp hn⟩ (fun n hn => ?_)
    (fun n _ _ => by rw [hsame.1, hsame.2]; exact ⟨rfl, rfl⟩) (fun n => ?_) (fun n => ?_) (fun k' hk' => ?_)
    (fun a b hab => ?_) fun a b hab => adj_append.mpr (.inl hab)
  · refine ⟨⟨by simp, by simp, fun htu => hu (Owner.pushing.inj htu).symm⟩, by simp, fun htu => hu ?_⟩
    exact (Owner.linking.inj htu).symm
  · rw [hlist, h.owners.content, List.filter_append, howner]
    refine congrArg₂ (· ++ ·) (List.filter_congr fun n hn => ?_) (List.filter_eq_self.mpr fun n hn => ?_).symm
    · rw [updateAll_other fun hmem => hfresh n hmem hn]
    · rw [updateAll_mem hn]
      rfl
  · exact ⟨fun _ => List.mem_append_right l hn, fun _ => rfl, fun hw => (by cases hw)⟩
  · rw [hpc, hq.1, hp.1]
    exact ⟨fun _ => iff_of_false (fun hw => by cases hw) fun hw => (by cases hw), fun _ => Iff.rfl⟩
  · rw [hpc, hq.2, hp.2.1]
    exact ⟨fun hn => iff_of_true rfl hn, fun hn => iff_of_false List.not_mem_nil hn⟩
  · rw [hp.2.2] at hk'
    cases hk'
  · rw [hp.2.1] at hab
    exact adj_append.mpr (.inr (.inr hab))

/-- What the others find after the tail exchange. -/
theorem Inv.swing_others (h : Inv s l) {k : List N} (hk : Segment s t k) {tail : Option N} {list : List N}
    {p : Pc N} (u : T) : Local (State.goto { s with
      tail := tail
      owner := updateAll s.owner k (.linking t)
      list := list } t p) (l ++ k) (s.pc u) := by
  refine (h.turns.here u).grow (fun _ => rfl) (fun _ _ _ => rfl) (fun n hn => ?_) fun n hn hmem => ?_
  · refine (updateAll_other fun hmem => ?_).trans hn
    rw [hk.owned n hmem] at hn
    cases hn
  · have := (h.owners.taking n u).mpr hn
    rw [hk.owned n hmem] at this
    cases this

/-- The queue was empty. -/
theorem Inv.swing_none (h : Inv s l) (hpc : s.pc t = .swing first rest) (htail : s.tail = none) :
    Inv (State.goto { s with
      tail := (first :: rest).getLast?
      owner := updateAll s.owner (first :: rest) (.linking t)
      list := s.list ++ first :: rest } t (.putHead first rest)) (l ++ first :: rest) := by
  have hk := h.owners.segment t (first :: rest) (by rw [hpc]; rfl)
  have hline := h.links.line
  rw [htail] at hline
  obtain rfl := hline.eq_nil
  have hothers : ∀ u, (s.pc u).leads = false := fun u => by
    by_contra hlead
    exact (h.turns.here u).line_ne (by simpa using hlead) rfl
  refine ⟨links_move rfl ?_ fun a b hab => .inl (hk.backs a b hab),
    h.swing_owners hpc rfl hk ⟨rfl, rfl⟩ rfl rfl ⟨rfl, rfl⟩ ⟨rfl, rfl, rfl⟩,
    h.turns.move rfl (lock_same h.turns.lock rfl (by rw [hpc]; rfl)) (fun _ u _ => hothers u)
      (fun hp => by cases hp) (fun n hn => ⟨fun _ => rfl, fun u hu hn' => ?_⟩)
      ⟨⟨h.turns.head hothers, rfl⟩, fun u _ => h.swing_others hk u⟩⟩
  · exact line_same hpc rfl (hline.start hk.nodup hk.links hk.ends)
  · have hlinking : updateAll s.owner (first :: rest) (.linking t) n = .linking t :=
      updateAll_mem (List.mem_of_mem_head? hn)
    exact absurd (Owner.linking.inj (hn'.symm.trans hlinking)) hu

/-- The queue ended with `prev`. -/
theorem Inv.swing_some (h : Inv s l) (hpc : s.pc t = .swing first rest) (htail : s.tail = some prev) :
    Inv (State.goto { s with
      tail := (first :: rest).getLast?
      owner := updateAll s.owner (first :: rest) (.linking t)
      list := s.list ++ first :: rest } t (.putPrev prev first rest)) (l ++ first :: rest) := by
  have hk := h.owners.segment t (first :: rest) (by rw [hpc]; rfl)
  have hfresh := h.segment_fresh hk
  have hline := h.links.line
  rw [htail] at hline
  have hne : l ≠ [] := by
    rintro rfl
    cases hline.last
  have hfirst : (l ++ first :: rest).head? = l.head? := List.head?_append_of_ne_nil l hne
  have hold : ∀ {n u}, l.head? = some n →
      updateAll s.owner (first :: rest) (.linking t) n = .linking u → s.owner n = .linking u := by
    intro n u hn hn'
    rwa [updateAll_other fun hmem => hfresh n hmem (List.mem_of_mem_head? hn)] at hn'
  refine ⟨links_move rfl ?_ fun a b hab => ?_,
    h.swing_owners hpc rfl hk ⟨rfl, rfl⟩ rfl rfl ⟨rfl, rfl⟩ ⟨rfl, rfl, rfl⟩,
    h.turns.move rfl (lock_same h.turns.lock rfl (by rw [hpc]; rfl)) (fun hp => by cases hp)
      (fun _ hnone => (h.head_first (t := t) (by rw [hpc]; rfl) hnone).trans hfirst.symm)
      (fun n hn => ⟨fun hn' => ?_, fun u _ hn' => ?_⟩)
      ⟨trivial, fun u _ => h.swing_others hk u⟩⟩
  · exact hline.append (by rw [hpc]; rfl) rfl hk.nodup hfresh hk.links hk.ends
  · rcases adj_append.mp hab with hab | ⟨-, hb⟩ | hab
    · exact (h.links.back_of hab (by rw [hpc]; exact fun hb => by cases hb)).imp_right .inr
    · exact .inr (.inl hb)
    · exact .inl (hk.backs a b hab)
  · have hn := hfirst.symm.trans hn
    have := h.turns.first n t hn (hold hn hn')
    rw [hpc] at this
    cases this
  · have hn := hfirst.symm.trans hn
    exact h.turns.first n u hn (hold hn hn')

theorem Inv.putPrev (h : Inv s l) (hpc : s.pc t = .putPrev prev first rest) :
    Inv (State.goto { s with prev := Function.update s.prev first (some prev) } t
      (.putNext prev first rest)) l := by
  obtain ⟨hadj, -⟩ := h.owed hpc rfl
  exact ⟨h.links.backlink rfl hadj ⟨rfl, rfl⟩ rfl (by rw [hpc]; rfl) (by rw [hpc]; rfl),
    h.owners.keep rfl ⟨rfl, rfl⟩ (fun x hx => ⟨rfl, h.outside hadj.right_mem hx⟩)
      (by rw [hpc]; exact ⟨rfl, rfl, rfl⟩),
    h.turns.quiet rfl (lock_same h.turns.lock rfl (by rw [hpc]; rfl)) rfl (by rw [hpc]; rfl)
      (fun _ _ hn => hn)
      (fun _ hn => hn) (fun _ _ _ _ _ => rfl) trivial⟩

/-- A push is over. -/
theorem Inv.push_owners (h : Inv s l) {q : Pc N} {k : List N} (hpc : s.pc t = q)
    (hpc' : s'.pc = Function.update s.pc t .out) (hq : q.elem = none ∧ q.puts = k)
    (houtside : ∀ n, (s.owner n).inside = false → s'.next n = s.next n ∧ s'.prev n = s.prev n)
    (howner : s'.owner = updateAll s.owner k .queued) (hlist : s'.list = s.list) : Owners s' l := by
  have hk : ∀ n ∈ k, s.owner n = .linking t := fun n hn =>
    (h.owners.linking n t).mpr (by rw [hpc, hq.2]; exact hn)
  have hl : ∀ n ∈ k, n ∈ l := fun n hn => h.owners.listed n (by rw [hk n hn]; rfl)
  refine h.owners.handover hpc' howner hk (fun u hu => ?_) ?_ ⟨fun n hn => hn, fun n hn => .inl hn⟩
    (fun n hn => ?_) (fun n _ => houtside n) (fun n => ?_) (fun n => ?_) (fun k' hk' => by cases hk')
    (fun a b hab => (adj_nil hab).elim) fun a b hab => hab
  · exact ⟨⟨by simp, fun htu => hu (Owner.linking.inj htu).symm, by simp⟩, by simp, by simp⟩
  · rw [hlist, h.owners.content]
    refine List.filter_congr fun n _ => ?_
    rw [howner]
    by_cases hn : n ∈ k
    · rw [updateAll_mem hn, hk n hn]
      rfl
    · rw [updateAll_other hn]
  · exact ⟨fun _ => hl n hn, fun _ => rfl, fun hw => (by cases hw)⟩
  · rw [hpc, hq.1]
    exact ⟨fun _ => iff_of_false (fun hw => by cases hw) fun hw => (by cases hw), fun _ => Iff.rfl⟩
  · rw [hpc, hq.2]
    exact ⟨fun _ => iff_of_false (fun hw => by cases hw) List.not_mem_nil,
      fun hn => iff_of_false hn List.not_mem_nil⟩

theorem Inv.putHead (h : Inv s l) (hpc : s.pc t = .putHead first rest) :
    Inv (State.returnPush { s with head := some first } t (first :: rest) true) l := by
  obtain ⟨-, hl⟩ := h.here hpc
  have hother := fun u (hu : u ≠ t) => follows h.turns.leader (by rw [hpc]; rfl) hu
  refine ⟨h.links.walk rfl ⟨rfl, rfl, rfl⟩ (by rw [hpc]; exact ⟨rfl, rfl⟩),
    h.push_owners hpc rfl ⟨rfl, rfl⟩ (fun _ _ => ⟨rfl, rfl⟩) rfl rfl,
    h.turns.move rfl (lock_same h.turns.lock rfl (by rw [hpc]; rfl)) (fun hp => by cases hp)
      (fun _ _ => hl.symm)
      (fun n hn => ?_) ⟨trivial, fun u hu => (h.turns.here u).mono (fun hlead => ?_) (fun _ _ _ => rfl)
        fun n hn => updateAll_iff.mpr (.inl hn)⟩⟩
  · have hnew : ∀ u, (State.returnPush { s with head := some first } t (first :: rest) true).owner n ≠
        .linking u := fun u hu => by
      obtain rfl := Option.some.inj (hl.symm.trans hn)
      exact (of_updateAll hu nofun).1 (List.mem_cons_self ..)
    exact ⟨fun hn' => absurd hn' (hnew t), fun u _ hn' => absurd hn' (hnew u)⟩
  · rw [hother u hu] at hlead
    cases hlead

theorem Inv.putNext (h : Inv s l) (hpc : s.pc t = .putNext prev first rest) :
    Inv (State.returnPush { s with next := Function.update s.next prev (some first) } t
      (first :: rest) false) l := by
  obtain ⟨hadj, hnull⟩ := h.owed hpc rfl
  refine ⟨h.links.forelink rfl (by rw [hpc]; rfl) ⟨rfl, rfl⟩ rfl rfl (by rw [hpc]; rfl),
    h.push_owners hpc rfl ⟨rfl, rfl⟩ (fun x hx => ⟨h.outside hadj.left_mem hx, rfl⟩) rfl rfl,
    h.turns.quiet rfl (lock_same h.turns.lock rfl (by rw [hpc]; rfl)) rfl (by rw [hpc]; rfl)
      (fun n u hn => (of_updateAll hn nofun).2) (fun n hn => updateAll_iff.mpr (.inl hn))
      (fun u e _ _ he => ?_) trivial⟩
  refine Function.update_of_ne ?_ ..
  rintro rfl
  exact he hnull

/-! ### Any step -/

theorem Inv.next (h : Inv s l) (hs : NemesisDoubleQueue.next s t = some s') : ∃ l', Inv s' l' := by
  unfold NemesisDoubleQueue.next at hs
  split at hs
  case h_1 | h_2 => cases hs
  case h_3 hpc =>
    obtain rfl := Option.some.inj hs
    cases htail : s.tail with
    | none => exact ⟨_, h.swing_none hpc htail⟩
    | some prev => exact ⟨_, h.swing_some hpc htail⟩
  case h_4 hpc =>
    obtain rfl := Option.some.inj hs
    exact ⟨l, h.putHead hpc⟩
  case h_5 hpc =>
    obtain rfl := Option.some.inj hs
    exact ⟨l, h.putPrev hpc⟩
  case h_6 hpc =>
    obtain rfl := Option.some.inj hs
    exact ⟨l, h.putNext hpc⟩
  case h_7 hpc =>
    obtain ⟨hlock, hs⟩ := Option.ite_none_right_eq_some.mp hs
    obtain rfl := Option.some.inj hs
    exact ⟨l, h.popLock hpc hlock⟩
  case h_8 hpc =>
    obtain rfl := Option.some.inj hs
    exact ⟨l, h.load hpc⟩
  case h_9 hpc =>
    obtain rfl := Option.some.inj hs
    exact ⟨l, h.leave hpc⟩
  case h_10 hpc =>
    obtain ⟨⟨hlock, hqueued⟩, hs⟩ := Option.ite_none_right_eq_some.mp hs
    obtain rfl := Option.some.inj hs
    exact ⟨l, h.removeLock hpc hlock hqueued⟩
  case h_11 hpc =>
    obtain rfl := Option.some.inj hs
    exact ⟨l, h.compare hpc⟩
  case h_12 hpc =>
    obtain rfl := Option.some.inj hs
    exact h.loadNext hpc
  case h_13 op e next hpc =>
    obtain rfl := Option.some.inj hs
    cases next with
    | none => exact ⟨l, h.setHead_none hpc⟩
    | some n => exact ⟨l, h.setHead_some hpc⟩
  case h_14 hpc =>
    split_ifs at hs with htail <;> obtain rfl := Option.some.inj hs
    · exact ⟨_, h.casHead hpc htail⟩
    · exact ⟨l, h.casHead_fail hpc htail⟩
  case h_15 hpc =>
    obtain rfl := Option.some.inj hs
    split_ifs with hn
    · exact ⟨l, h⟩
    · exact ⟨l, h.waitHead hpc hn⟩
  case h_16 hpc =>
    obtain rfl := Option.some.inj hs
    exact ⟨_, h.readHead hpc⟩
  case h_17 hpc =>
    obtain rfl := Option.some.inj hs
    exact ⟨l, h.fixHead hpc⟩
  case h_18 hpc =>
    obtain rfl := Option.some.inj hs
    exact ⟨l, h.goto hpc rfl rfl rfl ⟨h.here hpc, fun _ => rfl⟩⟩
  case h_19 hpc =>
    obtain rfl := Option.some.inj hs
    exact ⟨l, h.readPrev hpc⟩
  case h_20 => cases hs
  case h_21 e next prev hpc =>
    obtain rfl := Option.some.inj hs
    cases next with
    | none =>
      obtain ⟨a, ha, hI⟩ := h.bypass_none hpc
      obtain rfl := Option.some.inj ha
      exact ⟨l, hI⟩
    | some n =>
      obtain ⟨a, ha, hI⟩ := h.bypass_some hpc
      obtain rfl := Option.some.inj ha
      exact ⟨_, hI⟩
  case h_22 hpc =>
    obtain rfl := Option.some.inj hs
    exact ⟨l, h.back hpc⟩
  case h_23 hpc =>
    split_ifs at hs with htail <;> obtain rfl := Option.some.inj hs
    · exact ⟨_, h.casTail hpc htail⟩
    · exact ⟨l, h.casTail_fail hpc htail⟩
  case h_24 hpc =>
    obtain rfl := Option.some.inj hs
    split_ifs with hn
    · exact ⟨l, h⟩
    · exact ⟨l, h.goto hpc rfl rfl rfl hn⟩
  case h_25 hpc =>
    obtain rfl := Option.some.inj hs
    exact ⟨_, h.readTail hpc⟩
  case h_26 => cases hs
  case h_27 hpc =>
    obtain rfl := Option.some.inj hs
    obtain ⟨n, hn, hI⟩ := h.backTail hpc
    obtain rfl := Option.some.inj hn
    exact ⟨l, hI⟩
  case h_28 hpc =>
    obtain rfl := Option.some.inj hs
    exact ⟨l, h.linkTail hpc⟩
  case h_29 hpc =>
    obtain rfl := Option.some.inj hs
    exact ⟨l, h.unlock hpc⟩
  case h_30 hpc =>
    obtain rfl := Option.some.inj hs
    exact ⟨l, h.clear hpc⟩

theorem Inv.step {a : Action N T} (h : Inv s l) (hs : NemesisDoubleQueue.step s a = some s') :
    ∃ l', Inv s' l' := by
  cases a with
  | push t first rest =>
    obtain ⟨⟨hpc, hnodup, hfree⟩, hs⟩ := Option.ite_none_right_eq_some.mp hs
    obtain rfl := Option.some.inj hs
    exact ⟨l, h.push hpc hnodup hfree⟩
  | pop t =>
    obtain ⟨hpc, hs⟩ := Option.ite_none_right_eq_some.mp hs
    obtain rfl := Option.some.inj hs
    exact ⟨l, h.goto hpc rfl rfl rfl trivial⟩
  | remove t e =>
    obtain ⟨hpc, hs⟩ := Option.ite_none_right_eq_some.mp hs
    obtain rfl := Option.some.inj hs
    exact ⟨l, h.goto hpc rfl rfl rfl trivial⟩
  | check t accept =>
    rw [NemesisDoubleQueue.step] at hs
    split at hs
    case h_1 e hpc =>
      obtain rfl := Option.some.inj hs
      cases accept with
      | true => exact ⟨l, h.accept hpc⟩
      | false => exact ⟨l, h.goto hpc rfl rfl rfl trivial⟩
    case h_2 => cases hs
  | next t => exact h.next hs

omit [DecidableEq N] [DecidableEq T] in
theorem Inv.init : Inv (State.init : State N T) [] where
  links := ⟨Line.nil, fun a b hab => (adj_nil hab).elim⟩
  owners := ⟨rfl, fun n hn => (by cases hn), fun n hn => (by cases hn), fun n _ => rfl,
    fun n t => iff_of_false (fun hn => by cases hn) fun hn => (by cases hn),
    fun n t => iff_of_false (fun hn => by cases hn) List.not_mem_nil, fun t k hk => (by cases hk),
    fun t a b hab => hab⟩
  turns := ⟨fun t => iff_of_false Bool.false_ne_true fun ht => (by cases ht), fun t u ht => (by cases ht),
    fun _ => rfl, fun n t hn => (by cases hn), fun t => trivial⟩

theorem inv_reach (h : Reach (system N T) s) : ∃ l, Inv s l := by
  refine h.inv (I := fun s => ∃ l, Inv s l) (fun s hs => ?_) fun s a s' ⟨l, hI⟩ hs => hI.step hs
  obtain rfl := hs
  exact ⟨[], .init⟩

end Steps

end Libfibre.NemesisDoubleQueue
