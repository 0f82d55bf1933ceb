import Mathlib.Tactic.SplitIfs
import Libfibre.Schemes.Threads
import Libfibre.LockFreeQueues.NemesisDouble

/-! What holds of `NemesisDoubleQueue` between any two steps. The elements are in a line of nodes that are
    linked or about to be linked, in both directions; the line may hold the element that a thread is taking
    out. `head` is the first of the line, unless one thread is about to make it so. -/

namespace Libfibre.NemesisDoubleQueue
open Transition LinkedList Threads

variable {N T : Type}

/-! ### What a thread has in hand -/

/-- The `Next` link that a thread still has to make. -/
def Pc.owes : Pc N → Option (N × N)
  | .putPrev prev first _ | .putNext prev first _ => some (prev, first)
  | .casTail elem prev | .waitTail elem prev | .readTail elem prev => some (prev, elem)
  | .backTail _ (some next) prev | .linkTail _ next prev => some (prev, next)
  | _ => none

/-- The element whose `Prev` link a thread still has to make. -/
def Pc.fixes : Pc N → Option N
  | .putPrev _ first _ => some first
  | .back _ next _ | .backTail _ (some next) _ => some next
  | _ => none

/-- The element that a thread is taking out. -/
def Pc.elem : Pc N → Option N
  | .compare e | .loadNext _ e | .setHead _ e _ | .casHead _ e | .waitHead _ e | .readHead _ e
  | .fixHead _ e _ | .readNext e | .readPrev e _ | .bypass e _ _ | .back e _ _ | .casTail e _
  | .waitTail e _ | .readTail e _ | .backTail e _ _ | .linkTail e _ _ | .unlock _ e | .clear _ e => some e
  | _ => none

/-- The elements that a thread is putting in. -/
def Pc.puts : Pc N → List N
  | .putHead first rest | .putPrev _ first rest | .putNext _ first rest => first :: rest
  | _ => []

/-- The segment that a thread is about to append. -/
def Pc.pushes : Pc N → Option (List N)
  | .swing first rest => some (first :: rest)
  | _ => none

def Pc.hand (p : Pc N) : Option (N × N) × Option N × Option N × List N × Option (List N) :=
  (p.owes, p.fixes, p.elem, p.puts, p.pushes)

def Pc.locked : Pc N → Bool
  | .out | .swing .. | .putHead .. | .putPrev .. | .putNext .. | .popLock | .removeLock _ | .clear .. => false
  | _ => true

/-- The thread that has to set `head`. -/
def Pc.leads : Pc N → Bool
  | .putHead .. | .setHead _ _ (some _) | .casHead .. | .waitHead .. | .readHead .. | .fixHead .. => true
  | _ => false

/-- What a thread relies on where it is. -/
def Local (s : State N T) (l : List N) : Pc N → Prop
  | .putHead first _ => s.head = none ∧ l.head? = some first
  | .check e => l.head? = some e ∧ s.owner e = .queued
  | .loadNext _ e | .setHead _ e none => l.head? = some e
  | .setHead _ e (some n) => l.head? = some n ∧ e ∉ l
  | .casHead _ e => s.head = none ∧ l.head? = some e
  | .waitHead _ e => l.head? = some e ∧ l.getLast? ≠ some e
  | .readHead _ e => l.head? = some e ∧ s.next e ≠ none
  | .fixHead _ e next => (∃ n, next = some n ∧ l.head? = some n) ∧ e ∉ l
  | .compare e => e ∈ l
  | .readNext e => ∃ a, Adj l a e
  | .readPrev e next => (∃ a, Adj l a e) ∧ (next ≠ none → s.next e = next)
  | .bypass e next prev => (∃ a, prev = some a ∧ Adj l a e) ∧ (next ≠ none → s.next e = next)
  | .back e n prev => e ∉ l ∧ Adj l prev n
  | .waitTail e _ => l.getLast? ≠ some e
  | .readTail e _ => s.next e ≠ none
  | .backTail e next _ => e ∉ l ∧ next ≠ none
  | .linkTail e _ _ | .unlock _ e | .clear _ e => e ∉ l
  | _ => True

/-- The element is in the queue's list. -/
def Owner.listed : Owner T → Bool
  | .linking _ | .queued => true
  | _ => false

/-- The element may be in the line. -/
def Owner.inside : Owner T → Bool
  | .linking _ | .queued | .taking _ => true
  | _ => false

/-- What the caller of `push` has made ready. -/
structure Segment (s : State N T) (t : T) (k : List N) : Prop where
  nodup : k.Nodup
  owned : ∀ n ∈ k, s.owner n = .pushing t
  links : ∀ a b, Adj k a b → s.next a = some b
  backs : ∀ a b, Adj k a b → s.prev b = some a
  ends : ∀ z, k.getLast? = some z → s.next z = none

theorem Segment.congr {s s' : State N T} {t : T} {k : List N} (h : Segment s t k)
    (hkeep : ∀ n, s.owner n = .pushing t →
      s'.owner n = .pushing t ∧ s'.next n = s.next n ∧ s'.prev n = s.prev n) : Segment s' t k := by
  have hsame := fun n hn => hkeep n (h.owned n hn)
  refine ⟨h.nodup, fun n hn => (hsame n hn).1, fun a b hab => ?_, fun a b hab => ?_, fun z hz => ?_⟩
  · rw [(hsame a hab.left_mem).2.1]
    exact h.links a b hab
  · rw [(hsame b hab.right_mem).2.2]
    exact h.backs a b hab
  · rw [(hsame z (List.mem_of_getLast? hz)).2.1]
    exact h.ends z hz

/-- INVARIANT: the line is `l`, and every back link is made or about to be made. -/
structure Links (s : State N T) (l : List N) : Prop where
  line : Line s.next s.tail (fun t => (s.pc t).owes) l
  back : ∀ a b, Adj l a b → s.prev b = some a ∨ ∃ t, (s.pc t).fixes = some b

/-- INVARIANT: who may use which element; the list is the line without what is being taken out. -/
structure Owners (s : State N T) (l : List N) : Prop where
  content : s.list = l.filter fun n => (s.owner n).listed
  listed : ∀ n, (s.owner n).listed = true → n ∈ l
  inside : ∀ n ∈ l, (s.owner n).inside = true
  free : ∀ n, s.owner n = .free → s.next n = none
  taking : ∀ n t, s.owner n = .taking t ↔ (s.pc t).elem = some n
  linking : ∀ n t, s.owner n = .linking t ↔ n ∈ (s.pc t).puts
  segment : ∀ t k, (s.pc t).pushes = some k → Segment s t k
  chain : ∀ t a b, Adj (s.pc t).puts a b → Adj l a b

/-- INVARIANT: the lock, and the thread that has to set `head`. -/
structure Turns (s : State N T) (l : List N) : Prop where
  lock : ∀ t, (s.pc t).locked = true ↔ s.lock = some t
  leader : ∀ t u, (s.pc t).leads = true → (s.pc u).leads = true → t = u
  head : (∀ t, (s.pc t).leads = false) → s.head = l.head?
  first : ∀ n t, l.head? = some n → s.owner n = .linking t → (s.pc t).leads = true
  here : ∀ t, Local s l (s.pc t)

structure Inv (s : State N T) (l : List N) : Prop where
  links : Links s l
  owners : Owners s l
  turns : Turns s l

theorem hand_eq {p q : Pc N} (h : p.hand = q.hand) : p.owes = q.owes ∧ p.fixes = q.fixes ∧
    p.elem = q.elem ∧ p.puts = q.puts ∧ p.pushes = q.pushes := by
  simpa [Pc.hand] using h

theorem puts_nil {p : Pc N} (h : p.locked = true) : p.puts = [] ∧ p.pushes = none := by
  cases p <;> first | exact ⟨rfl, rfl⟩ | cases h

/-! ### One thread moves -/

section Moves
variable {s s' : State N T} {l l' k : List N} {t u : T} {p : Pc N} {e n : N}

/-- The line grows behind a thread's back. -/
theorem Local.grow (h : Local s l p) (hhead : p.leads = true → s'.head = s.head)
    (hnext : ∀ e, p.elem = some e → s.next e ≠ none → s'.next e = s.next e)
    (howner : ∀ e, s.owner e = .queued → s'.owner e = .queued)
    (hk : ∀ e, p.elem = some e → e ∉ k) : Local s' (l ++ k) p := by
  have hfirst : ∀ {e}, l.head? = some e → (l ++ k).head? = some e := fun hl => by
    rw [List.head?_append, hl]
    rfl
  have hlast : ∀ {e}, e ∉ k → l.getLast? ≠ some e → (l ++ k).getLast? ≠ some e := fun he hl => by
    rw [List.getLast?_append]
    cases hz : k.getLast? with
    | none => exact hl
    | some z =>
      rintro hze
      obtain rfl := Option.some.inj hze
      exact he (List.mem_of_getLast? hz)
  have hnot : ∀ {e}, e ∉ k → e ∉ l → e ∉ l ++ k := fun hk hl hmem =>
    (List.mem_append.mp hmem).elim hl hk
  have hadj : ∀ {a e}, Adj l a e → Adj (l ++ k) a e := fun h => adj_append.mpr (.inl h)
  have hread : ∀ {e} {next : Option N}, p.elem = some e → (next ≠ none → s.next e = next) →
      next ≠ none → s'.next e = next := fun he h hne => by
    rw [hnext _ he (by rw [h hne]; exact hne), h hne]
  cases p with
  | putHead first rest => exact ⟨(hhead rfl).trans h.1, hfirst h.2⟩
  | check e => exact ⟨hfirst h.1, howner e h.2⟩
  | loadNext op e => exact hfirst h
  | setHead op e next =>
    cases next with
    | none => exact hfirst h
    | some n => exact ⟨hfirst h.1, hnot (hk e rfl) h.2⟩
  | casHead op e => exact ⟨(hhead rfl).trans h.1, hfirst h.2⟩
  | waitHead op e => exact ⟨hfirst h.1, hlast (hk e rfl) h.2⟩
  | readHead op e => exact ⟨hfirst h.1, by rw [hnext e rfl h.2]; exact h.2⟩
  | fixHead op e next =>
    obtain ⟨⟨n, hn, hl⟩, he⟩ := h
    exact ⟨⟨n, hn, hfirst hl⟩, hnot (hk e rfl) he⟩
  | compare e => exact List.mem_append_left k h
  | readNext e =>
    obtain ⟨a, ha⟩ := h
    exact ⟨a, hadj ha⟩
  | readPrev e next =>
    obtain ⟨⟨a, ha⟩, hn⟩ := h
    exact ⟨⟨a, hadj ha⟩, hread rfl hn⟩
  | bypass e next prev =>
    obtain ⟨⟨a, hprev, ha⟩, hn⟩ := h
    exact ⟨⟨a, hprev, hadj ha⟩, hread rfl hn⟩
  | back e n prev => exact ⟨hnot (hk e rfl) h.1, hadj h.2⟩
  | waitTail e prev => exact hlast (hk e rfl) h
  | readTail e prev => exact fun hn => h (by rwa [← hnext e rfl h])
  | backTail e next prev => exact ⟨hnot (hk e rfl) h.1, h.2⟩
  | linkTail e n prev | unlock op e | clear op e => exact hnot (hk e rfl) h
  | out | swing | putPrev | putNext | popLock | load | leave | removeLock | casTail => trivial

theorem Local.mono (h : Local s l p) (hhead : p.leads = true → s'.head = s.head)
    (hnext : ∀ e, p.elem = some e → s.next e ≠ none → s'.next e = s.next e)
    (howner : ∀ e, s.owner e = .queued → s'.owner e = .queued) : Local s' l p := by
  have hgrow : Local s' (l ++ []) p := h.grow hhead hnext howner fun _ _ => List.not_mem_nil
  rwa [List.append_nil] at hgrow

/-- The line changes while a thread is not in a lock section. -/
theorem Local.shrink (h : Local s l p) (hp : p.locked = false) (hhead : p.leads = true → s'.head = s.head)
    (hfirst : ∀ n, n ∈ p.puts → l.head? = some n → l'.head? = some n) (hsub : ∀ n ∈ l', n ∈ l) :
    Local s' l' p := by
  cases p with
  | putHead first rest => exact ⟨(hhead rfl).trans h.1, hfirst first (List.mem_cons_self ..) h.2⟩
  | clear op e => exact fun he => h (hsub e he)
  | out | swing | putPrev | putNext | popLock | removeLock => trivial
  | _ => cases hp

theorem Local.line_ne {p : Pc N} (h : Local s l p) (hp : p.leads = true) : l ≠ [] := by
  rintro rfl
  cases p with
  | putHead first rest => cases h.2
  | setHead op e next =>
    cases next with
    | none => cases hp
    | some n => cases h.1
  | casHead op e => cases h.2
  | waitHead op e | readHead op e => cases h.1
  | fixHead op e next =>
    obtain ⟨⟨n, -, hn⟩, -⟩ := h
    cases hn
  | _ => cases hp

theorem filter_erase [DecidableEq N] {q : N → Bool} (hl : l.Nodup) (he : q e = false) :
    (l.erase e).filter q = l.filter q := by
  rw [hl.erase_eq_filter, List.filter_filter]
  refine List.filter_congr fun n _ => ?_
  rcases eq_or_ne n e with rfl | hne
  · rw [he]
    rfl
  · simp [hne]

/-- An element that is being taken out leaves the line. -/
theorem Owners.erase [DecidableEq N] (h : Owners s l) (hl : l.Nodup) (he : s.owner e = .taking t) :
    Owners s (l.erase e) := by
  have hne : ∀ {n}, (s.owner n).listed = true → n ≠ e := by
    rintro n hn rfl
    rw [he] at hn
    cases hn
  have hputs : ∀ {u n}, n ∈ (s.pc u).puts → n ≠ e := fun {u n} hn =>
    hne (by rw [(h.linking n u).mpr hn]; rfl)
  refine { h with
    content := ?_
    listed := fun n hn => (List.mem_erase_of_ne (hne hn)).mpr (h.listed n hn)
    inside := fun n hn => h.inside n (List.mem_of_mem_erase hn)
    chain := fun u a b hab => ?_ }
  · rw [filter_erase hl (by rw [he]; rfl)]
    exact h.content
  · exact (adj_erase hl).mpr (.inl ⟨h.chain u a b hab, hputs hab.left_mem, hputs hab.right_mem⟩)

variable [DecidableEq T]

theorem links_move (hpc : s'.pc = Function.update s.pc t p)
    (hline : Line s'.next s'.tail (Function.update (fun u => (s.pc u).owes) t p.owes) l')
    (hback : ∀ a b, Adj l' a b →
      s'.prev b = some a ∨ p.fixes = some b ∨ ∃ u, u ≠ t ∧ (s.pc u).fixes = some b) :
    Links s' l' := by
  have howes : (fun u => (s'.pc u).owes) = Function.update (fun u => (s.pc u).owes) t p.owes := by
    rw [hpc]
    exact Function.comp_update Pc.owes s.pc t p
  refine ⟨by rw [howes]; exact hline, fun a b hab => (hback a b hab).imp_right fun hfix => ?_⟩
  rw [hpc]
  exact (Function.exists_update_iff s.pc fun _ q => q.fixes = some b).mpr hfix

omit [DecidableEq T] in
theorem Links.back_of (h : Links s l) {a b : N} (hab : Adj l a b) (ht : (s.pc t).fixes ≠ some b) :
    s.prev b = some a ∨ ∃ u, u ≠ t ∧ (s.pc u).fixes = some b := by
  refine (h.back a b hab).imp_right fun ⟨u, hu⟩ => ⟨u, ?_, hu⟩
  rintro rfl
  exact ht hu

/-- A thread makes its back link. -/
theorem Links.backlink [DecidableEq N] (h : Links s l) (hpc : s'.pc = Function.update s.pc t p) {a b : N}
    (hadj : Adj l a b) (hsame : s'.next = s.next ∧ s'.tail = s.tail)
    (hprev : s'.prev = Function.update s.prev b (some a)) (ht : (s.pc t).fixes = some b)
    (howes : p.owes = (s.pc t).owes) : Links s' l := by
  refine links_move hpc ?_ fun x y hxy => ?_
  · rw [hsame.1, hsame.2, kept (f := Pc.owes) howes]
    exact h.line
  · rw [hprev]
    rcases eq_or_ne y b with rfl | hy
    · rw [Function.update_self, hadj.left_unique h.line.nodup hxy]
      exact .inl rfl
    · rw [Function.update_of_ne hy]
      exact (h.back_of hxy (by rw [ht]; exact fun hby => hy (Option.some.inj hby).symm)).imp_right .inr

/-- A thread makes the link that it owes. -/
theorem Links.forelink [DecidableEq N] (h : Links s l) (hpc : s'.pc = Function.update s.pc t p) {a b : N}
    (ht : (s.pc t).owes = some (a, b)) (hsame : s'.prev = s.prev ∧ s'.tail = s.tail)
    (hnext : s'.next = Function.update s.next a (some b)) (hp : p.owes = none)
    (hfixes : (s.pc t).fixes = none) : Links s' l := by
  refine links_move hpc ?_ fun x y hxy => ?_
  · rw [hnext, hsame.2, hp]
    exact h.line.link ht
  · rw [hsame.1]
    refine (h.back_of hxy ?_).imp_right .inr
    rw [hfixes]
    exact fun hy => by cases hy

/-- A thread goes on with the links that it has to make. -/
theorem Links.walk (h : Links s l) (hpc : s'.pc = Function.update s.pc t p)
    (hsame : s'.next = s.next ∧ s'.prev = s.prev ∧ s'.tail = s.tail)
    (hhand : p.owes = (s.pc t).owes ∧ p.fixes = (s.pc t).fixes) : Links s' l := by
  obtain ⟨hnext, hprev, htail⟩ := hsame
  refine links_move hpc ?_ fun a b hab => ?_
  · rw [hnext, htail, kept (f := Pc.owes) hhand.1]
    exact h.line
  · rw [hprev, hhand.2]
    by_cases ht : (s.pc t).fixes = some b
    · exact .inr (.inl ht)
    · exact (h.back_of hab ht).imp_right .inr

/-- The line as a party sees it who neither takes nor gives a link. -/
theorem line_same {tail : Option N} {nxt : N → Option N} {q : Pc N} (hpc : s.pc t = q)
    (howes : p.owes = q.owes) (hline : Line nxt tail (fun u => (s.pc u).owes) l') :
    Line nxt tail (Function.update (fun u => (s.pc u).owes) t p.owes) l' := by
  rwa [kept (f := Pc.owes) (by rw [howes, hpc])]

/-- Some elements change hands. -/
theorem Owners.move (h : Owners s l) (hpc : s'.pc = Function.update s.pc t p)
    (hcontent : s'.list = l'.filter fun n => (s'.owner n).listed)
    (hlisted : ∀ n, (s'.owner n).listed = true → n ∈ l')
    (hinside : ∀ n ∈ l', (s'.owner n).inside = true)
    (hfree : ∀ n, s'.owner n = .free → s'.next n = none)
    (hothers : ∀ n u, u ≠ t → (s'.owner n = .taking u ↔ s.owner n = .taking u) ∧
      (s'.owner n = .linking u ↔ s.owner n = .linking u) ∧ (s.owner n = .pushing u →
        s'.owner n = .pushing u ∧ s'.next n = s.next n ∧ s'.prev n = s.prev n))
    (htaking : ∀ n, s'.owner n = .taking t ↔ p.elem = some n)
    (hlinking : ∀ n, s'.owner n = .linking t ↔ n ∈ p.puts)
    (hsegment : ∀ k, p.pushes = some k → Segment s' t k)
    (hchain : (∀ a b, Adj p.puts a b → Adj l' a b) ∧
      ∀ u, u ≠ t → ∀ a b, Adj (s.pc u).puts a b → Adj l' a b) : Owners s' l' := by
  refine ⟨hcontent, hlisted, hinside, hfree, fun n => ?_, fun n => ?_, ?_, ?_⟩ <;> rw [hpc]
  · exact (Function.forall_update_iff s.pc fun u q => s'.owner n = .taking u ↔ q.elem = some n).mpr
      ⟨htaking n, fun u hu => (hothers n u hu).1.trans (h.taking n u)⟩
  · exact (Function.forall_update_iff s.pc fun u q => s'.owner n = .linking u ↔ n ∈ q.puts).mpr
      ⟨hlinking n, fun u hu => (hothers n u hu).2.1.trans (h.linking n u)⟩
  · exact (Function.forall_update_iff s.pc fun u q => ∀ k, q.pushes = some k → Segment s' u k).mpr
      ⟨hsegment, fun u hu k hk => (h.segment u k hk).congr fun n hn => (hothers n u hu).2.2 hn⟩
  · exact (Function.forall_update_iff s.pc fun _ q => ∀ a b, Adj q.puts a b → Adj l' a b).mpr hchain

/-- The elements of `k` change hands, from `v` to `w`. -/
theorem Owners.handover [DecidableEq N] {v w : Owner T} (h : Owners s l)
    (hpc : s'.pc = Function.update s.pc t p) (howner : s'.owner = updateAll s.owner k w)
    (hv : ∀ n ∈ k, s.owner n = v)
    (hvw : ∀ u, u ≠ t → (v ≠ .taking u ∧ v ≠ .linking u ∧ v ≠ .pushing u) ∧
      w ≠ .taking u ∧ w ≠ .linking u)
    (hcontent : s'.list = l'.filter fun n => (s'.owner n).listed)
    (hl : (∀ n ∈ l, n ∈ l') ∧ ∀ n ∈ l', n ∈ l ∨ n ∈ k)
    (hk : ∀ n ∈ k, (w.listed = true → n ∈ l') ∧ (n ∈ l' → w.inside = true) ∧
      (w = .free → s'.next n = none))
    (houtside : ∀ n, n ∉ k → (s.owner n).inside = false → s'.next n = s.next n ∧ s'.prev n = s.prev n)
    (htaking : ∀ n, (n ∈ k → (w = .taking t ↔ p.elem = some n)) ∧
      (n ∉ k → ((s.pc t).elem = some n ↔ p.elem = some n)))
    (hlinking : ∀ n, (n ∈ k → (w = .linking t ↔ n ∈ p.puts)) ∧
      (n ∉ k → (n ∈ (s.pc t).puts ↔ n ∈ p.puts)))
    (hsegment : ∀ k, p.pushes = some k → Segment s' t k)
    (hchain : ∀ a b, Adj p.puts a b → Adj l' a b)
    (hgrow : ∀ a b, Adj l a b → Adj l' a b) : Owners s' l' := by
  have hin : ∀ {n}, n ∈ k → s'.owner n = w := fun hn => by rw [howner, updateAll_mem hn]
  have hout : ∀ {n}, n ∉ k → s'.owner n = s.owner n := fun hn => by rw [howner, updateAll_other hn]
  refine h.move hpc hcontent (fun n hn => ?_) (fun n hn => ?_) (fun n hn => ?_) (fun n u hu => ?_)
    (fun n => ?_) (fun n => ?_) hsegment ⟨hchain, fun u _ a b hab => hgrow a b (h.chain u a b hab)⟩
  · by_cases hnk : n ∈ k
    · rw [hin hnk] at hn
      exact (hk n hnk).1 hn
    · rw [hout hnk] at hn
      exact hl.1 n (h.listed n hn)
  · by_cases hnk : n ∈ k
    · rw [hin hnk]
      exact (hk n hnk).2.1 hn
    · rw [hout hnk]
      exact h.inside n ((hl.2 n hn).resolve_right hnk)
  · by_cases hnk : n ∈ k
    · rw [hin hnk] at hn
      exact (hk n hnk).2.2 hn
    · rw [hout hnk] at hn
      rw [(houtside n hnk (by rw [hn]; rfl)).1]
      exact h.free n hn
  · by_cases hnk : n ∈ k
    · obtain ⟨⟨hv1, hv2, hv3⟩, hw1, hw2⟩ := hvw u hu
      rw [hin hnk, hv n hnk]
      exact ⟨iff_of_false hw1 hv1, iff_of_false hw2 hv2, fun hn => absurd hn hv3⟩
    · rw [hout hnk]
      exact ⟨Iff.rfl, Iff.rfl, fun hn => ⟨hn, houtside n hnk (by rw [hn]; rfl)⟩⟩
  · by_cases hnk : n ∈ k
    · rw [hin hnk]
      exact (htaking n).1 hnk
    · rw [hout hnk]
      exact (h.taking n t).trans ((htaking n).2 hnk)
  · by_cases hnk : n ∈ k
    · rw [hin hnk]
      exact (hlinking n).1 hnk
    · rw [hout hnk]
      exact (h.linking n t).trans ((hlinking n).2 hnk)

/-- No element changes hands. -/
theorem Owners.keep (h : Owners s l) (hpc : s'.pc = Function.update s.pc t p)
    (hsame : s'.owner = s.owner ∧ s'.list = s.list)
    (houtside : ∀ n, (s.owner n).inside = false → s'.next n = s.next n ∧ s'.prev n = s.prev n)
    (hhand : p.elem = (s.pc t).elem ∧ p.puts = (s.pc t).puts ∧ p.pushes = (s.pc t).pushes) :
    Owners s' l := by
  obtain ⟨howner, hlist⟩ := hsame
  obtain ⟨helem, hputs, hpushes⟩ := hhand
  refine h.move hpc ?_ ?_ ?_ (fun n hn => ?_) (fun n u hu => ?_) (fun n => ?_) (fun n => ?_)
    (fun k hk => (h.segment t k (hpushes.symm.trans hk)).congr fun n hn => ?_)
    ⟨?_, fun u _ => h.chain u⟩
  · rw [howner, hlist]
    exact h.content
  · rw [howner]
    exact h.listed
  · rw [howner]
    exact h.inside
  · rw [howner] at hn
    rw [(houtside n (by rw [hn]; rfl)).1]
    exact h.free n hn
  · rw [howner]
    exact ⟨Iff.rfl, Iff.rfl, fun hn => ⟨hn, houtside n (by rw [hn]; rfl)⟩⟩
  · rw [howner, helem]
    exact h.taking n t
  · rw [howner, hputs]
    exact h.linking n t
  · rw [howner]
    exact ⟨hn, houtside n (by rw [hn]; rfl)⟩
  · rw [hputs]
    exact h.chain t

theorem Turns.move (h : Turns s l) (hpc : s'.pc = Function.update s.pc t p)
    (hlock : (∀ u, u ≠ t → (s'.lock = some u ↔ s.lock = some u)) ∧
      (p.locked = true ↔ s'.lock = some t))
    (hleader : p.leads = true → ∀ u, u ≠ t → (s.pc u).leads = false)
    (hhead : p.leads = false → (∀ u, u ≠ t → (s.pc u).leads = false) → s'.head = l'.head?)
    (hfirst : ∀ n, l'.head? = some n → (s'.owner n = .linking t → p.leads = true) ∧
      ∀ u, u ≠ t → s'.owner n = .linking u → (s.pc u).leads = true)
    (hhere : Local s' l' p ∧ ∀ u, u ≠ t → Local s' l' (s.pc u)) : Turns s' l' := by
  refine ⟨by rw [hpc]; exact lock_move h.lock hlock, by rw [hpc]; exact leader_move h.leader hleader,
    fun hnone => ?_, fun n u hn hu => ?_, ?_⟩
  · rw [hpc] at hnone
    obtain ⟨ht, hothers⟩ := (Function.forall_update_iff s.pc fun _ q => q.leads = false).mp hnone
    exact hhead ht hothers
  · rw [hpc]
    exact (Function.forall_update_iff s.pc fun u q => s'.owner n = .linking u → q.leads = true).mpr
      (hfirst n hn) u hu
  · rw [hpc]
    exact (Function.forall_update_iff s.pc fun _ q => Local s' l' q).mpr hhere

omit [DecidableEq T] in
theorem Turns.head_first (h : Turns s l) (ht : (s.pc t).leads = false)
    (hothers : ∀ u, u ≠ t → (s.pc u).leads = false) : s.head = l.head? := by
  refine h.head fun u => ?_
  rcases eq_or_ne u t with rfl | hu
  · exact ht
  · exact hothers u hu

/-- A step that leaves `head` and the line as they are. -/
theorem Turns.quiet (h : Turns s l) (hpc : s'.pc = Function.update s.pc t p)
    (hlock : (∀ u, u ≠ t → (s'.lock = some u ↔ s.lock = some u)) ∧
      (p.locked = true ↔ s'.lock = some t))
    (hhead : s'.head = s.head) (hlead : p.leads = (s.pc t).leads)
    (hlinking : ∀ n u, s'.owner n = .linking u → s.owner n = .linking u)
    (hqueued : ∀ n, s.owner n = .queued → s'.owner n = .queued)
    (hnext : ∀ u e, u ≠ t → (s.pc u).elem = some e → s.next e ≠ none → s'.next e = s.next e)
    (hhere : Local s' l p) : Turns s' l := by
  refine h.move hpc hlock (fun hp u hu => ?_) (fun hp hnone => ?_)
    (fun n hn => ⟨fun hn' => hlead.trans (h.first n t hn (hlinking n t hn')),
      fun u _ hn' => h.first n u hn (hlinking n u hn')⟩)
    ⟨hhere, fun u hu => (h.here u).mono (fun _ => hhead) (fun e => hnext u e hu) hqueued⟩
  · exact follows h.leader (hlead.symm.trans hp) hu
  · exact hhead.trans (h.head_first (hlead.symm.trans hp) hnone)

end Moves

/-! ### What a lock section finds -/

section Facts
variable {s s' : State N T} {l : List N} {t u : T} {p : Pc N} {e n a : N}

theorem Inv.here (h : Inv s l) (hpc : s.pc t = p) : Local s l p := hpc ▸ h.turns.here t

theorem Inv.owner (h : Inv s l) (hpc : s.pc t = p) (he : p.elem = some e) : s.owner e = .taking t :=
  (h.owners.taking e t).mpr (by rw [hpc, he])

theorem Inv.owed (h : Inv s l) (hpc : s.pc t = p) {b : N} (hp : p.owes = some (a, b)) :
    Adj l a b ∧ s.next a = none := h.links.line.owed t a b (by rw [hpc, hp])

theorem Inv.outside (h : Inv s l) [DecidableEq N] {x : N} (ha : a ∈ l) {v : Option N} {f : N → Option N}
    (hx : (s.owner x).inside = false) : Function.update f a v x = f x := by
  have hxa : x ≠ a := by
    rintro rfl
    rw [h.owners.inside x ha] at hx
    cases hx
  exact Function.update_of_ne hxa ..

theorem Inv.head_first (h : Inv s l) (ht : (s.pc t).leads = false)
    (hothers : ∀ u, u ≠ t → (s.pc u).leads = false) : s.head = l.head? := h.turns.head_first ht hothers

/-- Who leads outside of the lock section is about to publish the first element of an empty queue. -/
theorem Inv.putting (h : Inv s l) (ht : (s.pc t).locked = true) (hu : u ≠ t)
    (hlead : (s.pc u).leads = true) :
    s.head = none ∧ ∃ first, l.head? = some first ∧ s.owner first = .linking u := by
  have hunlocked := unlocked h.turns.lock ht hu
  have hhere := h.turns.here u
  have hputs := fun n => (h.owners.linking n u).mpr
  cases hpc : s.pc u <;> rw [hpc] at hunlocked hlead hhere hputs
  case putHead first rest => exact ⟨hhere.1, first, hhere.2, hputs first (List.mem_cons_self ..)⟩
  all_goals cases hunlocked <;> cases hlead

theorem Inv.alone (h : Inv s l) (ht : (s.pc t).locked = true) (hl : l.head? = some e)
    (he : ∀ u, s.owner e ≠ .linking u) (hu : u ≠ t) : (s.pc u).leads = false := by
  by_contra hlead
  obtain ⟨-, first, hfirst, howner⟩ := h.putting ht hu (by simpa using hlead)
  obtain rfl := Option.some.inj (hl.symm.trans hfirst)
  exact he u howner

theorem Inv.alone_with (h : Inv s l) {q : Pc N} (hpc : s.pc t = q) (hq : q.locked = true)
    (he : q.elem = some e) (hl : l.head? = some e) : ∀ u, u ≠ t → (s.pc u).leads = false := fun u =>
  h.alone (by rw [hpc, hq]) hl fun v hv => by
    rw [h.owner hpc he] at hv
    cases hv

/-- `head` is somewhere: at the first of the line. -/
theorem Inv.head_some (h : Inv s l) (ht : (s.pc t).locked = true) (hlead : (s.pc t).leads = false)
    (hhead : s.head = some e) : (∀ u, (s.pc u).leads = false) ∧ l.head? = some e := by
  have hnone : ∀ u, (s.pc u).leads = false := fun u => by
    rcases eq_or_ne u t with rfl | hu
    · exact hlead
    · by_contra hu'
      rw [(h.putting ht hu (by simpa using hu')).1] at hhead
      cases hhead
  exact ⟨hnone, (h.turns.head hnone).symm.trans hhead⟩

/-- An element that is linked to from one that is being taken out has been pushed to the end. -/
theorem Inv.not_linking (h : Inv s l) (he : s.owner e = .taking t) (hmem : e ∈ l) (hn : s.next e = some n) :
    s.owner n ≠ .linking u := by
  intro hlinking
  have hadj := h.links.line.adj hmem hn
  have hnodup := h.links.line.nodup
  have hputs := (h.owners.linking n u).mp hlinking
  rcases exists_adj hputs with hfirst | ⟨x, hx⟩
  · have hhere := h.turns.here u
    have howed := h.links.line.owed u
    cases hpc : s.pc u <;> rw [hpc] at hfirst hhere howed <;> cases hfirst
    case putHead.refl rest => exact hadj.not_first hnodup hhere.2
    case putPrev.refl prev rest | putNext.refl prev rest =>
      obtain ⟨hprev, hnull⟩ := howed prev n rfl
      rw [hprev.left_unique hnodup hadj, hn] at hnull
      cases hnull
  · have hxe := (h.owners.chain u x n hx).left_unique hnodup hadj
    have howner := (h.owners.linking x u).mpr hx.left_mem
    rw [hxe, he] at howner
    cases howner

/-- The first of the line has been pushed to the end when `head` is there. -/
theorem Inv.queued (h : Inv s l) (ht : (s.pc t).locked = true) (hleads : ∀ u, (s.pc u).leads = false)
    (helem : (s.pc t).elem = none) (hl : l.head? = some e) : s.owner e = .queued := by
  have hinside := h.owners.inside e (List.mem_of_mem_head? hl)
  cases howner : s.owner e with
  | queued => rfl
  | free | pushing u => rw [howner] at hinside; cases hinside
  | linking u =>
    have := h.turns.first e u hl howner
    rw [hleads u] at this
    cases this
  | taking u =>
    exfalso
    have hhas := (h.owners.taking e u).mp howner
    have hut : u ≠ t := by
      rintro rfl
      rw [helem] at hhas
      cases hhas
    have hunlocked := unlocked h.turns.lock ht hut
    have hhere := h.turns.here u
    cases hpc : s.pc u <;> rw [hpc] at hunlocked hhas hhere
    case clear op e' =>
      obtain rfl := Option.some.inj hhas
      exact hhere (List.mem_of_mem_head? hl)
    all_goals cases hunlocked <;> cases hhas

/-- The back link of an element that a lock section takes out is made. -/
theorem Inv.prev_eq (h : Inv s l) (ht : (s.pc t).locked = true) (hfixes : (s.pc t).fixes = none)
    (he : s.owner e = .taking t) (hadj : Adj l a e) : s.prev e = some a := by
  refine (h.links.back a e hadj).resolve_right fun ⟨u, hu⟩ => ?_
  have hut : u ≠ t := by
    rintro rfl
    rw [hfixes] at hu
    cases hu
  have hunlocked := unlocked h.turns.lock ht hut
  have hputs := (h.owners.linking e u).mpr
  cases hpc : s.pc u <;> rw [hpc] at hunlocked hu hputs
  case putPrev prev first rest =>
    obtain rfl := Option.some.inj hu
    have howner := hputs (List.mem_cons_self ..)
    rw [he] at howner
    cases howner
  all_goals cases hunlocked <;> cases hu

/-- The link to an element that a lock section takes out is made. -/
theorem Inv.next_eq (h : Inv s l) (ht : (s.pc t).locked = true) (howes : (s.pc t).owes = none)
    (he : s.owner e = .taking t) (hadj : Adj l a e) : s.next a = some e := by
  refine (h.links.line.links a e hadj).resolve_right fun ⟨u, hu⟩ => ?_
  have hut : u ≠ t := by
    rintro rfl
    rw [howes] at hu
    cases hu
  have hunlocked := unlocked h.turns.lock ht hut
  have hputs := (h.owners.linking e u).mpr
  cases hpc : s.pc u <;> rw [hpc] at hunlocked hu hputs
  case putPrev prev first rest | putNext prev first rest =>
    obtain ⟨-, rfl⟩ := Prod.mk.inj (Option.some.inj hu)
    have howner := hputs (List.mem_cons_self ..)
    rw [he] at howner
    cases howner
  all_goals cases hunlocked <;> cases hu

/-- The first of the line, as the pushers see it, when an element leaves. -/
theorem Inv.erase_first [DecidableEq N] (h : Inv s l) (he : s.owner e = .taking t)
    (hnext : l.head? = some e → ∀ n, Adj l e n → s.next e = some n) :
    (∀ n ∈ l.erase e, n ∈ l) ∧
      ∀ n u, s.owner n = .linking u → ((l.erase e).head? = some n ↔ l.head? = some n) := by
  refine ⟨fun n hn => List.mem_of_mem_erase hn, fun n u hn => ?_⟩
  rw [head?_erase h.links.line.nodup]
  refine ⟨fun hor => hor.elim And.left fun ⟨hl, hadj⟩ => ?_, fun hl => .inl ⟨hl, ?_⟩⟩
  · exact absurd hn (h.not_linking he hadj.left_mem (hnext hl n hadj))
  · rintro rfl
    rw [he] at hn
    cases hn

end Facts

section Hold
variable {s s' : State N T} {l l' : List N} {t : T} {p : Pc N} [DecidableEq T]

/-- A step within a lock section. -/
theorem Inv.hold {q : Pc N} (h : Inv s l) (hq : s.pc t = q) (hpc : s'.pc = Function.update s.pc t p)
    (hlocked : p.locked = true ∧ q.locked = true) (hlock : s'.lock = s.lock)
    (hlinks : Links s' l') (howners : Owners s' l')
    (howner : ∀ n u, u ≠ t → (s'.owner n = .linking u ↔ s.owner n = .linking u))
    (hleader : p.leads = true → ∀ u, u ≠ t → (s.pc u).leads = false)
    (hhead : p.leads = false → (∀ u, u ≠ t → (s.pc u).leads = false) → s'.head = l'.head?)
    (hothers : s'.head = s.head ∨ ∀ u, u ≠ t → (s.pc u).leads = false)
    (hl : (∀ n ∈ l', n ∈ l) ∧
      ∀ n u, s.owner n = .linking u → (l'.head? = some n ↔ l.head? = some n))
    (hhere : Local s' l' p) : Inv s' l' := by
  subst hq
  refine ⟨hlinks, howners, h.turns.move hpc
    (lock_same h.turns.lock hlock (hlocked.1.trans hlocked.2.symm)) hleader
    hhead (fun n hn => ⟨fun hn' => ?_, fun u hu hn' => ?_⟩) ⟨hhere, fun u hu => ?_⟩⟩
  · have hmem := (howners.linking n t).mp hn'
    rw [hpc, Function.update_self, (puts_nil hlocked.1).1] at hmem
    cases hmem
  · have hn' := (howner n u hu).mp hn'
    exact h.turns.first n u ((hl.2 n u hn').mp hn) hn'
  · refine (h.turns.here u).shrink (unlocked h.turns.lock hlocked.2 hu) (fun hlead => ?_)
      (fun n hn hfirst => ?_) hl.1
    · refine hothers.resolve_right fun hnone => ?_
      rw [hnone u hu] at hlead
      cases hlead
    · exact (hl.2 n u ((h.owners.linking n u).mpr hn)).mpr hfirst

/-- A step in a lock section that changes at most `head`. -/
theorem Inv.walk {q : Pc N} (h : Inv s l) (hq : s.pc t = q) (hpc : s'.pc = Function.update s.pc t p)
    (hsame : s'.next = s.next ∧ s'.prev = s.prev ∧ s'.tail = s.tail ∧ s'.owner = s.owner ∧
      s'.list = s.list ∧ s'.lock = s.lock)
    (hhand : p.hand = q.hand) (hlocked : p.locked = true ∧ q.locked = true)
    (hleader : ∀ u, u ≠ t → (s.pc u).leads = false)
    (hhead : p.leads = false → s'.head = l.head?) (hhere : Local s' l p) : Inv s' l := by
  obtain ⟨hnext, hprev, htail, howner, hlist, hlock⟩ := hsame
  subst hq
  obtain ⟨howes, hfixes, helem, hputs, hpushes⟩ := hand_eq hhand
  exact h.hold rfl hpc hlocked hlock (h.links.walk hpc ⟨hnext, hprev, htail⟩ ⟨howes, hfixes⟩)
    (h.owners.keep hpc ⟨howner, hlist⟩ (fun n _ => by rw [hnext, hprev]; exact ⟨rfl, rfl⟩)
      ⟨helem, hputs, hpushes⟩)
    (fun n u _ => by rw [howner]) (fun _ => hleader) (fun hp _ => hhead hp) (.inr hleader)
    ⟨fun n hn => hn, fun n u _ => Iff.rfl⟩ hhere

/-- A step in a lock section that changes links. -/
theorem Inv.relink {q : Pc N} (h : Inv s l) (hq : s.pc t = q) (hpc : s'.pc = Function.update s.pc t p)
    (hlocked : p.locked = true ∧ q.locked = true)
    (hsame : s'.head = s.head ∧ s'.owner = s.owner ∧ s'.list = s.list ∧ s'.lock = s.lock)
    (houtside : ∀ n, (s.owner n).inside = false → s'.next n = s.next n ∧ s'.prev n = s.prev n)
    (helem : p.elem = q.elem) (hleads : p.leads = false ∧ q.leads = false) (hlinks : Links s' l)
    (hhere : Local s' l p) : Inv s' l := by
  obtain ⟨hhead, howner, hlist, hlock⟩ := hsame
  refine h.hold hq hpc hlocked hlock hlinks (h.owners.keep hpc ⟨howner, hlist⟩ houtside ?_)
    (fun n u _ => by rw [howner]) (fun hp => ?_) (fun _ hnone => ?_) (.inl hhead)
    ⟨fun n hn => hn, fun n u _ => Iff.rfl⟩ hhere
  · obtain ⟨hp, hp'⟩ := puts_nil hlocked.1
    obtain ⟨hs, hs'⟩ := puts_nil hlocked.2
    rw [hq, helem, hp, hp', hs, hs']
    exact ⟨rfl, rfl, rfl⟩
  · rw [hleads.1] at hp
    cases hp
  · exact hhead.trans (h.head_first (hq ▸ hleads.2) hnone)

/-- The element that is being taken out leaves the line. -/
theorem Inv.erase [DecidableEq N] {q : Pc N} {e : N} (h : Inv s l) (hq : s.pc t = q)
    (hpc : s'.pc = Function.update s.pc t p) (hlocked : p.locked = true ∧ q.locked = true)
    (hsame : s'.prev = s.prev ∧ s'.owner = s.owner ∧ s'.list = s.list ∧ s'.lock = s.lock)
    (hnext : ∀ n, (s.owner n).inside = false → s'.next n = s.next n)
    (he : p.elem = some e ∧ q.elem = some e) (hq' : q.fixes = none)
    (hline : Line s'.next s'.tail (Function.update (fun u => (s.pc u).owes) t p.owes) (l.erase e))
    (hfixes : ∀ a n, Adj l a e → Adj l e n → p.fixes = some n)
    (hfirst : l.head? = some e → ∀ n, Adj l e n → s.next e = some n)
    (hleader : p.leads = true → ∀ u, u ≠ t → (s.pc u).leads = false)
    (hhead : p.leads = false → (∀ u, u ≠ t → (s.pc u).leads = false) →
      s'.head = (l.erase e).head?)
    (hothers : s'.head = s.head ∨ ∀ u, u ≠ t → (s.pc u).leads = false)
    (hhere : Local s' (l.erase e) p) : Inv s' (l.erase e) := by
  obtain ⟨hprev, howner, hlist, hlock⟩ := hsame
  have hnodup := h.links.line.nodup
  have htaking := h.owner hq he.2
  refine h.hold hq hpc hlocked hlock (links_move hpc hline fun a b hab => ?_) ?_
    (fun n u _ => by rw [howner]) hleader hhead hothers (h.erase_first htaking hfirst) hhere
  · rw [hprev]
    rcases (adj_erase hnodup).mp hab with ⟨hab, -⟩ | ⟨hae, heb⟩
    · refine (h.links.back_of hab ?_).imp_right .inr
      rw [hq, hq']
      exact fun hb => by cases hb
    · exact .inr (.inl (hfixes a b hae heb))
  · refine (h.owners.erase hnodup htaking).keep hpc ⟨howner, hlist⟩
      (fun n hn => ⟨hnext n hn, by rw [hprev]⟩) ?_
    obtain ⟨hp, hp'⟩ := puts_nil hlocked.1
    obtain ⟨hs, hs'⟩ := puts_nil hlocked.2
    rw [hq, he.1, he.2, hp, hp', hs, hs']
    exact ⟨rfl, rfl, rfl⟩

/-- A step that leaves the queue as it is. -/
theorem Inv.quiet {q : Pc N} (h : Inv s l) (hq : s.pc t = q) (hpc : s'.pc = Function.update s.pc t p)
    (hsame : s'.next = s.next ∧ s'.prev = s.prev ∧ s'.tail = s.tail ∧ s'.head = s.head ∧
      s'.owner = s.owner ∧ s'.list = s.list)
    (hhand : p.hand = q.hand)
    (hlock : (∀ u, u ≠ t → (s'.lock = some u ↔ s.lock = some u)) ∧
      (p.locked = true ↔ s'.lock = some t))
    (hlead : p.leads = q.leads) (hhere : Local s l p) : Inv s' l := by
  obtain ⟨hnext, hprev, htail, hhead, howner, hlist⟩ := hsame
  subst hq
  obtain ⟨howes, hfixes, hhand⟩ := hand_eq hhand
  refine ⟨h.links.walk hpc ⟨hnext, hprev, htail⟩ ⟨howes, hfixes⟩,
    h.owners.keep hpc ⟨howner, hlist⟩ (fun n _ => by rw [hnext, hprev]; exact ⟨rfl, rfl⟩) hhand,
    h.turns.quiet hpc hlock hhead hlead (fun n u hn => by rwa [howner] at hn)
      (fun n hn => by rwa [howner]) (fun u e _ _ _ => by rw [hnext]) ?_⟩
  exact hhere.mono (fun _ => hhead) (fun _ _ _ => by rw [hnext]) fun n hn => by rwa [howner]

/-- A step in a lock section, or outside, that only moves on. -/
theorem Inv.goto {q : Pc N} (h : Inv s l) (hq : s.pc t = q) (hhand : p.hand = q.hand)
    (hlocked : p.locked = q.locked) (hlead : p.leads = q.leads) (hhere : Local s l p) :
    Inv (s.goto t p) l :=
  h.quiet hq rfl ⟨rfl, rfl, rfl, rfl, rfl, rfl⟩ hhand
    (lock_same h.turns.lock rfl (by rw [hq, hlocked])) hlead hhere

end Hold

end Libfibre.NemesisDoubleQueue
