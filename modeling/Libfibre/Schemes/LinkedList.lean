import Mathlib.Data.List.Infix
import Mathlib.Data.List.Nodup
import Mathlib.Logic.Function.Basic
import Mathlib.Logic.Relation

/-! Linked lists whose appenders publish in two steps: they swing the tail, and later make the link from
    the old tail to what they have appended. Between the two steps the list has a gap that somebody owes;
    a `Line` is a list of nodes each pair of which is linked or owed by one party. -/

namespace Libfibre.LinkedList

variable {N T : Type}

/-- `b` stands right behind `a`. -/
def Adj (l : List N) (a b : N) : Prop := [a, b] <:+: l

section Adj
variable {l k : List N} {a b c : N}

theorem adj_nil : ¬ Adj [] a b := by simp [Adj]

theorem adj_cons : Adj (c :: l) a b ↔ c = a ∧ l.head? = some b ∨ Adj l a b := by
  rw [Adj, Adj, List.infix_cons_iff, List.cons_prefix_cons]
  refine or_congr_left ⟨fun ⟨hc, h⟩ => ⟨hc.symm, ?_⟩, fun ⟨hc, h⟩ => ⟨hc.symm, ?_⟩⟩
  · obtain ⟨t, rfl⟩ := h
    rfl
  · cases l with
    | nil => cases h
    | cons x l => cases h; exact ⟨l, rfl⟩

theorem Adj.left_mem (h : Adj l a b) : a ∈ l := h.subset (List.mem_cons_self ..)

theorem Adj.right_mem (h : Adj l a b) : b ∈ l :=
  h.subset (List.mem_cons_of_mem _ (List.mem_cons_self ..))

theorem Adj.ne (h : Adj l a b) (hl : l.Nodup) : a ≠ b := by
  have hnodup : [a, b].Nodup := h.sublist.nodup hl
  rintro rfl
  simp at hnodup

theorem adj_reverse : Adj l.reverse a b ↔ Adj l b a := by
  rw [Adj, Adj, ← List.reverse_infix, List.reverse_reverse]
  rfl

theorem Adj.right_unique (hl : l.Nodup) (h : Adj l a b) (h' : Adj l a c) : b = c := by
  induction l with
  | nil => exact (adj_nil h).elim
  | cons x l ih =>
    obtain ⟨hx, hl⟩ := List.nodup_cons.mp hl
    rcases adj_cons.mp h with ⟨hxa, h⟩ | h
    · rcases adj_cons.mp h' with ⟨-, h'⟩ | h'
      · exact Option.some.inj (h.symm.trans h')
      · exact absurd (hxa ▸ h'.left_mem) hx
    · rcases adj_cons.mp h' with ⟨hxa, -⟩ | h'
      · exact absurd (hxa ▸ h.left_mem) hx
      · exact ih hl h h'

theorem Adj.left_unique (hl : l.Nodup) (h : Adj l a c) (h' : Adj l b c) : a = b :=
  Adj.right_unique (List.nodup_reverse.mpr hl) (adj_reverse.mpr h) (adj_reverse.mpr h')

/-- Who is not the first stands behind somebody. -/
theorem exists_adj (ha : a ∈ l) : l.head? = some a ∨ ∃ b, Adj l b a := by
  induction l with
  | nil => cases ha
  | cons x l ih =>
    rcases List.mem_cons.mp ha with rfl | ha
    · exact .inl rfl
    · rcases ih ha with h | ⟨b, h⟩
      · exact .inr ⟨x, adj_cons.mpr (.inl ⟨rfl, h⟩)⟩
      · exact .inr ⟨b, adj_cons.mpr (.inr h)⟩

theorem head?_eq_some (hl : l.Nodup) : l.head? = some a ↔ a ∈ l ∧ ∀ b, ¬ Adj l b a := by
  refine ⟨fun h => ⟨List.mem_of_mem_head? h, fun b hb => ?_⟩, fun ⟨ha, hno⟩ => ?_⟩
  · cases l with
    | nil => cases h
    | cons x l =>
      obtain ⟨hx, hl⟩ := List.nodup_cons.mp hl
      cases h
      rcases adj_cons.mp hb with ⟨-, h⟩ | h
      · exact hx (List.mem_of_mem_head? h)
      · exact hx h.right_mem
  · exact (exists_adj ha).resolve_right fun ⟨b, h⟩ => hno b h

theorem getLast?_eq_some (hl : l.Nodup) : l.getLast? = some a ↔ a ∈ l ∧ ∀ b, ¬ Adj l a b := by
  rw [← List.head?_reverse, head?_eq_some (List.nodup_reverse.mpr hl), List.mem_reverse]
  exact and_congr_right' (forall_congr' fun b => not_congr adj_reverse)

theorem adj_append : Adj (l ++ k) a b ↔
    Adj l a b ∨ l.getLast? = some a ∧ k.head? = some b ∨ Adj k a b := by
  induction l with
  | nil => simp [adj_nil]
  | cons x l ih =>
    rw [List.cons_append, adj_cons, adj_cons, ih, List.head?_append]
    cases l with
    | nil => simp [adj_nil]
    | cons y l => simp [or_assoc]

/-- Nobody stands behind the last one. -/
theorem Adj.not_last (hl : l.Nodup) (h : Adj l a b) : l.getLast? ≠ some a :=
  fun hlast => ((getLast?_eq_some hl).mp hlast).2 b h

theorem Adj.not_first (hl : l.Nodup) (h : Adj l a b) : l.head? ≠ some b :=
  fun hfirst => ((head?_eq_some hl).mp hfirst).2 a h

/-- Who follows the neighbours from the first one gets to everybody. -/
theorem reaches {R : N → N → Prop} (hR : ∀ a b, Adj l a b → R a b) (ha : l.head? = some a)
    (hc : c ∈ l) : Relation.ReflTransGen R a c := by
  induction l generalizing a with
  | nil => cases ha
  | cons x l ih =>
    obtain rfl := Option.some.inj ha
    rcases List.mem_cons.mp hc with rfl | hc
    · exact .refl
    · cases l with
      | nil => cases hc
      | cons y l =>
        exact .head (hR x y (adj_cons.mpr (.inl ⟨rfl, rfl⟩)))
          (ih (fun a b hab => hR a b (adj_cons.mpr (.inr hab))) rfl hc)

end Adj

/-! ### A node leaves -/

section Erase
variable [DecidableEq N] {l : List N} {a b c : N}

theorem head?_erase (hl : l.Nodup) :
    (l.erase c).head? = some b ↔ l.head? = some b ∧ b ≠ c ∨ l.head? = some c ∧ Adj l c b := by
  cases l with
  | nil => simp
  | cons x l =>
    obtain ⟨hx, -⟩ := List.nodup_cons.mp hl
    rcases eq_or_ne x c with rfl | hne
    · rw [List.erase_cons_head, List.head?_cons, adj_cons]
      constructor
      · exact fun h => .inr ⟨rfl, .inl ⟨rfl, h⟩⟩
      · rintro (⟨h, hne⟩ | ⟨-, ⟨-, h⟩ | h⟩)
        · exact absurd (Option.some.inj h).symm hne
        · exact h
        · exact absurd h.left_mem hx
    · rw [List.erase_cons_tail (by simpa using hne), List.head?_cons]
      constructor
      · exact fun h => .inl ⟨h, Option.some.inj h ▸ hne⟩
      · rintro (⟨h, -⟩ | ⟨h, -⟩)
        · exact h
        · exact absurd (Option.some.inj h) hne

theorem head?_erase_ne (hl : l.head? ≠ some c) : (l.erase c).head? = l.head? := by
  cases l with
  | nil => rfl
  | cons x l =>
    have hxc : x ≠ c := fun hxc => hl (by rw [hxc]; rfl)
    rw [List.erase_cons_tail (by simpa using hxc)]
    rfl

/-- Who leaves makes neighbours of the two around it. -/
theorem adj_erase (hl : l.Nodup) :
    Adj (l.erase c) a b ↔ Adj l a b ∧ a ≠ c ∧ b ≠ c ∨ Adj l a c ∧ Adj l c b := by
  induction l with
  | nil => simp [adj_nil]
  | cons x l ih =>
    obtain ⟨hx, hl⟩ := List.nodup_cons.mp hl
    rcases eq_or_ne x c with rfl | hne
    · rw [List.erase_cons_head]
      constructor
      · refine fun h => .inl ⟨adj_cons.mpr (.inr h), ?_, ?_⟩
        · exact fun ha => hx (ha ▸ h.left_mem)
        · exact fun hb => hx (hb ▸ h.right_mem)
      · rintro (⟨h, hax, -⟩ | ⟨h, -⟩)
        · exact (adj_cons.mp h).resolve_left fun h => hax h.1.symm
        · rcases adj_cons.mp h with ⟨-, h⟩ | h
          · exact absurd (List.mem_of_mem_head? h) hx
          · exact absurd h.right_mem hx
    · rw [List.erase_cons_tail (by simpa using hne), adj_cons, head?_erase hl, ih hl, adj_cons,
        adj_cons, adj_cons]
      constructor
      · rintro (⟨rfl, ⟨h, hb⟩ | ⟨h, hcb⟩⟩ | ⟨h, hac, hbc⟩ | ⟨h, hcb⟩)
        · exact .inl ⟨.inl ⟨rfl, h⟩, hne, hb⟩
        · exact .inr ⟨.inl ⟨rfl, h⟩, .inr hcb⟩
        · exact .inl ⟨.inr h, hac, hbc⟩
        · exact .inr ⟨.inr h, .inr hcb⟩
      · rintro (⟨⟨rfl, h⟩ | h, hac, hbc⟩ | ⟨h, ⟨hxc, -⟩ | hcb⟩)
        · exact .inl ⟨rfl, .inl ⟨h, hbc⟩⟩
        · exact .inr (.inl ⟨h, hac, hbc⟩)
        · exact absurd hxc hne
        · rcases h with ⟨rfl, h⟩ | h
          · exact .inl ⟨rfl, .inr ⟨h, hcb⟩⟩
          · exact .inr (.inr ⟨h, hcb⟩)

theorem getLast?_erase (hl : l.Nodup) : (l.erase c).getLast? = some a ↔
    l.getLast? = some a ∧ a ≠ c ∨ Adj l a c ∧ l.getLast? = some c := by
  rw [getLast?_eq_some (hl.erase c), getLast?_eq_some hl, getLast?_eq_some hl, hl.mem_erase_iff]
  constructor
  · rintro ⟨⟨hac, ha⟩, hno⟩
    by_cases hadj : Adj l a c
    · refine .inr ⟨hadj, hadj.right_mem, fun b hb => ?_⟩
      exact hno b ((adj_erase hl).mpr (.inr ⟨hadj, hb⟩))
    · refine .inl ⟨⟨ha, fun b hb => ?_⟩, hac⟩
      refine hno b ((adj_erase hl).mpr (.inl ⟨hb, hac, ?_⟩))
      rintro rfl
      exact hadj hb
  · rintro (⟨⟨ha, hno⟩, hac⟩ | ⟨hadj, -, hno⟩)
    · refine ⟨⟨hac, ha⟩, fun b hb => ?_⟩
      rcases (adj_erase hl).mp hb with ⟨hb, -⟩ | ⟨hb, -⟩
      · exact hno b hb
      · exact hno c hb
    · refine ⟨⟨hadj.ne hl, hadj.left_mem⟩, fun b hb => ?_⟩
      rcases (adj_erase hl).mp hb with ⟨hb, -, hne⟩ | ⟨-, hb⟩
      · exact hne (hb.right_unique hl hadj)
      · exact hno b hb

end Erase

/-! ### Segments -/

section Segments
variable [DecidableEq N] {k : List N} {a b n z : N}

/-- Link the nodes of a list up in their order; the last one keeps its link. -/
def prelink (next : N → Option N) : List N → N → Option N
  | a :: b :: rest => Function.update (prelink next (b :: rest)) a (some b)
  | _ => next

/-- Update a function at all members of a list. -/
def updateAll {α : Type} (f : N → α) (k : List N) (v : α) : N → α :=
  fun n => if n ∈ k then v else f n

theorem prelink_other (next : N → Option N) : ∀ {k : List N} {n : N}, n ∉ k → prelink next k n = next n
  | [], _, _ | [_], _, _ => rfl
  | a :: b :: rest, n, hn => by
    have hna : n ≠ a := by
      rintro rfl
      exact hn (List.mem_cons_self ..)
    rw [prelink, Function.update_of_ne hna]
    exact prelink_other next fun h => hn (List.mem_cons_of_mem a h)

theorem prelink_adj (next : N → Option N) : ∀ {k : List N}, k.Nodup → ∀ {a b : N}, Adj k a b →
    prelink next k a = some b
  | [], _, _, _, h => (adj_nil h).elim
  | [_], _, _, _, h => by
    rcases adj_cons.mp h with ⟨-, hb⟩ | hb
    · cases hb
    · exact (adj_nil hb).elim
  | x :: y :: rest, hk, a, b, h => by
    obtain ⟨hx, hk⟩ := List.nodup_cons.mp hk
    rw [prelink]
    rcases adj_cons.mp h with ⟨rfl, hb⟩ | hb
    · rw [Function.update_self, ← hb, List.head?_cons]
    · have hax : a ≠ x := by
        rintro rfl
        exact hx hb.left_mem
      rw [Function.update_of_ne hax]
      exact prelink_adj next hk hb

theorem prelink_last (next : N → Option N) : ∀ {k : List N}, k.Nodup → ∀ {z : N}, k.getLast? = some z →
    prelink next k z = next z
  | [], _, _, h => by cases h
  | [_], _, _, _ => rfl
  | x :: y :: rest, hk, z, h => by
    obtain ⟨hx, hk⟩ := List.nodup_cons.mp hk
    rw [List.getLast?_cons_cons] at h
    have hzx : z ≠ x := by
      rintro rfl
      exact hx (List.mem_of_getLast? h)
    rw [prelink, Function.update_of_ne hzx]
    exact prelink_last next hk h

theorem updateAll_mem {α : Type} {f : N → α} {v : α} (hn : n ∈ k) : updateAll f k v n = v := if_pos hn

theorem updateAll_other {α : Type} {f : N → α} {v : α} (hn : n ∉ k) : updateAll f k v n = f n :=
  if_neg hn

theorem updateAll_iff {α : Type} {f : N → α} {v : α} : updateAll f k v n = v ↔ f n = v ∨ n ∈ k := by
  by_cases hn : n ∈ k
  · exact iff_of_true (updateAll_mem hn) (.inr hn)
  · rw [updateAll_other hn, or_iff_left hn]

theorem of_updateAll {α : Type} {f : N → α} {v w : α} (h : updateAll f k v n = w) (hvw : v ≠ w) :
    n ∉ k ∧ f n = w := by
  have hn : n ∉ k := fun hn => hvw ((updateAll_mem hn).symm.trans h)
  exact ⟨hn, (updateAll_other hn).symm.trans h⟩

theorem updateAll_singleton {α : Type} {f : N → α} {v : α} : Function.update f a v = updateAll f [a] v := by
  funext n
  rcases eq_or_ne n a with rfl | hn
  · rw [Function.update_self, updateAll_mem (List.mem_singleton_self n)]
  · rw [Function.update_of_ne hn, updateAll_other fun hmem => hn (List.mem_singleton.mp hmem)]

end Segments

theorem of_update_none {α : Type} [DecidableEq T] {f : T → Option α} {t u : T} {v : α}
    (h : Function.update f t none u = some v) : u ≠ t ∧ f u = some v := by
  have hut : u ≠ t := by
    rintro rfl
    rw [Function.update_self] at h
    cases h
  exact ⟨hut, by rwa [Function.update_of_ne hut] at h⟩

/-- A new value keeps values from coming twice if nobody has it yet. -/
theorem unique_update {α : Type} [DecidableEq T] {f : T → Option α} {t u v : T} {w x : α}
    (h : ∀ u v x, f u = some x → f v = some x → u = v) (hnot : ∀ u, f u ≠ some w)
    (hu : Function.update f t (some w) u = some x) (hv : Function.update f t (some w) v = some x) :
    u = v := by
  rcases eq_or_ne u t with rfl | hut
  · rw [Function.update_self] at hu
    by_contra hne
    rw [Function.update_of_ne (Ne.symm hne), ← hu] at hv
    exact hnot v hv
  · rw [Function.update_of_ne hut] at hu
    rcases eq_or_ne v t with rfl | hvt
    · rw [Function.update_self] at hv
      exact absurd (hu.trans hv.symm) (hnot u)
    · rw [Function.update_of_ne hvt] at hv
      exact h u v x hu hv

/-- INVARIANT: each node is linked to the one behind it, or one party owes the link. -/
structure Line (nxt : N → Option N) (tail : Option N) (owes : T → Option (N × N)) (l : List N) :
    Prop where
  nodup : l.Nodup
  last : tail = l.getLast?
  ends : ∀ z, l.getLast? = some z → nxt z = none
  links : ∀ a b, Adj l a b → nxt a = some b ∨ ∃ t, owes t = some (a, b)
  owed : ∀ t a b, owes t = some (a, b) → Adj l a b ∧ nxt a = none
  debtor : ∀ t u a b, owes t = some (a, b) → owes u = some (a, b) → t = u

namespace Line
variable {nxt nxt' : N → Option N} {tail : Option N} {owes : T → Option (N × N)} {l : List N}
  {e n : N}

theorem nil : Line nxt none (fun _ : T => none) [] :=
  ⟨List.nodup_nil, rfl, fun _ h => (by cases h), fun _ _ h => (adj_nil h).elim,
    fun _ _ _ h => (by cases h), fun _ _ _ _ h => (by cases h)⟩

theorem congr (h : Line nxt tail owes l) (hnxt : ∀ a ∈ l, nxt' a = nxt a) :
    Line nxt' tail owes l where
  nodup := h.nodup
  last := h.last
  ends z hz := by rw [hnxt z (List.mem_of_getLast? hz)]; exact h.ends z hz
  links a b hab := by rw [hnxt a hab.left_mem]; exact h.links a b hab
  owed t a b hab := by
    obtain ⟨hadj, hnull⟩ := h.owed t a b hab
    exact ⟨hadj, by rw [hnxt a hadj.left_mem]; exact hnull⟩
  debtor := h.debtor

theorem eq_nil (h : Line nxt none owes l) : l = [] :=
  List.getLast?_eq_none_iff.mp h.last.symm

/-- The next node, once linked, is the first of the rest. -/
theorem head?_eq (h : Line nxt tail owes (e :: l)) (hn : nxt e = some n) : l.head? = some n := by
  cases hl : l with
  | nil =>
    have hend := h.ends e (by rw [hl]; rfl)
    rw [hn] at hend
    cases hend
  | cons x l =>
    have hadj : Adj (e :: x :: l) e x := adj_cons.mpr (.inl ⟨rfl, rfl⟩)
    rw [hl] at h
    rcases h.links e x hadj with hx | ⟨t, ht⟩
    · rw [List.head?_cons, ← hx, hn]
    · have := (h.owed t e x ht).2
      rw [hn] at this
      cases this

/-- The first node leaves once its successor is linked. -/
theorem pop (h : Line nxt tail owes (e :: l)) (hn : nxt e = some n) : Line nxt tail owes l where
  nodup := h.nodup.of_cons
  last := by
    have hl := h.head?_eq hn
    cases l with
    | nil => cases hl
    | cons x l => rw [h.last, List.getLast?_cons_cons]
  ends z hz := by
    refine h.ends z ?_
    cases l with
    | nil => cases hz
    | cons x l => rw [List.getLast?_cons_cons]; exact hz
  links a b hab := h.links a b (adj_cons.mpr (.inr hab))
  owed t a b hab := by
    obtain ⟨hadj, hnull⟩ := h.owed t a b hab
    refine ⟨(adj_cons.mp hadj).resolve_left fun ⟨ha, _⟩ => ?_, hnull⟩
    rw [← ha, hn] at hnull
    cases hnull
  debtor := h.debtor

/-- A first node that is the tail is the only one. -/
theorem sole (h : Line nxt (some e) owes (e :: l)) : l = [] := by
  cases l with
  | nil => rfl
  | cons x l =>
    have hlast := h.last
    rw [List.getLast?_cons_cons] at hlast
    exact absurd (List.mem_of_getLast? hlast.symm) (List.nodup_cons.mp h.nodup).1

/-- The only node leaves. -/
theorem clear (h : Line nxt tail owes [e]) : Line nxt none owes [] where
  nodup := List.nodup_nil
  last := rfl
  ends z hz := by cases hz
  links a b hab := (adj_nil hab).elim
  owed t a b hab := by
    rcases adj_cons.mp (h.owed t a b hab).1 with ⟨-, hb⟩ | hb
    · cases hb
    · exact (adj_nil hb).elim
  debtor := h.debtor

section Append
variable [DecidableEq T] {t : T} {k : List N} {a b : N}

/-- The tail swings from `a` to the end of a linked segment whose first node is `b`; the party now owes
    the link between the two. -/
theorem append (h : Line nxt (some a) owes l) (howes : owes t = none) (hb : k.head? = some b)
    (hk : k.Nodup) (hdisj : ∀ x ∈ k, x ∉ l) (hlinks : ∀ x y, Adj k x y → nxt x = some y)
    (hend : ∀ z, k.getLast? = some z → nxt z = none) :
    Line nxt k.getLast? (Function.update owes t (some (a, b))) (l ++ k) where
  nodup := List.nodup_append.mpr ⟨h.nodup, hk, fun x hx y hy hxy => hdisj y hy (hxy ▸ hx)⟩
  last := by
    have hne : k ≠ [] := by rintro rfl; cases hb
    rw [List.getLast?_append_of_ne_nil l hne]
  ends z hz := by
    have hne : k ≠ [] := by rintro rfl; cases hb
    rw [List.getLast?_append_of_ne_nil l hne] at hz
    exact hend z hz
  links x y hxy := by
    rcases adj_append.mp hxy with hxy | ⟨hx, hy⟩ | hxy
    · refine (h.links x y hxy).imp_right fun ⟨u, hu⟩ => ⟨u, ?_⟩
      rw [Function.update_of_ne (by rintro rfl; rw [howes] at hu; cases hu)]
      exact hu
    · rw [← h.last] at hx
      refine .inr ⟨t, ?_⟩
      rw [Function.update_self, Option.some.inj hx, Option.some.inj (hb.symm.trans hy)]
    · exact .inl (hlinks x y hxy)
  owed u x y hu := by
    rcases eq_or_ne u t with rfl | hne
    · rw [Function.update_self, Option.some.injEq, Prod.mk.injEq] at hu
      obtain ⟨rfl, rfl⟩ := hu
      exact ⟨adj_append.mpr (.inr (.inl ⟨h.last.symm, hb⟩)), h.ends _ h.last.symm⟩
    · rw [Function.update_of_ne hne] at hu
      obtain ⟨hadj, hnull⟩ := h.owed u x y hu
      exact ⟨adj_append.mpr (.inl hadj), hnull⟩
  debtor u v x y hu hv := by
    have hnot : ∀ w, owes w ≠ some (a, b) := fun w hw =>
      (h.owed w a b hw).1.not_last h.nodup h.last.symm
    exact unique_update (fun u v z => h.debtor u v z.1 z.2) hnot hu hv

omit [DecidableEq T] in
/-- The tail swings to the end of a linked segment from an empty line. -/
theorem start (h : Line nxt none owes l) (hk : k.Nodup) (hlinks : ∀ x y, Adj k x y → nxt x = some y)
    (hend : ∀ z, k.getLast? = some z → nxt z = none) : Line nxt k.getLast? owes k where
  nodup := hk
  last := rfl
  ends := hend
  links x y hxy := .inl (hlinks x y hxy)
  owed u x y hu := by
    have hadj := (h.owed u x y hu).1
    rw [h.eq_nil] at hadj
    exact (adj_nil hadj).elim
  debtor := h.debtor

/-- A party makes the link that it owes. -/
theorem link [DecidableEq N] (h : Line nxt tail owes l) (howes : owes t = some (a, b)) :
    Line (Function.update nxt a (some b)) tail (Function.update owes t none) l where
  nodup := h.nodup
  last := h.last
  ends z hz := by
    have hadj := (h.owed t a b howes).1
    rw [Function.update_of_ne (by rintro rfl; exact hadj.not_last h.nodup hz)]
    exact h.ends z hz
  links x y hxy := by
    have hadj := (h.owed t a b howes).1
    rcases eq_or_ne x a with rfl | hx
    · rw [Function.update_self, hadj.right_unique h.nodup hxy]
      exact .inl rfl
    · rw [Function.update_of_ne hx]
      refine (h.links x y hxy).imp_right fun ⟨u, hu⟩ => ⟨u, ?_⟩
      have hut : u ≠ t := by
        rintro rfl
        rw [howes, Option.some.injEq, Prod.mk.injEq] at hu
        exact hx hu.1.symm
      rw [Function.update_of_ne hut]
      exact hu
  owed u x y hu := by
    obtain ⟨hut, hu⟩ := of_update_none hu
    obtain ⟨hadj, hnull⟩ := h.owed u x y hu
    have hx : x ≠ a := by
      rintro rfl
      obtain rfl := (h.owed t x b howes).1.right_unique h.nodup hadj
      exact hut (h.debtor u t x b hu howes)
    exact ⟨hadj, by rw [Function.update_of_ne hx]; exact hnull⟩
  debtor u v x y hu hv := h.debtor u v x y (of_update_none hu).2 (of_update_none hv).2

end Append

/-! ### A node in the middle leaves -/

section Unlink
variable [DecidableEq N] [DecidableEq T] {t : T} {a : N}

omit [DecidableEq N] [DecidableEq T] in
/-- The node that a member is linked to stands behind it. -/
theorem adj (h : Line nxt tail owes l) (he : e ∈ l) (hn : nxt e = some n) : Adj l e n := by
  have hnot : l.getLast? ≠ some e := fun hlast => by
    rw [h.ends e hlast] at hn
    cases hn
  obtain ⟨b, hb⟩ : ∃ b, Adj l e b := by
    by_contra hno
    exact hnot ((getLast?_eq_some h.nodup).mpr ⟨he, fun b hb => hno ⟨b, hb⟩⟩)
  rcases h.links e b hb with hlink | ⟨u, hu⟩
  · rw [hn, Option.some.injEq] at hlink
    exact hlink ▸ hb
  · rw [(h.owed u e b hu).2] at hn
    cases hn

/-- A party cuts a link and owes it from then on. -/
theorem cut (h : Line nxt tail owes l) (howes : owes t = none) (hadj : Adj l a e)
    (hlink : nxt a = some e) :
    Line (Function.update nxt a none) tail (Function.update owes t (some (a, e))) l where
  nodup := h.nodup
  last := h.last
  ends z hz := by
    rw [Function.update_of_ne (by rintro rfl; exact hadj.not_last h.nodup hz)]
    exact h.ends z hz
  links x y hxy := by
    rcases eq_or_ne x a with rfl | hx
    · exact .inr ⟨t, by rw [Function.update_self, hadj.right_unique h.nodup hxy]⟩
    · rw [Function.update_of_ne hx]
      refine (h.links x y hxy).imp_right fun ⟨u, hu⟩ => ⟨u, ?_⟩
      rw [Function.update_of_ne (by rintro rfl; rw [howes] at hu; cases hu)]
      exact hu
  owed u x y hu := by
    rcases eq_or_ne u t with rfl | hut
    · rw [Function.update_self, Option.some.injEq, Prod.mk.injEq] at hu
      obtain ⟨rfl, rfl⟩ := hu
      exact ⟨hadj, Function.update_self ..⟩
    · rw [Function.update_of_ne hut] at hu
      obtain ⟨hxy, hnull⟩ := h.owed u x y hu
      refine ⟨hxy, ?_⟩
      rcases eq_or_ne x a with rfl | hx
      · exact Function.update_self ..
      · rw [Function.update_of_ne hx]
        exact hnull
  debtor u v x y hu hv := by
    have hother : ∀ w, Function.update owes t (some (a, e)) w = some (x, y) → x = a → w = t := by
      rintro w hw rfl
      by_contra hwt
      rw [Function.update_of_ne hwt] at hw
      rw [(h.owed w x y hw).2] at hlink
      cases hlink
    rcases eq_or_ne x a with hx | hx
    · exact (hother u hu hx).trans (hother v hv hx).symm
    · have hne : ∀ w, Function.update owes t (some (a, e)) w = some (x, y) → w ≠ t := by
        rintro w hw rfl
        rw [Function.update_self, Option.some.injEq, Prod.mk.injEq] at hw
        exact hx hw.1.symm
      rw [Function.update_of_ne (hne u hu)] at hu
      rw [Function.update_of_ne (hne v hv)] at hv
      exact h.debtor u v x y hu hv

omit [DecidableEq N] in
/-- A link to another node than the one that `t` owes its link to. -/
theorem links_other {x y : N} {o : Option (N × N)} (h : Line nxt tail owes l)
    (howes : owes t = some (a, e)) (hxy : Adj l x y) (hye : y ≠ e) :
    nxt x = some y ∨ ∃ u, Function.update owes t o u = some (x, y) := by
  refine (h.links x y hxy).imp_right fun ⟨u, hu⟩ => ⟨u, ?_⟩
  have hut : u ≠ t := by
    rintro rfl
    rw [howes, Option.some.injEq, Prod.mk.injEq] at hu
    exact hye hu.2.symm
  rw [Function.update_of_ne hut]
  exact hu

/-- A node that is linked, but not linked to, leaves: the link to it becomes one to the next node. -/
theorem skip (h : Line nxt tail owes l) (howes : owes t = some (a, e)) (hn : nxt e = some n) :
    Line nxt tail (Function.update owes t (some (a, n))) (l.erase e) where
  nodup := h.nodup.erase e
  last := by
    have hen := h.adj (h.owed t a e howes).1.right_mem hn
    cases hz : l.getLast? with
    | none => rw [List.getLast?_eq_none_iff.mp hz] at hen; exact (adj_nil hen).elim
    | some z =>
      rw [h.last, hz]
      refine ((getLast?_erase h.nodup).mpr (.inl ⟨hz, ?_⟩)).symm
      rintro rfl
      exact hen.not_last h.nodup hz
  ends z hz := by
    rcases (getLast?_erase h.nodup).mp hz with ⟨hz, -⟩ | ⟨-, hz⟩
    · exact h.ends z hz
    · rw [h.ends e hz] at hn
      cases hn
  links x y hxy := by
    rcases (adj_erase h.nodup).mp hxy with ⟨hxy, -, hye⟩ | ⟨hxe, hey⟩
    · exact h.links_other howes hxy hye
    · refine .inr ⟨t, ?_⟩
      have hae := (h.owed t a e howes).1
      rw [Function.update_self, hae.left_unique h.nodup hxe,
        (h.adj hae.right_mem hn).right_unique h.nodup hey]
  owed u x y hu := by
    have hae := (h.owed t a e howes).1
    rcases eq_or_ne u t with rfl | hut
    · rw [Function.update_self, Option.some.injEq, Prod.mk.injEq] at hu
      obtain ⟨rfl, rfl⟩ := hu
      exact ⟨(adj_erase h.nodup).mpr (.inr ⟨hae, h.adj hae.right_mem hn⟩), (h.owed u a e howes).2⟩
    · rw [Function.update_of_ne hut] at hu
      obtain ⟨hxy, hnull⟩ := h.owed u x y hu
      refine ⟨(adj_erase h.nodup).mpr (.inl ⟨hxy, ?_, ?_⟩), hnull⟩
      · rintro rfl
        rw [hnull] at hn
        cases hn
      · rintro rfl
        obtain rfl := hae.left_unique h.nodup hxy
        exact hut (h.debtor u t a y hu howes)
  debtor u v x y hu hv := by
    have hae := (h.owed t a e howes).1
    have hnot : ∀ w, owes w ≠ some (a, n) := fun w hw => by
      have hne := (h.adj hae.right_mem hn).ne h.nodup
      exact hne (hae.right_unique h.nodup (h.owed w a n hw).1)
    exact unique_update (fun u v z => h.debtor u v z.1 z.2) hnot hu hv

/-- A node that is linked on both sides is bypassed. -/
theorem unlink (h : Line nxt tail owes l) (howes : owes t = none) (hadj : Adj l a e)
    (hlink : nxt a = some e) (hn : nxt e = some n) :
    Line (Function.update nxt a (some n)) tail owes (l.erase e) := by
  have hea : e ≠ a := (hadj.ne h.nodup).symm
  have hcut := h.cut howes hadj hlink
  have hskip := hcut.skip (Function.update_self ..) ((Function.update_of_ne hea ..).trans hn)
  have hdone := hskip.link (Function.update_self ..)
  have hsame : Function.update owes t none = owes := Function.update_eq_self_iff.mpr howes.symm
  rwa [Function.update_idem, Function.update_idem, Function.update_idem, hsame] at hdone

/-- The last node, not linked to, leaves: the tail swings back. -/
theorem retreat (h : Line nxt (some e) owes l) (howes : owes t = some (a, e)) :
    Line nxt (some a) (Function.update owes t none) (l.erase e) where
  nodup := h.nodup.erase e
  last := ((getLast?_erase h.nodup).mpr (.inr ⟨(h.owed t a e howes).1, h.last.symm⟩)).symm
  ends z hz := by
    obtain ⟨hae, hnull⟩ := h.owed t a e howes
    rcases (getLast?_erase h.nodup).mp hz with ⟨hz, hne⟩ | ⟨hz, -⟩
    · exact absurd (Option.some.inj (hz.symm.trans h.last.symm)) hne
    · rwa [hz.left_unique h.nodup hae]
  links x y hxy := by
    rcases (adj_erase h.nodup).mp hxy with ⟨hxy, -, hye⟩ | ⟨-, hey⟩
    · exact h.links_other howes hxy hye
    · exact absurd h.last.symm (hey.not_last h.nodup)
  owed u x y hu := by
    obtain ⟨hut, hu⟩ := of_update_none hu
    obtain ⟨hxy, hnull⟩ := h.owed u x y hu
    refine ⟨(adj_erase h.nodup).mpr (.inl ⟨hxy, ?_, ?_⟩), hnull⟩
    · rintro rfl
      exact hxy.not_last h.nodup h.last.symm
    · rintro rfl
      obtain rfl := (h.owed t a y howes).1.left_unique h.nodup hxy
      exact hut (h.debtor u t a y hu howes)
  debtor u v x y hu hv := h.debtor u v x y (of_update_none hu).2 (of_update_none hv).2

end Unlink

end Line

end Libfibre.LinkedList
