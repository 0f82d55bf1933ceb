import Libfibre.Schemes.Multimap
import Mathlib.Data.Prod.Lex

/-! `StatsPrint` and `PrintRecursive` (`Stats.cc`): every object with counters has put itself into a list,
    with its own address and that of its parent. The list is emptied into a multimap by parent, and a
    recursion prints the objects as a tree, from those without a parent down, taking each out of the
    multimap as it goes.

        EventScope 1                 parent 0, sort 0
         Poller 5                    parent 1, sort 1
         Cluster 2                   parent 1, sort 2
          Processor 3                parent 2, sort 2
          Processor 4                parent 2, sort 2

    Nothing says that parents are objects of the list, that addresses differ or that there is no cycle:
    `PrintRecursive` ends all the same, and prints what can be reached. -/

namespace Libfibre.FredStats
open Multimap

/-- What `PrintRecursive` looks at; `name` is the text's first character. -/
structure Base where
  object : ℕ
  parent : ℕ
  sort : ℕ
  name : ℕ
  deriving DecidableEq

structure PrintStatsNode where
  object : ℕ
  sort : ℕ
  name : ℕ

/-- `operator<`. -/
def PrintStatsNode.less (a x : PrintStatsNode) : Bool :=
  if a.object ≠ x.object then decide (a.object < x.object)
  else if a.sort ≠ x.sort then decide (a.sort < x.sort)
  else decide (a.name < x.name)

/-- The order of the multimap. -/
def PrintStatsNode.key (a : PrintStatsNode) : ℕ ×ₗ ℕ ×ₗ ℕ := toLex (a.object, toLex (a.sort, a.name))

def Base.node (o : Base) : PrintStatsNode := ⟨o.parent, o.sort, o.name⟩

abbrev Base.key (o : Base) : ℕ ×ₗ ℕ ×ₗ ℕ := o.node.key

/-- `{next, 0, ""}`. -/
def first (next : ℕ) : ℕ ×ₗ ℕ ×ₗ ℕ := PrintStatsNode.key ⟨next, 0, 0⟩

/-- The loop of `PrintRecursive`, for the children of `next`, for as many rounds as `fuel`: the lines with
    their indentation, and what is left of the multimap. -/
def printLoop : (fuel next depth : ℕ) → List Base → List (ℕ × Base) × List Base
  | 0, _, _, statsMap => ([], statsMap)
  | fuel + 1, next, depth, statsMap =>
    match lowerBound Base.key (first next) statsMap with
    | none => ([], statsMap)
    | some o =>
      if o.parent ≠ next then ([], statsMap)
      else
        -- `PrintRecursive(o, depth, ..)`, and the rest of this loop
        let (sub, statsMap) := printLoop fuel o.object (depth + 1) (eraseBound Base.key (first next) statsMap)
        let (rest, statsMap) := printLoop fuel next depth statsMap
        ((depth, o) :: sub ++ rest, statsMap)

/-- `StatsPrint` up to the totals: `statsList` goes into the multimap, and
    `PrintRecursive(nullptr, 0, ..)`. -/
def statsPrint (statsList : List Base) : List (ℕ × Base) × List Base :=
  printLoop statsList.length 0 0 (ofList Base.key statsList)

/-! ### Trees -/

/-- The lines are trees of children of `next`, each with its own children below it, one step further in. -/
inductive Forest : (next depth : ℕ) → List (ℕ × Base) → Prop
  | nil {next depth : ℕ} : Forest next depth []
  | cons {o : Base} {depth : ℕ} {sub rest : List (ℕ × Base)} :
      Forest o.object (depth + 1) sub → Forest o.parent depth rest →
      Forest o.parent depth ((depth, o) :: sub ++ rest)

/-- A line of parents leads from the object to one without. -/
inductive Reached (l : List Base) : Base → Prop
  | root {o : Base} : o ∈ l → o.parent = 0 → Reached l o
  | child {o c : Base} : o ∈ l → Reached l c → c.object = o.parent → Reached l o

/-- The lines of the children of `p`, in their order. -/
def siblings (p : ℕ) (l : List Base) : List Base := l.filter fun o => decide (o.parent = p)

variable {l m m' : List Base} {out : List (ℕ × Base)} {o c : Base} {next depth fuel : ℕ}

theorem less_iff (a x : PrintStatsNode) : a.less x = true ↔ a.key < x.key := by
  rw [PrintStatsNode.less, PrintStatsNode.key, PrintStatsNode.key, Prod.Lex.toLex_lt_toLex,
    Prod.Lex.toLex_lt_toLex]
  split_ifs with hobject hsort
  · rw [decide_eq_true_eq]
    exact ⟨.inl, fun h => h.resolve_right fun h' => hobject h'.1⟩
  · rw [decide_eq_true_eq]
    refine ⟨fun h => .inr ⟨not_not.mp hobject, .inl h⟩, fun h => ?_⟩
    rcases h with h | ⟨-, h⟩
    · exact absurd h (not_not.mp hobject ▸ lt_irrefl _)
    · exact h.resolve_right fun h' => hsort h'.1
  · rw [decide_eq_true_eq]
    refine ⟨fun h => .inr ⟨not_not.mp hobject, .inr ⟨not_not.mp hsort, h⟩⟩, fun h => ?_⟩
    rcases h with h | ⟨-, h | h⟩
    · exact absurd h (not_not.mp hobject ▸ lt_irrefl _)
    · exact absurd h (not_not.mp hsort ▸ lt_irrefl _)
    · exact h.2

/-- `{next, 0, ""}` is where the children of `next` begin. -/
theorem first_le_iff : first next ≤ o.key ↔ next ≤ o.parent := by
  rw [first, Base.key, PrintStatsNode.key, PrintStatsNode.key, Prod.Lex.toLex_le_toLex,
    Prod.Lex.toLex_le_toLex]
  refine ⟨fun h => ?_, fun h => ?_⟩
  · rcases h with h | ⟨h, -⟩
    · exact h.le
    · exact h.le
  · rcases Nat.lt_or_eq_of_le h with h | h
    · exact .inl h
    · refine .inr ⟨h, ?_⟩
      rcases Nat.eq_zero_or_pos o.sort with h0 | hpos
      · exact .inr ⟨h0.symm, Nat.zero_le _⟩
      · exact .inl hpos

theorem parent_le_of_key_le (h : o.key ≤ c.key) : o.parent ≤ c.parent := by
  rw [Base.key, Base.key, PrintStatsNode.key, PrintStatsNode.key, Prod.Lex.toLex_le_toLex] at h
  rcases h with h | ⟨h, -⟩
  · exact h.le
  · exact h.le

/-! ### The loop -/

/-- A round: no child of `next` is left, or the first of them is found and taken out. -/
theorem round_cases (hm : Sorted Base.key m) (next : ℕ) :
    ((∀ o ∈ m, o.parent ≠ next) ∧ ∀ fuel depth, printLoop (fuel + 1) next depth m = ([], m)) ∨
    ∃ o front back, o.parent = next ∧ m = front ++ o :: back ∧ (∀ c ∈ front, c.parent ≠ next) ∧
      ∀ fuel depth, printLoop (fuel + 1) next depth m =
        ((depth, o) :: (printLoop fuel o.object (depth + 1) (front ++ back)).1 ++
            (printLoop fuel next depth (printLoop fuel o.object (depth + 1) (front ++ back)).2).1,
          (printLoop fuel next depth (printLoop fuel o.object (depth + 1) (front ++ back)).2).2) := by
  have hnone : (∀ o, lowerBound Base.key (first next) m = some o → o.parent ≠ next) →
      ∀ o ∈ m, o.parent ≠ next := by
    intro hfound o ho hparent
    obtain ⟨x, hx, hle⟩ := hm.lowerBound_le ho (first_le_iff.mpr hparent.ge)
    have hge := first_le_iff.mp (lowerBound_some hx).1
    have hx' := parent_le_of_key_le hle
    exact hfound x hx (by omega)
  cases hx : lowerBound Base.key (first next) m with
  | none =>
    refine .inl ⟨hnone fun o ho => ?_, fun fuel depth => ?_⟩
    · rw [hx] at ho
      cases ho
    · rw [printLoop, hx]
  | some o =>
    by_cases hparent : o.parent = next
    · obtain ⟨-, front, back, hsplit, herase, hfront⟩ := lowerBound_some hx
      refine .inr ⟨o, front, back, hparent, hsplit, fun c hc hcp => ?_, fun fuel depth => ?_⟩
      · exact absurd (first_le_iff.mpr hcp.ge) (not_le.mpr (hfront c hc))
      · rw [printLoop, hx]
        dsimp only
        rw [if_neg (not_not.mpr hparent), herase]
    · refine .inl ⟨hnone fun x ho => ?_, fun fuel depth => ?_⟩
      · rw [hx] at ho
        exact Option.some.inj ho ▸ hparent
      · rw [printLoop, hx]
        dsimp only
        rw [if_pos hparent]

/-- The loop has printed the children of `next`, and the children of all that it has printed. -/
structure Loop (next depth : ℕ) (m : List Base) (out : List (ℕ × Base)) (m' : List Base) : Prop where
  forest : Forest next depth out
  left : m'.Sublist m
  siblings : ∀ p, siblings p (out.map Prod.snd) ++ siblings p m' = siblings p m
  complete : ∀ o ∈ m', o.parent ≠ next ∧ ∀ c ∈ out, o.parent ≠ c.2.object

/-- What is left after a round takes one round less. -/
theorem taken_length {front back : List Base} (h : (front ++ o :: back).length ≤ fuel + 1) :
    (front ++ back).length ≤ fuel := by
  rw [List.length_append, List.length_cons] at h
  rw [List.length_append]
  omega

/-- A tree, and the rest of the loop. -/
theorem Loop.cons {front back m₁ : List Base} {sub rest : List (ℕ × Base)} (hparent : o.parent = next)
    (hfront : ∀ c ∈ front, c.parent ≠ next) (hsub : Loop o.object (depth + 1) (front ++ back) sub m₁)
    (hrest : Loop next depth m₁ rest m') :
    Loop next depth (front ++ o :: back) ((depth, o) :: sub ++ rest) m' where
  forest := by
    subst hparent
    exact .cons hsub.forest hrest.forest
  left := (hrest.left.trans hsub.left).trans ((List.sublist_cons_self o back).append_left front)
  siblings p := by
    have h1 := hsub.siblings p
    have h2 := hrest.siblings p
    rw [FredStats.siblings, FredStats.siblings, FredStats.siblings] at h1 h2 ⊢
    have hout : ((depth, o) :: sub ++ rest).map Prod.snd = o :: (sub.map Prod.snd ++ rest.map Prod.snd) := by
      rw [List.cons_append, List.map_cons, List.map_append]
    rw [List.filter_append] at h1
    rw [hout, List.filter_cons, List.filter_append, List.filter_append, List.filter_cons]
    by_cases hp : o.parent = p
    · have hnone : (front.filter fun c => decide (c.parent = p)) = [] := by
        refine List.filter_eq_nil_iff.mpr fun c hc => ?_
        rw [decide_eq_true_eq, ← hp, hparent]
        exact hfront c hc
      rw [if_pos (decide_eq_true hp), if_pos (decide_eq_true hp), hnone, List.nil_append, List.cons_append,
        List.append_assoc, h2, h1, hnone, List.nil_append]
    · rw [if_neg (by rwa [decide_eq_true_eq]), if_neg (by rwa [decide_eq_true_eq]), List.append_assoc, h2, h1]
  complete x hx := by
    obtain ⟨hne, hnot⟩ := hrest.complete x hx
    obtain ⟨hobject, hnot'⟩ := hsub.complete x (hrest.left.subset hx)
    refine ⟨hne, fun c hc => ?_⟩
    rcases List.mem_append.mp hc with hc | hc
    · rcases List.mem_cons.mp hc with rfl | hc
      · exact hobject
      · exact hnot' c hc
    · exact hnot c hc

/-- LOOP: as many rounds as there are objects are enough. -/
theorem printLoop_spec (hm : Sorted Base.key m) (hlen : m.length ≤ fuel) (next depth : ℕ) :
    Loop next depth m (printLoop fuel next depth m).1 (printLoop fuel next depth m).2 := by
  induction fuel generalizing m next depth with
  | zero =>
    obtain rfl := List.length_eq_zero_iff.mp (Nat.le_zero.mp hlen)
    exact ⟨.nil, List.Sublist.refl _, fun _ => rfl, nofun⟩
  | succ fuel ih =>
    rcases round_cases hm next with ⟨hnone, hloop⟩ | ⟨o, front, back, hparent, rfl, hfront, hloop⟩
    · rw [hloop]
      exact ⟨.nil, List.Sublist.refl _, fun _ => rfl, fun o ho => ⟨hnone o ho, nofun⟩⟩
    · have hpart : (front ++ back).Sublist (front ++ o :: back) :=
        (List.sublist_cons_self o back).append_left front
      have hlen' := taken_length hlen
      have hsub := ih (hm.sublist hpart) hlen' o.object (depth + 1)
      have hrest := ih ((hm.sublist hpart).sublist hsub.left) (hsub.left.length_le.trans hlen') next depth
      rw [hloop]
      exact hsub.cons hparent hfront hrest

/-- More rounds make no difference: it is not for want of them that the loop ends. -/
theorem printLoop_fuel (hm : Sorted Base.key m) (hlen : m.length ≤ fuel) (next depth : ℕ) :
    printLoop (fuel + 1) next depth m = printLoop fuel next depth m := by
  induction fuel generalizing m next depth with
  | zero =>
    obtain rfl := List.length_eq_zero_iff.mp (Nat.le_zero.mp hlen)
    rfl
  | succ fuel ih =>
    rcases round_cases hm next with ⟨-, hloop⟩ | ⟨o, front, back, -, rfl, -, hloop⟩
    · rw [hloop, hloop]
    · have hpart : (front ++ back).Sublist (front ++ o :: back) :=
        (List.sublist_cons_self o back).append_left front
      have hlen' := taken_length hlen
      have hsub := printLoop_spec (hm.sublist hpart) hlen' o.object (depth + 1)
      rw [hloop, hloop, ih (hm.sublist hpart) hlen',
        ih ((hm.sublist hpart).sublist hsub.left) (hsub.left.length_le.trans hlen')]

/-! ### What is printed -/

/-- The trees of children of reached objects are of reached objects. -/
theorem Forest.reached (h : Forest next depth out) (hmem : ∀ c ∈ out, c.2 ∈ l)
    (hnext : ∀ o ∈ l, o.parent = next → Reached l o) : ∀ c ∈ out, Reached l c.2 := by
  induction h with
  | nil => nofun
  | cons _ _ ihsub ihrest =>
    rename_i o depth sub rest _ _
    have hself : Reached l o := hnext o (hmem (depth, o) List.mem_cons_self) rfl
    intro c hc
    rcases List.mem_append.mp hc with hc | hc
    · rcases List.mem_cons.mp hc with rfl | hc
      · exact hself
      · exact ihsub (fun c hc => hmem c (List.mem_append_left _ (List.mem_cons_of_mem _ hc)))
          (fun x hx hparent => .child hx hself hparent.symm) c hc
    · exact ihrest (fun c hc => hmem c (List.mem_append_right _ hc)) hnext c hc

/-- The parent of what is printed is printed, or is `next`. -/
theorem Forest.parent (h : Forest next depth out) :
    ∀ c ∈ out, c.2.parent = next ∨ ∃ c' ∈ out, c'.2.object = c.2.parent := by
  induction h with
  | nil => nofun
  | cons _ _ ihsub ihrest =>
    intro c hc
    rcases List.mem_append.mp hc with hc | hc
    · rcases List.mem_cons.mp hc with rfl | hc
      · exact .inl rfl
      · refine .inr ?_
        rcases ihsub c hc with hroot | ⟨c', hc', hobject⟩
        · exact ⟨_, List.mem_append_left _ List.mem_cons_self, hroot.symm⟩
        · exact ⟨c', List.mem_append_left _ (List.mem_cons_of_mem _ hc'), hobject⟩
    · rcases ihrest c hc with hroot | ⟨c', hc', hobject⟩
      · exact .inl hroot
      · exact .inr ⟨c', List.mem_append_right _ hc', hobject⟩

theorem mem_siblings {p : ℕ} : o ∈ siblings p l ↔ o ∈ l ∧ o.parent = p := by
  rw [siblings, List.mem_filter, decide_eq_true_eq]

/-- An object is printed or left over. -/
theorem Loop.mem (h : Loop next depth m out m') : o ∈ m ↔ o ∈ out.map Prod.snd ∨ o ∈ m' := by
  have hall := congrArg (o ∈ ·) (h.siblings o.parent)
  simp only [List.mem_append, mem_siblings, and_true] at hall
  exact hall.symm.to_iff

/-- PRINT: whatever the objects claim to be children of, `StatsPrint` ends and prints just those that a
    line of parents leads to, each in the tree of its parent, one step further in; siblings are together
    under one parent, by kind and then in the order in which they were made. -/
theorem stats_print (statsList : List Base) :
    ∃ out rest, (∀ fuel, statsList.length ≤ fuel →
        printLoop fuel 0 0 (ofList Base.key statsList) = statsPrint statsList) ∧
      statsPrint statsList = (out, rest) ∧ Forest 0 0 out ∧
      (∀ o, o ∈ out.map Prod.snd ↔ Reached statsList o) ∧
      ∀ p, siblings p (out.map Prod.snd) = [] ∨
        StableSort Base.key (siblings p statsList) (siblings p (out.map Prod.snd)) := by
  have hstable : StableSort Base.key statsList (ofList Base.key statsList) := stableSort_ofList statsList
  have hlength : (ofList Base.key statsList).length = statsList.length := length_ofList statsList
  have hloop : Loop 0 0 (ofList Base.key statsList) (statsPrint statsList).1 (statsPrint statsList).2 :=
    printLoop_spec hstable.sorted hlength.le 0 0
  have hmem : ∀ o ∈ statsList, o ∈ (statsPrint statsList).1.map Prod.snd ∨ o ∈ (statsPrint statsList).2 :=
    fun o ho => hloop.mem.mp (hstable.mem.mpr ho)
  refine ⟨(statsPrint statsList).1, (statsPrint statsList).2, fun fuel hfuel => ?_, rfl, hloop.forest,
    fun o => ⟨fun ho => ?_, fun ho => ?_⟩, fun p => ?_⟩
  · induction fuel, hfuel using Nat.le_induction with
    | base => rfl
    | succ fuel hfuel ih =>
      rw [printLoop_fuel hstable.sorted (hlength.le.trans hfuel)]
      exact ih
  · obtain ⟨c, hc, rfl⟩ := List.mem_map.mp ho
    refine hloop.forest.reached (fun c hc => ?_) (fun o ho hparent => .root ho hparent) c hc
    exact hstable.mem.mp (hloop.mem.mpr (.inl (List.mem_map_of_mem hc)))
  · -- an object that is left over has no parent among those printed
    induction ho with
    | root ho hparent => exact (hmem _ ho).resolve_right fun hrest => (hloop.complete _ hrest).1 hparent
    | child ho _ hobject ih =>
      obtain ⟨c, hc, rfl⟩ := List.mem_map.mp ih
      exact (hmem _ ho).resolve_right fun hrest => (hloop.complete _ hrest).2 c hc hobject.symm
  · by_cases hnone : siblings p (statsPrint statsList).2 = []
    · have hall := hloop.siblings p
      rw [hnone, List.append_nil] at hall
      rw [hall]
      exact .inr (hstable.filter _)
    · -- one child of `p` is left over, so `p` has not been printed
      obtain ⟨o, ho⟩ := List.exists_mem_of_ne_nil _ hnone
      obtain ⟨hrest, hparent⟩ := mem_siblings.mp ho
      refine .inl (List.eq_nil_iff_forall_not_mem.mpr fun x hx => ?_)
      obtain ⟨hx, hxp⟩ := mem_siblings.mp hx
      obtain ⟨c, hc, rfl⟩ := List.mem_map.mp hx
      have hleft := hloop.complete o hrest
      rcases hloop.forest.parent c hc with hroot | ⟨c', hc', hobject⟩
      · exact hleft.1 (hparent.trans (hxp.symm.trans hroot))
      · exact hleft.2 c' hc' (hparent.trans (hxp.symm.trans hobject.symm))

/-- The tree above; an object whose parent has no counters is not printed. -/
example : statsPrint [⟨1, 0, 0, 69⟩, ⟨2, 1, 2, 67⟩, ⟨3, 2, 2, 80⟩, ⟨7, 6, 1, 84⟩,
      ⟨4, 2, 2, 80⟩, ⟨5, 1, 1, 80⟩] =
    ([(0, ⟨1, 0, 0, 69⟩), (1, ⟨5, 1, 1, 80⟩), (1, ⟨2, 1, 2, 67⟩), (2, ⟨3, 2, 2, 80⟩), (2, ⟨4, 2, 2, 80⟩)],
      [⟨7, 6, 1, 84⟩]) := by decide

end Libfibre.FredStats
