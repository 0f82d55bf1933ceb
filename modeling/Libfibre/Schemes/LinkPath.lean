import Mathlib.Data.List.Nodup
import Mathlib.Logic.Function.Basic
import Mathlib.Tactic.Tauto

/-! Paths of links in a heap: each node of a list is linked to the one behind it and the last one to a
    given end, a pointer of any kind (null, a sentinel, a node again). Lists are put together and
    taken apart at their ends, so every operation on links is one of these:

        a ─▶ b ─▶ c ─▶ end        append: the end of one path is the first node of the next
        a ─▶ b ─▶ c ─▶ end'       retarget: the last link changes
                                  other: a node off the path changes -/

namespace Libfibre.LinkPath

variable {N P : Type} {ptr : N → P} {next : N → P} {l k : List N} {a n : N} {p q : P}

/-- Where a path begins: its first node, or right at its end. -/
def first (ptr : N → P) : List N → P → P
  | [], q => q
  | a :: _, _ => ptr a

/-- Each node of `l` is linked to the next and the last one to `q`. -/
def Links (ptr : N → P) (next : N → P) : List N → P → Prop
  | [], _ => True
  | a :: l, q => next a = first ptr l q ∧ Links ptr next l q

@[simp] theorem first_nil : first ptr [] q = q := rfl

@[simp] theorem first_cons : first ptr (a :: l) q = ptr a := rfl

theorem first_append : first ptr (l ++ k) q = first ptr l (first ptr k q) := by
  cases l <;> rfl

theorem first_ne_nil (hl : l ≠ []) : first ptr l p = first ptr l q := by
  cases l with
  | nil => exact absurd rfl hl
  | cons a l => rfl

namespace Links

theorem nil : Links ptr next [] q := trivial

/-- Two paths make one where the first ends at the second. -/
theorem append_iff : Links ptr next (l ++ k) q ↔
    Links ptr next l (first ptr k q) ∧ Links ptr next k q := by
  induction l with
  | nil => exact iff_of_eq (true_and _).symm
  | cons a l ih =>
    rw [List.cons_append, Links, Links, ih, first_append]
    exact and_assoc.symm

/-- A path reads the links of its nodes only. -/
theorem congr {next' : N → P} (h : Links ptr next l q) (hsame : ∀ a ∈ l, next' a = next a) :
    Links ptr next' l q := by
  induction l with
  | nil => trivial
  | cons a l ih =>
    rw [List.forall_mem_cons] at hsame
    exact ⟨hsame.1.trans h.1, ih h.2 hsame.2⟩

/-- The last node holds the end. -/
theorem last (h : Links ptr next l q) (ha : l.getLast? = some a) : next a = q := by
  obtain ⟨l, rfl⟩ := List.getLast?_eq_some_iff.mp ha
  exact (append_iff.mp h).2.1

variable [DecidableEq N]

theorem other (h : Links ptr next l q) (hn : n ∉ l) : Links ptr (Function.update next n p) l q :=
  h.congr fun _ ha => Function.update_of_ne (ne_of_mem_of_not_mem ha hn) _ _

/-- The last link is turned to another end. -/
theorem retarget (h : Links ptr next l q) (hl : l.Nodup) (ha : l.getLast? = some a) :
    Links ptr (Function.update next a p) l p := by
  obtain ⟨l, rfl⟩ := List.getLast?_eq_some_iff.mp ha
  have hnot : a ∉ l := fun hm => (List.nodup_append.mp hl).2.2 a hm a (by simp) rfl
  obtain ⟨hinit, -⟩ := append_iff.mp h
  exact append_iff.mpr ⟨hinit.other hnot, Function.update_self .., trivial⟩

/-- A path is let into another one, behind the node `a`. -/
theorem insert {u c v : List N} {z : N} {r : P} (h : Links ptr next (u ++ v) q)
    (hc : Links ptr next c r) (hnodup : (u ++ c ++ v).Nodup) (ha : u.getLast? = some a)
    (hz : c.getLast? = some z) :
    Links ptr (Function.update (Function.update next z (first ptr v q)) a (first ptr c r))
      (u ++ c ++ v) q := by
  obtain ⟨hu, hv⟩ := append_iff.mp h
  obtain ⟨huc, -, hdisj⟩ := List.nodup_append.mp hnodup
  obtain ⟨hnu, hnc, hdisj'⟩ := List.nodup_append.mp huc
  have hau := List.mem_of_getLast? ha
  have hzc := List.mem_of_getLast? hz
  have hne : c ≠ [] := by rintro rfl; exact absurd hz (by simp)
  refine append_iff.mpr ⟨append_iff.mpr ⟨?_, ?_⟩, ?_⟩
  · rw [first_ne_nil hne]
    exact (hu.other fun hm => hdisj' z hm z hzc rfl).retarget hnu ha
  · exact (hc.retarget hnc hz).other fun hm => hdisj' a hau a hm rfl
  · refine (hv.other fun hm => ?_).other fun hm => ?_
    · exact hdisj z (List.mem_append_right u hzc) z hm rfl
    · exact hdisj a (List.mem_append_left c hau) a hm rfl

/-- The first part of a path is taken off and ends at `r` from then on. -/
theorem detach {u v : List N} {z : N} {r : P} (h : Links ptr next (u ++ v) q) (hnodup : (u ++ v).Nodup)
    (hz : u.getLast? = some z) :
    Links ptr (Function.update next z r) u r ∧ Links ptr (Function.update next z r) v q := by
  obtain ⟨hu, hv⟩ := append_iff.mp h
  obtain ⟨hnu, -, hdisj⟩ := List.nodup_append.mp hnodup
  exact ⟨hu.retarget hnu hz, hv.other fun hm => hdisj z (List.mem_of_getLast? hz) z hm rfl⟩

/-- A part of a path is taken out and ends at `r` from then on. -/
theorem cut {u c v : List N} {z : N} {r : P} (h : Links ptr next (u ++ c ++ v) q)
    (hnodup : (u ++ c ++ v).Nodup) (ha : u.getLast? = some a) (hz : c.getLast? = some z) :
    Links ptr (Function.update (Function.update next a (first ptr v q)) z r) (u ++ v) q ∧
      Links ptr (Function.update (Function.update next a (first ptr v q)) z r) c r := by
  obtain ⟨huc', hv⟩ := append_iff.mp h
  obtain ⟨hu, hc⟩ := append_iff.mp huc'
  obtain ⟨huc, -, hdisj⟩ := List.nodup_append.mp hnodup
  obtain ⟨hnu, hnc, hdisj'⟩ := List.nodup_append.mp huc
  have hau := List.mem_of_getLast? ha
  have hzc := List.mem_of_getLast? hz
  refine ⟨append_iff.mpr ⟨?_, ?_⟩, ?_⟩
  · exact (hu.retarget hnu ha).other fun hm => hdisj' z hm z hzc rfl
  · refine (hv.other fun hm => ?_).other fun hm => ?_
    · exact hdisj a (List.mem_append_left c hau) a hm rfl
    · exact hdisj z (List.mem_append_right u hzc) z hm rfl
  · exact (hc.other fun hm => hdisj' a hau a hm rfl).retarget hnc hz

end Links

/-! ### Circles -/

/-- A path that ends at its own first node. -/
def Circle (next : N → Option N) (l : List N) : Prop := Links some next l l.head?

namespace Circle
variable {next : N → Option N} {u v : List N}

/-- A circle may be entered anywhere. -/
theorem rotate (h : Circle next (u ++ v)) : Circle next (v ++ u) := by
  cases u with
  | nil => rwa [List.append_nil]
  | cons a u =>
    cases v with
    | nil => rwa [List.nil_append, List.append_nil] at *
    | cons b v =>
      obtain ⟨hu, hv⟩ := Links.append_iff.mp h
      exact Links.append_iff.mpr ⟨hv, hu⟩

theorem next_eq (h : Circle next (a :: v)) : next a = (v ++ [a]).head? := by
  rw [h.1]
  cases v <;> rfl

theorem next_mem (h : Circle next l) (ha : a ∈ l) : ∃ b ∈ l, next a = some b := by
  obtain ⟨u, v, rfl⟩ := List.append_of_mem ha
  have hnext := next_eq (v := v ++ u) h.rotate
  cases hb : (v ++ u ++ [a]).head? with
  | none => exact absurd (List.head?_eq_none_iff.mp hb) (by simp)
  | some b =>
    refine ⟨b, ?_, hnext.trans hb⟩
    have hmem := List.mem_of_head? hb
    simp only [List.mem_append, List.mem_cons, List.not_mem_nil, or_false] at hmem ⊢
    tauto

variable [DecidableEq N]

theorem other {p : Option N} (h : Circle next l) (hn : n ∉ l) :
    Circle (Function.update next n p) l :=
  Links.other h hn

/-- A node that is linked to where `a` is linked is let in behind `a`. -/
theorem insert (h : Circle next (u ++ v)) (hnodup : (u ++ [n] ++ v).Nodup) (ha : u.getLast? = some a)
    (hn : next n = next a) : Circle (Function.update next a (some n)) (u ++ [n] ++ v) := by
  have hne : u ≠ [] := by rintro rfl; simp at ha
  have hfirst : (u ++ [n] ++ v).head? = (u ++ v).head? := by
    rw [List.append_assoc, List.head?_append_of_ne_nil _ hne, List.head?_append_of_ne_nil _ hne]
  have hlast : next n = first some v (u ++ v).head? :=
    hn.trans ((Links.append_iff.mp h).1.last ha)
  have hwhole := Links.insert (c := [n]) (z := n) (r := next n) h ⟨rfl, trivial⟩ hnodup ha rfl
  rw [← hlast, Function.update_eq_self] at hwhole
  rw [Circle, hfirst]
  exact hwhole

end Circle

end Libfibre.LinkPath
