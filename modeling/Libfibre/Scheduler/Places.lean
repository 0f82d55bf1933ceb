import Libfibre.Scheduler.Model
import Mathlib.Data.List.Nodup

/-! Every fibre has one place. `Agree` ties a map of places to what the workers, the threads and the
    ready queues hold, so that a fibre is found in as many of them as it has places: one at most. The
    lemmas say how the places move when a worker goes on, a ready queue is pushed or popped, and a
    thread takes a fibre in hand or gives it away; none of them knows of the actions. -/

namespace Libfibre.Scheduler

variable {W X G : Type}

/-- Where a fibre is; `rest`: nowhere. -/
inductive Place (W X : Type) where
  | rest
  | exec (w : W)                            -- it runs
  | leaving (w : W) (code : SwitchCode)     -- it runs, and another one is to be switched to
  | next (w : W)                            -- it is to be switched to
  | left (w : W) (code : SwitchCode)        -- its stack has been left, the callback is yet to come
  | arriving (w : W)                        -- the callback for another one runs on its stack
  | held (t : W ⊕ X)
  | ready (w : W) (p : Priority)

/-- The worker that has the fibre. -/
def Place.worker : Place W X → Option W
  | .exec w | .leaving w _ | .next w | .left w _ | .arriving w => some w
  | _ => none

/-- The worker that runs the fibre. -/
def Place.runner : Place W X → Option W
  | .exec w | .leaving w _ | .arriving w => some w
  | _ => none

/-- What worker `w` has. -/
def Pc.At (w : W) (f : Fibre W G) (p : Place W X) : Pc W G → Prop
  | .exec g => f = g ∧ p = .exec w
  | .search g goal _ => f = g ∧ p = .leaving w goal.code
  | .chosen g code h => f = g ∧ p = .leaving w code ∨ f = h ∧ p = .next w
  | .post g code h => f = g ∧ p = .left w code ∨ f = h ∧ p = .arriving w

/-- The map of places tells exactly what the workers, the threads and the ready queues have. -/
structure Agree (pc : W → Pc W G) (held : W ⊕ X → Option (Fibre W G))
    (ready : W → Priority → List (Fibre W G)) (place : Fibre W G → Place W X) : Prop where
  pc_at : ∀ w f p, (pc w).At w f p → place f = p
  at_pc : ∀ w f, (place f).worker = some w → (pc w).At w f (place f)
  holds : ∀ t f, held t = some f ↔ place f = .held t
  queued : ∀ w p f, f ∈ ready w p ↔ place f = .ready w p
  nodup : ∀ w p, (ready w p).Nodup

variable {pc : W → Pc W G} {held : W ⊕ X → Option (Fibre W G)}
  {ready : W → Priority → List (Fibre W G)} {place : Fibre W G → Place W X}

theorem Pc.At.worker {w : W} {f : Fibre W G} {p : Place W X} {c : Pc W G} (h : c.At w f p) :
    p.worker = some w := by
  cases c with
  | exec g => rw [h.2]; rfl
  | search g goal steal => rw [h.2]; rfl
  | chosen g code h' => rcases h with h | h <;> rw [h.2] <;> rfl
  | post g code h' => rcases h with h | h <;> rw [h.2] <;> rfl

variable [DecidableEq W]

/-- Nowhere, or with worker `w`. -/
def Place.outside (w : W) (p : Place W X) : Prop := p = .rest ∨ p.worker = some w

/-- Worker `w` goes on: only fibres of its own and fibres from nowhere move. -/
theorem Agree.setPc (ha : Agree pc held ready place) {w : W} {c : Pc W G}
    {place' : Fibre W G → Place W X} (hnew : ∀ f p, c.At w f p → place' f = p)
    (hold : ∀ f, (place' f).worker = some w → c.At w f (place' f))
    (hmove : ∀ f, place' f = place f ∨ (place f).outside w ∧ (place' f).outside w) :
    Agree (Function.update pc w c) held ready place' := by
  have hother : ∀ f p, p ≠ .rest → p.worker ≠ some w → (place f = p ↔ place' f = p) := by
    intro f p hrest hw
    rcases hmove f with heq | ⟨ho, hn⟩
    · rw [heq]
    · refine iff_of_false ?_ ?_
      · rintro rfl
        exact ho.elim hrest hw
      · rintro rfl
        exact hn.elim hrest hw
  refine ⟨fun v f p h => ?_, fun v f h => ?_, fun t f => ?_, fun v p f => ?_, ha.nodup⟩
  · rcases eq_or_ne v w with rfl | hne
    · rw [Function.update_self] at h
      exact hnew f p h
    · rw [Function.update_of_ne hne] at h
      have hv := h.worker
      exact (hother f p (by rintro rfl; cases hv) (by rw [hv]; simpa using hne)).mp (ha.pc_at v f p h)
  · rcases eq_or_ne v w with rfl | hne
    · rw [Function.update_self]
      exact hold f h
    · rw [Function.update_of_ne hne]
      have heq : place f = place' f :=
        (hother f (place' f) (by intro hr; rw [hr] at h; cases h) (by rw [h]; simpa using hne)).mpr rfl
      rw [← heq] at h ⊢
      exact ha.at_pc v f h
  · rw [ha.holds]
    exact hother f _ nofun nofun
  · rw [ha.queued]
    exact hother f _ nofun nofun

variable [DecidableEq G]

/-- The one fibre of a worker moves on with it. -/
theorem Agree.one (ha : Agree pc held ready place) {w : W} {f : Fibre W G} {c : Pc W G}
    {p p' : Place W X} (hpc : ∀ h q, (pc w).At w h q ↔ h = f ∧ q = p)
    (hc : ∀ h q, c.At w h q ↔ h = f ∧ q = p') :
    Agree (Function.update pc w c) held ready (Function.update place f p') := by
  have hf : (place f).worker = some w := by
    have hat : (pc w).At w f p := (hpc f p).mpr ⟨rfl, rfl⟩
    rw [ha.pc_at w f p hat]
    exact hat.worker
  have hp' : p'.worker = some w := ((hc f p').mpr ⟨rfl, rfl⟩).worker
  refine ha.setPc (fun h q hat => ?_) (fun h hw => ?_) fun h => ?_
  · obtain ⟨rfl, rfl⟩ := (hc h q).mp hat
    exact Function.update_self ..
  · rcases eq_or_ne h f with rfl | hne
    · rw [Function.update_self]
      exact (hc h p').mpr ⟨rfl, rfl⟩
    · rw [Function.update_of_ne hne] at hw
      exact absurd ((hpc h _).mp (ha.at_pc w h hw)).1 hne
  · rcases eq_or_ne h f with rfl | hne
    · exact .inr ⟨.inr hf, .inr (by rw [Function.update_self]; exact hp')⟩
    · exact .inl (Function.update_of_ne hne ..)

/-- A worker goes on with at most two fibres, of which it had at least one; the first may be nowhere
    in the end. -/
theorem Agree.two (ha : Agree pc held ready place) {w : W} {f g : Fibre W G} {c : Pc W G}
    {d e : Place W X} (hne : f ≠ g) (hf : (place f).worker = some w) (hg : (place g).outside w)
    (hpc : ∀ h r, (pc w).At (X := X) w h r → h = f ∨ h = g)
    (hc : ∀ h r, c.At w h r → h = f ∧ r = d ∨ h = g ∧ r = e)
    (hd : d = .rest ∨ c.At w f d) (he : c.At w g e) :
    Agree (Function.update pc w c) held ready
      (Function.update (Function.update place f d) g e) := by
  have hfplace : Function.update (Function.update place f d) g e f = d := by
    rw [Function.update_of_ne hne, Function.update_self]
  have hgplace : Function.update (Function.update place f d) g e g = e := Function.update_self ..
  have hother : ∀ h, h ≠ f → h ≠ g →
      Function.update (Function.update place f d) g e h = place h := by
    intro h hhf hhg
    rw [Function.update_of_ne hhg, Function.update_of_ne hhf]
  refine ha.setPc (fun h r hat => ?_) (fun h hw => ?_) fun h => ?_
  · rcases hc h r hat with ⟨rfl, rfl⟩ | ⟨rfl, rfl⟩
    · exact hfplace
    · exact hgplace
  · rcases eq_or_ne h g with rfl | hhg
    · rw [hgplace]
      exact he
    · rcases eq_or_ne h f with rfl | hhf
      · rw [hfplace] at hw ⊢
        refine hd.resolve_left ?_
        rintro rfl
        cases hw
      · rw [hother h hhf hhg] at hw
        rcases hpc h _ (ha.at_pc w h hw) with rfl | rfl
        · exact absurd rfl hhf
        · exact absurd rfl hhg
  · rcases eq_or_ne h g with rfl | hhg
    · rw [hgplace]
      exact .inr ⟨hg, .inr he.worker⟩
    · rcases eq_or_ne h f with rfl | hhf
      · rw [hfplace]
        exact .inr ⟨.inr hf, hd.imp_right Pc.At.worker⟩
      · exact .inl (hother h hhf hhg)

/-- A fibre moves between places that are not with a worker. -/
theorem Agree.move (ha : Agree pc held ready place) {held' : W ⊕ X → Option (Fibre W G)}
    {ready' : W → Priority → List (Fibre W G)} {f : Fibre W G} {b : Place W X}
    (hf : (place f).worker = none) (hb : b.worker = none)
    (hheld : ∀ t h, held' t = some h ↔ h = f ∧ b = .held t ∨ h ≠ f ∧ held t = some h)
    (hready : ∀ w p h, h ∈ ready' w p ↔ h = f ∧ b = .ready w p ∨ h ≠ f ∧ h ∈ ready w p)
    (hnodup : ∀ w p, (ready' w p).Nodup) :
    Agree pc held' ready' (Function.update place f b) := by
  have hother : ∀ h, h ≠ f → Function.update place f b h = place h :=
    fun h hne => Function.update_of_ne hne ..
  have hself : Function.update place f b f = b := Function.update_self ..
  refine ⟨fun w h r hat => ?_, fun w h hw => ?_, fun t h => ?_, fun w p h => ?_, hnodup⟩
  · have hne : h ≠ f := by
      rintro rfl
      have hw := hat.worker
      rw [← ha.pc_at w h r hat, hf] at hw
      cases hw
    rw [hother h hne]
    exact ha.pc_at w h r hat
  · have hne : h ≠ f := by
      rintro rfl
      rw [hself, hb] at hw
      cases hw
    rw [hother h hne] at hw ⊢
    exact ha.at_pc w h hw
  · rw [hheld]
    rcases eq_or_ne h f with rfl | hne
    · rw [hself]
      exact ⟨fun he => (he.resolve_right fun ho => ho.1 rfl).2, fun he => .inl ⟨rfl, he⟩⟩
    · rw [hother h hne, ← ha.holds]
      exact ⟨fun he => (he.resolve_left fun ho => hne ho.1).2, fun he => .inr ⟨hne, he⟩⟩
  · rw [hready]
    rcases eq_or_ne h f with rfl | hne
    · rw [hself]
      exact ⟨fun he => (he.resolve_right fun ho => ho.1 rfl).2, fun he => .inl ⟨rfl, he⟩⟩
    · rw [hother h hne, ← ha.queued]
      exact ⟨fun he => (he.resolve_left fun ho => hne ho.1).2, fun he => .inr ⟨hne, he⟩⟩

/-- A thread that has nothing in hand takes a fibre from nowhere. -/
theorem Agree.hold [DecidableEq X] (ha : Agree pc held ready place) {t : W ⊕ X} {f : Fibre W G}
    (hf : place f = .rest) (ht : held t = none) :
    Agree pc (Function.update held t (some f)) ready (Function.update place f (.held t)) := by
  refine ha.move (by rw [hf]; rfl) rfl (fun u h => ?_) (fun w p h => ?_) ha.nodup
  · have hfu : held u ≠ some f := by
      intro he
      rw [ha.holds, hf] at he
      cases he
    rcases eq_or_ne u t with rfl | hne
    · rw [Function.update_self, ht]
      exact ⟨fun he => .inl ⟨(Option.some.inj he).symm, rfl⟩, fun he => by
        rcases he with ⟨rfl, -⟩ | ⟨-, he⟩
        · rfl
        · cases he⟩
    · rw [Function.update_of_ne hne]
      refine ⟨fun he => .inr ⟨?_, he⟩, fun he => (he.resolve_left fun ho => ?_).2⟩
      · rintro rfl
        exact hfu he
      · exact hne (Place.held.inj ho.2).symm
  · have hfp : f ∉ ready w p := by
      rw [ha.queued, hf]
      nofun
    refine ⟨fun he => .inr ⟨?_, he⟩, fun he => (he.resolve_left fun ho => nomatch ho.2).2⟩
    rintro rfl
    exact hfp he

omit [DecidableEq G] in
theorem ready_update (ready : W → Priority → List (Fibre W G)) (w v : W) (p r : Priority)
    (l : List (Fibre W G)) :
    Function.update ready w (Function.update (ready w) p l) v r =
      if v = w ∧ r = p then l else ready v r := by
  rcases eq_or_ne v w with rfl | hv
  · rw [Function.update_self]
    rcases eq_or_ne r p with rfl | hr
    · rw [Function.update_self, if_pos ⟨rfl, rfl⟩]
    · rw [Function.update_of_ne hr, if_neg fun h => hr h.2]
  · rw [Function.update_of_ne hv, if_neg fun h => hv h.1]

/-- The first fibre of a ready queue is taken out. -/
theorem Agree.take (ha : Agree pc held ready place) {w : W} {p : Priority} {f : Fibre W G}
    {rest : List (Fibre W G)} (hq : ready w p = f :: rest) :
    Agree pc held (Function.update ready w (Function.update (ready w) p rest))
      (Function.update place f .rest) := by
  have hnodup := ha.nodup w p
  rw [hq] at hnodup
  obtain ⟨hnot, hrest⟩ := List.nodup_cons.mp hnodup
  have hf : place f = .ready w p := (ha.queued w p f).mp (by rw [hq]; exact List.mem_cons_self ..)
  refine ha.move (by rw [hf]; rfl) rfl (fun t h => ?_) (fun v r h => ?_) fun v r => ?_
  · refine ⟨fun he => .inr ⟨?_, he⟩, fun he => (he.resolve_left fun ho => nomatch ho.2).2⟩
    rintro rfl
    rw [ha.holds, hf] at he
    cases he
  · rw [ready_update]
    split
    case isTrue heq =>
      obtain ⟨rfl, rfl⟩ := heq
      rw [hq, List.mem_cons]
      refine ⟨fun he => .inr ⟨?_, .inr he⟩, fun he => ?_⟩
      · rintro rfl
        exact hnot he
      · rcases he with ⟨-, he⟩ | ⟨hne, he⟩
        · cases he
        · exact he.resolve_left hne
    case isFalse hne =>
      refine ⟨fun he => .inr ⟨?_, he⟩, fun he => (he.resolve_left fun ho => nomatch ho.2).2⟩
      rintro rfl
      rw [ha.queued, hf] at he
      exact hne ⟨(Place.ready.inj he).1.symm, (Place.ready.inj he).2.symm⟩
  · rw [ready_update]
    split
    · exact hrest
    · exact ha.nodup v r

/-- A fibre in hand is put into a ready queue. -/
theorem Agree.put [DecidableEq X] (ha : Agree pc held ready place) {t : W ⊕ X} {f : Fibre W G}
    (ht : held t = some f) (w : W) (p : Priority) :
    Agree pc (Function.update held t none)
      (Function.update ready w (Function.update (ready w) p (ready w p ++ [f])))
      (Function.update place f (.ready w p)) := by
  have hf : place f = .held t := (ha.holds t f).mp ht
  have hnot : ∀ v r, f ∉ ready v r := by
    intro v r
    rw [ha.queued, hf]
    nofun
  refine ha.move (by rw [hf]; rfl) rfl (fun u h => ?_) (fun v r h => ?_) fun v r => ?_
  · rcases eq_or_ne u t with rfl | hne
    · rw [Function.update_self, ht]
      refine iff_of_false nofun fun he => ?_
      rcases he with ⟨-, he⟩ | ⟨hhf, he⟩
      · cases he
      · exact hhf (Option.some.inj he).symm
    · rw [Function.update_of_ne hne]
      refine ⟨fun he => .inr ⟨?_, he⟩, fun he => (he.resolve_left fun ho => nomatch ho.2).2⟩
      rintro rfl
      rw [ha.holds, hf] at he
      exact hne (Place.held.inj he).symm
  · rw [ready_update]
    split
    case isTrue heq =>
      obtain ⟨rfl, rfl⟩ := heq
      rw [List.mem_append, List.mem_singleton]
      constructor
      · rintro (he | rfl)
        · refine .inr ⟨?_, he⟩
          rintro rfl
          exact hnot v r he
        · exact .inl ⟨rfl, rfl⟩
      · rintro (⟨rfl, -⟩ | ⟨-, he⟩)
        · exact .inr rfl
        · exact .inl he
    case isFalse hne =>
      refine ⟨fun he => .inr ⟨?_, he⟩, fun he => (he.resolve_left fun ho => ?_).2⟩
      · rintro rfl
        exact hnot v r he
      · exact hne ⟨(Place.ready.inj ho.2).1.symm, (Place.ready.inj ho.2).2.symm⟩
  · rw [ready_update]
    split
    · exact List.nodup_append.mpr ⟨ha.nodup w p, List.nodup_singleton f, by
        rintro a ha' b hb rfl
        exact hnot w p (List.mem_singleton.mp hb ▸ ha')⟩
    · exact ha.nodup v r

end Libfibre.Scheduler
