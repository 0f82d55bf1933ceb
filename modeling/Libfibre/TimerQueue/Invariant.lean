import Libfibre.TimerQueue.Call

/-! Every step of the two queues keeps every call's views fitting. A step of a fibre in its own call
    (`Own`) and a step about some fibre's current call (`About`) are seen by no other call: the
    words of a fibre belong to its current call, and a lock has one holder. -/

namespace Libfibre.TimerQueue
open Transition

variable {C F : Type} [DecidableEq C] [DecidableEq F]

/-- INVARIANT: every call's views fit, and the sections in progress know what they are about. -/
structure Inv (fib : C → F) (s : State C F) : Prop where
  bqNodup : s.bq.Nodup
  tqNodup : (s.tq.map Prod.snd).Nodup
  handedNodup : s.handed.Nodup
  resumed : ∀ f, s.current f = none → s.resumed f = false
  scanned : ∀ enqueue rest, s.scan = some (.scanning enqueue rest) →
    ∃ front, s.bq = front ++ rest ∧ ∀ m ∈ front, s.resumeInfo (fib m) ≠ none
  first : ∀ n, s.won = some n ∨ s.lost = some n ∨ s.erasing = some n →
    ∃ deadline rest, s.tq = (deadline, n) :: rest
  fits : ∀ n, Fits (fview fib s n) (bview s n) (tview s n)

omit [DecidableEq F] in
theorem inv_start (fib : C → F) : Inv fib (start : State C F) := by
  refine ⟨List.nodup_nil, List.nodup_nil, List.nodup_nil, fun _ _ => rfl, ?_, ?_, fun n => ?_⟩
  · intro _ _ h; cases h
  · rintro n (h | h | h) <;> cases h
  · exact ⟨rfl, ⟨rfl, rfl, rfl, rfl⟩, rfl, ⟨rfl, rfl, rfl, rfl⟩, rfl⟩

/-! ### The views after a step -/

section Views
variable {fib : C → F} {s s' : State C F} {n m : C}

omit [DecidableEq F] in
theorem fview_current (h : s.current (fib n) = some n) :
    fview fib s n = ⟨s.pc n, true, s.resumeInfo (fib n), s.resumed (fib n)⟩ := if_pos h

omit [DecidableEq F] in
theorem fview_idle (h : s.current (fib n) ≠ some n) : fview fib s n = ⟨s.pc n, false, none, false⟩ :=
  if_neg h

omit [DecidableEq F] in
theorem fview_pc (fib : C → F) (s : State C F) (n : C) : (fview fib s n).pc = s.pc n := by
  rw [fview]
  split_ifs <;> rfl

omit [DecidableEq F] in
theorem current_of_fview (h : (fview fib s n).current = true) : s.current (fib n) = some n := by
  by_contra hn
  rw [fview_idle hn] at h
  cases h

omit [DecidableEq F] in
/-- A step on behalf of `n` is seen by no other call: the words of the fibre belong to `n`. -/
theorem fview_other (hpc : s'.pc m = s.pc m)
    (hoff : ∀ f, f ≠ fib n → s'.current f = s.current f ∧ s'.resumeInfo f = s.resumeInfo f ∧
      s'.resumed f = s.resumed f)
    (h : s.current (fib n) ≠ some m) (h' : s'.current (fib n) ≠ some m) :
    fview fib s' m = fview fib s m := by
  rcases eq_or_ne (fib m) (fib n) with hf | hf
  · rw [fview_idle (by rw [hf]; exact h'), fview_idle (by rw [hf]; exact h), hpc]
  · obtain ⟨h1, h2, h3⟩ := hoff (fib m) hf
    rw [fview, fview, h1, h2, h3, hpc]

omit [DecidableEq F] in
theorem fits_of_others (hi : ∀ m, Fits (fview fib s m) (bview s m) (tview s m))
    (hn : Fits (fview fib s' n) (bview s' n) (tview s' n))
    (hf : ∀ m, m ≠ n → fview fib s' m = fview fib s m)
    (hb : ∀ m, m ≠ n → bview s' m = bview s m) (ht : ∀ m, m ≠ n → tview s' m = tview s m) :
    ∀ m, Fits (fview fib s' m) (bview s' m) (tview s' m) := by
  intro m
  rcases eq_or_ne m n with rfl | hm
  · exact hn
  · rw [hf m hm, hb m hm, ht m hm]; exact hi m

omit [DecidableEq F] in
theorem fits_same (hi : Inv fib s) (hf : fview fib s' m = fview fib s m) (hb : bview s' m = bview s m)
    (ht : tview s' m = tview s m) : Fits (fview fib s' m) (bview s' m) (tview s' m) := by
  rw [hf, hb, ht]
  exact hi.fits m

omit [DecidableEq F] in
theorem fits_current {p : Pc} (hpc : s'.pc n = p) (hcur : s'.current (fib n) = some n)
    (h : Fits ⟨p, true, s'.resumeInfo (fib n), s'.resumed (fib n)⟩ (bview s' n) (tview s' n)) :
    Fits (fview fib s' n) (bview s' n) (tview s' n) := by
  rwa [fview_current hcur, hpc]

omit [DecidableEq F] in
theorem fits_idle {p : Pc} (hpc : s'.pc n = p) (hcur : s'.current (fib n) ≠ some n)
    (h : Fits ⟨p, false, none, false⟩ (bview s' n) (tview s' n)) :
    Fits (fview fib s' n) (bview s' n) (tview s' n) := by
  rwa [fview_idle hcur, hpc]

omit [DecidableEq F] in
theorem bview_other (hq : m ∈ s'.bq ↔ m ∈ s.bq) (hrm : s'.removing = some m ↔ s.removing = some m)
    (hrs : s'.resuming = some m ↔ s.resuming = some m) (hh : m ∈ s'.handed ↔ m ∈ s.handed)
    (ht : s'.takes m = s.takes m) : bview s' m = bview s m := by
  rw [bview, bview, BView.mk.injEq]
  exact ⟨decide_eq_decide.mpr hq, decide_eq_decide.mpr hrm, decide_eq_decide.mpr hrs,
    decide_eq_decide.mpr hh, ht⟩

omit [DecidableEq F] in
theorem tview_other (hq : m ∈ s'.tq.map Prod.snd ↔ m ∈ s.tq.map Prod.snd)
    (hw : s'.won = some m ↔ s.won = some m) (hl : s'.lost = some m ↔ s.lost = some m)
    (hr : s'.erasing = some m ↔ s.erasing = some m) (he : s'.expired m = s.expired m)
    (htw : s'.timerWon m = s.timerWon m) : tview s' m = tview s m := by
  rw [tview, tview, TView.mk.injEq]
  exact ⟨decide_eq_decide.mpr hq, he, decide_eq_decide.mpr hw, decide_eq_decide.mpr hl,
    decide_eq_decide.mpr hr, htw⟩

omit [DecidableEq F] in
theorem bview_eq (hq : m ∈ s'.bq ↔ m ∈ s.bq) (hs : s'.scan = s.scan)
    (hh : m ∈ s'.handed ↔ m ∈ s.handed) (hr : s'.returned = s.returned) :
    bview s' m = bview s m := by
  have hp : s'.pending = s.pending := by rw [State.pending, State.pending, hs]
  refine bview_other hq ?_ ?_ hh ?_
  · rw [State.removing, State.removing, hs]
  · rw [State.resuming, State.resuming, hs]
  · rw [State.takes, State.takes, hr, hp]

omit [DecidableEq F] in
theorem tview_eq (hq : m ∈ s'.tq.map Prod.snd ↔ m ∈ s.tq.map Prod.snd) (hr : s'.run = s.run)
    (he : s'.expired m = s.expired m) (hw : s'.timerWon m = s.timerWon m) :
    tview s' m = tview s m := by
  refine tview_other hq ?_ ?_ ?_ he hw
  · rw [State.won, State.won, hr]
  · rw [State.lost, State.lost, hr]
  · rw [State.erasing, State.erasing, hr]

theorem inv_block {args : Args} (hi : Inv fib s) (hpc : s.pc n = .idle)
    (hcur : s.current (fib n) = none) (hscan : s.scan = none) : Inv fib (block fib s n args) := by
  have hidle : s.current (fib n) ≠ some n := by rw [hcur]; simp
  have hnot : ∀ m, s.current (fib n) ≠ some m := fun m => by rw [hcur]; simp
  have hfits := hi.fits n
  rw [fview_idle hidle, hpc] at hfits
  obtain ⟨-, hclear, htakes, htclear, htw⟩ := hfits
  rw [block]
  split_ifs with hb
  · have hnew : n ∉ s.bq := of_decide_eq_false hclear.node
    refine ⟨BlockingQueue.nodup_pushBack hi.bqNodup hnew, hi.tqNodup, hi.handedNodup, ?_, ?_,
      hi.first, fits_of_others (n := n) hi.fits ?_ (fun m hm => ?_) (fun m hm => ?_) fun _ _ => rfl⟩
    · intro f hf
      rcases eq_or_ne f (fib n) with rfl | hne
      · simp [State.goto] at hf
      · exact hi.resumed f (by simpa [State.goto, hne] using hf)
    · intro _ _ h
      exact absurd (hscan.symm.trans h) (by simp)
    · refine fits_current (p := args.entry) (Function.update_self ..) (Function.update_self ..) ?_
      have hqueued : ∀ b : BView, b.node = true → b.removing = false → b.resuming = false →
        b.handed = false → b.takes = 0 → b.Queued := fun _ h1 h2 h3 h4 h5 => ⟨h1, h2, h3, h4, h5⟩
      cases args <;>
        exact ⟨rfl, htclear, htw, Or.inl ⟨Function.update_self .., hi.resumed _ hcur,
          hqueued _ (by simp [bview, State.goto]) hclear.removing hclear.resuming hclear.handed htakes⟩⟩
    · refine fview_other (n := n) (Function.update_of_ne hm _ _) (fun f hf => ?_) (hnot m) ?_
      · exact ⟨Function.update_of_ne hf _ _, Function.update_of_ne hf _ _, rfl⟩
      · simp [State.goto, Ne.symm hm]
    · exact bview_eq (by simp [State.goto, hm]) rfl Iff.rfl rfl
  · refine ⟨hi.bqNodup, hi.tqNodup, hi.handedNodup, hi.resumed, hi.scanned, hi.first, ?_⟩
    refine fits_of_others (n := n) hi.fits ?_ (fun m hm => ?_) (fun _ _ => rfl) fun _ _ => rfl
    · exact fits_idle (Function.update_self ..) hidle ⟨rfl, hclear, htakes, htclear, htw⟩
    · exact fview_other (n := n) (Function.update_of_ne hm _ _) (fun _ _ => ⟨rfl, rfl, rfl⟩) (hnot m)
        (hnot m)

/-- What a step of the fibre itself has to show, in its call `n`. -/
structure Own (fib : C → F) (n : C) (s s' : State C F) : Prop where
  bqNodup : s'.bq.Nodup
  tqNodup : (s'.tq.map Prod.snd).Nodup
  bq : s'.bq = s.bq ∨ s.scan = none
  tq : s'.tq = s.tq ∨ s.run = none
  scan : s'.scan = s.scan
  run : s'.run = s.run
  handed : s'.handed = s.handed
  returned : s'.returned = s.returned
  resumeInfo : s'.resumeInfo = s.resumeInfo
  timerWon : s'.timerWon = s.timerWon
  words : ∀ f, f ≠ fib n → s'.current f = s.current f ∧ s'.resumed f = s.resumed f
  current : s'.current (fib n) = some n ∨ (s'.current (fib n) = none ∧ s'.resumed (fib n) = false)
  pc : ∀ m, m ≠ n → s'.pc m = s.pc m
  node : ∀ m, m ≠ n → (m ∈ s'.bq ↔ m ∈ s.bq)
  entry : ∀ m, m ≠ n → (m ∈ s'.tq.map Prod.snd ↔ m ∈ s.tq.map Prod.snd)
  expired : ∀ m, m ≠ n → s'.expired m = s.expired m

omit [DecidableEq F] in
theorem Inv.own (hi : Inv fib s) (hcur : s.current (fib n) = some n) (h : Own fib n s s')
    (hn : Fits (fview fib s' n) (bview s' n) (tview s' n)) : Inv fib s' := by
  refine ⟨h.bqNodup, h.tqNodup, h.handed ▸ hi.handedNodup, fun f hf => ?_, fun e rest hs => ?_,
    fun m hm => ?_, fits_of_others (n := n) hi.fits hn (fun m hm => ?_) (fun m hm => ?_) fun m hm => ?_⟩
  · rcases eq_or_ne f (fib n) with rfl | hne
    · rcases h.current with hc | hc
      · rw [hc] at hf; cases hf
      · exact hc.2
    · obtain ⟨h1, h2⟩ := h.words f hne
      rw [h2]; exact hi.resumed f (h1 ▸ hf)
  · rw [h.scan] at hs
    rw [h.resumeInfo, h.bq.resolve_right fun hnone => by rw [hnone] at hs; cases hs]
    exact hi.scanned e rest hs
  · simp only [State.won, State.lost, State.erasing, h.run] at hm
    rw [h.tq.resolve_right fun hnone => by simp [hnone] at hm]
    exact hi.first m hm
  · refine fview_other (n := n) (h.pc m hm) (fun f hf => ?_) ?_ ?_
    · exact ⟨(h.words f hf).1, by rw [h.resumeInfo], (h.words f hf).2⟩
    · rw [hcur]; simp [Ne.symm hm]
    · rcases h.current with hc | hc
      · rw [hc]; simp [Ne.symm hm]
      · rw [hc.1]; simp
  · exact bview_eq (h.node m hm) h.scan (by rw [h.handed]) h.returned
  · exact tview_eq (h.entry m hm) h.run (h.expired m hm) (by rw [h.timerWon])

omit [DecidableEq C] in
theorem mem_insert (deadline : ℕ) (n m : C) (tq : List (ℕ × C)) :
    m ∈ (insert deadline n tq).map Prod.snd ↔ m = n ∨ m ∈ tq.map Prod.snd := by
  induction tq with
  | nil => simp [insert]
  | cons e tq ih =>
    rw [insert]
    split_ifs
    · rw [List.map_cons, List.mem_cons, ih, List.map_cons, List.mem_cons]; tauto
    · simp

omit [DecidableEq C] in
theorem nodup_insert (deadline : ℕ) {n : C} {tq : List (ℕ × C)} (h : (tq.map Prod.snd).Nodup)
    (hn : n ∉ tq.map Prod.snd) : ((insert deadline n tq).map Prod.snd).Nodup := by
  induction tq with
  | nil => simp [insert]
  | cons e tq ih =>
    rw [List.map_cons, List.mem_cons, not_or] at hn
    rw [List.map_cons, List.nodup_cons] at h
    rw [insert]
    split_ifs
    · rw [List.map_cons, List.nodup_cons, mem_insert, not_or]
      exact ⟨⟨Ne.symm hn.1, h.1⟩, ih h.2 hn.2⟩
    · rw [List.map_cons, List.nodup_cons]
      exact ⟨by simp [hn.1, hn.2], by rw [List.map_cons, List.nodup_cons]; exact h⟩

theorem mem_eraseEntry (n m : C) (tq : List (ℕ × C)) :
    m ∈ (eraseEntry n tq).map Prod.snd ↔ m ∈ tq.map Prod.snd ∧ m ≠ n := by
  simp only [eraseEntry, List.mem_map, List.mem_filter, decide_eq_true_eq]
  constructor
  · rintro ⟨e, ⟨he, hne⟩, rfl⟩
    exact ⟨⟨e, he, rfl⟩, hne⟩
  · rintro ⟨⟨e, he, rfl⟩, hne⟩
    exact ⟨e, ⟨he, hne⟩, rfl⟩

theorem nodup_eraseEntry (n : C) {tq : List (ℕ × C)} (h : (tq.map Prod.snd).Nodup) :
    ((eraseEntry n tq).map Prod.snd).Nodup :=
  h.sublist ((List.filter_sublist).map Prod.snd)

omit [DecidableEq F] in
theorem Own.refl (hi : Inv fib s) (hcur : s.current (fib n) = some n) : Own fib n s s :=
  ⟨hi.bqNodup, hi.tqNodup, Or.inl rfl, Or.inl rfl, rfl, rfl, rfl, rfl, rfl, rfl,
    fun _ _ => ⟨rfl, rfl⟩, Or.inl hcur, fun _ _ => rfl, fun _ _ => Iff.rfl, fun _ _ => Iff.rfl,
    fun _ _ => rfl⟩

omit [DecidableEq F] in
theorem Own.goto (h : Own fib n s s') (p : Pc) : Own fib n s (s'.goto n p) :=
  ⟨h.bqNodup, h.tqNodup, h.bq, h.tq, h.scan, h.run, h.handed, h.returned, h.resumeInfo, h.timerWon,
    h.words, h.current, fun m hm => (Function.update_of_ne hm _ _).trans (h.pc m hm), h.node, h.entry,
    h.expired⟩

theorem Own.leave (h : Own fib n s s') (hres : s'.resumed (fib n) = false) (result : Bool) :
    Own fib n s (leave fib s' n result) :=
  ⟨h.bqNodup, h.tqNodup, h.bq, h.tq, h.scan, h.run, h.handed, h.returned, h.resumeInfo, h.timerWon,
    fun f hf => ⟨(Function.update_of_ne hf _ _).trans (h.words f hf).1, (h.words f hf).2⟩,
    Or.inr ⟨Function.update_self .., hres⟩,
    fun m hm => (Function.update_of_ne hm _ _).trans (h.pc m hm), h.node, h.entry, h.expired⟩

omit [DecidableEq F] in
theorem Own.enqueue (hi : Inv fib s) (hcur : s.current (fib n) = some n) (hrun : s.run = none)
    (hn : n ∉ s.tq.map Prod.snd) (deadline : ℕ) : Own fib n s (enqueue s n deadline) :=
  ⟨hi.bqNodup, nodup_insert deadline hi.tqNodup hn, Or.inl rfl, Or.inr hrun, rfl, rfl, rfl, rfl, rfl,
    rfl, fun _ _ => ⟨rfl, rfl⟩, Or.inl hcur, fun _ hm => Function.update_of_ne hm _ _,
    fun _ _ => Iff.rfl, fun m hm => (mem_insert deadline n m s.tq).trans (or_iff_right hm),
    fun _ hm => Function.update_of_ne hm _ _⟩

omit [DecidableEq F] in
theorem Own.eraseSection (hi : Inv fib s) (hcur : s.current (fib n) = some n) (hrun : s.run = none) :
    Own fib n s (eraseSection s n) := by
  rw [TimerQueue.eraseSection]
  split_ifs
  · exact Own.refl hi hcur
  · exact ⟨hi.bqNodup, nodup_eraseEntry n hi.tqNodup, Or.inl rfl, Or.inr hrun, rfl, rfl, rfl, rfl, rfl,
      rfl, fun _ _ => ⟨rfl, rfl⟩, Or.inl hcur, fun _ _ => rfl, fun _ _ => Iff.rfl,
      fun m hm => (mem_eraseEntry n m s.tq).trans (and_iff_left hm), fun _ _ => rfl⟩

omit [DecidableEq F] in
theorem Own.removeNode (hi : Inv fib s) (hcur : s.current (fib n) = some n) (hscan : s.scan = none) :
    Own fib n s { s with bq := s.bq.erase n } :=
  ⟨hi.bqNodup.erase n, hi.tqNodup, Or.inr hscan, Or.inl rfl, rfl, rfl, rfl, rfl, rfl, rfl,
    fun _ _ => ⟨rfl, rfl⟩, Or.inl hcur, fun _ _ => rfl, fun m hm => by simp [hi.bqNodup.mem_erase_iff, hm],
    fun _ _ => Iff.rfl, fun _ _ => rfl⟩

theorem Own.awake (hi : Inv fib s) (hcur : s.current (fib n) = some n) :
    Own fib n s { s with resumed := Function.update s.resumed (fib n) false } :=
  ⟨hi.bqNodup, hi.tqNodup, Or.inl rfl, Or.inl rfl, rfl, rfl, rfl, rfl, rfl, rfl,
    fun _ hf => ⟨rfl, Function.update_of_ne hf _ _⟩, Or.inl hcur, fun _ _ => rfl, fun _ _ => Iff.rfl,
    fun _ _ => Iff.rfl, fun _ _ => rfl⟩

omit [DecidableEq F] in
theorem current_of_pc (hi : Inv fib s) (hpc : s.pc n ≠ .idle ∧ s.pc n ≠ .refused ∧
    ∀ r, s.pc n ≠ .returned r) : s.current (fib n) = some n := by
  have hfits := hi.fits n
  refine current_of_fview ?_
  rw [Fits, fview_pc] at hfits
  obtain ⟨h1, h2, h3⟩ := hpc
  split at hfits <;> rename_i heq <;> first | exact hfits.1 | exact absurd heq ‹_› | exact absurd heq (h3 _)

omit [DecidableEq F] in
theorem inv_enqueue (hi : Inv fib s) {deadline : ℕ} (hpc : s.pc n = .enqueue deadline)
    (hrun : s.run = none) : Inv fib (enqueue s n deadline) := by
  have hcur : s.current (fib n) = some n := current_of_pc hi (by simp [hpc])
  have hfits := hi.fits n
  rw [fview_current hcur, hpc] at hfits
  obtain ⟨-, hclear, htw, hcases⟩ := hfits
  have hnew : n ∉ s.tq.map Prod.snd := of_decide_eq_false hclear.node
  have harmed : (tview (enqueue s n deadline) n).Armed :=
    ⟨decide_eq_true ((mem_insert deadline n n s.tq).mpr (Or.inl rfl)), Function.update_self ..,
      hclear.won, hclear.lost, hclear.erasing⟩
  refine hi.own hcur (Own.enqueue hi hcur hrun hnew deadline)
    (fits_current (p := .asleep true) (Function.update_self ..) hcur ⟨rfl, ?_⟩)
  rcases hcases with ⟨hinfo, hres, hq⟩ | ⟨hinfo, ht⟩
  · exact Or.inl ⟨hinfo, hres, hq, harmed, htw⟩
  · exact Or.inr (Or.inl ⟨hinfo, ht, Or.inl ⟨harmed.node, harmed.expired, harmed.won, harmed.erasing⟩,
      htw⟩)

omit [DecidableEq F] in
/-- While no `checkExpiry` runs, what is not in the timer queue is done with. -/
theorem late_of_run (hrun : s.run = none) (hn : n ∉ s.tq.map Prod.snd) : (tview s n).Late := by
  refine ⟨?_, ?_, ?_⟩ <;> simp only [tview, State.won, State.lost, State.erasing, hrun]
  · rfl
  · rfl
  · rw [decide_eq_false hn]; rfl

/-- `block` returns `true`. -/
theorem inv_finish {t : State C F} (hi : Inv fib s) (hcur : s.current (fib n) = some n)
    (h : Own fib n s t) (hinfo : s.resumeInfo (fib n) = some .queue)
    (hres : t.resumed (fib n) = false) (hclear : (bview t n).Clear) (htakes : (bview t n).takes = 1)
    (hlate : (tview t n).Late) (htw : (tview t n).timerWon = false) : Inv fib (finish fib t n) := by
  rw [finish, if_pos (by rw [h.resumeInfo]; exact hinfo)]
  refine hi.own hcur (h.leave hres true)
    (fits_idle (p := .returned true) (Function.update_self ..) ?_ ⟨rfl, hclear, htakes, hlate, htw⟩)
  simp [leave]

theorem inv_erase (hi : Inv fib s) (hpc : s.pc n = .erase false) :
    Inv fib (if s.expired n then finish fib s n else s.goto n (.erase true)) := by
  have hcur : s.current (fib n) = some n := current_of_pc hi (by simp [hpc])
  have hfits := hi.fits n
  rw [fview_current hcur, hpc] at hfits
  obtain ⟨-, hinfo, hres, hclear, htakes, hbeaten, htw⟩ := hfits
  have hown : Own fib n s s := Own.refl hi hcur
  split_ifs with hexp
  · refine inv_finish hi hcur hown hinfo hres hclear htakes ?_ htw
    rcases hbeaten with ⟨-, hno, -⟩ | ⟨-, hlate⟩
    · exact absurd hexp (by rw [show s.expired n = false from hno]; simp)
    · exact hlate
  · exact hi.own hcur (hown.goto _) (fits_current (p := .erase true) (Function.update_self ..) hcur
      ⟨rfl, hinfo, hres, hclear, htakes, hbeaten, htw⟩)

theorem inv_eraseSection (hi : Inv fib s) (hpc : s.pc n = .erase true) (hrun : s.run = none) :
    Inv fib (finish fib (eraseSection s n) n) := by
  have hcur : s.current (fib n) = some n := current_of_pc hi (by simp [hpc])
  have hfits := hi.fits n
  rw [fview_current hcur, hpc] at hfits
  obtain ⟨-, hinfo, hres, hclear, htakes, hbeaten, htw⟩ := hfits
  have hown : Own fib n s (eraseSection s n) := Own.eraseSection hi hcur hrun
  rw [eraseSection] at hown ⊢
  split_ifs at hown ⊢ with hexp
  · refine inv_finish hi hcur hown hinfo hres hclear htakes ?_ htw
    rcases hbeaten with ⟨-, hno, -⟩ | ⟨-, hlate⟩
    · exact absurd hexp (by rw [show s.expired n = false from hno]; simp)
    · exact hlate
  · refine inv_finish hi hcur hown hinfo hres hclear htakes (late_of_run hrun ?_) htw
    simp [mem_eraseEntry]

theorem inv_remove (hi : Inv fib s) (hpc : s.pc n = .remove) (hscan : s.scan = none) :
    Inv fib (leave fib { s with bq := s.bq.erase n } n false) := by
  have hcur : s.current (fib n) = some n := current_of_pc hi (by simp [hpc])
  have hfits := hi.fits n
  rw [fview_current hcur, hpc] at hfits
  obtain ⟨-, -, hres, hq, hlate, htw⟩ := hfits
  refine hi.own hcur ((Own.removeNode hi hcur hscan).leave hres false)
    (fits_idle (p := .returned false) (Function.update_self ..) ?_ ⟨rfl, ?_, hq.takes, hlate, htw⟩)
  · simp [leave]
  · exact ⟨by simp [bview, leave, State.goto, hi.bqNodup.mem_erase_iff], hq.removing, hq.resuming,
      hq.handed⟩

theorem inv_resumption (hi : Inv fib s) {timed : Bool} (hpc : s.pc n = .asleep timed)
    (hres : s.resumed (fib n) = true) : Inv fib (resumption fib s n timed) := by
  have hcur : s.current (fib n) = some n := current_of_pc hi (by simp [hpc])
  have hown := Own.awake hi hcur
  have hoff : Function.update s.resumed (fib n) false (fib n) = false := Function.update_self ..
  have htaken : (bview s n).Taken (s.resumed (fib n)) → (bview s n).Clear ∧ (bview s n).takes = 1 := by
    rintro ⟨htakes, h⟩
    rw [hres] at h
    rcases h with ⟨-, -, -, -, h⟩ | ⟨-, -, -, h⟩ | ⟨hclear, -⟩
    · cases h
    · cases h
    · exact ⟨hclear, htakes⟩
  have hfits := hi.fits n
  rw [fview_current hcur, hpc] at hfits
  cases timed with
  | false =>
    obtain ⟨-, hclear, htw, hcases⟩ := hfits
    rcases hcases with ⟨-, hno, -⟩ | ⟨hinfo, ht⟩
    · rw [show s.resumed (fib n) = false from hno] at hres; cases hres
    · obtain ⟨hbclear, htakes⟩ := htaken ht
      exact inv_finish hi hcur hown hinfo hoff hbclear htakes
        ⟨hclear.won, hclear.lost, hclear.erasing.trans hclear.node.symm⟩ htw
  | true =>
    obtain ⟨-, hcases⟩ := hfits
    rcases hcases with ⟨-, hno, -⟩ | ⟨hinfo, ht, hbeaten, htw⟩ | ⟨hinfo, hq, htw, hcases⟩
    · rw [show s.resumed (fib n) = false from hno] at hres; cases hres
    · obtain ⟨hbclear, htakes⟩ := htaken ht
      have hinfo' : s.resumeInfo (fib n) = some .queue := hinfo
      simp only [resumption, hinfo', if_true, reduceCtorEq, Option.some.injEq, if_false]
      exact hi.own hcur (hown.goto _) (fits_current (p := .erase false) (Function.update_self ..) hcur
        ⟨rfl, hinfo, hoff, hbclear, htakes, hbeaten, htw⟩)
    · have hlate : (tview s n).Late := by
        rcases hcases with ⟨hno, -⟩ | ⟨-, hlate⟩
        · rw [show s.resumed (fib n) = false from hno] at hres; cases hres
        · exact hlate
      have hinfo' : s.resumeInfo (fib n) = some .timer := hinfo
      simp only [resumption, hinfo', if_true]
      exact hi.own hcur (hown.goto _) (fits_current (p := .remove) (Function.update_self ..) hcur
        ⟨rfl, hinfo, hoff, hq, hlate, htw⟩)

/-- A step about the current call `n` of some fibre, which may win its race or resume it. -/
structure About (fib : C → F) (n : C) (s s' : State C F) : Prop where
  bqNodup : s'.bq.Nodup
  tqNodup : (s'.tq.map Prod.snd).Nodup
  handedNodup : s'.handed.Nodup
  scanned : ∀ enqueue rest, s'.scan = some (.scanning enqueue rest) →
    ∃ front, s'.bq = front ++ rest ∧ ∀ m ∈ front, s'.resumeInfo (fib m) ≠ none
  first : ∀ m, s'.won = some m ∨ s'.lost = some m ∨ s'.erasing = some m →
    ∃ deadline rest, s'.tq = (deadline, m) :: rest
  current : s'.current = s.current
  pc : s'.pc = s.pc
  words : ∀ f, f ≠ fib n → s'.resumeInfo f = s.resumeInfo f ∧ s'.resumed f = s.resumed f
  bview : ∀ m, m ≠ n → bview s' m = bview s m
  tview : ∀ m, m ≠ n → tview s' m = tview s m

omit [DecidableEq F] in
theorem Inv.about (hi : Inv fib s) (hcur : s.current (fib n) = some n) (h : About fib n s s')
    (hn : Fits ⟨s.pc n, true, s'.resumeInfo (fib n), s'.resumed (fib n)⟩ (bview s' n) (tview s' n)) :
    Inv fib s' := by
  have hcur' : s'.current (fib n) = some n := by rw [h.current]; exact hcur
  refine ⟨h.bqNodup, h.tqNodup, h.handedNodup, fun f hf => ?_, h.scanned, h.first,
    fits_of_others (n := n) hi.fits (fits_current (by rw [h.pc]) hcur' hn) (fun m hm => ?_) h.bview
      h.tview⟩
  · rw [h.current] at hf
    have hne : f ≠ fib n := by rintro rfl; rw [hcur] at hf; cases hf
    rw [(h.words f hne).2]; exact hi.resumed f hf
  · refine fview_other (n := n) (by rw [h.pc]) (fun f hf => ⟨by rw [h.current], h.words f hf⟩) ?_ ?_
    · rw [hcur]; simp [Ne.symm hm]
    · rw [hcur']; simp [Ne.symm hm]

omit [DecidableEq F] in
theorem inv_unblock (hi : Inv fib s) (hscan : s.scan = none) (enqueue : Bool) :
    Inv fib { s with scan := some (.scanning enqueue s.bq) } := by
  refine ⟨hi.bqNodup, hi.tqNodup, hi.handedNodup, hi.resumed, ?_, hi.first, fun m => ?_⟩
  · intro e rest h
    simp only [Option.some.injEq, Scan.scanning.injEq] at h
    exact ⟨[], by rw [← h.2]; rfl, by simp⟩
  · refine fits_same hi rfl (bview_other Iff.rfl ?_ ?_ Iff.rfl ?_) rfl <;>
      simp [State.removing, State.resuming, State.takes, State.pending, hscan]

omit [DecidableEq F] in
theorem inv_scan_end (hi : Inv fib s) {enqueue : Bool} (hscan : s.scan = some (.scanning enqueue [])) :
    Inv fib { s with scan := none, returned := s.returned ++ [none] } := by
  refine ⟨hi.bqNodup, hi.tqNodup, hi.handedNodup, hi.resumed, fun _ _ h => absurd h (by simp), hi.first,
    fun m => ?_⟩
  refine fits_same hi rfl (bview_other Iff.rfl ?_ ?_ Iff.rfl ?_) rfl <;>
    simp [State.removing, State.resuming, State.takes, State.pending, hscan]

omit [DecidableEq F] in
theorem inv_scan_skip (hi : Inv fib s) {enqueue : Bool} {rest : List C}
    (hscan : s.scan = some (.scanning enqueue (n :: rest))) (hlost : s.resumeInfo (fib n) ≠ none) :
    Inv fib { s with scan := some (.scanning enqueue rest) } := by
  refine ⟨hi.bqNodup, hi.tqNodup, hi.handedNodup, hi.resumed, ?_, hi.first, fun m => ?_⟩
  · intro e rest' h
    simp only [Option.some.injEq, Scan.scanning.injEq] at h
    obtain ⟨front, hbq, hfront⟩ := hi.scanned enqueue (n :: rest) hscan
    refine ⟨front ++ [n], by rw [← h.2, hbq, List.append_assoc]; rfl, fun m hm => ?_⟩
    rcases List.mem_append.mp hm with hm | hm
    · exact hfront m hm
    · rw [List.mem_singleton.mp hm]; exact hlost
  · refine fits_same hi rfl (bview_other Iff.rfl ?_ ?_ Iff.rfl ?_) rfl <;>
      simp [State.removing, State.resuming, State.takes, State.pending, hscan]

omit [DecidableEq F] in
/-- The node an `unblock` is at is in the queue, of a fibre's current call. -/
theorem current_of_scan (hi : Inv fib s) {enqueue : Bool} {rest : List C}
    (hscan : s.scan = some (.scanning enqueue (n :: rest))) :
    n ∈ s.bq ∧ s.current (fib n) = some n := by
  obtain ⟨front, hbq, -⟩ := hi.scanned enqueue (n :: rest) hscan
  have hmem : n ∈ s.bq := by rw [hbq]; simp
  exact ⟨hmem, current_of_fview ((hi.fits n).node_current (decide_eq_true hmem))⟩

theorem inv_scan_take (hi : Inv fib s) {enqueue : Bool} {rest : List C}
    (hscan : s.scan = some (.scanning enqueue (n :: rest))) (hopen : s.resumeInfo (fib n) = none) :
    Inv fib { s with resumeInfo := Function.update s.resumeInfo (fib n) (some .queue)
                     scan := some (.removing enqueue n) } := by
  obtain ⟨hmem, hcur⟩ := current_of_scan hi hscan
  have hfits := hi.fits n
  rw [fview_current hcur] at hfits
  have hpend : s.pending = none := by rw [State.pending, hscan]
  refine hi.about hcur ⟨hi.bqNodup, hi.tqNodup, hi.handedNodup, ?_, hi.first, rfl, rfl,
    fun f hf => ⟨Function.update_of_ne hf _ _, rfl⟩, fun m hm => ?_, fun _ _ => rfl⟩ ?_
  · intro e rest' h; cases h
  · refine bview_other Iff.rfl ?_ ?_ Iff.rfl ?_ <;>
      simp [State.removing, State.resuming, State.takes, State.pending, hscan, Ne.symm hm]
  · simp only [Function.update_self]
    refine And.right (hfits.take rfl hopen fun hq => ?_)
    refine ⟨?_, Or.inl ⟨hq.node, ?_, ?_, hq.handed, rfl⟩⟩
    · have hnone : s.takes n = 0 := hq.takes
      simp only [State.takes, hpend] at hnone
      simp only [bview, State.takes, State.pending, if_true]
      simpa using hnone
    · simp [bview, State.removing]
    · simp [bview, State.resuming]

omit [DecidableEq F] in
/-- The unblock in progress has taken its node from a fibre's current call. -/
theorem taken_of_removing (hi : Inv fib s) (h : s.removing = some n) :
    s.current (fib n) = some n ∧ (bview s n).Taken (s.resumed (fib n)) ∧
      ∀ (b : BView) (r : Bool), b.Taken r →
        Fits ⟨s.pc n, true, s.resumeInfo (fib n), r⟩ b (tview s n) := by
  have hheld : (bview s n).removing = true := decide_eq_true h
  have hcur := current_of_fview ((hi.fits n).taken (Or.inl hheld)).1
  obtain ⟨-, ht, hnext⟩ := (hi.fits n).taken (Or.inl hheld)
  rw [fview_current hcur] at ht hnext
  exact ⟨hcur, ht, hnext⟩

omit [DecidableEq F] in
theorem inv_remove_enqueue (hi : Inv fib s) (hscan : s.scan = some (.removing true n)) :
    Inv fib { s with bq := s.bq.erase n, scan := some (.resuming n) } := by
  have hrm : s.removing = some n := by rw [State.removing, hscan]
  obtain ⟨hcur, ⟨htakes, ht⟩, hnext⟩ := taken_of_removing hi hrm
  refine hi.about hcur ⟨hi.bqNodup.erase n, hi.tqNodup, hi.handedNodup, ?_, hi.first, rfl, rfl,
    fun _ _ => ⟨rfl, rfl⟩, fun m hm => ?_, fun _ _ => rfl⟩ (hnext _ _ ⟨?_, Or.inr (Or.inl ?_)⟩)
  · intro e rest h; cases h
  · refine bview_other (by simp [hi.bqNodup.mem_erase_iff, hm]) ?_ ?_ Iff.rfl ?_ <;>
      simp [State.removing, State.resuming, State.takes, State.pending, hscan, Ne.symm hm]
  · rw [← htakes]
    simp [bview, State.takes, State.pending, hscan]
  · rcases ht with ⟨-, -, -, hh, hr⟩ | ⟨-, h, -⟩ | ⟨h, -⟩
    · have hh : n ∉ s.handed := of_decide_eq_false hh
      refine ⟨?_, ?_, ?_, hr⟩ <;>
        simp [bview, State.removing, State.resuming, hi.bqNodup.mem_erase_iff, hh]
    · exact absurd hrm (of_decide_eq_false h)
    · exact absurd hrm (of_decide_eq_false h.removing)

omit [DecidableEq F] in
theorem inv_remove_handed (hi : Inv fib s) (hscan : s.scan = some (.removing false n)) :
    Inv fib { s with bq := s.bq.erase n
                     scan := none
                     returned := s.returned ++ [some n]
                     handed := n :: s.handed } := by
  have hrm : s.removing = some n := by rw [State.removing, hscan]
  obtain ⟨hcur, ⟨htakes, ht⟩, hnext⟩ := taken_of_removing hi hrm
  have hfree : n ∉ s.handed ∧ s.resumed (fib n) = false := by
    rcases ht with ⟨-, -, -, hh, hr⟩ | ⟨-, h, -⟩ | ⟨h, -⟩
    · exact ⟨of_decide_eq_false hh, hr⟩
    · exact absurd hrm (of_decide_eq_false h)
    · exact absurd hrm (of_decide_eq_false h.removing)
  refine hi.about hcur ⟨hi.bqNodup.erase n, hi.tqNodup, List.nodup_cons.mpr ⟨hfree.1, hi.handedNodup⟩,
    ?_, hi.first, rfl, rfl, fun _ _ => ⟨rfl, rfl⟩, fun m hm => ?_, fun _ _ => rfl⟩
    (hnext _ _ ⟨?_, Or.inr (Or.inl ⟨?_, ?_, ?_, hfree.2⟩)⟩)
  · intro e rest h; cases h
  · refine bview_other (by simp [hi.bqNodup.mem_erase_iff, hm]) ?_ ?_ (by simp [hm]) ?_ <;>
      simp [State.removing, State.resuming, State.takes, State.pending, hscan, Ne.symm hm]
  · rw [← htakes]
    simp [bview, State.takes, State.pending, hscan]
  · simp [bview, hi.bqNodup.mem_erase_iff]
  · simp [bview, State.removing]
  · simp [bview, State.resuming]

theorem inv_scan_resume (hi : Inv fib s) (hscan : s.scan = some (.resuming n)) :
    Inv fib { resume fib s n with scan := none, returned := s.returned ++ [some n] } := by
  have hrs : s.resuming = some n := by rw [State.resuming, hscan]
  have hheld : (bview s n).resuming = true := decide_eq_true hrs
  have hcur := current_of_fview ((hi.fits n).taken (Or.inr (Or.inl hheld))).1
  obtain ⟨-, ⟨htakes, ht⟩, hnext⟩ := (hi.fits n).taken (Or.inr (Or.inl hheld))
  rw [fview_current hcur] at hnext
  have hfree : n ∉ s.bq ∧ n ∉ s.handed := by
    rcases ht with ⟨-, -, h, -⟩ | ⟨hn, -, h, -⟩ | ⟨h, -⟩
    · rw [hheld] at h; cases h
    · rw [hheld] at h
      exact ⟨of_decide_eq_false hn, of_decide_eq_false (by simpa [bview] using h.symm)⟩
    · exact absurd hrs (of_decide_eq_false h.resuming)
  have hfits := hnext (bview { resume fib s n with scan := none, returned := s.returned ++ [some n] } n)
    true ⟨?_, Or.inr (Or.inr ⟨⟨?_, ?_, ?_, ?_⟩, rfl⟩)⟩
  · refine hi.about hcur ⟨hi.bqNodup, hi.tqNodup, hi.handedNodup, ?_, hi.first, rfl, rfl,
      fun f hf => ⟨rfl, Function.update_of_ne hf _ _⟩, fun m hm => ?_, fun _ _ => rfl⟩ ?_
    · intro e rest h; cases h
    · refine bview_other Iff.rfl ?_ ?_ Iff.rfl ?_ <;>
        simp [State.removing, State.resuming, State.takes, State.pending, hscan, Ne.symm hm]
    · simp only [resume, Function.update_self]
      exact hfits
  · rw [← htakes]
    simp [bview, resume, State.takes, State.pending, hscan]
  · simp [bview, resume, hfree.1]
  · simp [bview, State.removing]
  · simp [bview, State.resuming]
  · simp [bview, resume, hfree.2]

theorem inv_resume (hi : Inv fib s) (hmem : n ∈ s.handed) :
    Inv fib { resume fib s n with handed := s.handed.erase n } := by
  have hheld : (bview s n).handed = true := decide_eq_true hmem
  have hcur := current_of_fview ((hi.fits n).taken (Or.inr (Or.inr hheld))).1
  obtain ⟨-, ⟨htakes, ht⟩, hnext⟩ := (hi.fits n).taken (Or.inr (Or.inr hheld))
  rw [fview_current hcur] at hnext
  have hfree : n ∉ s.bq ∧ s.removing ≠ some n ∧ s.resuming ≠ some n := by
    rcases ht with ⟨-, -, -, h, -⟩ | ⟨hn, hrm, h, -⟩ | ⟨h, -⟩
    · rw [hheld] at h; cases h
    · rw [hheld] at h
      exact ⟨of_decide_eq_false hn, of_decide_eq_false hrm, of_decide_eq_false h⟩
    · exact absurd hmem (of_decide_eq_false h.handed)
  have hfits := hnext (bview { resume fib s n with handed := s.handed.erase n } n) true
    ⟨?_, Or.inr (Or.inr ⟨⟨?_, ?_, ?_, ?_⟩, rfl⟩)⟩
  · refine hi.about hcur ⟨hi.bqNodup, hi.tqNodup, hi.handedNodup.erase n, hi.scanned, hi.first, rfl,
      rfl, fun f hf => ⟨rfl, Function.update_of_ne hf _ _⟩, fun m hm => ?_, fun _ _ => rfl⟩ ?_
    · exact bview_other Iff.rfl Iff.rfl Iff.rfl (by simp [hi.handedNodup.mem_erase_iff, hm]) rfl
    · simp only [resume, Function.update_self]
      exact hfits
  · exact htakes
  · simp [bview, resume, hfree.1]
  · exact decide_eq_false hfree.2.1
  · exact decide_eq_false hfree.2.2
  · simp [bview, hi.handedNodup.mem_erase_iff]

/-! ### `checkExpiry` -/

omit [DecidableEq F] in
/-- A step of `checkExpiry` between two entries. -/
theorem inv_run (hi : Inv fib s) {run : Option (Expiry C)} {timeout : Option ℕ}
    (hw : s.won = none ∧ s.lost = none ∧ s.erasing = none)
    (hw' : ∀ now n, run ≠ some (.won now n) ∧ run ≠ some (.lost now n) ∧ run ≠ some (.erasing now n)) :
    Inv fib { s with run := run, newTimeout := timeout } := by
  have hnone : State.won { s with run := run, newTimeout := timeout } = none ∧
      State.lost { s with run := run, newTimeout := timeout } = none ∧
      State.erasing { s with run := run, newTimeout := timeout } = none := by
    cases run with
    | none => exact ⟨rfl, rfl, rfl⟩
    | some r =>
      cases r with
      | scanning now => exact ⟨rfl, rfl, rfl⟩
      | won now n => exact absurd rfl (hw' now n).1
      | lost now n => exact absurd rfl (hw' now n).2.1
      | erasing now n => exact absurd rfl (hw' now n).2.2
  refine ⟨hi.bqNodup, hi.tqNodup, hi.handedNodup, hi.resumed, hi.scanned, fun m hm => ?_, fun m => ?_⟩
  · rw [hnone.1, hnone.2.1, hnone.2.2] at hm
    simp at hm
  · refine fits_same hi rfl rfl (tview_other Iff.rfl ?_ ?_ ?_ rfl rfl)
    · rw [hnone.1, hw.1]
    · rw [hnone.2.1, hw.2.1]
    · rw [hnone.2.2, hw.2.2]

omit [DecidableEq F] in
/-- The entry a `checkExpiry` is at belongs to a fibre's current call, unless it is done with. -/
theorem current_of_entry (hi : Inv fib s) (hmem : n ∈ s.tq.map Prod.snd) (h : s.erasing ≠ some n) :
    s.current (fib n) = some n :=
  current_of_fview ((hi.fits n).entry (decide_eq_true hmem) (decide_eq_false h)).1

theorem inv_expire (hi : Inv fib s) {now deadline : ℕ} {rest : List (ℕ × C)}
    (hrun : s.run = some (.scanning now)) (htq : s.tq = (deadline, n) :: rest)
    (hopen : s.resumeInfo (fib n) = none) :
    Inv fib { s with resumeInfo := Function.update s.resumeInfo (fib n) (some .timer)
                     timerWon := Function.update s.timerWon n true
                     run := some (.won now n) } := by
  have hmem : n ∈ s.tq.map Prod.snd := by rw [htq]; simp
  have hcur := current_of_entry hi hmem (by simp [State.erasing, hrun])
  have hfits := hi.fits n
  rw [fview_current hcur] at hfits
  have hexp := hfits.expire rfl hopen (decide_eq_true hmem)
  refine hi.about hcur ⟨hi.bqNodup, hi.tqNodup, hi.handedNodup, ?_, ?_, rfl, rfl,
    fun f hf => ⟨Function.update_of_ne hf _ _, rfl⟩, fun _ _ => rfl, fun m hm => ?_⟩ ?_
  · intro enqueue rest' hscan
    obtain ⟨front, hbq, hfront⟩ := hi.scanned enqueue rest' hscan
    refine ⟨front, hbq, fun m hm => ?_⟩
    rcases eq_or_ne (fib m) (fib n) with hf | hf
    · simp [hf]
    · simpa [hf] using hfront m hm
  · rintro m (h | h | h) <;> simp [State.won, State.lost, State.erasing] at h
    exact ⟨deadline, rest, h ▸ htq⟩
  · refine tview_other Iff.rfl ?_ ?_ ?_ rfl (Function.update_of_ne hm _ _) <;>
      simp [State.won, State.lost, State.erasing, hrun, Ne.symm hm]
  · simp only [Function.update_self]
    have ht : tview { s with resumeInfo := Function.update s.resumeInfo (fib n) (some .timer)
                             timerWon := Function.update s.timerWon n true
                             run := some (.won now n) } n
        = { tview s n with won := true, timerWon := true } := by
      simp [tview, State.won, State.lost, State.erasing, hrun]
    rw [ht]
    exact hexp

omit [DecidableEq F] in
theorem inv_lose (hi : Inv fib s) {now deadline : ℕ} {rest : List (ℕ × C)}
    (hrun : s.run = some (.scanning now)) (htq : s.tq = (deadline, n) :: rest)
    (hlost : s.resumeInfo (fib n) ≠ none) : Inv fib { s with run := some (.lost now n) } := by
  have hmem : n ∈ s.tq.map Prod.snd := by rw [htq]; simp
  have hcur := current_of_entry hi hmem (by simp [State.erasing, hrun])
  have hfits := hi.fits n
  rw [fview_current hcur] at hfits
  have hnext := hfits.lose rfl hlost (decide_eq_true hmem) (by simp [tview, State.won, hrun])
    (by simp [tview, State.erasing, hrun])
  refine hi.about hcur ⟨hi.bqNodup, hi.tqNodup, hi.handedNodup, hi.scanned, ?_, rfl, rfl,
    fun _ _ => ⟨rfl, rfl⟩, fun _ _ => rfl, fun m hm => ?_⟩ ?_
  · rintro m (h | h | h) <;> simp [State.won, State.lost, State.erasing] at h
    exact ⟨deadline, rest, h ▸ htq⟩
  · refine tview_other Iff.rfl ?_ ?_ ?_ rfl rfl <;>
      simp [State.won, State.lost, State.erasing, hrun, Ne.symm hm]
  · have ht : tview { s with run := some (.lost now n) } n = { tview s n with lost := true } := by
      simp [tview, State.won, State.lost, State.erasing, hrun]
    rw [ht]
    exact hnext

theorem inv_fire (hi : Inv fib s) {now : ℕ} (hrun : s.run = some (.won now n)) :
    Inv fib { resume fib s n with run := some (.erasing now n) } := by
  have hwon : s.won = some n := by rw [State.won, hrun]
  have htwon : (tview s n).won = true := decide_eq_true hwon
  have hcur := current_of_fview ((hi.fits n).fire htwon).1
  have hnext := ((hi.fits n).fire htwon).2
  rw [fview_current hcur] at hnext
  refine hi.about hcur ⟨hi.bqNodup, hi.tqNodup, hi.handedNodup, hi.scanned, ?_, rfl, rfl,
    fun f hf => ⟨rfl, Function.update_of_ne hf _ _⟩, fun _ _ => rfl, fun m hm => ?_⟩ ?_
  · rintro m (h | h | h) <;> simp [State.won, State.lost, State.erasing] at h
    exact h ▸ hi.first n (Or.inl hwon)
  · refine tview_other Iff.rfl ?_ ?_ ?_ rfl rfl <;>
      simp [State.won, State.lost, State.erasing, hrun, Ne.symm hm]
  · have ht : tview { resume fib s n with run := some (.erasing now n) } n
        = { tview s n with won := false, erasing := true } := by
      simp [tview, resume, State.won, State.lost, State.erasing, hrun]
      rfl
    rw [ht]
    simp only [resume, Function.update_self]
    exact hnext

omit [DecidableEq F] in
/-- The call a lost race is about is still a fibre's current one: `expired` is written to a live
    node. -/
theorem current_of_lost (hi : Inv fib s) (h : s.lost = some n) : s.current (fib n) = some n := by
  obtain ⟨deadline, rest, htq⟩ := hi.first n (Or.inr (Or.inl h))
  refine current_of_entry hi (by rw [htq]; simp) fun he => ?_
  simp only [State.lost, State.erasing] at h he
  split at h <;> simp_all

omit [DecidableEq F] in
theorem inv_note (hi : Inv fib s) {now : ℕ} (hrun : s.run = some (.lost now n)) :
    Inv fib { s with expired := Function.update s.expired n true, run := some (.erasing now n) } := by
  have hlost : s.lost = some n := by rw [State.lost, hrun]
  obtain ⟨deadline, rest, htq⟩ := hi.first n (Or.inr (Or.inl hlost))
  have hmem : n ∈ s.tq.map Prod.snd := by rw [htq]; simp
  have hcur := current_of_lost hi hlost
  have hfits := hi.fits n
  rw [fview_current hcur] at hfits
  have hnext := hfits.note (decide_eq_true hlost) (decide_eq_true hmem)
  refine hi.about hcur ⟨hi.bqNodup, hi.tqNodup, hi.handedNodup, hi.scanned, ?_, rfl, rfl,
    fun _ _ => ⟨rfl, rfl⟩, fun _ _ => rfl, fun m hm => ?_⟩ ?_
  · rintro m (h | h | h) <;> simp [State.won, State.lost, State.erasing] at h
    exact ⟨deadline, rest, h ▸ htq⟩
  · refine tview_other Iff.rfl ?_ ?_ ?_ (Function.update_of_ne hm _ _) rfl <;>
      simp [State.won, State.lost, State.erasing, hrun, Ne.symm hm]
  · have ht : tview { s with expired := Function.update s.expired n true
                             run := some (.erasing now n) } n
        = { tview s n with expired := true, lost := false, erasing := true } := by
      simp [tview, State.won, State.lost, State.erasing, hrun]
    rw [ht]
    exact hnext

omit [DecidableEq F] in
/-- `iter = queue.erase(iter)`: the call may have returned by now. -/
theorem inv_erased (hi : Inv fib s) {now : ℕ} (hrun : s.run = some (.erasing now n)) :
    Inv fib { s with tq := s.tq.tail, run := some (.scanning now) } := by
  have herasing : s.erasing = some n := by rw [State.erasing, hrun]
  obtain ⟨deadline, rest, htq⟩ := hi.first n (Or.inr (Or.inr herasing))
  have hnd := hi.tqNodup
  rw [htq, List.map_cons, List.nodup_cons] at hnd
  refine ⟨hi.bqNodup, by rw [htq]; exact hnd.2, hi.handedNodup, hi.resumed, hi.scanned, ?_,
    fits_of_others (n := n) hi.fits ?_ (fun _ _ => rfl) (fun _ _ => rfl) fun m hm => ?_⟩
  · rintro m (h | h | h) <;> cases h
  · have ht : tview { s with tq := s.tq.tail, run := some (.scanning now) } n
        = { tview s n with node := false, erasing := false } := by
      simpa [tview, State.won, State.lost, State.erasing, hrun, htq] using hnd.1
    rw [ht]
    exact (hi.fits n).erased (decide_eq_true herasing)
  · refine tview_other (by simp [htq, hm]) ?_ ?_ ?_ rfl rfl <;>
      simp [State.won, State.lost, State.erasing, hrun, Ne.symm hm]

/-! ### Every step -/

theorem inv_next (hi : Inv fib s) (h : next fib s n = some s') : Inv fib s' := by
  obtain ⟨deadline, hpc, hrun, rfl⟩ | ⟨hpc, rfl⟩ | ⟨hpc, hrun, rfl⟩ | ⟨hpc, hscan, rfl⟩ := next_cases h
  · exact inv_enqueue hi hpc hrun
  · exact inv_erase hi hpc
  · exact inv_eraseSection hi hpc hrun
  · exact inv_remove hi hpc hscan

theorem inv_unblockNext (hi : Inv fib s) {scan : Scan C} (hscan : s.scan = some scan) :
    Inv fib (unblockNext fib s scan) := by
  rcases scan with ⟨enqueue, _ | ⟨n, rest⟩⟩ | ⟨_ | _, n⟩ | n
  · exact inv_scan_end hi hscan
  · rw [unblockNext]
    split_ifs with hopen
    · exact inv_scan_take hi hscan hopen
    · exact inv_scan_skip hi hscan hopen
  · exact inv_remove_handed hi hscan
  · exact inv_remove_enqueue hi hscan
  · exact inv_scan_resume hi hscan

theorem inv_expiryNext (hi : Inv fib s) {run : Expiry C} (hrun : s.run = some run) :
    Inv fib (expiryNext fib s run) := by
  rcases run with now | ⟨now, n⟩ | ⟨now, n⟩ | ⟨now, n⟩
  · have hw : s.won = none ∧ s.lost = none ∧ s.erasing = none := by
      simp [State.won, State.lost, State.erasing, hrun]
    rw [expiryNext]
    split
    · exact inv_run hi hw (by simp)
    · rename_i deadline n rest htq
      split_ifs with hlate hopen
      · exact inv_run hi hw (by simp)
      · exact inv_expire hi hrun htq hopen
      · exact inv_lose hi hrun htq hopen
  · exact inv_fire hi hrun
  · exact inv_note hi hrun
  · exact inv_erased hi hrun

/-- STEP: the invariant is kept by every step. -/
theorem inv_step (hi : Inv fib s) {a : Action C} (h : step fib s a = some s') : Inv fib s' := by
  cases a with
  | block n args =>
    simp only [step] at h
    split_ifs at h with hcond
    exact Option.some.inj h ▸ inv_block hi hcond.1 hcond.2.1 hcond.2.2
  | next n => exact inv_next hi h
  | resumption n =>
    simp only [step] at h
    split at h
    · rename_i timed hpc
      split_ifs at h with hres
      exact Option.some.inj h ▸ inv_resumption hi hpc hres
    · cases h
  | unblock enqueue =>
    simp only [step] at h
    split_ifs at h with hscan
    exact Option.some.inj h ▸ inv_unblock hi hscan enqueue
  | unblockNext =>
    obtain ⟨scan, hscan, rfl⟩ := Option.map_eq_some_iff.mp h
    exact inv_unblockNext hi hscan
  | resume n =>
    simp only [step] at h
    split_ifs at h with hmem
    exact Option.some.inj h ▸ inv_resume hi hmem
  | checkExpiry now =>
    simp only [step] at h
    split_ifs at h with hrun
    obtain rfl := Option.some.inj h
    have hw : s.won = none ∧ s.lost = none ∧ s.erasing = none := by
      simp [State.won, State.lost, State.erasing, hrun]
    exact inv_run hi hw (by simp)
  | expiryNext =>
    obtain ⟨run, hrun, rfl⟩ := Option.map_eq_some_iff.mp h
    exact inv_expiryNext hi hrun

/-- RUN: the invariant holds in every reachable state. -/
theorem inv_reach (h : Reach (system fib) s) : Inv fib s := by
  refine h.inv (I := Inv fib) ?_ fun _ _ _ hi hs => inv_step hi hs
  rintro _ rfl
  exact inv_start fib

end Views

end Libfibre.TimerQueue
