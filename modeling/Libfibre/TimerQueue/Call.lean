import Libfibre.TimerQueue.Model

/-! The life of one call of `block`. What the fibre, the blocking queue and the timer queue know of a
    call are three views of it; `Fits` says which go together at each place of the call. The lemmas
    below are the moves of the queues in it: whoever wins the race, the other side finds out later,
    and neither forgets to resume the fibre or goes back to a call that has returned. -/

namespace Libfibre.TimerQueue
open Transition

variable {C F : Type} [DecidableEq C] [DecidableEq F]

/-- What the `unblock` in progress is going to return. -/
def State.pending (s : State C F) : Option C :=
  match s.scan with
  | some (.removing _ n) | some (.resuming n) => some n
  | _ => none

/-- How many calls of `unblock` have returned or are going to return the fibre of a call. -/
def State.takes (s : State C F) (n : C) : ℕ :=
  s.returned.count (some n) + if s.pending = some n then 1 else 0

/-- A call as its fibre sees it; the fibre's words belong to its current call. -/
structure FView where
  pc : Pc
  current : Bool
  info : Option Winner
  resumed : Bool

/-- A call as seen from the blocking queue. -/
structure BView where
  node : Bool
  removing : Bool
  resuming : Bool
  handed : Bool
  takes : ℕ

/-- A call as seen from the timer queue. -/
structure TView where
  node : Bool
  expired : Bool
  won : Bool
  lost : Bool
  erasing : Bool
  timerWon : Bool

def fview (fib : C → F) (s : State C F) (n : C) : FView :=
  if s.current (fib n) = some n then
    { pc := s.pc n, current := true, info := s.resumeInfo (fib n), resumed := s.resumed (fib n) }
  else { pc := s.pc n, current := false, info := none, resumed := false }

/-- The node an `unblock` has won and not yet removed. -/
def State.removing (s : State C F) : Option C :=
  match s.scan with
  | some (.removing _ n) => some n
  | _ => none

/-- The fibre an `unblock<true>` is about to resume. -/
def State.resuming (s : State C F) : Option C :=
  match s.scan with
  | some (.resuming n) => some n
  | _ => none

def bview (s : State C F) (n : C) : BView :=
  { node := decide (n ∈ s.bq)
    removing := decide (s.removing = some n)
    resuming := decide (s.resuming = some n)
    handed := decide (n ∈ s.handed)
    takes := s.takes n }

/-- The nodes a `checkExpiry` has won, lost or is done with. -/
def State.won (s : State C F) : Option C :=
  match s.run with
  | some (.won _ n) => some n
  | _ => none

def State.lost (s : State C F) : Option C :=
  match s.run with
  | some (.lost _ n) => some n
  | _ => none

def State.erasing (s : State C F) : Option C :=
  match s.run with
  | some (.erasing _ n) => some n
  | _ => none

def tview (s : State C F) (n : C) : TView :=
  { node := decide (n ∈ s.tq.map Prod.snd)
    expired := s.expired n
    won := decide (s.won = some n)
    lost := decide (s.lost = some n)
    erasing := decide (s.erasing = some n)
    timerWon := s.timerWon n }

/-- No trace in the blocking queue. -/
structure BView.Clear (b : BView) : Prop where
  node : b.node = false
  removing : b.removing = false
  resuming : b.resuming = false
  handed : b.handed = false

/-- In the blocking queue, taken by nobody. -/
structure BView.Queued (b : BView) : Prop where
  node : b.node = true
  removing : b.removing = false
  resuming : b.resuming = false
  handed : b.handed = false
  takes : b.takes = 0

/-- Taken by one `unblock`, which will resume the fibre unless it has. -/
def BView.Taken (b : BView) (resumed : Bool) : Prop :=
  b.takes = 1 ∧
    ((b.node = true ∧ b.removing = true ∧ b.resuming = false ∧ b.handed = false ∧ resumed = false) ∨
     (b.node = false ∧ b.removing = false ∧ b.resuming = !b.handed ∧ resumed = false) ∨
     (b.Clear ∧ resumed = true))

/-- No trace in the timer queue. -/
structure TView.Clear (t : TView) : Prop where
  node : t.node = false
  won : t.won = false
  lost : t.lost = false
  erasing : t.erasing = false

/-- In the timer queue, untouched. -/
structure TView.Armed (t : TView) : Prop where
  node : t.node = true
  expired : t.expired = false
  won : t.won = false
  lost : t.lost = false
  erasing : t.erasing = false

/-- Not in the timer queue, or only to be erased from it. -/
structure TView.Late (t : TView) : Prop where
  won : t.won = false
  lost : t.lost = false
  erasing : t.erasing = t.node

/-- The timer has lost the race: it does not know yet, or it has said so in `expired`. -/
def TView.Beaten (t : TView) : Prop :=
  (t.node = true ∧ t.expired = false ∧ t.won = false ∧ t.erasing = false) ∨
  (t.expired = true ∧ t.Late)

/-- The three views of a call, at each of its places. -/
def Fits (f : FView) (b : BView) (t : TView) : Prop :=
  match f.pc with
  | .idle | .refused => f.current = false ∧ b.Clear ∧ b.takes = 0 ∧ t.Clear ∧ t.timerWon = false
  | .enqueue _ | .asleep false =>
    f.current = true ∧ t.Clear ∧ t.timerWon = false ∧
      ((f.info = none ∧ f.resumed = false ∧ b.Queued) ∨
       (f.info = some .queue ∧ b.Taken f.resumed))
  | .asleep true =>
    f.current = true ∧
      ((f.info = none ∧ f.resumed = false ∧ b.Queued ∧ t.Armed ∧ t.timerWon = false) ∨
       (f.info = some .queue ∧ b.Taken f.resumed ∧ t.Beaten ∧ t.timerWon = false) ∨
       (f.info = some .timer ∧ b.Queued ∧ t.timerWon = true ∧
         ((f.resumed = false ∧ t.node = true ∧ t.won = true ∧ t.lost = false ∧ t.erasing = false) ∨
          (f.resumed = true ∧ t.Late))))
  | .erase _ =>
    f.current = true ∧ f.info = some .queue ∧ f.resumed = false ∧ b.Clear ∧ b.takes = 1 ∧ t.Beaten ∧
      t.timerWon = false
  | .remove =>
    f.current = true ∧ f.info = some .timer ∧ f.resumed = false ∧ b.Queued ∧ t.Late ∧
      t.timerWon = true
  | .returned true => f.current = false ∧ b.Clear ∧ b.takes = 1 ∧ t.Late ∧ t.timerWon = false
  | .returned false => f.current = false ∧ b.Clear ∧ b.takes = 0 ∧ t.Late ∧ t.timerWon = true

/-! ### What the two queues can do to a call -/

section Local
variable {f : FView} {b b' : BView} {t : TView}

/-- Whoever has a node in the blocking queue is a fibre's current call. -/
theorem Fits.node_current (h : Fits f b t) (hnode : b.node = true) : f.current = true := by
  have hclear : ¬ b.Clear := fun hc => by rw [hc.node] at hnode; cases hnode
  rw [Fits] at h
  split at h <;> first | exact h.1 | exact absurd h.2.1 hclear

/-- `raceResume` by the blocking queue on an open race. -/
theorem Fits.take (h : Fits f b t) (hcur : f.current = true) (hinfo : f.info = none)
    (hb : b.Queued → b'.Taken false) : b.Queued ∧ Fits { f with info := some .queue } b' t := by
  rw [Fits] at h
  split at h <;> rename_i hpc
  · rw [h.1] at hcur; cases hcur
  · rw [h.1] at hcur; cases hcur
  · obtain ⟨-, hclear, htw, ⟨-, hres, hq⟩ | ⟨hi, -⟩⟩ := h
    · exact ⟨hq, by rw [Fits, hpc]; exact ⟨hcur, hclear, htw, Or.inr ⟨rfl, hres ▸ hb hq⟩⟩⟩
    · rw [hinfo] at hi; cases hi
  · obtain ⟨-, hclear, htw, ⟨-, hres, hq⟩ | ⟨hi, -⟩⟩ := h
    · exact ⟨hq, by rw [Fits, hpc]; exact ⟨hcur, hclear, htw, Or.inr ⟨rfl, hres ▸ hb hq⟩⟩⟩
    · rw [hinfo] at hi; cases hi
  · obtain ⟨-, ⟨-, hres, hq, harmed, htw⟩ | ⟨hi, -⟩ | ⟨hi, -⟩⟩ := h
    · refine ⟨hq, ?_⟩
      rw [Fits, hpc]
      exact ⟨hcur, Or.inr (Or.inl ⟨rfl, hres ▸ hb hq,
        Or.inl ⟨harmed.node, harmed.expired, harmed.won, harmed.erasing⟩, htw⟩)⟩
    · rw [hinfo] at hi; cases hi
    · rw [hinfo] at hi; cases hi
  · rw [hinfo] at h; cases h.2.1
  · rw [hinfo] at h; cases h.2.1
  · rw [h.1] at hcur; cases hcur
  · rw [h.1] at hcur; cases hcur

/-- The further steps of the `unblock` that has taken a call. -/
theorem Fits.taken (h : Fits f b t)
    (hheld : b.removing = true ∨ b.resuming = true ∨ b.handed = true) :
    f.current = true ∧ b.Taken f.resumed ∧
      ∀ (b' : BView) (r : Bool), b'.Taken r → Fits { f with resumed := r } b' t := by
  have hclear : ¬ b.Clear := by
    rintro ⟨-, h1, h2, h3⟩
    rw [h1, h2, h3] at hheld; simp at hheld
  have hqueued : ¬ b.Queued := fun hq => hclear.elim (by
    exfalso
    obtain ⟨-, h1, h2, h3, -⟩ := hq
    rw [h1, h2, h3] at hheld; simp at hheld)
  rw [Fits] at h
  split at h <;> rename_i hpc
  · exact absurd h.2.1 hclear
  · exact absurd h.2.1 hclear
  · obtain ⟨hcur, htclear, htw, ⟨-, -, hq⟩ | ⟨hi, ht⟩⟩ := h
    · exact absurd hq hqueued
    · exact ⟨hcur, ht, fun b' r h' => by rw [Fits, hpc]; exact ⟨hcur, htclear, htw, Or.inr ⟨hi, h'⟩⟩⟩
  · obtain ⟨hcur, htclear, htw, ⟨-, -, hq⟩ | ⟨hi, ht⟩⟩ := h
    · exact absurd hq hqueued
    · exact ⟨hcur, ht, fun b' r h' => by rw [Fits, hpc]; exact ⟨hcur, htclear, htw, Or.inr ⟨hi, h'⟩⟩⟩
  · obtain ⟨hcur, ⟨-, -, hq, -⟩ | ⟨hi, ht, hbeaten, htw⟩ | ⟨-, hq, -⟩⟩ := h
    · exact absurd hq hqueued
    · exact ⟨hcur, ht, fun b' r h' => by
        rw [Fits, hpc]; exact ⟨hcur, Or.inr (Or.inl ⟨hi, h', hbeaten, htw⟩)⟩⟩
    · exact absurd hq hqueued
  · exact absurd h.2.2.2.1 hclear
  · exact absurd h.2.2.2.1 hqueued
  · exact absurd h.2.1 hclear
  · exact absurd h.2.1 hclear

/-- What is in the timer queue and not done with is a fibre's current call, asleep or about to erase
    its entry. -/
theorem Fits.entry (h : Fits f b t) (hnode : t.node = true) (herasing : t.erasing = false) :
    f.current = true ∧ (f.pc = .asleep true ∨ ∃ locking, f.pc = .erase locking) := by
  have hlate : ¬ t.Late := fun hl => by
    have := hl.erasing
    rw [hnode, herasing] at this; cases this
  rw [Fits] at h
  split at h <;> rename_i hpc
  · have := h.2.2.2.1.node; rw [hnode] at this; cases this
  · have := h.2.2.2.1.node; rw [hnode] at this; cases this
  · have := h.2.1.node; rw [hnode] at this; cases this
  · have := h.2.1.node; rw [hnode] at this; cases this
  · exact ⟨h.1, Or.inl hpc⟩
  · exact ⟨h.1, Or.inr ⟨_, hpc⟩⟩
  · exact absurd h.2.2.2.2.1 hlate
  · exact absurd h.2.2.2.1 hlate
  · exact absurd h.2.2.2.1 hlate

/-- `raceResume` by the timer queue on an open race. -/
theorem Fits.expire (h : Fits f b t) (hcur : f.current = true) (hinfo : f.info = none)
    (hnode : t.node = true) :
    Fits { f with info := some .timer } b { t with won := true, timerWon := true } := by
  rw [Fits] at h
  split at h <;> rename_i hpc
  · rw [h.1] at hcur; cases hcur
  · rw [h.1] at hcur; cases hcur
  · have := h.2.1.node; rw [hnode] at this; cases this
  · have := h.2.1.node; rw [hnode] at this; cases this
  · obtain ⟨-, ⟨-, hres, hq, harmed, -⟩ | ⟨hi, -⟩ | ⟨hi, -⟩⟩ := h
    · rw [Fits, hpc]
      exact ⟨hcur, Or.inr (Or.inr ⟨rfl, hq, rfl, Or.inl ⟨hres, hnode, rfl, harmed.lost,
        harmed.erasing⟩⟩)⟩
    · rw [hinfo] at hi; cases hi
    · rw [hinfo] at hi; cases hi
  · rw [hinfo] at h; cases h.2.1
  · rw [hinfo] at h; cases h.2.1
  · rw [h.1] at hcur; cases hcur
  · rw [h.1] at hcur; cases hcur

/-- A lost `raceResume` by the timer queue. -/
theorem Fits.lose (h : Fits f b t) (hcur : f.current = true) (hinfo : f.info ≠ none)
    (hnode : t.node = true) (hwon : t.won = false) (herasing : t.erasing = false) :
    Fits f b { t with lost := true } := by
  have hlate : ¬ t.Late := fun hl => by
    have := hl.erasing
    rw [hnode, herasing] at this; cases this
  have hbeaten : t.Beaten → TView.Beaten { t with lost := true } := by
    rintro (⟨h1, h2, h3, h4⟩ | ⟨-, hl⟩)
    · exact Or.inl ⟨h1, h2, h3, h4⟩
    · exact absurd hl hlate
  rw [Fits] at h ⊢
  split at h <;> simp only
  · rw [h.1] at hcur; cases hcur
  · rw [h.1] at hcur; cases hcur
  · have := h.2.1.node; rw [hnode] at this; cases this
  · have := h.2.1.node; rw [hnode] at this; cases this
  · obtain ⟨-, ⟨hi, -⟩ | ⟨hi, ht, hbt, htw⟩ | ⟨-, -, -, ⟨-, -, hw, -⟩ | ⟨-, hl⟩⟩⟩ := h
    · exact absurd hi hinfo
    · exact ⟨hcur, Or.inr (Or.inl ⟨hi, ht, hbeaten hbt, htw⟩)⟩
    · rw [hwon] at hw; cases hw
    · exact absurd hl hlate
  · obtain ⟨-, hi, hres, hclear, htakes, hbt, htw⟩ := h
    exact ⟨hcur, hi, hres, hclear, htakes, hbeaten hbt, htw⟩
  · exact absurd h.2.2.2.2.1 hlate
  · exact absurd h.2.2.2.1 hlate
  · exact absurd h.2.2.2.1 hlate

/-- `resume` by the `checkExpiry` that has won the race. -/
theorem Fits.fire (h : Fits f b t) (hwon : t.won = true) : f.current = true ∧
    Fits { f with resumed := true } b { t with won := false, erasing := true } := by
  have hlate : ¬ t.Late := fun hl => by rw [hl.won] at hwon; cases hwon
  have hbeaten : ¬ t.Beaten := by
    rintro (⟨-, -, h, -⟩ | ⟨-, hl⟩)
    · rw [h] at hwon; cases hwon
    · exact hlate hl
  rw [Fits] at h
  split at h <;> rename_i hpc
  · have := h.2.2.2.1.won; rw [hwon] at this; cases this
  · have := h.2.2.2.1.won; rw [hwon] at this; cases this
  · have := h.2.1.won; rw [hwon] at this; cases this
  · have := h.2.1.won; rw [hwon] at this; cases this
  · obtain ⟨hcur, ⟨-, -, -, harmed, -⟩ | ⟨-, -, hbt, -⟩ | ⟨hi, hq, htw,
      ⟨-, hnode, -, hlost, -⟩ | ⟨-, hl⟩⟩⟩ := h
    · rw [harmed.won] at hwon; cases hwon
    · exact absurd hbt hbeaten
    · refine ⟨hcur, ?_⟩
      rw [Fits, hpc]
      exact ⟨hcur, Or.inr (Or.inr ⟨hi, hq, htw, Or.inr ⟨rfl, rfl, hlost, hnode.symm⟩⟩)⟩
    · exact absurd hl hlate
  · exact absurd h.2.2.2.2.2.1 hbeaten
  · exact absurd h.2.2.2.2.1 hlate
  · exact absurd h.2.2.2.1 hlate
  · exact absurd h.2.2.2.1 hlate

/-- The note in `expired` by the `checkExpiry` that has lost the race. -/
theorem Fits.note (h : Fits f b t) (hlost : t.lost = true) (hnode : t.node = true) :
    Fits f b { t with expired := true, lost := false, erasing := true } := by
  have hlate : ¬ t.Late := fun hl => by rw [hl.lost] at hlost; cases hlost
  have hbeaten : t.Beaten → TView.Beaten { t with expired := true, lost := false, erasing := true } := by
    rintro (⟨-, -, hw, -⟩ | ⟨-, hl⟩)
    · exact Or.inr ⟨rfl, hw, rfl, hnode.symm⟩
    · exact absurd hl hlate
  rw [Fits] at h ⊢
  split at h <;> simp only
  · have := h.2.2.2.1.lost; rw [hlost] at this; cases this
  · have := h.2.2.2.1.lost; rw [hlost] at this; cases this
  · have := h.2.1.lost; rw [hlost] at this; cases this
  · have := h.2.1.lost; rw [hlost] at this; cases this
  · obtain ⟨hcur, ⟨-, -, -, harmed, -⟩ | ⟨hi, ht, hbt, htw⟩ | ⟨-, -, -, ⟨-, -, -, hl, -⟩ | ⟨-, hl⟩⟩⟩ := h
    · rw [harmed.lost] at hlost; cases hlost
    · exact ⟨hcur, Or.inr (Or.inl ⟨hi, ht, hbeaten hbt, htw⟩)⟩
    · rw [hl] at hlost; cases hlost
    · exact absurd hl hlate
  · obtain ⟨hcur, hi, hres, hclear, htakes, hbt, htw⟩ := h
    exact ⟨hcur, hi, hres, hclear, htakes, hbeaten hbt, htw⟩
  · exact absurd h.2.2.2.2.1 hlate
  · exact absurd h.2.2.2.1 hlate
  · exact absurd h.2.2.2.1 hlate

/-- `erase` of the entry by `checkExpiry`. -/
theorem Fits.erased (h : Fits f b t) (herasing : t.erasing = true) :
    Fits f b { t with node := false, erasing := false } := by
  have hlate : t.Late → TView.Late { t with node := false, erasing := false } :=
    fun hl => ⟨hl.won, hl.lost, rfl⟩
  have hbeaten : t.Beaten → TView.Beaten { t with node := false, erasing := false } := by
    rintro (⟨-, -, -, he⟩ | ⟨hx, hl⟩)
    · rw [he] at herasing; cases herasing
    · exact Or.inr ⟨hx, hlate hl⟩
  rw [Fits] at h ⊢
  split at h <;> simp only
  · have := h.2.2.2.1.erasing; rw [herasing] at this; cases this
  · have := h.2.2.2.1.erasing; rw [herasing] at this; cases this
  · have := h.2.1.erasing; rw [herasing] at this; cases this
  · have := h.2.1.erasing; rw [herasing] at this; cases this
  · obtain ⟨hcur, ⟨-, -, -, harmed, -⟩ | ⟨hi, ht, hbt, htw⟩ | ⟨hi, hq, htw, ⟨-, -, -, -, he⟩ | ⟨hr, hl⟩⟩⟩ := h
    · rw [harmed.erasing] at herasing; cases herasing
    · exact ⟨hcur, Or.inr (Or.inl ⟨hi, ht, hbeaten hbt, htw⟩)⟩
    · rw [he] at herasing; cases herasing
    · exact ⟨hcur, Or.inr (Or.inr ⟨hi, hq, htw, Or.inr ⟨hr, hlate hl⟩⟩)⟩
  · obtain ⟨hcur, hi, hres, hclear, htakes, hbt, htw⟩ := h
    exact ⟨hcur, hi, hres, hclear, htakes, hbeaten hbt, htw⟩
  · obtain ⟨hcur, hi, hres, hq, hl, htw⟩ := h
    exact ⟨hcur, hi, hres, hq, hlate hl, htw⟩
  · obtain ⟨hcur, hclear, htakes, hl, htw⟩ := h
    exact ⟨hcur, hclear, htakes, hlate hl, htw⟩
  · obtain ⟨hcur, hclear, htakes, hl, htw⟩ := h
    exact ⟨hcur, hclear, htakes, hlate hl, htw⟩

end Local

end Libfibre.TimerQueue
