import Libfibre.StackSwitch.Routines
import Libfibre.Schemes.Transition

/-! The freds of one processor, switching among each other on the machine of `stackSwitch`.

        own code of f ──call──▶ stackSwitch ──jmp──▶ postFunc(f), on the stack of g
                                                        │ ret
              ... own code of g ◀───────────────────────┘ where g has called, or stubInit

    A suspended fred is known to the others by the pointer in its slot alone: at it lies the frame, and
    above that the stack as it was when the fred called. Nobody else writes there, whatever the order of
    the switches. -/

namespace Libfibre.StackSwitch

open Libfibre.X86 Transition

/-- Whose bytes are where. -/
inductive Area (F : Type) where
  | stack (f : F)
  | field (f : F)   -- `stackPointer`
  | heap
  deriving DecidableEq

/-- The freds in memory. Stacks are disjoint, since every byte lies in one area. -/
structure Layout (F : Type) where
  area : Addr → Area F
  self : F → Addr
  slot : F → Addr
  /-- where the post-switch functions begin -/
  post : Addr → Bool
  field : ∀ f a, area a = .field f ↔ Within a (slot f) 8

/-- A call of `stackSwitch`, and the context that it goes on in. -/
structure Call (F : Type) where
  prev : F
  next : F
  postFunc : Addr
  context : Option State

/-- What a post-switch function was entered with. -/
structure Entry where
  rip : Addr
  rdi : BitVec 64
  rsp : BitVec 64

structure Sys (F : Type) where
  mach : State
  current : F
  /-- history: where a suspended fred has entered `stackSwitch`, or what `stackInit` has made up -/
  saved : F → Option State
  /-- history: the context that the current fred was switched to in, until its own code runs -/
  resumed : Option State
  /-- history: the machine where each fred has last entered `stackSwitch` -/
  left : F → Option State
  calls : List (Call F)    -- history
  entries : List Entry     -- history

inductive Action (F : Type) where
  /-- code of the current fred runs, up to `t` -/
  | code (t : State)
  /-- `g.setup(func, arg1, arg2, arg3)`, called from before `ret` -/
  | setup (g : F) (func arg1 arg2 arg3 : BitVec 64) (ret : Addr)
  /-- `switchFred(g)`, where `stackSwitch` is called from before `ret` -/
  | switch (g : F) (postFunc ret : Addr)
  /-- the post-switch function has run and returned in `t` -/
  | post (t : State)

section Model
variable {F : Type} [DecidableEq F] (L : Layout F) (σ : Addr)

/-- `stackInit(stackPointer, func, arg1, arg2, arg3)` is entered. -/
def Sys.initEntry (s : Sys F) (g : F) (func arg1 arg2 arg3 : BitVec 64) (ret : Addr) : State :=
  call (((((s.mach.set .rdi (load s.mach.mem (L.slot g))).set .rsi func).set .rdx arg1).set .rcx arg2).set
    .r8 arg3) 0 ret

/-- `stackSwitch(this, postFunc, &stackPointer, nextFred.stackPointer)` is entered. -/
def Sys.switchEntry (s : Sys F) (g : F) (postFunc ret : Addr) : State :=
  call ((((s.mach.set .rdi (L.self s.current)).set .rsi postFunc).set .rdx (L.slot s.current)).set
    .rcx (load s.mach.mem (L.slot g))) 0 ret

def Sys.code (s : Sys F) (t : State) : Sys F := { s with mach := t, resumed := none }

/-- `stackPointer = stackInit(..)` -/
def Sys.setup (s : Sys F) (g : F) (func arg1 arg2 arg3 : BitVec 64) (ret : Addr) : Sys F :=
  let t := run (s.initEntry L g func arg1 arg2 arg3 ret) (stackInit σ)
  { s.code (t.write (L.slot g) (t.reg .rax)) with
    saved := Function.update s.saved g
      (some (fresh t.mem (load s.mach.mem (L.slot g)) func arg1 arg2 arg3)) }

def Sys.switch (s : Sys F) (g : F) (postFunc ret : Addr) : Sys F :=
  let entry := s.switchEntry L g postFunc ret
  { mach := run entry stackSwitch
    current := g
    saved := Function.update (Function.update s.saved s.current (some entry)) g none
    resumed := s.saved g
    left := Function.update s.left s.current (some entry)
    calls := s.calls ++ [⟨s.current, g, postFunc, s.saved g⟩]
    entries := s.entries }

def Sys.post (s : Sys F) (t : State) : Sys F :=
  { s with mach := t, entries := s.entries ++ [⟨s.mach.rip, s.mach.reg .rdi, s.mach.reg .rsp⟩] }

/-- Whether a post-switch function is about to run is up to where the machine is. -/
def step (s : Sys F) : Action F → Option (Sys F)
  | .code t => if L.post s.mach.rip then none else some (s.code t)
  | .setup g func arg1 arg2 arg3 ret =>
    if L.post s.mach.rip then none else some (s.setup L σ g func arg1 arg2 arg3 ret)
  | .switch g postFunc ret =>
    if L.post s.mach.rip then none else some (s.switch L g postFunc ret)
  | .post t => if L.post s.mach.rip then some (s.post t) else none

def init (s : Sys F) : Prop :=
  L.post s.mach.rip = false ∧ s.saved = (fun _ => none) ∧ s.resumed = none ∧
    s.left = (fun _ => none) ∧ s.calls = [] ∧ s.entries = []

def system : System (Sys F) (Action F) := { init := init L, step := step L σ }

/-! ### What the code around keeps to -/

/-- The `n` bytes from `p` on are in the stack of `f`. -/
def Room (f : F) (p : Addr) (n : ℕ) : Prop := ∀ a, Within a p n → L.area a = .stack f ∧ p ≤ a

/-- The current fred writes its own stack and slot, and what is no fred's; a post-switch function writes
    below the stack pointer it is entered with, and what is no fred's. Stacks have room for what is pushed
    on them. -/
def Keeps (s : Sys F) : Action F → Prop
  | .code t =>
    L.post t.rip = false ∧
    ∀ a, L.area a ≠ .stack s.current → L.area a ≠ .field s.current → L.area a ≠ .heap →
      t.mem a = s.mach.mem a
  | .setup g _ _ _ _ ret =>
    L.post ret = false ∧ L.post σ = false ∧ g ≠ s.current ∧ s.saved g = none ∧
    Room L s.current (s.mach.reg .rsp - 8) 8 ∧ Room L g (load s.mach.mem (L.slot g) - 64) 64
  | .switch g postFunc ret =>
    L.post postFunc = true ∧ L.post ret = false ∧ g ≠ s.current ∧ (s.saved g).isSome ∧
    Room L s.current (s.mach.reg .rsp - 56) 56
  | .post t =>
    Returned s.mach t ∧
    ∀ a, L.area a ≠ .heap → ¬ (L.area a = .stack s.current ∧ a < s.mach.reg .rsp) →
      t.mem a = s.mach.mem a

end Model

/-- What the current fred does, it does outside of a post-switch function. -/
theorem step_own {F : Type} {L : Layout F} {s s' t : Sys F}
    (h : (if L.post s.mach.rip then none else some t) = some s') : L.post s.mach.rip = false ∧ t = s' := by
  obtain ⟨hpost, ht⟩ := Option.ite_none_left_eq_some.mp h
  exact ⟨Bool.eq_false_iff.mpr hpost, Option.some.inj ht⟩

theorem step_post {F : Type} {L : Layout F} {s s' t : Sys F}
    (h : (if L.post s.mach.rip then some t else none) = some s') : L.post s.mach.rip = true ∧ t = s' := by
  obtain ⟨hpost, ht⟩ := Option.ite_none_right_eq_some.mp h
  exact ⟨hpost, Option.some.inj ht⟩

section Freds
variable {F : Type} {L : Layout F} {σ : Addr}

theorem Room.within {f : F} {p : Addr} {n : ℕ} (h : Room L f p n) {a : Addr} (ha : Within a p n) :
    L.area a = .stack f := (h a ha).1

theorem Room.mono {f : F} {p : Addr} {n k : ℕ} (h : Room L f p n) (hk : k ≤ n) : Room L f p k :=
  fun a ha => h a (by rw [Within] at ha ⊢; omega)

/-- The stack above a frame is apart from it. -/
theorem Room.frame_below {f : F} {p a : Addr} (h : Room L f p 56) (ha : p + 48 ≤ a) :
    ¬ Within a p 48 := by
  have htop : p ≤ p + 48 := (h (p + 48) (by rw [Within]; bv_omega)).2
  intro hin
  rw [Within] at hin
  bv_omega

/-- The return address above a frame. -/
theorem Room.ret {f : F} {p : Addr} (h : Room L f p 56) : Room L f (p + 48) 8 := by
  intro a ha
  have hin : Within a p 56 := by
    rw [Within] at ha ⊢
    bv_omega
  obtain ⟨harea, hle⟩ := h a hin
  refine ⟨harea, ?_⟩
  rw [Within] at ha
  bv_omega

theorem stack_apart {f g : F} {p : Addr} {n : ℕ} (h : Room L f p n) (hfg : g ≠ f) {a : Addr}
    (ha : L.area a = .stack g ∨ L.area a = .field g) : ¬ Within a p n := by
  intro hin
  rw [h.within hin] at ha
  rcases ha with ha | ha
  · exact hfg (Area.stack.inj ha).symm
  · cases ha

theorem field_apart {f g : F} (hfg : g ≠ f) {a : Addr}
    (ha : L.area a = .stack g ∨ L.area a = .field g) : ¬ Within a (L.slot f) 8 := by
  intro hin
  rw [(L.field f a).mpr hin] at ha
  rcases ha with ha | ha
  · cases ha
  · exact hfg (Area.field.inj ha).symm

theorem slot_apart {f g : F} {a : Addr} (ha : L.area a = .stack g) : ¬ Within a (L.slot f) 8 := by
  intro hin
  rw [(L.field f a).mpr hin] at ha
  cases ha

theorem foreign {f g : F} (hfg : g ≠ f) {a : Addr} (ha : L.area a = .stack g ∨ L.area a = .field g) :
    L.area a ≠ .stack f ∧ L.area a ≠ .field f ∧ L.area a ≠ .heap := by
  rcases ha with ha | ha <;> rw [ha]
  · exact ⟨fun hs => hfg (Area.stack.inj hs), nofun, nofun⟩
  · exact ⟨nofun, fun hs => hfg (Area.field.inj hs), nofun⟩

/-! ### A suspended fred -/

/-- In the memory `m`, the context `c` is all there for a switch to `g`. -/
structure Suspended (L : Layout F) (m : Memory) (g : F) (c : State) : Prop where
  frame : Saved m (load m (L.slot g)) c
  room : Room L g (load m (L.slot g)) 56
  live : ∀ a, L.area a = .stack g → c.reg .rsp ≤ a → m a = c.mem a
  ret : L.post (load c.mem (c.reg .rsp)) = false

/-- It is so as long as nobody writes the stack and the slot of the fred. -/
theorem Suspended.congr {m m' : Memory} {g : F} {c : State} (h : Suspended L m g c)
    (hsame : ∀ a, L.area a = .stack g ∨ L.area a = .field g → m' a = m a) : Suspended L m' g c := by
  have hslot : load m' (L.slot g) = load m (L.slot g) :=
    load_congr fun a ha => hsame a (.inr ((L.field g a).mpr ha))
  refine ⟨?_, ?_, fun a ha hlive => (hsame a (.inl ha)).trans (h.live a ha hlive), h.ret⟩
  · rw [hslot]
    exact h.frame.congr fun a ha => hsame a (.inl (h.room.within ha))
  · rw [hslot]
    exact h.room

/-! ### A new fred, and a switch -/

section Entries
variable (s : Sys F) (g : F) (postFunc ret : Addr)

theorem switchEntry_args :
    let e := s.switchEntry L g postFunc ret
    e.reg .rdi = L.self s.current ∧ e.reg .rsi = postFunc ∧ e.reg .rdx = L.slot s.current ∧
      e.reg .rcx = load s.mach.mem (L.slot g) ∧ e.reg .rsp = s.mach.reg .rsp - 8 :=
  ⟨rfl, rfl, rfl, rfl, rfl⟩

theorem switchEntry_mem :
    (s.switchEntry L g postFunc ret).mem = store s.mach.mem (s.mach.reg .rsp - 8) ret := rfl

variable (func arg1 arg2 arg3 : BitVec 64)

theorem initEntry_args :
    let e := s.initEntry L g func arg1 arg2 arg3 ret
    e.reg .rdi = load s.mach.mem (L.slot g) ∧ e.reg .rsi = func ∧ e.reg .rdx = arg1 ∧
      e.reg .rcx = arg2 ∧ e.reg .r8 = arg3 ∧ e.reg .rsp = s.mach.reg .rsp - 8 :=
  ⟨rfl, rfl, rfl, rfl, rfl, rfl⟩

theorem initEntry_mem :
    (s.initEntry L g func arg1 arg2 arg3 ret).mem = store s.mach.mem (s.mach.reg .rsp - 8) ret := rfl

end Entries

section Setup
variable [DecidableEq F] {s : Sys F} {g : F} {func arg1 arg2 arg3 : BitVec 64} {ret : Addr}

theorem setup_mach :
    (s.setup L σ g func arg1 arg2 arg3 ret).mach =
      (run (s.initEntry L g func arg1 arg2 arg3 ret) (stackInit σ)).write (L.slot g)
        ((run (s.initEntry L g func arg1 arg2 arg3 ret) (stackInit σ)).reg .rax) := rfl

theorem setup_mem :
    (s.setup L σ g func arg1 arg2 arg3 ret).mach.mem =
      store (run (s.initEntry L g func arg1 arg2 arg3 ret) (stackInit σ)).mem (L.slot g)
        (load s.mach.mem (L.slot g) - 64) := by
  obtain ⟨hrdi, -⟩ := initEntry_args (L := L) s g ret func arg1 arg2 arg3
  rw [setup_mach, State.write_mem, stackInit_rax, hrdi]

/-- The new stack is set up, and its pointer is put into the slot. -/
theorem setup_suspended (hroom : Room L g (load s.mach.mem (L.slot g) - 64) 64)
    (hσ : L.post σ = false) :
    Suspended L (s.setup L σ g func arg1 arg2 arg3 ret).mach.mem g
      (fresh (run (s.initEntry L g func arg1 arg2 arg3 ret) (stackInit σ)).mem
        (load s.mach.mem (L.slot g)) func arg1 arg2 arg3) := by
  have hstub := stackInit_stub σ (s.initEntry L g func arg1 arg2 arg3 ret)
  have hsaves := stackInit_saves σ (s.initEntry L g func arg1 arg2 arg3 ret)
  obtain ⟨hrdi, hrsi, hrdx, hrcx, hr8, -⟩ := initEntry_args (L := L) s g ret func arg1 arg2 arg3
  rw [hrdi] at hstub hsaves
  rw [hrsi, hrdx, hrcx, hr8] at hsaves
  rw [setup_mem]
  refine ⟨?_, ?_, fun a ha _ => store_outside (slot_apart ha), ?_⟩
  · rw [load_store]
    exact hsaves.congr fun a ha => store_outside (slot_apart ((hroom.mono (by omega)).within ha))
  · rw [load_store]
    exact hroom.mono (by omega)
  · rw [fresh_mem, fresh_rsp, hstub]
    exact hσ

/-- Nothing is written but the return address, the new stack and its slot. -/
theorem setup_frame {a : Addr} (hret : ¬ Within a (s.mach.reg .rsp - 8) 8)
    (hstack : ¬ Within a (load s.mach.mem (L.slot g) - 64) 56) (hslot : ¬ Within a (L.slot g) 8) :
    (s.setup L σ g func arg1 arg2 arg3 ret).mach.mem a = s.mach.mem a := by
  obtain ⟨hrdi, -⟩ := initEntry_args (L := L) s g ret func arg1 arg2 arg3
  rw [← hrdi] at hstack
  rw [setup_mem, store_outside hslot, stackInit_frame σ _ hstack, initEntry_mem, store_outside hret]

theorem setup_rip (hcur : Room L s.current (s.mach.reg .rsp - 8) 8) (hg : g ≠ s.current)
    (hroom : Room L g (load s.mach.mem (L.slot g) - 64) 64) :
    (s.setup L σ g func arg1 arg2 arg3 ret).mach.rip = ret := by
  obtain ⟨hrdi, -, -, -, -, hrsp⟩ := initEntry_args (L := L) s g ret func arg1 arg2 arg3
  have hback : Returned (s.initEntry L g func arg1 arg2 arg3 ret)
      (run (s.initEntry L g func arg1 arg2 arg3 ret) (stackInit σ)) := by
    refine stackInit_returns σ _ fun a ha => ?_
    rw [hrsp] at ha
    rw [hrdi]
    exact stack_apart (hroom.mono (by omega)) hg.symm (.inl (hcur.within ha))
  rw [setup_mach, State.write_rip, hback.rip, initEntry_mem, hrsp, load_store]

end Setup

section Switch
variable [DecidableEq F] {s : Sys F} {g : F} {postFunc ret : Addr}

theorem switch_mach :
    (s.switch L g postFunc ret).mach = run (s.switchEntry L g postFunc ret) stackSwitch := rfl

/-- Nothing is written but the return address, the frame and the slot. -/
theorem switch_frame {a : Addr} (hframe : ¬ Within a (s.mach.reg .rsp - 56) 56)
    (hslot : ¬ Within a (L.slot s.current) 8) :
    (s.switch L g postFunc ret).mach.mem a = s.mach.mem a := by
  obtain ⟨-, -, hrdx, -, hrsp⟩ := switchEntry_args (L := L) s g postFunc ret
  have hbelow : s.mach.reg .rsp - 8 - 48 = s.mach.reg .rsp - 56 := by bv_omega
  have hret : ¬ Within a (s.mach.reg .rsp - 8) 8 := by
    rw [Within] at hframe ⊢
    bv_omega
  have hpush : ¬ Within a (s.mach.reg .rsp - 8 - 48) 48 := by
    rw [hbelow]
    rw [Within] at hframe ⊢
    omega
  rw [← hrsp] at hpush
  rw [← hrdx] at hslot
  rw [switch_mach, stackSwitch_frame _ hpush hslot, switchEntry_mem, store_outside hret]

/-- The fred that leaves is suspended where it has entered `stackSwitch`. -/
theorem switch_suspended (hroom : Room L s.current (s.mach.reg .rsp - 56) 56)
    (hret : L.post ret = false) :
    Suspended L (s.switch L g postFunc ret).mach.mem s.current (s.switchEntry L g postFunc ret) := by
  obtain ⟨-, -, hrdx, -, hrsp⟩ := switchEntry_args (L := L) s g postFunc ret
  have hbelow : s.mach.reg .rsp - 8 - 48 = s.mach.reg .rsp - 56 := by bv_omega
  have hslot : ∀ a, Within a ((s.switchEntry L g postFunc ret).reg .rsp - 48) 56 →
      ¬ Within a ((s.switchEntry L g postFunc ret).reg .rdx) 8 := by
    intro a ha
    rw [hrsp, hbelow] at ha
    rw [hrdx]
    exact slot_apart (hroom.within ha)
  obtain ⟨hsaved, hptr⟩ := stackSwitch_saves _ hslot
  rw [hrdx] at hptr
  refine ⟨?_, ?_, ?_, ?_⟩
  · rw [switch_mach, hptr]
    exact hsaved
  · rw [switch_mach, hptr, hrsp, hbelow]
    exact hroom
  · intro a ha hlive
    rw [hrsp] at hlive
    refine stackSwitch_frame _ ?_ ?_
    · rw [hrsp, hbelow]
      exact hroom.frame_below (by rw [← hbelow, BitVec.sub_add_cancel]; exact hlive)
    · rw [hrdx]
      exact slot_apart ha
  · rw [switchEntry_mem, hrsp, load_store]
    exact hret

variable (postFunc ret) in
/-- The one that it goes on in is still there after the switch. -/
theorem switch_suspended_next {c : State} (h : Suspended L s.mach.mem g c) (hg : g ≠ s.current)
    (hroom : Room L s.current (s.mach.reg .rsp - 56) 56) :
    Suspended L (s.switch L g postFunc ret).mach.mem g c :=
  h.congr fun _ ha => switch_frame (stack_apart hroom hg ha) (field_apart hg ha)

variable (postFunc ret) in
/-- And that context the machine is in, where the post-switch function is entered. -/
theorem switch_restores {c : State} (h : Suspended L s.mach.mem g c) (hg : g ≠ s.current)
    (hroom : Room L s.current (s.mach.reg .rsp - 56) 56) :
    (∀ r ∈ calleeSaved, (s.switch L g postFunc ret).mach.reg r = c.reg r) ∧
      (s.switch L g postFunc ret).mach.reg .rsp = c.reg .rsp := by
  obtain ⟨-, -, -, hrcx, -⟩ := switchEntry_args (L := L) s g postFunc ret
  have hnext := switch_suspended_next postFunc ret h hg hroom
  have hptr : load (s.switch L g postFunc ret).mach.mem (L.slot g) = load s.mach.mem (L.slot g) := by
    refine load_congr fun a ha => ?_
    have harea : L.area a = .stack g ∨ L.area a = .field g := .inr ((L.field g a).mpr ha)
    exact switch_frame (stack_apart hroom hg harea) (field_apart hg harea)
  have hframe := hnext.frame
  rw [hptr, ← hrcx, switch_mach] at hframe
  obtain ⟨hregs, hrsp, -⟩ := stackSwitch_restores _ hframe
  exact ⟨hregs, hrsp⟩

variable (L s g postFunc ret) in
theorem switch_jumps :
    (s.switch L g postFunc ret).mach.rip = postFunc ∧
      (s.switch L g postFunc ret).mach.reg .rdi = L.self s.current := by
  obtain ⟨hrdi, hrsi, -⟩ := switchEntry_args (L := L) s g postFunc ret
  obtain ⟨hrip, hself⟩ := stackSwitch_jumps (s.switchEntry L g postFunc ret)
  exact ⟨hrip.trans hrsi, hself.trans hrdi⟩

end Switch

end Freds

end Libfibre.StackSwitch
