import Libfibre.StackSwitch.AArch64
import Libfibre.StackSwitch.Contexts

/-! The freds of one processor on AArch64, switching among each other.

        own code of f ──bl──▶ stackSwitch ──br──▶ postFunc(f), on the stack of g
                                                       │ ret
              ... own code of g ◀──────────────────────┘ where g has called, or stubInit

    Here the return address is in the frame, as `x30`. What the freds keep to is as on x86-64, and `sp` stays
    aligned throughout. -/

namespace Libfibre.StackSwitch.AArch64
open Libfibre.AArch64 Transition
open X86 (Addr Memory load store Within Inside Quads store_outside load_store load_congr)

/-- A call of `stackSwitch`, and the context that it goes on in. -/
structure Call (F : Type) where
  prev : F
  next : F
  postFunc : Addr
  context : Option State

/-- What a post-switch function was entered with. -/
structure Entry where
  pc : Addr
  x0 : BitVec 64
  sp : BitVec 64

/-- The machine, the fred that runs, and what has become of the others. -/
structure Sys (F : Type) where
  mach : State
  current : F
  /-- history: where a suspended fred has entered `stackSwitch`, or what `stackInit` has made up -/
  saved : F → Option State
  /-- history: the context that the current fred was switched to in, until its own code runs -/
  resumed : Option State
  /-- history: the machine where each fred has last entered `stackSwitch` -/
  left : F → Option State
  calls : List (Call F)    -- history
  entries : List Entry     -- history

/-- What the current fred does next. -/
inductive Action (F : Type) where
  /-- code of the current fred runs, up to `t` -/
  | code (t : State)
  /-- `g.setup(func, arg1, arg2, arg3)`, called from before `ret` -/
  | setup (g : F) (func arg1 arg2 arg3 : BitVec 64) (ret : Addr)
  /-- `switchFred(g)`, where `stackSwitch` is called from before `ret` -/
  | switch (g : F) (postFunc ret : Addr)
  /-- the post-switch function has run and returned in `t` -/
  | post (t : State)

section Model
variable {F : Type} [DecidableEq F] (L : Layout F) (σ : Addr)

/-- `stackInit(stackPointer, func, arg1, arg2, arg3)` is entered. -/
def Sys.initEntry (s : Sys F) (g : F) (func arg1 arg2 arg3 : BitVec 64) (ret : Addr) : State :=
  (((((s.mach.set (.x 0) (load s.mach.mem (L.slot g))).set (.x 1) func).set (.x 2) arg1).set (.x 3) arg2).set
    (.x 4) arg3).set (.x 30) ret

/-- `stackSwitch(this, postFunc, &stackPointer, nextFred.stackPointer)` is entered. -/
def Sys.switchEntry (s : Sys F) (g : F) (postFunc ret : Addr) : State :=
  ((((s.mach.set (.x 0) (L.self s.current)).set (.x 1) postFunc).set (.x 2) (L.slot s.current)).set
    (.x 3) (load s.mach.mem (L.slot g))).set (.x 30) ret

/-- The fred's own code runs to `t`. -/
def Sys.code (s : Sys F) (t : State) : Sys F := { s with mach := t, resumed := none }

/-- `stackPointer = stackInit(..)` -/
def Sys.setup (s : Sys F) (g : F) (func arg1 arg2 arg3 : BitVec 64) (ret : Addr) : Sys F :=
  let t := run (s.initEntry L g func arg1 arg2 arg3 ret) (stackInit σ)
  { s.code { t with mem := store t.mem (L.slot g) (t.reg (.x 0)) } with
    saved := Function.update s.saved g
      (some (fresh t.mem σ (load s.mach.mem (L.slot g)) func arg1 arg2 arg3)) }

/-- `stackSwitch` from its call to its `ret`. -/
def Sys.switch (s : Sys F) (g : F) (postFunc ret : Addr) : Sys F :=
  let entry := s.switchEntry L g postFunc ret
  { mach := run entry stackSwitch
    current := g
    saved := Function.update (Function.update s.saved s.current (some entry)) g none
    resumed := s.saved g
    left := Function.update s.left s.current (some entry)
    calls := s.calls ++ [⟨s.current, g, postFunc, s.saved g⟩]
    entries := s.entries }

/-- `postFunc` has run, from its entry to its `ret`, and left the machine at `t`. -/
def Sys.post (s : Sys F) (t : State) : Sys F :=
  { s with mach := t, entries := s.entries ++ [⟨s.mach.pc, s.mach.reg (.x 0), s.mach.reg .sp⟩] }

/-- Whether a post-switch function is about to run is up to where the machine is. -/
def step (s : Sys F) : Action F → Option (Sys F)
  | .code t => if L.post s.mach.pc then none else some (s.code t)
  | .setup g func arg1 arg2 arg3 ret =>
    if L.post s.mach.pc then none else some (s.setup L σ g func arg1 arg2 arg3 ret)
  | .switch g postFunc ret =>
    if L.post s.mach.pc then none else some (s.switch L g postFunc ret)
  | .post t => if L.post s.mach.pc then some (s.post t) else none

/-- One fred runs, and no other has been set up. -/
def init (s : Sys F) : Prop :=
  L.post s.mach.pc = false ∧ Aligned s.mach ∧ s.mach.aligned = true ∧ s.saved = (fun _ => none) ∧
    s.resumed = none ∧ s.left = (fun _ => none) ∧ s.calls = [] ∧ s.entries = []

/-- A processor that runs freds. -/
def system : System (Sys F) (Action F) := { init := init L, step := step L σ }

/-- As on x86-64; all code keeps `sp` aligned, and a stack that is set up ends at a multiple of 16. -/
def Keeps (s : Sys F) : Action F → Prop
  | .code t =>
    L.post t.pc = false ∧ Aligned t ∧ t.aligned = true ∧
    ∀ a, L.area a ≠ .stack s.current → L.area a ≠ .field s.current → L.area a ≠ .heap →
      t.mem a = s.mach.mem a
  | .setup g _ _ _ _ ret =>
    L.post ret = false ∧ L.post σ = false ∧ g ≠ s.current ∧ s.saved g = none ∧
    Room L g (load s.mach.mem (L.slot g) - 160) 160 ∧ (load s.mach.mem (L.slot g)).toNat % 16 = 0
  | .switch g postFunc ret =>
    L.post postFunc = true ∧ L.post ret = false ∧ g ≠ s.current ∧ (s.saved g).isSome ∧
    Room L s.current (s.mach.reg .sp - 160) 160 ∧ 160 ≤ (s.mach.reg .sp).toNat
  | .post t =>
    Returned s.mach t ∧ t.aligned = true ∧
    ∀ a, L.area a ≠ .heap → ¬ (L.area a = .stack s.current ∧ a < s.mach.reg .sp) →
      t.mem a = s.mach.mem a

end Model

/-! ### A suspended fred -/

section Freds
variable {F : Type} {L : Layout F} {σ : Addr}

/-- In the memory `m`, the context `c` is all there for a switch to `g`. -/
structure Suspended (L : Layout F) (m : Memory) (g : F) (c : State) : Prop where
  frame : Saved m (load m (L.slot g)) c
  room : Room L g (load m (L.slot g)) 160
  aligned : Aligned c
  live : ∀ a, L.area a = .stack g → c.reg .sp ≤ a → m a = c.mem a
  ret : L.post (c.reg (.x 30)) = false

/-- It is so as long as nobody writes the stack and the slot of the fred. -/
theorem Suspended.congr {m m' : Memory} {g : F} {c : State} (h : Suspended L m g c)
    (hsame : ∀ a, L.area a = .stack g ∨ L.area a = .field g → m' a = m a) : Suspended L m' g c := by
  have hslot : load m' (L.slot g) = load m (L.slot g) :=
    load_congr fun a ha => hsame a (.inr ((L.field g a).mpr ha))
  refine ⟨?_, ?_, h.aligned, fun a ha hlive => (hsame a (.inl ha)).trans (h.live a ha hlive), h.ret⟩
  · rw [hslot]
    exact h.frame.congr fun a ha => hsame a (.inl (h.room.within ha))
  · rw [hslot]
    exact h.room

/-- The frame is at a multiple of 16. -/
theorem Suspended.slot_aligned {m : Memory} {g : F} {c : State} (h : Suspended L m g c) :
    (load m (L.slot g)).toNat % 16 = 0 := by
  have hsp := h.frame.sp
  have hal := h.aligned
  rw [Aligned] at hal
  bv_omega

/-- What is pushed next is on the stack of the fred. -/
theorem Suspended.below {m : Memory} {g : F} {c : State} (h : Suspended L m g c) :
    L.area (c.reg .sp - 1) = .stack g := by
  refine h.room.within ?_
  rw [h.frame.sp, Within]
  bv_omega

section Entries
variable (s : Sys F) (g : F) (postFunc ret : Addr)

theorem switchEntry_args :
    let e := s.switchEntry L g postFunc ret
    e.reg (.x 0) = L.self s.current ∧ e.reg (.x 1) = postFunc ∧ e.reg (.x 2) = L.slot s.current ∧
      e.reg (.x 3) = load s.mach.mem (L.slot g) ∧ e.reg .sp = s.mach.reg .sp ∧ e.reg (.x 30) = ret :=
  ⟨rfl, rfl, rfl, rfl, rfl, rfl⟩

variable (func arg1 arg2 arg3 : BitVec 64)

theorem initEntry_args :
    let e := s.initEntry L g func arg1 arg2 arg3 ret
    e.reg (.x 0) = load s.mach.mem (L.slot g) ∧ e.reg (.x 1) = func ∧ e.reg (.x 2) = arg1 ∧
      e.reg (.x 3) = arg2 ∧ e.reg (.x 4) = arg3 ∧ e.reg .sp = s.mach.reg .sp ∧ e.reg (.x 30) = ret :=
  ⟨rfl, rfl, rfl, rfl, rfl, rfl, rfl⟩

end Entries

section Setup
variable [DecidableEq F] {s : Sys F} {g : F} {func arg1 arg2 arg3 : BitVec 64} {ret : Addr}

variable (L σ s g func arg1 arg2 arg3 ret) in
theorem setup_mach :
    let t := run (s.initEntry L g func arg1 arg2 arg3 ret) (stackInit σ)
    (s.setup L σ g func arg1 arg2 arg3 ret).mach =
      { t with mem := store t.mem (L.slot g) (t.reg (.x 0)) } := rfl

theorem setup_mem :
    (s.setup L σ g func arg1 arg2 arg3 ret).mach.mem =
      store (run (s.initEntry L g func arg1 arg2 arg3 ret) (stackInit σ)).mem (L.slot g)
        (load s.mach.mem (L.slot g) - 160) := by
  obtain ⟨h0, -⟩ := initEntry_args (L := L) s g ret func arg1 arg2 arg3
  rw [setup_mach]
  simp only
  rw [(stackInit_returns σ _).2.1, h0]

/-- The new stack is set up, and its pointer is put into the slot. -/
theorem setup_suspended (hroom : Room L g (load s.mach.mem (L.slot g) - 160) 160)
    (hal : (load s.mach.mem (L.slot g)).toNat % 16 = 0) (hσ : L.post σ = false) :
    Suspended L (s.setup L σ g func arg1 arg2 arg3 ret).mach.mem g
      (fresh (run (s.initEntry L g func arg1 arg2 arg3 ret) (stackInit σ)).mem σ
        (load s.mach.mem (L.slot g)) func arg1 arg2 arg3) := by
  have hsaves := stackInit_saves σ (s.initEntry L g func arg1 arg2 arg3 ret)
    (run (s.initEntry L g func arg1 arg2 arg3 ret) (stackInit σ)).mem
  obtain ⟨h0, h1, h2, h3, h4, -⟩ := initEntry_args (L := L) s g ret func arg1 arg2 arg3
  rw [h0, h1, h2, h3, h4] at hsaves
  rw [setup_mem]
  refine ⟨?_, ?_, hal, fun a ha _ => store_outside (slot_apart ha), hσ⟩
  · rw [load_store]
    exact hsaves.congr fun a ha => store_outside (slot_apart (hroom.within ha))
  · rw [load_store]
    exact hroom

/-- Nothing is written but the new stack and its slot. -/
theorem setup_frame {a : Addr} (hstack : ¬ Within a (load s.mach.mem (L.slot g) - 160) 160)
    (hslot : ¬ Within a (L.slot g) 8) :
    (s.setup L σ g func arg1 arg2 arg3 ret).mach.mem a = s.mach.mem a := by
  obtain ⟨h0, -⟩ := initEntry_args (L := L) s g ret func arg1 arg2 arg3
  rw [← h0] at hstack
  rw [setup_mem, store_outside hslot, stackInit_frame σ _ hstack]
  rfl

/-- The fred that has called it goes on. -/
theorem setup_returns :
    (s.setup L σ g func arg1 arg2 arg3 ret).mach.pc = ret ∧
      (s.setup L σ g func arg1 arg2 arg3 ret).mach.reg .sp = s.mach.reg .sp ∧
      (s.setup L σ g func arg1 arg2 arg3 ret).mach.aligned = s.mach.aligned := by
  obtain ⟨-, -, -, -, -, hsp, h30⟩ := initEntry_args (L := L) s g ret func arg1 arg2 arg3
  obtain ⟨hret, -, hal⟩ := stackInit_returns σ (s.initEntry L g func arg1 arg2 arg3 ret)
  rw [setup_mach]
  exact ⟨hret.pc.trans h30, hret.sp.trans hsp, hal⟩

end Setup

section Switch
variable [DecidableEq F] {s : Sys F} {g : F} {postFunc ret : Addr}

theorem switch_mach :
    (s.switch L g postFunc ret).mach = run (s.switchEntry L g postFunc ret) stackSwitch := rfl

/-- Nothing is written but the frame and the slot. -/
theorem switch_frame {a : Addr} (hframe : ¬ Within a (s.mach.reg .sp - 160) 160)
    (hslot : ¬ Within a (L.slot s.current) 8) :
    (s.switch L g postFunc ret).mach.mem a = s.mach.mem a := by
  obtain ⟨-, -, h2, -, hsp, -⟩ := switchEntry_args (L := L) s g postFunc ret
  rw [← hsp] at hframe
  rw [← h2] at hslot
  rw [switch_mach, stackSwitch_frame _ hframe hslot]
  rfl

/-- The fred that leaves is suspended where it has entered `stackSwitch`. -/
theorem switch_suspended (hroom : Room L s.current (s.mach.reg .sp - 160) 160)
    (hbelow : 160 ≤ (s.mach.reg .sp).toNat) (hal : Aligned s.mach) (hret : L.post ret = false) :
    Suspended L (s.switch L g postFunc ret).mach.mem s.current (s.switchEntry L g postFunc ret) := by
  obtain ⟨-, -, h2, -, hsp, h30⟩ := switchEntry_args (L := L) s g postFunc ret
  have hslot : ∀ a, Within a ((s.switchEntry L g postFunc ret).reg .sp - 160) 160 →
      ¬ Within a ((s.switchEntry L g postFunc ret).reg (.x 2)) 8 := by
    intro a ha
    rw [hsp] at ha
    rw [h2]
    exact slot_apart (hroom.within ha)
  obtain ⟨hsaved, hptr⟩ := stackSwitch_saves _ hslot
  rw [h2] at hptr
  refine ⟨?_, ?_, ?_, ?_, ?_⟩
  · rw [switch_mach, hptr]
    exact hsaved
  · rw [switch_mach, hptr, hsp]
    exact hroom
  · rw [Aligned, hsp]
    exact hal
  · intro a ha hlive
    rw [hsp] at hlive
    refine stackSwitch_frame _ ?_ ?_
    · rw [hsp, Within]
      bv_omega
    · rw [h2]
      exact slot_apart ha
  · rw [h30]
    exact hret

variable (postFunc ret) in
/-- The one that it goes on in is still there after the switch. -/
theorem switch_suspended_next {c : State} (h : Suspended L s.mach.mem g c) (hg : g ≠ s.current)
    (hroom : Room L s.current (s.mach.reg .sp - 160) 160) :
    Suspended L (s.switch L g postFunc ret).mach.mem g c :=
  h.congr fun _ ha => switch_frame (stack_apart hroom hg ha) (field_apart hg ha)

variable (postFunc ret) in
/-- And that context the machine is in, where the post-switch function is entered. -/
theorem switch_restores {c : State} (h : Suspended L s.mach.mem g c) (hg : g ≠ s.current)
    (hroom : Room L s.current (s.mach.reg .sp - 160) 160) :
    (∀ r ∈ frame, (s.switch L g postFunc ret).mach.reg r = c.reg r) ∧
      (s.switch L g postFunc ret).mach.reg .sp = c.reg .sp := by
  obtain ⟨-, -, -, h3, -⟩ := switchEntry_args (L := L) s g postFunc ret
  have hnext := switch_suspended_next postFunc ret h hg hroom
  have hptr : load (s.switch L g postFunc ret).mach.mem (L.slot g) = load s.mach.mem (L.slot g) := by
    refine load_congr fun a ha => ?_
    have harea : L.area a = .stack g ∨ L.area a = .field g := .inr ((L.field g a).mpr ha)
    exact switch_frame (stack_apart hroom hg harea) (field_apart hg harea)
  have hframe := hnext.frame
  rw [hptr, ← h3, switch_mach] at hframe
  exact stackSwitch_restores _ hframe

variable (L s g postFunc ret) in
theorem switch_jumps :
    (s.switch L g postFunc ret).mach.pc = postFunc ∧
      (s.switch L g postFunc ret).mach.reg (.x 0) = L.self s.current := by
  obtain ⟨h0, h1, -⟩ := switchEntry_args (L := L) s g postFunc ret
  obtain ⟨hpc, hself⟩ := stackSwitch_jumps (s.switchEntry L g postFunc ret)
  exact ⟨hpc.trans h1, hself.trans h0⟩

variable (postFunc ret) in
theorem switch_aligned {c : State} (h : Suspended L s.mach.mem g c) (hal : Aligned s.mach) :
    (s.switch L g postFunc ret).mach.aligned = s.mach.aligned := by
  obtain ⟨-, -, -, h3, hsp, -⟩ := switchEntry_args (L := L) s g postFunc ret
  refine (stackSwitch_aligned _ ?_ ?_).trans rfl
  · rw [Aligned, hsp]
    exact hal
  · rw [h3]
    exact h.slot_aligned

/-- Each access is on the stacks of the two freds or to the slot of the one that leaves. -/
theorem switch_accesses {c : State} (h : Suspended L s.mach.mem g c)
    (hroom : Room L s.current (s.mach.reg .sp - 160) 160) {q : Addr}
    (hq : q ∈ (s.switch L g postFunc ret).mach.accesses) :
    q ∈ s.mach.accesses ∨ ∀ a, Within a q 8 →
      L.area a = .stack s.current ∨ L.area a = .field s.current ∨ L.area a = .stack g := by
  obtain ⟨-, -, h2, h3, hsp, -⟩ := switchEntry_args (L := L) s g postFunc ret
  have hin : ∀ {p a : Addr}, Inside q p 160 → Within a q 8 → Within a p 160 := by
    intro p a hq ha
    rw [Inside] at hq
    rw [Within] at ha ⊢
    bv_omega
  have hcases := stackSwitch_accesses _ hq
  rw [hsp, h2, h3] at hcases
  obtain hq | hq | rfl | hq := hcases
  · exact .inl hq
  · exact .inr fun a ha => .inl (hroom.within (hin hq ha))
  · exact .inr fun a ha => .inr (.inl ((L.field _ a).mpr ha))
  · exact .inr fun a ha => .inr (.inr (h.room.within (hin hq ha)))

end Switch

/-! ### The invariant -/

/-- What the current fred does, it does outside of a post-switch function. -/
theorem step_own {s s' t : Sys F} (h : (if L.post s.mach.pc then none else some t) = some s') :
    L.post s.mach.pc = false ∧ t = s' := by
  obtain ⟨hpost, ht⟩ := Option.ite_none_left_eq_some.mp h
  exact ⟨Bool.eq_false_iff.mpr hpost, Option.some.inj ht⟩

theorem step_post {s s' t : Sys F} (h : (if L.post s.mach.pc then some t else none) = some s') :
    L.post s.mach.pc = true ∧ t = s' := by
  obtain ⟨hpost, ht⟩ := Option.ite_none_right_eq_some.mp h
  exact ⟨hpost, Option.some.inj ht⟩

theorem step_switch [DecidableEq F] {s : Sys F} {g : F} {postFunc ret : Addr} (h : L.post s.mach.pc = false) :
    step L σ s (.switch g postFunc ret) = some (s.switch L g postFunc ret) := by
  simp only [step, h, Bool.false_eq_true, if_false]

theorem step_returned [DecidableEq F] {s : Sys F} {t : State} (h : L.post s.mach.pc = true) :
    step L σ s (.post t) = some (s.post t) := by
  simp only [step, h, if_true]

/-- The context `c` is the one that the machine is in, in the post-switch function or after it. -/
structure Resumed (L : Layout F) (s : Sys F) (c : State) : Prop where
  regs : ∀ r ∈ calleeSaved, s.mach.reg r = c.reg r
  sp : s.mach.reg .sp = c.reg .sp
  stack : ∀ a, L.area a = .stack s.current → c.reg .sp ≤ a → s.mach.mem a = c.mem a
  entered : L.post s.mach.pc = true → s.mach.reg (.x 30) = c.reg (.x 30)
  returned : L.post s.mach.pc = false → s.mach.pc = c.reg (.x 30)

/-- The post-switch function of the call `k` was entered with the switched-out fred as argument, on the
    aligned stack of the next one, in the context that this was to go on in. -/
def Ran (L : Layout F) (k : Call F) (e : Entry) : Prop :=
  e.pc = k.postFunc ∧ e.x0 = L.self k.prev ∧ L.area (e.sp - 1) = .stack k.next ∧ e.sp.toNat % 16 = 0 ∧
    ∃ c, k.context = some c ∧ e.sp = c.reg .sp

/-- INVARIANT: a suspended fred's frame is on its stack, as it was saved. -/
structure Inv (L : Layout F) (s : Sys F) : Prop where
  current : s.saved s.current = none
  aligned : Aligned s.mach ∧ s.mach.aligned = true
  suspended : ∀ g c, s.saved g = some c → Suspended L s.mach.mem g c
  resumed : ∀ c, s.resumed = some c → Resumed L s c ∧ L.post (c.reg (.x 30)) = false
  left : ∀ f e, s.left f = some e → f = s.current ∨ s.saved f = some e
  again : ∀ c, s.resumed = some c → ∀ e, s.left s.current = some e → e = c
  ran : L.post s.mach.pc = false → List.Forall₂ (Ran L) s.calls s.entries
  entered : L.post s.mach.pc = true → ∃ done k, s.calls = done ++ [k] ∧
    List.Forall₂ (Ran L) done s.entries ∧ k.context = s.resumed ∧
    Ran L k ⟨s.mach.pc, s.mach.reg (.x 0), s.mach.reg .sp⟩

namespace Inv

variable {s : Sys F}

theorem ne_current (h : Inv L s) {g : F} {c : State} (hg : s.saved g = some c) : g ≠ s.current := by
  rintro rfl
  rw [h.current] at hg
  cases hg

theorem of_init (h : init L s) : Inv L s := by
  obtain ⟨hpc, hal, hflag, hsaved, hresumed, hleft, hcalls, hentries⟩ := h
  refine ⟨congrFun hsaved _, ⟨hal, hflag⟩, ?_, ?_, ?_, ?_, ?_, ?_⟩
  · intro g c hg
    rw [hsaved] at hg
    cases hg
  · intro c hc
    rw [hresumed] at hc
    cases hc
  · intro f e he
    rw [hleft] at he
    cases he
  · intro c hc
    rw [hresumed] at hc
    cases hc
  · intro _
    rw [hcalls, hentries]
    exact .nil
  · intro hpost
    rw [hpc] at hpost
    cases hpost

theorem code (h : Inv L s) {t : State} (hpost : L.post s.mach.pc = false)
    (hk : Keeps L σ s (.code t)) : Inv L (s.code t) := by
  obtain ⟨ht, hal, hflag, hmem⟩ := hk
  refine ⟨h.current, ⟨hal, hflag⟩, ?_, ?_, h.left, ?_, fun _ => h.ran hpost, ?_⟩
  · intro g c hg
    refine (h.suspended g c hg).congr fun a ha => ?_
    obtain ⟨hstack, hfield, hheap⟩ := foreign (h.ne_current hg) ha
    exact hmem a hstack hfield hheap
  · intro c hc
    cases hc
  · intro c hc
    cases hc
  · intro hpc
    have hpc : L.post t.pc = true := hpc
    rw [ht] at hpc
    cases hpc

theorem post (h : Inv L s) (hpost : L.post s.mach.pc = true) {t : State}
    (hk : Keeps L σ s (.post t)) : Inv L (s.post t) := by
  obtain ⟨⟨hkept, hsp, hpc⟩, hflag, hmem⟩ := hk
  obtain ⟨done, k, hcalls, hdone, hcontext, hran⟩ := h.entered hpost
  obtain ⟨c, hc, -⟩ := hran.2.2.2.2
  rw [hcontext] at hc
  obtain ⟨hres, hret⟩ := h.resumed c hc
  -- it returns to where the call in `c` has come from
  have hback : t.pc = c.reg (.x 30) := hpc.trans (hres.entered hpost)
  have hout : L.post t.pc = false := by rw [hback, hret]
  refine ⟨h.current, ⟨?_, hflag⟩, ?_, ?_, h.left, h.again, ?_, ?_⟩
  · have hal := h.aligned.1
    rw [Aligned, ← hsp] at hal
    exact hal
  · intro g b hg
    refine (h.suspended g b hg).congr fun a ha => ?_
    obtain ⟨hstack, -, hheap⟩ := foreign (h.ne_current hg) ha
    exact hmem a hheap fun hown => hstack hown.1
  · intro b hb
    obtain rfl : c = b := Option.some.inj (hc.symm.trans hb)
    refine ⟨⟨fun r hr => (hkept r hr).trans (hres.regs r hr), hsp.trans hres.sp, ?_, ?_,
      fun _ => hback⟩, hret⟩
    · intro a ha hlive
      refine (hmem a ?_ ?_).trans (hres.stack a ha hlive)
      · rw [ha]
        intro hheap
        cases hheap
      · rintro ⟨-, hbelow⟩
        rw [hres.sp] at hbelow
        exact absurd hlive (BitVec.not_le.mpr hbelow)
    · intro hpc
      have hpc : L.post t.pc = true := hpc
      rw [hout] at hpc
      cases hpc
  · intro _
    have hcalls : (s.post t).calls = done ++ [k] := hcalls
    rw [hcalls]
    exact List.rel_append hdone (.cons hran .nil)
  · intro hpc
    have hpc : L.post t.pc = true := hpc
    rw [hout] at hpc
    cases hpc

end Inv

section Steps
variable [DecidableEq F] {s s' : Sys F} {g : F} {func arg1 arg2 arg3 : BitVec 64} {postFunc ret : Addr}

theorem Inv.setup (h : Inv L s) (hpost : L.post s.mach.pc = false)
    (hk : Keeps L σ s (.setup g func arg1 arg2 arg3 ret)) :
    Inv L (s.setup L σ g func arg1 arg2 arg3 ret) := by
  obtain ⟨hret, hσ, hg, hnone, hroom, htop⟩ := hk
  obtain ⟨hpc, hsp, hflag⟩ := @setup_returns F L σ _ s g func arg1 arg2 arg3 ret
  obtain ⟨hal, haligned⟩ := h.aligned
  refine ⟨(Function.update_of_ne hg.symm ..).trans h.current, ⟨?_, hflag.trans haligned⟩, ?_, ?_, ?_, ?_,
    fun _ => h.ran hpost, ?_⟩
  · rw [Aligned, hsp]
    exact hal
  · intro f c hf
    rcases eq_or_ne f g with rfl | hfg
    · have hf := (Function.update_self ..).symm.trans hf
      rw [← Option.some.inj hf]
      exact setup_suspended hroom htop hσ
    · have hf := (Function.update_of_ne hfg ..).symm.trans hf
      exact (h.suspended f c hf).congr fun a ha => setup_frame (stack_apart hroom hfg ha) (field_apart hfg ha)
  · intro c hc
    cases hc
  · intro f e he
    refine (h.left f e he).imp_right fun hf => ?_
    have hfg : f ≠ g := by
      rintro rfl
      rw [hnone] at hf
      cases hf
    exact (Function.update_of_ne hfg ..).trans hf
  · intro c hc
    cases hc
  · intro hpc'
    rw [hpc, hret] at hpc'
    cases hpc'

theorem Inv.switch (h : Inv L s) (hpost : L.post s.mach.pc = false)
    (hk : Keeps L σ s (.switch g postFunc ret)) : Inv L (s.switch L g postFunc ret) := by
  obtain ⟨hfunc, hret, hg, hsome, hroom, hbelow⟩ := hk
  obtain ⟨hpc, h0⟩ := switch_jumps L s g postFunc ret
  obtain ⟨hal, hflag⟩ := h.aligned
  obtain ⟨b, hb⟩ := Option.isSome_iff_exists.mp hsome
  have hentered : L.post (s.switch L g postFunc ret).mach.pc = true := by rw [hpc, hfunc]
  -- whatever is switched to is resumed in its context
  have hresumed : ∀ c, s.saved g = some c →
      Resumed L (s.switch L g postFunc ret) c ∧ L.post (c.reg (.x 30)) = false := by
    intro c hc
    have hnow := h.suspended g c hc
    have hnext := switch_suspended_next postFunc ret hnow hg hroom
    obtain ⟨hregs, hsp⟩ := switch_restores postFunc ret hnow hg hroom
    have hin : ∀ r ∈ calleeSaved, r ∈ frame := by decide
    refine ⟨⟨fun r hr => hregs r (hin r hr), hsp, hnext.live, fun _ => hregs _ (by decide), fun hback => ?_⟩,
      hnow.ret⟩
    rw [hentered] at hback
    cases hback
  have hnow := h.suspended g b hb
  have hsp := (hresumed b hb).1.sp
  have hnewal : Aligned (s.switch L g postFunc ret).mach := by
    rw [Aligned, hsp]
    exact hnow.aligned
  refine ⟨Function.update_self .., ⟨hnewal, (switch_aligned postFunc ret hnow hal).trans hflag⟩, ?_, hresumed,
    ?_, ?_, ?_, ?_⟩
  · intro f c hf
    have hfg : f ≠ g := by
      rintro rfl
      have hnone := (Function.update_self ..).symm.trans hf
      cases hnone
    have hf := (Function.update_of_ne hfg ..).symm.trans hf
    rcases eq_or_ne f s.current with rfl | hfc
    · have hf := (Function.update_self ..).symm.trans hf
      rw [← Option.some.inj hf]
      exact switch_suspended hroom hbelow hal hret
    · have hf := (Function.update_of_ne hfc ..).symm.trans hf
      exact (h.suspended f c hf).congr fun a ha =>
        switch_frame (stack_apart hroom hfc ha) (field_apart hfc ha)
  · intro f e he
    rcases eq_or_ne f g with hfg | hfg
    · exact .inl hfg
    refine .inr ((Function.update_of_ne hfg ..).trans ?_)
    rcases eq_or_ne f s.current with rfl | hfc
    · have he := (Function.update_self ..).symm.trans he
      exact (Function.update_self ..).trans he
    · have he := (Function.update_of_ne hfc ..).symm.trans he
      exact (Function.update_of_ne hfc ..).trans ((h.left f e he).resolve_left hfc)
  · intro c hc e he
    have he := (Function.update_of_ne hg ..).symm.trans he
    exact Option.some.inj (((h.left g e he).resolve_left hg).symm.trans hc)
  · intro hback
    rw [hentered] at hback
    cases hback
  · intro _
    refine ⟨s.calls, ⟨s.current, g, postFunc, s.saved g⟩, rfl, h.ran hpost, rfl, hpc, h0, ?_,
      hnewal, b, hb, hsp⟩
    rw [hsp]
    exact hnow.below

theorem Inv.step {a : Action F} (h : Inv L s) (hk : Keeps L σ s a) (hs : step L σ s a = some s') :
    Inv L s' := by
  cases a with
  | code t =>
    obtain ⟨hpost, rfl⟩ := step_own hs
    exact h.code hpost hk
  | setup g func arg1 arg2 arg3 ret =>
    obtain ⟨hpost, rfl⟩ := step_own hs
    exact h.setup hpost hk
  | switch g postFunc ret =>
    obtain ⟨hpost, rfl⟩ := step_own hs
    exact h.switch hpost hk
  | post t =>
    obtain ⟨hpost, rfl⟩ := step_post hs
    exact h.post hpost hk

theorem Inv.of_run {as : List (Action F)} (h : Run (system L σ) (Keeps L σ) as s) : Inv L s :=
  h.inv (fun _ => of_init) fun _ _ _ => Inv.step

/-! ### Any switches, in any order -/

/-- MAIN: whatever the freds do and in whatever order they switch, a fred that has been switched to is in
    the context in which it has last called `stackSwitch`, in the post-switch function and after it. The
    post-switch function of each call has run once, or is about to, on the next fred's stack and with the
    previous fred as argument. The stack is aligned all the time, also there. A switch touches nothing but the
    stacks of the two freds and the slot of the one that leaves. -/
theorem context_switch_aarch64 {as : List (Action F)} (h : Run (system L σ) (Keeps L σ) as s) :
    (∀ c, s.resumed = some c → Resumed L s c ∧ ∀ e, s.left s.current = some e → e = c) ∧
    (L.post s.mach.pc = false → List.Forall₂ (Ran L) s.calls s.entries) ∧
    (L.post s.mach.pc = true → s.resumed.isSome ∧
      ∃ done k, s.calls = done ++ [k] ∧ List.Forall₂ (Ran L) done s.entries ∧ k.context = s.resumed ∧
        Ran L k ⟨s.mach.pc, s.mach.reg (.x 0), s.mach.reg .sp⟩) ∧
    (Aligned s.mach ∧ s.mach.aligned = true) ∧
    ∀ g postFunc ret, Keeps L σ s (.switch g postFunc ret) →
      ∀ q ∈ (s.switch L g postFunc ret).mach.accesses, q ∈ s.mach.accesses ∨ ∀ a, Within a q 8 →
        L.area a = .stack s.current ∨ L.area a = .field s.current ∨ L.area a = .stack g := by
  have hinv := Inv.of_run h
  refine ⟨fun c hc => ⟨(hinv.resumed c hc).1, hinv.again c hc⟩, hinv.ran, fun hpost => ?_, hinv.aligned, ?_⟩
  · obtain ⟨done, k, hcalls, hdone, hcontext, hran⟩ := hinv.entered hpost
    obtain ⟨c, hc, -⟩ := hran.2.2.2.2
    refine ⟨?_, done, k, hcalls, hdone, hcontext, hran⟩
    rw [← hcontext, hc]
    rfl
  · intro g postFunc ret hk q hq
    obtain ⟨-, -, -, hsome, hroom, -⟩ := hk
    obtain ⟨c, hc⟩ := Option.isSome_iff_exists.mp hsome
    exact switch_accesses (hinv.suspended g c hc) hroom hq

/-- MAIN: a new fred that has been switched to for the first time is at `stubInit` when the post-switch
    function has returned. This enters `invokeFred` with the arguments of `stackInit`, on an aligned stack and
    at the end of the chain of frames: no saved frame pointer, no return address. -/
theorem first_entry_aarch64 {as : List (Action F)} (h : Run (system L σ) (Keeps L σ) as s) (ι : Addr)
    {m : Memory} {T : Addr} (hnew : s.resumed = some (fresh m σ T func arg1 arg2 arg3))
    (hpost : L.post s.mach.pc = false) :
    let t := run s.mach (stubInit ι)
    s.mach.pc = σ ∧ t.pc = ι ∧ t.reg (.x 0) = func ∧ t.reg (.x 1) = arg1 ∧ t.reg (.x 2) = arg2 ∧
      t.reg (.x 3) = arg3 ∧ t.reg .sp = T - 16 ∧ Aligned t ∧ t.reg (.x 29) = t.reg .sp ∧
      load t.mem (t.reg (.x 29)) = 0 ∧ load t.mem (t.reg (.x 29) + 8) = 0 ∧
      ∀ a, ¬ Within a (T - 16) 16 → t.mem a = s.mach.mem a := by
  have hinv := Inv.of_run h
  obtain ⟨hres, -⟩ := hinv.resumed _ hnew
  have hsp : s.mach.reg .sp = T := hres.sp
  obtain ⟨hpc, h0, h1, h2, h3⟩ := stubInit_jumps ι s.mach
  obtain ⟨hsp', hfp⟩ := stubInit_sp ι s.mach
  obtain ⟨hbase, hret, -⟩ := stubInit_chain ι s.mach
  have hal := hinv.aligned.1
  rw [Aligned, hsp] at hal
  refine ⟨hres.returned hpost, hpc, h0.trans (hres.regs _ (by decide)), h1.trans (hres.regs _ (by decide)),
    h2.trans (hres.regs _ (by decide)), h3.trans (hres.regs _ (by decide)), ?_, ?_,
      hfp.trans hsp'.symm, ?_, ?_, ?_⟩
  · rw [hsp', hsp]
  · rw [Aligned, hsp', hsp]
    bv_omega
  · rw [hfp]
    exact hbase
  · rw [hfp]
    exact hret
  · intro a ha
    rw [stubInit_mem, hsp, store_outside, store_outside]
    · rw [Within] at ha ⊢
      bv_omega
    · rw [Within] at ha ⊢
      bv_omega

end Steps

end Freds

/-! The two freds again: the second is set up and switched to, and its first function switches back. -/

/-- Fred `false` runs, with a stack of its own. -/
def boot : Sys Bool where
  mach :=
    { reg := fun r => if r = .sp then 0x10700 else 0
      mem := store (fun _ => 0) 0x2000 0x21000
      pc := 0x600
      accesses := []
      aligned := true }
  current := false
  saved _ := none
  resumed := none
  left _ := none
  calls := []
  entries := []

/-- It has set up fred `true`. -/
def bootSetup : Sys Bool := boot.setup twoFreds 0x700 true 0x800 1 2 3 0x610

/-- It has switched there. -/
def bootSwitch : Sys Bool := bootSetup.switch twoFreds true 0x500 0x620

/-- The post function has returned. -/
def bootPost : Sys Bool := bootSwitch.post (run bootSwitch.mach [.ret])

/-- Fred `true` has switched back. -/
def backSwitch : Sys Bool := bootPost.switch twoFreds false 0x500 0x720

/-- The post function has returned again. -/
def backPost : Sys Bool := backSwitch.post (run backSwitch.mach [.ret])

theorem bootPost_run : Run (system twoFreds 0x700) (Keeps twoFreds 0x700)
    [.setup true 0x800 1 2 3 0x610, .switch true 0x500 0x620, .post (run bootSwitch.mach [.ret])]
      bootPost := by
  have hsetup : Keeps twoFreds 0x700 boot (.setup true 0x800 1 2 3 0x610) :=
    ⟨by decide, by decide, by decide, rfl, twoFreds_room_true (by decide +kernel) (by decide +kernel),
      by decide +kernel⟩
  have hswitch : Keeps twoFreds 0x700 bootSetup (.switch true 0x500 0x620) :=
    ⟨by decide, by decide, by decide, rfl, twoFreds_room_false (by decide +kernel) (by decide +kernel),
      by decide +kernel⟩
  have hpost : Keeps twoFreds 0x700 bootSwitch (.post (run bootSwitch.mach [.ret])) :=
    ⟨returned_ret _, by decide +kernel, fun _ _ _ => rfl⟩
  have s1 : step twoFreds 0x700 boot (.setup true 0x800 1 2 3 0x610) = some bootSetup := rfl
  have s2 : step twoFreds 0x700 bootSetup (.switch true 0x500 0x620) = some bootSwitch :=
    step_switch (by decide +kernel)
  have s3 : step twoFreds 0x700 bootSwitch (.post (run bootSwitch.mach [.ret])) = some bootPost :=
    step_returned (by decide +kernel)
  have h0 : Run (system twoFreds 0x700) (Keeps twoFreds 0x700) [] boot :=
    .start ⟨rfl, by decide +kernel, rfl, rfl, rfl, rfl, rfl, rfl⟩
  exact ((h0.step hsetup s1).step hswitch s2).step hpost s3

theorem backPost_run : Run (system twoFreds 0x700) (Keeps twoFreds 0x700)
    ([.setup true 0x800 1 2 3 0x610, .switch true 0x500 0x620, .post (run bootSwitch.mach [.ret])] ++
      [.switch false 0x500 0x720] ++ [.post (run backSwitch.mach [.ret])]) backPost := by
  have hback : Keeps twoFreds 0x700 bootPost (.switch false 0x500 0x720) :=
    ⟨by decide, by decide, by decide, rfl, twoFreds_room_true (by decide +kernel) (by decide +kernel),
      by decide +kernel⟩
  have hpost : Keeps twoFreds 0x700 backSwitch (.post (run backSwitch.mach [.ret])) :=
    ⟨returned_ret _, by decide +kernel, fun _ _ _ => rfl⟩
  have s4 : step twoFreds 0x700 bootPost (.switch false 0x500 0x720) = some backSwitch :=
    step_switch (by decide +kernel)
  have s5 : step twoFreds 0x700 backSwitch (.post (run backSwitch.mach [.ret])) = some backPost :=
    step_returned (by decide +kernel)
  exact (bootPost_run.step hback s4).step hpost s5

/-- The first fred goes on where it has called, with its own stack pointer. -/
theorem context_switch_aarch64_back :
    (∀ c, backPost.resumed = some c →
      Resumed twoFreds backPost c ∧ ∀ e, backPost.left backPost.current = some e → e = c) ∧
    backPost.resumed.isSome ∧ (backPost.left backPost.current).isSome ∧ backPost.calls.length = 2 ∧
    Aligned backPost.mach ∧ backPost.mach.pc = 0x620 ∧ backPost.mach.reg .sp = 0x10700 := by
  obtain ⟨hresumed, -, -, ⟨hal, -⟩, -⟩ := context_switch_aarch64 backPost_run
  exact ⟨hresumed, rfl, rfl, rfl, hal, by decide +kernel, by decide +kernel⟩

/-- The second one begins with `func(1, 2, 3)`. -/
theorem first_entry_aarch64_boot :
    (run bootPost.mach (stubInit 0x900)).pc = 0x900 ∧
    (run bootPost.mach (stubInit 0x900)).reg (.x 0) = 0x800 ∧
      (run bootPost.mach (stubInit 0x900)).reg (.x 3) = 3 ∧
      (run bootPost.mach (stubInit 0x900)).reg .sp = 0x21000 - 16 := by
  have hnew := first_entry_aarch64 bootPost_run 0x900 rfl (by decide +kernel)
  have htop : load boot.mach.mem 0x2000 = 0x21000 := by decide +kernel
  obtain ⟨-, hpc, h0, -, -, h3, hsp, -⟩ := hnew
  exact ⟨hpc, h0, h3, hsp.trans (congrArg (· - 16) htop)⟩

end Libfibre.StackSwitch.AArch64
