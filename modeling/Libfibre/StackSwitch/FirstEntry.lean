import Libfibre.StackSwitch.Routines

/-! A new fred from its `stackInit` to the entry of `invokeFred`: the first switch to it enters the
    post-switch function on the new stack, which returns to `stubInit`. The arguments come through, and
    nothing above the new stack is touched. At the entry of `invokeFred` the stack is aligned, at the one
    of the post-switch function it is eight bytes off. -/

namespace Libfibre.StackSwitch

open Libfibre.X86

theorem initStackPointer_aligned (sp : Addr) : (initStackPointer sp).toNat % 16 = 0 := by
  have hmask : (~~~(16 - 1) &&& 15 : BitVec 64) = 0#64 := by decide
  have hlow : initStackPointer sp &&& 15 = 0#64 := by
    rw [initStackPointer, alignDown, BitVec.and_assoc, hmask, BitVec.and_zero]
  have hmod := Nat.and_two_pow_sub_one_eq_mod (initStackPointer sp).toNat 4
  rw [← hmod]
  exact congrArg BitVec.toNat hlow

/-- `stubInit` and `invokeFred` are where `σ` and `ι` say. In `setup` the fred's `stackInit` is called, in
    `call` another fred's `stackSwitch` to it; in `back` the post-switch function has returned. -/
structure Start (σ ι T func arg1 arg2 arg3 prev post : BitVec 64) where
  setup : State
  call : State
  back : State
  stack : setup.reg .rdi = T
  func : setup.reg .rsi = func
  arg1 : setup.reg .rdx = arg1
  arg2 : setup.reg .rcx = arg2
  arg3 : setup.reg .r8 = arg3
  currStack : call.reg .rdi = prev
  postFunc : call.reg .rsi = post
  nextSP : call.reg .rcx = (run setup (stackInit σ)).reg .rax
  /-- nobody else writes the new stack, before the switch or in it -/
  kept : ∀ a, Within a (T - 64) 64 → call.mem a = (run setup (stackInit σ)).mem a
  apart : ∀ a, Within a (T - 64) 64 →
    ¬ Within a (call.reg .rsp - 48) 48 ∧ ¬ Within a (call.reg .rdx) 8
  returned : Returned (run call stackSwitch) back

namespace Start

variable {σ ι T func arg1 arg2 arg3 prev post : BitVec 64}
  (e : Start σ ι T func arg1 arg2 arg3 prev post)

/-- The post-switch function is entered. -/
def entry : State := run e.call stackSwitch

/-- `invokeFred` is entered. -/
def invoke : State := run e.back (stubInit ι)

theorem nextSP_eq : e.call.reg .rcx = T - 64 := by
  rw [e.nextSP, stackInit_rax, e.stack]

/-- The made-up frame is still there when it is taken off. -/
theorem entry_saved : Saved e.entry.mem (T - 64)
    (fresh (run e.setup (stackInit σ)).mem T func arg1 arg2 arg3) := by
  have hinit := stackInit_saves σ e.setup
  rw [e.stack, e.func, e.arg1, e.arg2, e.arg3] at hinit
  refine hinit.congr fun a ha => ?_
  have hin : Within a (T - 64) 64 := by
    rw [Within] at ha ⊢
    omega
  obtain ⟨hframe, hslot⟩ := e.apart a hin
  exact (stackSwitch_frame e.call hframe hslot).trans (e.kept a hin)

/-- The post-switch function is entered in the made-up context. -/
theorem entry_restores :
    (∀ r ∈ calleeSaved, e.entry.reg r =
      (fresh (run e.setup (stackInit σ)).mem T func arg1 arg2 arg3).reg r) ∧
    e.entry.reg .rsp = T - 16 ∧ load e.entry.mem (T - 16) = σ := by
  have hsaved := e.entry_saved
  rw [← e.nextSP_eq] at hsaved
  obtain ⟨hregs, hrsp, hret⟩ := stackSwitch_restores e.call hsaved
  have hstub := stackInit_stub σ e.setup
  rw [e.stack] at hstub
  rw [fresh_rsp] at hrsp hret
  rw [fresh_mem, hstub] at hret
  exact ⟨hregs, hrsp, hret⟩

theorem entry_jumps : e.entry.rip = post ∧ e.entry.reg .rdi = prev := by
  obtain ⟨hrip, hrdi⟩ := stackSwitch_jumps e.call
  rw [e.postFunc] at hrip
  rw [e.currStack] at hrdi
  exact ⟨hrip, hrdi⟩

/-- The post-switch function returns to `stubInit`, still in the made-up context. -/
theorem back_restores :
    (∀ r ∈ calleeSaved, e.back.reg r =
      (fresh (run e.setup (stackInit σ)).mem T func arg1 arg2 arg3).reg r) ∧
    e.back.reg .rsp = T - 8 ∧ e.back.rip = σ := by
  obtain ⟨hregs, hrsp, hstub⟩ := e.entry_restores
  obtain ⟨hkept, hback, hrip⟩ := e.returned
  have htop : T - 16 + 8 = T - 8 := by bv_omega
  have hload : load e.entry.mem (e.entry.reg .rsp) = σ := by rw [hrsp, hstub]
  refine ⟨fun r hr => (hkept r hr).trans (hregs r hr), ?_, hrip.trans hload⟩
  rw [hback, ← htop, ← hrsp]
  rfl

theorem invoke_jumps :
    e.invoke.rip = ι ∧ e.invoke.reg .rdi = func ∧ e.invoke.reg .rsi = arg1 ∧
      e.invoke.reg .rdx = arg2 ∧ e.invoke.reg .rcx = arg3 := by
  obtain ⟨hrip, hrdi, hrsi, hrdx, hrcx⟩ := stubInit_jumps ι e.back
  obtain ⟨hregs, -⟩ := e.back_restores
  exact ⟨hrip, hrdi.trans (hregs .rbx (by simp [calleeSaved])),
    hrsi.trans (hregs .r12 (by simp [calleeSaved])), hrdx.trans (hregs .r13 (by simp [calleeSaved])),
    hrcx.trans (hregs .r14 (by simp [calleeSaved]))⟩

theorem invoke_rsp : e.invoke.reg .rsp = T - 24 ∧ e.invoke.reg .rbp = T - 24 := by
  obtain ⟨-, hback, -⟩ := e.back_restores
  obtain ⟨hrsp, hrbp⟩ := stubInit_rsp ι e.back
  have htop : T - 8 - 16 = T - 24 := by bv_omega
  rw [hback, htop] at hrsp
  exact ⟨hrsp, hrbp.trans hrsp⟩

/-- Both the saved base pointer and the return address at `rbp` are zero. -/
theorem invoke_chain : Quads e.invoke.mem (T - 24) [0, 0] := by
  obtain ⟨hregs, hback, -⟩ := e.back_restores
  have hrbp : e.back.reg .rbp = 0 := hregs .rbp (by simp [calleeSaved])
  have htop : T - 8 - 16 = T - 24 := by bv_omega
  have hquads := stubInit_quads ι e.back
  rw [hback, htop, hrbp] at hquads
  exact hquads

/-! ### No access above the stack -/

/-- The quadword at `q` is one of the sixty-four bytes below `T`; unless these wrap around, all of it is
    at lower addresses. -/
def Below (q T : Addr) : Prop := Inside q (T - 64) 64 ∧ (64 ≤ T.toNat → q.toNat + 8 ≤ T.toNat)

theorem below_of_inside {q p : Addr} {n : ℕ} (h : Inside q p n) (hp : (p - (T - 64)).toNat + n ≤ 64) :
    Below q T := by
  have hin : Inside q (T - 64) 64 := by
    rw [Inside] at h ⊢
    bv_omega
  refine ⟨hin, fun hT => ?_⟩
  rw [Inside] at hin
  bv_omega

theorem init_below {q : Addr} (hq : q ∈ (run e.setup (stackInit σ)).accesses) :
    q ∈ e.setup.accesses ∨ q = e.setup.reg .rsp ∨ Below q T := by
  rcases stackInit_accesses σ e.setup hq with hq | hq | hq
  · exact .inl hq
  · rw [e.stack] at hq
    exact .inr (.inr (below_of_inside hq (by bv_omega)))
  · exact .inr (.inl hq)

theorem entry_below {q : Addr} (hq : q ∈ e.entry.accesses) :
    q ∈ e.call.accesses ∨ Inside q (e.call.reg .rsp - 48) 48 ∨ q = e.call.reg .rdx ∨ Below q T := by
  refine (stackSwitch_accesses e.call hq).imp_right (Or.imp_right (Or.imp_right fun hin => ?_))
  rw [e.nextSP_eq] at hin
  exact below_of_inside hin (by bv_omega)

theorem return_below : Below (e.entry.reg .rsp) T := by
  have hin : Inside (T - 16) (T - 16) 8 := by
    rw [Inside]
    bv_omega
  rw [e.entry_restores.2.1]
  exact below_of_inside hin (by bv_omega)

theorem invoke_below {q : Addr} (hq : q ∈ e.invoke.accesses) : q ∈ e.back.accesses ∨ Below q T := by
  have htop : T - 8 - 16 = T - 24 := by bv_omega
  refine (stubInit_accesses ι e.back hq).imp_right fun hin => ?_
  rw [e.back_restores.2.1, htop] at hin
  exact below_of_inside hin (by bv_omega)

/-! ### The entries -/

theorem entry_misaligned (hT : T.toNat % 16 = 0) : ¬ AlignedEntry e.entry := by
  rw [AlignedEntry, e.entry_restores.2.1]
  bv_omega

theorem invoke_aligned (hT : T.toNat % 16 = 0) : AlignedEntry e.invoke := by
  rw [AlignedEntry, e.invoke_rsp.1]
  bv_omega

/-- A new fred is entered as it should be, but for the alignment at its first entry. -/
structure Enters : Prop where
  /-- the post-switch function, with the previous fred as argument -/
  post : e.entry.rip = post ∧ e.entry.reg .rdi = prev
  /-- which returns to `stubInit` -/
  stub : e.back.rip = σ
  /-- then `invokeFred` -/
  invoke : e.invoke.rip = ι ∧ e.invoke.reg .rdi = func ∧ e.invoke.reg .rsi = arg1 ∧
    e.invoke.reg .rdx = arg2 ∧ e.invoke.reg .rcx = arg3
  /-- at the end of the chain of frames: no saved base pointer, no return address -/
  chain : e.invoke.reg .rbp = e.invoke.reg .rsp ∧ load e.invoke.mem (e.invoke.reg .rbp) = 0 ∧
    load e.invoke.mem (e.invoke.reg .rbp + 8) = 0
  /-- besides the return address of `stackInit`, the frame and the slot of the previous fred -/
  initAccesses : ∀ q ∈ (run e.setup (stackInit σ)).accesses,
    q ∈ e.setup.accesses ∨ q = e.setup.reg .rsp ∨ Below q T
  entryAccesses : ∀ q ∈ e.entry.accesses,
    q ∈ e.call.accesses ∨ Inside q (e.call.reg .rsp - 48) 48 ∨ q = e.call.reg .rdx ∨ Below q T
  returnAccess : Below (e.entry.reg .rsp) T
  invokeAccesses : ∀ q ∈ e.invoke.accesses, q ∈ e.back.accesses ∨ Below q T
  aligned : AlignedEntry e.invoke

theorem enters (hT : T.toNat % 16 = 0) : e.Enters where
  post := e.entry_jumps
  stub := e.back_restores.2.2
  invoke := e.invoke_jumps
  chain := by
    obtain ⟨hrsp, hrbp⟩ := e.invoke_rsp
    obtain ⟨hbase, hret, -⟩ := e.invoke_chain
    rw [hrsp, hrbp]
    exact ⟨rfl, hbase, hret⟩
  initAccesses _ hq := e.init_below hq
  entryAccesses _ hq := e.entry_below hq
  returnAccess := e.return_below
  invokeAccesses _ hq := e.invoke_below hq
  aligned := e.invoke_aligned hT

end Start

/-- MAIN: whatever the stack, the arguments and the post-switch function, all of the first entry is as it
    should be, except that the post-switch function is never entered with an aligned stack. -/
theorem first_entry {σ ι T func arg1 arg2 arg3 prev post : BitVec 64}
    (e : Start σ ι T func arg1 arg2 arg3 prev post) (hT : T.toNat % 16 = 0) :
    e.Enters ∧ ¬ (e.Enters ∧ AlignedEntry e.entry) :=
  ⟨e.enters hT, fun h => e.entry_misaligned hT h.2⟩

/-- The machine at a call with these arguments. -/
def calling (rdi rsi rdx rcx r8 rsp : BitVec 64) (m : Memory) : State where
  reg
    | .rdi => rdi
    | .rsi => rsi
    | .rdx => rdx
    | .rcx => rcx
    | .r8 => r8
    | .rsp => rsp
    | _ => 0
  mem := m
  rip := 0
  accesses := []

theorem idle_apart {call : State} (hrsp : call.reg .rsp = 7000) (hrdx : call.reg .rdx = 0x9010) :
    ∀ a, Within a (initStackPointer 4104 - 64) 64 →
      ¬ Within a (call.reg .rsp - 48) 48 ∧ ¬ Within a (call.reg .rdx) 8 := by
  intro a ha
  have hT : initStackPointer 4104 = 4096 := by decide
  rw [hT, Within] at ha
  rw [hrsp, hrdx, Within, Within]
  bv_omega

/-- `func(1, 2, 3)` on a stack that ends at 4104, switched to with a post-switch function that returns
    right away. -/
def startIdle : Start 0x700 0x800 (initStackPointer 4104) 0x600 1 2 3 0x9000 0x500 :=
  let setup := calling (initStackPointer 4104) 0x600 1 2 3 8008 fun _ => 0
  let init := run setup (stackInit 0x700)
  let call := calling 0x9000 0x500 0x9010 (init.reg .rax) 0 7000 init.mem
  { setup := setup
    call := call
    back := run (run call stackSwitch) [.retq]
    stack := rfl
    func := rfl
    arg1 := rfl
    arg2 := rfl
    arg3 := rfl
    currStack := rfl
    postFunc := rfl
    nextSP := rfl
    kept := fun _ _ => rfl
    apart := idle_apart rfl rfl
    returned := returned_retq _ }

theorem first_entry_idle : startIdle.Enters ∧ ¬ (startIdle.Enters ∧ AlignedEntry startIdle.entry) :=
  first_entry startIdle (initStackPointer_aligned 4104)

/-- It is entered with `rsp + 8` at 4088. -/
theorem post_misaligned : ¬ ∀ {σ ι T func arg1 arg2 arg3 prev post : BitVec 64}
    (e : Start σ ι T func arg1 arg2 arg3 prev post), T.toNat % 16 = 0 → e.Enters ∧ AlignedEntry e.entry := by
  intro h
  exact startIdle.entry_misaligned (initStackPointer_aligned 4104)
    (h startIdle (initStackPointer_aligned 4104)).2

end Libfibre.StackSwitch
