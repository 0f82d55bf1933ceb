import Libfibre.X86.Machine

/-! The routines of Stack.S on x86-64 and the two macros of StackFrame.h, instruction by instruction, and
    what each does to registers and memory. -/

namespace Libfibre.StackSwitch

open Libfibre.X86

/-- `align_down(sp, stackAlignment)` -/
def alignDown (x a : BitVec 64) : BitVec 64 := x &&& ~~~(a - 1)

def initStackPointer (sp : Addr) : Addr := alignDown sp 16

def stackPush : List Instr :=
  [.pushq .rbp,
   .movq .rsp .rbp,
   .pushq .r15,
   .pushq .r14,
   .pushq .r13,
   .pushq .r12,
   .pushq .rbx]

def stackPop : List Instr :=
  [.popq .rbx,
   .popq .r12,
   .popq .r13,
   .popq .r14,
   .popq .r15,
   .popq .rbp]

/-- stack, func, arg1, arg2, arg3 -> new stack -/
def stackInit (stubInit : Addr) : List Instr :=
  [.movqTo .rsi (-64) .rdi,
   .movqTo .rdx (-56) .rdi,
   .movqTo .rcx (-48) .rdi,
   .movqTo .r8 (-40) .rdi,
   .movqImm 0 (-32) .rdi,
   .movqImm 0 (-24) .rdi,
   .leaqSym stubInit .rax,
   .movqTo .rax (-16) .rdi,
   .leaq (-64) .rdi .rax,
   .retq]

/-- The stub that passes the arguments of `stackInit` on to `invokeFred`. -/
def stubInit (invokeFred : Addr) : List Instr :=
  [.movq .rbx .rdi,
   .movq .r12 .rsi,
   .movq .r13 .rdx,
   .movq .r14 .rcx,
   .pushq .rbp,
   .pushq .rbp,
   .movq .rsp .rbp,
   .jmp invokeFred]

/-- currStack, postFunc, &currSP, nextSP -/
def stackSwitch : List Instr :=
  stackPush ++
  [.movqTo .rsp 0 .rdx,
   .movq .rcx .rsp] ++
  stackPop ++
  [.jmpReg .rsi]

/-! ### The frame of a suspended context -/

/-- At `p` lies the frame of a context that was suspended in `c`: the registers that `STACK_POP` takes
    from there, and the return address. -/
structure Saved (m : Memory) (p : Addr) (c : State) : Prop where
  quads : Quads m p (calleeSaved.map c.reg ++ [load c.mem (c.reg .rsp)])
  rsp : c.reg .rsp = p + 48

theorem Saved.congr {m m' : Memory} {p : Addr} {c : State} (h : Saved m p c)
    (hsame : ∀ a, Within a p 56 → m' a = m a) : Saved m' p c :=
  ⟨h.quads.congr (by simp [calleeSaved]) hsame, h.rsp⟩

theorem forall_calleeSaved {P : Reg → Prop} (hbx : P .rbx) (h12 : P .r12) (h13 : P .r13) (h14 : P .r14)
    (h15 : P .r15) (hbp : P .rbp) : ∀ r ∈ calleeSaved, P r := by
  intro r hr
  simp only [calleeSaved, List.mem_cons, List.not_mem_nil, or_false] at hr
  rcases hr with rfl | rfl | rfl | rfl | rfl | rfl <;> assumption

/-! ### The macros -/

section Macros
variable (s : State)

theorem stackPush_mem :
    (run s stackPush).mem = store (store (store (store (store (store s.mem
      (s.reg .rsp - 8) (s.reg .rbp))
      (s.reg .rsp - 8 - 8) (s.reg .r15))
      (s.reg .rsp - 8 - 8 - 8) (s.reg .r14))
      (s.reg .rsp - 8 - 8 - 8 - 8) (s.reg .r13))
      (s.reg .rsp - 8 - 8 - 8 - 8 - 8) (s.reg .r12))
      (s.reg .rsp - 8 - 8 - 8 - 8 - 8 - 8) (s.reg .rbx) := rfl

/-- The callee-saved registers and the return address that was on top of the stack are a frame. -/
theorem stackPush_saved : Saved (run s stackPush).mem (s.reg .rsp - 48) s := by
  have hret : Quads s.mem (s.reg .rsp) [load s.mem (s.reg .rsp)] := ⟨rfl, trivial⟩
  have hbp := hret.push (v := s.reg .rbp) (by simp)
  have h15 := hbp.push (v := s.reg .r15) (by simp)
  have h14 := h15.push (v := s.reg .r14) (by simp)
  have h13 := h14.push (v := s.reg .r13) (by simp)
  have h12 := h13.push (v := s.reg .r12) (by simp)
  have hbx := h12.push (v := s.reg .rbx) (by simp)
  have hp : s.reg .rsp - 8 - 8 - 8 - 8 - 8 - 8 = s.reg .rsp - 48 := by bv_omega
  rw [← stackPush_mem, hp] at hbx
  exact ⟨hbx, (BitVec.sub_add_cancel _ 48).symm⟩

/-- Only the forty-eight bytes below the stack pointer are written. -/
theorem stackPush_frame {a : Addr} (ha : ¬ Within a (s.reg .rsp - 48) 48) :
    (run s stackPush).mem a = s.mem a := by
  have hout : ∀ q, 8 ≤ (s.reg .rsp - q).toNat → (s.reg .rsp - q).toNat ≤ 48 → ¬ Within a q 8 := by
    intro q hlo hhi hin
    refine ha ?_
    rw [Within] at hin ⊢
    bv_omega
  rw [stackPush_mem, store_outside (hout _ ?_ ?_), store_outside (hout _ ?_ ?_),
    store_outside (hout _ ?_ ?_), store_outside (hout _ ?_ ?_), store_outside (hout _ ?_ ?_),
    store_outside (hout _ ?_ ?_)]
  all_goals bv_omega

theorem stackPush_rsp : (run s stackPush).reg .rsp = s.reg .rsp - 8 - 8 - 8 - 8 - 8 - 8 := rfl

/-- The arguments are still in place. -/
theorem stackPush_keeps : ∀ r ∈ [Reg.rdi, .rsi, .rdx, .rcx], (run s stackPush).reg r = s.reg r := by
  intro r hr
  simp only [List.mem_cons, List.not_mem_nil, or_false] at hr
  rcases hr with rfl | rfl | rfl | rfl <;> rfl

theorem stackPop_mem : (run s stackPop).mem = s.mem := rfl

theorem stackPop_keeps : ∀ r ∈ [Reg.rdi, .rsi], (run s stackPop).reg r = s.reg r := by
  intro r hr
  simp only [List.mem_cons, List.not_mem_nil, or_false] at hr
  rcases hr with rfl | rfl <;> rfl

/-- A frame is taken off in the order in which it was put there. -/
theorem stackPop_restores {c : State} (h : Saved s.mem (s.reg .rsp) c) :
    (∀ r ∈ calleeSaved, (run s stackPop).reg r = c.reg r) ∧
      (run s stackPop).reg .rsp = c.reg .rsp ∧ load s.mem (c.reg .rsp) = load c.mem (c.reg .rsp) := by
  have hp : s.reg .rsp + 8 + 8 + 8 + 8 + 8 + 8 = s.reg .rsp + 48 := by bv_omega
  have hsp : (run s stackPop).reg .rsp = s.reg .rsp + 8 + 8 + 8 + 8 + 8 + 8 := rfl
  obtain ⟨⟨hbx, h12, h13, h14, h15, hbp, hret, -⟩, hrsp⟩ := h
  refine ⟨forall_calleeSaved hbx h12 h13 h14 h15 hbp, ?_, ?_⟩
  · rw [hsp, hp, hrsp]
  · rw [hp, ← hrsp] at hret
    exact hret

theorem stackPush_accesses {q : Addr} (hq : q ∈ (run s stackPush).accesses) :
    q ∈ s.accesses ∨ Inside q (s.reg .rsp - 48) 48 := by
  have hacc : (run s stackPush).accesses = s.accesses ++ [s.reg .rsp - 8] ++ [s.reg .rsp - 8 - 8] ++
      [s.reg .rsp - 8 - 8 - 8] ++ [s.reg .rsp - 8 - 8 - 8 - 8] ++ [s.reg .rsp - 8 - 8 - 8 - 8 - 8] ++
      [s.reg .rsp - 8 - 8 - 8 - 8 - 8 - 8] := rfl
  rw [hacc] at hq
  simp only [List.mem_append, List.mem_singleton, or_assoc] at hq
  refine hq.imp_right fun hq => ?_
  rw [Inside]
  rcases hq with rfl | rfl | rfl | rfl | rfl | rfl <;> bv_omega

theorem stackPop_accesses {q : Addr} (hq : q ∈ (run s stackPop).accesses) :
    q ∈ s.accesses ∨ Inside q (s.reg .rsp) 48 := by
  have hacc : (run s stackPop).accesses = s.accesses ++ [s.reg .rsp] ++ [s.reg .rsp + 8] ++
      [s.reg .rsp + 8 + 8] ++ [s.reg .rsp + 8 + 8 + 8] ++ [s.reg .rsp + 8 + 8 + 8 + 8] ++
      [s.reg .rsp + 8 + 8 + 8 + 8 + 8] := rfl
  rw [hacc] at hq
  simp only [List.mem_append, List.mem_singleton, or_assoc] at hq
  refine hq.imp_right fun hq => ?_
  rw [Inside]
  rcases hq with rfl | rfl | rfl | rfl | rfl | rfl <;> bv_omega

end Macros

/-! ### `stackSwitch` -/

/-- The two instructions between the macros. -/
def swapStacks : List Instr := [.movqTo .rsp 0 .rdx, .movq .rcx .rsp]

section Switch
variable (s : State)

theorem swapStacks_mem : (run s swapStacks).mem = store s.mem (s.reg .rdx + 0#64) (s.reg .rsp) := rfl

theorem swapStacks_accesses :
    (run s swapStacks).accesses = s.accesses ++ [s.reg .rdx + 0#64] := rfl

theorem swapStacks_rsp : (run s swapStacks).reg .rsp = s.reg .rcx := rfl

theorem swapStacks_keeps {r : Reg} (hr : r ≠ .rsp) : (run s swapStacks).reg r = s.reg r :=
  Function.update_of_ne hr ..

theorem stackSwitch_eq :
    run s stackSwitch =
      { run (run (run s stackPush) swapStacks) stackPop with
        rip := (run (run (run s stackPush) swapStacks) stackPop).reg .rsi } := by
  rw [stackSwitch, run_append, run_append, run_append, swapStacks, run_jmpReg]

theorem stackSwitch_mem :
    (run s stackSwitch).mem = store (run s stackPush).mem (s.reg .rdx) (s.reg .rsp - 48) := by
  have hp : s.reg .rsp - 8 - 8 - 8 - 8 - 8 - 8 = s.reg .rsp - 48 := by bv_omega
  rw [stackSwitch_eq]
  simp only [stackPop_mem]
  rw [swapStacks_mem, stackPush_rsp, hp, BitVec.add_zero, stackPush_keeps s .rdx (by simp)]

/-- Where the slot is apart from the stack, the frame is complete and the slot points to it. -/
theorem stackSwitch_saves (hslot : ∀ a, Within a (s.reg .rsp - 48) 56 → ¬ Within a (s.reg .rdx) 8) :
    Saved (run s stackSwitch).mem (s.reg .rsp - 48) s ∧
      load (run s stackSwitch).mem (s.reg .rdx) = s.reg .rsp - 48 := by
  rw [stackSwitch_mem]
  exact ⟨(stackPush_saved s).congr fun a ha => store_outside (hslot a ha), load_store⟩

/-- Nothing but the frame and the slot is written. -/
theorem stackSwitch_frame {a : Addr} (ha : ¬ Within a (s.reg .rsp - 48) 48)
    (hslot : ¬ Within a (s.reg .rdx) 8) : (run s stackSwitch).mem a = s.mem a := by
  rw [stackSwitch_mem, store_outside hslot, stackPush_frame s ha]

/-- It goes on in `postFunc`, with the switched-out fred as argument. -/
theorem stackSwitch_jumps :
    (run s stackSwitch).rip = s.reg .rsi ∧ (run s stackSwitch).reg .rdi = s.reg .rdi := by
  rw [stackSwitch_eq]
  simp only
  rw [stackPop_keeps _ .rsi (by simp), stackPop_keeps _ .rdi (by simp), swapStacks_keeps _ (by simp),
    swapStacks_keeps _ (by simp), stackPush_keeps s .rsi (by simp), stackPush_keeps s .rdi (by simp)]
  exact ⟨rfl, rfl⟩

/-- Nothing but the frame of either side and the slot is accessed. -/
theorem stackSwitch_accesses {q : Addr} (hq : q ∈ (run s stackSwitch).accesses) :
    q ∈ s.accesses ∨ Inside q (s.reg .rsp - 48) 48 ∨ q = s.reg .rdx ∨ Inside q (s.reg .rcx) 48 := by
  rw [stackSwitch_eq] at hq
  simp only at hq
  rcases stackPop_accesses _ hq with hq | hq
  · rw [swapStacks_accesses, List.mem_append, List.mem_singleton, BitVec.add_zero,
      stackPush_keeps s .rdx (by simp)] at hq
    rcases hq with hq | hq
    · exact (stackPush_accesses s hq).imp_right .inl
    · exact .inr (.inr (.inl hq))
  · rw [swapStacks_rsp, stackPush_keeps s .rcx (by simp)] at hq
    exact .inr (.inr (.inr hq))

/-- The context whose frame lies at `nextSP` is the one it goes on in. -/
theorem stackSwitch_restores {c : State} (h : Saved (run s stackSwitch).mem (s.reg .rcx) c) :
    (∀ r ∈ calleeSaved, (run s stackSwitch).reg r = c.reg r) ∧
      (run s stackSwitch).reg .rsp = c.reg .rsp ∧
      load (run s stackSwitch).mem (c.reg .rsp) = load c.mem (c.reg .rsp) := by
  rw [stackSwitch_eq] at h ⊢
  simp only [stackPop_mem] at h ⊢
  refine stackPop_restores _ ?_
  rw [swapStacks_rsp, stackPush_keeps s .rcx (by simp)]
  exact h

end Switch

/-! ### `stackInit` -/

/-- The context that `stackInit` makes up: as if suspended where `stubInit` is to be returned to. -/
def fresh (m : Memory) (stack func arg1 arg2 arg3 : BitVec 64) : State where
  reg
    | .rbx => func
    | .r12 => arg1
    | .r13 => arg2
    | .r14 => arg3
    | .rsp => stack - 16
    | _ => 0
  mem := m
  rip := 0
  accesses := []

theorem fresh_mem (m : Memory) (stack func arg1 arg2 arg3 : BitVec 64) :
    (fresh m stack func arg1 arg2 arg3).mem = m := rfl

theorem fresh_rsp (m : Memory) (stack func arg1 arg2 arg3 : BitVec 64) :
    (fresh m stack func arg1 arg2 arg3).reg .rsp = stack - 16 := rfl

theorem fresh_frame (m : Memory) (stack func arg1 arg2 arg3 : BitVec 64) :
    let c := fresh m stack func arg1 arg2 arg3
    calleeSaved.map c.reg ++ [load c.mem (c.reg .rsp)] =
      [func, arg1, arg2, arg3, 0, 0, load m (stack - 16)] := rfl

section Init
variable (σ : Addr) (s : State)

theorem stackInit_mem :
    (run s (stackInit σ)).mem = store (store (store (store (store (store (store s.mem
      (s.reg .rdi + -64) (s.reg .rsi))
      (s.reg .rdi + -56) (s.reg .rdx))
      (s.reg .rdi + -48) (s.reg .rcx))
      (s.reg .rdi + -40) (s.reg .r8))
      (s.reg .rdi + -32) 0)
      (s.reg .rdi + -24) 0)
      (s.reg .rdi + -16) σ := rfl

/-- The fifty-six bytes from the new stack pointer on are the frame of the made-up context. -/
theorem stackInit_quads : Quads (run s (stackInit σ)).mem (s.reg .rdi - 64)
    [s.reg .rsi, s.reg .rdx, s.reg .rcx, s.reg .r8, 0, 0, σ] := by
  have hnil : Quads s.mem (s.reg .rdi - 64) [] := trivial
  have h1 := hnil.concat (q := s.reg .rdi + -64) (v := s.reg .rsi) (by simp; bv_omega) (by simp)
  have h2 := h1.concat (q := s.reg .rdi + -56) (v := s.reg .rdx) (by simp; bv_omega) (by simp)
  have h3 := h2.concat (q := s.reg .rdi + -48) (v := s.reg .rcx) (by simp; bv_omega) (by simp)
  have h4 := h3.concat (q := s.reg .rdi + -40) (v := s.reg .r8) (by simp; bv_omega) (by simp)
  have h5 := h4.concat (q := s.reg .rdi + -32) (v := 0) (by simp; bv_omega) (by simp)
  have h6 := h5.concat (q := s.reg .rdi + -24) (v := 0) (by simp; bv_omega) (by simp)
  have h7 := h6.concat (q := s.reg .rdi + -16) (v := σ) (by simp; bv_omega) (by simp)
  rw [← stackInit_mem] at h7
  exact h7

theorem stackInit_stub : load (run s (stackInit σ)).mem (s.reg .rdi - 16) = σ := by
  have hp : s.reg .rdi - 64 + 8 + 8 + 8 + 8 + 8 + 8 = s.reg .rdi - 16 := by bv_omega
  obtain ⟨-, -, -, -, -, -, hσ, -⟩ := stackInit_quads σ s
  rw [hp] at hσ
  exact hσ

theorem stackInit_rax : (run s (stackInit σ)).reg .rax = s.reg .rdi - 64 := by
  have hneg : s.reg .rdi + -64 = s.reg .rdi - 64 := by bv_omega
  have hrax : (run s (stackInit σ)).reg .rax = s.reg .rdi + -64 := rfl
  exact hrax.trans hneg

/-- What is returned points to a frame of the made-up context. -/
theorem stackInit_saves : Saved (run s (stackInit σ)).mem (s.reg .rdi - 64)
    (fresh (run s (stackInit σ)).mem (s.reg .rdi) (s.reg .rsi) (s.reg .rdx) (s.reg .rcx) (s.reg .r8)) := by
  have htop : s.reg .rdi - 16 = s.reg .rdi - 64 + 48 := by bv_omega
  refine ⟨?_, htop⟩
  rw [fresh_frame, stackInit_stub]
  exact stackInit_quads σ s

theorem stackInit_frame {a : Addr} (ha : ¬ Within a (s.reg .rdi - 64) 56) :
    (run s (stackInit σ)).mem a = s.mem a := by
  have hout : ∀ q, 16 ≤ (s.reg .rdi - q).toNat → (s.reg .rdi - q).toNat ≤ 64 → ¬ Within a q 8 := by
    intro q hlo hhi hin
    refine ha ?_
    rw [Within] at hin ⊢
    bv_omega
  rw [stackInit_mem, store_outside (hout _ ?_ ?_), store_outside (hout _ ?_ ?_),
    store_outside (hout _ ?_ ?_), store_outside (hout _ ?_ ?_), store_outside (hout _ ?_ ?_),
    store_outside (hout _ ?_ ?_), store_outside (hout _ ?_ ?_)]
  all_goals bv_omega

/-- Besides its own return address, only the sixty-four bytes below `stack` are accessed. -/
theorem stackInit_accesses {q : Addr} (hq : q ∈ (run s (stackInit σ)).accesses) :
    q ∈ s.accesses ∨ Inside q (s.reg .rdi - 64) 64 ∨ q = s.reg .rsp := by
  have hacc : (run s (stackInit σ)).accesses = s.accesses ++ [s.reg .rdi + -64] ++ [s.reg .rdi + -56] ++
      [s.reg .rdi + -48] ++ [s.reg .rdi + -40] ++ [s.reg .rdi + -32] ++ [s.reg .rdi + -24] ++
      [s.reg .rdi + -16] ++ [s.reg .rsp] := rfl
  rw [hacc, List.mem_append, List.mem_singleton] at hq
  rcases hq with hq | hq
  · simp only [List.mem_append, List.mem_singleton, or_assoc] at hq
    refine hq.imp_right fun hq => .inl ?_
    rw [Inside]
    rcases hq with rfl | rfl | rfl | rfl | rfl | rfl | rfl <;> bv_omega
  · exact .inr (.inr hq)

/-- Where the stack of the caller is apart, it returns to it. -/
theorem stackInit_returns (hapart : ∀ a, Within a (s.reg .rsp) 8 → ¬ Within a (s.reg .rdi - 64) 56) :
    Returned s (run s (stackInit σ)) := by
  refine ⟨forall_calleeSaved rfl rfl rfl rfl rfl rfl, rfl, ?_⟩
  have hrip : (run s (stackInit σ)).rip = load (run s (stackInit σ)).mem (s.reg .rsp) := rfl
  rw [hrip]
  exact load_congr fun a ha => stackInit_frame σ s (hapart a ha)

end Init

/-! ### `stubInit` -/

section Stub
variable (ι : Addr) (s : State)

/-- `invokeFred` is entered with the four callee-saved registers as its arguments. -/
theorem stubInit_jumps :
    (run s (stubInit ι)).rip = ι ∧ (run s (stubInit ι)).reg .rdi = s.reg .rbx ∧
      (run s (stubInit ι)).reg .rsi = s.reg .r12 ∧ (run s (stubInit ι)).reg .rdx = s.reg .r13 ∧
      (run s (stubInit ι)).reg .rcx = s.reg .r14 := ⟨rfl, rfl, rfl, rfl, rfl⟩

theorem stubInit_rsp :
    (run s (stubInit ι)).reg .rsp = s.reg .rsp - 16 ∧
      (run s (stubInit ι)).reg .rbp = (run s (stubInit ι)).reg .rsp := by
  have hp : s.reg .rsp - 8 - 8 = s.reg .rsp - 16 := by bv_omega
  have hsp : (run s (stubInit ι)).reg .rsp = s.reg .rsp - 8 - 8 := rfl
  exact ⟨hsp.trans hp, rfl⟩

/-- Two quadwords of `rbp` are pushed. -/
theorem stubInit_quads : Quads (run s (stubInit ι)).mem (s.reg .rsp - 16) [s.reg .rbp, s.reg .rbp] := by
  have hnil : Quads s.mem (s.reg .rsp) [] := trivial
  have hq := (hnil.push (v := s.reg .rbp) (by simp)).push (v := s.reg .rbp) (by simp)
  have hp : s.reg .rsp - 8 - 8 = s.reg .rsp - 16 := by bv_omega
  rw [hp] at hq
  have hmem : (run s (stubInit ι)).mem =
      store (store s.mem (s.reg .rsp - 8) (s.reg .rbp)) (s.reg .rsp - 8 - 8) (s.reg .rbp) := rfl
  rw [hmem, hp]
  exact hq

theorem stubInit_accesses {q : Addr} (hq : q ∈ (run s (stubInit ι)).accesses) :
    q ∈ s.accesses ∨ Inside q (s.reg .rsp - 16) 16 := by
  have hacc : (run s (stubInit ι)).accesses =
      s.accesses ++ [s.reg .rsp - 8] ++ [s.reg .rsp - 8 - 8] := rfl
  rw [hacc] at hq
  simp only [List.mem_append, List.mem_singleton, or_assoc] at hq
  refine hq.imp_right fun hq => ?_
  rw [Inside]
  rcases hq with rfl | rfl <;> bv_omega

end Stub

-- from here on the routines are known by what they do
attribute [irreducible] stackInit stubInit stackSwitch

end Libfibre.StackSwitch
