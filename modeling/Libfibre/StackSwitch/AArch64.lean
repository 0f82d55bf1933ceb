import Libfibre.AArch64.Machine

/-! The routines of Stack.S on AArch64 and the two macros of StackFrame.h, instruction by instruction. The
    caller of `stackSwitch` sees an ordinary function: it is returned to with everything in place that the
    procedure call standard promises, once a later `stackSwitch` goes on with its stack pointer. -/

namespace Libfibre.StackSwitch.AArch64
open Libfibre.AArch64
open X86 (Addr Memory load store Within Inside Quads store_outside load_store load_congr)

def stackPush : List Instr :=
  [.stpPre (some (.x 29)) (some (.x 30)) .sp (-160),
   .mov (.x 29) .sp,
   .stp (some (.x 27)) (some (.x 28)) .sp 16,
   .stp (some (.x 25)) (some (.x 26)) .sp 32,
   .stp (some (.x 23)) (some (.x 24)) .sp 48,
   .stp (some (.x 21)) (some (.x 22)) .sp 64,
   .stp (some (.x 19)) (some (.x 20)) .sp 80,
   .stp (some (.d 8)) (some (.d 9)) .sp 96,
   .stp (some (.d 10)) (some (.d 11)) .sp 112,
   .stp (some (.d 12)) (some (.d 13)) .sp 128,
   .stp (some (.d 14)) (some (.d 15)) .sp 144]

def stackPop : List Instr :=
  [.ldp (.d 14) (.d 15) .sp 144,
   .ldp (.d 12) (.d 13) .sp 128,
   .ldp (.d 10) (.d 11) .sp 112,
   .ldp (.d 8) (.d 9) .sp 96,
   .ldp (.x 19) (.x 20) .sp 80,
   .ldp (.x 21) (.x 22) .sp 64,
   .ldp (.x 23) (.x 24) .sp 48,
   .ldp (.x 25) (.x 26) .sp 32,
   .ldp (.x 27) (.x 28) .sp 16,
   .ldpPost (.x 29) (.x 30) .sp 160]

/-- stack, func, arg1, arg2, arg3 -> new stack -/
def stackInit (stubInit : Addr) : List Instr :=
  [.ldrSym (.x 9) stubInit,
   .stpPre none (some (.x 9)) (.x 0) (-160),
   .stp none none (.x 0) 16,
   .stp none none (.x 0) 32,
   .stp none none (.x 0) 48,
   .stp (some (.x 3)) (some (.x 4)) (.x 0) 64,
   .stp (some (.x 1)) (some (.x 2)) (.x 0) 80,
   .stp none none (.x 0) 96,
   .stp none none (.x 0) 112,
   .stp none none (.x 0) 128,
   .stp none none (.x 0) 144,
   .ret]

/-- The stub that passes the arguments of `stackInit` on to `invokeFred`. -/
def stubInit (invokeFred : Addr) : List Instr :=
  [.mov (.x 0) (.x 19),
   .mov (.x 1) (.x 20),
   .mov (.x 2) (.x 21),
   .mov (.x 3) (.x 22),
   .stpPre none none .sp (-16),
   .mov (.x 29) .sp,
   .b invokeFred]

/-- currStack, postFunc, &currSP, nextSP -/
def stackSwitch : List Instr :=
  stackPush ++
  [.mov (.x 9) .sp,
   .str (.x 9) (.x 2),
   .mov .sp (.x 3)] ++
  stackPop ++
  [.br (.x 1)]

/-- stack pointer, func, arg1, arg2, arg3 -/
def stackDirect : List Instr :=
  [.mov .sp (.x 0),
   .mov (.x 9) (.x 1),
   .mov (.x 0) (.x 2),
   .mov (.x 1) (.x 3),
   .mov (.x 2) (.x 4),
   .stpPre none none .sp (-16),
   .mov (.x 29) .sp,
   .br (.x 9)]

/-! ### The frame of a suspended context -/

/-- The registers of a frame, in the order of their addresses. -/
def frame : List Reg :=
  [.x 29, .x 30, .x 27, .x 28, .x 25, .x 26, .x 23, .x 24, .x 21, .x 22, .x 19, .x 20,
   .d 8, .d 9, .d 10, .d 11, .d 12, .d 13, .d 14, .d 15]

/-- At `p` lies the frame of a context that was suspended in `c`. -/
structure Saved (m : Memory) (p : Addr) (c : State) : Prop where
  quads : Quads m p (frame.map c.reg)
  sp : c.reg .sp = p + 160

theorem Saved.congr {m m' : Memory} {p : Addr} {c : State} (h : Saved m p c)
    (hsame : ∀ a, Within a p 160 → m' a = m a) : Saved m' p c :=
  ⟨h.quads.congr (by simp [frame]) hsame, h.sp⟩

/-- The pairs of a frame above the first. -/
def rest : List (Option Reg × Option Reg) :=
  [(some (.x 27), some (.x 28)), (some (.x 25), some (.x 26)), (some (.x 23), some (.x 24)),
   (some (.x 21), some (.x 22)), (some (.x 19), some (.x 20)), (some (.d 8), some (.d 9)),
   (some (.d 10), some (.d 11)), (some (.d 12), some (.d 13)), (some (.d 14), some (.d 15))]

theorem below_eq (p : Addr) : p + -160 = p - 160 := by bv_omega

section Macros
variable (s : State)

/-- After the first two instructions of `STACK_PUSH`. -/
def opened : State := run s [.stpPre (some (.x 29)) (some (.x 30)) .sp (-160), .mov (.x 29) .sp]

theorem stackPush_eq : run s stackPush = run (opened s) (stps .sp 16 rest) := by
  have hpush : stackPush =
      [.stpPre (some (.x 29)) (some (.x 30)) .sp (-160), .mov (.x 29) .sp] ++ stps .sp 16 rest := by
    simp [stackPush, stps, rest]
  rw [hpush, run_append, ← opened]

theorem opened_sp : (opened s).reg .sp = s.reg .sp - 160 := by
  rw [← below_eq]
  rfl

theorem opened_keeps {r : Reg} (hsp : r ≠ .sp) (hfp : r ≠ .x 29) : (opened s).reg r = s.reg r := by
  rw [opened, run_cons, run_cons]
  change (exec (exec s _) (.mov (.x 29) .sp)).reg r = s.reg r
  rw [mov_reg, Function.update_of_ne hfp, stpPre_reg, Function.update_of_ne hsp]

theorem opened_mem : (opened s).mem =
    store (store s.mem (s.reg .sp - 160) (s.reg (.x 29))) (s.reg .sp - 160 + 8) (s.reg (.x 30)) := by
  rw [← below_eq]
  rfl

/-- The registers of the frame lie in it. -/
theorem stackPush_saved : Saved (run s stackPush).mem (s.reg .sp - 160) s := by
  have hnil : Quads s.mem (s.reg .sp - 160) [] := trivial
  have hfp : Quads (store s.mem (s.reg .sp - 160) (s.reg (.x 29))) (s.reg .sp - 160) [s.reg (.x 29)] :=
    hnil.concat (BitVec.add_zero _).symm (by simp)
  have hlr := hfp.concat (q := s.reg .sp - 160 + 8) (v := s.reg (.x 30)) rfl (by simp)
  rw [← opened_mem] at hlr
  have hquads := @stps_quads .sp rest 16 (opened s) (s.reg .sp - 160) _ hlr (by
    rw [opened_sp]
    rfl) (by simp [rest])
  have hvals : (flat rest).map (opened s).val = (flat rest).map s.val := by
    refine List.map_congr_left fun r hr => ?_
    cases r with
    | none => rfl
    | some r =>
      refine opened_keeps s ?_ ?_ <;> (rintro rfl; revert hr; decide)
  rw [hvals, ← stackPush_eq] at hquads
  exact ⟨hquads, by bv_omega⟩

/-- Only the hundred and sixty bytes below the stack pointer are written. -/
theorem stackPush_frame {a : Addr} (ha : ¬ Within a (s.reg .sp - 160) 160) :
    (run s stackPush).mem a = s.mem a := by
  rw [stackPush_eq, stps_frame rest 16 (opened s) _ (by simp [rest]), opened_mem,
    store_outside, store_outside]
  · rw [Within] at ha ⊢
    bv_omega
  · rw [Within] at ha ⊢
    bv_omega
  · rw [opened_sp]
    simp only [rest, List.length_cons, List.length_nil]
    rw [Within] at ha ⊢
    bv_omega

theorem stackPush_sp : (run s stackPush).reg .sp = s.reg .sp - 160 := by
  rw [stackPush_eq, (stps_reg rest 16 (opened s)).1, opened_sp]

/-- The arguments are still in place. -/
theorem stackPush_keeps {r : Reg} (hsp : r ≠ .sp) (hfp : r ≠ .x 29) : (run s stackPush).reg r = s.reg r := by
  rw [stackPush_eq, (stps_reg rest 16 (opened s)).1, opened_keeps s hsp hfp]

theorem stackPush_accesses :
    (∀ q ∈ (run s stackPush).accesses, q ∈ s.accesses ∨ Inside q (s.reg .sp - 160) 160) ∧
    (Aligned s → (run s stackPush).aligned = s.aligned) := by
  obtain ⟨hacc, hal⟩ := @stps_accesses .sp rest 16 (opened s) (by simp [rest])
  rw [stackPush_eq]
  refine ⟨fun q hq => ?_, fun hs => ?_⟩
  · obtain hq | hq := hacc q hq
    · have hq' : q ∈ s.accesses ++ [s.reg .sp + -160, s.reg .sp + -160 + 8] := hq
      rw [List.mem_append, List.mem_cons, List.mem_singleton] at hq'
      refine hq'.imp_right fun hq' => ?_
      rw [Inside]
      rcases hq' with rfl | rfl <;> bv_omega
    · rw [opened_sp, Inside] at hq
      simp only [rest, List.length_cons, List.length_nil] at hq
      refine .inr ?_
      rw [Inside]
      bv_omega
  · rw [Aligned] at hs
    refine (hal ?_).trans (touch_aligned (s.reg .sp + -160) (.inr hs))
    rw [opened_sp]
    exact .inr (by bv_omega)

/-- The pairs that `STACK_POP` loads before the last. -/
def pops : List (BitVec 64 × Reg × Reg) :=
  [(144, .d 14, .d 15), (128, .d 12, .d 13), (112, .d 10, .d 11), (96, .d 8, .d 9), (80, .x 19, .x 20),
   (64, .x 21, .x 22), (48, .x 23, .x 24), (32, .x 25, .x 26), (16, .x 27, .x 28)]

/-- Each pair is where it is in the frame. -/
theorem pops_frame : ∀ t ∈ pops, t.1 = BitVec.ofNat 64 (8 * (t.1.toNat / 8)) ∧
    frame[t.1.toNat / 8]? = some t.2.1 ∧ frame[t.1.toNat / 8 + 1]? = some t.2.2 := by
  decide

/-- Before the last instruction of `STACK_POP`. -/
def emptied : State := run s (ldps .sp pops)

theorem stackPop_eq : run s stackPop = exec (emptied s) (.ldpPost (.x 29) (.x 30) .sp 160) := by
  have hpop : stackPop = ldps .sp pops ++ [.ldpPost (.x 29) (.x 30) .sp 160] := by
    simp [stackPop, ldps, pops]
  rw [hpop, run_append, ← emptied, run_cons]
  rfl

theorem emptied_keeps {r : Reg} (hr : r ∉ loaded pops) : (emptied s).reg r = s.reg r :=
  (ldps_keeps pops s).1 r hr

theorem emptied_mem : (emptied s).mem = s.mem := (ldps_keeps pops s).2

theorem stackPop_mem : (run s stackPop).mem = s.mem := by
  rw [stackPop_eq]
  exact emptied_mem s

/-- The arguments are still in place. -/
theorem stackPop_keeps {r : Reg} (hr : r ∉ .sp :: frame) : (run s stackPop).reg r = s.reg r := by
  have hne : r ≠ .sp ∧ r ≠ .x 29 ∧ r ≠ .x 30 := by
    refine ⟨?_, ?_, ?_⟩ <;> (rintro rfl; exact hr (by decide))
  obtain ⟨hsp, hfp, hlr⟩ := hne
  rw [stackPop_eq, ldpPost_reg, Function.update_of_ne hsp, Function.update_of_ne hlr,
    Function.update_of_ne hfp]
  refine emptied_keeps s fun hin => hr ?_
  have hsub : ∀ q ∈ loaded pops, q ∈ Reg.sp :: frame := by decide
  exact hsub r hin

/-- What lies at a place of the frame. -/
theorem Saved.get {m : Memory} {p : Addr} {c : State} (h : Saved m p c) {i : ℕ} {r : Reg}
    (hi : frame[i]? = some r) : load m (p + BitVec.ofNat 64 (8 * i)) = c.reg r := by
  refine quads_get h.quads ?_
  rw [List.getElem?_map, hi]
  rfl

/-- A frame is taken off as it was put there. -/
theorem stackPop_restores {c : State} (h : Saved s.mem (s.reg .sp) c) :
    (∀ r ∈ frame, (run s stackPop).reg r = c.reg r) ∧ (run s stackPop).reg .sp = c.reg .sp := by
  have hsp : (emptied s).reg .sp = s.reg .sp := emptied_keeps s (by decide)
  have hfp : load s.mem (s.reg .sp) = c.reg (.x 29) := by
    have hget := h.get (i := 0) rfl
    rwa [Nat.mul_zero, BitVec.add_zero] at hget
  have hlr : load s.mem (s.reg .sp + 8) = c.reg (.x 30) := h.get (i := 1) rfl
  have hothers : ∀ r ∈ loaded pops, (emptied s).reg r = c.reg r := by
    intro r hr
    obtain ⟨⟨off, r1, r2⟩, ht, hr⟩ := List.mem_flatMap.mp hr
    obtain ⟨hoff, h1, h2⟩ : off = BitVec.ofNat 64 (8 * (off.toNat / 8)) ∧ frame[off.toNat / 8]? = some r1 ∧
        frame[off.toNat / 8 + 1]? = some r2 := pops_frame _ ht
    obtain ⟨hr1, hr2⟩ := @ldps_loads .sp pops s (by decide) (by decide) off r1 r2 ht
    rcases List.mem_cons.mp hr with rfl | hr
    · rw [emptied, hr1, ← h.get h1, ← hoff]
    · obtain rfl := List.mem_singleton.mp hr
      have hnext : s.reg .sp + off + 8 = s.reg .sp + BitVec.ofNat 64 (8 * (off.toNat / 8 + 1)) := by
        have hk : off.toNat % 8 = 0 := by
          have hmod : ∀ t ∈ pops, t.1.toNat % 8 = 0 := by decide
          exact hmod _ ht
        bv_omega
      rw [emptied, hr2, hnext, h.get h2]
  rw [stackPop_eq, ldpPost_reg, hsp, emptied_mem, hfp, hlr]
  constructor
  · intro r hr
    have hcases : ∀ q ∈ frame, q = .x 29 ∨ q = .x 30 ∨ q ≠ .x 29 ∧ q ≠ .x 30 ∧ q ≠ .sp ∧ q ∈ loaded pops := by
      decide
    have hneither : ∀ q ∈ frame, q ≠ .sp := by decide
    rw [Function.update_of_ne (hneither r hr)]
    obtain rfl | rfl | ⟨h29, h30, -, hin⟩ := hcases r hr
    · rw [Function.update_of_ne (by decide), Function.update_self]
    · rw [Function.update_self]
    · rw [Function.update_of_ne h30, Function.update_of_ne h29, hothers r hin]
  · rw [Function.update_self, h.sp]

theorem stackPop_accesses :
    (∀ q ∈ (run s stackPop).accesses, q ∈ s.accesses ∨ Inside q (s.reg .sp) 160) ∧
    (Aligned s → (run s stackPop).aligned = s.aligned) := by
  obtain ⟨hacc, hal⟩ := @ldps_accesses .sp pops s (by decide)
  have hsp : (emptied s).reg .sp = s.reg .sp := emptied_keeps s (by decide)
  rw [stackPop_eq]
  refine ⟨fun q hq => ?_, fun hs => ?_⟩
  · have hq' : q ∈ (emptied s).accesses ++ [(emptied s).reg .sp, (emptied s).reg .sp + 8] := hq
    rw [List.mem_append, List.mem_cons, List.mem_singleton, hsp] at hq'
    obtain hq' | hq' := hq'
    · refine (hacc q hq').imp_right ?_
      rintro ⟨t, ht, hq'⟩
      have hoff : ∀ t ∈ pops, t.1.toNat + 16 ≤ 160 := by decide
      have hoff := hoff t ht
      rw [Inside]
      rcases hq' with rfl | rfl <;> bv_omega
    · refine .inr ?_
      rw [Inside]
      rcases hq' with rfl | rfl <;> bv_omega
  · refine Eq.trans (touch_aligned ((emptied s).reg .sp) (.inr ?_)) (hal (.inr hs))
    rw [hsp]
    exact hs

end Macros

/-! ### `stackSwitch` -/

/-- The three instructions between the macros. -/
def swapStacks : List Instr := [.mov (.x 9) .sp, .str (.x 9) (.x 2), .mov .sp (.x 3)]

section Switch
variable (s : State)

theorem swapStacks_sp : (run s swapStacks).reg .sp = s.reg (.x 3) := rfl

theorem swapStacks_mem : (run s swapStacks).mem = store s.mem (s.reg (.x 2)) (s.reg .sp) := rfl

theorem swapStacks_accesses : (run s swapStacks).accesses = s.accesses ++ [s.reg (.x 2)] := rfl

theorem swapStacks_aligned : (run s swapStacks).aligned = s.aligned := by
  change (s.aligned && (decide (Reg.x 2 ≠ .sp) || _)) = s.aligned
  rw [decide_eq_true (by decide), Bool.true_or, Bool.and_true]

theorem swapStacks_keeps {r : Reg} (hsp : r ≠ .sp) (h9 : r ≠ .x 9) : (run s swapStacks).reg r = s.reg r := by
  have hlast : (run s swapStacks).reg = Function.update (Function.update s.reg (.x 9) (s.reg .sp)) .sp
      (s.reg (.x 3)) := rfl
  rw [hlast, Function.update_of_ne hsp, Function.update_of_ne h9]

theorem stackSwitch_eq :
    run s stackSwitch =
      { run (run (run s stackPush) swapStacks) stackPop with
        pc := (run (run (run s stackPush) swapStacks) stackPop).reg (.x 1) } := by
  rw [stackSwitch, run_append, run_append, run_append, ← swapStacks]
  rfl

theorem stackSwitch_mem :
    (run s stackSwitch).mem = store (run s stackPush).mem (s.reg (.x 2)) (s.reg .sp - 160) := by
  rw [stackSwitch_eq]
  simp only [stackPop_mem]
  rw [swapStacks_mem, stackPush_sp, stackPush_keeps s (by decide) (by decide)]

/-- Where the slot is apart from the stack, the frame is complete and the slot points to it. -/
theorem stackSwitch_saves (hslot : ∀ a, Within a (s.reg .sp - 160) 160 → ¬ Within a (s.reg (.x 2)) 8) :
    Saved (run s stackSwitch).mem (s.reg .sp - 160) s ∧
      load (run s stackSwitch).mem (s.reg (.x 2)) = s.reg .sp - 160 := by
  rw [stackSwitch_mem]
  exact ⟨(stackPush_saved s).congr fun a ha => store_outside (hslot a ha), load_store⟩

/-- Nothing but the frame and the slot is written. -/
theorem stackSwitch_frame {a : Addr} (ha : ¬ Within a (s.reg .sp - 160) 160)
    (hslot : ¬ Within a (s.reg (.x 2)) 8) : (run s stackSwitch).mem a = s.mem a := by
  rw [stackSwitch_mem, store_outside hslot, stackPush_frame s ha]

/-- It goes on in `postFunc`, with the switched-out fred as argument. -/
theorem stackSwitch_jumps :
    (run s stackSwitch).pc = s.reg (.x 1) ∧ (run s stackSwitch).reg (.x 0) = s.reg (.x 0) := by
  rw [stackSwitch_eq]
  simp only
  rw [stackPop_keeps _ (by decide), stackPop_keeps _ (by decide), swapStacks_keeps _ (by decide) (by decide),
    swapStacks_keeps _ (by decide) (by decide), stackPush_keeps s (by decide) (by decide),
    stackPush_keeps s (by decide) (by decide)]
  exact ⟨rfl, rfl⟩

/-- Nothing but the frame of either side and the slot is accessed. -/
theorem stackSwitch_accesses {q : Addr} (hq : q ∈ (run s stackSwitch).accesses) :
    q ∈ s.accesses ∨ Inside q (s.reg .sp - 160) 160 ∨ q = s.reg (.x 2) ∨ Inside q (s.reg (.x 3)) 160 := by
  rw [stackSwitch_eq] at hq
  simp only at hq
  rcases (stackPop_accesses _).1 q hq with hq | hq
  · rw [swapStacks_accesses, List.mem_append, List.mem_singleton,
      stackPush_keeps s (by decide) (by decide)] at hq
    rcases hq with hq | hq
    · exact ((stackPush_accesses s).1 q hq).imp_right .inl
    · exact .inr (.inr (.inl hq))
  · rw [swapStacks_sp, stackPush_keeps s (by decide) (by decide)] at hq
    exact .inr (.inr (.inr hq))

/-- From one aligned stack to another. -/
theorem stackSwitch_aligned (hs : Aligned s) (hnext : (s.reg (.x 3)).toNat % 16 = 0) :
    (run s stackSwitch).aligned = s.aligned := by
  have hswap : Aligned (run (run s stackPush) swapStacks) := by
    rw [Aligned, swapStacks_sp, stackPush_keeps s (by decide) (by decide)]
    exact hnext
  rw [stackSwitch_eq]
  simp only
  rw [(stackPop_accesses _).2 hswap, swapStacks_aligned, (stackPush_accesses s).2 hs]

/-- The context whose frame lies at `nextSP` is the one it goes on in. -/
theorem stackSwitch_restores {c : State} (h : Saved (run s stackSwitch).mem (s.reg (.x 3)) c) :
    (∀ r ∈ frame, (run s stackSwitch).reg r = c.reg r) ∧ (run s stackSwitch).reg .sp = c.reg .sp := by
  rw [stackSwitch_eq] at h ⊢
  simp only [stackPop_mem] at h ⊢
  refine stackPop_restores _ ?_
  rw [swapStacks_sp, stackPush_keeps s (by decide) (by decide)]
  exact h

end Switch

/-! ### `stackInit` -/

/-- The context that `stackInit` makes up: as if suspended where `stubInit` is to be returned to. -/
def fresh (m : Memory) (σ stack func arg1 arg2 arg3 : BitVec 64) : State where
  reg
    | .x 30 => σ
    | .x 19 => func
    | .x 20 => arg1
    | .x 21 => arg2
    | .x 22 => arg3
    | .sp => stack
    | _ => 0
  mem := m
  pc := 0
  accesses := []
  aligned := true

/-- The operands above the first pair. -/
def inits : List (Option Reg × Option Reg) :=
  [(none, none), (none, none), (none, none), (some (.x 3), some (.x 4)), (some (.x 1), some (.x 2)),
   (none, none), (none, none), (none, none), (none, none)]

section Init
variable (σ : Addr) (s : State)

/-- After the first two instructions of `stackInit`. -/
def begun : State := run s [.ldrSym (.x 9) σ, .stpPre none (some (.x 9)) (.x 0) (-160)]

theorem stackInit_eq :
    run s (stackInit σ) =
      { run (begun σ s) (stps (.x 0) 16 inits) with
        pc := (run (begun σ s) (stps (.x 0) 16 inits)).reg (.x 30) } := by
  have hinit : stackInit σ = [.ldrSym (.x 9) σ, .stpPre none (some (.x 9)) (.x 0) (-160)] ++
      stps (.x 0) 16 inits ++ [.ret] := by
    simp [stackInit, stps, inits]
  rw [hinit, run_append, run_append, ← begun]
  rfl

theorem begun_top : (begun σ s).reg (.x 0) = s.reg (.x 0) - 160 := by
  rw [← below_eq]
  rfl

theorem begun_keeps {r : Reg} (h0 : r ≠ .x 0) (h9 : r ≠ .x 9) : (begun σ s).reg r = s.reg r := by
  have hreg : (begun σ s).reg =
      Function.update (Function.update s.reg (.x 9) σ) (.x 0) (s.reg (.x 0) + -160) := rfl
  rw [hreg, Function.update_of_ne h0, Function.update_of_ne h9]

theorem begun_mem : (begun σ s).mem =
    store (store s.mem (s.reg (.x 0) - 160) 0) (s.reg (.x 0) - 160 + 8) σ := by
  rw [← below_eq]
  rfl

theorem inits_vals : (flat inits).map (begun σ s).val =
    [0, 0, 0, 0, 0, 0, s.reg (.x 3), s.reg (.x 4), s.reg (.x 1), s.reg (.x 2), 0, 0, 0, 0, 0, 0, 0, 0] := rfl

/-- What is returned points to a frame of the made-up context. -/
theorem stackInit_saves (m : Memory) : Saved (run s (stackInit σ)).mem (s.reg (.x 0) - 160)
    (fresh m σ (s.reg (.x 0)) (s.reg (.x 1)) (s.reg (.x 2)) (s.reg (.x 3)) (s.reg (.x 4))) := by
  have hnil : Quads s.mem (s.reg (.x 0) - 160) [] := trivial
  have hfp : Quads (store s.mem (s.reg (.x 0) - 160) 0) (s.reg (.x 0) - 160) [0] :=
    hnil.concat (BitVec.add_zero _).symm (by simp)
  have hlr := hfp.concat (q := s.reg (.x 0) - 160 + 8) (v := σ) rfl (by simp)
  rw [← begun_mem] at hlr
  have hquads := @stps_quads (.x 0) inits 16 (begun σ s) (s.reg (.x 0) - 160) _ hlr (by
    rw [begun_top]
    rfl) (by simp [inits])
  rw [inits_vals] at hquads
  rw [stackInit_eq]
  exact ⟨hquads, by change s.reg (.x 0) = _; bv_omega⟩

/-- Only the hundred and sixty bytes below the top are written. -/
theorem stackInit_frame {a : Addr} (ha : ¬ Within a (s.reg (.x 0) - 160) 160) :
    (run s (stackInit σ)).mem a = s.mem a := by
  rw [stackInit_eq]
  simp only
  rw [stps_frame inits 16 (begun σ s) _ (by simp [inits]), begun_mem, store_outside, store_outside]
  · rw [Within] at ha ⊢
    bv_omega
  · rw [Within] at ha ⊢
    bv_omega
  · rw [begun_top]
    simp only [inits, List.length_cons, List.length_nil]
    rw [Within] at ha ⊢
    bv_omega

/-- It returns the new stack pointer, as an ordinary function. -/
theorem stackInit_returns :
    Returned s (run s (stackInit σ)) ∧ (run s (stackInit σ)).reg (.x 0) = s.reg (.x 0) - 160 ∧
      (run s (stackInit σ)).aligned = s.aligned := by
  have hregs := (@stps_reg (.x 0) inits 16 (begun σ s)).1
  have hne : ∀ r ∈ calleeSaved, r ≠ .x 0 ∧ r ≠ .x 9 := by decide
  have hal := (@stps_accesses (.x 0) inits 16 (begun σ s) (by simp [inits])).2 (.inl (by decide))
  rw [stackInit_eq]
  refine ⟨⟨fun r hr => ?_, ?_, ?_⟩, ?_,
    hal.trans (touch_aligned (s.reg (.x 0) + -160) (.inl (by decide)))⟩ <;> simp only [hregs]
  · exact begun_keeps σ s (hne r hr).1 (hne r hr).2
  · exact begun_keeps σ s (by decide) (by decide)
  · exact begun_keeps σ s (by decide) (by decide)
  · exact begun_top σ s

end Init

/-! ### `stubInit` -/

section Stub
variable (ι : Addr) (s : State)

/-- `invokeFred` is entered with the arguments in place. -/
theorem stubInit_jumps :
    (run s (stubInit ι)).pc = ι ∧ (run s (stubInit ι)).reg (.x 0) = s.reg (.x 19) ∧
      (run s (stubInit ι)).reg (.x 1) = s.reg (.x 20) ∧ (run s (stubInit ι)).reg (.x 2) = s.reg (.x 21) ∧
      (run s (stubInit ι)).reg (.x 3) = s.reg (.x 22) :=
  ⟨rfl, rfl, rfl, rfl, rfl⟩

theorem stubInit_mem :
    (run s (stubInit ι)).mem = store (store s.mem (s.reg .sp - 16) 0) (s.reg .sp - 16 + 8) 0 := by
  have hneg : s.reg .sp - 16 = s.reg .sp + -16 := by bv_omega
  rw [hneg]
  rfl

theorem stubInit_sp :
    (run s (stubInit ι)).reg .sp = s.reg .sp - 16 ∧ (run s (stubInit ι)).reg (.x 29) = s.reg .sp - 16 := by
  have hneg : s.reg .sp - 16 = s.reg .sp + -16 := by bv_omega
  rw [hneg]
  exact ⟨rfl, rfl⟩

/-- The chain of frames ends there. -/
theorem stubInit_chain : Quads (run s (stubInit ι)).mem (s.reg .sp - 16) [0, 0] := by
  have hnil : Quads s.mem (s.reg .sp - 16) [] := trivial
  have hfp : Quads (store s.mem (s.reg .sp - 16) 0) (s.reg .sp - 16) [0] :=
    hnil.concat (BitVec.add_zero _).symm (by simp)
  have hlr := hfp.concat (q := s.reg .sp - 16 + 8) (v := 0) rfl (by simp)
  rw [stubInit_mem]
  exact hlr

/-- `stackDirect` enters `func` in the same way, on the stack given. -/
theorem stackDirect_enters :
    (run s stackDirect).pc = s.reg (.x 1) ∧ (run s stackDirect).reg (.x 0) = s.reg (.x 2) ∧
      (run s stackDirect).reg (.x 1) = s.reg (.x 3) ∧ (run s stackDirect).reg (.x 2) = s.reg (.x 4) ∧
      Quads (run s stackDirect).mem (s.reg (.x 0) - 16) [0, 0] := by
  have hmem : (run s stackDirect).mem =
      (run { s with reg := Function.update s.reg .sp (s.reg (.x 0)) } (stubInit 0)).mem := rfl
  refine ⟨rfl, rfl, rfl, rfl, ?_⟩
  rw [hmem]
  exact stubInit_chain 0 _

end Stub

end Libfibre.StackSwitch.AArch64
