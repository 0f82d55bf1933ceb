import Mathlib.Algebra.Group.Nat.Defs
import Mathlib.Logic.Function.Basic
import Mathlib.Tactic.SplitIfs

/-! The instructions of x86-64 that move quadwords between registers and memory, over sixteen general
    registers and a memory of bytes, and what the System V convention promises of a called function. A
    routine is a list of instructions up to the jump or return that leaves it; `rip` is where that goes.
    Every quadword accessed is logged. -/

namespace Libfibre.X86

/-- An address. -/
abbrev Addr := BitVec 64

/-! ### Memory -/

/-- The memory, byte by byte. -/
abbrev Memory := Addr → BitVec 8

/-- `a` is one of the `n` bytes from `p` on. -/
def Within (a p : Addr) (n : ℕ) : Prop := (a - p).toNat < n

instance (a p : Addr) (n : ℕ) : Decidable (Within a p n) := inferInstanceAs (Decidable ((a - p).toNat < n))

/-- The quadword at `q` lies in the `n` bytes from `p` on. -/
def Inside (q p : Addr) (n : ℕ) : Prop := (q - p).toNat + 8 ≤ n

/-- The quadword at `p`, little-endian. -/
def load (m : Memory) (p : Addr) : BitVec 64 :=
  m (p + 7) ++ m (p + 6) ++ m (p + 5) ++ m (p + 4) ++ m (p + 3) ++ m (p + 2) ++ m (p + 1) ++ m p

/-- A quadword is stored. -/
def store (m : Memory) (p : Addr) (v : BitVec 64) : Memory := fun a =>
  if Within a p 8 then v.extractLsb' (8 * (a - p).toNat) 8 else m a

theorem store_outside {m : Memory} {a p : Addr} {v : BitVec 64} (h : ¬ Within a p 8) :
    store m p v a = m a := if_neg h

theorem store_byte {m : Memory} {p : Addr} {v : BitVec 64} {k : ℕ} (hk : k < 8) :
    store m p v (p + BitVec.ofNat 64 k) = v.extractLsb' (8 * k) 8 := by
  have hoff : (p + BitVec.ofNat 64 k - p).toNat = k := by bv_omega
  have hin : Within (p + BitVec.ofNat 64 k) p 8 := by rw [Within, hoff]; exact hk
  rw [store, if_pos hin, hoff]

/-- What is stored is loaded. -/
theorem load_store {m : Memory} {p : Addr} {v : BitVec 64} : load (store m p v) p = v := by
  have hbyte : ∀ k, k < 8 → store m p v (p + BitVec.ofNat 64 k) = v.extractLsb' (8 * k) 8 :=
    fun k hk => store_byte hk
  have h0 : store m p v p = v.extractLsb' 0 8 := by
    have h := hbyte 0 (by omega)
    rwa [BitVec.add_zero] at h
  have h1 : store m p v (p + 1) = v.extractLsb' 8 8 := hbyte 1 (by omega)
  have h2 : store m p v (p + 2) = v.extractLsb' 16 8 := hbyte 2 (by omega)
  have h3 : store m p v (p + 3) = v.extractLsb' 24 8 := hbyte 3 (by omega)
  have h4 : store m p v (p + 4) = v.extractLsb' 32 8 := hbyte 4 (by omega)
  have h5 : store m p v (p + 5) = v.extractLsb' 40 8 := hbyte 5 (by omega)
  have h6 : store m p v (p + 6) = v.extractLsb' 48 8 := hbyte 6 (by omega)
  have h7 : store m p v (p + 7) = v.extractLsb' 56 8 := hbyte 7 (by omega)
  rw [load, h0, h1, h2, h3, h4, h5, h6, h7]
  -- the bytes are put together again from the top down
  rw [BitVec.extractLsb'_append_extractLsb'_eq_extractLsb' (show 56 = 48 + 8 from rfl),
    BitVec.extractLsb'_append_extractLsb'_eq_extractLsb' (show 48 = 40 + 8 from rfl),
    BitVec.extractLsb'_append_extractLsb'_eq_extractLsb' (show 40 = 32 + 8 from rfl),
    BitVec.extractLsb'_append_extractLsb'_eq_extractLsb' (show 32 = 24 + 8 from rfl),
    BitVec.extractLsb'_append_extractLsb'_eq_extractLsb' (show 24 = 16 + 8 from rfl),
    BitVec.extractLsb'_append_extractLsb'_eq_extractLsb' (show 16 = 8 + 8 from rfl),
    BitVec.extractLsb'_append_extractLsb'_eq_extractLsb' (show 8 = 0 + 8 from rfl)]
  exact BitVec.extractLsb'_eq_self

/-- Two memories with the same bytes have the same quadword. -/
theorem load_congr {m m' : Memory} {p : Addr} (h : ∀ a, Within a p 8 → m' a = m a) :
    load m' p = load m p := by
  have hbyte : ∀ k, k < 8 → m' (p + BitVec.ofNat 64 k) = m (p + BitVec.ofNat 64 k) := by
    intro k hk
    refine h _ ?_
    rw [Within]
    bv_omega
  have h0 : m' p = m p := by
    have h := hbyte 0 (by omega)
    rwa [BitVec.add_zero] at h
  have h1 : m' (p + 1) = m (p + 1) := hbyte 1 (by omega)
  have h2 : m' (p + 2) = m (p + 2) := hbyte 2 (by omega)
  have h3 : m' (p + 3) = m (p + 3) := hbyte 3 (by omega)
  have h4 : m' (p + 4) = m (p + 4) := hbyte 4 (by omega)
  have h5 : m' (p + 5) = m (p + 5) := hbyte 5 (by omega)
  have h6 : m' (p + 6) = m (p + 6) := hbyte 6 (by omega)
  have h7 : m' (p + 7) = m (p + 7) := hbyte 7 (by omega)
  rw [load, load, h0, h1, h2, h3, h4, h5, h6, h7]

/-- The quadwords `vs` lie at `p` and upwards. -/
def Quads (m : Memory) (p : Addr) : List (BitVec 64) → Prop
  | [] => True
  | v :: vs => load m p = v ∧ Quads m (p + 8) vs

theorem Quads.congr {m m' : Memory} : ∀ {p : Addr} {vs : List (BitVec 64)}, Quads m p vs →
    8 * vs.length ≤ 2 ^ 64 → (∀ a, Within a p (8 * vs.length) → m' a = m a) → Quads m' p vs
  | _, [], _, _, _ => trivial
  | p, v :: vs, ⟨hv, hvs⟩, hroom, hsame => by
    rw [List.length_cons] at hroom hsame
    refine ⟨?_, hvs.congr (by omega) fun a ha => hsame a ?_⟩
    · rw [← hv]
      refine load_congr fun a ha => hsame a ?_
      rw [Within] at ha ⊢
      omega
    · rw [Within] at ha ⊢
      bv_omega

/-- A store below leaves the quadwords, and is one more. -/
theorem Quads.push {m : Memory} {p : Addr} {v : BitVec 64} {vs : List (BitVec 64)}
    (h : Quads m p vs) (hroom : 8 * (vs.length + 1) ≤ 2 ^ 64) :
    Quads (store m (p - 8) v) (p - 8) (v :: vs) := by
  refine ⟨load_store, ?_⟩
  have hp : p - 8 + 8 = p := BitVec.sub_add_cancel p 8
  rw [hp]
  refine h.congr (by omega) fun a ha => store_outside ?_
  rw [Within] at ha ⊢
  bv_omega

/-- So is a store right above. -/
theorem Quads.concat {m : Memory} {v : BitVec 64} : ∀ {p q : Addr} {vs : List (BitVec 64)}, Quads m p vs →
    q = p + BitVec.ofNat 64 (8 * vs.length) → 8 * (vs.length + 1) ≤ 2 ^ 64 →
    Quads (store m q v) p (vs ++ [v])
  | p, q, [], _, hq, _ => by
    have hp : q = p := by rw [hq]; exact BitVec.add_zero p
    rw [hp]
    exact ⟨load_store, trivial⟩
  | p, q, u :: vs, ⟨hu, hvs⟩, hq, hroom => by
    rw [List.length_cons] at hq hroom
    refine ⟨?_, hvs.concat (by bv_omega) (by omega)⟩
    rw [← hu]
    refine load_congr fun a ha => store_outside ?_
    rw [Within] at ha ⊢
    bv_omega

/-! ### Registers and instructions -/

/-- The general registers. -/
inductive Reg
  | rax | rbx | rcx | rdx | rsi | rdi | rbp | rsp | r8 | r9 | r10 | r11 | r12 | r13 | r14 | r15
  deriving DecidableEq

/-- The registers, the memory and the instruction pointer. -/
structure State where
  reg : Reg → BitVec 64
  mem : Memory
  rip : Addr
  /-- the quadwords accessed so far -/
  accesses : List Addr

/-- A register is set. -/
def State.set (s : State) (r : Reg) (v : BitVec 64) : State := { s with reg := Function.update s.reg r v }

/-- A quadword is written, and noted as accessed. -/
def State.write (s : State) (p : Addr) (v : BitVec 64) : State :=
  { s with mem := store s.mem p v, accesses := s.accesses ++ [p] }

theorem State.write_rip (s : State) (p : Addr) (v : BitVec 64) : (s.write p v).rip = s.rip := rfl

theorem State.write_mem (s : State) (p : Addr) (v : BitVec 64) : (s.write p v).mem = store s.mem p v :=
  rfl

/-- A quadword is noted as accessed. -/
def State.touch (s : State) (p : Addr) : State := { s with accesses := s.accesses ++ [p] }

/-- In the order of AT&T syntax: the source first. -/
inductive Instr
  /-- `movq %src, %dst` -/
  | movq (src dst : Reg)
  /-- `movq %src, disp(%base)` -/
  | movqTo (src : Reg) (disp : BitVec 64) (base : Reg)
  /-- `movq $imm, disp(%base)` -/
  | movqImm (imm disp : BitVec 64) (base : Reg)
  /-- `leaq disp(%base), %dst` -/
  | leaq (disp : BitVec 64) (base dst : Reg)
  /-- `leaq sym(%rip), %dst` -/
  | leaqSym (sym : Addr) (dst : Reg)
  | pushq (src : Reg)
  | popq (dst : Reg)
  /-- `jmp *%dst` -/
  | jmpReg (dst : Reg)
  | jmp (sym : Addr)
  | retq

/-- One instruction, in the operand order of the assembler: source first. -/
def exec (s : State) : Instr → State
  | .movq src dst => s.set dst (s.reg src)
  | .movqTo src disp base => s.write (s.reg base + disp) (s.reg src)
  | .movqImm imm disp base => s.write (s.reg base + disp) imm
  | .leaq disp base dst => s.set dst (s.reg base + disp)
  | .leaqSym sym dst => s.set dst sym
  | .pushq src => (s.write (s.reg .rsp - 8) (s.reg src)).set .rsp (s.reg .rsp - 8)
  | .popq dst => ((s.touch (s.reg .rsp)).set .rsp (s.reg .rsp + 8)).set dst (load s.mem (s.reg .rsp))
  | .jmpReg dst => { s with rip := s.reg dst }
  | .jmp sym => { s with rip := sym }
  | .retq => { (s.touch (s.reg .rsp)).set .rsp (s.reg .rsp + 8) with rip := load s.mem (s.reg .rsp) }

/-- Instructions one after the other, without jumps. -/
def run (s : State) (is : List Instr) : State := is.foldl exec s

theorem run_append (s : State) (is js : List Instr) : run s (is ++ js) = run (run s is) js :=
  List.foldl_append

theorem run_jmpReg (s : State) (r : Reg) : run s [.jmpReg r] = { s with rip := s.reg r } := rfl

/-- `call sym`, from where `ret` is the next instruction. -/
def call (s : State) (sym ret : Addr) : State :=
  { (s.write (s.reg .rsp - 8) ret).set .rsp (s.reg .rsp - 8) with rip := sym }

/-! ### The System V convention -/

/-- The registers that a called function keeps, the stack pointer apart. -/
def calleeSaved : List Reg := [.rbx, .r12, .r13, .r14, .r15, .rbp]

/-- A function entered in `s` has returned in `s'`. -/
structure Returned (s s' : State) : Prop where
  kept : ∀ r ∈ calleeSaved, s'.reg r = s.reg r
  rsp : s'.reg .rsp = s.reg .rsp + 8
  rip : s'.rip = load s.mem (s.reg .rsp)

/-- A function that does nothing. -/
theorem returned_retq (s : State) : Returned s (run s [.retq]) := by
  refine ⟨fun r hr => Function.update_of_ne ?_ .., rfl, rfl⟩
  rintro rfl
  simp [calleeSaved] at hr

/-- The stack is aligned as it must be where a function is entered. -/
def AlignedEntry (s : State) : Prop := (s.reg .rsp + 8).toNat % 16 = 0

instance (s : State) : Decidable (AlignedEntry s) := inferInstanceAs (Decidable (_ = _))

end Libfibre.X86
