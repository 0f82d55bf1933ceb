import Libfibre.X86.Machine
import Mathlib.Algebra.GroupWithZero.Nat

/-! The instructions of AArch64 that move doublewords and pairs of them between registers and memory, over
    the general registers, `sp` and the vector registers' lower halves, and what the procedure call standard
    promises of a called function. A routine is a list of instructions up to the branch that leaves it; `pc`
    is where that goes. Memory is the one of x86-64: bytes, little-endian. -/

namespace Libfibre.AArch64
open X86 (Addr Memory load store Within Inside Quads store_outside load_store load_congr)

instance neZero_x : NeZero 31 := ⟨Nat.succ_ne_zero 30⟩
instance neZero_d : NeZero 32 := ⟨Nat.succ_ne_zero 31⟩

/-- `x 0` to `x 30`, and the lower halves `d 0` to `d 31`. -/
inductive Reg
  | x (n : Fin 31)
  | d (n : Fin 32)
  | sp
  deriving DecidableEq

structure State where
  reg : Reg → BitVec 64
  mem : Memory
  pc : Addr
  /-- the doublewords accessed so far -/
  accesses : List Addr
  /-- `sp` was a multiple of 16 whenever it was the base of an access -/
  aligned : Bool

/-- The value of an operand; `none` is `xzr`. -/
def State.val (s : State) : Option Reg → BitVec 64
  | none => 0
  | some r => s.reg r

def State.set (s : State) (r : Reg) (v : BitVec 64) : State := { s with reg := Function.update s.reg r v }

/-- An access to two doublewords at `p`, with the base `r` whose value is `a`. -/
def State.touch (s : State) (r : Reg) (a p : Addr) : State :=
  { s with
    accesses := s.accesses ++ [p, p + 8]
    aligned := s.aligned && (decide (r ≠ .sp) || decide (a.toNat % 16 = 0)) }

def State.write (s : State) (p : Addr) (v w : BitVec 64) : State :=
  { s with mem := store (store s.mem p v) (p + 8) w }

inductive Instr
  | mov (dst src : Reg)
  /-- `ldr dst, =sym` -/
  | ldrSym (dst : Reg) (sym : Addr)
  /-- `str src, [base]` -/
  | str (src base : Reg)
  /-- `stp r1, r2, [base, off]` -/
  | stp (r1 r2 : Option Reg) (base : Reg) (off : BitVec 64)
  /-- `stp r1, r2, [base, off]!` -/
  | stpPre (r1 r2 : Option Reg) (base : Reg) (off : BitVec 64)
  /-- `ldp r1, r2, [base, off]` -/
  | ldp (r1 r2 base : Reg) (off : BitVec 64)
  /-- `ldp r1, r2, [base], off` -/
  | ldpPost (r1 r2 base : Reg) (off : BitVec 64)
  | br (r : Reg)
  | b (sym : Addr)
  | ret

def exec (s : State) : Instr → State
  | .mov dst src => s.set dst (s.reg src)
  | .ldrSym dst sym => s.set dst sym
  | .str src base => { s with
      mem := store s.mem (s.reg base) (s.reg src)
      accesses := s.accesses ++ [s.reg base]
      aligned := s.aligned && (decide (base ≠ .sp) || decide ((s.reg base).toNat % 16 = 0)) }
  | .stp r1 r2 base off =>
    (s.touch base (s.reg base) (s.reg base + off)).write (s.reg base + off) (s.val r1) (s.val r2)
  | .stpPre r1 r2 base off =>
    ((s.touch base (s.reg base) (s.reg base + off)).write (s.reg base + off) (s.val r1) (s.val r2)).set base
      (s.reg base + off)
  | .ldp r1 r2 base off =>
    ((s.touch base (s.reg base) (s.reg base + off)).set r1 (load s.mem (s.reg base + off))).set r2
      (load s.mem (s.reg base + off + 8))
  | .ldpPost r1 r2 base off =>
    (((s.touch base (s.reg base) (s.reg base)).set r1 (load s.mem (s.reg base))).set r2
      (load s.mem (s.reg base + 8))).set base (s.reg base + off)
  | .br r => { s with pc := s.reg r }
  | .b sym => { s with pc := sym }
  | .ret => { s with pc := s.reg (.x 30) }

def run (s : State) (is : List Instr) : State := is.foldl exec s

theorem run_append (s : State) (is js : List Instr) : run s (is ++ js) = run (run s is) js :=
  List.foldl_append

theorem run_cons (s : State) (i : Instr) (is : List Instr) : run s (i :: is) = run (exec s i) is := rfl

section Registers
variable (s : State)

theorem mov_reg (dst src : Reg) : (exec s (.mov dst src)).reg = Function.update s.reg dst (s.reg src) := rfl

theorem stpPre_reg (r1 r2 : Option Reg) (base : Reg) (off : BitVec 64) :
    (exec s (.stpPre r1 r2 base off)).reg = Function.update s.reg base (s.reg base + off) := rfl

theorem ldp_reg (r1 r2 base : Reg) (off : BitVec 64) :
    (exec s (.ldp r1 r2 base off)).reg =
      Function.update (Function.update s.reg r1 (load s.mem (s.reg base + off))) r2
        (load s.mem (s.reg base + off + 8)) := rfl

theorem ldpPost_reg (r1 r2 base : Reg) (off : BitVec 64) :
    (exec s (.ldpPost r1 r2 base off)).reg =
      Function.update (Function.update (Function.update s.reg r1 (load s.mem (s.reg base))) r2
        (load s.mem (s.reg base + 8))) base (s.reg base + off) := rfl

end Registers

/-! ### Pairs stored one above the other -/

/-- `stp` for each pair of operands, from `off` upwards. -/
def stps (base : Reg) : BitVec 64 → List (Option Reg × Option Reg) → List Instr
  | _, [] => []
  | off, (r1, r2) :: rs => .stp r1 r2 base off :: stps base (off + 16) rs

/-- The operands in the order of their addresses. -/
def flat (rs : List (Option Reg × Option Reg)) : List (Option Reg) := rs.flatMap fun r => [r.1, r.2]

section Pairs
variable {base : Reg}

theorem touch_aligned {s : State} {a : Addr} (p : Addr) (h : base ≠ .sp ∨ a.toNat % 16 = 0) :
    (s.touch base a p).aligned = s.aligned := by
  rw [State.touch, ← Bool.decide_or, decide_eq_true h, Bool.and_true]

theorem stps_reg : ∀ (rs : List (Option Reg × Option Reg)) (off : BitVec 64) (s : State),
    (run s (stps base off rs)).reg = s.reg ∧ (run s (stps base off rs)).pc = s.pc
  | [], _, _ => ⟨rfl, rfl⟩
  | (r1, r2) :: rs, off, s => stps_reg rs (off + 16) (exec s (.stp r1 r2 base off))

/-- The doublewords above others that are there already. -/
theorem stps_quads : ∀ (rs : List (Option Reg × Option Reg)) (off : BitVec 64) (s : State) (p : Addr)
    (vs : List (BitVec 64)), Quads s.mem p vs → s.reg base + off = p + BitVec.ofNat 64 (8 * vs.length) →
    8 * (vs.length + 2 * rs.length) ≤ 2 ^ 64 →
    Quads (run s (stps base off rs)).mem p (vs ++ (flat rs).map s.val)
  | [], _, s, p, vs, h, _, _ => by
    rw [flat, List.flatMap_nil, List.map_nil, List.append_nil]
    exact h
  | (r1, r2) :: rs, off, s, p, vs, h, hoff, hroom => by
    rw [List.length_cons] at hroom
    have hfirst : Quads (store s.mem (s.reg base + off) (s.val r1)) p (vs ++ [s.val r1]) :=
      h.concat hoff (by omega)
    have hlen : (vs ++ [s.val r1]).length = vs.length + 1 := by simp
    have hoff' : s.reg base + off + 8 = p + BitVec.ofNat 64 (8 * (vs ++ [s.val r1]).length) := by
      rw [hoff, hlen]
      bv_omega
    have hsecond := hfirst.concat (v := s.val r2) hoff' (by rw [hlen]; omega)
    have hrest := stps_quads rs (off + 16) (exec s (.stp r1 r2 base off)) p
      (vs ++ [s.val r1] ++ [s.val r2]) hsecond
      (by
        have hlen' : (vs ++ [s.val r1] ++ [s.val r2]).length = vs.length + 2 := by simp
        rw [hlen']
        change s.reg base + (off + 16) = _
        rw [← BitVec.add_assoc, hoff]
        bv_omega)
      (by simp; omega)
    have hflat : vs ++ [s.val r1] ++ [s.val r2] ++ (flat rs).map s.val =
        vs ++ (flat ((r1, r2) :: rs)).map s.val := by
      simp [flat]
    rw [← hflat]
    exact hrest

/-- Nothing else is written. -/
theorem stps_frame : ∀ (rs : List (Option Reg × Option Reg)) (off : BitVec 64) (s : State) {a : Addr},
    ¬ Within a (s.reg base + off) (16 * rs.length) → 16 * rs.length ≤ 2 ^ 64 →
    (run s (stps base off rs)).mem a = s.mem a
  | [], _, _, _, _, _ => rfl
  | (r1, r2) :: rs, off, s, a, ha, hroom => by
    rw [List.length_cons] at ha hroom
    have hrest : (run (exec s (.stp r1 r2 base off)) (stps base (off + 16) rs)).mem a =
        (exec s (.stp r1 r2 base off)).mem a := by
      refine stps_frame rs (off + 16) _ ?_ (by omega)
      change ¬ Within a (s.reg base + (off + 16)) _
      rw [Within] at ha ⊢
      bv_omega
    have hhere : (exec s (.stp r1 r2 base off)).mem a = s.mem a := by
      refine (store_outside ?_).trans (store_outside ?_) <;> rw [Within] at ha ⊢ <;> bv_omega
    exact hrest.trans hhere

/-- Each access is to one of the doublewords, and the base stays aligned. -/
theorem stps_accesses : ∀ (rs : List (Option Reg × Option Reg)) (off : BitVec 64) (s : State),
    16 * rs.length ≤ 2 ^ 64 →
    (∀ q ∈ (run s (stps base off rs)).accesses, q ∈ s.accesses ∨
      Inside q (s.reg base + off) (16 * rs.length)) ∧
    (base ≠ .sp ∨ (s.reg base).toNat % 16 = 0 → (run s (stps base off rs)).aligned = s.aligned)
  | [], _, _, _ => ⟨fun _ hq => .inl hq, fun _ => rfl⟩
  | (r1, r2) :: rs, off, s, hroom => by
    rw [List.length_cons] at hroom ⊢
    obtain ⟨hacc, hal⟩ := stps_accesses rs (off + 16) (exec s (.stp r1 r2 base off)) (by omega)
    refine ⟨fun q hq => ?_, fun hbase => ?_⟩
    · obtain hq | hq := hacc q hq
      · have hq' : q ∈ s.accesses ++ [s.reg base + off, s.reg base + off + 8] := hq
        rw [List.mem_append, List.mem_cons, List.mem_singleton] at hq'
        refine hq'.imp_right fun hq' => ?_
        rw [Inside]
        rcases hq' with rfl | rfl <;> bv_omega
      · have hq' : Inside q (s.reg base + (off + 16)) (16 * rs.length) := hq
        refine .inr ?_
        rw [Inside] at hq' ⊢
        bv_omega
    · exact (hal hbase).trans (touch_aligned (s.reg base + off) hbase)

end Pairs

/-- The doubleword at a place among others. -/
theorem quads_get {m : Memory} : ∀ {vs : List (BitVec 64)} {p : Addr} {i : ℕ} {v : BitVec 64},
    Quads m p vs → vs[i]? = some v → load m (p + BitVec.ofNat 64 (8 * i)) = v
  | u :: vs, p, 0, v, ⟨hu, _⟩, hi => by
    rw [Nat.mul_zero, BitVec.add_zero, hu]
    exact Option.some.inj hi
  | u :: vs, p, i + 1, v, ⟨_, hvs⟩, hi => by
    have hrest := quads_get hvs hi
    have hp : p + BitVec.ofNat 64 (8 * (i + 1)) = p + 8 + BitVec.ofNat 64 (8 * i) := by bv_omega
    rw [hp, hrest]

/-! ### Pairs loaded -/

/-- `ldp` for each offset and pair of registers. -/
def ldps (base : Reg) (rs : List (BitVec 64 × Reg × Reg)) : List Instr :=
  rs.map fun r => .ldp r.2.1 r.2.2 base r.1

/-- The registers loaded. -/
def loaded (rs : List (BitVec 64 × Reg × Reg)) : List Reg := rs.flatMap fun r => [r.2.1, r.2.2]

section Loads
variable {base : Reg}

theorem ldps_keeps : ∀ (rs : List (BitVec 64 × Reg × Reg)) (s : State),
    (∀ r, r ∉ loaded rs → (run s (ldps base rs)).reg r = s.reg r) ∧ (run s (ldps base rs)).mem = s.mem
  | [], _ => ⟨fun _ _ => rfl, rfl⟩
  | (off, r1, r2) :: rs, s => by
    obtain ⟨hreg, hmem⟩ := ldps_keeps rs (exec s (.ldp r1 r2 base off))
    refine ⟨fun r hr => ?_, hmem⟩
    rw [loaded, List.flatMap_cons, List.cons_append, List.cons_append, List.mem_cons, List.mem_cons, not_or,
      not_or] at hr
    obtain ⟨h1, h2, hrest⟩ := hr
    refine (hreg r hrest).trans ?_
    rw [ldp_reg, Function.update_of_ne h2, Function.update_of_ne h1]

/-- Each register gets what is at its place, if none is loaded twice and the base is not loaded. -/
theorem ldps_loads : ∀ (rs : List (BitVec 64 × Reg × Reg)) (s : State), (loaded rs).Nodup → base ∉ loaded rs →
    ∀ off r1 r2, (off, r1, r2) ∈ rs →
      (run s (ldps base rs)).reg r1 = load s.mem (s.reg base + off) ∧
      (run s (ldps base rs)).reg r2 = load s.mem (s.reg base + off + 8)
  | (off, r1, r2) :: rs, s, hnodup, hbase, off', q1, q2, hmem => by
    rw [loaded, List.flatMap_cons, List.cons_append, List.cons_append, List.nil_append] at hnodup hbase
    obtain ⟨h1, hnodup⟩ := List.nodup_cons.mp hnodup
    obtain ⟨h2, hnodup⟩ := List.nodup_cons.mp hnodup
    obtain ⟨hb1, hbase⟩ := not_or.mp (mt List.mem_cons.mpr hbase)
    obtain ⟨hb2, hbase⟩ := not_or.mp (mt List.mem_cons.mpr hbase)
    have hrest := @ldps_keeps base rs (exec s (.ldp r1 r2 base off))
    rcases List.mem_cons.mp hmem with heq | hmem
    · obtain ⟨rfl, rfl, rfl⟩ : off' = off ∧ q1 = r1 ∧ q2 = r2 := by simpa using heq
      constructor
      · refine (hrest.1 q1 fun hin => h1 (List.mem_cons_of_mem q2 hin)).trans ?_
        have hne : q1 ≠ q2 := fun heq => h1 (heq ▸ List.mem_cons_self)
        rw [ldp_reg, Function.update_of_ne hne, Function.update_self]
      · refine (hrest.1 q2 h2).trans ?_
        rw [ldp_reg, Function.update_self]
    · have ih := ldps_loads rs (exec s (.ldp r1 r2 base off)) hnodup hbase off' q1 q2 hmem
      have hsame : (exec s (.ldp r1 r2 base off)).reg base = s.reg base := by
        rw [ldp_reg, Function.update_of_ne hb2, Function.update_of_ne hb1]
      rw [hsame] at ih
      exact ih

/-- Each access is to a doubleword loaded, and the base stays aligned. -/
theorem ldps_accesses : ∀ (rs : List (BitVec 64 × Reg × Reg)) (s : State), base ∉ loaded rs →
    (∀ q ∈ (run s (ldps base rs)).accesses, q ∈ s.accesses ∨
      ∃ r ∈ rs, q = s.reg base + r.1 ∨ q = s.reg base + r.1 + 8) ∧
    (base ≠ .sp ∨ (s.reg base).toNat % 16 = 0 → (run s (ldps base rs)).aligned = s.aligned)
  | [], _, _ => ⟨fun _ hq => .inl hq, fun _ => rfl⟩
  | (off, r1, r2) :: rs, s, hbase => by
    rw [loaded, List.flatMap_cons, List.cons_append, List.cons_append, List.nil_append] at hbase
    obtain ⟨hb1, hbase⟩ := not_or.mp (mt List.mem_cons.mpr hbase)
    obtain ⟨hb2, hbase⟩ := not_or.mp (mt List.mem_cons.mpr hbase)
    have hsame : (exec s (.ldp r1 r2 base off)).reg base = s.reg base := by
      rw [ldp_reg, Function.update_of_ne hb2, Function.update_of_ne hb1]
    obtain ⟨hacc, hal⟩ := ldps_accesses rs (exec s (.ldp r1 r2 base off)) hbase
    rw [hsame] at hacc hal
    refine ⟨fun q hq => ?_, fun hs => (hal hs).trans (touch_aligned (s.reg base + off) hs)⟩
    · obtain hq | ⟨r, hr, hq⟩ := hacc q hq
      · have hq' : q ∈ s.accesses ++ [s.reg base + off, s.reg base + off + 8] := hq
        rw [List.mem_append, List.mem_cons, List.mem_singleton] at hq'
        exact hq'.imp_right fun hq' => ⟨_, List.mem_cons_self, hq'⟩
      · exact .inr ⟨r, List.mem_cons_of_mem _ hr, hq⟩

end Loads

/-! ### The procedure call standard -/

def calleeSaved : List Reg :=
  [.x 29, .x 27, .x 28, .x 25, .x 26, .x 23, .x 24, .x 21, .x 22, .x 19, .x 20,
   .d 8, .d 9, .d 10, .d 11, .d 12, .d 13, .d 14, .d 15]

/-- A function entered in `s` has returned in `s'`. -/
structure Returned (s s' : State) : Prop where
  kept : ∀ r ∈ calleeSaved, s'.reg r = s.reg r
  sp : s'.reg .sp = s.reg .sp
  pc : s'.pc = s.reg (.x 30)

/-- A function that does nothing. -/
theorem returned_ret (s : State) : Returned s (run s [.ret]) := ⟨fun _ _ => rfl, rfl, rfl⟩

/-- The stack is aligned as it must be at all times. -/
def Aligned (s : State) : Prop := (s.reg .sp).toNat % 16 = 0

instance (s : State) : Decidable (Aligned s) := inferInstanceAs (Decidable (_ = _))

end Libfibre.AArch64
