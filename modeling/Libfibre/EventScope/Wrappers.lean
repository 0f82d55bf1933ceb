import Mathlib.Data.BitVec
import Mathlib.Tactic.Linarith

/-! The I/O wrappers `syncInput`, `syncOutput` and `directIO` (`EventScope.h`): what a caller gets to see of
    the calls that they make. `errno` belongs to the OS thread of a worker, and a fibre may go on on
    another worker after each suspension. `syncIO` looks at `errno` right after the call that sets it
    and returns with it in place; `directIO` migrates once more after the call, and carries the result
    through an `int`. -/

namespace Libfibre.EventScope.Wrappers

def EAGAIN : ℤ := 11

/-- The result of a call, of a type with `w` bits, and `errno` after it. -/
structure Outcome (w : ℕ) where
  result : BitVec w
  errno : ℤ
  deriving DecidableEq

/-- The worker that runs the fibre, and `errno` of each worker. -/
structure Machine (W : Type) where
  worker : W
  errno : W → ℤ

/-- How the fibre goes on after its `k`-th suspension: where, and what the others have done to `errno`. -/
abbrev Schedule (W : Type) := ℕ → Machine W

inductive Wrapper where
  | syncInput
  | syncOutput
  | directIO
  deriving DecidableEq

variable {W : Type} [DecidableEq W] {w : ℕ}

/-! ### The code -/

/-- The underlying call. -/
def call (o : Outcome w) (m : Machine W) : BitVec w × Machine W :=
  (o.result, { m with errno := Function.update m.errno m.worker o.errno })

def TestEAGAIN (m : Machine W) : Bool := decide (m.errno m.worker = EAGAIN)

/-- `tryIO`: the result, and whether it is final. -/
def tryIO (o : Outcome w) (m : Machine W) : (BitVec w × Machine W) × Bool :=
  let r := call o m
  (r, decide (0 ≤ r.1.toInt) || !TestEAGAIN r.2)

/-- The loop of `syncIO`: `sync.P`, or `sync.wait`, and another attempt. -/
def syncLoop (schedule : Schedule W) : ℕ → List (Outcome w) → Option (BitVec w × Machine W)
  | _, [] => none
  | k, o :: os =>
    let r := tryIO o (schedule k)
    if r.2 then some r.1 else syncLoop schedule (k + 1) os

/-- `syncIO`; `tryRead` is `TESTING_EVENTPOLL_TRYREAD`. -/
def syncIO (tryRead read : Bool) (schedule : Schedule W) (m : Machine W) (os : List (Outcome w)) :
    Option (BitVec w × Machine W) :=
  if read then
    if tryRead then
      match os with   -- after `Fibre::yield`
      | [] => none
      | o :: os =>
        let r := tryIO o (schedule 0)
        if r.2 then some r.1 else syncLoop schedule 1 os
    else syncLoop schedule 0 os
  else
    match os with
    | [] => none
    | o :: os =>
      let r := tryIO o m
      if r.2 then some r.1 else syncLoop schedule 0 os

/-- `directIO`: to the disk cluster, the call, and back. -/
def directIO (schedule : Schedule W) : List (Outcome w) → Option (BitVec w × Machine W)
  | [] => none
  | o :: _ =>
    let r := call o (schedule 0)
    let result : BitVec 32 := r.1.signExtend 32
    some (result.signExtend w, schedule 1)

/-- A wrapper, with `os` what its calls come to one after the other; none: they do not suffice. -/
def run (tryRead : Bool) (wrapper : Wrapper) (blocking : Bool) (schedule : Schedule W) (m : Machine W)
    (os : List (Outcome w)) : Option (BitVec w × Machine W) :=
  match wrapper with
  | .syncInput => if blocking then syncIO tryRead true schedule m os else os.head?.map fun o => call o m
  | .syncOutput =>
    if blocking then syncIO tryRead false schedule m os else os.head?.map fun o => call o m
  | Wrapper.directIO => directIO schedule os

/-! ### Transparency -/

/-- An attempt that finds the descriptor not ready. -/
def Outcome.isFailure (o : Outcome w) : Bool := decide (o.result.toInt < 0 ∧ o.errno = EAGAIN)

/-- The wrapper repeats a call that fails with `EAGAIN`. -/
def Wrapper.repeats (blocking : Bool) : Wrapper → Bool
  | .syncInput | .syncOutput => blocking
  | Wrapper.directIO => false

/-- What the calls of a wrapper can come to: failures where it repeats the call, and a final outcome. -/
structure Calls (wrapper : Wrapper) (blocking : Bool) (fails : List (Outcome w)) (last : Outcome w) :
    Prop where
  failures : ∀ o ∈ fails, o.isFailure = true
  repeated : wrapper.repeats blocking = false → fails = []
  final : wrapper.repeats blocking = true → last.isFailure = false

/-- Where migrations lead: to the disk cluster, and back to the cluster that the fibre comes from. -/
def Migrates {C : Type} (cluster : W → C) (disk : C) (wrapper : Wrapper) (m : Machine W)
    (schedule : Schedule W) : Prop :=
  wrapper = Wrapper.directIO →
    cluster (schedule 0).worker = disk ∧ cluster (schedule 1).worker = cluster m.worker

/-- The caller gets the result, and finds the `errno` of a failure on the worker it runs on. -/
def Transparent (r : Option (BitVec w × Machine W)) (last : Outcome w) : Prop :=
  ∃ m, r = some (last.result, m) ∧ (last.result.toInt = -1 → m.errno m.worker = last.errno)

theorem transparent_call (o : Outcome w) (m : Machine W) : Transparent (some (call o m)) o :=
  ⟨_, rfl, fun _ => Function.update_self ..⟩

theorem tryIO_failure {o : Outcome w} (h : o.isFailure = true) (m : Machine W) :
    tryIO o m = (call o m, false) := by
  obtain ⟨hneg, he⟩ := of_decide_eq_true h
  have hlt : ¬ 0 ≤ o.result.toInt := by omega
  simp [call, tryIO, TestEAGAIN, hlt, he]

theorem tryIO_final {o : Outcome w} (h : o.isFailure = false) (m : Machine W) :
    tryIO o m = (call o m, true) := by
  have hn : ¬ (o.result.toInt < 0 ∧ o.errno = EAGAIN) := of_decide_eq_false h
  have hfinal : 0 ≤ o.result.toInt ∨ o.errno ≠ EAGAIN := by
    rcases lt_or_ge o.result.toInt 0 with hneg | hpos
    · exact .inr fun he => hn ⟨hneg, he⟩
    · exact .inl hpos
  rcases hfinal with hpos | hne
  · simp [call, tryIO, hpos]
  · simp [call, tryIO, TestEAGAIN, hne]

/-- The loop comes to the final outcome, however many failures there are before it. -/
theorem transparent_syncLoop (schedule : Schedule W) {last : Outcome w} (hlast : last.isFailure = false)
    (rest : List (Outcome w)) : ∀ (fails : List (Outcome w)) (k : ℕ), (∀ o ∈ fails, o.isFailure = true) →
    Transparent (syncLoop schedule k (fails ++ last :: rest)) last
  | [], k, _ => by
    rw [List.nil_append, syncLoop, tryIO_final hlast]
    exact transparent_call last (schedule k)
  | o :: fails, k, h => by
    rw [List.cons_append, syncLoop]
    simp only [tryIO_failure (h o (List.mem_cons_self ..)), Bool.false_eq_true, if_false]
    exact transparent_syncLoop schedule hlast rest fails (k + 1) fun o' ho' =>
      h o' (List.mem_cons_of_mem o ho')

/-- An attempt, and then the loop. -/
theorem transparent_attempt (schedule : Schedule W) (m : Machine W) {last : Outcome w}
    (hlast : last.isFailure = false) (rest fails : List (Outcome w)) (k : ℕ)
    (h : ∀ o ∈ fails, o.isFailure = true) :
    Transparent (match fails ++ last :: rest with
      | [] => none
      | o :: os =>
        let r := tryIO o m
        if r.2 then some r.1 else syncLoop schedule k os) last := by
  cases fails with
  | nil =>
    simp only [List.nil_append, tryIO_final hlast, if_true]
    exact transparent_call last m
  | cons o fails =>
    simp only [List.cons_append, tryIO_failure (h o (List.mem_cons_self ..)), Bool.false_eq_true, if_false]
    exact transparent_syncLoop schedule hlast rest fails k fun o' ho' =>
      h o' (List.mem_cons_of_mem o ho')

theorem transparent_syncIO (tryRead read : Bool) (schedule : Schedule W) (m : Machine W)
    {last : Outcome w} (hlast : last.isFailure = false) (rest fails : List (Outcome w))
    (h : ∀ o ∈ fails, o.isFailure = true) {r : Option (BitVec w × Machine W)}
    (hr : syncIO tryRead read schedule m (fails ++ last :: rest) = r) : Transparent r last := by
  subst hr
  unfold syncIO
  split_ifs
  · exact transparent_attempt schedule (schedule 0) hlast rest fails 1 h
  · exact transparent_syncLoop schedule hlast rest fails 0 h
  · exact transparent_attempt schedule m hlast rest fails 0 h

/-! ### `int` -/

/-- What comes back through an `int` is a value of that type. -/
theorem toInt_through_int (r : BitVec w) :
    -2 ^ 31 ≤ ((r.signExtend 32).signExtend w).toInt ∧ ((r.signExtend 32).signExtend w).toInt < 2 ^ 31 := by
  have hpow : (2 : ℕ) ^ min w 32 ≤ 2 ^ 32 := Nat.pow_le_pow_right (by decide) (Nat.min_le_right w 32)
  have hpos : 0 < (2 : ℕ) ^ min w 32 := Nat.two_pow_pos _
  rw [BitVec.toInt_signExtend]
  have hlo := Int.le_bmod (x := (r.signExtend 32).toInt) hpos
  have hhi := Int.bmod_lt (x := (r.signExtend 32).toInt) hpos
  generalize ((r.signExtend 32).toInt).bmod (2 ^ min w 32) = b at *
  generalize (2 : ℕ) ^ min w 32 = n at *
  constructor <;> omega

theorem bmod_small {x : ℤ} (hlo : -2 ^ 31 ≤ x) (hhi : x < 2 ^ 31) (hlow : -2 ^ w ≤ 2 * x)
    (hhigh : 2 * x < 2 ^ w) : x.bmod (2 ^ min 32 w) = x := by
  rcases Nat.le_total 32 w with hw | hw
  · rw [Nat.min_eq_left hw]
    exact Int.bmod_eq_of_le_mul_two (by norm_num; omega) (by norm_num; omega)
  · rw [Nat.min_eq_right hw]
    exact Int.bmod_eq_of_le_mul_two (by push_cast; omega) (by push_cast; omega)

theorem through_int_eq {r : BitVec w} (hlo : -2 ^ 31 ≤ r.toInt) (hhi : r.toInt < 2 ^ 31) :
    (r.signExtend 32).signExtend w = r := by
  have hlow : -2 ^ w ≤ 2 * r.toInt := BitVec.le_two_mul_toInt
  have hhigh : 2 * r.toInt < 2 ^ w := BitVec.two_mul_toInt_lt
  apply BitVec.eq_of_toInt_eq
  rw [BitVec.toInt_signExtend, BitVec.toInt_signExtend, bmod_small hlo hhi hlow hhigh, Nat.min_comm,
    bmod_small hlo hhi hlow hhigh]

/-! ### Which calls are transparent -/

/-- `syncInput` and `syncOutput` are transparent whatever happens between the attempts. -/
theorem transparent_sync {tryRead : Bool} {wrapper : Wrapper} {blocking : Bool} {fails : List (Outcome w)}
    {last : Outcome w} (hcalls : Calls wrapper blocking fails last) (hsync : wrapper ≠ Wrapper.directIO)
    (schedule : Schedule W) (m : Machine W) :
    Transparent (run tryRead wrapper blocking schedule m (fails ++ [last])) last := by
  have hnonblocking : wrapper.repeats blocking = false →
      Transparent ((fails ++ [last]).head?.map fun o => call o m) last := by
    intro hno
    rw [hcalls.repeated hno]
    exact transparent_call last m
  cases wrapper with
  | syncInput =>
    cases blocking with
    | true =>
      exact transparent_syncIO tryRead true schedule m (hcalls.final rfl) [] fails hcalls.failures rfl
    | false => exact hnonblocking rfl
  | syncOutput =>
    cases blocking with
    | true =>
      exact transparent_syncIO tryRead false schedule m (hcalls.final rfl) [] fails hcalls.failures rfl
    | false => exact hnonblocking rfl
  | directIO => exact absurd rfl hsync

omit [DecidableEq W] in
theorem transparent_some {r : BitVec w} {m : Machine W} {last : Outcome w}
    (h : Transparent (some (r, m)) last) :
    r = last.result ∧ (last.result.toInt = -1 → m.errno m.worker = last.errno) := by
  obtain ⟨m', hr, he⟩ := h
  cases hr
  exact ⟨rfl, he⟩

/-- EXACTLY WHEN: `directIO` is transparent for the results that an `int` holds, unless the call fails. -/
theorem transparent_iff {C : Type} (cluster : W → C) (disk : C) (hdisk : ∃ d, cluster d = disk)
    (tryRead : Bool) (wrapper : Wrapper) (blocking : Bool) (m : Machine W) (fails : List (Outcome w))
    (last : Outcome w) (hcalls : Calls wrapper blocking fails last) :
    (∀ schedule, Migrates cluster disk wrapper m schedule →
      Transparent (run tryRead wrapper blocking schedule m (fails ++ [last])) last) ↔
    (wrapper = Wrapper.directIO →
      -2 ^ 31 ≤ last.result.toInt ∧ last.result.toInt < 2 ^ 31 ∧ last.result.toInt ≠ -1) := by
  constructor
  · rintro h rfl
    obtain ⟨d, hd⟩ := hdisk
    obtain rfl := hcalls.repeated rfl
    -- the fibre comes back to its worker and finds another `errno` there
    set schedule : Schedule W := fun k => ⟨if k = 0 then d else m.worker, fun _ => last.errno + 1⟩
      with hschedule
    obtain ⟨hresult, herrno⟩ := transparent_some (h schedule fun _ => ⟨hd, rfl⟩)
    have hint := toInt_through_int last.result
    rw [show ((last.result.signExtend 32).signExtend w) = last.result from hresult] at hint
    refine ⟨hint.1, hint.2, fun hfail => ?_⟩
    have he := herrno hfail
    simp only [hschedule] at he
    omega
  · intro h schedule hschedule
    rcases eq_or_ne wrapper Wrapper.directIO with rfl | hsync
    · obtain ⟨hlo, hhi, hfail⟩ := h rfl
      obtain rfl := hcalls.repeated rfl
      refine ⟨schedule 1, ?_, fun hm => absurd hm hfail⟩
      exact congrArg (fun r => some (r, schedule 1)) (through_int_eq hlo hhi)
    · exact transparent_sync hcalls hsync schedule m

/-- `write` on a blocking descriptor, with a failure before it succeeds. -/
theorem transparent_iff_write :
    (∀ schedule : Schedule Bool, Migrates id true .syncOutput ⟨false, fun _ => 0⟩ schedule →
      Transparent (run true .syncOutput true schedule ⟨false, fun _ => 0⟩
        ([⟨-1#64, EAGAIN⟩] ++ [⟨7#64, 0⟩])) ⟨7#64, 0⟩) ↔
    (Wrapper.syncOutput = Wrapper.directIO →
      -2 ^ 31 ≤ (7#64).toInt ∧ (7#64).toInt < 2 ^ 31 ∧ (7#64).toInt ≠ -1) :=
  transparent_iff id true ⟨true, rfl⟩ true .syncOutput true ⟨false, fun _ => 0⟩ [⟨-1#64, EAGAIN⟩]
    ⟨7#64, 0⟩ ⟨by decide, by decide, by decide⟩

/-- To the disk cluster's worker `true`, and back to the worker `false`. -/
def thereAndBack : Schedule Bool := fun k => ⟨decide (k = 0), fun worker => if worker then 5 else 0⟩

/-- WRONG: an `lseek` to the end of a file of 3 GiB, and a call that fails with `EIO` (5). -/
theorem directIO_not_transparent :
    Migrates id true Wrapper.directIO ⟨false, fun _ => 0⟩ thereAndBack ∧
    ¬ Transparent (run true Wrapper.directIO true thereAndBack ⟨false, fun _ => 0⟩ [⟨3221225472#64, 0⟩])
      ⟨3221225472#64, 0⟩ ∧
    ¬ Transparent (run true Wrapper.directIO true thereAndBack ⟨false, fun _ => 0⟩ [⟨-1#64, 5⟩])
      ⟨-1#64, 5⟩ := by
  refine ⟨fun _ => ⟨rfl, rfl⟩, fun h => ?_, fun h => ?_⟩
  · obtain ⟨hresult, -⟩ := transparent_some h
    exact absurd hresult (by decide)
  · obtain ⟨-, herrno⟩ := transparent_some h
    exact absurd (herrno rfl) (by decide)

end Libfibre.EventScope.Wrappers
