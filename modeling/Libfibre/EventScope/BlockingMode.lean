import Libfibre.Schemes.Transition
import Mathlib.Data.BitVec

/-! The blocking mode of descriptors (`EventScope.h`), without io_uring. Every file is opened with
    `O_NONBLOCK`, whatever the application asks for; what it has asked for is kept in
    `fdSyncVector[fd].blocking`, and decides whether a fibre waits.

        socket, accept4, pipe2 (flags) ──▶ blocking = !(flags & O_NONBLOCK)
        dup                            ──▶ blocking of the old descriptor
        fcntl (cmd, flags)             ──▶ blocking = !(flags & O_NONBLOCK), whatever `cmd` is
        close                          ──▶ false

    `fcntl` takes the argument of every command for status flags: it adds `O_NONBLOCK` to it and reads the
    mode off it. That does no harm exactly where the argument has this bit anyway and the descriptor is not
    a blocking one (`blocking_mode`). -/

namespace Libfibre.EventScope.BlockingMode
open Transition

/-- The bits and commands of `fcntl`, `socket` and `accept4` on Linux. -/
def O_NONBLOCK : BitVec 32 := 0x800
def SOCK_NONBLOCK : BitVec 32 := 0x800

def F_DUPFD : BitVec 32 := 0
def F_GETFL : BitVec 32 := 3
def F_SETFL : BitVec 32 := 4
def F_DUPFD_CLOEXEC : BitVec 32 := 1030

/-- `flags & bit` -/
def has (flags bit : BitVec 32) : Bool := flags &&& bit != 0

/-! ### The kernel -/

/-- The open descriptors, the file that each refers to, and which files have `O_NONBLOCK` set. -/
structure Kernel where
  file : ℕ → Option ℕ
  nonblock : ℕ → Bool
  next : ℕ
  fresh : ∀ fd d, file fd = some d → d < next

/-- The descriptor refers to a file. -/
def Kernel.isOpen (k : Kernel) (fd : ℕ) : Bool := (k.file fd).isSome

/-- A new file, under the descriptor `fd`. -/
def Kernel.create (k : Kernel) (fd : ℕ) (nonblock : Bool) : Kernel where
  file := Function.update k.file fd (some k.next)
  nonblock := Function.update k.nonblock k.next nonblock
  next := k.next + 1
  fresh := by
    intro f d hd
    rcases eq_or_ne f fd with rfl | hf
    · rw [Function.update_self, Option.some.injEq] at hd
      omega
    · rw [Function.update_of_ne hf] at hd
      exact (k.fresh f d hd).trans (Nat.lt_succ_self _)

/-- Another descriptor of the file of `fd`. -/
def Kernel.alias (k : Kernel) (fd new : ℕ) : Kernel :=
  { k with
    file := Function.update k.file new (k.file fd)
    fresh := by
      intro f d hd
      rcases eq_or_ne f new with rfl | hf
      · rw [Function.update_self] at hd
        exact k.fresh fd d hd
      · rw [Function.update_of_ne hf] at hd
        exact k.fresh f d hd }

/-- `close`: the descriptor no longer refers to its file, which others may still do. -/
def Kernel.close (k : Kernel) (fd : ℕ) : Kernel :=
  { k with
    file := Function.update k.file fd none
    fresh := by
      intro f d hd
      rcases eq_or_ne f fd with rfl | hf
      · rw [Function.update_self] at hd
        cases hd
      · rw [Function.update_of_ne hf] at hd
        exact k.fresh f d hd }

/-- `::fcntl`, answered with `ret`; none: this cannot be the answer. -/
def Kernel.fcntl (k : Kernel) (fd : ℕ) (cmd arg : BitVec 32) (ret : Option ℕ) : Option Kernel :=
  match ret, k.file fd with
  | none, _ => some k
  | some _, none => none
  | some new, some d =>
    if cmd = F_SETFL then
      some { k with nonblock := Function.update k.nonblock d (has arg O_NONBLOCK) }
    else if cmd = F_DUPFD ∨ cmd = F_DUPFD_CLOEXEC then
      if k.isOpen new ∨ new < arg.toNat then none else some (k.alias fd new)
    else some k

/-! ### The wrappers -/

/-- A command that has been handed to the kernel. -/
structure Fcntl where
  cmd : BitVec 32
  given : BitVec 32   -- by the caller
  passed : BitVec 32
  deriving DecidableEq

/-- The descriptors, what `fdSyncVector` says of them, and what was asked for. -/
structure State where
  kernel : Kernel
  blocking : ℕ → Bool          -- `fdSyncVector`
  asked : ℕ → Option Bool      -- history: for `O_NONBLOCK`; none: opened by other means
  fcntls : List Fcntl          -- history

/-- The calls, with the descriptors that the kernel answers with; none: it fails. -/
inductive Action where
  | socket (type : BitVec 32) (ret : Option ℕ)
  | accept4 (fd : ℕ) (flags : BitVec 32) (ret : Option ℕ)
  | dup (fd : ℕ) (ret : Option ℕ)
  | pipe2 (flags : BitVec 32) (ret : Option (ℕ × ℕ))
  | fcntl (fd : ℕ) (cmd flags : BitVec 32) (ret : Option ℕ)
  | close (fd : ℕ)
  deriving DecidableEq

/-- A call has opened `fd` with `nonblock` set in the kernel, and the application has asked for `asked`. -/
def State.opened (s : State) (fd : ℕ) (nonblock asked : Bool) : State :=
  { s with
    kernel := s.kernel.create fd nonblock
    blocking := Function.update s.blocking fd (!asked)
    asked := Function.update s.asked fd (some asked) }

/-- `::socket` with `SOCK_NONBLOCK` added; `ret` is the descriptor, if it succeeds. -/
def socket (s : State) (type : BitVec 32) : Option ℕ → Option State
  | none => some s
  | some fd =>
    if s.kernel.isOpen fd then none
    else some (s.opened fd (has (type ||| SOCK_NONBLOCK) SOCK_NONBLOCK) (has type SOCK_NONBLOCK))

/-- `::accept4` with `SOCK_NONBLOCK` added, on a descriptor that is open. -/
def accept4 (s : State) (fd : ℕ) (flags : BitVec 32) : Option ℕ → Option State
  | none => some s
  | some new =>
    if s.kernel.isOpen fd = false ∨ s.kernel.isOpen new then none
    else some (s.opened new (has (flags ||| SOCK_NONBLOCK) SOCK_NONBLOCK) (has flags SOCK_NONBLOCK))

/-- `::dup`: the new descriptor shares the file, and `blocking` is copied. -/
def dup (s : State) (fd : ℕ) : Option ℕ → Option State
  | none => some s
  | some new =>
    if s.kernel.isOpen fd = false ∨ s.kernel.isOpen new then none
    else some
      { s with
        kernel := s.kernel.alias fd new
        blocking := Function.update s.blocking new (s.blocking fd)
        asked := Function.update s.asked new (s.asked fd) }

/-- `::pipe2` with `O_NONBLOCK` added: both ends get the mode that was asked for. -/
def pipe2 (s : State) (flags : BitVec 32) : Option (ℕ × ℕ) → Option State
  | none => some s
  | some (rd, wr) =>
    if s.kernel.isOpen rd ∨ s.kernel.isOpen wr ∨ rd = wr then none
    else
      let nonblock := has (flags ||| O_NONBLOCK) O_NONBLOCK
      some ((s.opened rd nonblock (has flags O_NONBLOCK)).opened wr nonblock (has flags O_NONBLOCK))

/-- What the application has asked for after a command: `F_SETFL` says so, a duplicate is as the old one. -/
def askedAfter (s : State) (fd : ℕ) (cmd flags : BitVec 32) (new : ℕ) : ℕ → Option Bool :=
  if cmd = F_SETFL then Function.update s.asked fd (some (has flags O_NONBLOCK))
  else if cmd = F_DUPFD ∨ cmd = F_DUPFD_CLOEXEC then Function.update s.asked new (s.asked fd)
  else s.asked

/-- `::fcntl` with `O_NONBLOCK` added to the flags, whatever the command is. -/
def fcntl (s : State) (fd : ℕ) (cmd flags : BitVec 32) (ret : Option ℕ) : Option State :=
  let passed := flags ||| O_NONBLOCK
  let fcntls := s.fcntls ++ [⟨cmd, flags, passed⟩]
  (s.kernel.fcntl fd cmd passed ret).map fun kernel =>
    match ret with
    | none => { s with fcntls := fcntls }
    | some new =>
      { kernel := kernel
        blocking := Function.update s.blocking fd !(has flags O_NONBLOCK)
        asked := askedAfter s fd cmd flags new
        fcntls := fcntls }

/-- `cleanupFD`, and `::close`, which fails on nothing but a descriptor that is not open. -/
def close (s : State) (fd : ℕ) : State :=
  { s with
    kernel := s.kernel.close fd
    blocking := Function.update s.blocking fd false
    asked := Function.update s.asked fd none }

/-- One call of an application. -/
def step (s : State) : Action → Option State
  | .socket type ret => socket s type ret
  | .accept4 fd flags ret => accept4 s fd flags ret
  | .dup fd ret => dup s fd ret
  | .pipe2 flags ret => pipe2 s flags ret
  | .fcntl fd cmd flags ret => fcntl s fd cmd flags ret
  | .close fd => some (close s fd)

/-- No entry is set; descriptors may be open already. -/
def boot (k : Kernel) : State where
  kernel := k
  blocking _ := false
  asked _ := none
  fcntls := []

/-- The calls of an application that starts with the descriptors of `k`. -/
def system (k : Kernel) : System State Action where
  init s := s = boot k
  step := step

/-! ### The mode -/

/-- The table says what the application has asked for, a fibre waits on no file that blocks in the kernel,
    and the kernel gets the arguments as given, but for status flags. -/
structure Right (s : State) : Prop where
  mode : ∀ fd nonblock, s.kernel.isOpen fd = true → s.asked fd = some nonblock → s.blocking fd = !nonblock
  kernel : ∀ fd d, s.kernel.file fd = some d → s.blocking fd = true → s.kernel.nonblock d = true
  args : ∀ r ∈ s.fcntls, r.cmd ≠ F_SETFL → r.passed = r.given

/-- A command other than `F_SETFL` has `O_NONBLOCK` in its argument, and fails or is about a descriptor that
    the application has not left blocking. -/
def Harmless (s : State) : Action → Prop
  | .fcntl fd cmd flags ret =>
    cmd ≠ F_SETFL → has flags O_NONBLOCK = true ∧ (ret = none ∨ s.asked fd ≠ some false)
  | _ => True

/-! ### Flags -/

theorem has_or_self (flags : BitVec 32) : has (flags ||| O_NONBLOCK) O_NONBLOCK = true := by
  have hbit : (flags ||| O_NONBLOCK) &&& O_NONBLOCK = O_NONBLOCK := by
    ext i hi
    simp only [BitVec.getElem_and, BitVec.getElem_or]
    cases O_NONBLOCK[i] <;> simp
  rw [has, hbit]
  decide

/-- The argument of a command stays the same exactly if it has the bit already. -/
theorem or_eq_self_iff (flags : BitVec 32) :
    flags ||| O_NONBLOCK = flags ↔ has flags O_NONBLOCK = true := by
  constructor
  · intro h
    rw [← h]
    exact has_or_self flags
  · intro h
    have hbit : O_NONBLOCK = BitVec.twoPow 32 11 := by decide
    rw [has, hbit, BitVec.and_twoPow] at h
    have hset : flags.getLsbD 11 = true := by
      by_contra hn
      rw [if_neg hn] at h
      exact absurd h (by decide)
    ext i hi
    rw [hbit, BitVec.getElem_or, BitVec.getElem_twoPow]
    rcases eq_or_ne i 11 with rfl | hne
    · have hget : flags[11] = true := hset
      rw [hget]
      rfl
    · rw [decide_eq_false hne, Bool.or_false]

/-! ### The invariant -/

/-- What holds of a descriptor: of its file, its entry, and what has been asked for. -/
structure Sound (nonblock : ℕ → Bool) (file : Option ℕ) (blocking : Bool) (asked : Option Bool) : Prop where
  closed : file = none → blocking = false
  mode : ∀ a, file.isSome = true → asked = some a → blocking = !a
  kernel : ∀ d, file = some d → blocking = true → nonblock d = true

/-- INVARIANT: each descriptor is as `Sound` says, and `fcntl` adds to the flags of `F_SETFL` only.
    -/
structure Inv (s : State) : Prop where
  sound : ∀ fd, Sound s.kernel.nonblock (s.kernel.file fd) (s.blocking fd) (s.asked fd)
  args : ∀ r ∈ s.fcntls, r.cmd ≠ F_SETFL → r.passed = r.given

theorem Inv.right {s : State} (h : Inv s) : Right s :=
  ⟨fun fd a hopen hasked => (h.sound fd).mode a hopen hasked, fun fd d => (h.sound fd).kernel d, h.args⟩

/-- Setting `O_NONBLOCK` does no harm to any descriptor. -/
theorem Sound.mono {nonblock nonblock' : ℕ → Bool} {file : Option ℕ} {blocking : Bool}
    {asked : Option Bool} (h : Sound nonblock file blocking asked)
    (hset : ∀ d, file = some d → nonblock d = true → nonblock' d = true) :
    Sound nonblock' file blocking asked :=
  ⟨h.closed, h.mode, fun d hd hb => hset d hd (h.kernel d hd hb)⟩

/-- Nor does taking a descriptor for a non-blocking one, unless it was asked to be blocking. -/
theorem Sound.nonblocking {nonblock : ℕ → Bool} {file : Option ℕ} {asked : Option Bool}
    (h : asked ≠ some false) : Sound nonblock file false asked where
  closed _ := rfl
  mode a _ ha := by
    cases a with
    | false => exact absurd ha h
    | true => rfl
  kernel _ _ hb := by cases hb

section Steps
variable {s s' : State}

theorem Inv.boot (k : Kernel) : Inv (boot k) :=
  ⟨fun _ => Sound.nonblocking nofun, fun _ hr => by cases hr⟩

theorem file_none {k : Kernel} {fd : ℕ} (h : k.isOpen fd = false) : k.file fd = none := by
  rw [Kernel.isOpen] at h
  exact Option.not_isSome_iff_eq_none.mp (Bool.eq_false_iff.mp h)

/-- A file is opened with `O_NONBLOCK`. -/
theorem Inv.opened (h : Inv s) (fd : ℕ) (asked : Bool) : Inv (s.opened fd true asked) := by
  refine ⟨fun f => ?_, h.args⟩
  simp only [State.opened, Kernel.create]
  rcases eq_or_ne f fd with rfl | hf
  · simp only [Function.update_self]
    refine ⟨nofun, fun a _ ha => by rw [Option.some.inj ha], fun d hd _ => ?_⟩
    rw [← Option.some.inj hd, Function.update_self]
  · simp only [Function.update_of_ne hf]
    refine (h.sound f).mono fun d hd hset => ?_
    rwa [Function.update_of_ne (s.kernel.fresh f d hd).ne]

theorem Inv.socket (h : Inv s) {type : BitVec 32} {ret : Option ℕ}
    (hs : socket s type ret = some s') : Inv s' := by
  cases ret with
  | none => rw [← Option.some.inj hs]; exact h
  | some fd =>
    simp only [BlockingMode.socket] at hs
    split at hs
    · cases hs
    · rw [← Option.some.inj hs, show has (type ||| SOCK_NONBLOCK) SOCK_NONBLOCK = true from has_or_self type]
      exact h.opened fd _

theorem Inv.accept4 (h : Inv s) {fd : ℕ} {flags : BitVec 32} {ret : Option ℕ}
    (hs : accept4 s fd flags ret = some s') : Inv s' := by
  cases ret with
  | none => rw [← Option.some.inj hs]; exact h
  | some new =>
    simp only [BlockingMode.accept4] at hs
    split at hs
    · cases hs
    · have hset : has (flags ||| SOCK_NONBLOCK) SOCK_NONBLOCK = true := has_or_self flags
      rw [← Option.some.inj hs, hset]
      exact h.opened new _

theorem Inv.pipe2 (h : Inv s) {flags : BitVec 32} {ret : Option (ℕ × ℕ)}
    (hs : pipe2 s flags ret = some s') : Inv s' := by
  cases ret with
  | none => rw [← Option.some.inj hs]; exact h
  | some fds =>
    simp only [BlockingMode.pipe2] at hs
    split at hs
    · cases hs
    · rw [← Option.some.inj hs, has_or_self]
      exact (h.opened fds.1 _).opened fds.2 _

/-- A duplicate has the file and the entry of the old descriptor. -/
theorem Inv.dup (h : Inv s) {fd : ℕ} {ret : Option ℕ} (hs : dup s fd ret = some s') : Inv s' := by
  cases ret with
  | none => rw [← Option.some.inj hs]; exact h
  | some new =>
    simp only [BlockingMode.dup] at hs
    split at hs
    · cases hs
    · rw [← Option.some.inj hs]
      refine ⟨fun f => ?_, h.args⟩
      simp only [Kernel.alias]
      rcases eq_or_ne f new with rfl | hf
      · simp only [Function.update_self]
        exact h.sound fd
      · simp only [Function.update_of_ne hf]
        exact h.sound f

theorem Inv.close (h : Inv s) (fd : ℕ) : Inv (close s fd) := by
  refine ⟨fun f => ?_, h.args⟩
  simp only [BlockingMode.close, Kernel.close]
  rcases eq_or_ne f fd with rfl | hf
  · simp only [Function.update_self]
    exact Sound.nonblocking nofun
  · simp only [Function.update_of_ne hf]
    exact h.sound f

/-! ### `fcntl` -/

/-- What a command does that the kernel answers: the file is set, or duplicated, or neither. -/
theorem kernel_fcntl_cases {k k' : Kernel} {fd new : ℕ} {cmd arg : BitVec 32}
    (h : k.fcntl fd cmd arg (some new) = some k') : ∃ d, k.file fd = some d ∧
      ((cmd = F_SETFL ∧
          k' = { k with nonblock := Function.update k.nonblock d (has arg O_NONBLOCK) }) ∨
        (cmd ≠ F_SETFL ∧ (cmd = F_DUPFD ∨ cmd = F_DUPFD_CLOEXEC) ∧ k.isOpen new = false ∧
          k' = k.alias fd new) ∨
        (cmd ≠ F_SETFL ∧ ¬ (cmd = F_DUPFD ∨ cmd = F_DUPFD_CLOEXEC) ∧ k' = k)) := by
  simp only [Kernel.fcntl] at h
  split at h
  · rename_i hr
    cases hr
  · cases h
  · rename_i r d hr hd
    obtain rfl := Option.some.inj hr
    refine ⟨d, hd, ?_⟩
    split_ifs at h with hset hdup hbad
    · exact .inl ⟨hset, (Option.some.inj h).symm⟩
    · rw [not_or] at hbad
      exact .inr (.inl ⟨hset, hdup, Bool.eq_false_iff.mpr hbad.1, (Option.some.inj h).symm⟩)
    · exact .inr (.inr ⟨hset, hdup, (Option.some.inj h).symm⟩)

/-- The commands on record stay as they were handed on, and so is one that has the bit already. -/
theorem args_fcntl (h : Inv s) {cmd flags : BitVec 32}
    (hk : cmd ≠ F_SETFL → has flags O_NONBLOCK = true) :
    ∀ r ∈ s.fcntls ++ [⟨cmd, flags, flags ||| O_NONBLOCK⟩], r.cmd ≠ F_SETFL → r.passed = r.given := by
  intro r hr hcmd
  rcases List.mem_append.mp hr with hr | hr
  · exact h.args r hr hcmd
  · obtain rfl := List.mem_singleton.mp hr
    exact (or_eq_self_iff flags).mpr (hk hcmd)

theorem Inv.fcntl (h : Inv s) {fd : ℕ} {cmd flags : BitVec 32} {ret : Option ℕ}
    (hk : Harmless s (.fcntl fd cmd flags ret)) (hs : fcntl s fd cmd flags ret = some s') : Inv s' := by
  have hargs := args_fcntl h fun hcmd => (hk hcmd).1
  simp only [BlockingMode.fcntl] at hs
  obtain ⟨k, hkernel, hs⟩ := Option.map_eq_some_iff.mp hs
  cases ret with
  | none =>
    rw [← hs]
    exact ⟨h.sound, hargs⟩
  | some new =>
    rw [← hs]
    refine ⟨fun f => ?_, hargs⟩
    obtain ⟨d, hd, hcase⟩ := kernel_fcntl_cases hkernel
    -- a command that sets no flags finds the descriptor non-blocking, and leaves it so
    have hother : cmd ≠ F_SETFL → (!has flags O_NONBLOCK) = false ∧ s.asked fd ≠ some false := by
      intro hcmd
      obtain ⟨hbit, hret⟩ := hk hcmd
      rw [hbit]
      exact ⟨rfl, hret.resolve_left nofun⟩
    simp only [askedAfter]
    rcases hcase with ⟨hcmd, rfl⟩ | ⟨hcmd, hdup, hnew, rfl⟩ | ⟨hcmd, hdup, rfl⟩
    · simp only [if_pos hcmd, has_or_self]
      rcases eq_or_ne f fd with rfl | hf
      · simp only [Function.update_self]
        refine ⟨fun hnone => ?_, fun a _ ha => by rw [Option.some.inj ha], fun e he _ => ?_⟩
        · rw [hd] at hnone
          cases hnone
        · obtain rfl := Option.some.inj (hd.symm.trans he)
          exact Function.update_self ..
      · simp only [Function.update_of_ne hf]
        refine (h.sound f).mono fun e _ hset => ?_
        rcases eq_or_ne e d with rfl | he
        · exact Function.update_self ..
        · rwa [Function.update_of_ne he]
    · obtain ⟨hblocking, hasked⟩ := hother hcmd
      have hne : new ≠ fd := by
        rintro rfl
        rw [file_none hnew] at hd
        cases hd
      simp only [if_neg hcmd, if_pos hdup, hblocking, Kernel.alias]
      rcases eq_or_ne f new with rfl | hf
      · simp only [Function.update_self, Function.update_of_ne hne, (h.sound f).closed (file_none hnew)]
        exact Sound.nonblocking hasked
      · simp only [Function.update_of_ne hf]
        rcases eq_or_ne f fd with rfl | hfd
        · simp only [Function.update_self]
          exact Sound.nonblocking hasked
        · simp only [Function.update_of_ne hfd]
          exact h.sound f
    · obtain ⟨hblocking, hasked⟩ := hother hcmd
      simp only [if_neg hcmd, if_neg hdup, hblocking]
      rcases eq_or_ne f fd with rfl | hf
      · simp only [Function.update_self]
        exact Sound.nonblocking hasked
      · simp only [Function.update_of_ne hf]
        exact h.sound f

/-- What does harm shows: an argument is changed, or a blocking descriptor is taken for a non-blocking
    one. -/
theorem harmless_of_right {fd : ℕ} {cmd flags : BitVec 32} {ret : Option ℕ}
    (hs : fcntl s fd cmd flags ret = some s') (hr : Right s') :
    Harmless s (.fcntl fd cmd flags ret) := by
  intro hcmd
  simp only [BlockingMode.fcntl] at hs
  obtain ⟨k, hkernel, hs⟩ := Option.map_eq_some_iff.mp hs
  have hbit : has flags O_NONBLOCK = true := by
    have hlast : (⟨cmd, flags, flags ||| O_NONBLOCK⟩ : Fcntl) ∈ s'.fcntls := by
      rw [← hs]
      cases ret <;> exact List.mem_append_right _ (List.mem_singleton_self _)
    exact (or_eq_self_iff flags).mp (hr.args _ hlast hcmd)
  refine ⟨hbit, ?_⟩
  cases ret with
  | none => exact .inl rfl
  | some new =>
    refine .inr fun hasked => ?_
    obtain ⟨d, hd, hcase⟩ := kernel_fcntl_cases hkernel
    have hstate : s'.blocking fd = false := by
      rw [← hs]
      simp only [Function.update_self, hbit, Bool.not_true]
    have hsame : s'.asked fd = some false ∧ s'.kernel.isOpen fd = true := by
      rw [← hs]
      simp only [askedAfter]
      rcases hcase with ⟨hset, -⟩ | ⟨-, hdup, hnew, rfl⟩ | ⟨-, hdup, rfl⟩
      · exact absurd hset hcmd
      · have hne : fd ≠ new := by
          rintro rfl
          rw [file_none hnew] at hd
          cases hd
        simp only [if_neg hcmd, if_pos hdup, Kernel.alias, Kernel.isOpen, Function.update_of_ne hne, hd,
          hasked, Option.isSome_some, and_self]
      · simp only [if_neg hcmd, if_neg hdup, Kernel.isOpen, hd, hasked, Option.isSome_some, and_self]
    have hmode := hr.mode fd false hsame.2 hsame.1
    rw [hstate] at hmode
    cases hmode

theorem Inv.step (h : Inv s) {a : Action} (hk : Harmless s a) (hs : step s a = some s') : Inv s' := by
  cases a with
  | socket type ret => exact h.socket hs
  | accept4 fd flags ret => exact h.accept4 hs
  | dup fd ret => exact h.dup hs
  | pipe2 flags ret => exact h.pipe2 hs
  | fcntl fd cmd flags ret => exact h.fcntl hk hs
  | close fd =>
    rw [← Option.some.inj hs]
    exact h.close fd

theorem harmless_of_step {a : Action} (hs : BlockingMode.step s a = some s') (hr : Right s') :
    Harmless s a := by
  cases a with
  | fcntl fd cmd flags ret => exact harmless_of_right hs hr
  | socket type ret => trivial
  | accept4 fd flags ret => trivial
  | dup fd ret => trivial
  | pipe2 flags ret => trivial
  | close fd => trivial

end Steps

/-- MAIN: all along a sequence of calls the mode of every descriptor is right, and the kernel gets what it
    is given, exactly if every command other than `F_SETFL` is harmless. -/
theorem blocking_mode {k : Kernel} {as : List Action} {s : State}
    (he : exec (system k) (boot k) as = some s) :
    Along (system k) Right (boot k) as ↔ Run (system k) Harmless as s :=
  along_iff_run (fun _ => Iff.rfl) (Inv.boot k) (fun _ => Inv.right)
    (fun _ _ _ hinv hk hs => hinv.step hk hs) (fun _ _ _ _ hs hr => harmless_of_step hs hr) he

/-- Nothing is open. -/
def bare : Kernel := ⟨fun _ => none, fun _ => false, 0, nofun⟩

/-- A socket, a duplicate that is made non-blocking, and the end of the first. -/
theorem blocking_mode_dup :
    Along (system bare) Right (boot bare)
      [.socket 1 (some 3), .dup 3 (some 4), .fcntl 4 F_SETFL O_NONBLOCK (some 0), .close 3] := by
  have h0 : Run (system bare) Harmless [] (boot bare) := .start rfl
  have hsetfl : ∀ s, Harmless s (.fcntl 4 F_SETFL O_NONBLOCK (some 0)) := fun _ hcmd => absurd rfl hcmd
  have h1 := h0.step (show Harmless _ (.socket 1 (some 3)) from trivial) rfl
  have h2 := h1.step (show Harmless _ (.dup 3 (some 4)) from trivial) rfl
  have h4 := (h2.step (hsetfl _) rfl).step (show Harmless _ (.close 3) from trivial) rfl
  exact (blocking_mode rfl).mpr h4

/-- A non-blocking socket is taken for a blocking one when its flags are asked for. -/
theorem getfl_blocks : ¬ ∀ {k : Kernel} {as : List Action} {s : State},
    exec (system k) (boot k) as = some s → Along (system k) Right (boot k) as := by
  intro h
  have hall : Along (system bare) Right (boot bare)
      [.socket (1 ||| SOCK_NONBLOCK) (some 3), .fcntl 3 F_GETFL 0 (some 0x802)] := h rfl
  have hright := (hall.2 _ rfl).2 _ rfl
  have hmode := hright.mode 3 true rfl rfl
  cases hmode

end Libfibre.EventScope.BlockingMode
