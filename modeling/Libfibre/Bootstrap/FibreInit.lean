import Libfibre.Bootstrap.ParseList
import Libfibre.ProcessorRing.Placement

/-! `FibreInit` (`Bootstrap.cc`) and `EventScope::bootstrap` (`EventScope.h`): how many workers there are
    and which system thread is bound to which processor. The calling thread becomes the first worker; each
    other one is let into the ring behind it, so that the ring is

        0 ─▶ n ─▶ n - 1 ─▶ ··· ─▶ 1 ─▶ 0

    and this is the order in which the ids of their threads are read and the processors are given out. -/

namespace Libfibre.Bootstrap
open ProcessorRing LinkPath
open IntrusiveList (Holds)

variable {T : Type}

/-! ### The code -/

structure Cluster (T : Type) where
  sched : Sched ℕ
  sysThreadId : ℕ → Option T

/-- A worker is made and its thread has noted its own id; `addWorker` waits for that. -/
def Cluster.register (c : Cluster T) (worker : ℕ) (self : T) : Option (Cluster T) :=
  (addProcessor c.sched worker).map fun sched =>
    ⟨sched, Function.update c.sysThreadId worker (some self)⟩

def isspace (c : Char) : Bool := [' ', '\t', '\n', '\x0b', '\x0c', '\r'].contains c

/-- `atoi` at any text. -/
def atoiText (l : List Char) : Option ℤ :=
  match l.dropWhile isspace with
  | '-' :: ds =>
    if value (ds.takeWhile Char.isDigit) ≤ INT_MAX + 1 then some (-value (ds.takeWhile Char.isDigit))
    else none
  | '+' :: ds => (atoi (ds.takeWhile Char.isDigit)).map Int.ofNat
  | ds => (atoi (ds.takeWhile Char.isDigit)).map Int.ofNat

/-- `FibrePollerCount` and `FibreWorkerCount`: a positive number replaces the argument. -/
def count (env : Option (List Char)) (cnt : ℕ) : Option ℕ :=
  match env with
  | none => some cnt
  | some l => (atoiText l).map fun n => if 0 < n then n.toNat else cnt

variable {testing : Bool} {thread : ℕ → T} {online : ℕ → Bool} {c : Cluster T} {n : ℕ}

/-- What `setaffinity` makes of the threads and the processors that they are to be bound to. -/
def bound (testing : Bool) (online : ℕ → Bool) (pins : List (T × ℕ)) : Option (List (T × ℕ)) :=
  if testing && !pins.all (fun b => online b.2) then none else some (pins.filter fun b => online b.2)

end Libfibre.Bootstrap
