import Libfibre.Schemes.Transition
import Libfibre.Schemes.LinkedList

/-! `QueueMCS` and `QueueNemesis` (`LockFreeQueues.h`). Each atomic instruction and each access to `head`,
    `tail` and `Next` is one step; a round of a spin loop is one step as well.

        push:  out ─▶ swing ─▶ link ─▶ out
        pop:   out ─▶ lock ─▶ load ─▶ loadNext ─▶ setHead ─▶ unlock ─▶ clear ─▶ out
                                │                              │
                                └─▶ leave ─▶ out               └─▶ cas
               cas ─▶ wait ─▶ read ─▶ invalidate ─▶ fixHead ─▶ out

    Any thread may push and pop. The history keeps who may use each element, the elements in the order of
    the tail exchanges and in the order in which lock sections have taken them. -/

namespace Libfibre.QueueNemesis
open Transition LinkedList

/-- Where a thread is; `prev`, `elem` and `next` are the locals of these names. -/
inductive Pc (N : Type) where
  | out
  | swing (first : N) (rest : List N)           -- the segment is not empty
  | link (prev : Option N) (first : N)
  | lock
  | load
  | leave
  | loadNext (elem : N)
  | setHead (elem : N) (next : Option N)
  | unlock (elem : N) (next : Option N)
  | clear (elem : N)
  | cas (elem : N)                              -- from here on in `QueueMCS::pop`
  | wait (elem : N)
  | read (elem : N)
  | invalidate (elem : N) (next : Option N)
  | fixHead (elem : N) (next : Option N)
  deriving DecidableEq

/-- Who may use an element. -/
inductive Owner (T : Type) where
  | free
  | pushing (t : T)
  | queued
  | popping (t : T)
  deriving DecidableEq

inductive Result (N : Type) where
  | pushed (wasEmpty : Bool)
  | popped (elem : Option N)
  deriving DecidableEq

structure State (N T : Type) where
  head : Option N
  tail : Option N
  next : N → Option N
  lock : Option T
  pc : T → Pc N
  result : T → Option (Result N)   -- of the latest call
  owner : N → Owner T              -- history
  pushed : List N                  -- history: by tail exchanges
  popped : List N                  -- history: by lock sections
  took : T → Option N              -- history: what the latest lock section has taken

inductive Action (N T : Type) where
  | push (t : T) (first : N) (rest : List N)
  | pop (t : T)
  | next (t : T)                   -- the next step of the call of `t`

variable {N T : Type} [DecidableEq N] [DecidableEq T]

def State.goto (s : State N T) (t : T) (p : Pc N) : State N T :=
  { s with pc := Function.update s.pc t p }

def State.returns (s : State N T) (t : T) (r : Result N) : State N T :=
  State.goto { s with result := Function.update s.result t (some r) } t .out

/-- `pop` returns `elem`. -/
def State.returnElem (s : State N T) (t : T) (elem : N) : State N T :=
  State.returns { s with owner := Function.update s.owner elem .free } t (.popped (some elem))

/-- One step of thread `t` in `push` or `pop`. -/
def next (s : State N T) (t : T) : Option (State N T) :=
  match s.pc t with
  | .out => none
  | .swing first rest =>
    some (State.goto { s with
      tail := (first :: rest).getLast?
      pushed := s.pushed ++ first :: rest
      owner := updateAll s.owner (first :: rest) .queued } t (.link s.tail first))
  | .link none first => some (State.returns { s with head := some first } t (.pushed true))
  | .link (some prev) first =>
    some (State.returns { s with next := Function.update s.next prev (some first) } t (.pushed false))
  | .lock => if s.lock = none then some (State.goto { s with lock := some t } t .load) else none
  | .load =>
    match s.head with
    | none => some (State.goto { s with took := Function.update s.took t none } t .leave)
    | some elem =>
      some (State.goto { s with
        popped := s.popped ++ [elem]
        took := Function.update s.took t (some elem)
        owner := Function.update s.owner elem (.popping t) } t (.loadNext elem))
  | .leave => some (State.returns { s with lock := none } t (.popped none))
  | .loadNext elem => some (s.goto t (.setHead elem (s.next elem)))
  | .setHead elem next => some (State.goto { s with head := next } t (.unlock elem next))
  | .unlock elem (some _) => some (State.goto { s with lock := none } t (.clear elem))
  | .unlock elem none => some (State.goto { s with lock := none } t (.cas elem))
  | .clear elem =>
    some (State.returnElem { s with next := Function.update s.next elem none } t elem)
  | .cas elem =>
    if s.tail = some elem then some (State.returnElem { s with tail := none } t elem)
    else some (s.goto t (.wait elem))
  | .wait elem => some (if s.next elem = none then s else s.goto t (.read elem))
  | .read elem => some (s.goto t (.invalidate elem (s.next elem)))
  | .invalidate elem next =>
    some (State.goto { s with next := Function.update s.next elem none } t (.fixHead elem next))
  | .fixHead elem next =>
    some (State.returnElem { s with head := if next.isSome then next else s.head } t elem)

/-- One step; the caller of `push` has linked its segment up before. -/
def step (s : State N T) : Action N T → Option (State N T)
  | .push t first rest =>
    if s.pc t = .out ∧ (first :: rest).Nodup ∧ ∀ n ∈ first :: rest, s.owner n = .free then
      some (State.goto { s with
        next := prelink s.next (first :: rest)
        owner := updateAll s.owner (first :: rest) (.pushing t) } t (.swing first rest))
    else none
  | .pop t => if s.pc t = .out then some (s.goto t .lock) else none
  | .next t => next s t

def State.init : State N T where
  head := none
  tail := none
  next _ := none
  lock := none
  pc _ := .out
  result _ := none
  owner _ := .free
  pushed := []
  popped := []
  took _ := none

def system (N T : Type) [DecidableEq N] [DecidableEq T] : System (State N T) (Action N T) :=
  ⟨fun s => s = .init, step⟩

end Libfibre.QueueNemesis
