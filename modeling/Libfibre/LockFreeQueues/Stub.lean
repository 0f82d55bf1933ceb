import Libfibre.Schemes.Transition
import Libfibre.Schemes.LinkedList

/-! `QueueStub` (`LockFreeQueues.h`), for both values of `Blocking`. Each atomic instruction and each access
    to `head`, `tail` and `Next` is one step; a round of a spin loop is one step for each of its accesses.

        push:  out ─▶ swing ─▶ link ─▶ out
        pop:   out ─▶ lock ─▶ check ─▶ test ─▶ waitStub ─▶ readStub ─▶ setStub ─▶ clearStub ─▶ reSwing
                                │        │                                                      │
                                │        └─▶ leave ─▶ out                                       ▼
                                └─▶ loadHead ◀─────────────────────────────────────────────── reLink
                      loadHead ─▶ waitHead ⇄ waitNext ─▶ readHead ─▶ readNext ─▶ setHead ─▶ unlock
                      unlock ─▶ clear ─▶ out

    The history keeps who may use each element, the elements in the order of the tail exchanges and in the
    order in which lock sections have taken them, and whether the queue has been marked since the
    latest push. -/

namespace Libfibre.QueueStub
open Transition LinkedList

/-- A node of the queue. -/
inductive Node (N : Type) where
  | stub
  | elem (n : N)
  deriving DecidableEq

/-- The pointer `tail`, with its lowest bit. -/
structure Tail (N : Type) where
  node : Node N
  marked : Bool
  deriving DecidableEq

/-- Where a thread is; `prev`, `empty` and `retval` are the locals of these names, `next` and `h` are what
    it has read from `Next` and `head`. -/
inductive Pc (N : Type) where
  | out
  | swing (first : N) (rest : List N)           -- the segment is not empty
  | link (prev : Node N) (first : N) (empty : Bool)
  | lock
  | check                                       -- here begins `checkStub`
  | test
  | leave
  | waitStub
  | readStub
  | setStub (next : Option (Node N))
  | clearStub
  | reSwing
  | reLink (prev : Node N)
  | loadHead
  | waitHead (retval : Node N)
  | waitNext (retval h : Node N)
  | readHead (retval : Node N)
  | readNext (retval h : Node N)
  | setHead (retval : Node N) (next : Option (Node N))
  | unlock (retval : Node N)
  | clear (retval : Node N)
  deriving DecidableEq

/-- Who may use an element. -/
inductive Owner (T : Type) where
  | free
  | pushing (t : T)
  | queued
  | popping (t : T)
  deriving DecidableEq

inductive Result (N : Type) where
  | pushed (empty : Bool)
  | popped (elem : Option (Node N))
  deriving DecidableEq

structure State (N T : Type) where
  head : Option (Node N)
  tail : Tail N
  next : Node N → Option (Node N)
  lock : Option T
  pc : T → Pc N
  result : T → Option (Result N)   -- of the latest call
  owner : N → Owner T              -- history
  pushed : List N                  -- history: by tail exchanges
  popped : List (Node N)           -- history: by lock sections
  took : T → Option (Node N)       -- history: what the latest lock section has taken
  fresh : Bool                     -- history: marked empty, and no push since
  due : T → Bool                   -- history: the latest push is the first since a mark

inductive Action (N T : Type) where
  | push (t : T) (first : N) (rest : List N)
  | pop (t : T)
  | next (t : T)                   -- the next step of the call of `t`

variable {N T : Type} [DecidableEq N] [DecidableEq T]

def State.goto (s : State N T) (t : T) (p : Pc N) : State N T :=
  { s with pc := Function.update s.pc t p }

def State.returns (s : State N T) (t : T) (r : Result N) : State N T :=
  State.goto { s with result := Function.update s.result t (some r) } t .out

/-- Who may use the node that a pop has taken or given back. -/
def giveTo (owner : N → Owner T) : Node N → Owner T → N → Owner T
  | .elem n, o => Function.update owner n o
  | .stub, _ => owner

section Code
variable (blocking : Bool)

/-- Is the tail marked? The mark is only looked at in a blocking queue. -/
def Tail.empty (tail : Tail N) : Bool := blocking && tail.marked

/-- The test of `checkStub` on the tail, with the mark that it may leave. -/
def test (s : State N T) (t : T) : State N T :=
  if blocking then
    if s.tail = ⟨.stub, false⟩ then
      State.goto { s with
        tail := ⟨.stub, true⟩
        fresh := true
        took := Function.update s.took t none } t .leave
    else if s.tail.marked then State.goto { s with took := Function.update s.took t none } t .leave
    else s.goto t .waitStub
  else if s.tail = ⟨.stub, false⟩ then
    State.goto { s with took := Function.update s.took t none } t .leave
  else s.goto t .waitStub

/-- One step of thread `t` in `push` or `pop`. -/
def next (s : State N T) (t : T) : Option (State N T) :=
  match s.pc t with
  | .out => none
  | .swing first rest =>
    some (State.goto { s with
      tail := ⟨.elem ((first :: rest).getLast (List.cons_ne_nil first rest)), false⟩
      pushed := s.pushed ++ first :: rest
      owner := updateAll s.owner (first :: rest) .queued
      fresh := false
      due := Function.update s.due t s.fresh } t (.link s.tail.node first (s.tail.empty blocking)))
  | .link prev first empty =>
    some (State.returns { s with next := Function.update s.next prev (some (.elem first)) } t
      (.pushed empty))
  | .lock => if s.lock = none then some (State.goto { s with lock := some t } t .check) else none
  | .check => some (s.goto t (if s.head = some .stub then .test else .loadHead))
  | .test => some (test blocking s t)
  | .leave => some (State.returns { s with lock := none } t (.popped none))
  | .waitStub => some (if s.next .stub = none then s else s.goto t .readStub)
  | .readStub => some (s.goto t (.setStub (s.next .stub)))
  | .setStub next => some (State.goto { s with head := next } t .clearStub)
  | .clearStub => some (State.goto { s with next := Function.update s.next .stub none } t .reSwing)
  | .reSwing => some (State.goto { s with tail := ⟨.stub, false⟩ } t (.reLink s.tail.node))
  | .reLink prev =>
    some (State.goto { s with next := Function.update s.next prev (some .stub) } t .loadHead)
  | .loadHead => s.head.map fun h => s.goto t (.waitHead h)
  | .waitHead retval => s.head.map fun h => s.goto t (.waitNext retval h)
  | .waitNext retval h =>
    some (s.goto t (if s.next h = none then .waitHead retval else .readHead retval))
  | .readHead retval => s.head.map fun h => s.goto t (.readNext retval h)
  | .readNext retval h =>
    some (State.goto { s with
      popped := s.popped ++ [retval]
      took := Function.update s.took t (some retval)
      owner := giveTo s.owner retval (.popping t) } t (.setHead retval (s.next h)))
  | .setHead retval next => some (State.goto { s with head := next } t (.unlock retval))
  | .unlock retval => some (State.goto { s with lock := none } t (.clear retval))
  | .clear retval =>
    some (State.returns { s with
      next := Function.update s.next retval none
      owner := giveTo s.owner retval .free } t (.popped (some retval)))

/-- One step; the caller of `push` has linked its segment up before. -/
def step (s : State N T) : Action N T → Option (State N T)
  | .push t first rest =>
    if s.pc t = .out ∧ (first :: rest).Nodup ∧ ∀ n ∈ first :: rest, s.owner n = .free then
      some (State.goto { s with
        next := prelink s.next ((first :: rest).map .elem)
        owner := updateAll s.owner (first :: rest) (.pushing t) } t (.swing first rest))
    else none
  | .pop t => if s.pc t = .out then some (s.goto t .lock) else none
  | .next t => next blocking s t

def State.init : State N T where
  head := some .stub
  tail := ⟨.stub, blocking⟩
  next _ := none
  lock := none
  pc _ := .out
  result _ := none
  owner _ := .free
  pushed := []
  popped := []
  took _ := none
  fresh := blocking
  due _ := false

def system (N T : Type) [DecidableEq N] [DecidableEq T] : System (State N T) (Action N T) :=
  ⟨fun s => s = .init blocking, step blocking⟩

end Code

end Libfibre.QueueStub
