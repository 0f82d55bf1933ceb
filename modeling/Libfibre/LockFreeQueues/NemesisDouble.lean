import Libfibre.Schemes.Transition
import Libfibre.Schemes.LinkedList

/-! `NemesisDoubleQueue` (`ConditionalNemesisQueue.h`). Each atomic instruction and each access to `head`,
    `tail`, `Next` and `Prev` is one step; a round of a spin loop is one step as well. What `Check` answers is
    part of the interleaving.

        push:            out ─▶ swing ─▶ putHead ─▶ out
                                  └────▶ putPrev ─▶ putNext ─▶ out
        pop:             out ─▶ popLock ─▶ load ─▶ check ─▶ removeHead
                                             └───────┴────▶ leave ─▶ out
        remove:          out ─▶ removeLock ─▶ compare ─▶ removeHead or removeInternal
        removeHead:      loadNext ─▶ setHead ─▶ (casHead ─▶ waitHead ─▶ readHead ─▶ fixHead) ─▶ unlock
        removeInternal:  readNext ─▶ readPrev ─▶ bypass ─▶ back ─▶ unlock
                                                   └─▶ casTail
                         casTail ─▶ waitTail ─▶ readTail ─▶ backTail ─▶ linkTail ─▶ unlock
                         unlock ─▶ clear ─▶ out

    The history keeps who may use each element, and the list that the queue stands for: a push appends to
    it with its tail exchange, a pop deletes from it when `Check` accepts, a remove when it has the lock. -/

namespace Libfibre.NemesisDoubleQueue
open Transition LinkedList

/-- Who calls `removeHead` or `removeInternal`. -/
inductive Op where
  | pop
  | remove
  deriving DecidableEq

/-- Where a thread is; `prev`, `elem` and `next` are the locals of these names. -/
inductive Pc (N : Type) where
  | out
  | swing (first : N) (rest : List N)                    -- the segment is not empty
  | putHead (first : N) (rest : List N)
  | putPrev (prev first : N) (rest : List N)
  | putNext (prev first : N) (rest : List N)
  | popLock
  | load
  | check (elem : N)
  | leave
  | removeLock (elem : N)
  | compare (elem : N)
  | loadNext (op : Op) (elem : N)
  | setHead (op : Op) (elem : N) (next : Option N)
  | casHead (op : Op) (elem : N)
  | waitHead (op : Op) (elem : N)
  | readHead (op : Op) (elem : N)
  | fixHead (op : Op) (elem : N) (next : Option N)
  | readNext (elem : N)
  | readPrev (elem : N) (next : Option N)
  | bypass (elem : N) (next prev : Option N)
  | back (elem next prev : N)
  | casTail (elem prev : N)
  | waitTail (elem prev : N)
  | readTail (elem prev : N)
  | backTail (elem : N) (next : Option N) (prev : N)
  | linkTail (elem next prev : N)
  | unlock (op : Op) (elem : N)
  | clear (op : Op) (elem : N)
  deriving DecidableEq

/-- Who may use an element. -/
inductive Owner (T : Type) where
  | free
  | pushing (t : T)
  | linking (t : T)                -- in the list, its push not over
  | queued
  | taking (t : T)                 -- by a pop or a remove
  deriving DecidableEq

/-- What a call returns. -/
inductive Result (N : Type) where
  | pushed (wasEmpty : Bool)
  | popped (elem : Option N)
  | removed (elem : N)
  deriving DecidableEq

/-- The shared words, the lock, and where each thread is. -/
structure State (N T : Type) where
  head : Option N
  tail : Option N
  next : N → Option N
  prev : N → Option N
  lock : Option T
  pc : T → Pc N
  result : T → Option (Result N)   -- of the latest call
  owner : N → Owner T              -- history
  list : List N                    -- history

/-- A call begins, or goes on by one access. -/
inductive Action (N T : Type) where
  | push (t : T) (first : N) (rest : List N)
  | pop (t : T)
  | remove (t : T) (elem : N)
  | check (t : T) (accept : Bool)
  | next (t : T)                   -- any other step of the call of `t`

variable {N T : Type} [DecidableEq N] [DecidableEq T]

/-- Thread `t` goes to another place in its call. -/
def State.goto (s : State N T) (t : T) (p : Pc N) : State N T :=
  { s with pc := Function.update s.pc t p }

/-- The call of `t` returns `r`. -/
def State.returns (s : State N T) (t : T) (r : Result N) : State N T :=
  State.goto { s with result := Function.update s.result t (some r) } t .out

/-- `push` returns. -/
def State.returnPush (s : State N T) (t : T) (segment : List N) (wasEmpty : Bool) : State N T :=
  State.returns { s with owner := updateAll s.owner segment .queued } t (.pushed wasEmpty)

/-- The element leaves the list, and thread `t` goes on to take it out of the queue. -/
def State.take (s : State N T) (t : T) (elem : N) (p : Pc N) : State N T :=
  State.goto { s with
    owner := Function.update s.owner elem (.taking t)
    list := s.list.erase elem } t p

/-- What `pop` and `remove` return when they have taken `elem` out. -/
def Op.result (op : Op) (elem : N) : Result N :=
  match op with
  | .pop => .popped (some elem)
  | .remove => .removed elem

/-- One step of thread `t`; `none` also where the code would use a null pointer. -/
def next (s : State N T) (t : T) : Option (State N T) :=
  match s.pc t with
  | .out | .check _ => none
  | .swing first rest =>
    some (State.goto { s with
      tail := (first :: rest).getLast?
      owner := updateAll s.owner (first :: rest) (.linking t)
      list := s.list ++ first :: rest } t
      (match s.tail with
       | none => .putHead first rest
       | some prev => .putPrev prev first rest))
  | .putHead first rest =>
    some (State.returnPush { s with head := some first } t (first :: rest) true)
  | .putPrev prev first rest =>
    some (State.goto { s with prev := Function.update s.prev first (some prev) } t
      (.putNext prev first rest))
  | .putNext prev first rest =>
    some (State.returnPush { s with next := Function.update s.next prev (some first) } t
      (first :: rest) false)
  | .popLock => if s.lock = none then some (State.goto { s with lock := some t } t .load) else none
  | .load =>
    some (s.goto t (match s.head with
      | none => .leave
      | some elem => .check elem))
  | .leave => some (State.returns { s with lock := none } t (.popped none))
  | .removeLock elem =>
    if s.lock = none ∧ s.owner elem = .queued then
      some (State.take { s with lock := some t } t elem (.compare elem))
    else none
  | .compare elem => some (s.goto t (if s.head = some elem then .loadNext .remove elem else .readNext elem))
  | .loadNext op elem => some (s.goto t (.setHead op elem (s.next elem)))
  | .setHead op elem next =>
    some (State.goto { s with head := next } t
      (if next.isSome then .unlock op elem else .casHead op elem))
  | .casHead op elem =>
    if s.tail = some elem then some (State.goto { s with tail := none } t (.unlock op elem))
    else some (s.goto t (.waitHead op elem))
  | .waitHead op elem => some (if s.next elem = none then s else s.goto t (.readHead op elem))
  | .readHead op elem => some (s.goto t (.fixHead op elem (s.next elem)))
  | .fixHead op elem next => some (State.goto { s with head := next } t (.unlock op elem))
  | .readNext elem => some (s.goto t (.readPrev elem (s.next elem)))
  | .readPrev elem next => some (s.goto t (.bypass elem next (s.prev elem)))
  | .bypass _ _ none => none
  | .bypass elem next (some prev) =>
    some (State.goto { s with next := Function.update s.next prev next } t
      (match next with
       | some n => .back elem n prev
       | none => .casTail elem prev))
  | .back elem next prev =>
    some (State.goto { s with prev := Function.update s.prev next (some prev) } t (.unlock .remove elem))
  | .casTail elem prev =>
    if s.tail = some elem then
      some (State.goto { s with tail := some prev } t (.unlock .remove elem))
    else some (s.goto t (.waitTail elem prev))
  | .waitTail elem prev => some (if s.next elem = none then s else s.goto t (.readTail elem prev))
  | .readTail elem prev => some (s.goto t (.backTail elem (s.next elem) prev))
  | .backTail _ none _ => none
  | .backTail elem (some next) prev =>
    some (State.goto { s with prev := Function.update s.prev next (some prev) } t
      (.linkTail elem next prev))
  | .linkTail elem next prev =>
    some (State.goto { s with next := Function.update s.next prev (some next) } t
      (.unlock .remove elem))
  | .unlock op elem => some (State.goto { s with lock := none } t (.clear op elem))
  | .clear op elem =>
    some (State.returns { s with
      next := Function.update s.next elem none
      owner := Function.update s.owner elem .free } t (op.result elem))

/-- One step. The caller of `push` has linked its segment up in both directions before; an element is
    removed only if it is queued, its push being over, when the lock is taken. -/
def step (s : State N T) : Action N T → Option (State N T)
  | .push t first rest =>
    if s.pc t = .out ∧ (first :: rest).Nodup ∧ ∀ n ∈ first :: rest, s.owner n = .free then
      some (State.goto { s with
        next := prelink s.next (first :: rest)
        prev := prelink s.prev (first :: rest).reverse
        owner := updateAll s.owner (first :: rest) (.pushing t) } t (.swing first rest))
    else none
  | .pop t => if s.pc t = .out then some (s.goto t .popLock) else none
  | .remove t elem => if s.pc t = .out then some (s.goto t (.removeLock elem)) else none
  | .check t accept =>
    match s.pc t with
    | .check elem => some (if accept then s.take t elem (.loadNext .pop elem) else s.goto t .leave)
    | _ => none
  | .next t => next s t

/-- The empty queue, with no call under way. -/
def State.init : State N T where
  head := none
  tail := none
  next _ := none
  prev _ := none
  lock := none
  pc _ := .out
  result _ := none
  owner _ := .free
  list := []

/-- Any number of threads push, pop and remove. -/
def system (N T : Type) [DecidableEq N] [DecidableEq T] : System (State N T) (Action N T) :=
  ⟨fun s => s = .init, step⟩

end Libfibre.NemesisDoubleQueue
