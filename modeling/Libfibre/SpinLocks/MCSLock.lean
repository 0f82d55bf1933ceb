import Libfibre.Schemes.LinkedList
import Libfibre.Schemes.Transition

/-! `MCSLock` (`SpinLocks.h`). Each atomic instruction and each access to `tail`, `next` and `wait` is one
    step; a round of a spin loop is one step as well.

        acquire:     out ─▶ clear ─▶ swing ─▶ arm ─▶ link ─▶ spin ─▶ held
                                       └──────────────────────────────▲
        tryAcquire:  out ─▶ tryClear ─▶ test ─▶ cas ──────────────────┘
                      ▲                   │      │
                      └───────────────────┴──────┘
        release:     held ─▶ assert ─▶ casNull ─▶ await ─▶ readNext ─▶ wake ─▶ out
                                          └───────────────────────────────────▲

    A party is one user of the lock with one node; the node is its own from the call that takes it until
    `tryAcquire` has failed or `release` has returned, and then anybody's. -/

namespace Libfibre.MCSLock
open Transition LinkedList

/-- Where a party is; `prev` is the local of that name, `succ` is what `n.next` was read as. -/
inductive Pc (N : Type) where
  | out
  | clear
  | swing
  | arm (prev : N)
  | link (prev : N)
  | spin
  | tryClear
  | test
  | cas
  | held
  | assert
  | casNull
  | await
  | readNext
  | wake (succ : N)
  deriving DecidableEq

/-- It has obtained the lock and not given it up. -/
def Pc.holds : Pc N → Bool
  | .held | .assert | .casNull | .await | .readNext | .wake _ => true
  | _ => false

structure State (N T : Type) where
  tail : Option N
  next : N → Option N
  wait : N → Bool
  pc : T → Pc N
  node : T → N               -- the node of the latest call
  user : N → Option T        -- history: whose call has the node
  swung : List T             -- history: by successful tail operations
  obtained : List T          -- history: by obtaining the lock

inductive Action (N T : Type) where
  | acquire (t : T) (n : N)
  | tryAcquire (t : T) (n : N)
  | release (t : T)
  | next (t : T)             -- the next step of the call of `t`

variable {N T : Type} [DecidableEq N] [DecidableEq T]

def State.goto (s : State N T) (t : T) (p : Pc N) : State N T :=
  { s with pc := Function.update s.pc t p }

/-- A call takes the node `n`. -/
def State.call (s : State N T) (t : T) (n : N) (p : Pc N) : State N T :=
  State.goto { s with node := Function.update s.node t n, user := Function.update s.user n (some t) } t p

/-- A call is done with its node. -/
def State.leave (s : State N T) (t : T) : State N T :=
  State.goto { s with user := Function.update s.user (s.node t) none } t .out

def State.obtain (s : State N T) (t : T) : State N T :=
  State.goto { s with obtained := s.obtained ++ [t] } t .held

/-- One step of party `t` in `acquire`, `tryAcquire` or `release`. -/
def next (s : State N T) (t : T) : Option (State N T) :=
  match s.pc t with
  | .out | .held => none
  | .clear => some (State.goto { s with next := Function.update s.next (s.node t) none } t .swing)
  | .swing =>
    let swung := { s with tail := some (s.node t), swung := s.swung ++ [t] }
    match s.tail with
    | none => some (swung.obtain t)
    | some prev => some (swung.goto t (.arm prev))
  | .arm prev =>
    some (State.goto { s with wait := Function.update s.wait (s.node t) true } t (.link prev))
  | .link prev =>
    some (State.goto { s with next := Function.update s.next prev (some (s.node t)) } t .spin)
  | .spin => if s.wait (s.node t) then some s else some (s.obtain t)
  | .tryClear => some (State.goto { s with next := Function.update s.next (s.node t) none } t .test)
  | .test => if s.tail = none then some (s.goto t .cas) else some (s.leave t)
  | .cas =>
    if s.tail = none then
      some (State.obtain { s with tail := some (s.node t), swung := s.swung ++ [t] } t)
    else some (s.leave t)
  | .assert => if s.tail = none then none else some (s.goto t .casNull)
  | .casNull =>
    if s.tail = some (s.node t) then some (State.leave { s with tail := none } t)
    else some (s.goto t .await)
  | .await => if s.next (s.node t) = none then some s else some (s.goto t .readNext)
  | .readNext => (s.next (s.node t)).map fun succ => s.goto t (.wake succ)
  | .wake succ => some (State.leave { s with wait := Function.update s.wait succ false } t)

def step (s : State N T) : Action N T → Option (State N T)
  | .acquire t n => if s.pc t = .out ∧ s.user n = none then some (s.call t n .clear) else none
  | .tryAcquire t n => if s.pc t = .out ∧ s.user n = none then some (s.call t n .tryClear) else none
  | .release t => if s.pc t = .held then some (s.goto t .assert) else none
  | .next t => next s t

/-- A new lock, over any memory. -/
def mcsLock : System (State N T) (Action N T) where
  init s := s.tail = none ∧ (∀ t, s.pc t = .out) ∧ (∀ n, s.user n = none) ∧ s.swung = [] ∧
    s.obtained = []
  step := step

end Libfibre.MCSLock
