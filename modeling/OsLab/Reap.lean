import OsLab.Wakeup
import OsLab.Machine

/-!
# Exiting and waiting

`kfork`, `clone`, `kexit` with `reparent`, `kwait` and `kwaitpid` in any
interleaving. The condition lock is `wait_lock`, and the channel is the address of
a process. Memory is left out, so `clone` does here what `kfork` does; what
`copyout` returns is an input.
-/

namespace OsLab

/-- What happens to the processes, which are numbered in the order of `allocpid`. -/
inductive Event
  | created (n : Nat) (pid : BitVec 32)
  | exited (n : Nat) (status : BitVec 32)
  | reaped (n : Nat) (caller : Slot) (parent : Option Slot) (pid status : BitVec 32)
deriving DecidableEq

def Event.number : Event → Nat
  | .created n _ | .exited n _ | .reaped n _ _ _ _ => n

/-- The process table; and, as ghosts, the number of the process in a slot, the next number,
and what has happened, newest first. -/
structure Table where
  pid : Slot → BitVec 32
  parent : Slot → Option Slot
  xstate : Slot → BitVec 32
  nextpid : BitVec 32
  number : Slot → Nat
  numbers : Nat
  log : List Event

structure WaitArgs where
  target : BitVec 32
  options : BitVec 32

/-- `kwait` scans and sleeps as `kwaitpid` does for any child. -/
def WaitArgs.kwait : WaitArgs := ⟨0, 0⟩

def WaitArgs.wants (w : WaitArgs) (pid : BitVec 32) : Prop := w.target.toInt ≤ 0 ∨ pid = w.target

instance (w : WaitArgs) (pid : BitVec 32) : Decidable (w.wants pid) :=
  inferInstanceAs (Decidable (_ ∨ _))

inductive ReapPlace
  | user
  | forkParent (np : Slot) -- before `np->parent = p`
  | forkState (np : Slot) -- before `np->state = RUNNABLE`
  | exitAcquire (status : BitVec 32)
  | reparent (status : BitVec 32) (k : Nat) -- before slot `k`
  | exitLock (status : BitVec 32) (woken : Option Slot) -- before `acquire(&p->lock)`
  | exitUnlock -- before `release(&wait_lock)`
  | exitSched
  | dead
  | waitAcquire (w : WaitArgs)
  | scan (w : WaitArgs) (k : Nat) (havekids : Bool) -- before slot `k`

/-- What a process does next in user mode, with the slot that `allocproc` finds; and what
`copyout` returns. -/
inductive ReapInput
  | fork (np : Slot)
  | clone (np : Slot)
  | noMemory (np : Slot)
  | exit (status : BitVec 32)
  | wait
  | waitpid (w : WaitArgs)
  | copyout (ok : Bool)

abbrev ReapSys := Sys (Option Slot) ReapPlace Table

namespace Reap

def initproc : Slot := 0

def allocated (s : ReapSys) (np : Slot) : ReapSys :=
  { s with
    state := Function.update s.state np .used
    data := { s.data with
      pid := Function.update s.data.pid np s.data.nextpid
      nextpid := s.data.nextpid + 1
      number := Function.update s.data.number np s.data.numbers
      numbers := s.data.numbers + 1 } }.goto np (.code .user)

def allocproc (s : ReapSys) (np : Slot) : Option ReapSys :=
  if s.state np = .unused ∧ s.plock np = false then some (allocated s np) else none

def freeproc (s : ReapSys) (k : Slot) : ReapSys := { s with
  state := Function.update s.state k .unused
  chan := Function.update s.chan k none
  killed := Function.update s.killed k false
  data := { s.data with
    pid := Function.update s.data.pid k 0
    parent := Function.update s.data.parent k none
    xstate := Function.update s.data.xstate k 0 } }

def setParent (s : ReapSys) (k : Slot) (parent : Slot) : ReapSys :=
  { s with data := { s.data with parent := Function.update s.data.parent k (some parent) } }

@[simp] theorem setParent_parent (s : ReapSys) (k parent : Slot) :
    (setParent s k parent).data.parent = Function.update s.data.parent k (some parent) := rfl

def record (s : ReapSys) (e : Event) : ReapSys :=
  { s with data := { s.data with log := e :: s.data.log } }

def fork (s : ReapSys) (i np : Slot) : Option ReapSys :=
  (allocproc s np).map fun t =>
    (record t (.created s.data.numbers s.data.nextpid)).goto i (.code (.forkParent np))

def leave (s : ReapSys) (i : Slot) : ReapSys := { s with lk := none }.goto i (.code .user)

def acquire (s : ReapSys) (i : Slot) (p : ReapPlace) : Option ReapSys :=
  if s.lk = none then some ({ s with lk := some i }.goto i (.code p)) else none

def reap (s : ReapSys) (i k : Slot) : ReapSys :=
  leave (freeproc (record s (.reaped (s.data.number k) i (s.data.parent k) (s.data.pid k)
    (s.data.xstate k))) k) i

def scanSlot (s : ReapSys) (i : Slot) (w : WaitArgs) (k : Slot) (havekids : Bool)
    (x : ReapInput) : Option ReapSys :=
  if s.data.parent k = some i ∧ w.wants (s.data.pid k) then
    if s.plock k then none
    else if s.state k = .zombie then
      match x with
      | .copyout true => some (reap s i k)
      | .copyout false => some (leave s i)
      | _ => none
    else some (s.goto i (.code (.scan w (k + 1) true)))
  else some (s.goto i (.code (.scan w (k + 1) havekids)))

def scanEnd (s : ReapSys) (i : Slot) (w : WaitArgs) (havekids : Bool) : ReapSys :=
  if havekids = false ∨ s.killed i then leave s i
  else if w.options = 1 then leave s i
  else s.goto i (.sleepLock (some i) (.scan w 0 false))

def reparentSlot (s : ReapSys) (i : Slot) (status : BitVec 32) (k : Slot) : ReapSys :=
  if s.data.parent k = some i then
    (setParent s k initproc).goto i (.wakeup (some initproc) 0 (.reparent status (k + 1)))
  else s.goto i (.code (.reparent status (k + 1)))

def becomeZombie (s : ReapSys) (i : Slot) (status : BitVec 32) : ReapSys := { s with
  plock := Function.update s.plock i true
  state := Function.update s.state i .zombie
  data := { s.data with xstate := Function.update s.data.xstate i status } }

def code (i : Slot) (p : ReapPlace) (x : ReapInput) (s : ReapSys) : Option ReapSys :=
  match p with
  | .user =>
    match x with
    | .fork np => fork s i np
    | .clone np => fork s i np
    | .noMemory np => (allocproc s np).map fun t => (freeproc t np).goto i (.code .user)
    | .exit status =>
      -- otherwise it panics
      if i = initproc then none else some (s.goto i (.code (.exitAcquire status)))
    | .wait => some (s.goto i (.code (.waitAcquire .kwait)))
    | .waitpid w => some (s.goto i (.code (.waitAcquire w)))
    | .copyout _ => none
  | .forkParent np =>
    if s.lk = none then some ((setParent s np i).goto i (.code (.forkState np))) else none
  | .forkState np =>
    if s.plock np then none
    else some ({ s with state := Function.update s.state np .runnable }.goto i (.code .user))
  | .exitAcquire status => acquire s i (.reparent status 0)
  | .reparent status k =>
    if h : k < 64 then some (reparentSlot s i status ⟨k, h⟩)
    else some (s.goto i (.wakeup (s.data.parent i) 0 (.exitLock status (s.data.parent i))))
  | .exitLock status _ =>
    if s.plock i then none
    else some ((record (becomeZombie s i status) (.exited (s.data.number i) status)).goto i
      (.code .exitUnlock))
  | .exitUnlock => some ({ s with lk := none }.goto i (.code .exitSched))
  | .exitSched => some ({ s with plock := Function.update s.plock i false }.goto i (.code .dead))
  | .dead => none
  | .waitAcquire w => acquire s i (.scan w 0 false)
  | .scan w k havekids =>
    if h : k < 64 then scanSlot s i w ⟨k, h⟩ havekids x
    else some (scanEnd s i w havekids)

def step (s : ReapSys) : Act ReapInput → Option ReapSys := s.step code

def boot : ReapSys where
  lk := none
  plock := fun _ => false
  state := fun i => if i = initproc then .runnable else .unused
  chan := fun _ => none
  killed := fun _ => false
  pc := fun _ => .code .user
  data :=
    { pid := fun i => if i = initproc then 1 else 0
      parent := fun _ => none
      xstate := fun _ => 0
      nextpid := 2
      number := fun _ => 0
      numbers := 1
      log := [] }

def held : ReapPlace → Bool
  | .reparent _ _ | .exitLock _ _ | .exitUnlock | .scan _ _ _ => true
  | _ => false

end Reap

end OsLab
