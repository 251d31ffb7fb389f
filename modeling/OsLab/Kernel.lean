import Mathlib.Data.List.FinRange
import OsLab.Proc

/-!
# The kernel as a machine of traps

The process table, the free list and what a trap from user mode does to them:
`allocproc`, `kfork`, `clone`, `kexit`, `kwait`, `kwaitpid`, `kkill`, the alarm
functions, `syscall` and `usertrap`. A trap runs as one step, and the steps of
different processes interleave in any order.
-/

namespace OsLab

/-- The kernel state. `backups` and `released` are ghosts: the pages that were
ever allocated for an alarm backup, and the backups that were freed. `nextpid` goes
on where the `int` of the source wraps, after 2^31 - 2 creations. -/
structure Kernel where
  freelist : List Page
  proc : Slot → Proc
  nextpid : Int
  initproc : Slot
  backups : List Page
  released : List Page

abbrev Km := Mach Panic Kernel

namespace Kernel

def setProc (k : Kernel) (i : Slot) (p : Proc) : Kernel :=
  { k with proc := Function.update k.proc i p }

def lift {α : Type} (x : Vm α) : Km α := fun k =>
  match x k.freelist with
  | .error e => .error e
  | .ok (a, free) => .ok (a, { k with freelist := free })

def getProc (i : Slot) : Km Proc := fun k => .ok (k.proc i, k)

def put (i : Slot) (p : Proc) : Km Unit := Mach.modify fun k => k.setProc i p

def update {α : Type} (i : Slot) (f : Proc → Vm (α × Proc)) : Km α := do
  let p ← getProc i
  let (a, p) ← lift (f p)
  put i p
  pure a

def findSlot (k : Kernel) (test : Proc → Bool) : Option Slot :=
  (List.finRange 64).find? fun i => test (k.proc i)

/-! ## Creating and freeing processes -/

def freeproc (i : Slot) : Km Unit := do
  let p ← getProc i
  let q ← lift p.freeproc
  put i q
  Mach.modify fun k =>
    { k with released := (p.alarmTrapframe.map Frame.page).toList ++ k.released }

def allocPages (j : Slot) : Km (Option Slot) := do
  match ← lift kalloc with
  | none => do
    freeproc j
    pure none
  | some pa =>
    let p ← getProc j
    let p := { p with trapframe := some ⟨pa, Trapframe.junk⟩ }
    put j p
    match ← lift (procPagetable pa) with
    | none => do
      freeproc j
      pure none
    | some pt => do
      put j { p with
        pagetable := some pt
        alarmInterval := 0, alarmTicks := 0, alarmHandler := 0
        alarmTrapframe := none, alarmActive := false }
      pure (some j)

def allocproc : Km (Option Slot) := do
  let k ← Mach.get
  match k.findSlot fun p => p.state = .unused with
  | none => pure none
  | some j =>
    put j { k.proc j with pid := k.nextpid, isThread := false, state := .used }
    Mach.modify fun k => { k with nextpid := k.nextpid + 1 }
    allocPages j

def startChild (i j : Slot) (sz : Nat) (isThread : Bool) (regs : Trapframe) : Km Int := do
  let np ← getProc j
  let tf ← Mach.deref .null np.trapframe
  put j { np with
    sz := sz, isThread := isThread, trapframe := some { tf with regs := regs }
    parent := some i, state := .runnable }
  pure np.pid

/-- What `kfork` and `clone` share: a new process whose memory `share` makes
from the parent's and whose registers `regs` makes from the parent's. -/
def newproc (share : PageTable → PageTable → Nat → Vm (Bool × PageTable)) (isThread : Bool)
    (regs : Trapframe → Trapframe) (i : Slot) : Km Int := do
  match ← allocproc with
  | none => pure (-1)
  | some j =>
    let p ← getProc i
    let np ← getProc j
    let old ← Mach.deref .null p.pagetable
    let new ← Mach.deref .null np.pagetable
    let (ok, new) ← lift (share old new p.sz)
    put j { np with pagetable := some new }
    if ok then do
      let tf ← Mach.deref .null p.trapframe
      startChild i j p.sz isThread (regs tf.regs)
    else do
      freeproc j
      pure (-1)

def kfork : Slot → Km Int :=
  newproc uvmcopy false fun tf => tf.set .a0 0

def clone (fcn arg stack : Word) : Slot → Km Int :=
  newproc uvmmirror true fun tf => { (tf.set .a0 arg).set .sp stack with epc := fcn }

/-! ## Exit and wait -/

def reparent (i : Slot) (k : Kernel) : Kernel :=
  { k with proc := fun j =>
      if (k.proc j).parent = some i then { k.proc j with parent := some k.initproc } else k.proc j }

def kexit (i : Slot) (status : Int) : Km Unit := do
  let k ← Mach.get
  if i = k.initproc then Mach.fail .initExiting
  else do
    Mach.modify (reparent i)
    let p ← getProc i
    put i { p with xstate := status, state := .zombie }

def zombieChild (k : Kernel) (i : Slot) (wanted : Proc → Bool) : Option Slot :=
  k.findSlot fun p => p.parent = some i ∧ wanted p ∧ p.state = .zombie

/-- The loop that `kwait` and `kwaitpid` share, over the children that pass
`wanted`. The result is `none` when the caller has to sleep. -/
def waitFor (i : Slot) (wanted : Proc → Bool) (addr : Nat) (nohang : Bool) :
    Km (Option Int) := do
  let k ← Mach.get
  match k.zombieChild i wanted with
  | some z =>
    let ok ← if addr = 0 then pure true else update i fun p => p.copyout addr 4
    if ok then do
      freeproc z
      pure (some (k.proc z).pid)
    else pure (some (-1))
  | none =>
    if (k.findSlot fun p => p.parent = some i ∧ wanted p).isNone ∨ (k.proc i).killed then
      pure (some (-1))
    else if nohang then pure (some 0)
    else pure none

def kwait (i : Slot) (addr : Nat) : Km (Option Int) :=
  waitFor i (fun _ => true) addr false

def isTarget (target : Int) (p : Proc) : Bool := ¬ (target > 0 ∧ p.pid ≠ target)

def kwaitpid (i : Slot) (target : Int) (addr : Nat) (options : Int) : Km (Option Int) :=
  waitFor i (isTarget target) addr (options = 1)

def kkill (pid : Int) : Km Int := do
  let k ← Mach.get
  match k.findSlot fun p => p.pid = pid with
  | none => pure (-1)
  | some j => do
    let p := k.proc j
    put j { p with
      killed := true, state := if p.state = .sleeping then .runnable else p.state }
    pure 0

/-! ## Alarms -/

def alarmReturn (i : Slot) : Km Int := do
  let p ← getProc i
  let tf ← Mach.deref .null p.trapframe
  let saved ← Mach.deref .null p.alarmTrapframe
  lift (kfree saved.page)
  put i { p with
    trapframe := some { tf with regs := saved.regs }
    alarmTrapframe := none, alarmActive := false, alarmTicks := 0 }
  Mach.modify fun k => { k with released := saved.page :: k.released }
  pure 0

def fireAlarm (i : Slot) : Km Unit := do
  let p ← getProc i
  let tf ← Mach.deref .null p.trapframe
  match ← lift kalloc with
  | none => put i { p with alarmTrapframe := none }
  | some pa => do
    put i { p with
      alarmTrapframe := some ⟨pa, tf.regs⟩
      trapframe := some { tf with regs := { tf.regs with epc := p.alarmHandler } }
      alarmActive := true, alarmTicks := 0 }
    Mach.modify fun k => { k with backups := pa :: k.backups }

def alarmTick (i : Slot) : Km Unit := do
  let p ← getProc i
  if p.alarmInterval > 0 ∧ p.alarmActive = false then do
    put i { p with alarmTicks := p.alarmTicks + 1 }
    if p.alarmTicks + 1 ≥ p.alarmInterval then fireAlarm i else pure ()
  else pure ()

/-! ## System calls -/

/-- A system call with its arguments. `other` are the calls that touch no
process but the caller: what they return, and the user addresses whose pages
their `copyin` and `copyout` make present. -/
inductive Call
  | fork
  | exit (status : Int)
  | wait (addr : Nat)
  | kill (pid : Int)
  | exec (img : Option Image) (args : List ExecArg)
  | sbrk (n t : Int)
  | waitpid (pid : Int) (addr : Nat) (options : Int)
  | clone (fcn arg stack : Word)
  | alarm (interval : Int) (handler : Word)
  | alarmReturn
  | other (ret : Int) (touch : List Nat)
  | unknown

structure Io where
  image : Option Image
  args : List ExecArg
  ret : Int
  touch : List Nat

def argint (tf : Trapframe) (r : Reg) : Int := ((tf.reg r).setWidth 32).toInt

def argaddr (tf : Trapframe) (r : Reg) : Nat := (tf.reg r).toNat

/-- The table `syscalls`, with the argument fetching of the `sys_` functions. -/
def decode (tf : Trapframe) (io : Io) : Call :=
  let num := argint tf .a7
  if num = 1 then .fork
  else if num = 2 then .exit (argint tf .a0)
  else if num = 3 then .wait (argaddr tf .a0)
  else if num = 6 then .kill (argint tf .a0)
  else if num = 7 then .exec io.image io.args
  else if num = 12 then .sbrk (argint tf .a0) (argint tf .a1)
  else if num = 22 then .waitpid (argint tf .a0) (argaddr tf .a1) (argint tf .a2)
  else if num = 24 then .clone (tf.reg .a0) (tf.reg .a1) (tf.reg .a2)
  else if num = 26 then .alarm (argint tf .a0) (tf.reg .a1)
  else if num = 28 then .alarmReturn
  else if 0 < num ∧ num < 30 then .other io.ret io.touch
  else .unknown

inductive Outcome
  | ret (v : Int)
  | gone
  | asleep

def Outcome.ofWait : Option Int → Outcome
  | none => .asleep
  | some v => .ret v

def call (i : Slot) : Call → Km Outcome
  | .fork => do return .ret (← kfork i)
  | .exit status => do
    kexit i status
    pure .gone
  | .wait addr => do return .ofWait (← kwait i addr)
  | .kill pid => do return .ret (← kkill pid)
  | .exec img args => do return .ret (← update i fun p => p.sysExec img args)
  | .sbrk n t => do return .ret (← update i fun p => p.sysSbrk n t)
  | .waitpid pid addr options => do return .ofWait (← kwaitpid i pid addr options)
  | .clone fcn arg stack => do return .ret (← clone fcn arg stack i)
  | .alarm interval handler => do
    let p ← getProc i
    put i (p.sysAlarm interval handler)
    pure (.ret 0)
  | .alarmReturn => do return .ret (← alarmReturn i)
  | .other ret touch => do
    let _ ← update i fun p => p.touchAll touch
    pure (.ret ret)
  | .unknown => pure (.ret (-1))

def setRegs (i : Slot) (f : Trapframe → Trapframe) : Km Unit := do
  let p ← getProc i
  let tf ← Mach.deref .null p.trapframe
  put i { p with trapframe := some { tf with regs := f tf.regs } }

def syscall (i : Slot) (io : Io) : Km Outcome := do
  let p ← getProc i
  let tf ← Mach.deref .null p.trapframe
  let r ← call i (decode tf.regs io)
  match r with
  | .ret v => do
    setRegs i fun tf => tf.set .a0 (BitVec.ofInt 64 v)
    pure r
  | _ => pure r

/-! ## Traps -/

inductive Cause
  | ecall (io : Io)
  | fault (va : Nat)
  | timer
  | device
  | other

/-- The branches of `usertrap` on `scause`, for a process that was not killed
before a system call. -/
def cause (i : Slot) : Cause → Km Outcome
  | .ecall io => do
    if (← getProc i).killed then do
      kexit i (-1)
      pure .gone
    else do
      setRegs i fun tf => { tf with epc := tf.epc + 4 }
      syscall i io
  | .fault va => do
    if ← update i fun p => p.vmfault va then pure (.ret 0)
    else do
      let p ← getProc i
      put i { p with killed := true }
      pure (.ret 0)
  | .timer => pure (.ret 0)
  | .device => pure (.ret 0)
  | .other => do
    let p ← getProc i
    put i { p with killed := true }
    pure (.ret 0)

/-- `uservec` and `usertrap` for process `i`, which traps with the registers
`user`. When it returns `ret`, the registers in the trapframe are those that
the process goes on with. -/
def usertrap (i : Slot) (user : Trapframe) (c : Cause) : Km Outcome := do
  setRegs i fun _ => user
  let r ← cause i c
  match r with
  | .ret _ => do
    if (← getProc i).killed then do
      kexit i (-1)
      pure .gone
    else do
      match c with
      | .timer => alarmTick i
      | _ => pure ()
      pure r
  | _ => pure r

/-! ## Runs -/

structure Trap where
  i : Slot
  user : Trapframe
  cause : Cause

/-- One trap. It needs a process that can run and a call that does not have to
sleep; it yields no state when the kernel panics. -/
def step (k : Kernel) (t : Trap) : Option Kernel :=
  if (k.proc t.i).state = .runnable ∨ (k.proc t.i).state = .running then
    match usertrap t.i t.user t.cause k with
    | .ok (.ret _, k') => some k'
    | .ok (.gone, k') => some k'
    | _ => none
  else none

def panics (k : Kernel) (t : Trap) : Option Panic :=
  if (k.proc t.i).state = .runnable ∨ (k.proc t.i).state = .running then
    match usertrap t.i t.user t.cause k with
    | .error e => some e
    | .ok _ => none
  else none

def run (k : Kernel) : List Trap → Option Kernel
  | [] => some k
  | t :: ts =>
    match step k t with
    | none => none
    | some k' => run k' ts

def zero (pages : List Page) : Kernel where
  freelist := pages
  proc := fun _ => Proc.zero
  nextpid := 1
  initproc := 0
  backups := []
  released := []

def boot (pages : List Page) (img : Option Image) (argv : List Nat) : Option Kernel :=
  match userinit (zero pages) with
  | .error _ => none
  | .ok (_, k) => some k
where
  userinit : Km Unit := do
    let i ← Mach.deref .null (← allocproc)
    Mach.modify fun k => { k with initproc := i }
    let p ← getProc i
    put i { p with state := .runnable }
    let r ← update i fun p => p.kexec img argv
    if r = -1 then Mach.fail .exec else setRegs i fun tf => tf.set .a0 (BitVec.ofInt 64 r)

/-- The states of all runs from boot, with any memory and any `/init`. -/
def Reachable (k : Kernel) : Prop :=
  ∃ pages img argv k₀ ts, pages.Nodup ∧ boot pages img argv = some k₀ ∧ run k₀ ts = some k

end Kernel

end OsLab
