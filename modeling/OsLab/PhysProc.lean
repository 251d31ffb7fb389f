import OsLab.CString
import OsLab.Phys

/-!
# Creating processes in physical memory

`freeproc`, `allocproc`, `kfork` and `clone` on the process table as `proc.h`
declares it: page tables and trapframes are pointers to pages, open files and
the current directory are references that the file system counts.
-/

namespace OsLab

structure Context where
  ra : Word
  sp : Word
  s : Fin 12 → Word

structure PhysProc where
  state : ProcState
  chan : Word
  killed : Int
  xstate : Int
  pid : Int
  parent : Option Slot
  kstack : Word
  sz : Nat
  pagetable : Option Page
  trapframe : Option Page
  context : Context
  ofile : Nat → Option Nat
  cwd : Option Nat
  name : Nat → Byte
  isThread : Bool
  alarmInterval : Int
  alarmTicks : Int
  alarmHandler : Word
  alarmTrapframe : Option Page
  alarmActive : Bool

/-- Memory, the process table and the reference counts of files and inodes. `forkret` is the address
of that function. -/
structure PhysKernel where
  mem : Phys
  proc : Slot → PhysProc
  nextpid : BitVec 32
  fileRef : Nat → Int
  inodeRef : Nat → Int
  forkret : Word

abbrev Pk := Mach Halt PhysKernel

namespace PhysKernel

def lift {α : Type} (x : Pm α) : Pk α := fun σ =>
  match x σ.mem with
  | .error e => .error e
  | .ok (a, m) => .ok (a, { σ with mem := m })

def getProc (i : Slot) : Pk PhysProc := fun σ => .ok (σ.proc i, σ)

def setProc (i : Slot) (f : PhysProc → PhysProc) : Pk Unit :=
  Mach.modify fun σ => { σ with proc := Function.update σ.proc i (f (σ.proc i)) }

/-! ## Slots -/

def kfreePage : Option Page → Pm Unit
  | none => pure ()
  | some pa => Phys.kfree pa

/-- What `freeproc` leaves in the slot. The name is cut, and `is_thread`, the files and the context
stay. -/
def cleared (p : PhysProc) : PhysProc :=
  { p with
    trapframe := none, alarmTrapframe := none, pagetable := none, sz := 0, pid := 0, parent := none
    name := Function.update p.name 0 0, chan := 0, killed := 0, xstate := 0, state := .unused
    alarmInterval := 0, alarmTicks := 0, alarmHandler := 0, alarmActive := false }

def freePages (p : PhysProc) : Pm Unit := do
  kfreePage p.trapframe
  kfreePage p.alarmTrapframe
  match p.pagetable with
  | none => pure ()
  | some pt => if p.isThread then Phys.threadFreepagetable pt p.sz else Phys.procFreepagetable pt p.sz

def freeproc (i : Slot) : Pk Unit := do
  let p ← getProc i
  lift (freePages p)
  setProc i cleared

def findUnused (σ : PhysKernel) : Option Slot :=
  (List.finRange 64).find? fun i => (σ.proc i).state = .unused

def allocTable (j : Slot) (pa : Page) : Pk (Option Slot) := do
  let pt ← lift (Phys.procPagetable pa)
  setProc j fun p => { p with pagetable := pt }
  match pt with
  | none => do
    freeproc j
    pure none
  | some _ => do
    let σ ← Mach.get
    setProc j fun p => { p with
      context := ⟨σ.forkret, p.kstack + BitVec.ofNat 64 pgSize, fun _ => 0⟩
      alarmInterval := 0, alarmTicks := 0, alarmHandler := 0
      alarmTrapframe := none, alarmActive := false }
    pure (some j)

def allocPages (j : Slot) : Pk (Option Slot) := do
  let tf ← lift Phys.kalloc
  setProc j fun p => { p with trapframe := tf }
  match tf with
  | none => do
    freeproc j
    pure none
  | some pa => allocTable j pa

def allocproc : Pk (Option Slot) := do
  let σ ← Mach.get
  match σ.findUnused with
  | none => pure none
  | some j => do
    setProc j fun p => { p with pid := σ.nextpid.toInt, isThread := false, state := .used }
    Mach.modify fun σ => { σ with nextpid := σ.nextpid + 1 }
    allocPages j

/-! ## Files -/

def filedup (f : Nat) : Pk Unit := fun σ =>
  if σ.fileRef f < 1 then .error .filedup
  else .ok ((), { σ with fileRef := Function.update σ.fileRef f (σ.fileRef f + 1) })

def idup (ip : Option Nat) : Pk Unit := do
  let n ← Mach.deref (.panic .null) ip
  Mach.modify fun σ => { σ with inodeRef := Function.update σ.inodeRef n (σ.inodeRef n + 1) }

def dupFiles (i j : Slot) : Pk Unit :=
  Mach.upTo 16 fun fd => do
    let p ← getProc i
    match p.ofile fd with
    | none => pure ()
    | some f => do
      filedup f
      setProc j fun np => { np with ofile := Function.update np.ofile fd (some f) }

/-! ## Fork and clone -/

def trapframeWords : Nat := 36

def copyFrame (dst src : Page) : Pm Unit :=
  Mach.modify fun m => { m with
    ram := Function.update m.ram dst fun k => if k < trapframeWords then m.ram src k else m.ram dst k }

def wordA0 : Nat := 14
def wordEpc : Nat := 3
def wordSp : Nat := 6

def create (share : Page → Page → Nat → Pm Bool) (i : Slot) : Pk (Option Slot) := do
  match ← allocproc with
  | none => pure none
  | some j => do
    let p ← getProc i
    let np ← getProc j
    let old ← Mach.deref (.panic .null) p.pagetable
    let new ← Mach.deref (.panic .null) np.pagetable
    if ← lift (share old new p.sz) then pure (some j)
    else do
      freeproc j
      pure none

def startChild (i j : Slot) (isThread : Bool) (regs : Page → Pm Unit) : Pk Int := do
  let p ← getProc i
  setProc j fun np => { np with sz := p.sz, isThread := np.isThread || isThread }
  let src ← Mach.deref (.panic .null) p.trapframe
  let np ← getProc j
  let dst ← Mach.deref (.panic .null) np.trapframe
  lift (copyFrame dst src)
  lift (regs dst)
  dupFiles i j
  idup p.cwd
  setProc j fun np => { np with cwd := p.cwd, name := safestrcpy np.name 0 p.name 16 }
  let np ← getProc j
  setProc j fun np => { np with parent := some i }
  setProc j fun np => { np with state := .runnable }
  pure np.pid

def newproc (share : Page → Page → Nat → Pm Bool) (isThread : Bool) (regs : Page → Pm Unit) (i : Slot) :
    Pk Int := do
  match ← create share i with
  | none => pure (-1)
  | some j => startChild i j isThread regs

def kfork : Slot → Pk Int :=
  newproc Phys.uvmcopy false fun tf => Phys.store tf wordA0 0

def clone (fcn arg stack : Word) : Slot → Pk Int :=
  newproc Phys.uvmmirror true fun tf => do
    Phys.store tf wordA0 arg
    Phys.store tf wordEpc fcn
    Phys.store tf wordSp stack

end PhysKernel

end OsLab
