import OsLab.Vm

/-!
# Processes

The process record of `proc.h` and the functions of `proc.c` and `exec.c` that
work on one process: its page table, its size, its program.
-/

namespace OsLab

abbrev Word := BitVec 64

/-! ## Trapframes -/

inductive Reg
  | ra | sp | gp | tp | t0 | t1 | t2 | s0 | s1
  | a0 | a1 | a2 | a3 | a4 | a5 | a6 | a7
  | s2 | s3 | s4 | s5 | s6 | s7 | s8 | s9 | s10 | s11
  | t3 | t4 | t5 | t6
deriving DecidableEq

/-- The user-visible part of `struct trapframe`. The `kernel_` fields are
rewritten by `prepare_return` on every return to user mode. -/
structure Trapframe where
  epc : Word
  reg : Reg → Word

def Trapframe.set (tf : Trapframe) (r : Reg) (v : Word) : Trapframe :=
  { tf with reg := Function.update tf.reg r v }

def Trapframe.junk : Trapframe where
  epc := 0x0505050505050505
  reg := fun _ => 0x0505050505050505

structure Frame where
  page : Page
  regs : Trapframe

/-! ## The process record -/

inductive ProcState
  | unused | used | sleeping | runnable | running | zombie
deriving DecidableEq

abbrev Slot := Fin 64

-- a name for the library's instance, which the literals of `Slot` then share
instance slot_neZero : NeZero 64 := inferInstance

structure Proc where
  state : ProcState
  killed : Bool
  xstate : Int
  pid : Int
  parent : Option Slot
  sz : Nat
  pagetable : Option PageTable
  trapframe : Option Frame
  isThread : Bool
  alarmInterval : Int
  alarmTicks : Int
  alarmHandler : Word
  alarmTrapframe : Option Frame
  alarmActive : Bool

def Proc.zero : Proc where
  state := .unused
  killed := false
  xstate := 0
  pid := 0
  parent := none
  sz := 0
  pagetable := none
  trapframe := none
  isThread := false
  alarmInterval := 0
  alarmTicks := 0
  alarmHandler := 0
  alarmTrapframe := none
  alarmActive := false

/-! ## Page tables of processes -/

/-- The page of the trampoline code, outside the allocator's range. -/
def trampolinePa : Page := 0x80007

def procPagetable (tf : Page) : Vm (Option PageTable) := do
  match ← uvmcreate with
  | none => pure none
  | some pt =>
    let (ok, pt) ← mappages pt trampoline ⟨trampolinePa, true, false, true, false, false⟩
    if ok then
      let (ok, pt) ← mappages pt trapframeVa ⟨tf, true, true, false, false, false⟩
      if ok then pure (some pt)
      else do
        let pt ← uvmunmap pt trampoline 1 false
        uvmfree pt 0
        pure none
    else do
      uvmfree pt 0
      pure none

def procFreepagetable (pt : PageTable) (sz : Nat) : Vm Unit := do
  let pt ← uvmunmap pt trampoline 1 false
  let pt ← uvmunmap pt trapframeVa 1 false
  uvmfree pt sz

def threadFreepagetable (pt : PageTable) (sz : Nat) : Vm Unit := do
  let pt ← uvmunmap pt 0 (pgRoundUp sz) false
  let pt ← uvmunmap pt trampoline 1 false
  let pt ← uvmunmap pt trapframeVa 1 false
  uvmfree pt 0

def kfreeFrame : Option Frame → Vm Unit
  | none => pure ()
  | some f => kfree f.page

def Proc.freeproc (p : Proc) : Vm Proc := do
  kfreeFrame p.trapframe
  kfreeFrame p.alarmTrapframe
  match p.pagetable with
  | none => pure ()
  | some pt => if p.isThread then threadFreepagetable pt p.sz else procFreepagetable pt p.sz
  -- every field is cleared but `is_thread`
  pure { Proc.zero with isThread := p.isThread }

/-! ## Growing and shrinking -/

def trapframeAddr : Nat := trapframeVa * pgSize

def addInt (sz : Nat) (n : Int) : Nat := ((sz + n) % 2 ^ 64).toNat

def Proc.growproc (p : Proc) (n : Int) : Vm (Bool × Proc) := do
  let pt ← Mach.deref .null p.pagetable
  if n > 0 then
    if addInt p.sz n > trapframeAddr then pure (false, p)
    else do
      let (sz, pt) ← uvmalloc pt p.sz (addInt p.sz n) true false
      if sz = 0 then pure (false, { p with pagetable := some pt })
      else pure (true, { p with pagetable := some pt, sz := sz })
  else if n < 0 then do
    let (sz, pt) ← uvmdealloc pt p.sz (addInt p.sz n)
    pure (true, { p with pagetable := some pt, sz := sz })
  else pure (true, p)

def sbrkEager : Int := 1

def Proc.sysSbrk (p : Proc) (n t : Int) : Vm (Int × Proc) :=
  if t = sbrkEager ∨ n < 0 then do
    let (ok, q) ← p.growproc n
    pure (if ok then p.sz else -1, q)
  else if addInt p.sz n < p.sz then pure (-1, p)
  else if addInt p.sz n > trapframeAddr then pure (-1, p)
  else pure (p.sz, { p with sz := addInt p.sz n })

/-! ## Programs -/

/-- A program header. `readable` is the number of its pages that `readi`
delivers. -/
structure Proghdr where
  load : Bool
  vaddr : Nat
  memsz : Nat
  filesz : Nat
  x : Bool
  w : Bool
  readable : Nat

structure Image where
  entry : Word
  phdrs : List (Option Proghdr)

def loadsegLoop (pt : PageTable) (readable v i n : Nat) : Vm Bool :=
  match n with
  | 0 => pure true
  | n + 1 => do
    match ← walkaddr pt v with
    | none => Mach.fail .loadseg
    | some _ =>
      if i < readable then loadsegLoop pt readable (v + 1) (i + 1) n else pure false

def loadseg (pt : PageTable) (ph : Proghdr) : Vm Bool :=
  loadsegLoop pt ph.readable (ph.vaddr / pgSize) 0 (pgRoundUp ph.filesz)

def Proghdr.ok (ph : Proghdr) : Bool :=
  ph.filesz ≤ ph.memsz ∧ ph.vaddr + ph.memsz < 2 ^ 64 ∧ ph.vaddr % pgSize = 0

/-- The loading loop of `kexec`: whether all went well, and the size reached. -/
def loadSegs (pt : PageTable) (sz : Nat) : List (Option Proghdr) → Vm (Bool × Nat × PageTable)
  | [] => pure (true, sz, pt)
  | none :: _ => pure (false, sz, pt)
  | some ph :: phs =>
    if ph.load then
      if ph.ok then do
        let (sz1, pt) ← uvmalloc pt sz (ph.vaddr + ph.memsz) ph.w ph.x
        if sz1 = 0 then pure (false, sz, pt)
        else do
          if ← loadseg pt ph then loadSegs pt sz1 phs else pure (false, sz1, pt)
      else pure (false, sz, pt)
    else loadSegs pt sz phs

def pushDown (sp n : Nat) : Nat := sp - n - (sp - n) % 16

/-- The argument loop of `kexec`: the stack pointer after the strings, whose
lengths are given. The stack page is mapped, so `copyout` never faults: it is
run for a process of size 0, which has no lazy page. -/
def pushArgs (pt : PageTable) (stackbase sp argc : Nat) :
    List Nat → Vm (Option Nat × PageTable)
  | [] => pure (some sp, pt)
  | len :: args =>
    if argc ≥ 32 then pure (none, pt)
    else if pushDown sp (len + 1) < stackbase then pure (none, pt)
    else do
      let (ok, pt) ← copyout pt 0 (pushDown sp (len + 1)) (len + 1)
      if ok then pushArgs pt stackbase (pushDown sp (len + 1)) (argc + 1) args
      else pure (none, pt)

/-- The stack of the new program: guard page, stack page, arguments. Returns
the stack pointer and the size of the image. -/
def execStack (pt : PageTable) (sz : Nat) (argv : List Nat) :
    Vm (Option Nat × Nat × PageTable) := do
  let base := pgRoundUp sz * pgSize
  let (sz1, pt) ← uvmalloc pt base (base + 2 * pgSize) true false
  if sz1 = 0 then pure (none, base, pt)
  else do
    let pt ← uvmclear pt (sz1 / pgSize - 2)
    let (sp, pt) ← pushArgs pt (sz1 - pgSize) sz1 0 argv
    match sp with
    | none => pure (none, sz1, pt)
    | some sp =>
      let sp := pushDown sp ((argv.length + 1) * 8)
      if sp < sz1 - pgSize then pure (none, sz1, pt)
      else do
        let (ok, pt) ← copyout pt 0 sp ((argv.length + 1) * 8)
        pure (if ok then some sp else none, sz1, pt)

def execImage (pt : PageTable) (img : Image) (argv : List Nat) :
    Vm (Option Nat × Nat × PageTable) := do
  let (ok, sz, pt) ← loadSegs pt 0 img.phdrs
  if ok then execStack pt sz argv else pure (none, sz, pt)

/-- `kexec` by process `p`. `img` is what the path names, `none` when there is
no such file or it is not an ELF file; `argv` has the argument lengths. -/
def Proc.kexec (p : Proc) (img : Option Image) (argv : List Nat) : Vm (Int × Proc) :=
  match img with
  | none => pure (-1, p)
  | some img => do
    let tf ← Mach.deref .null p.trapframe
    match ← procPagetable tf.page with
    | none => pure (-1, p)
    | some pt =>
      let (sp, sz, pt) ← execImage pt img argv
      match sp with
      | none => do
        procFreepagetable pt sz
        pure (-1, p)
      | some sp =>
        let old ← Mach.deref .null p.pagetable
        procFreepagetable old p.sz
        let sp := BitVec.ofNat 64 sp
        let regs := { (tf.regs.set .a1 sp).set .sp sp with epc := img.entry }
        pure (argv.length, { p with
          pagetable := some pt, sz := sz, trapframe := some { tf with regs := regs } })

/-! ## Page faults and copies for a process -/

def Proc.vmfault (p : Proc) (va : Nat) : Vm (Bool × Proc) := do
  let pt ← Mach.deref .null p.pagetable
  let (pa, pt) ← OsLab.vmfault pt p.sz va
  pure (pa.isSome, { p with pagetable := some pt })

def Proc.copyout (p : Proc) (addr len : Nat) : Vm (Bool × Proc) := do
  let pt ← Mach.deref .null p.pagetable
  let (ok, pt) ← OsLab.copyout pt p.sz addr len
  pure (ok, { p with pagetable := some pt })

/-- The pages that `copyin` and `copyout` make present for a process; they stop at the first
address that is not the process's. -/
def Proc.touchAll (p : Proc) : List Nat → Vm (Bool × Proc)
  | [] => pure (true, p)
  | va :: vas => do
    let (ok, p) ← p.vmfault va
    if ok then p.touchAll vas else pure (false, p)

/-! ## The system call `exec` -/

def maxArg : Nat := 32

/-- An entry of the user's `argv`: a null pointer, or a string and its length, `none` when
`fetchstr` fails. `fetchaddr` makes the pages of `touch` present. -/
inductive ExecArg
  | null (touch : List Nat)
  | str (touch : List Nat) (len : Option Nat)

def ExecArg.touch : ExecArg → List Nat
  | null touch | str touch _ => touch

/-- The loop of `sys_exec` from entry `n` on: the lengths of the strings, unless it gives up, and
the pages it has allocated for them. Where the list ends, `fetchaddr` fails. -/
def Proc.fetchArgs (p : Proc) (n : Nat) : List ExecArg → Vm (Option (List Nat) × List Page × Proc)
  | [] => pure (none, [], p)
  | a :: args =>
    if maxArg ≤ n then pure (none, [], p)
    else do
      let (ok, p) ← p.touchAll a.touch
      if ok then
        match a with
        | .null _ => pure (some [], [], p)
        | .str _ len => do
          match ← kalloc with
          | none => pure (none, [], p)
          | some pa =>
            match len with
            | none => pure (none, [pa], p)
            | some l => do
              let (lens, pages, p) ← p.fetchArgs (n + 1) args
              pure (lens.map (l :: ·), pa :: pages, p)
      else pure (none, [], p)

/-- `sys_exec`; without any `args` the path cannot be fetched. -/
def Proc.sysExec (p : Proc) (img : Option Image) (args : List ExecArg) : Vm (Int × Proc) := do
  let (lens, pages, p) ← p.fetchArgs 0 args
  match lens with
  | none => do
    pages.forM kfree
    pure (-1, p)
  | some argv => do
    let (r, p) ← p.kexec img argv
    pages.forM kfree
    pure (r, p)

/-! ## Alarms -/

def Proc.sysAlarm (p : Proc) (interval : Int) (handler : Word) : Proc :=
  { p with
    alarmInterval := interval, alarmHandler := handler, alarmTicks := 0, alarmActive := false }

end OsLab
