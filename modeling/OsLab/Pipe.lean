import OsLab.Wakeup
import OsLab.Observed
import OsLab.Ring
import OsLab.CString

/-!
# Pipes

`pipewrite`, `piperead` and `pipeclose` on one pipe, by any number of processes in any
interleaving. Which bytes `copyin` brings, and where `copyin` and `copyout` fail, is
left open. A slot whose process has ended and that is used again goes on in user mode.
-/

namespace OsLab

def pipeSize : Nat := 512

inductive PipeChan
  | nread
  | nwrite
deriving DecidableEq

/-- `struct pipe`; and, as ghosts, that bytes were written since the last `wakeup(&pi->nread)` and
that bytes were read since the last `wakeup(&pi->nwrite)`. -/
structure PipeData where
  ring : Ring Byte
  readopen : Bool
  writeopen : Bool
  freed : Bool
  fresh : Bool
  taken : Bool

/-- Where a process is. `k` is the variable `i` of the functions. -/
inductive PipePlace
  | user
  | writeAcquire (n : Int)
  | writeLoop (k : Nat) (n : Int)
  | writeSleep (k : Nat) (n : Int)
  | writeEnd (r : Int)
  | readAcquire (n : Int)
  | readTest (n : Int)
  | readLoop (k : Nat) (n : Int)
  | readEnd (r : Int)
  | closeAcquire (writable : Bool)
  | closeBody (writable : Bool)
  | closeEnd
deriving DecidableEq

inductive PipeCall
  | write (n : Int)
  | read (n : Int)
  | close (writable : Bool)
  | renew
  | copyin (ch : Option Byte)
  | copyout (ok : Bool)

abbrev PipeSys := Sys PipeChan PipePlace PipeData

namespace Pipe

def acquire (s : PipeSys) (i : Slot) (p : PipePlace) : Option PipeSys :=
  if s.lk = none then some ({ s with lk := some i }.goto i (.code p)) else none

def leave (s : PipeSys) (i : Slot) : PipeSys := { s with lk := none }.goto i (.code .user)

def wakeReaders (s : PipeSys) (i : Slot) (p : PipePlace) : PipeSys :=
  { s with data := { s.data with fresh := false } }.goto i (.wakeup .nread 0 p)

def wakeWriters (s : PipeSys) (i : Slot) (p : PipePlace) : PipeSys :=
  { s with data := { s.data with taken := false } }.goto i (.wakeup .nwrite 0 p)

def Empty (d : PipeData) : Prop := d.ring.r = d.ring.w

def Full (d : PipeData) : Prop := d.ring.w = d.ring.r + BitVec.ofNat 32 pipeSize

instance (d : PipeData) : Decidable (Empty d) := inferInstanceAs (Decidable (_ = _))
instance (d : PipeData) : Decidable (Full d) := inferInstanceAs (Decidable (_ = _))

def put (s : PipeSys) (ch : Byte) : PipeSys :=
  { s with data := { s.data with ring := s.data.ring.push pipeSize ch, fresh := true } }

def take (s : PipeSys) : PipeSys :=
  { s with data := { s.data with ring := s.data.ring.pop, taken := true } }

def closeEnd (d : PipeData) (writable : Bool) : PipeData :=
  if writable then { d with writeopen := false } else { d with readopen := false }

def code (i : Slot) (p : PipePlace) (x : PipeCall) (s : PipeSys) : Option PipeSys :=
  let d := s.data
  match p with
  | .user =>
    match x with
    | .write n => some (s.goto i (.code (.writeAcquire n)))
    | .read n => some (s.goto i (.code (.readAcquire n)))
    | .close writable => some (s.goto i (.code (.closeAcquire writable)))
    | .renew => some ({ s with killed := Function.update s.killed i false }.goto i (.code .user))
    | _ => none
  | .writeAcquire n => acquire s i (.writeLoop 0 n)
  | .writeLoop k n =>
    if k < n then
      if d.readopen = false ∨ s.killed i = true then some (leave s i)
      else if Full d then some (wakeReaders s i (.writeSleep k n))
      else
        match x with
        | .copyin (some ch) => some ((put s ch).goto i (.code (.writeLoop (k + 1) n)))
        | .copyin none => some (wakeReaders s i (.writeEnd k))
        | _ => none
    else some (wakeReaders s i (.writeEnd k))
  | .writeSleep k n => some (s.goto i (.sleepLock .nwrite (.writeLoop k n)))
  | .writeEnd _ => some (leave s i)
  | .readAcquire n => acquire s i (.readTest n)
  | .readTest n =>
    if Empty d ∧ d.writeopen = true then
      if s.killed i = true then some (leave s i)
      else some (s.goto i (.sleepLock .nread (.readTest n)))
    else some (s.goto i (.code (.readLoop 0 n)))
  | .readLoop k n =>
    if k < n then
      if Empty d then some (wakeWriters s i (.readEnd k))
      else
        match x with
        | .copyout true => some ((take s).goto i (.code (.readLoop (k + 1) n)))
        | .copyout false => some (wakeWriters s i (.readEnd (if k = 0 then -1 else k)))
        | _ => none
    else some (wakeWriters s i (.readEnd k))
  | .readEnd _ => some (leave s i)
  | .closeAcquire writable => acquire s i (.closeBody writable)
  | .closeBody writable =>
    let s := { s with data := closeEnd d writable }
    some (if writable then wakeReaders s i .closeEnd else wakeWriters s i .closeEnd)
  | .closeEnd =>
    some (leave { s with data := { d with freed :=
      if d.readopen = false ∧ d.writeopen = false then true else d.freed } } i)

def step (s : PipeSys) : Act PipeCall → Option PipeSys := s.step code

def held : PipePlace → Bool
  | .user | .writeAcquire _ | .readAcquire _ | .closeAcquire _ => false
  | _ => true

structure Start (s : PipeSys) : Prop where
  lk : s.lk = none
  pc : ∀ i, s.pc i = .code .user
  ring : s.data.ring.r = 0 ∧ s.data.ring.w = 0
  readopen : s.data.readopen = true
  writeopen : s.data.writeopen = true
  fresh : s.data.fresh = false
  taken : s.data.taken = false

/-! ## What is seen -/

inductive Event
  | call (i : Slot) (writing : Bool) (n : Int)
  | put (i : Slot) (ch : Byte)
  | take (i : Slot) (ch : Byte)
  | drained (i : Slot)
  | fault (i : Slot)
  | ret (i : Slot) (r : Int)
  | close (writable : Bool)
  | free
  | kkill (i : Slot)
  | renew (i : Slot)

/-- Calls, the bytes that go in and come out, a read that finds the pipe empty after the wait, failures of
`copyin` and `copyout`, what `pipewrite` and `piperead` return, and the end of the pipe. -/
def codeEvent (d : PipeData) (killed : Bool) (i : Slot) :
    Pc PipeChan PipePlace → PipeCall → Option Event
  | .code .user, .write n => some (.call i true n)
  | .code .user, .read n => some (.call i false n)
  | .code .user, .renew => some (.renew i)
  | .code (.writeLoop k n), x =>
    if k < n then
      if d.readopen = false ∨ killed = true then some (.ret i (-1))
      else if Full d then none
      else
        match x with
        | .copyin (some ch) => some (.put i ch)
        | .copyin none => some (.fault i)
        | _ => none
    else none
  | .code (.writeEnd r), _ | .code (.readEnd r), _ => some (.ret i r)
  | .code (.readTest _), _ =>
    if Empty d ∧ d.writeopen = true ∧ killed = true then some (.ret i (-1)) else none
  | .code (.readLoop k n), x =>
    if k < n then
      if Empty d then some (.drained i)
      else
        match x with
        | .copyout true => some (.take i (d.ring.head pipeSize))
        | .copyout false => some (.fault i)
        | _ => none
    else none
  | .code (.closeBody writable), _ => some (.close writable)
  | .code .closeEnd, _ => if d.readopen = false ∧ d.writeopen = false then some .free else none
  | _, _ => none

def event (s : PipeSys) : Act PipeCall → Option Event
  | .run i x => codeEvent s.data (s.killed i) i (s.pc i) x
  | .kkill i => some (.kkill i)
  | _ => none

end Pipe

/-! ## What a pipe is -/

/-- A call to write or read `asked` bytes. `ended` is the result of a call that cannot go on. -/
structure Transfer where
  writing : Bool
  asked : Int
  moved : Nat
  ended : Option Int

structure Channel where
  queue : List Byte
  readopen : Bool
  writeopen : Bool
  freed : Bool
  killed : Slot → Bool
  call : Slot → Transfer

namespace Channel

def start (killed : Slot → Bool) : Channel where
  queue := []
  readopen := true
  writeopen := true
  freed := false
  killed := killed
  call := fun _ => ⟨false, 0, 0, none⟩

def setCall (c : Channel) (i : Slot) (t : Transfer) : Channel := { c with call := Function.update c.call i t }

def moved (c : Channel) (i : Slot) : Channel := c.setCall i { c.call i with moved := (c.call i).moved + 1 }

/-- A writer fails when nobody can read what it still has to write, a reader when it would have to wait;
both when they are killed. -/
def Refuses (c : Channel) (i : Slot) : Prop :=
  if (c.call i).writing then (c.call i).moved < (c.call i).asked ∧ (c.readopen = false ∨ c.killed i = true)
  else (c.call i).moved = 0 ∧ c.queue = [] ∧ c.writeopen = true ∧ c.killed i = true

instance (c : Channel) (i : Slot) : Decidable (c.Refuses i) := inferInstanceAs (Decidable (ite ..))

def Returns (c : Channel) (i : Slot) (r : Int) : Prop :=
  (c.call i).ended = some r ∨ (c.call i).ended = none ∧
    ((c.call i).asked ≤ (c.call i).moved ∧ r = (c.call i).moved ∨ r = -1 ∧ c.Refuses i)

instance (c : Channel) (i : Slot) (r : Int) : Decidable (c.Returns i r) := inferInstanceAs (Decidable (_ ∨ _))

def step (c : Channel) : Pipe.Event → Option Channel
  | .call i writing n => some (c.setCall i ⟨writing, n, 0, none⟩)
  | .put i ch =>
    if c.queue.length < pipeSize ∧ c.readopen = true ∧ c.killed i = false ∧
        (c.call i).writing = true ∧ (c.call i).moved < (c.call i).asked then
      some ({ c with queue := c.queue ++ [ch] }.moved i)
    else none
  | .take i ch =>
    match c.queue with
    | [] => none
    | b :: queue =>
      if b = ch ∧ (c.call i).writing = false ∧ (c.call i).moved < (c.call i).asked then
        some ({ c with queue := queue }.moved i)
      else none
  | .drained i =>
    -- the end of file, or fewer bytes than asked for
    if c.queue = [] ∧ (c.call i).writing = false ∧ ((c.call i).moved = 0 → c.writeopen = false) then
      some (c.setCall i { c.call i with ended := some (c.call i).moved })
    else none
  | .fault i =>
    if (c.call i).moved < (c.call i).asked then
      some (c.setCall i { c.call i with
        ended := some (if (c.call i).writing = false ∧ (c.call i).moved = 0 then -1 else (c.call i).moved) })
    else none
  | .ret i r => if c.Returns i r then some c else none
  | .close writable =>
    some (if writable then { c with writeopen := false } else { c with readopen := false })
  | .free => if c.readopen = false ∧ c.writeopen = false then some { c with freed := true } else none
  | .kkill i => some { c with killed := Function.update c.killed i true }
  | .renew i => some { c with killed := Function.update c.killed i false }

end Channel

end OsLab
