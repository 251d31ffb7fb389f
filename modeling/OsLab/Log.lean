import OsLab.Wakeup
import OsLab.Block
import OsLab.Observed
import OsLab.TxStore

/-!
# The log

`log.c`: the operations of all processes, the commit, the recovery at boot, and crashes
in between. A block reaches the disk whole. The buffer cache is seen as the blocks it
holds: one that is neither pinned nor locked may leave it at any time.
-/

namespace OsLab

def logBlocks : Nat := 30

def maxOpBlocks : Nat := 10

inductive LogPanic
  | tooBig -- too big a transaction
  | outside -- log_write outside of trans
  | committing -- log.committing
deriving DecidableEq

/-- The disk, the buffer cache and `struct log`. `block` is `log.lh`: the first `log.lh.n` entries
of its array. -/
structure LogData where
  disk : Nat → Block
  cache : Nat → Option Block
  holder : Nat → Option Slot -- who has locked the buffer
  pins : Nat → Nat
  block : List Nat
  outstanding : Int
  committing : Bool
  panicked : Option LogPanic

namespace Log

/-! ## The buffer cache -/

def content (d : LogData) (b : Nat) : Block := (d.cache b).getD (d.disk b)

def bread (d : LogData) (b : Nat) : LogData :=
  { d with cache := Function.update d.cache b (some (content d b)) }

def setBuf (d : LogData) (b : Nat) (v : Block) : LogData :=
  { d with cache := Function.update d.cache b (some v) }

def bwrite (d : LogData) (b : Nat) : LogData :=
  { d with disk := Function.update d.disk b (content d b) }

def bpin (d : LogData) (b : Nat) : LogData :=
  { d with pins := Function.update d.pins b (d.pins b + 1) }

def bunpin (d : LogData) (b : Nat) : LogData :=
  { d with pins := Function.update d.pins b (d.pins b - 1) }

def evict (d : LogData) (b : Nat) : LogData :=
  { d with cache := Function.update d.cache b none }

def copyBlock (d : LogData) (dst src : Nat) : LogData :=
  let d := bread (bread d dst) src
  bwrite (setBuf d dst (content d src)) dst

/-! ## The header block -/

def headBlock (old : Block) (block : List Nat) : Block :=
  (old.setWord 0 (.ofNat 32 block.length)).setWords 1 (block.map (.ofNat 32))

def blocksOf (head : Block) : List Nat :=
  (List.range (head.word 0).toInt.toNat).map fun i => (head.word (1 + i)).toNat

variable (start : Nat)

def readHead (d : LogData) : LogData :=
  let d := bread d start
  { d with block := blocksOf (content d start) }

def writeHead (d : LogData) : LogData :=
  let d := bread d start
  bwrite (setBuf d start (headBlock (content d start) d.block)) start

end Log

/-! ## The processes -/

inductive LogPlace
  | user
  | beginAcquire
  | beginTest
  | inOp -- between `begin_op` and `end_op`
  | logAcquire (b : Nat)
  | logWrite (b : Nat)
  | brelse (b : Nat) -- after `log_write`
  | endAcquire
  | endBody
  | endRelease
  | commit
  | writeLog (tail : Nat)
  | writeHead
  | install (tail : Nat)
  | clearHead
  | doneAcquire
  | doneBody
  | doneRelease
  | readHead -- `recover_from_log`
  | recover (tail : Nat)
  | recoverHead
deriving DecidableEq

inductive LogCall
  | begin
  | read (b : Nat)
  | write (b : Nat) (v : Block)
  | done
  | fork (np : Slot)
  | exit

abbrev LogSys := Sys Unit LogPlace LogData

inductive LogAct
  | sys (a : Act LogCall)
  | evict (b : Nat)
  | crash

namespace Log

def set (s : LogSys) (d : LogData) (i : Slot) (p : LogPlace) : LogSys :=
  { s with data := d }.goto i (.code p)

def acquire (s : LogSys) (i : Slot) (p : LogPlace) : Option LogSys :=
  if s.lk = none then some ({ s with lk := some i }.goto i (.code p)) else none

def release (s : LogSys) (i : Slot) (p : LogPlace) : LogSys :=
  { s with lk := none }.goto i (.code p)

def panic (s : LogSys) (e : LogPanic) : LogSys :=
  { s with data := { s.data with panicked := some e } }

def Fits (d : LogData) : Prop :=
  d.committing = false ∧ d.block.length + (d.outstanding + 1) * maxOpBlocks ≤ logBlocks

instance (d : LogData) : Decidable (Fits d) := inferInstanceAs (Decidable (_ ∧ _))

def append (d : LogData) (b : Nat) : LogData :=
  if b ∈ d.block then d else { bpin d b with block := d.block ++ [b] }

variable (start : Nat)

def code (i : Slot) (p : LogPlace) (x : LogCall) (s : LogSys) : Option LogSys :=
  let d := s.data
  match p with
  | .user =>
    match x with
    | .begin => some (s.goto i (.code .beginAcquire))
    | .read b => some (set s (bread d b) i .user)
    | .fork np =>
      if s.state np = .unused then
        some ({ s with state := Function.update s.state np .runnable }.goto i (.code .user))
      else none
    | .exit => some ({ s with
        state := Function.update s.state i .unused
        killed := Function.update s.killed i false }.goto i (.code .user))
    | _ => none
  | .beginAcquire => acquire s i .beginTest
  | .beginTest =>
    if Fits d then some (release { s with data := { d with outstanding := d.outstanding + 1 } } i .inOp)
    else some (s.goto i (.sleepLock () .beginTest))
  | .inOp =>
    match x with
    | .read b => some (set s (bread d b) i .inOp)
    | .write b v =>
      if d.holder b = none then
        some (set s { setBuf d b v with holder := Function.update d.holder b (some i) } i (.logAcquire b))
      else none
    | .done => some (s.goto i (.code .endAcquire))
    | _ => none
  | .logAcquire b => acquire s i (.logWrite b)
  | .logWrite b =>
    if logBlocks ≤ d.block.length then some (panic s .tooBig)
    else if d.outstanding < 1 then some (panic s .outside)
    else some (release { s with data := append d b } i (.brelse b))
  | .brelse b => some (set s { d with holder := Function.update d.holder b none } i .inOp)
  | .endAcquire => acquire s i .endBody
  | .endBody =>
    let d := { d with outstanding := d.outstanding - 1 }
    if d.committing then some (panic { s with data := d } .committing)
    else if d.outstanding = 0 then
      some (release { s with data := { d with committing := true } } i .commit)
    else some ({ s with data := d }.goto i (.wakeup () 0 .endRelease))
  | .endRelease => some (release s i .user)
  | .commit =>
    if 0 < d.block.length then some (s.goto i (.code (.writeLog 0)))
    else some (s.goto i (.code .doneAcquire))
  | .writeLog tail =>
    match d.block[tail]? with
    | some b => some (set s (copyBlock d (start + tail + 1) b) i (.writeLog (tail + 1)))
    | none => some (s.goto i (.code .writeHead))
  | .writeHead => some (set s (writeHead start d) i (.install 0))
  | .install tail =>
    match d.block[tail]? with
    | some b => some (set s (bunpin (copyBlock d b (start + tail + 1)) b) i (.install (tail + 1)))
    | none => some (set s { d with block := [] } i .clearHead)
  | .clearHead => some (set s (writeHead start d) i .doneAcquire)
  | .doneAcquire => acquire s i .doneBody
  | .doneBody =>
    some ({ s with data := { d with committing := false } }.goto i (.wakeup () 0 .doneRelease))
  | .doneRelease => some (release s i .user)
  | .readHead => some (set s (readHead start d) i (.recover 0))
  | .recover tail =>
    match d.block[tail]? with
    | some b => some (set s (copyBlock d b (start + tail + 1)) i (.recover (tail + 1)))
    | none => some (set s { d with block := [] } i .recoverHead)
  | .recoverHead => some (set s (writeHead start d) i .user)

def boot (disk : Nat → Block) : LogSys where
  lk := none
  plock := fun _ => false
  state := fun i => if i = 0 then .running else .unused
  chan := fun _ => none
  killed := fun _ => false
  pc := fun i => .code (if i = 0 then .readHead else .user)
  data :=
    { disk
      cache := fun _ => none
      holder := fun _ => none
      pins := fun _ => 0
      block := []
      outstanding := 0
      committing := false
      panicked := none }

/-- After a panic the machine can only be switched off and on. -/
def step (s : LogSys) : LogAct → Option LogSys
  | .sys a => if s.data.panicked = none then s.step (code start) a else none
  | .evict b =>
    if s.data.panicked = none ∧ s.data.pins b = 0 ∧ s.data.holder b = none then
      some { s with data := evict s.data b }
    else none
  | .crash => some (boot s.data.disk)

/-! ## What is seen -/

abbrev TxAct := TxStore.Act Slot Nat Block

/-- The operations as the file system calls see them. The header write of a commit is the moment
at which it takes place. -/
def codeEvent (d : LogData) (i : Slot) : Pc Unit LogPlace → LogCall → Option TxAct
  | .code .beginTest, _ => if Fits d then some (.begin i) else none
  | .code .inOp, .write b v => some (.write i b v)
  | .code .endBody, _ => if d.committing then none else some (.done i)
  | .code .writeHead, _ => some .save
  | _, _ => none

def event (s : LogSys) : LogAct → Option TxAct
  | .sys (.run i x) => codeEvent s.data i (s.pc i) x
  | .crash => some .crash
  | _ => none

def Home (b : Nat) : Prop := b < 2 ^ 32 ∧ (b < start ∨ start + logBlocks < b)

instance (b : Nat) : Decidable (Home start b) := inferInstanceAs (Decidable (_ ∧ _))

def Writes (_ : List TxAct) (_ : LogSys) : LogAct → Prop
  | .sys (.run _ (.write b _)) => Home start b
  | _ => True

structure Valid (block : List Nat) : Prop where
  nodup : block.Nodup
  home : ∀ b ∈ block, Home start b
  length : block.length ≤ logBlocks

/-- What a disk is worth after a crash: a committed transaction counts. -/
def recovered (disk : Nat → Block) (b : Nat) : Block :=
  match (blocksOf (disk start)).idxOf? b with
  | some tail => disk (start + tail + 1)
  | none => disk b

end Log

end OsLab
