import OsLab.Block
import OsLab.Machine
import Mathlib.Algebra.Group.Nat.Defs
import Mathlib.Data.Finset.Insert
import Mathlib.Logic.Function.Basic

/-!
# Blocks and inodes of the file system

The block allocator, the inodes and their contents in `fs.c`, over the buffer
cache and the log. Every call runs inside a transaction with the inode locked, so
a call is one step; the in-memory inodes with `valid` set are kept beside the disk.
-/

namespace OsLab

namespace Fs

def bsize : Nat := 1024

def ndirect : Nat := 12

def nindirect : Nat := 256

def maxFile : Nat := ndirect + nindirect

def ipb : Nat := 16

def bpb : Nat := 8192

/-- The fields of the super block that `fs.c` reads, and the layout that `mkfs` gives the disk. -/
structure SuperBlock where
  size : Nat
  ninodes : Nat
  inodestart : Nat
  bmapstart : Nat
  inodes_before_bitmap : inodestart + ninodes / ipb < bmapstart
  size_lt : size < 2 ^ 31

abbrev Disk := Nat → Block

structure Inode where
  type : BitVec 16
  major : BitVec 16
  minor : BitVec 16
  nlink : BitVec 16
  size : BitVec 32
  direct : Fin 12 → BitVec 32
  indirect : BitVec 32

/-- `disk` is what `bread` shows, `saved` what the last commit has left on the disk, and `logged` are the
blocks that were passed to `log_write` since. `icache` has the in-memory inodes with `valid` set. -/
structure FsState where
  disk : Disk
  saved : Disk
  logged : Finset Nat
  icache : Nat → Option Inode

inductive FsPanic where
  | freeingFreeBlock
  | bmapOutOfRange
  | ilockNoType
  deriving DecidableEq

abbrev FsM := Mach FsPanic FsState

def FsState.putBuf (s : FsState) (b : Nat) (d : Block) : FsState :=
  { s with disk := Function.update s.disk b d }

def FsState.putBlock (s : FsState) (b : Nat) (d : Block) : FsState :=
  { s with disk := Function.update s.disk b d, logged := insert b s.logged }

def FsState.putInode (s : FsState) (i : Nat) (ip : Inode) : FsState :=
  { s with icache := Function.update s.icache i (some ip) }

def FsState.forget (s : FsState) (i : Nat) : FsState :=
  { s with icache := Function.update s.icache i none }

def setBlock (b : Nat) (d : Block) : FsM Unit := Mach.modify (·.putBlock b d)

def setBuf (b : Nat) (d : Block) : FsM Unit := Mach.modify (·.putBuf b d)

def setInode (i : Nat) (ip : Inode) : FsM Unit := Mach.modify (·.putInode i ip)

/-! ## Blocks -/

/-- `bp->data[bi/8] & (1 << (bi % 8))` -/
def bit (d : Block) (bi : Nat) : Bool := d (bi / 8) &&& (1#8 <<< (bi % 8)) != 0

def setBit (d : Block) (bi : Nat) : Block :=
  Function.update d (bi / 8) (d (bi / 8) ||| (1#8 <<< (bi % 8)))

def clearBit (d : Block) (bi : Nat) : Block :=
  Function.update d (bi / 8) (d (bi / 8) &&& ~~~(1#8 <<< (bi % 8)))

variable (sb : SuperBlock)

def bblock (b : Nat) : Nat := b / bpb + sb.bmapstart

def findFree (disk : Disk) : Option Nat :=
  (List.range ((sb.size + bpb - 1) / bpb)).findSome? fun k =>
    (List.range bpb).findSome? fun bi =>
      if k * bpb + bi < sb.size ∧ bit (disk (bblock sb (k * bpb))) bi = false then
        some (k * bpb + bi)
      else none

def bzero (bno : Nat) : FsM Unit := setBlock bno fun _ => 0

def balloc : FsM Nat := do
  let s ← Mach.get
  match findFree sb s.disk with
  | some b =>
    setBlock (bblock sb b) (setBit (s.disk (bblock sb b)) (b % bpb))
    bzero b
    pure b
  | none => pure 0

def bfree (b : Nat) : FsM Unit := do
  let s ← Mach.get
  if bit (s.disk (bblock sb b)) (b % bpb) = false then
    Mach.fail .freeingFreeBlock
  else
    setBlock (bblock sb b) (clearBit (s.disk (bblock sb b)) (b % bpb))

/-! ## Inodes -/

def iblock (i : Nat) : Nat := i / ipb + sb.inodestart

def lo (w : BitVec 32) : BitVec 16 := w.setWidth 16

def hi (w : BitVec 32) : BitVec 16 := (w >>> 16).setWidth 16

def pair (l h : BitVec 16) : BitVec 32 := l.setWidth 32 ||| (h.setWidth 32 <<< 16)

def decode (d : Block) (w : Nat) : Inode where
  type := lo (d.word w)
  major := hi (d.word w)
  minor := lo (d.word (w + 1))
  nlink := hi (d.word (w + 1))
  size := d.word (w + 2)
  direct := fun k => d.word (w + (3 + k))
  indirect := d.word (w + 15)

def encode (ip : Inode) : List (BitVec 32) :=
  [pair ip.type ip.major, pair ip.minor ip.nlink, ip.size] ++ List.ofFn ip.direct ++ [ip.indirect]

def dinode (disk : Disk) (i : Nat) : Inode := decode (disk (iblock sb i)) (16 * (i % ipb))

/-- `ip`, as its holder sees it. -/
def FsState.inode (s : FsState) (i : Nat) : Inode := (s.icache i).getD (dinode sb s.disk i)

def iupdate (i : Nat) : FsM Unit := do
  let s ← Mach.get
  setBlock (iblock sb i) ((s.disk (iblock sb i)).setWords (16 * (i % ipb)) (encode (s.inode sb i)))

def ilock (i : Nat) : FsM Unit := do
  let s ← Mach.get
  match s.icache i with
  | some _ => pure ()
  | none =>
    setInode i (dinode sb s.disk i)
    if (dinode sb s.disk i).type = 0 then Mach.fail .ilockNoType else pure ()

def blankInode (type : BitVec 16) : Inode where
  type := type
  major := 0
  minor := 0
  nlink := 0
  size := 0
  direct := fun _ => 0
  indirect := 0

def ialloc (type : BitVec 16) : FsM Nat := do
  let s ← Mach.get
  match (List.range sb.ninodes).find? fun i => 0 < i ∧ (dinode sb s.disk i).type = 0 with
  | some i =>
    setBlock (iblock sb i)
      ((s.disk (iblock sb i)).setWords (16 * (i % ipb)) (encode (blankInode type)))
    pure i
  | none => pure 0

/-! ## Contents -/

def bmapDirect (i : Nat) (bn : Fin 12) : FsM Nat := do
  let s ← Mach.get
  let ip := s.inode sb i
  if ip.direct bn = 0 then
    let addr ← balloc sb
    if addr = 0 then pure 0
    else
      setInode i { ip with direct := Function.update ip.direct bn (.ofNat 32 addr) }
      pure addr
  else pure (ip.direct bn).toNat

def loadIndirect (i : Nat) : FsM Nat := do
  let s ← Mach.get
  let ip := s.inode sb i
  if ip.indirect = 0 then
    let addr ← balloc sb
    if addr = 0 then pure 0
    else
      setInode i { ip with indirect := .ofNat 32 addr }
      pure addr
  else pure ip.indirect.toNat

def bmapIndirect (i : Nat) (bn : Nat) : FsM Nat := do
  let ind ← loadIndirect sb i
  if ind = 0 then pure 0
  else
    let s ← Mach.get
    let a := (s.disk ind).word bn
    if a = 0 then
      let addr ← balloc sb
      if addr = 0 then pure 0
      else
        -- `bp` is locked since before `balloc`: its data are those of `s`
        setBlock ind ((s.disk ind).setWord bn (.ofNat 32 addr))
        pure addr
    else pure a.toNat

def bmap (i bn : Nat) : FsM Nat :=
  if h : bn < 12 then bmapDirect sb i ⟨bn, h⟩
  else if bn - ndirect < nindirect then bmapIndirect sb i (bn - ndirect)
  else Mach.fail .bmapOutOfRange

def truncDirect (i : Nat) (k : Fin 12) : FsM Unit := do
  let s ← Mach.get
  let ip := s.inode sb i
  if ip.direct k = 0 then pure ()
  else
    bfree sb (ip.direct k).toNat
    setInode i { ip with direct := Function.update ip.direct k 0 }

def truncIndirect (i : Nat) : FsM Unit := do
  let s ← Mach.get
  let ip := s.inode sb i
  if ip.indirect = 0 then pure ()
  else
    let a := s.disk ip.indirect.toNat
    Mach.upTo nindirect fun j => if a.word j = 0 then pure () else bfree sb (a.word j).toNat
    bfree sb ip.indirect.toNat
    setInode i { ip with indirect := 0 }

def itrunc (i : Nat) : FsM Unit := do
  Mach.upTo ndirect fun k => if h : k < 12 then truncDirect sb i ⟨k, h⟩ else pure ()
  truncIndirect sb i
  let s ← Mach.get
  setInode i { s.inode sb i with size := 0 }
  iupdate sb i

/-- What `readi` delivers to `dst`, and its result; `ok tot m` says whether `either_copyout` of `m`
bytes to `dst + tot` succeeds. -/
def readLoop (i : Nat) (ok : Nat → Nat → Bool) (off n : Nat) :
    Nat → Nat → List Byte → FsM (Int × List Byte)
  | 0, tot, out => pure (tot, out)
  | fuel + 1, tot, out =>
    if tot < n then do
      let addr ← bmap sb i ((off + tot) / bsize)
      if addr = 0 then pure (tot, out)
      else
        let s ← Mach.get
        let m := min (n - tot) (bsize - (off + tot) % bsize)
        if ok tot m then
          readLoop i ok off n fuel (tot + m)
            (out ++ (List.range m).map fun k => s.disk addr ((off + tot) % bsize + k))
        else pure (-1, out)
    else pure (tot, out)

def readi (i : Nat) (ok : Nat → Nat → Bool) (off n : BitVec 32) : FsM (Int × List Byte) := do
  let s ← Mach.get
  let size := (s.inode sb i).size
  if size < off ∨ off + n < off then pure (0, [])
  else
    let n := if size < off + n then size - off else n
    readLoop sb i ok off.toNat n.toNat n.toNat 0 []

/-- How many of the `m` bytes from `src + tot` on can be read before the first fault. -/
def readable (src : Nat → Option Byte) (tot : Nat) : Nat → Nat
  | 0 => 0
  | m + 1 => if (src tot).isSome then readable src (tot + 1) m + 1 else 0

/-- `either_copyin(bp->data + o, user_src, src + tot, m)`: the bytes before a fault are copied. -/
def copyin (d : Block) (o : Nat) (src : Nat → Option Byte) (tot m : Nat) : Block := fun k =>
  if o ≤ k ∧ k < o + readable src tot m then (src (tot + (k - o))).getD 0 else d k

def writeLoop (i : Nat) (src : Nat → Option Byte) (off n : Nat) : Nat → Nat → FsM Nat
  | 0, tot => pure tot
  | fuel + 1, tot =>
    if tot < n then do
      let addr ← bmap sb i ((off + tot) / bsize)
      if addr = 0 then pure tot
      else
        let s ← Mach.get
        let m := min (n - tot) (bsize - (off + tot) % bsize)
        let d := copyin (s.disk addr) ((off + tot) % bsize) src tot m
        if readable src tot m = m then
          setBlock addr d
          writeLoop i src off n fuel (tot + m)
        else
          -- the buffer is changed, but not passed to `log_write`
          setBuf addr d
          pure tot
    else pure tot

def writei (i : Nat) (src : Nat → Option Byte) (off n : BitVec 32) : FsM Int := do
  let s ← Mach.get
  if (s.inode sb i).size < off ∨ off + n < off then pure (-1)
  else if maxFile * bsize < (off + n).toNat then pure (-1)
  else
    let tot ← writeLoop sb i src off.toNat n.toNat n.toNat 0
    let s ← Mach.get
    let ip := s.inode sb i
    setInode i { ip with size := if ip.size.toNat < off.toNat + tot then .ofNat 32 (off.toNat + tot) else ip.size }
    iupdate sb i
    pure tot

def ifree (i : Nat) : FsM Unit := do
  itrunc sb i
  let s ← Mach.get
  setInode i { s.inode sb i with type := 0 }
  iupdate sb i
  Mach.modify (·.forget i)

/-- `iput`; `last` says whether `ip->ref == 1`. -/
def iput (i : Nat) (last : Bool) : FsM Unit := do
  let s ← Mach.get
  match s.icache i with
  | some ip => if last = true ∧ ip.nlink = 0 then ifree sb i else pure ()
  | none => pure ()

/-- What a commit writes: the buffers of the logged blocks, and no other ones. -/
def FsState.kept (s : FsState) : Disk := fun b => if b ∈ s.logged then s.disk b else s.saved b

/-- The buffer of a block is recycled. The log pins those of the logged blocks. -/
def FsState.evict (s : FsState) (b : Nat) : FsState :=
  if b ∈ s.logged then s else s.putBuf b (s.saved b)

def FsState.commit (s : FsState) : FsState := { s with saved := s.kept, logged := ∅ }

def FsState.crash (s : FsState) : FsState := { s with disk := s.saved, logged := ∅, icache := fun _ => none }

end Fs

end OsLab
