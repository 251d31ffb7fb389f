import OsLab.FsFile
import OsLab.FsTrunc

/-!
# The file system as a store of files

What the calls on inodes are for: a map from inode numbers to byte strings, which a
crash takes back to the last commit. One thing shows through. A write that meets a
bad address stops without `log_write`; bytes that it has copied by then are there
only as long as the buffer is.
-/

namespace OsLab

namespace Fs

open Mach

/-! ## Files -/

structure File where
  type : BitVec 16
  major : BitVec 16
  minor : BitVec 16
  nlink : BitVec 16
  bytes : List Byte

abbrev Files := Nat → Option File

def overwrite (l : List Byte) (off : Nat) (new : List Byte) : List Byte :=
  l.take off ++ new ++ l.drop (off + new.length)

def bytesAt (src : Nat → Option Byte) (e : Nat) : List Byte := (List.range e).map fun k => (src k).getD 0

inductive FsOp where
  | ialloc (type : BitVec 16)
  | readi (i : Nat) (ok : Nat → Nat → Bool) (off n : BitVec 32)
  | writei (i : Nat) (src : Nat → Option Byte) (off n : BitVec 32)
  | itrunc (i : Nat)
  /-- `ip->nlink = ...; iupdate(ip);` -/
  | setAttrs (i : Nat) (major minor nlink : BitVec 16)
  | iput (i : Nat) (last : Bool)
  /-- The entry of the inode table is used for another inode. -/
  | recycle (i : Nat)

def FsOp.run (sb : SuperBlock) : FsOp → FsM (Int × List Byte)
  | .ialloc type => do
    let i ← Fs.ialloc sb type
    pure (i, [])
  | .readi i ok off n => do
    ilock sb i
    Fs.readi sb i ok off n
  | .writei i src off n => do
    ilock sb i
    let r ← Fs.writei sb i src off n
    pure (r, [])
  | .itrunc i => do
    ilock sb i
    Fs.itrunc sb i
    pure (0, [])
  | .setAttrs i major minor nlink => do
    ilock sb i
    let s ← Mach.get
    setInode i { s.inode sb i with major := major, minor := minor, nlink := nlink }
    iupdate sb i
    pure (0, [])
  | .iput i last => do
    Fs.iput sb i last
    pure (0, [])
  | .recycle i => do
    Mach.modify (·.forget i)
    pure (0, [])

/-- Callers have references to inodes that are allocated, and allocate with a type. -/
def FsOp.Valid (F : Files) : FsOp → Prop
  | .ialloc type => type ≠ 0
  | .readi i .. | .writei i .. | .itrunc i | .setAttrs i .. => F i ≠ none
  | .iput .. | .recycle _ => True

def Files.Allocates (ninodes : Nat) (type : BitVec 16) (F : Files) (r : Int) (F' : Files) : Prop :=
  (r = 0 ∧ F' = F ∧ ∀ i, 0 < i → i < ninodes → F i ≠ none) ∨
    ∃ i : Nat, r = i ∧ 0 < i ∧ i < ninodes ∧ F i = none ∧ F' = Function.update F i (some ⟨type, 0, 0, 0, []⟩)

/-- `readi` returns the bytes from `off` on, up to the end of the file; where `either_copyout` fails,
some first part of them and `-1`. -/
def File.Reads (f : File) (ok : Nat → Nat → Bool) (off n : BitVec 32) (r : Int) (out : List Byte) : Prop :=
  if off + n < off then r = 0 ∧ out = []
  else
    (r = out.length ∧ out = (f.bytes.drop off.toNat).take n.toNat) ∨
      (r = -1 ∧ out <+: (f.bytes.drop off.toNat).take n.toNat ∧ ∃ tot m, ok tot m = false)

def File.patch (f : File) (off : Nat) (new : List Byte) (len : Nat) : File :=
  { f with bytes := (overwrite f.bytes off new).take len }

/-- `writei` refuses to leave a hole or to exceed `MAXFILE` blocks. Else it returns the number of bytes
written, which is less than `n` only behind the end of the file where the disk is full, or at a fault; up
to the fault, more bytes may have been overwritten, but the file ends after those that count. -/
def File.Writes (f : File) (full : Prop) (src : Nat → Option Byte) (off n : BitVec 32) (r : Int)
    (f' : File) : Prop :=
  if f.bytes.length < off.toNat ∨ off + n < off ∨ maxFile * bsize < (off + n).toNat then r = -1 ∧ f' = f
  else
    ∃ tot e : Nat, r = tot ∧ tot ≤ e ∧ e ≤ n.toNat ∧
      (tot < n.toNat →
        (e = tot ∧ (tot = 0 ∨ (off.toNat + tot) % bsize = 0) ∧ f.bytes.length ≤ off.toNat + tot ∧ full) ∨
          (e < n.toNat ∧ src e = none)) ∧
      f' = f.patch off.toNat (bytesAt src e) (max f.bytes.length (off.toNat + tot))

/-- What a call may do to the files; `full` says that the disk is full afterwards, and `valid` which
inodes are in memory. -/
def FsOp.Allows (ninodes : Nat) (full : Prop) (valid : Nat → Bool) (F : Files) (r : Int × List Byte)
    (F' : Files) : FsOp → Prop
  | .ialloc type => F.Allocates ninodes type r.1 F'
  | .readi i ok off n => F' = F ∧ ∃ f, F i = some f ∧ f.Reads ok off n r.1 r.2
  | .writei i src off n =>
    ∃ f f', F i = some f ∧ f.Writes full src off n r.1 f' ∧ F' = Function.update F i (some f')
  | .itrunc i => ∃ f, F i = some f ∧ F' = Function.update F i (some { f with bytes := [] })
  | .setAttrs i major minor nlink => ∃ f, F i = some f ∧
    F' = Function.update F i (some { f with major := major, minor := minor, nlink := nlink })
  | .iput i last => F' =
    if last = true ∧ valid i = true ∧ (F i).any (·.nlink = 0) then Function.update F i none else F
  | .recycle _ => F' = F

def FsOp.loads (F' : Files) (valid : Nat → Bool) : FsOp → Nat → Bool
  | .readi i .. | .writei i .. | .itrunc i | .setAttrs i .. => Function.update valid i true
  | .recycle i => Function.update valid i false
  | .ialloc _ | .iput .. => fun j => valid j && (F' j).isSome

/-! ## The store -/

inductive FsAct where
  | call (op : FsOp)
  | evict (b : Nat)
  | commit
  | crash

def FsAct.run (sb : SuperBlock) : FsAct → FsM (Int × List Byte)
  | .call op => op.run sb
  | .evict b => do
    Mach.modify (·.evict b)
    pure (0, [])
  | .commit => do
    Mach.modify FsState.commit
    pure (0, [])
  | .crash => do
    Mach.modify FsState.crash
    pure (0, [])

def FsAct.Valid (F : Files) : FsAct → Prop
  | .call op => op.Valid F
  | _ => True

def Files.byte (F : Files) (i k : Nat) : Option Byte := (F i).bind fun f => f.bytes[k]?

def Files.revert (F : Files) (old : Nat → Nat → Option Byte) : Files := fun i =>
  (F i).map fun f => { f with bytes := f.bytes.mapIdx fun k v => (old i k).getD v }

/-- The files; the bytes that are in a buffer only, with what is below; the files that a crash leaves; and
the inodes in memory. -/
structure Store where
  now : Files
  pending : Nat → Nat → Option Byte
  saved : Files
  valid : Nat → Bool

/-- A byte comes to be pending when a call changes it, but not when it counts as written. An eviction gives
back what is below some of the pending bytes, and a commit saves what is below all of them. -/
def Store.Does (ninodes : Nat) (full : Prop) (t : Store) (r : Int × List Byte) (t' : Store) : FsAct → Prop
  | .call op => op.Allows ninodes full t.valid t.now r t'.now ∧ t'.valid = op.loads t'.now t.valid ∧
    t'.saved = t.saved ∧
    (∀ i k v, t.now.byte i k ≠ none → t'.pending i k = some v →
      t.pending i k = some v ∨ t.now.byte i k = some v ∧ t'.now.byte i k ≠ some v) ∧
    ∀ i src off n, op = .writei i src off n → ∀ k : Nat, off.toNat ≤ k → (k : Int) < off.toNat + r.1 →
      t'.pending i k = none
  | .evict _ => t'.valid = t.valid ∧ t'.saved = t.saved ∧
    (∀ i k v, t'.pending i k = some v → t.pending i k = some v) ∧
    ∃ old, (∀ i k v, old i k = some v → t.pending i k = some v) ∧ t'.now = t.now.revert old
  | .commit => t' = { t with saved := t.now.revert t.pending }
  | .crash => t' = { t with now := t.saved, pending := fun _ _ => none, valid := fun _ => false }

section
variable (sb : SuperBlock)

def FsState.bytes (s : FsState) (i : Nat) : List Byte :=
  (List.range (s.inode sb i).size.toNat).map fun k => (s.content sb i k).getD 0

def FsState.fileOf (s : FsState) (i : Nat) : File where
  type := (s.inode sb i).type
  major := (s.inode sb i).major
  minor := (s.inode sb i).minor
  nlink := (s.inode sb i).nlink
  bytes := s.bytes sb i

def FsState.files (s : FsState) : Files := fun i =>
  if i < sb.ninodes ∧ (s.inode sb i).type ≠ 0 then some (s.fileOf sb i) else none

/-- Where the disk `d` has other bytes of the files. -/
def FsState.diff (s : FsState) (d : Disk) (i k : Nat) : Option Byte :=
  if k / bsize < maxFile then
    (s.ptr sb (i, place (k / bsize))).bind fun b =>
      if d b (k % bsize) = s.disk b (k % bsize) then none else some (d b (k % bsize))
  else none

def FsState.valid (s : FsState) (i : Nat) : Bool := (s.icache i).isSome

def FsState.store (s : FsState) : Store where
  now := s.files sb
  pending := s.diff sb s.kept
  saved := s.crash.files sb
  valid := s.valid

/-! ## The invariant -/

structure FsInv (s : FsState) : Prop where
  sound : Sound sb s
  cached : ∀ j ip, s.icache j = some ip → ip = dinode sb s.disk j ∧ ip.type ≠ 0 ∧ j < sb.ninodes
  blank : ∀ j < sb.ninodes, (s.inode sb j).type = 0 → ∀ p, s.ptr sb (j, p) = none
  size : ∀ j < sb.ninodes, (s.inode sb j).size.toNat ≤ maxFile * bsize
  filled : ∀ j < sb.ninodes, ∀ k < (s.inode sb j).size.toNat, s.content sb j k ≠ none

/-- Only data blocks of files differ from what is on the disk without being logged, and what a crash
leaves is in order. -/
structure FsOk (s : FsState) : Prop extends FsInv sb s where
  clean : ∀ b ∉ s.logged, b < dataStart sb ∨ (∃ j, s.ptr sb (j, .indirect) = some b) → s.disk b = s.saved b
  durable : FsInv sb s.crash

end

end Fs

end OsLab
