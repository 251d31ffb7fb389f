import OsLab.Proc

/-!
# Page tables in physical memory

`kalloc.c` and `vm.c` once more, on the words of physical memory: the free list
is linked through the free pages, and a page table is a tree of pages of 512
entries that `walk` descends. As in `Vm.lean`, addresses that are multiples of
`PGSIZE` appear as page numbers.
-/

namespace OsLab

abbrev Ram := Page → Nat → Word

/-- The memory and `kmem.freelist`. `kend` is the first page after the kernel, which the linker
decides. -/
structure Phys where
  ram : Ram
  freelist : Word
  kend : Page

/-- The panics of `Vm.lean`, and those that only this level has. -/
inductive Halt
  | panic (e : Panic)
  | kfree -- kfree
  | filedup -- filedup
  | deep -- freewalk goes on below the last level

abbrev Pm := Mach Halt Phys

namespace Phys

/-! ## Words -/

def addr (pa : Page) : Word := BitVec.ofNat 64 pa <<< 12

def pageOf (a : Word) : Page := (a >>> 12).toNat

def phystop : Page := 0x88000

def pteV : Word := 1
def pteR : Word := 2
def pteW : Word := 4
def pteX : Word := 8
def pteU : Word := 16

def pa2pte (pa : Page) : Word := (addr pa >>> 12) <<< 10

def pte2pa (pte : Word) : Page := pageOf ((pte >>> 10) <<< 12)

def pteFlags (pte : Word) : Word := pte &&& 0x3FF

def px (level v : Nat) : Nat := v / 512 ^ level % 512

def Valid (pte : Word) : Prop := pte &&& pteV ≠ 0

def IsLeaf (pte : Word) : Prop := pte &&& (pteR ||| pteW ||| pteX) ≠ 0

instance (pte : Word) : Decidable (Valid pte) := inferInstanceAs (Decidable (_ ≠ _))

instance (pte : Word) : Decidable (IsLeaf pte) := inferInstanceAs (Decidable (_ ≠ _))

/-! ## Memory accesses -/

def setWord (ram : Ram) (pa : Page) (i : Nat) (w : Word) : Ram :=
  Function.update ram pa (Function.update (ram pa) i w)

def load (pa : Page) (i : Nat) : Pm Word := fun m => .ok (m.ram pa i, m)

def store (pa : Page) (i : Nat) (w : Word) : Pm Unit :=
  Mach.modify fun m => { m with ram := setWord m.ram pa i w }

def memset (pa : Page) (w : Word) : Pm Unit :=
  Mach.modify fun m => { m with ram := Function.update m.ram pa fun _ => w }

def memmove (dst src : Page) : Pm Unit :=
  Mach.modify fun m => { m with ram := Function.update m.ram dst (m.ram src) }

/-! ## The allocator -/

def kalloc : Pm (Option Page) := fun m =>
  if m.freelist = 0 then .ok (none, m)
  else
    let r := pageOf m.freelist
    .ok (some r, { m with
      freelist := m.ram r 0, ram := Function.update m.ram r fun _ => 0x0505050505050505 })

def kfree (pa : Page) : Pm Unit := fun m =>
  if pa < m.kend ∨ pa ≥ phystop then .error .kfree
  else
    let junk := Function.update m.ram pa fun _ => 0x0101010101010101
    .ok ((), { m with ram := setWord junk pa 0 m.freelist, freelist := addr pa })

/-! ## Walking and mapping -/

def walkFrom (v : Nat) (alloc : Bool) : Nat → Page → Pm (Option (Page × Nat))
  | 0, pt => pure (some (pt, px 0 v))
  | level + 1, pt => do
    let pte ← load pt (px (level + 1) v)
    if Valid pte then walkFrom v alloc level (pte2pa pte)
    else if alloc then do
      match ← kalloc with
      | none => pure none
      | some pa => do
        memset pa 0
        store pt (px (level + 1) v) (pa2pte pa ||| pteV)
        walkFrom v alloc level pa
    else pure none

def walk (pt : Page) (v : Nat) (alloc : Bool) : Pm (Option (Page × Nat)) :=
  if v ≥ maxVa then Mach.fail (.panic .walk) else walkFrom v alloc 2 pt

/-- The valid entry for page `v` and where it is, as `walk(pagetable, va, 0)` and the test of `PTE_V`
find it. -/
def present (pt : Page) (v : Nat) : Pm (Option (Page × Nat × Word)) := do
  match ← walk pt v false with
  | none => pure none
  | some (t, i) => do
    let pte ← load t i
    if Valid pte then pure (some (t, i, pte)) else pure none

def mappages (pt : Page) (v : Nat) (pa : Page) (perm : Word) : Pm Bool := do
  match ← walk pt v true with
  | none => pure false
  | some (t, i) => do
    let pte ← load t i
    if Valid pte then Mach.fail (.panic .remap)
    else do
      store t i (pa2pte pa ||| perm ||| pteV)
      pure true

def uvmcreate : Pm (Option Page) := do
  match ← kalloc with
  | none => pure none
  | some pa => do
    memset pa 0
    pure (some pa)

def uvmunmap (pt : Page) (v : Nat) (n : Nat) (doFree : Bool) : Pm Unit :=
  match n with
  | 0 => pure ()
  | n + 1 => do
    match ← present pt v with
    | none => uvmunmap pt (v + 1) n doFree
    | some (t, i, pte) => do
      if doFree then kfree (pte2pa pte)
      store t i 0
      uvmunmap pt (v + 1) n doFree

/-! ## Freeing -/

/-- The body of `freewalk`; `child` is the recursive call. -/
def freePage (child : Page → Pm Unit) (pt : Page) : Pm Unit := do
  Mach.upTo 512 fun i => do
    let pte ← load pt i
    if Valid pte ∧ ¬ IsLeaf pte then do
      child (pte2pa pte)
      store pt i 0
    else if Valid pte then Mach.fail (.panic .leaf)
    else pure ()
  kfree pt

def freewalk : Nat → Page → Pm Unit
  | 0 => freePage fun _ => Mach.fail .deep
  | level + 1 => freePage (freewalk level)

def uvmfree (pt : Page) (sz : Nat) : Pm Unit := do
  if sz > 0 then uvmunmap pt 0 (pgRoundUp sz) true
  freewalk 2 pt

/-! ## Copying and mirroring -/

def uvmcopyLoop (old new : Page) (i : Nat) (n : Nat) : Pm Bool :=
  match n with
  | 0 => pure true
  | n + 1 => do
    match ← present old i with
    | none => uvmcopyLoop old new (i + 1) n
    | some (_, _, pte) => do
      match ← kalloc with
      | none => do
        uvmunmap new 0 i true
        pure false
      | some mem => do
        memmove mem (pte2pa pte)
        if ← mappages new i mem (pteFlags pte) then uvmcopyLoop old new (i + 1) n
        else do
          kfree mem
          uvmunmap new 0 i true
          pure false

def uvmcopy (old new : Page) (sz : Nat) : Pm Bool := uvmcopyLoop old new 0 (pgRoundUp sz)

def uvmmirrorLoop (old new : Page) (i : Nat) (n : Nat) : Pm Bool :=
  match n with
  | 0 => pure true
  | n + 1 => do
    match ← walk old i false with
    | none => Mach.fail (.panic .noPte)
    | some (t, k) => do
      let pte ← load t k
      if Valid pte then do
        if ← mappages new i (pte2pa pte) (pteFlags pte) then uvmmirrorLoop old new (i + 1) n
        else do
          uvmunmap new 0 i false
          pure false
      else Mach.fail (.panic .notPresent)

def uvmmirror (old new : Page) (sz : Nat) : Pm Bool := uvmmirrorLoop old new 0 (pgRoundUp sz)

/-! ## Page tables of processes -/

def procPagetable (tf : Page) : Pm (Option Page) := do
  match ← uvmcreate with
  | none => pure none
  | some pt => do
    if ← mappages pt trampoline trampolinePa (pteR ||| pteX) then do
      if ← mappages pt trapframeVa tf (pteR ||| pteW) then pure (some pt)
      else do
        uvmunmap pt trampoline 1 false
        uvmfree pt 0
        pure none
    else do
      uvmfree pt 0
      pure none

def procFreepagetable (pt : Page) (sz : Nat) : Pm Unit := do
  uvmunmap pt trampoline 1 false
  uvmunmap pt trapframeVa 1 false
  uvmfree pt sz

def threadFreepagetable (pt : Page) (sz : Nat) : Pm Unit := do
  uvmunmap pt 0 (pgRoundUp sz) false
  uvmunmap pt trampoline 1 false
  uvmunmap pt trapframeVa 1 false
  uvmfree pt 0

end Phys

end OsLab
