import Mathlib.Algebra.Group.Int.Defs
import Mathlib.Algebra.Group.Nat.Defs
import Mathlib.Algebra.GroupWithZero.Nat
import Mathlib.Logic.Function.Basic
import OsLab.Machine

/-!
# Physical pages and user page tables

`kalloc.c` and `vm.c`. A physical page is a number, and the allocator's state
is the free list. Virtual addresses that are multiples of `PGSIZE` appear as
page numbers; every caller of `walk`, `mappages` and `uvmunmap` passes such an
address.
-/

namespace OsLab

abbrev Page := Nat

/-! ## The page allocator -/

/-- Where the kernel stops: its calls of `panic`, and a null pointer. -/
inductive Panic
  | walk -- walk
  | remap -- mappages: remap
  | leaf -- freewalk: leaf
  | noPte -- uvmmirror: pte should exist
  | notPresent -- uvmmirror: page not present
  | uvmclear -- uvmclear
  | loadseg -- loadseg: address should exist
  | initExiting -- init exiting
  | exec -- exec
  | null -- kerneltrap
deriving DecidableEq

abbrev Vm := Mach Panic (List Page)

def kalloc : Vm (Option Page) := fun free =>
  match free with
  | [] => .ok (none, [])
  | r :: free' => .ok (some r, free')

def kfree (pa : Page) : Vm Unit := fun free => .ok ((), pa :: free)

/-! ## Addresses -/

def pgSize : Nat := 4096

@[irreducible] def maxVa : Nat := 2 ^ 26

def trampoline : Nat := maxVa - 1
def trapframeVa : Nat := trampoline - 1

def pgRoundUp (sz : Nat) : Nat := (sz + 4095) / 4096

/-! ## Page tables -/

/-- A valid leaf entry: the physical page and the permission bits. `mirrored`
is a ghost: `uvmmirror` sets it and no function reads it. -/
structure Pte where
  pa : Page
  r : Bool
  w : Bool
  x : Bool
  u : Bool
  mirrored : Bool
deriving DecidableEq

/-- A three-level page table. A page-table page and a leaf entry are named by
the bits of the virtual address that lead to them, so that `dir i` is the page
behind entry `i` of the root, `tab j` the page behind entry `j % 512` of
`dir (j / 512)`, and `leaf v` entry `v % 512` of `tab (v / 512)`. -/
structure PageTable where
  root : Page
  dir : Nat → Option Page
  tab : Nat → Option Page
  leaf : Nat → Option Pte
  dir_lt : ∀ i, 512 ≤ i → dir i = none
  tab_dir : ∀ j, dir (j / 512) = none → tab j = none
  leaf_tab : ∀ v, tab (v / 512) = none → leaf v = none

namespace PageTable

def empty (root : Page) : PageTable where
  root := root
  dir := fun _ => none
  tab := fun _ => none
  leaf := fun _ => none
  dir_lt := fun _ _ => rfl
  tab_dir := fun _ _ => rfl
  leaf_tab := fun _ _ => rfl

def addDir (pt : PageTable) (i : Nat) (pa : Page) : PageTable :=
  if h : i < 512 then
    { pt with
      dir := Function.update pt.dir i (some pa)
      dir_lt := fun k hk => by
        rw [Function.update_of_ne (by omega)]
        exact pt.dir_lt k hk
      tab_dir := fun j hj => by
        by_cases hi : j / 512 = i
        · rw [hi, Function.update_self] at hj; cases hj
        · rw [Function.update_of_ne hi] at hj; exact pt.tab_dir j hj }
  else pt

def addTab (pt : PageTable) (j : Nat) (pa : Page) : PageTable :=
  if h : pt.dir (j / 512) = none then pt
  else
    { pt with
      tab := Function.update pt.tab j (some pa)
      tab_dir := fun k hk => by
        by_cases hj : k = j
        · subst hj; exact absurd hk h
        · rw [Function.update_of_ne hj]; exact pt.tab_dir k hk
      leaf_tab := fun v hv => by
        by_cases hj : v / 512 = j
        · rw [hj, Function.update_self] at hv; cases hv
        · rw [Function.update_of_ne hj] at hv; exact pt.leaf_tab v hv }

def setLeaf (pt : PageTable) (v : Nat) (e : Option Pte) : PageTable :=
  if h : pt.tab (v / 512) = none then pt
  else
    { pt with
      leaf := Function.update pt.leaf v e
      leaf_tab := fun k hk => by
        by_cases hv : k = v
        · subst hv; exact absurd hk h
        · rw [Function.update_of_ne hv]; exact pt.leaf_tab k hk }

end PageTable

/-! ## Walking and mapping -/

def walk (pt : PageTable) (v : Nat) : Vm Bool :=
  if v ≥ maxVa then Mach.fail .walk
  else pure ((pt.dir (v / 512 / 512)).isSome && (pt.tab (v / 512)).isSome)

def walkDir (pt : PageTable) (v : Nat) : Vm (Bool × PageTable) :=
  if (pt.dir (v / 512 / 512)).isSome then pure (true, pt)
  else do
    match ← kalloc with
    | none => pure (false, pt)
    | some pa => pure (true, pt.addDir (v / 512 / 512) pa)

def walkTab (pt : PageTable) (v : Nat) : Vm (Bool × PageTable) :=
  if (pt.tab (v / 512)).isSome then pure (true, pt)
  else do
    match ← kalloc with
    | none => pure (false, pt)
    | some pa => pure (true, pt.addTab (v / 512) pa)

/-- `walk` with `alloc = 1`; page-table pages made before a failure stay. -/
def walkAlloc (pt : PageTable) (v : Nat) : Vm (Bool × PageTable) :=
  if v ≥ maxVa then Mach.fail .walk
  else do
    let (ok, pt) ← walkDir pt v
    if ok then walkTab pt v else pure (false, pt)

def present (pt : PageTable) (v : Nat) : Vm (Option Pte) := do
  if ← walk pt v then pure (pt.leaf v) else pure none

def walkaddr (pt : PageTable) (v : Nat) : Vm (Option Page) :=
  if v ≥ maxVa then pure none
  else do
    match ← present pt v with
    | none => pure none
    | some pte => pure (if pte.u then some pte.pa else none)

def mappages (pt : PageTable) (v : Nat) (pte : Pte) : Vm (Bool × PageTable) := do
  let (ok, pt) ← walkAlloc pt v
  if ok then
    if (pt.leaf v).isSome then Mach.fail .remap
    else pure (true, pt.setLeaf v (some pte))
  else pure (false, pt)

def uvmcreate : Vm (Option PageTable) := do
  match ← kalloc with
  | none => pure none
  | some pa => pure (some (PageTable.empty pa))

def uvmunmap (pt : PageTable) (v : Nat) (n : Nat) (doFree : Bool) : Vm PageTable :=
  match n with
  | 0 => pure pt
  | n + 1 => do
    match ← present pt v with
    | none => uvmunmap pt (v + 1) n doFree
    | some pte =>
      if doFree then kfree pte.pa
      uvmunmap (pt.setLeaf v none) (v + 1) n doFree

/-! ## Growing, shrinking and freeing -/

def uvmdealloc (pt : PageTable) (oldsz newsz : Nat) : Vm (Nat × PageTable) :=
  if newsz ≥ oldsz then pure (oldsz, pt)
  else do
    let pt ← if pgRoundUp newsz < pgRoundUp oldsz then
        uvmunmap pt (pgRoundUp newsz) (pgRoundUp oldsz - pgRoundUp newsz) true
      else pure pt
    pure (newsz, pt)

/-- The loop of `uvmalloc`: `n` pages to go, at page `a`; `oldsz` is the page
it started from. -/
def uvmallocLoop (oldsz : Nat) (w x : Bool) (pt : PageTable) (a : Nat) (n : Nat) :
    Vm (Bool × PageTable) :=
  match n with
  | 0 => pure (true, pt)
  | n + 1 => do
    match ← kalloc with
    | none =>
      let pt ← uvmunmap pt oldsz (a - oldsz) true
      pure (false, pt)
    | some mem =>
      let (ok, pt) ← mappages pt a ⟨mem, true, w, x, true, false⟩
      if ok then uvmallocLoop oldsz w x pt (a + 1) n
      else do
        kfree mem
        let pt ← uvmunmap pt oldsz (a - oldsz) true
        pure (false, pt)

def uvmalloc (pt : PageTable) (oldsz newsz : Nat) (w x : Bool) : Vm (Nat × PageTable) :=
  if newsz < oldsz then pure (oldsz, pt)
  else do
    let a := pgRoundUp oldsz
    let (ok, pt) ← uvmallocLoop a w x pt a (pgRoundUp newsz - a)
    pure (if ok then newsz else 0, pt)

def freeTab (pt : PageTable) (j : Nat) (pa : Page) : Vm Unit := do
  Mach.upTo 512 fun k => if (pt.leaf (512 * j + k)).isSome then Mach.fail .leaf else pure ()
  kfree pa

def freeDir (pt : PageTable) (i : Nat) (pa : Page) : Vm Unit := do
  Mach.upTo 512 fun k =>
    match pt.tab (512 * i + k) with
    | none => pure ()
    | some child => freeTab pt (512 * i + k) child
  kfree pa

def freewalk (pt : PageTable) : Vm Unit := do
  Mach.upTo 512 fun i =>
    match pt.dir i with
    | none => pure ()
    | some child => freeDir pt i child
  kfree pt.root

def uvmfree (pt : PageTable) (sz : Nat) : Vm Unit := do
  let pt ← if sz > 0 then uvmunmap pt 0 (pgRoundUp sz) true else pure pt
  freewalk pt

/-! ## Copying and mirroring -/

def uvmcopyLoop (old new : PageTable) (i : Nat) (n : Nat) : Vm (Bool × PageTable) :=
  match n with
  | 0 => pure (true, new)
  | n + 1 => do
    match ← present old i with
    | none => uvmcopyLoop old new (i + 1) n
    | some pte =>
      match ← kalloc with
      | none =>
        let new ← uvmunmap new 0 i true
        pure (false, new)
      | some mem =>
        let (ok, new) ← mappages new i { pte with pa := mem, mirrored := false }
        if ok then uvmcopyLoop old new (i + 1) n
        else do
          kfree mem
          let new ← uvmunmap new 0 i true
          pure (false, new)

def uvmcopy (old new : PageTable) (sz : Nat) : Vm (Bool × PageTable) :=
  uvmcopyLoop old new 0 (pgRoundUp sz)

def uvmmirrorLoop (old new : PageTable) (i : Nat) (n : Nat) : Vm (Bool × PageTable) :=
  match n with
  | 0 => pure (true, new)
  | n + 1 => do
    if ← walk old i then
      match old.leaf i with
      | none => Mach.fail .notPresent
      | some pte =>
        let (ok, new) ← mappages new i { pte with mirrored := true }
        if ok then uvmmirrorLoop old new (i + 1) n
        else do
          let new ← uvmunmap new 0 i false
          pure (false, new)
    else Mach.fail .noPte

def uvmmirror (old new : PageTable) (sz : Nat) : Vm (Bool × PageTable) :=
  uvmmirrorLoop old new 0 (pgRoundUp sz)

def uvmclear (pt : PageTable) (v : Nat) : Vm PageTable := do
  if ← walk pt v then
    pure (pt.setLeaf v ((pt.leaf v).map fun pte => { pte with u := false }))
  else Mach.fail .uvmclear

/-! ## Page faults and copies to user memory -/

def vmfault (pt : PageTable) (sz va : Nat) : Vm (Option Page × PageTable) :=
  if va ≥ sz then pure (none, pt)
  else do
    match ← present pt (va / pgSize) with
    | some _ => pure (none, pt)
    | none =>
      match ← kalloc with
      | none => pure (none, pt)
      | some mem =>
        let (ok, pt) ← mappages pt (va / pgSize) ⟨mem, true, true, false, true, false⟩
        if ok then pure (some mem, pt)
        else do
          kfree mem
          pure (none, pt)

def copyoutPage (pt : PageTable) (sz v : Nat) : Vm (Bool × PageTable) :=
  if v ≥ maxVa then pure (false, pt)
  else do
    let (found, pt) ← match ← walkaddr pt v with
      | some _ => pure (true, pt)
      | none => do
        let (pa, pt) ← vmfault pt sz (v * pgSize)
        pure (pa.isSome, pt)
    if found then
      match ← present pt v with
      | some pte => pure (pte.w, pt)
      | none => pure (false, pt)
    else pure (false, pt)

def copyoutLoop (pt : PageTable) (sz v : Nat) (n : Nat) : Vm (Bool × PageTable) :=
  match n with
  | 0 => pure (true, pt)
  | n + 1 => do
    let (ok, pt) ← copyoutPage pt sz v
    if ok then copyoutLoop pt sz (v + 1) n else pure (false, pt)

def copyout (pt : PageTable) (sz dstva len : Nat) : Vm (Bool × PageTable) :=
  if len = 0 then pure (true, pt)
  else copyoutLoop pt sz (dstva / pgSize) ((dstva + len - 1) / pgSize + 1 - dstva / pgSize)

end OsLab
