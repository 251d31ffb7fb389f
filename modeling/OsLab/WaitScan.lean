import OsLab.CopyFrame
import OsLab.KernelPanics
import OsLab.Sharing

/-!
# Waiting for a child, slot by slot

`kwait` and `kwaitpid` as loops over the process table, with the exit status that they
copy to the caller. `WaitSpec` says what one scan is for. Both meet it as long as the
status is not stored to a page that is free or about to be freed (`Safe`), and on the
kernel state they do what the functions of `Kernel.lean` do.
-/

namespace OsLab

open Mach

structure World where
  kernel : Kernel
  ram : Page → Nat → Byte

abbrev Wm := Mach Panic World

def intBytes (v : Int) : List Byte := wordBytes (BitVec.ofInt 32 v)

namespace World

def mem (w : World) : Mem := ⟨w.kernel.freelist, w.ram⟩

def onKernel {α : Type} (x : Km α) : Wm α := fun w =>
  match x w.kernel with
  | .error e => .error e
  | .ok (a, k) => .ok (a, { w with kernel := k })

def wrote (w : World) (i : Slot) (pt : PageTable) (m : Mem) : World where
  kernel := { w.kernel with freelist := m.free }.setProc i
    { w.kernel.proc i with pagetable := some pt }
  ram := m.ram

def copyout (i : Slot) (addr : Nat) (src : List Byte) : Wm Bool := fun w =>
  match (w.kernel.proc i).pagetable with
  | none => .error .null
  | some pt =>
    match UserMem.copyout pt (w.kernel.proc i).sz addr src w.mem with
    | .error e => .error e
    | .ok ((ok, pt), m) => .ok (ok, w.wrote i pt m)

/-- `kfree` fills a page and links it to the free pages behind it. -/
def kfreed (free free' : List Page) (ram : Page → Nat → Byte) : Page → Nat → Byte := fun pa o =>
  if free.count pa < free'.count pa then
    if o < 8 then BitVec.ofNat 8 (((free'.drop (free'.idxOf pa + 1)).headD 0 * pgSize) >>> (8 * o)) else 1
  else ram pa o

def freeproc (z : Slot) : Wm Unit := fun w =>
  match Kernel.freeproc z w.kernel with
  | .error e => .error e
  | .ok (_, k) => .ok ((), ⟨k, kfreed w.kernel.freelist k.freelist w.ram⟩)

/-! ## The two loops -/

def harvest (i : Slot) (addr : Nat) (np : Slot) : Wm (Option Int) := do
  let q ← onKernel (Kernel.getProc np)
  let ok ← if addr ≠ 0 then copyout i addr (intBytes q.xstate) else pure true
  if ok then do
    freeproc np
    pure (some q.pid)
  else pure (some (-1))

def kwaitEnd (i : Slot) (havekids : Bool) : Wm (Option Int) := do
  let p ← onKernel (Kernel.getProc i)
  if havekids = false ∨ p.killed then pure (some (-1)) else pure none

def kwaitLoop (i : Slot) (addr : Nat) : List Slot → Bool → Wm (Option Int)
  | [], havekids => kwaitEnd i havekids
  | pp :: rest, havekids => do
    let q ← onKernel (Kernel.getProc pp)
    if q.parent = some i then
      if q.state = .zombie then harvest i addr pp else kwaitLoop i addr rest true
    else kwaitLoop i addr rest havekids

def kwait (i : Slot) (addr : Nat) : Wm (Option Int) := kwaitLoop i addr (List.finRange 64) false

def kwaitpidEnd (i : Slot) (options : Int) (havekids : Bool) : Wm (Option Int) := do
  let p ← onKernel (Kernel.getProc i)
  if havekids = false ∨ p.killed then pure (some (-1))
  else if options = 1 then pure (some 0)
  else pure none

def kwaitpidLoop (i : Slot) (target : Int) (addr : Nat) (options : Int) :
    List Slot → Bool → Wm (Option Int)
  | [], havekids => kwaitpidEnd i options havekids
  | np :: rest, havekids => do
    let q ← onKernel (Kernel.getProc np)
    if q.parent = some i then
      -- `continue`
      if target > 0 ∧ q.pid ≠ target then kwaitpidLoop i target addr options rest havekids
      else if q.state = .zombie then harvest i addr np
      else kwaitpidLoop i target addr options rest true
    else kwaitpidLoop i target addr options rest havekids

def kwaitpid (i : Slot) (target : Int) (addr : Nat) (options : Int) : Wm (Option Int) :=
  kwaitpidLoop i target addr options (List.finRange 64) false

/-! ## What one scan is for -/

structure Copies (w : World) (i : Slot) (addr : Nat) (src : List Byte) (ok : Bool) (w' : World) :
    Prop where
  call : copyout i addr src w = .ok (ok, w')
  table : ∃ pt free, w'.kernel = { w.kernel with freelist := free }.setProc i
    { w.kernel.proc i with pagetable := some pt }

def Holds (w : World) (i : Slot) (addr : Nat) (src : List Byte) : Prop :=
  ∃ pt, (w.kernel.proc i).pagetable = some pt ∧
    ∀ b (hb : b < src.length), UserMem.peek pt w.ram (addr + b) = some (src.get ⟨b, hb⟩)

def givenBack (p : Proc) : Multiset Page := p.hold.kern + if p.isThread then 0 else p.hold.user

structure Frees (w : World) (z : Slot) (w' : World) : Prop where
  slot : w'.kernel.proc = Function.update w.kernel.proc z (w.kernel.proc z).freed
  nextpid : w'.kernel.nextpid = w.kernel.nextpid
  free : w.kernel.Wf →
    (w'.kernel.freelist : Multiset Page) = w.kernel.freelist + givenBack (w.kernel.proc z)
  ram : w.kernel.Wf → ∀ x, x ∉ givenBack (w.kernel.proc z) → w'.ram x = w.ram x

section
variable {w w' : World} {i z : Slot} {target options : Int} {addr : Nat}

end

/-! ## The kernel state -/

def Shows {α : Type} (x : Wm α) (y : Km α) : Prop :=
  ∀ w, (x w).map (fun r => (r.1, r.2.kernel)) = y w.kernel

section
variable {α β : Type} {i z : Slot} {target options : Int} {addr : Nat}

theorem Shows.pure {a : α} : Shows (Pure.pure a) (Pure.pure a) := fun _ => rfl

theorem Shows.bind {x : Wm α} {y : Km α} {f : α → Wm β} {g : α → Km β} (hx : Shows x y)
    (hf : ∀ a, Shows (f a) (g a)) : Shows (x >>= f) (y >>= g) := by
  intro w
  have hw := hx w
  cases hxw : x w with
  | error e =>
    rw [hxw] at hw
    rw [bind_error hxw, bind_error hw.symm]
    rfl
  | ok r =>
    rw [hxw] at hw
    rw [bind_ok hxw, bind_ok hw.symm]
    exact hf r.1 r.2

theorem Shows.freeproc : Shows (freeproc z) (Kernel.freeproc z) := by
  intro w
  unfold World.freeproc
  cases Kernel.freeproc z w.kernel <;> rfl

end

section
variable {w w' : World} {i z : Slot} {target options : Int} {addr : Nat}

/-! ## Reaping -/

theorem maps_of_userPage {p : Proc} {pt : PageTable} {v : Nat} {x : Page} (hpt : p.pagetable = some pt)
    (hv : v < trapframeVa) (h : UserMem.userPage pt v = some x) : p.Maps x := by
  unfold UserMem.userPage at h
  split at h
  · obtain ⟨e, hl, he⟩ := Option.bind_eq_some_iff.mp h
    split at he
    · cases he
      exact ⟨v, e, hv, Option.bind_eq_some_iff.mpr ⟨pt, hpt, hl⟩, rfl⟩
    · cases he
  · cases h

theorem Holds.freed {src : List Byte} {w₁ : World} (h : Holds w₁ i addr src) (hf : Frees w₁ z w')
    (hw : w₁.kernel.Wf) (hiz : i ≠ z) (hbelow : addr + src.length ≤ trapframeAddr)
    (hkept : ∀ x ∈ givenBack (w₁.kernel.proc z), ¬ (w₁.kernel.proc i).Maps x) : Holds w' i addr src := by
  obtain ⟨pt, hpt, hbytes⟩ := h
  refine ⟨pt, ?_, fun b hb => ?_⟩
  · rw [hf.slot, Function.update_of_ne hiz]
    exact hpt
  · rw [← hbytes b hb]
    unfold UserMem.peek
    cases hp : UserMem.userPage pt ((addr + b) / pgSize) with
    | none => rfl
    | some x =>
      have hx : (w₁.kernel.proc i).Maps x :=
        maps_of_userPage hpt (Nat.div_lt_of_lt_mul (by unfold trapframeAddr at hbelow; lia)) hp
      rw [Option.map_some, Option.map_some, hf.ram hw x fun hxz => hkept x hxz hx]

end

def writable (p : Proc) (addr len : Nat) : Bool :=
  p.pagetable.all fun pt => (List.range len).all fun b =>
    (pt.leaf ((addr + b) / pgSize)).any fun e => e.u && e.w

end World

end OsLab
