import OsLab.PhysRefine

/-!
# The start of a new process

How `kfork` and `clone` end on the words of memory: the trapframe of the new
process is a copy of its creator's, and its record is filled. Nothing but this
page, the slot and the reference counts changes.
-/

namespace OsLab

open Mach Phys

namespace PhysKernel

variable {σ σ' σ'' : PhysKernel} {i j z : Slot} {isThread : Bool} {regs : Page → Pm Unit} {src dst : Page}

theorem lift_spec {α : Type} {x : Pm α} {Q : α → PhysKernel → Prop}
    (h : Ensures x σ.mem fun a m => Q a { σ with mem := m }) : Ensures (lift x) σ Q := by
  intro a σ' hσ
  unfold lift at hσ
  cases hx : x σ.mem with
  | error e => rw [hx] at hσ; cases hσ
  | ok r =>
    rw [hx] at hσ
    cases hσ
    exact h r.1 r.2 hx

theorem getProc_spec {Q : PhysProc → PhysKernel → Prop} (h : Q (σ.proc z) σ) : Ensures (getProc z) σ Q := by
  intro p σ' hσ
  cases hσ
  exact h

structure Fills (σ : PhysKernel) (j : Slot) (σ' : PhysKernel) : Prop where
  mem : σ'.mem = σ.mem
  other : ∀ z, z ≠ j → σ'.proc z = σ.proc z
  pid : (σ'.proc j).pid = (σ.proc j).pid
  pagetable : (σ'.proc j).pagetable = (σ.proc j).pagetable
  trapframe : (σ'.proc j).trapframe = (σ.proc j).trapframe

theorem Fills.refl (σ : PhysKernel) (j : Slot) : Fills σ j σ := ⟨rfl, fun _ _ => rfl, rfl, rfl, rfl⟩

theorem Fills.trans (h : Fills σ j σ') (h' : Fills σ' j σ'') : Fills σ j σ'' where
  mem := h'.mem.trans h.mem
  other := fun z hz => (h'.other z hz).trans (h.other z hz)
  pid := h'.pid.trans h.pid
  pagetable := h'.pagetable.trans h.pagetable
  trapframe := h'.trapframe.trans h.trapframe

theorem setProc_fills {f : PhysProc → PhysProc} (hp : ∀ p, (f p).pid = p.pid)
    (ht : ∀ p, (f p).pagetable = p.pagetable) (hf : ∀ p, (f p).trapframe = p.trapframe) :
    Ensures (setProc j f) σ fun _ σ' => Fills σ j σ' := by
  refine Ensures.modify ⟨rfl, fun z hz => Function.update_of_ne hz .., ?_, ?_, ?_⟩
  all_goals dsimp only
  all_goals rw [Function.update_self]
  · exact hp _
  · exact ht _
  · exact hf _

theorem filedup_fills (j : Slot) (f : Nat) : Ensures (filedup f) σ fun _ σ' => Fills σ j σ' := by
  intro _ σ' hσ
  unfold filedup at hσ
  split at hσ
  · cases hσ
  · cases hσ
    exact ⟨rfl, fun _ _ => rfl, rfl, rfl, rfl⟩

theorem dupFiles_fills : Ensures (dupFiles i j) σ fun _ σ' => Fills σ j σ' := by
  refine Ensures.upTo (I := fun _ σ' => Fills σ j σ') (Fills.refl σ j) fun fd _ σ₁ h₁ => ?_
  refine Ensures.bind (getProc_spec ?_)
  cases (σ₁.proc i).ofile fd with
  | none => exact Ensures.pure h₁
  | some f =>
    refine Ensures.bind ((filedup_fills j f).mono fun _ σ₂ h₂ => ?_)
    refine (setProc_fills ?_ ?_ ?_).mono fun _ σ₃ h₃ => h₁.trans (h₂.trans h₃)
    all_goals exact fun _ => rfl

theorem idup_fills (j : Slot) (ip : Option Nat) : Ensures (idup ip) σ fun _ σ' => Fills σ j σ' :=
  Ensures.bind (Ensures.deref fun _ _ => Ensures.modify ⟨rfl, fun _ _ => rfl, rfl, rfl, rfl⟩)

structure Started (σ : PhysKernel) (i j : Slot) (regs : Page → Pm Unit) (r : Int) (σ' : PhysKernel) : Prop where
  result : r = (σ.proc j).pid
  frame : ∃ src dst, (σ.proc i).trapframe = some src ∧ (σ.proc j).trapframe = some dst ∧
    (do copyFrame dst src; regs dst) σ.mem = .ok ((), σ'.mem)
  other : ∀ z, z ≠ j → σ'.proc z = σ.proc z
  pid : (σ'.proc j).pid = (σ.proc j).pid
  pagetable : (σ'.proc j).pagetable = (σ.proc j).pagetable
  trapframe : (σ'.proc j).trapframe = (σ.proc j).trapframe

theorem startChild_spec : Ensures (startChild i j isThread regs) σ fun r σ' => Started σ i j regs r σ' := by
  refine Ensures.bind (getProc_spec (Ensures.bind ((setProc_fills ?_ ?_ ?_).mono fun _ σ₁ h₁ => ?_)))
  iterate 3 exact fun _ => rfl
  refine Ensures.bind (Ensures.deref fun src hsrc => Ensures.bind (getProc_spec (Ensures.bind ?_)))
  refine Ensures.deref fun dst hdst => Ensures.bind (lift_spec (Ensures.modify (Ensures.bind (lift_spec ?_))))
  intro _ m hm
  refine Ensures.bind (dupFiles_fills.mono fun _ σ₃ h₃ => Ensures.bind ((idup_fills j _).mono fun _ σ₄ h₄ => ?_))
  refine Ensures.bind ((setProc_fills ?_ ?_ ?_).mono fun _ σ₅ h₅ => Ensures.bind (getProc_spec ?_))
  iterate 3 exact fun _ => rfl
  refine Ensures.bind ((setProc_fills ?_ ?_ ?_).mono fun _ σ₆ h₆ => ?_)
  iterate 3 exact fun _ => rfl
  refine Ensures.bind ((setProc_fills ?_ ?_ ?_).mono fun _ σ₇ h₇ => Ensures.pure ?_)
  iterate 3 exact fun _ => rfl
  have h := h₃.trans (h₄.trans h₅)
  have h' := h.trans (h₆.trans h₇)
  refine ⟨h.pid.trans h₁.pid, ⟨src, dst, hsrc, h₁.trapframe ▸ hdst, ?_⟩,
    fun z hz => (h'.other z hz).trans (h₁.other z hz), h'.pid.trans h₁.pid,
    h'.pagetable.trans h₁.pagetable, h'.trapframe.trans h₁.trapframe⟩
  rw [h'.mem, ← hm, h₁.mem]
  exact bind_ok rfl

theorem lift_ok {α : Type} {x : Pm α} {a : α} {m : Phys} (h : x σ.mem = .ok (a, m)) :
    lift x σ = .ok (a, { σ with mem := m }) := by
  unfold lift
  rw [h]

theorem startChild_runs {n : Nat} (hij : i ≠ j) (hsrc : (σ.proc i).trapframe = some src)
    (hdst : (σ.proc j).trapframe = some dst) (hfiles : (σ.proc i).ofile = fun _ => none)
    (hcwd : (σ.proc i).cwd = some n) (hregs : ∀ m, ∃ m', regs dst m = .ok ((), m')) :
    ∃ r σ', startChild i j isThread regs σ = .ok (r, σ') := by
  suffices h : Simulates Halt.panic (startChild i j isThread regs) σ (pure () : Mach Panic Unit Unit) ()
      fun _ _ _ _ => True by
    obtain ⟨r, σ', hrun, -⟩ := h.succeeds () () rfl
    exact ⟨r, σ', hrun⟩
  refine .left rfl (.left rfl ?_)
  rw [hsrc]
  refine .left rfl (.left rfl ?_)
  dsimp only
  rw [Function.update_self]
  dsimp only
  rw [hdst]
  refine .left rfl (.left (lift_ok rfl) ?_)
  obtain ⟨m, hm⟩ := hregs { σ.mem with
    ram := Function.update σ.mem.ram dst fun k => if k < trapframeWords then σ.mem.ram src k else σ.mem.ram dst k }
  refine .left (lift_ok hm) (.left (upTo_skip fun fd => ?_) ?_)
  · refine (bind_ok rfl).trans ?_
    dsimp only
    rw [Function.update_of_ne hij, hfiles]
    rfl
  · rw [hcwd]
    exact .left rfl (.left rfl (.left rfl (.left rfl (.left rfl (.pure trivial)))))

/-! ## The whole call -/

section
variable {share : Page → Page → Nat → Pm Bool}
  {share' : PageTable → PageTable → Nat → Vm (Bool × PageTable)}
  {fill : (Nat → Option Word) → (Nat → Option Word) → Nat → (Nat → Option Word) → Prop} {k : Kernel}

/-- All that `kfork` and `clone` do when they end with `r`: they give the slot back, or they start a
process on the pages they took. -/
inductive Makes (fill : (Nat → Option Word) → (Nat → Option Word) → Nat → (Nat → Option Word) → Prop)
    (σ : PhysKernel) (k : Kernel) (i : Slot) (regs : Page → Pm Unit) : Int → PhysKernel → Prop
  | undone {σ' : PhysKernel} {k' : Kernel} (h : Undone σ k σ' k') : Makes fill σ k i regs (-1) σ'
  | started {j : Slot} {pa : Page} {old new : PageTable} {Wo W : Nat → Option Word} {σ₁ σ' : PhysKernel}
      {k₁ : Kernel} {r : Int} (h : Created fill σ k i j pa old new Wo W σ₁ k₁)
      (hs : Started σ₁ i j regs r σ') : Makes fill σ k i regs r σ'

theorem newproc_makes (hshare : SharesSim share share' fill) (hsh : Kernel.Shares share' isThread)
    (hr : Rep σ k) (hw : k.Wf) (hi : (k.proc i).state ≠ .unused) :
    Ensures (newproc share isThread regs i) σ fun r σ' => Makes fill σ k i regs r σ' := by
  refine Ensures.bind (Ensures.mono (create_sim hshare hsh hr hw hi).refines ?_)
  rintro r σ₁ ⟨r', k₁, -, hr', hnone, hsome⟩
  cases r with
  | none => exact Ensures.pure (.undone (hnone rfl))
  | some j =>
    obtain ⟨⟨_, p⟩, hp, rfl⟩ := Option.map_eq_some_iff.mp hr'.symm
    obtain ⟨-, pa, old, new, Wo, W, hc⟩ := hsome _ p hp
    exact startChild_spec.mono fun _ _ hs => .started hc hs

end

end PhysKernel

end OsLab
