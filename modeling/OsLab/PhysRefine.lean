import OsLab.KernelSound
import OsLab.PhysCopy
import OsLab.PhysProc

/-!
# The process table in memory

Which words stand for a state of `Kernel.lean`, and that `kfork` and `clone` on
words do what they do there. What they write is on pages that were free.
-/

namespace OsLab

open Mach Phys

/-! ## Representation -/

def Reg.word : Reg → Nat
  | .ra => 5 | .sp => 6 | .gp => 7 | .tp => 8 | .t0 => 9 | .t1 => 10 | .t2 => 11 | .s0 => 12 | .s1 => 13
  | .a0 => 14 | .a1 => 15 | .a2 => 16 | .a3 => 17 | .a4 => 18 | .a5 => 19 | .a6 => 20 | .a7 => 21
  | .s2 => 22 | .s3 => 23 | .s4 => 24 | .s5 => 25 | .s6 => 26 | .s7 => 27 | .s8 => 28 | .s9 => 29
  | .s10 => 30 | .s11 => 31 | .t3 => 32 | .t4 => 33 | .t5 => 34 | .t6 => 35

structure Saved (c : Nat → Word) (regs : Trapframe) : Prop where
  epc : c PhysKernel.wordEpc = regs.epc
  reg : ∀ r : Reg, c r.word = regs.reg r

def PhysProc.low (q : PhysProc) (pt : Option PageTable) (tf atf : Option Frame) : Proc where
  state := q.state
  killed := q.killed ≠ 0
  xstate := q.xstate
  pid := q.pid
  parent := q.parent
  sz := q.sz
  pagetable := pt
  trapframe := tf
  isThread := q.isThread
  alarmInterval := q.alarmInterval
  alarmTicks := q.alarmTicks
  alarmHandler := q.alarmHandler
  alarmTrapframe := atf
  alarmActive := q.alarmActive

structure ProcRep (ram : Ram) (q : PhysProc) (p : Proc) : Prop where
  low : p = q.low p.pagetable p.trapframe p.alarmTrapframe
  pagetable : q.pagetable = p.pagetable.map PageTable.root
  trapframe : q.trapframe = p.trapframe.map Frame.page
  alarmTrapframe : q.alarmTrapframe = p.alarmTrapframe.map Frame.page
  tree : ∀ pt, p.pagetable = some pt → ∃ W, Tree ram pt W
  frame : ∀ f, p.trapframe = some f → Saved (ram f.page) f.regs
  alarm : ∀ f, p.alarmTrapframe = some f → Saved (ram f.page) f.regs

/-- Memory and process table stand for the kernel state `k`. No page is free or bookkeeping twice, and
all these pages are the allocator's. `nextpid` has not wrapped. -/
structure Rep (σ : PhysKernel) (k : Kernel) : Prop where
  chain : Chain σ.mem.ram σ.mem.freelist k.freelist
  nodup : k.pool.closed.Nodup
  range : ∀ x ∈ k.pool.closed, σ.mem.kend ≤ x ∧ x < phystop
  kend : 0 < σ.mem.kend
  nextpid : k.nextpid = σ.nextpid.toInt
  proc : ∀ z, ProcRep σ.mem.ram (σ.proc z) (k.proc z)

section
variable {ram ram' : Ram} {q : PhysProc} {p : Proc} {pt : PageTable} {f : Frame} {x : Page}

theorem Proc.tables_mem (h : p.pagetable = some pt) (hx : x ∈ pt.tables) : x ∈ p.hold.kern := by
  rw [Proc.hold_some h]
  exact Multiset.mem_add.mpr (.inr hx)

theorem frameAt_mem (f : Frame) : f.page ∈ frameAt (some f) := Multiset.mem_singleton_self f.page

theorem Proc.trapframe_mem (h : p.trapframe = some f) : f.page ∈ p.hold.kern := by
  unfold Proc.hold
  rw [h]
  exact Multiset.mem_add.mpr (.inl (Multiset.mem_add.mpr (.inl (frameAt_mem f))))

theorem Proc.alarmTrapframe_mem (h : p.alarmTrapframe = some f) : f.page ∈ p.hold.kern := by
  unfold Proc.hold
  rw [h]
  exact Multiset.mem_add.mpr (.inl (Multiset.mem_add.mpr (.inr (frameAt_mem f))))

theorem ProcRep.of_frame (h : ProcRep ram q p) (hram : ∀ x ∈ p.hold.kern, ram' x = ram x) :
    ProcRep ram' q p where
  low := h.low
  pagetable := h.pagetable
  trapframe := h.trapframe
  alarmTrapframe := h.alarmTrapframe
  tree := fun pt hpt => by
    obtain ⟨W, ht⟩ := h.tree pt hpt
    exact ⟨W, ht.frame fun x hx => hram x (Proc.tables_mem hpt hx)⟩
  frame := fun f hf => by
    rw [hram _ (Proc.trapframe_mem hf)]
    exact h.frame f hf
  alarm := fun f hf => by
    rw [hram _ (Proc.alarmTrapframe_mem hf)]
    exact h.alarm f hf

theorem ProcRep.lookup {root : Page} {v : Nat} (h : ProcRep ram q p) (hroot : q.pagetable = some root)
    (hv : v < maxVa) : Option.Rel Reads (Phys.lookup ram root v) (p.leaf v) := by
  rw [h.pagetable] at hroot
  obtain ⟨pt, hpt, rfl⟩ := Option.map_eq_some_iff.mp hroot
  obtain ⟨W, ht⟩ := h.tree pt hpt
  unfold Proc.leaf
  rw [ht.lookup hv, hpt]
  exact ht.reads v

theorem ProcRep.state (h : ProcRep ram q p) : p.state = q.state := congrArg Proc.state h.low

theorem ProcRep.sz (h : ProcRep ram q p) : p.sz = q.sz := congrArg Proc.sz h.low

theorem ProcRep.isThread (h : ProcRep ram q p) : p.isThread = q.isThread := congrArg Proc.isThread h.low

end

section
variable {σ σ' σ'' : PhysKernel} {k k' k'' : Kernel} {i j z : Slot} {x : Page}

theorem Rep.kern_le (k : Kernel) (z : Slot) : (k.proc z).hold.kern ≤ ∑ z, (k.proc z).hold.kern :=
  Finset.single_le_sum (f := fun z => (k.proc z).hold.kern) (fun _ _ => Multiset.zero_le _)
    (Finset.mem_univ z)

theorem Rep.not_free (h : Rep σ k) (hx : x ∈ (k.proc z).hold.kern) : x ∉ k.freelist := by
  intro hf
  have hd := (Multiset.nodup_add.mp h.nodup).2.2
  exact Multiset.disjoint_left.mp hd (Multiset.mem_coe.mpr hf) (Multiset.mem_of_le (Rep.kern_le k z) hx)

theorem Rep.entry {v : Nat} {e : Pte} (hr : Rep σ k) (he : (k.proc z).leaf v = some e) (hv : v < maxVa) :
    ∃ root pte, (σ.proc z).pagetable = some root ∧ lookup σ.mem.ram root v = some pte ∧ pte2pa pte = e.pa := by
  obtain ⟨pt, hpt, -⟩ := Option.bind_eq_some_iff.mp he
  have hroot : (σ.proc z).pagetable = some pt.root := by rw [(hr.proc z).pagetable, hpt]; rfl
  have hrel := (hr.proc z).lookup hroot hv
  rw [he] at hrel
  cases hl : lookup σ.mem.ram pt.root v with
  | none => rw [hl] at hrel; cases hrel
  | some pte =>
    rw [hl] at hrel
    cases hrel with
    | some hreads => exact ⟨pt.root, pte, hroot, hl, hreads.page⟩

theorem Rep.arena (h : Rep σ k) : Arena σ.mem k.freelist 0 := by
  have hle : (k.freelist : Multiset Page) + 0 ≤ k.pool.closed := add_le_add le_rfl (Multiset.zero_le _)
  exact ⟨h.chain, Multiset.nodup_of_le hle h.nodup, fun x hx => h.range x (Multiset.mem_of_le hle hx), h.kend⟩

/-! ## A slot at work -/

/-- Since `σ` and `k`, slot `j` was given a pid and the records `q` and `p`, and pages have moved between
it and the free list; `rest` are pages of the slot that are not bookkeeping. Nothing else has changed. -/
structure Making (σ : PhysKernel) (k : Kernel) (j : Slot) (q : PhysProc) (p : Proc) (rest : Multiset Page)
    (σ' : PhysKernel) (k' : Kernel) : Prop where
  procs : σ'.proc = Function.update σ.proc j q
  kprocs : k'.proc = Function.update k.proc j p
  moves : Moves σ.mem k.freelist 0 σ'.mem k'.freelist (p.hold.kern + rest)
  rep : ProcRep σ'.mem.ram q p
  nextpid : σ'.nextpid = σ.nextpid + 1 ∧ k'.nextpid = k.nextpid + 1
  fileRef : σ'.fileRef = σ.fileRef
  inodeRef : σ'.inodeRef = σ.inodeRef

variable {q q' : PhysProc} {p p' : Proc} {rest rest' : Multiset Page}

theorem Making.arena (h : Making σ k j q p rest σ' k') (hr : Rep σ k) :
    Arena σ'.mem k'.freelist (p.hold.kern + rest) := hr.arena.moves h.moves

theorem Making.toRep (h : Making σ k j q p rest σ' k') (hr : Rep σ k) (hj : (k.proc j).hold.kern = 0)
    (hn : k.nextpid < 2 ^ 31 - 1) : Rep σ' k' := by
  have hnext : k'.nextpid = σ'.nextpid.toInt := by
    have hle := BitVec.le_toInt σ.nextpid
    rw [h.nextpid.1, h.nextpid.2, hr.nextpid, BitVec.toInt_add]
    rw [hr.nextpid] at hn
    exact (Int.bmod_eq_of_le (by change -2147483648 ≤ _ + 1; omega) (by change _ + 1 < 2147483648; omega)).symm
  have hpages : k'.pool.closed + rest = k.pool.closed := by
    have hself : (k'.proc j).hold.kern = p.hold.kern := by rw [h.kprocs, Function.update_self]
    have hother : ∀ z, z ≠ j → (k'.proc z).hold.kern = (k.proc z).hold.kern := fun z hz => by
      rw [h.kprocs, Function.update_of_ne hz]
    change (k'.freelist : Multiset Page) + ∑ z, (k'.proc z).hold.kern + rest =
      k.freelist + ∑ z, (k.proc z).hold.kern
    rw [Pool.sum_split _ j, Pool.sum_split (fun z => (k.proc z).hold.kern) j, hself, hj, zero_add,
      Pool.sum_erase_congr hother]
    have hm := h.moves.pages
    rw [add_zero] at hm
    rw [← hm]
    abel
  have hle : k'.pool.closed ≤ k.pool.closed := by
    rw [← hpages]
    exact Multiset.le_add_right _ _
  refine ⟨h.moves.chain, Multiset.nodup_of_le hle hr.nodup, fun x hx => ?_, ?_, hnext, fun z => ?_⟩
  · rw [h.moves.kend]
    exact hr.range x (Multiset.mem_of_le hle hx)
  · rw [h.moves.kend]
    exact hr.kend
  · rw [h.procs, h.kprocs]
    by_cases hz : z = j
    · subst hz
      rw [Function.update_self, Function.update_self]
      exact h.rep
    · rw [Function.update_of_ne hz, Function.update_of_ne hz]
      refine (hr.proc z).of_frame fun x hx => h.moves.frame x ?_
      rw [add_zero]
      exact fun hf => hr.not_free hx (Multiset.mem_coe.mp hf)

theorem Making.step (h : Making σ k j q p rest σ' k') (hσ : σ''.proc = Function.update σ'.proc j q')
    (hk : k''.proc = Function.update k'.proc j p')
    (hm : Moves σ'.mem k'.freelist (p.hold.kern + rest) σ''.mem k''.freelist (p'.hold.kern + rest'))
    (hrep : ProcRep σ''.mem.ram q' p') (hn : σ''.nextpid = σ.nextpid + 1 ∧ k''.nextpid = k.nextpid + 1) (hf : σ''.fileRef = σ'.fileRef)
    (hi : σ''.inodeRef = σ'.inodeRef) : Making σ k j q' p' rest' σ'' k'' where
  procs := by rw [hσ, h.procs, Function.update_idem]
  kprocs := by rw [hk, h.kprocs, Function.update_idem]
  moves := h.moves.trans hm
  rep := hrep
  nextpid := hn
  fileRef := hf.trans h.fileRef
  inodeRef := hi.trans h.inodeRef

theorem Making.proc (h : Making σ k j q p rest σ' k') : σ'.proc j = q := by
  rw [h.procs, Function.update_self]

theorem Making.kproc (h : Making σ k j q p rest σ' k') : k'.proc j = p := by
  rw [h.kprocs, Function.update_self]

theorem lift_sim {α β : Type} {x : Pm α} {y : Vm β} {R : α → Phys → β → List Page → Prop}
    (h : Simulates Halt.panic x σ.mem y k.freelist R) :
    Simulates Halt.panic (PhysKernel.lift x) σ (Kernel.lift y) k fun a σ' b k' =>
      ∃ m free, σ' = { σ with mem := m } ∧ k' = { k with freelist := free } ∧ R a m b free := by
  unfold PhysKernel.lift Kernel.lift
  refine ⟨fun e he => ?_, fun b k' hb => ?_⟩
  · cases hy : y k.freelist with
    | error e' =>
      rw [hy] at he
      cases he
      rw [h.fails e hy]
    | ok r =>
      rw [hy] at he
      cases he
  · cases hy : y k.freelist with
    | error e =>
      rw [hy] at hb
      cases hb
    | ok r =>
      obtain ⟨a, m, hx, hR⟩ := h.succeeds r.1 r.2 hy
      rw [hy] at hb
      cases hb
      rw [hx]
      exact ⟨a, { σ with mem := m }, rfl, m, _, rfl, rfl, hR⟩

/-! ## Freeing a slot -/

theorem kfreePage_sim {m : Phys} {free : List Page} {used : Multiset Page} (f : Option Frame)
    (h : Arena m free (used + frameAt f)) :
    Simulates Halt.panic (PhysKernel.kfreePage (f.map Frame.page)) m (kfreeFrame f) free fun _ m' _ free' =>
      Moves m free (used + frameAt f) m' free' used ∧ ∀ x ∈ used, m'.ram x = m.ram x := by
  cases f with
  | none =>
    have hz : used + frameAt none = used := add_zero used
    rw [hz] at h ⊢
    exact .pure ⟨h.refl, fun _ _ => rfl⟩
  | some f =>
    refine (kfree_sim h).mono fun _ m' _ free' ⟨hm, hsame⟩ => ⟨hm, fun x hx => hsame x ?_⟩
    rintro rfl
    exact h.not_mem_rest (frameAt_mem f) (Multiset.mem_add.mpr (.inr hx))

def Proc.freedPages (p : Proc) : Multiset Page :=
  if p.isThread then 0 else p.pagetable.elim 0 fun pt => pt.mapped (Finset.Ico 0 (pgRoundUp p.sz))

theorem freePages_sim {m : Phys} {free : List Page} (hr : ProcRep m.ram q p)
    (hsz : pgRoundUp p.sz ≤ trapframeVa) (h : Arena m free (p.hold.kern + p.freedPages)) :
    Simulates Halt.panic (PhysKernel.freePages q) m p.freeproc free fun _ m' p' free' =>
      p' = p.freed ∧ Moves m free (p.hold.kern + p.freedPages) m' free' 0 := by
  obtain ⟨pages, hpages⟩ : ∃ T, T = p.pagetable.elim 0 PageTable.tables + p.freedPages := ⟨_, rfl⟩
  have hkern : p.hold.kern + p.freedPages = pages + frameAt p.alarmTrapframe + frameAt p.trapframe := by
    rw [hpages]
    unfold Proc.hold
    dsimp only
    abel
  unfold PhysKernel.freePages Proc.freeproc
  rw [hkern] at h ⊢
  rw [hr.trapframe, hr.alarmTrapframe]
  refine .bind (kfreePage_sim _ h) fun _ m₁ _ free₁ ⟨hm₁, hsame₁⟩ => ?_
  refine .bind (kfreePage_sim _ (h.moves hm₁)) fun _ m₂ _ free₂ ⟨hm₂, hsame₂⟩ => ?_
  have hm := hm₁.trans hm₂
  have h₂ := h.moves hm
  have hsame : ∀ x ∈ pages, m₂.ram x = m.ram x := fun x hx =>
    (hsame₂ x hx).trans (hsame₁ x (Multiset.mem_add.mpr (.inl hx)))
  rw [hr.pagetable]
  unfold Proc.freedPages at hpages
  cases hpt : p.pagetable with
  | none =>
    rw [hpt] at hpages
    have hzero : pages = 0 := by
      rw [hpages, Option.elim_none, Option.elim_none, ite_self, add_zero]
    rw [hzero] at hm ⊢
    exact .pure ⟨rfl, hm⟩
  | some pt =>
    obtain ⟨W, ht⟩ := hr.tree pt hpt
    have ht₂ : Tree m₂.ram pt W := ht.frame fun x hx => hsame x (by
      rw [hpages, hpt]
      exact Multiset.mem_add.mpr (.inl hx))
    rw [hpt, Option.elim_some, Option.elim_some] at hpages
    rw [Option.map_some, ← hr.isThread, ← hr.sz]
    dsimp only
    -- the table is freed, and the record cleared
    have done {x : Pm Unit} {y : Vm Unit} (hs : Simulates Halt.panic x m₂ y free₂ fun _ m' _ free' =>
        Moves m₂ free₂ pages m' free' 0) :
        Simulates Halt.panic x m₂ (do y; pure p.freed) free₂ fun _ m' p' free' => p' = p.freed ∧
          Moves m free (pages + frameAt p.alarmTrapframe + frameAt p.trapframe) m' free' 0 :=
      hs.rightAfter fun _ m' _ free' hm' => ⟨_, _, rfl, rfl, hm.trans hm'⟩
    refine .ite Iff.rfl (fun hth => done ?_) fun hth => done ?_
    · rw [if_pos hth, add_zero] at hpages
      rw [hpages] at h₂ ⊢
      exact threadFreepagetable_sim p.sz h₂ ht₂
    · rw [if_neg hth, ← unmapped_eq] at hpages
      rw [hpages] at h₂ ⊢
      exact procFreepagetable_sim p.sz hsz h₂ ht₂

theorem ProcRep.cleared {ram ram' : Ram} (h : ProcRep ram q p) :
    ProcRep ram' (PhysKernel.cleared q) p.freed where
  low := by
    change p.freed = { Proc.zero with isThread := q.isThread }
    rw [← h.isThread]
    rfl
  pagetable := rfl
  trapframe := rfl
  alarmTrapframe := rfl
  tree := nofun
  frame := nofun
  alarm := nofun

theorem freeproc_sim (hr : Rep σ k) (h : Making σ k j q p p.freedPages σ' k')
    (hsz : pgRoundUp p.sz ≤ trapframeVa) :
    Simulates Halt.panic (PhysKernel.freeproc j) σ' (Kernel.freeproc j) k' fun _ σ'' _ k'' =>
      Making σ k j (PhysKernel.cleared q) p.freed 0 σ'' k'' := by
  refine .left rfl (.right rfl ?_)
  have hs := freePages_sim h.rep hsz (h.arena hr)
  rw [← h.proc, ← h.kproc] at hs
  refine .bind (lift_sim hs) fun _ σ₁ p₁ k₁ ⟨m₁, free₁, hσ, hk, hp, hm⟩ => ?_
  subst hσ hk hp
  refine .right rfl (.modify ?_)
  rw [h.kproc] at hm ⊢
  refine h.step ?_ rfl hm h.rep.cleared h.nextpid rfl rfl
  change Function.update σ'.proc j (PhysKernel.cleared (σ'.proc j)) = _
  rw [h.proc]

/-! ## Allocating a slot -/

def PhysProc.allocated (q : PhysProc) (pa root : Page) (c : Context) : PhysProc :=
  { q with
    trapframe := some pa, pagetable := some root, context := c
    alarmInterval := 0, alarmTicks := 0, alarmHandler := 0
    alarmTrapframe := none, alarmActive := false }

theorem saved_junk : Saved (fun _ => 0x0505050505050505) Trapframe.junk := ⟨rfl, fun _ => rfl⟩

/-- What an allocation for slot `j` ends with: a slot that is free again, or one with a trapframe on
page `pa` and an empty address space. -/
structure Allocs (σ : PhysKernel) (k : Kernel) (j : Slot) (q : PhysProc) (p : Proc) (r : Option Slot)
    (σ' : PhysKernel) (r' : Option Slot) (k' : Kernel) : Prop where
  same : r = r'
  failed : r = none → Making σ k j (PhysKernel.cleared q) p.freed 0 σ' k'
  found : ∀ j', r = some j' → j' = j ∧ ∃ pa pt c, pt.Framed ∧ pt.Within 0 ∧
    Tree σ'.mem.ram pt (trapEntries pa) ∧
    Making σ k j (q.allocated pa pt.root c) (p.allocated p.pid pa pt) 0 σ' k'

theorem allocTable_sim {pa : Page} (hr : Rep σ k) (h : Making σ k j q p 0 σ' k') (hs : p.state = .used)
    (htf : p.trapframe = some ⟨pa, Trapframe.junk⟩) (hatf : p.alarmTrapframe = none)
    (hpt : p.pagetable = none) (hth : p.isThread = false) (hsz : pgRoundUp p.sz ≤ trapframeVa) :
    Simulates Halt.panic (PhysKernel.allocTable j pa) σ' (do
      match ← Kernel.lift (procPagetable pa) with
      | none => do
        Kernel.freeproc j
        pure none
      | some pt => do
        Kernel.put j { p with
          pagetable := some pt
          alarmInterval := 0, alarmTicks := 0, alarmHandler := 0
          alarmTrapframe := none, alarmActive := false }
        pure (some j) : Km (Option Slot)) k' (Allocs σ k j q p) := by
  have hkern : p.hold.kern = {pa} := by
    unfold Proc.hold
    rw [htf, hatf, hpt]
    rfl
  have harena := h.arena hr
  rw [hkern, add_zero, ← zero_add ({pa} : Multiset Page)] at harena
  have hlt : pa < 2 ^ 52 := harena.lt (Multiset.mem_add.mpr (.inr (Multiset.mem_singleton_self pa)))
  have htable := (procPagetable_sim harena.of_add hlt).and (procPagetable_spec pa)
  refine .bind (lift_sim htable) ?_
  rintro _ _ o _ ⟨m₁, free₁, rfl, rfl, ⟨rfl, hm, htree⟩, -, hsome⟩
  have hframe : m₁.ram pa = σ'.mem.ram pa :=
    hm.frame pa (harena.not_mem_rest (Multiset.mem_singleton_self pa))
  have hm := hm.add {pa}
  rw [zero_add] at hm
  have hrep : ProcRep m₁.ram q p := h.rep.of_frame fun x hx => by
    rw [hkern] at hx
    rw [Multiset.mem_singleton.mp hx]
    exact hframe
  refine .left rfl ?_
  cases o with
  | none =>
    have hfree : p.freedPages = 0 := by
      unfold Proc.freedPages
      rw [hpt, Option.elim_none, ite_self]
    have h₁ : Making σ k j { q with pagetable := none } p p.freedPages
        { σ' with mem := m₁, proc := Function.update σ'.proc j { σ'.proc j with pagetable := none } }
        { k' with freelist := free₁ } := by
      refine h.step (by rw [h.proc]) ?_ ?_ ?_ h.nextpid rfl rfl
      · rw [← h.kproc, Function.update_eq_self]
      · rw [hkern, hfree]
        rw [Option.elim_none, zero_add] at hm
        exact hm
      · refine ⟨hrep.low, ?_, hrep.trapframe, hrep.alarmTrapframe, hrep.tree, hrep.frame, hrep.alarm⟩
        rw [hpt]
        rfl
    exact .bind (freeproc_sim hr h₁ hsz) fun _ σ₂ _ k₂ h₂ => .pure ⟨rfl, fun _ => h₂, by simp⟩
  | some pt =>
    obtain ⟨hF, hb, -⟩ := hsome pt rfl
    refine .left rfl (.left rfl (.right rfl (.pure ⟨rfl, by simp, fun j' hj' => ?_⟩)))
    refine ⟨(Option.some.inj hj').symm, pa, pt,
      ⟨σ'.forkret, q.kstack + BitVec.ofNat 64 pgSize, fun _ => 0⟩, hF, hb, htree pt rfl, ?_⟩
    have hq : q.trapframe = some pa := by
      rw [h.rep.trapframe, htf]
      rfl
    have hp : p.allocated p.pid pa pt = { p with
        pagetable := some pt
        alarmInterval := 0, alarmTicks := 0, alarmHandler := 0
        alarmTrapframe := none, alarmActive := false } := by
      simp only [Proc.allocated, hs, hth, htf]
    have hkern' : (p.allocated p.pid pa pt).hold.kern = pt.tables + {pa} := by
      rw [Proc.hold_some rfl, add_comm]
      rfl
    refine h.step ?_ (by rw [hp]; rfl) ?_ ⟨?_, rfl, rfl, rfl, ?_, ?_, by rintro _ ⟨⟩⟩ h.nextpid rfl rfl
    · dsimp only
      rw [Function.update_idem, Function.update_self, h.proc]
      unfold PhysProc.allocated
      rw [← hq]
      rfl
    · rw [hkern, hkern', add_zero, add_zero]
      exact hm
    · rw [hp]
      exact congrArg (fun p : Proc => { p with
        pagetable := some pt
        alarmInterval := 0, alarmTicks := 0, alarmHandler := 0
        alarmTrapframe := none, alarmActive := false }) hrep.low
    · rintro _ ⟨⟩
      exact ⟨_, htree pt rfl⟩
    · rintro _ ⟨⟩
      exact hrep.frame _ htf

theorem allocPages_sim (hr : Rep σ k) (h : Making σ k j q p 0 σ' k') (hs : p.state = .used)
    (htf : p.trapframe = none) (hatf : p.alarmTrapframe = none) (hpt : p.pagetable = none)
    (hth : p.isThread = false) (hsz : pgRoundUp p.sz ≤ trapframeVa) :
    Simulates Halt.panic (PhysKernel.allocPages j) σ' (Kernel.allocPages j) k' (Allocs σ k j q p) := by
  have hkern : p.hold.kern = 0 := by
    rw [Proc.hold_none hpt, htf, hatf]
    rfl
  have harena := h.arena hr
  rw [hkern, add_zero] at harena
  refine .bind (lift_sim (kalloc_sim harena)) fun r σ₁ r' k₁ ⟨m₁, free₁, hσ, hk, hrr, hm, _, hfill⟩ => ?_
  subst hσ hk hrr
  rw [zero_add] at hm
  have hrep : ProcRep m₁.ram q p := h.rep.of_frame fun x hx => by
    rw [hkern] at hx
    exact absurd hx (Multiset.notMem_zero x)
  refine .left rfl ?_
  cases r with
  | none =>
    have hfree : p.freedPages = 0 := by
      unfold Proc.freedPages
      rw [hpt, Option.elim_none, ite_self]
    have h₁ : Making σ k j { q with trapframe := none } p p.freedPages
        { σ' with mem := m₁, proc := Function.update σ'.proc j { σ'.proc j with trapframe := none } }
        { k' with freelist := free₁ } := by
      refine h.step (by rw [h.proc]) ?_ ?_ ?_ h.nextpid rfl rfl
      · rw [← h.kproc, Function.update_eq_self]
      · rw [hkern, hfree]
        exact hm
      · refine ⟨hrep.low, hrep.pagetable, ?_, hrep.alarmTrapframe, hrep.tree, hrep.frame, hrep.alarm⟩
        rw [htf]
        rfl
    exact .bind (freeproc_sim hr h₁ hsz) fun _ σ₂ _ k₂ h₂ => .pure ⟨rfl, fun _ => h₂, nofun⟩
  | some pa =>
    refine .right rfl (.right rfl ?_)
    -- the slot with its trapframe
    have h₁ : Making σ k j { q with trapframe := some pa } { p with trapframe := some ⟨pa, Trapframe.junk⟩ } 0
        { σ' with mem := m₁, proc := Function.update σ'.proc j { σ'.proc j with trapframe := some pa } }
        (({ k' with freelist := free₁ } : Kernel).setProc j
          { k'.proc j with trapframe := some ⟨pa, Trapframe.junk⟩ }) := by
      refine h.step (by rw [h.proc]) (by rw [h.kproc]; rfl) ?_ ?_ h.nextpid rfl rfl
      · have hkern' : ({ p with trapframe := some ⟨pa, Trapframe.junk⟩ } : Proc).hold.kern = {pa} := by
          unfold Proc.hold
          dsimp only
          rw [hatf, hpt]
          rfl
        rw [hkern, hkern', add_zero, add_zero]
        exact hm
      · refine ⟨?_, hrep.pagetable, rfl, hrep.alarmTrapframe, hrep.tree, ?_, hrep.alarm⟩
        · exact congrArg (fun p : Proc => { p with trapframe := some ⟨pa, Trapframe.junk⟩ }) hrep.low
        · rintro _ ⟨⟩
          rw [hfill pa rfl]
          exact saved_junk
    rw [h.kproc] at h₁ ⊢
    exact (allocTable_sim hr h₁ hs rfl hatf hpt hth hsz).mono fun r σ'' r' k'' ha =>
      ⟨ha.same, ha.failed, ha.found⟩

structure Undone (σ : PhysKernel) (k : Kernel) (σ' : PhysKernel) (k' : Kernel) : Prop where
  rep : k.nextpid < 2 ^ 31 - 1 → Rep σ' k'
  chain : Chain σ'.mem.ram σ'.mem.freelist k'.freelist
  procs : ∀ z, (σ.proc z).state ≠ .unused → σ'.proc z = σ.proc z
  unused : ∀ z, (σ'.proc z).state = .unused ↔ (σ.proc z).state = .unused
  moves : Moves σ.mem k.freelist 0 σ'.mem k'.freelist 0
  fileRef : σ'.fileRef = σ.fileRef
  inodeRef : σ'.inodeRef = σ.inodeRef

theorem Undone.refl (hr : Rep σ k) : Undone σ k σ k :=
  ⟨fun _ => hr, hr.chain, fun _ _ => rfl, fun _ => Iff.rfl, hr.arena.refl, rfl, rfl⟩

theorem Making.undone (h : Making σ k j (PhysKernel.cleared q) p.freed 0 σ' k') (hr : Rep σ k)
    (hj : (k.proc j).hold.kern = 0) (hu : (σ.proc j).state = .unused) : Undone σ k σ' k' := by
  refine ⟨h.toRep hr hj, h.moves.chain, fun z hz => ?_, fun z => ?_, h.moves, h.fileRef, h.inodeRef⟩
  · rw [h.procs, Function.update_of_ne]
    rintro rfl
    exact hz hu
  · by_cases hz : z = j
    · subst hz
      rw [h.proc]
      exact ⟨fun _ => hu, fun _ => rfl⟩
    · rw [h.procs, Function.update_of_ne hz]

structure Found (σ : PhysKernel) (k : Kernel) (j : Slot) (pa : Page) (pt : PageTable) (σ' : PhysKernel)
    (k' : Kernel) : Prop where
  unused : (k.proc j).state = .unused
  framed : pt.Framed
  within : pt.Within 0
  tree : Tree σ'.mem.ram pt (trapEntries pa)
  making : ∃ c, Making σ k j
    (({ σ.proc j with pid := σ.nextpid.toInt, isThread := false, state := .used } : PhysProc).allocated pa pt.root c)
    ((k.proc j).allocated k.nextpid pa pt) 0 σ' k'

theorem findUnused_eq (hr : Rep σ k) : σ.findUnused = k.findSlot fun p => p.state = .unused := by
  unfold PhysKernel.findUnused Kernel.findSlot
  congr 1
  funext z
  dsimp only
  rw [(hr.proc z).state]

theorem kern_unused (hw : k.Wf) (hu : (k.proc j).state = .unused) : (k.proc j).hold.kern = 0 := by
  obtain ⟨htf, ha, hpt⟩ := (hw j).unused hu
  have hatf : (k.proc j).alarmTrapframe = none := congrArg Prod.snd ha
  rw [Proc.hold_none hpt, htf, hatf]
  rfl

theorem allocproc_sim (hr : Rep σ k) (hw : k.Wf) :
    Simulates Halt.panic PhysKernel.allocproc σ Kernel.allocproc k fun r σ' r' k' =>
      r = r' ∧ (r = none → Undone σ k σ' k') ∧ ∀ j, r = some j → ∃ pa pt, Found σ k j pa pt σ' k' := by
  refine .left rfl (.right rfl ?_)
  rw [findUnused_eq hr]
  cases hj : k.findSlot fun p => p.state = .unused with
  | none => exact .pure ⟨rfl, fun _ => Undone.refl hr, nofun⟩
  | some j =>
    have hu : (k.proc j).state = .unused := by simpa using Kernel.findSlot_spec hj
    have hkern := kern_unused hw hu
    obtain ⟨htf, ha, hpt⟩ := (hw j).unused hu
    have hatf : (k.proc j).alarmTrapframe = none := congrArg Prod.snd ha
    have hrep := hr.proc j
    -- the slot with its new identity
    have h : Making σ k j { σ.proc j with pid := σ.nextpid.toInt, isThread := false, state := .used }
        { k.proc j with pid := k.nextpid, isThread := false, state := .used } 0
        { σ with
          proc := Function.update σ.proc j { σ.proc j with pid := σ.nextpid.toInt, isThread := false, state := .used }
          nextpid := σ.nextpid + 1 }
        { k.setProc j { k.proc j with pid := k.nextpid, isThread := false, state := .used } with
          nextpid := k.nextpid + 1 } := by
      refine ⟨rfl, rfl, ?_, ⟨?_, ?_, ?_, ?_, ?_, ?_, ?_⟩, ⟨rfl, rfl⟩, rfl, rfl⟩
      · have hkern' : ({ k.proc j with pid := k.nextpid, isThread := false, state := .used } : Proc).hold.kern = 0 :=
          hkern
        rw [hkern', add_zero]
        exact hr.arena.refl
      · rw [hr.nextpid]
        exact congrArg (fun p : Proc => { p with pid := σ.nextpid.toInt, isThread := false, state := .used }) hrep.low
      · exact hrep.pagetable
      · exact hrep.trapframe
      · exact hrep.alarmTrapframe
      · exact hrep.tree
      · exact hrep.frame
      · exact hrep.alarm
    refine .left rfl (.left rfl (.right rfl (.right rfl ?_)))
    refine (allocPages_sim hr h rfl htf hatf hpt rfl (hw j).size).mono fun r σ' r' k' hall => ?_
    refine ⟨hall.same, fun hn => ?_, fun j' hj' => ?_⟩
    · exact (hall.failed hn).undone hr hkern (hrep.state.symm.trans hu)
    · obtain ⟨rfl, pa, pt, c, hF, hb, ht, hm⟩ := hall.found j' hj'
      exact ⟨pa, pt, hu, hF, hb, ht, c, hm⟩

/-! ## Sharing memory -/

def Kernel.create (share : PageTable → PageTable → Nat → Vm (Bool × PageTable)) (i : Slot) :
    Km (Option (Slot × Proc)) := do
  match ← Kernel.allocproc with
  | none => pure none
  | some j =>
    let p ← Kernel.getProc i
    let np ← Kernel.getProc j
    let old ← Mach.deref .null p.pagetable
    let new ← Mach.deref .null np.pagetable
    let (ok, new) ← Kernel.lift (share old new p.sz)
    Kernel.put j { np with pagetable := some new }
    if ok then pure (some (j, p))
    else do
      Kernel.freeproc j
      pure none

/-- What `uvmcopy` and `uvmmirror` do for the table `new`. `fill` is what is known about its words. -/
def SharesSim (share : Page → Page → Nat → Pm Bool)
    (share' : PageTable → PageTable → Nat → Vm (Bool × PageTable))
    (fill : (Nat → Option Word) → (Nat → Option Word) → Nat → (Nat → Option Word) → Prop) : Prop :=
  ∀ {m : Phys} {free : List Page} {old new : PageTable} {Wo W : Nat → Option Word} (sz : Nat),
    Tree m.ram old Wo → (∀ x ∈ old.tables, x ∉ (free : Multiset Page) + new.tables) →
    Arena m free new.tables → Tree m.ram new W → (∀ u < pgRoundUp sz, new.leaf u = none) →
    Simulates Halt.panic (share old.root new.root sz) m (share' old new sz) free fun ok m' b free' =>
      ok = b.1 ∧ b.2.root = new.root ∧
      (∃ rest, Moves m free new.tables m' free' (b.2.tables + rest) ∧ (b.1 = false → rest = 0)) ∧
      ∃ W', Tree m'.ram b.2 W' ∧ (b.1 = true → fill Wo W (pgRoundUp sz) W')

theorem uvmcopy_sim : SharesSim Phys.uvmcopy uvmcopy fun _ _ _ _ => True := by
  intro m free old new Wo W sz ho hd h ht hfresh
  have hz : unmapped new 0 0 true = new.tables := unmapped_zero new 0 true
  rw [← hz] at hd h ⊢
  refine (uvmcopyLoop_sim _ ho hd h ht fun u _ hu => hfresh u (by omega)).mono fun ok m' b free' hc => ?_
  obtain ⟨W', ht'⟩ := hc.tree
  refine ⟨hc.ok, hc.root, ?_, W', ht', fun _ => trivial⟩
  have hm := hc.moves
  cases hb : b.1 with
  | false =>
    rw [hb, if_neg Bool.false_ne_true] at hm
    exact ⟨0, by rw [add_zero]; exact hm, fun _ => rfl⟩
  | true =>
    rw [hb, if_pos rfl, Nat.zero_add, unmapped_eq] at hm
    exact ⟨_, hm, nofun⟩

theorem uvmmirror_sim : SharesSim Phys.uvmmirror uvmmirror fun Wo W n W' => W' = mirrored Wo W 0 n := by
  intro m free old new Wo W sz ho hd h ht _
  refine (uvmmirrorLoop_sim _ ho hd h ht).mono fun ok m' b free' hmir => ?_
  exact ⟨hmir.ok, hmir.root, ⟨0, by rw [add_zero]; exact hmir.moves, fun _ => rfl⟩, hmir.tree⟩

structure Created (fill : (Nat → Option Word) → (Nat → Option Word) → Nat → (Nat → Option Word) → Prop)
    (σ : PhysKernel) (k : Kernel) (i j : Slot) (pa : Page) (old new : PageTable) (Wo W : Nat → Option Word)
    (σ' : PhysKernel) (k' : Kernel) : Prop where
  unused : (k.proc j).state = .unused
  parent : (k.proc i).pagetable = some old
  tree : Tree σ.mem.ram old Wo
  newTree : Tree σ'.mem.ram new W
  fill : fill Wo (trapEntries pa) (pgRoundUp (k.proc i).sz) W
  making : ∃ c rest, Making σ k j
    (({ σ.proc j with pid := σ.nextpid.toInt, isThread := false, state := .used } : PhysProc).allocated pa new.root c)
    ((k.proc j).allocated k.nextpid pa new) rest σ' k'

theorem allocated_kern (p : Proc) (pid : Int) (pa : Page) (pt : PageTable) :
    (p.allocated pid pa pt).hold.kern = pt.tables + {pa} := by
  rw [Proc.hold_some rfl, add_comm]
  rfl

theorem mapped_within {pt : PageTable} {n : Nat} (h : pt.Within 0) (hn : n ≤ trapframeVa) :
    pt.mapped (Finset.Ico 0 n) = 0 := by
  unfold PageTable.mapped
  refine Finset.sum_eq_zero fun u hu => ?_
  rw [h.bare u ((Finset.mem_Ico.mp hu).2.trans_le hn)]
  rfl

section
variable {share : Page → Page → Nat → Pm Bool}
  {share' : PageTable → PageTable → Nat → Vm (Bool × PageTable)} {isThread : Bool}
  {fill : (Nat → Option Word) → (Nat → Option Word) → Nat → (Nat → Option Word) → Prop}

theorem create_sim (hshare : SharesSim share share' fill) (hsh : Kernel.Shares share' isThread)
    (hr : Rep σ k) (hw : k.Wf) (hi : (k.proc i).state ≠ .unused) :
    Simulates Halt.panic (PhysKernel.create share i) σ (Kernel.create share' i) k fun r σ' r' k' =>
      r = r'.map Prod.fst ∧ (r = none → Undone σ k σ' k') ∧
      ∀ j p, r' = some (j, p) → p = k.proc i ∧ ∃ pa old new Wo W, Created fill σ k i j pa old new Wo W σ' k' := by
  refine .bind (allocproc_sim hr hw) fun r σ₁ r' k₁ ⟨hrr, hnone, hsome⟩ => ?_
  subst hrr
  cases r with
  | none => exact .pure ⟨rfl, hnone, fun j p hjp => by cases hjp⟩
  | some j =>
    obtain ⟨pa, pt, hu, hF, hb, ht, c, hmk⟩ := hsome j rfl
    have hij : i ≠ j := by
      rintro rfl
      exact hi hu
    have hσi : σ₁.proc i = σ.proc i := by rw [hmk.procs, Function.update_of_ne hij]
    have hki : k₁.proc i = k.proc i := by rw [hmk.kprocs, Function.update_of_ne hij]
    refine .left rfl (.left rfl (.right rfl (.right rfl ?_)))
    rw [hσi, hki, hmk.proc, hmk.kproc]
    refine .bind (.deref PageTable.root (hr.proc i).pagetable) fun _ σ₀ old k₀ ⟨hσ, hk, hold, hroot⟩ => ?_
    subst hσ hk hroot
    refine .left rfl (.right rfl ?_)
    obtain ⟨Wo, ho⟩ := (hr.proc i).tree old hold
    have hkept : ∀ x ∈ old.tables, x ∉ (k.freelist : Multiset Page) := fun x hx hf =>
      hr.not_free (Proc.tables_mem hold hx) (Multiset.mem_coe.mp hf)
    have ho₁ : Tree σ₁.mem.ram old Wo := ho.frame fun x hx => hmk.moves.frame x (by
      rw [add_zero]
      exact hkept x hx)
    have harena := hmk.arena hr
    have hpages := hmk.moves.pages
    rw [allocated_kern, add_zero] at harena hpages
    have hd : ∀ x ∈ old.tables, x ∉ (k₁.freelist : Multiset Page) + pt.tables := fun x hx hmem =>
      hkept x hx (by
        rw [add_zero] at hpages
        rw [← hpages, ← add_assoc]
        exact Multiset.mem_add.mpr (.inl hmem))
    have hfresh : ∀ u < pgRoundUp (k.proc i).sz, pt.leaf u = none := fun u hu' =>
      hb.bare u (hu'.trans_le (hw i).size)
    have hs := (hshare (k.proc i).sz ho₁ hd harena.of_add ht hfresh).and
      (hsh old pt (k.proc i).sz k₁.freelist hF hb (hw i).size)
    rw [← (hr.proc i).sz]
    refine .bind (lift_sim hs) fun ok σ₂ b k₂ ⟨m₂, free₂, hσ, hk, ⟨hok, hroot, hmem, W, hW, hfill⟩, hwalk, _⟩ => ?_
    subst hσ hk
    obtain ⟨ok', new⟩ := b
    obtain ⟨rest, hm, hrest⟩ := hmem
    dsimp only at hok hroot hm hrest hW hfill hwalk ⊢
    subst hok
    refine .right rfl ?_
    -- the slot with the table as `share` leaves it
    have hmk₂ : Making σ k j
        (({ σ.proc j with pid := σ.nextpid.toInt, isThread := false, state := .used } : PhysProc).allocated pa new.root c)
        ((k.proc j).allocated k.nextpid pa new) rest { σ₁ with mem := m₂ }
        (({ k₁ with freelist := free₂ } : Kernel).setProc j
          { (k.proc j).allocated k.nextpid pa pt with pagetable := some new }) := by
      refine hmk.step ?_ rfl ?_ ⟨?_, rfl, rfl, rfl, ?_, ?_, nofun⟩ hmk.nextpid rfl rfl
      · rw [hroot, ← hmk.proc, Function.update_eq_self]
      · rw [allocated_kern, allocated_kern, add_zero, add_right_comm]
        exact hm.add {pa}
      · exact congrArg (fun p : Proc => { p with pagetable := some new }) hmk.rep.low
      · rintro _ ⟨⟩
        exact ⟨W, hW⟩
      · rintro _ ⟨⟩
        rw [hm.frame pa (harena.not_mem_rest (Multiset.mem_singleton_self pa))]
        exact hmk.rep.frame _ rfl
    cases ok with
    | true =>
      refine .pure ⟨rfl, nofun, fun j' p hjp => ?_⟩
      cases hjp
      exact ⟨rfl, pa, old, new, Wo, W, hu, hold, ho, hW, hfill rfl, c, rest, hmk₂⟩
    | false =>
      have hin : new.Within 0 := hb.congr (hwalk rfl).leaf
      have hfreed : ((k.proc j).allocated k.nextpid pa new).freedPages = rest := by
        rw [hrest rfl]
        exact mapped_within hin (hw j).size
      rw [← hfreed] at hmk₂
      rw [if_neg Bool.false_ne_true, if_neg Bool.false_ne_true]
      refine .bind (freeproc_sim hr hmk₂ (hw j).size) fun _ σ₃ _ k₃ h₃ => .pure ⟨rfl, fun _ => ?_, fun j p hjp => by cases hjp⟩
      exact h₃.undone hr (kern_unused hw hu) ((hr.proc j).state.symm.trans hu)

end

end

end OsLab
