import OsLab.Killed
import OsLab.PhysLayout
import OsLab.PhysStart
import OsLab.ProcPanics
import OsLab.Sharing

/-!
# Failed creation and shared memory

A `kfork` or `clone` that returns -1 has changed nothing but the order of the
free pages, and a `clone` that succeeds gives the thread the pages of its
creator. Both write to free pages only. A thread whose creator was reaped maps
free pages, so that it sees these writes.
-/

namespace OsLab

open Mach Phys

variable {σ σ' σ₁ : PhysKernel} {k k' k₀ k₁ : Kernel} {i j z : Slot} {ts : List Kernel.Trap}

structure Untouched (σ : PhysKernel) (z : Slot) (σ' : PhysKernel) : Prop where
  record : σ'.proc z = σ.proc z
  table : ∀ root v, (σ.proc z).pagetable = some root → v < maxVa →
    lookup σ'.mem.ram root v = lookup σ.mem.ram root v
  memory : ∀ root v pte, (σ.proc z).pagetable = some root → v < trapframeVa →
    lookup σ.mem.ram root v = some pte → σ'.mem.ram (pte2pa pte) = σ.mem.ram (pte2pa pte)
  frames : ∀ pa, (σ.proc z).trapframe = some pa ∨ (σ.proc z).alarmTrapframe = some pa →
    σ'.mem.ram pa = σ.mem.ram pa

theorem Rep.untouched (hr : Rep σ k) (ha : k.Apart) (hp : σ'.proc z = σ.proc z)
    (hram : ∀ x, x ∉ k.freelist → σ'.mem.ram x = σ.mem.ram x) : Untouched σ z σ' := by
  have hz := hr.proc z
  refine ⟨hp, fun root v hroot hv => ?_, fun root v pte hroot hv hpte => ?_, fun pa hpa => ?_⟩
  · rw [hz.pagetable] at hroot
    obtain ⟨pt, hpt, rfl⟩ := Option.map_eq_some_iff.mp hroot
    obtain ⟨W, ht⟩ := hz.tree pt hpt
    have ht' : Tree σ'.mem.ram pt W := ht.frame fun x hx => hram x (hr.not_free (Proc.tables_mem hpt hx))
    rw [ht'.lookup hv, ht.lookup hv]
  · have hrel := hz.lookup hroot (hv.trans trapframeVa_lt)
    rw [hpte] at hrel
    cases he : (k.proc z).leaf v with
    | none => rw [he] at hrel; cases hrel
    | some e =>
      rw [he] at hrel
      cases hrel with
      | some hreads =>
        rw [hreads.page]
        exact hram _ (ha.not_free ⟨v, e, hv, he, rfl⟩)
  · rw [hz.trapframe, hz.alarmTrapframe] at hpa
    refine hram pa (hr.not_free (z := z) ?_)
    obtain hpa | hpa := hpa
    · obtain ⟨f, hf, rfl⟩ := Option.map_eq_some_iff.mp hpa
      exact Proc.trapframe_mem hf
    · obtain ⟨f, hf, rfl⟩ := Option.map_eq_some_iff.mp hpa
      exact Proc.alarmTrapframe_mem hf

/-- Only the order of the free pages, and `nextpid`, can have changed. -/
structure NoOp (σ σ' : PhysKernel) : Prop where
  free : ∃ free free', Chain σ.mem.ram σ.mem.freelist free ∧ Chain σ'.mem.ram σ'.mem.freelist free' ∧
    free'.Perm free
  procs : ∀ z, (σ.proc z).state ≠ .unused → Untouched σ z σ'
  unused : ∀ z, (σ'.proc z).state = .unused ↔ (σ.proc z).state = .unused
  fileRef : σ'.fileRef = σ.fileRef
  inodeRef : σ'.inodeRef = σ.inodeRef

theorem Undone.noOp (h : Undone σ k σ' k') (hr : Rep σ k) (ha : k.Apart) : NoOp σ σ' := by
  have hpages := h.moves.pages
  have hframe := h.moves.frame
  rw [add_zero, add_zero] at hpages
  refine ⟨⟨k.freelist, k'.freelist, hr.chain, h.chain, Multiset.coe_eq_coe.mp hpages⟩, fun z hz => ?_,
    h.unused, h.fileRef, h.inodeRef⟩
  refine hr.untouched ha (h.procs z hz) fun x hx => hframe x ?_
  rw [add_zero]
  exact mt Multiset.mem_coe.mp hx

def Ready (k : Kernel) : Prop := k.Apart ∧ 0 < k.nextpid

theorem ready_run {pages : List Page} {img : Option Image} {argv : List Nat} (hp : pages.Nodup)
    (hb : Kernel.boot pages img argv = some k₀) (hm : Kernel.Meets Kernel.Exclusive k₀ ts)
    (hr : Kernel.run k₀ ts = some k) : Ready k := by
  have h₀ : Ready k₀ := by
    refine ⟨Kernel.boot_spec Kernel.apart_blind.stable (Kernel.apart_zero hp) hb, ?_⟩
    rw [(Kernel.boot_control hb).1]
    decide
  refine Kernel.run_induct (fun k t k' h hx hs => ?_) h₀ hm hr
  obtain ⟨r, -, ht⟩ := Kernel.step_control h.1.1 hs
  exact ⟨Kernel.step_apart h.1 hx hs, h.2.trans_le ht.nextpid_le⟩

/-! ## Machines -/

def highPages (n : Nat) : List Page := List.range' 0x80100 n

theorem highPages_nodup (n : Nat) : (highPages n).Nodup := List.nodup_range'

def machine (n : Nat) : Option Kernel := Kernel.boot (highPages n) (some Kernel.initImage) []

def machineReaches (n : Nat) (ts : List Kernel.Trap) (test : Kernel → Bool) : Bool :=
  (machine n).any fun k₀ => (Kernel.run k₀ ts).any fun k => k.fits && test k

theorem machine_reaches {n : Nat} {test : Kernel → Bool} (hn : n ≤ 100) (h : machineReaches n ts test = true)
    (hm : ∀ k₀, machine n = some k₀ → Kernel.Meets Kernel.Tidy k₀ ts) :
    ∃ k₀ k σ, machine n = some k₀ ∧ Kernel.run k₀ ts = some k ∧ k.Wf ∧ Rep σ k ∧
      (∀ z, σ.proc z = (k.proc z).record) ∧ test k = true := by
  obtain ⟨k₀, hb, h⟩ := (Option.any_eq_true _ _).mp h
  obtain ⟨k, hr, h⟩ := (Option.any_eq_true _ _).mp h
  obtain ⟨hfits, htest⟩ := Bool.and_eq_true_iff.mp h
  have hrange : ∀ x ∈ highPages n, 0x80100 ≤ x ∧ x < phystop := by
    intro x hx
    obtain ⟨hle, hlt⟩ := List.mem_range'_1.mp hx
    have htop : 0x80100 + n < 0x88000 := by omega
    exact ⟨hle, hlt.trans htop⟩
  obtain ⟨hw, σ, hσ, hrec⟩ := exists_rep_run (highPages_nodup n) (by decide) hrange hb (hm k₀ hb) hr hfits
  exact ⟨k₀, k, σ, hb, hr, hw, hσ, hrec, htest⟩

/-! ## Failed creation -/

section
variable {fill : (Nat → Option Word) → (Nat → Option Word) → Nat → (Nat → Option Word) → Prop}
  {regs : Page → Pm Unit} {pa : Page} {old new : PageTable} {Wo W : Nat → Option Word} {r : Int}

theorem Created.pid (h : Created fill σ k i j pa old new Wo W σ₁ k₁) : (σ₁.proc j).pid = σ.nextpid.toInt := by
  obtain ⟨c, rest, hmk⟩ := h.making
  rw [hmk.proc]
  rfl

theorem PhysKernel.Makes.failed (h : PhysKernel.Makes fill σ k i regs (-1) σ') (hr : Rep σ k) (hk : Ready k)
    (hn : k.nextpid < 2 ^ 31 - 1) : NoOp σ σ' ∧ ∃ k', Rep σ' k' := by
  generalize hr' : (-1 : Int) = r at h
  cases h with
  | undone h => exact ⟨h.noOp hr hk.1, _, h.rep hn⟩
  | started hc hs =>
    have hpid := hs.result.trans hc.pid
    have hpos := hk.2
    rw [hr.nextpid] at hpos
    omega

end

theorem kfork_undone (hr : Rep σ k) (hw : k.Wf) (hi : (k.proc i).state ≠ .unused)
    (h : Kernel.create uvmcopy i k = .ok (none, k')) :
    ∃ σ', PhysKernel.kfork i σ = .ok (-1, σ') ∧ Undone σ k σ' k' := by
  obtain ⟨r, σ', hrun, hr', hnone, -⟩ := (create_sim @uvmcopy_sim Kernel.uvmcopy_shares hr hw hi).succeeds _ _ h
  obtain rfl : r = none := hr'
  exact ⟨σ', bind_ok hrun, hnone rfl⟩

/-- In every state of a run that frees no page which another process maps, with fewer than `2 ^ 31 - 2`
calls of `allocpid`, a failed `kfork` or `clone` is a no-op. It leaves a memory that stands for some state of
the kernel again. -/
theorem failed_creation_noop {pages : List Page} {img : Option Image} {argv : List Nat} (hp : pages.Nodup)
    (hb : Kernel.boot pages img argv = some k₀) (hm : Kernel.Meets Kernel.Exclusive k₀ ts)
    (hr : Kernel.run k₀ ts = some k) (hn : k.nextpid < 2 ^ 31 - 1) (hσ : Rep σ k) (hi : (σ.proc i).state ≠ .unused)
    (h : PhysKernel.kfork i σ = .ok (-1, σ') ∨
      ∃ fcn arg stack, PhysKernel.clone fcn arg stack i σ = .ok (-1, σ')) :
    NoOp σ σ' ∧ ∃ k', Rep σ' k' := by
  have hk := ready_run hp hb hm hr
  have hik : (k.proc i).state ≠ .unused := (hσ.proc i).state ▸ hi
  obtain h | ⟨fcn, arg, stack, h⟩ := h
  · exact (PhysKernel.newproc_makes @uvmcopy_sim Kernel.uvmcopy_shares hσ hk.1.1 hik _ _ h).failed hσ hk hn
  · exact (PhysKernel.newproc_makes @uvmmirror_sim Kernel.uvmmirror_shares hσ hk.1.1 hik _ _ h).failed hσ hk hn

theorem failed_creation_noop_eight : ∃ k₀ k σ σ', machine 17 = some k₀ ∧ Kernel.run k₀ [] = some k ∧
    k.freelist.length = 8 ∧ Rep σ k ∧ PhysKernel.kfork 0 σ = .ok (-1, σ') ∧ NoOp σ σ' := by
  have h : machineReaches 17 [] (fun k => returns (Kernel.create uvmcopy 0) k fun c _ =>
      c = none ∧ (k.proc 0).state ≠ .unused ∧ k.freelist.length = 8 ∧ k.nextpid = 2) = true := by decide +kernel
  obtain ⟨k₀, k, σ, hb, hr, hw, hσ, -, h⟩ := machine_reaches (by decide) h fun _ _ => trivial
  obtain ⟨c, k', hcreate, h⟩ := of_returns h
  obtain ⟨rfl, hi, hlen, hn⟩ := of_decide_eq_true h
  obtain ⟨σ', hrun, -⟩ := kfork_undone hσ hw hi hcreate
  refine ⟨k₀, k, σ, σ', hb, hr, hlen, hσ, hrun, ?_⟩
  have hm : Kernel.Meets Kernel.Exclusive k₀ [] := trivial
  have hlt : k.nextpid < 2 ^ 31 - 1 := by rw [hn]; decide
  exact (failed_creation_noop (highPages_nodup 17) hb hm hr hlt hσ ((hσ.proc 0).state ▸ hi) (.inl hrun)).1

/-- A thread outlives its creator, and the first process takes the free pages that come before those of
the thread. -/
def orphanNext : List Kernel.Trap := Kernel.orphanThread ++ [Kernel.ecall 0 12 20480 1 0]

theorem orphanNext_tidy (hb : machine 26 = some k₀) : Kernel.Meets Kernel.Tidy k₀ orphanNext := by
  have h : ((machine 26).any fun k₀ => (Kernel.run k₀ (Kernel.orphanThread.take 3)).any fun k =>
      k.reaped 0 (.wait 0) = some 1 ∧ (k.proc 1).isThread = false) = true := by decide +kernel
  rw [hb, Option.any_some] at h
  obtain ⟨k, hr, h⟩ := (Option.any_eq_true _ _).mp h
  obtain ⟨hz, hth⟩ := of_decide_eq_true h
  refine ⟨(fun _ hz => nomatch hz), fun k₁ h₁ => ⟨(fun _ hz => nomatch hz), fun k₂ h₂ =>
    ⟨(fun _ hz => nomatch hz), fun k₃ h₃ => ⟨fun z hz' ht => ?_, fun _ _ => ⟨?_, fun _ _ => trivial⟩⟩⟩⟩⟩
  · -- the process that is reaped is no thread
    have hr' : Kernel.run k₀ (Kernel.orphanThread.take 3) = some k₃ := by
      simp only [Kernel.orphanThread, List.take, Kernel.run, h₁, h₂, h₃]
    obtain rfl : k = k₃ := Option.some.inj (hr.symm.trans hr')
    obtain rfl : 1 = z := Option.some.inj (hz.symm.trans hz')
    rw [hth] at ht
    cases ht
  · exact fun hn => absurd hn (by decide)

/-- The first process fails to fork. This takes and frees a page of the thread, whose first word is then
another link. -/
theorem failed_fork_overwrites : ∃ k₀ k σ σ' root pte, machine 26 = some k₀ ∧
    Kernel.run k₀ orphanNext = some k ∧ Rep σ k ∧ PhysKernel.kfork 0 σ = .ok (-1, σ') ∧
    (σ.proc 2).state = .runnable ∧ (σ.proc 2).pagetable = some root ∧ lookup σ.mem.ram root 2 = some pte ∧
    σ'.mem.ram (pte2pa pte) 0 ≠ σ.mem.ram (pte2pa pte) 0 := by
  have h : machineReaches 26 orphanNext (fun k => returns (Kernel.create uvmcopy 0) k fun c k' =>
      ((k.proc 2).leaf 2).any fun e => c = none ∧ (k.proc 0).state ≠ .unused ∧ (k.proc 2).state = .runnable ∧
        k.freelist[0]? = some e.pa ∧ k.freelist[1]? = some 0x80110 ∧
        k'.freelist[4]? = some e.pa ∧ k'.freelist[5]? = some 0x80118) = true := by decide +kernel
  obtain ⟨k₀, k, σ, hb, hr, hw, hσ, -, h⟩ := machine_reaches (by decide) h fun _ => orphanNext_tidy
  obtain ⟨c, k', hcreate, h⟩ := of_returns h
  obtain ⟨e, he, h⟩ := (Option.any_eq_true _ _).mp h
  obtain ⟨rfl, hi, hz, h₀, h₁, h₄, h₅⟩ := of_decide_eq_true h
  obtain ⟨σ', hrun, hu⟩ := kfork_undone hσ hw hi hcreate
  obtain ⟨root, pte, hroot, hpte, hpage⟩ := hσ.entry he (by unfold maxVa; decide)
  refine ⟨k₀, k, σ, σ', root, pte, hb, hr, hσ, hrun, (hσ.proc 2).state ▸ hz, hroot, hpte, ?_⟩
  rw [hpage, hσ.chain.link h₀ h₁, hu.chain.link h₄ h₅]
  decide

/-! ## Clone -/

/-- Slot `j`, which was unused, holds a thread of process `i` with the page table at `root'` and the
trapframe on page `tf`; process `i` has those at `root` and on page `src`. -/
structure ThreadOf (σ : PhysKernel) (i : Slot) (root src : Page) (fcn arg stack : Word) (σ' : PhysKernel)
    (j : Slot) (root' tf : Page) : Prop where
  unused : (σ.proc j).state = .unused
  frame : (σ.proc i).trapframe = some src
  pagetable : (σ'.proc j).pagetable = some root'
  trapframe : (σ'.proc j).trapframe = some tf
  shared : ∀ v < pgRoundUp (σ.proc i).sz, ∃ pte pte', lookup σ.mem.ram root v = some pte ∧
    lookup σ'.mem.ram root' v = some pte' ∧ pte2pa pte' = pte2pa pte ∧ pteFlags pte' = pteFlags pte
  bare : ∀ v, pgRoundUp (σ.proc i).sz ≤ v → v < trapframeVa → lookup σ'.mem.ram root' v = none
  fresh : ∃ free, Chain σ.mem.ram σ.mem.freelist free ∧ tf ∈ free
  mapped : ∃ pte, lookup σ'.mem.ram root' trapframeVa = some pte ∧ pte2pa pte = tf
  epc : σ'.mem.ram tf PhysKernel.wordEpc = fcn
  a0 : σ'.mem.ram tf PhysKernel.wordA0 = arg
  sp : σ'.mem.ram tf PhysKernel.wordSp = stack
  regs : ∀ w < PhysKernel.trapframeWords, w ≠ PhysKernel.wordEpc → w ≠ PhysKernel.wordA0 →
    w ≠ PhysKernel.wordSp → σ'.mem.ram tf w = σ.mem.ram src w

section
variable {fill : (Nat → Option Word) → (Nat → Option Word) → Nat → (Nat → Option Word) → Prop}
  {pa : Page} {old new : PageTable} {Wo W : Nat → Option Word} {fcn arg stack : Word} {r : Int}

def cloneRegs (fcn arg stack : Word) (tf : Page) : Pm Unit := do
  Phys.store tf PhysKernel.wordA0 arg
  Phys.store tf PhysKernel.wordEpc fcn
  Phys.store tf PhysKernel.wordSp stack

structure Launched (ram : Ram) (src dst : Page) (fcn arg stack : Word) (ram' : Ram) : Prop where
  other : ∀ x, x ≠ dst → ram' x = ram x
  epc : ram' dst PhysKernel.wordEpc = fcn
  a0 : ram' dst PhysKernel.wordA0 = arg
  sp : ram' dst PhysKernel.wordSp = stack
  regs : ∀ w < PhysKernel.trapframeWords, w ≠ PhysKernel.wordEpc → w ≠ PhysKernel.wordA0 →
    w ≠ PhysKernel.wordSp → ram' dst w = ram src w

theorem cloneRegs_launched {m m' : Phys} {src dst : Page}
    (h : (do PhysKernel.copyFrame dst src; cloneRegs fcn arg stack dst) m = .ok ((), m')) :
    Launched m.ram src dst fcn arg stack m'.ram := by
  have hm' : m'.ram = setWord (setWord (setWord (Function.update m.ram dst fun k =>
      if k < PhysKernel.trapframeWords then m.ram src k else m.ram dst k) dst PhysKernel.wordA0 arg)
      dst PhysKernel.wordEpc fcn) dst PhysKernel.wordSp stack := by
    cases h
    rfl
  rw [hm']
  refine ⟨fun x hx => ?_, ?_, ?_, setWord_same .., fun w hw he ha hs => ?_⟩
  · rw [setWord_other _ hx, setWord_other _ hx, setWord_other _ hx, Function.update_of_ne hx]
  · rw [setWord_index _ _ (by decide), setWord_same]
  · rw [setWord_index _ _ (by decide), setWord_index _ _ (by decide), setWord_same]
  · rw [setWord_index _ _ hs, setWord_index _ _ he, setWord_index _ _ ha, Function.update_self, if_pos hw]

theorem Created.trapframe (h : Created fill σ k i j pa old new Wo W σ₁ k₁) (hr : Rep σ k) :
    pa ∈ k.freelist ∧ pa ∉ new.tables ∧ (σ₁.proc j).trapframe = some pa ∧
      (σ₁.proc j).pagetable = some new.root := by
  obtain ⟨c, rest, hmk⟩ := h.making
  have hpages := hmk.moves.pages
  have hnodup := (hmk.arena hr).nodup
  rw [allocated_kern, add_zero] at hpages
  rw [allocated_kern] at hnodup
  refine ⟨Multiset.mem_coe.mp ?_, fun hmem => ?_, by rw [hmk.proc]; rfl, by rw [hmk.proc]; rfl⟩
  · rw [← hpages]
    simp
  · have htables := (Multiset.nodup_add.mp (Multiset.nodup_add.mp (Multiset.nodup_add.mp hnodup).2.1).1).2.2
    exact Multiset.disjoint_left.mp htables hmem (Multiset.mem_singleton_self pa)

theorem Created.frame (h : Created fill σ k i j pa old new Wo W σ₁ k₁) :
    (∀ z, z ≠ j → σ₁.proc z = σ.proc z) ∧ ∀ x, x ∉ k.freelist → σ₁.mem.ram x = σ.mem.ram x := by
  obtain ⟨c, rest, hmk⟩ := h.making
  refine ⟨fun z hz => ?_, fun x hx => hmk.moves.frame x ?_⟩
  · rw [hmk.procs, Function.update_of_ne hz]
  · rw [add_zero]
    exact mt Multiset.mem_coe.mp hx

end

section
variable {pa : Page} {old new : PageTable} {Wo W : Nat → Option Word} {fcn arg stack : Word} {r : Int}

abbrev Cloned := Created fun Wo W n W' => W' = mirrored Wo W 0 n

theorem Cloned.started (h : Cloned σ k i j pa old new Wo W σ₁ k₁)
    (hs : PhysKernel.Started σ₁ i j (cloneRegs fcn arg stack) r σ') (hr : Rep σ k)
    (hi : (k.proc i).state ≠ .unused) : ∃ src, (σ.proc i).trapframe = some src ∧
      Launched σ₁.mem.ram src pa fcn arg stack σ'.mem.ram := by
  have hij : i ≠ j := fun hij => hi (hij ▸ h.unused)
  obtain ⟨src, dst, hsrc, hdst, hm⟩ := hs.frame
  rw [h.frame.1 i hij] at hsrc
  rw [(h.trapframe hr).2.2.1] at hdst
  cases hdst
  exact ⟨src, hsrc, cloneRegs_launched hm⟩

theorem Cloned.untouched (h : Cloned σ k i j pa old new Wo W σ₁ k₁)
    (hs : PhysKernel.Started σ₁ i j (cloneRegs fcn arg stack) r σ') (hr : Rep σ k) (ha : k.Apart)
    (hi : (k.proc i).state ≠ .unused) : Untouched σ i σ' := by
  have hij : i ≠ j := fun hij => hi (hij ▸ h.unused)
  obtain ⟨src, -, hl⟩ := h.started hs hr hi
  refine hr.untouched ha ((hs.other i hij).trans (h.frame.1 i hij)) fun x hx => ?_
  rw [hl.other x fun hxpa => hx (hxpa ▸ (h.trapframe hr).1)]
  exact h.frame.2 x hx

theorem Cloned.threadOf (h : Cloned σ k i j pa old new Wo W σ₁ k₁)
    (hs : PhysKernel.Started σ₁ i j (cloneRegs fcn arg stack) r σ') (hr : Rep σ k) (hw : k.Wf)
    (hi : (k.proc i).state ≠ .unused)
    (hpresent : ∀ v < pgRoundUp (σ.proc i).sz, lookup σ.mem.ram old.root v ≠ none) :
    ∃ src, ThreadOf σ i old.root src fcn arg stack σ' j new.root pa := by
  obtain ⟨hfree, hnot, htf, hpt⟩ := h.trapframe hr
  obtain ⟨src, hsrc, hl⟩ := h.started hs hr hi
  have hsrcFree : src ∉ k.freelist := by
    rw [(hr.proc i).trapframe] at hsrc
    obtain ⟨f, hf, rfl⟩ := Option.map_eq_some_iff.mp hsrc
    exact hr.not_free (Proc.trapframe_mem hf)
  have hsize : pgRoundUp (σ.proc i).sz ≤ trapframeVa := (hr.proc i).sz ▸ (hw i).size
  -- the words of the new table
  have hnew : Tree σ'.mem.ram new W := h.newTree.frame fun x hx => hl.other x fun hxpa => hnot (hxpa ▸ hx)
  have hW : W = mirrored Wo (trapEntries pa) 0 (pgRoundUp (σ.proc i).sz) := (hr.proc i).sz ▸ h.fill
  have hlook (v : Nat) (hv : v < maxVa) : lookup σ'.mem.ram new.root v =
      if v < pgRoundUp (σ.proc i).sz then (lookup σ.mem.ram old.root v).map fun w => remap (pte2pa w) w
      else trapEntries pa v := by
    rw [hnew.lookup hv, hW, h.tree.lookup hv]
    simp [mirrored]
  refine ⟨src, (hr.proc j).state ▸ h.unused, hsrc, hs.pagetable.trans hpt, hs.trapframe.trans htf,
    fun v hv => ?_, fun v hv hv' => ?_, ⟨k.freelist, hr.chain, hfree⟩, ?_, hl.epc, hl.a0, hl.sp,
    fun w hw he ha hsp => ?_⟩
  · have hlt : v < maxVa := (hv.trans_le hsize).trans trapframeVa_lt
    obtain ⟨pte, hpte⟩ := Option.ne_none_iff_exists'.mp (hpresent v hv)
    have hvalid : Valid pte := lookup_valid hpte
    obtain ⟨-, hpage, hflags⟩ := remap_same hvalid
    refine ⟨pte, remap (pte2pa pte) pte, hpte, ?_, hpage, hflags⟩
    rw [hlook v hlt, if_pos hv, hpte]
    rfl
  · rw [hlook v (hv'.trans trapframeVa_lt), if_neg (Nat.not_lt.mpr hv)]
    have := trapframeVa_succ
    unfold trapEntries
    rw [Function.update_of_ne (by omega), Function.update_of_ne (by omega)]
  · refine ⟨pa2pte pa ||| (pteR ||| pteW) ||| pteV, ?_, ?_⟩
    · rw [hlook _ trapframeVa_lt, if_neg (Nat.not_lt.mpr hsize)]
      exact Function.update_self ..
    · have hlt : pa < phystop := (hr.arena.range pa (by simpa using hfree)).2
      exact (encodes (hlt.trans (by decide)) (by decide)).page
  · rw [hl.regs w hw he ha hsp, h.frame.2 src hsrcFree]

end

def Kernel.allPresent (k : Kernel) (z : Slot) : Bool :=
  (List.range (pgRoundUp (k.proc z).sz)).all fun v => ((k.proc z).leaf v).isSome

theorem Rep.present {root : Page} (hr : Rep σ k) (hw : k.Wf) (hroot : (σ.proc z).pagetable = some root)
    (h : k.allPresent z = true) : ∀ v < pgRoundUp (σ.proc z).sz, lookup σ.mem.ram root v ≠ none := by
  rw [← (hr.proc z).sz]
  intro v hv hnone
  have hrel := (hr.proc z).lookup hroot ((hv.trans_le (hw z).size).trans trapframeVa_lt)
  have hsome := List.all_eq_true.mp h v (List.mem_range.mpr hv)
  rw [hnone] at hrel
  generalize (k.proc z).leaf v = o at hrel hsome
  cases hrel
  cases hsome

/-- Where the page table can be shared, the `clone` of a process without open files succeeds. -/
theorem clone_runs {p : Proc} (hr : Rep σ k) (hrec : ∀ z, σ.proc z = (k.proc z).record) (hw : k.Wf)
    (hi : (k.proc i).Live) (h : Kernel.create uvmmirror i k = .ok (some (j, p), k₁)) (fcn arg stack : Word) :
    ∃ r σ' σ₁ pa old new Wo W, PhysKernel.clone fcn arg stack i σ = .ok (r, σ') ∧
      Cloned σ k i j pa old new Wo W σ₁ k₁ ∧ PhysKernel.Started σ₁ i j (cloneRegs fcn arg stack) r σ' := by
  have hu : (k.proc i).state ≠ .unused := by
    intro hu
    unfold Proc.Live at hi
    simp [hu] at hi
  obtain ⟨r, σ₁, hrun, hr', -, hsome⟩ :=
    (create_sim @uvmmirror_sim Kernel.uvmmirror_shares hr hw hu).succeeds _ _ h
  obtain rfl : r = some j := hr'
  obtain ⟨-, pa, old, new, Wo, W, hc⟩ := hsome j p rfl
  have hij : i ≠ j := fun hij => hu (hij ▸ hc.unused)
  have hσi : σ₁.proc i = (k.proc i).record := (hc.frame.1 i hij).trans (hrec i)
  obtain ⟨f, hf⟩ := Option.ne_none_iff_exists'.mp ((hw i).live hi).1
  have hsrc : (σ₁.proc i).trapframe = some f.page := by
    rw [hσi]
    exact congrArg (Option.map Frame.page) hf
  obtain ⟨r, σ', hstart⟩ : ∃ r σ', PhysKernel.startChild i j true (cloneRegs fcn arg stack) σ₁ = .ok (r, σ') :=
    PhysKernel.startChild_runs hij hsrc (hc.trapframe hr).2.2.1 (by rw [hσi]; rfl) (by rw [hσi]; rfl)
      fun _ => ⟨_, rfl⟩
  exact ⟨r, σ', σ₁, pa, old, new, Wo, W, (bind_ok hrun).trans hstart, hc, PhysKernel.startChild_spec _ _ hstart⟩

/-- In every state of a run that frees no page which another process maps, a `clone` that succeeds
shares exactly the memory of its caller, which stays as it was. -/
theorem clone_shares_memory {pages : List Page} {img : Option Image} {argv : List Nat} {root : Page}
    {fcn arg stack : Word} {r : Int} (hp : pages.Nodup) (hb : Kernel.boot pages img argv = some k₀)
    (hm : Kernel.Meets Kernel.Exclusive k₀ ts) (hr : Kernel.run k₀ ts = some k) (hσ : Rep σ k)
    (hi : (σ.proc i).state ≠ .unused) (hroot : (σ.proc i).pagetable = some root)
    (hpresent : ∀ v < pgRoundUp (σ.proc i).sz, lookup σ.mem.ram root v ≠ none)
    (h : PhysKernel.clone fcn arg stack i σ = .ok (r, σ')) (hne : r ≠ -1) :
    (∃ j src root' tf, (σ'.proc j).pid = r ∧ ThreadOf σ i root src fcn arg stack σ' j root' tf) ∧
      Untouched σ i σ' := by
  have hk := ready_run hp hb hm hr
  have hik : (k.proc i).state ≠ .unused := (hσ.proc i).state ▸ hi
  have hmakes := PhysKernel.newproc_makes @uvmmirror_sim Kernel.uvmmirror_shares hσ hk.1.1 hik _ _ h
  cases hmakes with
  | undone _ => exact absurd rfl hne
  | @started j pa old new Wo W σ₁ _ k₁ _ hc hs =>
    have hold : root = old.root := by
      rw [(hσ.proc i).pagetable, hc.parent] at hroot
      exact (Option.some.inj hroot).symm
    subst hold
    obtain ⟨src, ht⟩ := Cloned.threadOf hc hs hσ hk.1.1 hik hpresent
    exact ⟨⟨j, src, new.root, pa, hs.pid.trans hs.result.symm, ht⟩, Cloned.untouched hc hs hσ hk.1 hik⟩

theorem clone_shares_memory_three : ∃ k₀ k σ σ' root r, machine 40 = some k₀ ∧ Kernel.run k₀ [] = some k ∧
    Rep σ k ∧ (σ.proc 0).pagetable = some root ∧ pgRoundUp (σ.proc 0).sz = 3 ∧
    PhysKernel.clone 100 7 4096 0 σ = .ok (r, σ') ∧ r ≠ -1 ∧
    (∃ j src root' tf, (σ'.proc j).pid = r ∧ ThreadOf σ 0 root src 100 7 4096 σ' j root' tf) ∧
    Untouched σ 0 σ' := by
  have h : machineReaches 40 [] (fun k => returns (Kernel.create uvmmirror 0) k fun c _ => c.any fun _ =>
      (k.proc 0).state = .runnable ∧ pgRoundUp (k.proc 0).sz = 3 ∧ k.nextpid = 2 ∧ k.allPresent 0) = true := by
    decide +kernel
  obtain ⟨k₀, k, σ, hb, hr, hw, hσ, hrec, h⟩ := machine_reaches (by decide) h fun _ _ => trivial
  obtain ⟨c, k₁, hcreate, hsome⟩ := of_returns h
  obtain ⟨⟨j, p⟩, rfl, h⟩ := (Option.any_eq_true _ _).mp hsome
  obtain ⟨hs, hsz, hn, hleaf⟩ := of_decide_eq_true h
  obtain ⟨r, σ', σ₁, pa, old, new, Wo, W, hrun, hc, hstart⟩ :=
    clone_runs hσ hrec hw (.inl hs) hcreate 100 7 4096
  have hroot : (σ.proc 0).pagetable = some old.root := by
    rw [(hσ.proc 0).pagetable, hc.parent]
    rfl
  have hne : r ≠ -1 := by
    rw [hstart.result, hc.pid, ← hσ.nextpid, hn]
    decide
  have hi : (σ.proc 0).state ≠ .unused := by
    simp [← (hσ.proc 0).state, hs]
  have hpresent := hσ.present hw hroot hleaf
  have hm : Kernel.Meets Kernel.Exclusive k₀ [] := trivial
  exact ⟨k₀, k, σ, σ', old.root, r, hb, hr, hσ, hroot, (hσ.proc 0).sz ▸ hsz, hrun, hne,
    clone_shares_memory (highPages_nodup 40) hb hm hr hσ hi hroot hpresent hrun hne⟩

/-- A thread whose creator was reaped clones, and the new trapframe is one of its own pages. -/
theorem clone_overwrites_caller : ∃ k₀ k σ σ' fcn root pte r, machine 26 = some k₀ ∧
    Kernel.run k₀ orphanNext = some k ∧ Rep σ k ∧ (σ.proc 2).state = .runnable ∧
    (σ.proc 2).pagetable = some root ∧
    (∀ v < pgRoundUp (σ.proc 2).sz, lookup σ.mem.ram root v ≠ none) ∧
    PhysKernel.clone fcn 0 0 2 σ = .ok (r, σ') ∧ r ≠ -1 ∧ lookup σ.mem.ram root 2 = some pte ∧
    σ'.mem.ram (pte2pa pte) PhysKernel.wordEpc ≠ σ.mem.ram (pte2pa pte) PhysKernel.wordEpc := by
  have h : machineReaches 26 orphanNext (fun k => returns (Kernel.create uvmmirror 2) k fun c k₁ =>
      c.any fun c => ((k.proc 2).leaf 2).any fun e => (k.proc 2).state = .runnable ∧ k.nextpid = 4 ∧
        k.allPresent 2 ∧ (k₁.proc c.1).trapframe.map Frame.page = some e.pa) = true := by decide +kernel
  obtain ⟨k₀, k, σ, hb, hr, hw, hσ, hrec, h⟩ := machine_reaches (by decide) h fun _ => orphanNext_tidy
  obtain ⟨c, k₁, hcreate, hsome⟩ := of_returns h
  obtain ⟨⟨j, p⟩, rfl, h⟩ := (Option.any_eq_true _ _).mp hsome
  obtain ⟨e, he, h⟩ := (Option.any_eq_true _ _).mp h
  obtain ⟨hs, hn, hleaf, hpage⟩ := of_decide_eq_true h
  obtain ⟨root, pte, hroot, hpte, hpa⟩ := hσ.entry he (by unfold maxVa; decide)
  obtain ⟨r, σ', σ₁, pa, old, new, Wo, W, hrun, hc, hstart⟩ :=
    clone_runs hσ hrec hw (.inl hs) hcreate (σ.mem.ram e.pa PhysKernel.wordEpc + 1) 0 0
  have hne : r ≠ -1 := by
    rw [hstart.result, hc.pid, ← hσ.nextpid, hn]
    decide
  have hu : (k.proc 2).state ≠ .unused := by
    simp [hs]
  obtain ⟨src, -, hl⟩ := hc.started hstart hσ hu
  refine ⟨k₀, k, σ, σ', _, root, pte, r, hb, hr, hσ, (hσ.proc 2).state ▸ hs, hroot,
    hσ.present hw hroot hleaf, hrun, hne, hpte, ?_⟩
  have heq : pa = e.pa := by
    obtain ⟨c, rest, hmk⟩ := hc.making
    rw [hmk.kproc] at hpage
    exact Option.some.inj hpage
  rw [hpa, ← heq, hl.epc, heq]
  simp

end OsLab
