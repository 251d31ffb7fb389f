import OsLab.Ownership
import OsLab.Proc
import OsLab.VmBounds

/-!
# Where the pages of a process go

A process holds its trapframes and page-table pages, user pages of its own and
user pages that it mirrors. For each function on one process the file says
which pages move between the process and the free list.
-/

namespace OsLab

open Mach Finset

/-! ## Making and freeing the page table of a process -/

section
variable {pt : PageTable} {free : List Page}

theorem uvmfree_spec (sz : Nat) :
    Ensures (uvmfree pt sz) free fun _ free' =>
      (∀ u, pgRoundUp sz ≤ u → pt.leaf u = none) ∧
      (free' : Multiset Page) = free + pt.tables + pt.mapped (Ico 0 (pgRoundUp sz)) := by
  refine Ensures.ite (fun _ => ?_) fun hsz => ?_
  · refine Ensures.bind ((uvmunmap_spec _ true pt 0 free).mono ?_)
    rintro pt' free' ⟨hc, ht, hf⟩
    rw [Nat.zero_add] at hc hf
    refine (freewalk_spec pt' free').mono ?_
    rintro _ free'' ⟨hn, hf'⟩
    refine ⟨fun u hu => ?_, ?_⟩
    · rw [← hn u, hc u, if_neg (by rw [mem_Ico]; omega)]
    · rw [hf', hf, ht, if_pos rfl]
      abel
  · have hz : pgRoundUp sz = 0 := by unfold pgRoundUp; omega
    refine Ensures.bind (Ensures.pure ((freewalk_spec pt free).mono ?_))
    rintro _ free' ⟨hn, hf⟩
    refine ⟨fun u _ => hn u, ?_⟩
    rw [hf, hz, Ico_self, PageTable.mapped, sum_empty, add_zero]

theorem procFreepagetable_spec (sz : Nat) (hsz : pgRoundUp sz ≤ trapframeVa) :
    Ensures (procFreepagetable pt sz) free fun _ free' =>
      (∀ u, pgRoundUp sz ≤ u → u < trapframeVa → pt.leaf u = none) ∧
      (free' : Multiset Page) = free + pt.tables + (pt.own + pt.mir) := by
  refine Ensures.bind ((uvmunmap_spec 1 false pt trampoline free).mono ?_)
  rintro pt₁ free₁ ⟨hc₁, ht₁, hf₁⟩
  refine Ensures.bind ((uvmunmap_spec 1 false pt₁ trapframeVa free₁).mono ?_)
  rintro pt₂ free₂ ⟨hc₂, ht₂, hf₂⟩
  refine (uvmfree_spec sz).mono ?_
  rintro _ free' ⟨hn, hf⟩
  have below : ∀ u < trapframeVa, pt₂.leaf u = pt.leaf u := by
    intro u hu
    have : trapframeVa ≤ trampoline := Nat.sub_le _ _
    rw [hc₂ u, if_neg (by rw [mem_Ico]; omega), hc₁ u, if_neg (by rw [mem_Ico]; omega)]
  have rest : ∀ u, pgRoundUp sz ≤ u → u < trapframeVa → pt.leaf u = none := fun u hu hlt => by
    rw [← below u hlt]; exact hn u hu
  refine ⟨rest, ?_⟩
  have hm : pt₂.mapped (Ico 0 (pgRoundUp sz)) = pt.own + pt.mir := by
    rw [pt.own_add_mir, range_eq_Ico]
    unfold PageTable.mapped
    rw [← sum_Ico_consecutive (fun v => pageAt ((pt.leaf v).map Pte.pa)) (Nat.zero_le _) hsz]
    have hz : ∑ v ∈ Ico (pgRoundUp sz) trapframeVa, pageAt ((pt.leaf v).map Pte.pa) = 0 :=
      sum_eq_zero fun v hv => by
        rw [rest v (mem_Ico.mp hv).1 (mem_Ico.mp hv).2, Option.map_none, pageAt_none]
    rw [hz, add_zero]
    exact sum_congr rfl fun v hv => by
      rw [below v (by have := (mem_Ico.mp hv).2; omega)]
  rw [hf, hm, hf₂, hf₁, ht₂, ht₁]
  simp only [Bool.false_eq_true, if_false, add_zero]

theorem threadFreepagetable_spec (sz : Nat) :
    Ensures (threadFreepagetable pt sz) free fun _ free' =>
      (free' : Multiset Page) = free + pt.tables := by
  refine Ensures.bind ((uvmunmap_spec _ false pt 0 free).mono ?_)
  rintro pt₁ free₁ ⟨hc, ht, hf⟩
  have hz : pgRoundUp 0 = 0 := rfl
  refine Ensures.mono (procFreepagetable_spec 0 (hz ▸ Nat.zero_le _)) ?_
  rintro _ free' ⟨hn, hf'⟩
  have hb : pt₁.Bare := fun u hu => hn u (hz ▸ Nat.zero_le u) hu
  rw [hf', hb.own, hb.mir, hf, ht, if_neg Bool.false_ne_true]
  simp only [add_zero]

theorem procPagetable_spec (tf : Page) :
    Ensures (procPagetable tf) free fun r free' =>
      (r = none → (free' : Multiset Page) = free) ∧
      ∀ pt, r = some pt → pt.Framed ∧ pt.Within 0 ∧ (free' : Multiset Page) + pt.tables = free := by
  have hne : trapframeVa ≠ trampoline := by
    unfold trapframeVa trampoline maxVa; omega
  refine Ensures.bind (Ensures.bind ((kalloc_spec free).mono ?_))
  intro r free₀ hr
  cases r with
  | none =>
    refine Ensures.pure (Ensures.pure ⟨fun _ => ?_, nofun⟩)
    rw [← hr, pageAt_none, add_zero]
  | some pa =>
    refine Ensures.pure ?_
    -- the page of the root is all that the empty table has
    have h₀ : (free₀ : Multiset Page) + (PageTable.empty pa).tables = free := by
      rw [PageTable.empty_tables, ← hr, pageAt_some]
    refine Ensures.bind ((mappages_spec (PageTable.empty pa) trampoline free₀ _).mono ?_)
    rintro ⟨ok, pt₁⟩ free₁ ⟨hp₁, -, hok₁, hno₁⟩
    refine Ensures.ite (fun h₁ => ?_) fun h₁ => ?_
    · obtain ⟨-, hl₁⟩ := hok₁ h₁
      refine Ensures.bind ((mappages_spec pt₁ trapframeVa free₁ _).mono ?_)
      rintro ⟨ok₂, pt₂⟩ free₂ ⟨hp₂, -, hok₂, hno₂⟩
      refine Ensures.ite (fun h₂ => ?_) fun h₂ => ?_
      · obtain ⟨-, hl₂⟩ := hok₂ h₂
        refine Ensures.pure ⟨nofun, fun pt hpt => ?_⟩
        cases hpt
        refine ⟨⟨?_, ?_⟩, fun u _ htf htr => ?_, by rw [hp₂, hp₁, h₀]⟩
        · rw [hl₂, Function.update_self]; exact Option.some_ne_none _
        · rw [hl₂, Function.update_of_ne hne.symm, hl₁, Function.update_self]
          exact Option.some_ne_none _
        · rw [hl₂, Function.update_of_ne htf, hl₁, Function.update_of_ne htr]
          rfl
      · refine Ensures.bind ((uvmunmap_spec 1 false pt₂ trampoline free₂).mono ?_)
        rintro pt₃ free₃ ⟨-, ht₃, hf₃⟩
        refine Ensures.bind ((uvmfree_spec 0).mono ?_)
        rintro _ free₄ ⟨-, hf₄⟩
        refine Ensures.pure ⟨fun _ => ?_, nofun⟩
        rw [hf₄, hf₃, ht₃, if_neg Bool.false_ne_true, add_zero, hp₂, hp₁, h₀]
        simp [PageTable.mapped, pgRoundUp]
    · refine Ensures.bind ((uvmfree_spec 0).mono ?_)
      rintro _ free₂ ⟨-, hf₂⟩
      refine Ensures.pure ⟨fun _ => ?_, nofun⟩
      rw [hf₂, hp₁, h₀]
      simp [PageTable.mapped, pgRoundUp]

end

/-! ## The pages of a process -/

def frameAt (f : Option Frame) : Multiset Page := pageAt (f.map Frame.page)

namespace Proc

def hold (p : Proc) : Holder Page where
  kern := frameAt p.trapframe + frameAt p.alarmTrapframe + p.pagetable.elim 0 PageTable.tables
  own := p.pagetable.elim 0 PageTable.own
  mir := p.pagetable.elim 0 PageTable.mir

def alarm (p : Proc) : Bool × Option Frame := (p.alarmActive, p.alarmTrapframe)

def Live (p : Proc) : Prop := p.state = .runnable ∨ p.state = .running ∨ p.state = .sleeping

structure Wf (p : Proc) : Prop where
  unused : p.state = .unused →
    p.trapframe = none ∧ p.alarm = (false, none) ∧ p.pagetable = none
  live : p.Live → p.trapframe ≠ none ∧ p.pagetable ≠ none
  table : ∀ pt, p.pagetable = some pt → pt.Framed ∧ pt.Within (pgRoundUp p.sz)
  size : pgRoundUp p.sz ≤ trapframeVa
  thread : p.isThread = false → p.hold.mir = 0

variable {p q : Proc} {free free' : List Page}

structure Renews (free : List Page) (p : Proc) (free' : List Page) (q : Proc) : Prop where
  wf : q.Wf
  pages : (free' : Multiset Page) + q.hold.kern + q.hold.user =
    free + p.hold.kern + p.hold.user

structure Grows (free : List Page) (p : Proc) (free' : List Page) (q : Proc) : Prop
    extends Renews free p free' q where
  user : p.hold.user ≤ q.hold.user
  mir : q.hold.mir = p.hold.mir

theorem hold_none (hp : p.pagetable = none) :
    p.hold = ⟨frameAt p.trapframe + frameAt p.alarmTrapframe, 0, 0⟩ := by
  unfold hold
  rw [hp, Option.elim_none, Option.elim_none, Option.elim_none, add_zero]

theorem hold_some {pt : PageTable} (hp : p.pagetable = some pt) :
    p.hold = ⟨frameAt p.trapframe + frameAt p.alarmTrapframe + pt.tables, pt.own, pt.mir⟩ := by
  unfold hold
  rw [hp, Option.elim_some, Option.elim_some, Option.elim_some]

theorem Grows.of_extends {pt pt' : PageTable} {sz : Nat} (hp : p.pagetable = some pt) (hw : p.Wf)
    (h : Extends free pt free' pt') (hin : pt'.Within (pgRoundUp sz))
    (hsz : pgRoundUp sz ≤ trapframeVa) :
    Grows free p free' { p with pagetable := some pt', sz := sz } := by
  have hq : ({ p with pagetable := some pt', sz := sz } : Proc).hold =
      ⟨frameAt p.trapframe + frameAt p.alarmTrapframe + pt'.tables, pt'.own, pt'.mir⟩ :=
    hold_some rfl
  refine ⟨⟨⟨fun hu => ?_, fun hl => ⟨(hw.live hl).1, Option.some_ne_none pt'⟩, fun pt₁ h₁ => ?_,
    hsz, fun ht => ?_⟩, ?_⟩, ?_, ?_⟩
  · have := (hw.unused hu).2.2
    rw [hp] at this; cases this
  · cases h₁
    exact ⟨h.framed (hw.table pt hp).1, hin⟩
  · have := hw.thread ht
    rw [hold_some hp] at this
    rw [hq]
    exact h.mir.trans this
  · rw [hq, hold_some hp]
    unfold Holder.user
    generalize frameAt p.trapframe + frameAt p.alarmTrapframe = F
    calc (free' : Multiset Page) + (F + pt'.tables) + (pt'.own + pt'.mir)
        = (free' + pt'.tables + pt'.own) + F + pt'.mir := by abel
      _ = (free + pt.tables + pt.own) + F + pt.mir := by rw [h.pages, h.mir]
      _ = (free : Multiset Page) + (F + pt.tables) + (pt.own + pt.mir) := by abel
  · rw [hq, hold_some hp]
    exact h.user
  · rw [hq, hold_some hp]
    exact h.mir

theorem Grows.of_perm (hw : p.Wf) (h : (free' : Multiset Page) = free) : Grows free p free' p :=
  ⟨⟨hw, by rw [h]⟩, le_rfl, rfl⟩

theorem Wf.congr (hw : p.Wf) (hh : q.hold.mir = p.hold.mir) (hpt : q.pagetable = p.pagetable)
    (hsz : q.sz = p.sz) (hth : q.isThread = p.isThread)
    (hu : q.state = .unused →
      q.trapframe = none ∧ q.alarm = (false, none) ∧ q.pagetable = none)
    (hl : q.Live → q.trapframe ≠ none ∧ q.pagetable ≠ none) : q.Wf := by
  refine ⟨hu, hl, fun pt hp => ?_, hsz ▸ hw.size, fun ht => ?_⟩
  · rw [hsz]; exact hw.table pt (hpt ▸ hp)
  · rw [hh]; exact hw.thread (hth ▸ ht)

theorem Grows.congr {q' : Proc} (h : Grows free p free' q) (hw : q'.Wf) (hh : q'.hold = q.hold) :
    Grows free p free' q' :=
  ⟨⟨hw, by rw [hh]; exact h.pages⟩, by rw [hh]; exact h.user, by rw [hh]; exact h.mir⟩

theorem Grows.of_hold (hq : q.Wf) (hh : q.hold = p.hold) : Grows free p free q := by
  refine ⟨⟨hq, ?_⟩, ?_, ?_⟩ <;> rw [hh]

theorem setRegs_hold {tf : Frame} (regs : Trapframe) (htf : p.trapframe = some tf) :
    ({ p with trapframe := some { tf with regs := regs } } : Proc).hold = p.hold := by
  have : frameAt (some { tf with regs := regs }) = frameAt p.trapframe := by rw [htf]; rfl
  unfold hold
  rw [← this]

theorem Grows.of_frame {pa : Page} {regs : Trapframe} (hw : p.Wf) (hs : p.state ≠ .unused)
    (htf : p.trapframe = none) (hf : (free' : Multiset Page) + {pa} = free) :
    Grows free p free' { p with trapframe := some ⟨pa, regs⟩ } := by
  have hq : ({ p with trapframe := some ⟨pa, regs⟩ } : Proc).hold =
      ⟨{pa} + p.hold.kern, p.hold.own, p.hold.mir⟩ := by
    unfold hold
    rw [htf]
    have : frameAt none = 0 := rfl
    rw [this, zero_add, add_assoc]
    rfl
  refine ⟨⟨⟨fun h => absurd h hs, fun hl => ⟨Option.some_ne_none _, (hw.live hl).2⟩, hw.table,
    hw.size, fun ht => ?_⟩, ?_⟩, ?_, ?_⟩
  · rw [hq]; exact hw.thread ht
  · rw [hq, ← hf]
    unfold Holder.user
    dsimp only
    abel
  · rw [hq]; exact le_rfl
  · rw [hq]

theorem Grows.of_table {pt : PageTable} (hw : p.Wf) (hs : p.state ≠ .unused)
    (hp : p.pagetable = none) (hF : pt.Framed) (hb : pt.Within 0)
    (hf : (free' : Multiset Page) + pt.tables = free) :
    Grows free p free' { p with pagetable := some pt } := by
  have hq : ({ p with pagetable := some pt } : Proc).hold =
      ⟨frameAt p.trapframe + frameAt p.alarmTrapframe + pt.tables, 0, 0⟩ := by
    rw [hold_some rfl, hb.bare.own, hb.bare.mir]
  refine ⟨⟨⟨fun h => absurd h hs, fun hl => ⟨(hw.live hl).1, Option.some_ne_none pt⟩,
    fun pt₁ h₁ => ?_, hw.size, fun ht => ?_⟩, ?_⟩, ?_, ?_⟩
  · cases h₁; exact ⟨hF, hb.mono (Nat.zero_le _)⟩
  · rw [hq]
  · rw [hq, hold_none hp, ← hf]
    unfold Holder.user
    dsimp only
    abel
  · rw [hq, hold_none hp]
    unfold Holder.user
    dsimp only
    exact le_rfl
  · rw [hq, hold_none hp]

theorem hold_forget_le (p : Proc) :
    ({ p with alarmTrapframe := none } : Proc).hold.kern ≤ p.hold.kern := by
  unfold hold
  dsimp only
  exact add_le_add (add_le_add le_rfl (Multiset.zero_le _)) le_rfl

theorem hold_backup {saved : Frame} (hs : p.alarmTrapframe = some saved)
    (hq : q.hold = ({ p with alarmTrapframe := none } : Proc).hold) :
    p.hold = ⟨q.hold.kern + {saved.page}, q.hold.own, q.hold.mir⟩ := by
  have h₀ : frameAt none = 0 := rfl
  have h₁ : frameAt (some saved) = {saved.page} := rfl
  rw [hq]
  unfold hold
  dsimp only
  rw [hs, h₀, h₁, add_zero, add_right_comm]

theorem Grows.of_return {saved : Frame} (hs : p.alarmTrapframe = some saved) (hw : q.Wf)
    (hq : q.hold = ({ p with alarmTrapframe := none } : Proc).hold)
    (hf : (free' : Multiset Page) = free + {saved.page}) : Grows free p free' q := by
  have hp := hold_backup hs hq
  refine ⟨⟨hw, ?_⟩, ?_, ?_⟩
  · rw [hp, hf]
    unfold Holder.user
    dsimp only
    abel
  · rw [hp]; exact le_rfl
  · rw [hp]

theorem Grows.of_fire (saved : Frame) (hs : q.alarmTrapframe = some saved) (hw : q.Wf)
    (hp : p.hold = ({ q with alarmTrapframe := none } : Proc).hold)
    (hf : (free' : Multiset Page) + {saved.page} = free) : Grows free p free' q := by
  have hq := hold_backup hs hp
  refine ⟨⟨hw, ?_⟩, ?_, ?_⟩
  · rw [hq, ← hf]
    unfold Holder.user
    dsimp only
    abel
  · rw [hq]; exact le_rfl
  · rw [hq]

theorem Wf.used (hw : p.Wf) {tf : Frame} (htf : p.trapframe = some tf) : p.state ≠ .unused := by
  intro h
  rw [(hw.unused h).1] at htf
  cases htf

/-! ## Freeing a process -/

theorem kfreeFrame_spec (f : Option Frame) :
    Ensures (kfreeFrame f) free fun _ free' => (free' : Multiset Page) = free + frameAt f := by
  cases f with
  | none => exact Ensures.pure (by simp [frameAt])
  | some f => exact (kfree_spec f.page free).mono fun _ _ h => h

def freed (p : Proc) : Proc := { Proc.zero with isThread := p.isThread }

theorem pgRoundUp_zero : pgRoundUp 0 = 0 := rfl

theorem freed_wf : (freed p).Wf :=
  ⟨fun _ => ⟨rfl, rfl, rfl⟩, nofun, nofun, pgRoundUp_zero ▸ Nat.zero_le _, fun _ => rfl⟩

theorem freed_hold : (freed p).hold = ⟨0, 0, 0⟩ := rfl

theorem freeproc_spec (hw : p.Wf) :
    Ensures p.freeproc free fun q free' => q = freed p ∧
      (free' : Multiset Page) = free + p.hold.kern + if p.isThread then 0 else p.hold.user := by
  refine Ensures.bind ((kfreeFrame_spec p.trapframe).mono fun _ free₁ h₁ => ?_)
  refine Ensures.bind ((kfreeFrame_spec p.alarmTrapframe).mono fun _ free₂ h₂ => ?_)
  have frames : (free₂ : Multiset Page) =
      free + (frameAt p.trapframe + frameAt p.alarmTrapframe) := by
    rw [h₂, h₁, add_assoc]
  cases hp : p.pagetable with
  | none =>
    refine Ensures.bind (Ensures.pure (Ensures.pure ⟨rfl, ?_⟩))
    rw [frames, hold_none hp]
    simp [Holder.user]
  | some pt =>
    refine Ensures.ite (fun ht => ?_) fun ht => ?_
    · refine Ensures.bind ((threadFreepagetable_spec p.sz).mono fun _ free₃ h₃ => ?_)
      refine Ensures.pure ⟨rfl, ?_⟩
      rw [h₃, frames, if_pos ht, add_zero, hold_some hp, add_assoc]
    · refine Ensures.bind ((procFreepagetable_spec p.sz hw.size).mono ?_)
      rintro _ free₃ ⟨-, h₃⟩
      refine Ensures.pure ⟨rfl, ?_⟩
      rw [h₃, frames, if_neg ht, hold_some hp, Holder.user, add_assoc (free : Multiset Page)]

/-! ## Faults, copies, growing -/

def Remaps (p q : Proc) : Prop :=
  ∃ pt sz tf, q = { p with pagetable := pt, sz := sz, trapframe := tf }

theorem Remaps.refl (p : Proc) : Remaps p p := ⟨p.pagetable, p.sz, p.trapframe, rfl⟩

theorem Remaps.trans {p₁ : Proc} (h : Remaps p p₁) (h' : Remaps p₁ q) : Remaps p q := by
  obtain ⟨pt, sz, tf, rfl⟩ := h
  obtain ⟨pt', sz', tf', rfl⟩ := h'
  exact ⟨pt', sz', tf', rfl⟩

theorem Remaps.alarm (h : Remaps p q) : q.alarm = p.alarm := by
  obtain ⟨pt, sz, tf, rfl⟩ := h
  rfl

theorem vmfault_spec (hw : p.Wf) (va : Nat) :
    Ensures (p.vmfault va) free fun r free' =>
      Grows free p free' r.2 ∧ Remaps p r.2 := by
  refine Ensures.bind (Ensures.deref fun pt hp => ?_)
  obtain ⟨hF, hin⟩ := hw.table pt hp
  refine Ensures.bind (((OsLab.vmfault_spec p.sz va hF).and (vmfault_within va hin le_rfl)).mono ?_)
  rintro ⟨pa, pt'⟩ free' ⟨h, hin'⟩
  exact Ensures.pure ⟨Grows.of_extends hp hw h hin' hw.size, some pt', p.sz, p.trapframe, rfl⟩

theorem copyout_spec (hw : p.Wf) (addr len : Nat) :
    Ensures (p.copyout addr len) free fun r free' =>
      Grows free p free' r.2 ∧ Remaps p r.2 := by
  refine Ensures.bind (Ensures.deref fun pt hp => ?_)
  obtain ⟨hF, hin⟩ := hw.table pt hp
  refine Ensures.bind (((OsLab.copyout_spec p.sz addr len hF).and
    (copyout_within addr len hin le_rfl)).mono ?_)
  rintro ⟨ok, pt'⟩ free' ⟨h, hin'⟩
  exact Ensures.pure ⟨Grows.of_extends hp hw h hin' hw.size, some pt', p.sz, p.trapframe, rfl⟩

theorem Grows.trans {free₁ : List Page} {p₁ : Proc} (h : Grows free p free₁ p₁) (h' : Grows free₁ p₁ free' q) :
    Grows free p free' q :=
  ⟨⟨h'.wf, h'.pages.trans h.pages⟩, h.user.trans h'.user, h'.mir.trans h.mir⟩

theorem Grows.frame (h : Grows free p free' q) (l : List Page) : Grows (free ++ l) p (free' ++ l) q := by
  refine ⟨⟨h.wf, ?_⟩, h.user, h.mir⟩
  have hp := h.pages
  rw [← Multiset.coe_add, ← Multiset.coe_add]
  rw [add_assoc] at hp ⊢
  rw [add_right_comm, hp]
  abel

theorem touchAll_spec (hw : p.Wf) (vas : List Nat) :
    Ensures (p.touchAll vas) free fun r free' => Grows free p free' r.2 ∧ Remaps p r.2 := by
  induction vas generalizing p free with
  | nil => exact Ensures.pure ⟨Grows.of_perm hw rfl, Remaps.refl p⟩
  | cons va vas ih =>
    refine Ensures.bind ((vmfault_spec hw va).mono ?_)
    rintro ⟨ok, q⟩ free₁ ⟨hg, hr⟩
    refine Ensures.ite (fun _ => ?_) fun _ => Ensures.pure ⟨hg, hr⟩
    exact (ih hg.wf).mono fun _ _ h => ⟨hg.trans h.1, hr.trans h.2⟩

theorem growproc_grows (hw : p.Wf) {n : Int} (hn : 0 ≤ n) :
    Ensures (p.growproc n) free fun r free' => Grows free p free' r.2 ∧ Remaps p r.2 := by
  refine Ensures.bind (Ensures.deref fun pt hp => ?_)
  obtain ⟨hF, hin⟩ := hw.table pt hp
  have hsz := hw.size
  refine Ensures.ite (fun _ => ?_) fun _ => Ensures.ite (fun h => by omega) fun _ => ?_
  · refine Ensures.ite (fun _ => ?_) fun _ => ?_
    · exact Ensures.pure ⟨Grows.of_perm hw rfl, Remaps.refl p⟩
    · refine Ensures.bind (((uvmalloc_spec true false hF hsz).and
        (uvmalloc_within true false hin)).mono ?_)
      rintro ⟨sz, pt'⟩ free' ⟨⟨h, hb⟩, hin'⟩
      dsimp only at hin'
      refine Ensures.ite (fun hz => ?_) fun hz => ?_
      · rw [if_pos hz] at hin'
        exact Ensures.pure ⟨Grows.of_extends hp hw h hin' hsz, some pt', p.sz, p.trapframe, rfl⟩
      · rw [if_neg hz] at hin'
        exact Ensures.pure ⟨Grows.of_extends hp hw h hin' (hb hz), some pt', sz, p.trapframe, rfl⟩
  · exact Ensures.pure ⟨Grows.of_perm hw rfl, Remaps.refl p⟩

theorem pgRoundUp_le {sz : Nat} (h : sz ≤ trapframeAddr) : pgRoundUp sz ≤ trapframeVa := by
  unfold trapframeAddr pgSize at h
  unfold pgRoundUp
  omega

theorem Grows.of_size (hw : p.Wf) {sz : Nat} (hle : p.sz ≤ sz) (hsz : pgRoundUp sz ≤ trapframeVa) :
    Grows free p free { p with sz := sz } := by
  have hq : ({ p with sz := sz } : Proc).hold = p.hold := rfl
  have hmono : pgRoundUp p.sz ≤ pgRoundUp sz := by unfold pgRoundUp; omega
  refine ⟨⟨⟨hw.unused, hw.live, fun pt hp => ?_, hsz, fun ht => ?_⟩, ?_⟩, ?_, ?_⟩
  · exact ⟨(hw.table pt hp).1, (hw.table pt hp).2.mono hmono⟩
  · rw [hq]; exact hw.thread ht
  · rw [hq]
  · rw [hq]
  · rw [hq]

theorem sysSbrk_grows (hw : p.Wf) {n : Int} (t : Int) (hn : 0 ≤ n) :
    Ensures (p.sysSbrk n t) free fun r free' => Grows free p free' r.2 ∧ Remaps p r.2 := by
  refine Ensures.ite (fun _ => ?_) fun _ => ?_
  · refine Ensures.bind ((growproc_grows hw hn).mono ?_)
    rintro ⟨ok, q⟩ free' h
    exact Ensures.pure h
  · refine Ensures.ite (fun _ => ?_) fun hge => Ensures.ite (fun _ => ?_) fun h => ?_
    · exact Ensures.pure ⟨Grows.of_perm hw rfl, Remaps.refl p⟩
    · exact Ensures.pure ⟨Grows.of_perm hw rfl, Remaps.refl p⟩
    · exact Ensures.pure ⟨Grows.of_size hw (by omega) (pgRoundUp_le (by omega)), p.pagetable, _,
        p.trapframe, rfl⟩

/-! ## Shrinking -/

def leaf (p : Proc) (v : Nat) : Option Pte := p.pagetable.bind fun pt => pt.leaf v

def Maps (p : Proc) (x : Page) : Prop := ∃ v e, v < trapframeVa ∧ p.leaf v = some e ∧ e.pa = x

theorem mem_user {x : Page} : x ∈ p.hold.user ↔ p.Maps x := by
  cases hp : p.pagetable with
  | none =>
    rw [hold_none hp]
    refine iff_of_false (by simp [Holder.user]) ?_
    rintro ⟨v, e, -, he, -⟩
    rw [leaf, hp] at he
    cases he
  | some pt =>
    rw [hold_some hp]
    change x ∈ pt.own + pt.mir ↔ _
    rw [pt.own_add_mir]
    unfold PageTable.mapped Maps leaf
    rw [hp, Multiset.mem_sum]
    constructor
    · rintro ⟨v, hv, hx⟩
      cases he : pt.leaf v with
      | none => rw [he] at hx; exact absurd hx (Multiset.notMem_zero x)
      | some e =>
        rw [he] at hx
        exact ⟨v, e, mem_range.mp hv, he, (Multiset.mem_singleton.mp hx).symm⟩
    · rintro ⟨v, e, hv, he, rfl⟩
      change pt.leaf v = some e at he
      exact ⟨v, mem_range.mpr hv, by rw [he]; exact Multiset.mem_singleton_self _⟩

def shrunk (p : Proc) (n : Int) : Finset Nat :=
  Ico (pgRoundUp (addInt p.sz n)) (pgRoundUp p.sz)

structure Shrinks (S : Finset Nat) (free : List Page) (p : Proc) (free' : List Page) (q : Proc) :
    Prop extends Renews free p free' q where
  keep : ∀ x, p.Maps x → q.Maps x ∨ ∃ v ∈ S, ∃ e, p.leaf v = some e ∧ e.pa = x
  mir : (∀ v ∈ S, ∀ e, p.leaf v = some e → e.mirrored = false) → q.hold.mir = p.hold.mir

theorem Shrinks.of_cleared {pt pt' : PageTable} {sz : Nat} {S : Finset Nat}
    (hp : p.pagetable = some pt) (hw : p.Wf) (hS : S ⊆ range trapframeVa) (hc : Cleared pt pt' S)
    (hf : (free' : Multiset Page) + pt'.tables = free + pt.tables + pt.mapped S)
    (hin : pt'.Within (pgRoundUp sz)) (hsz : pgRoundUp sz ≤ trapframeVa) :
    Shrinks S free p free' { p with pagetable := some pt', sz := sz } := by
  have hq : ({ p with pagetable := some pt', sz := sz } : Proc).hold =
      ⟨frameAt p.trapframe + frameAt p.alarmTrapframe + pt'.tables, pt'.own, pt'.mir⟩ :=
    hold_some rfl
  have hF := (hw.table pt hp).1
  have above : ∀ u, trapframeVa ≤ u → pt'.leaf u = pt.leaf u := fun u hu => by
    rw [hc u, if_neg fun h => absurd (mem_range.mp (hS h)) (by omega)]
  refine ⟨⟨⟨fun hu => ?_, fun hl => ⟨(hw.live hl).1, Option.some_ne_none pt'⟩, fun pt₁ h₁ => ?_,
    hsz, fun ht => ?_⟩, ?_⟩, fun x hx => ?_, fun hm => ?_⟩
  · have := (hw.unused hu).2.2
    rw [hp] at this; cases this
  · cases h₁
    refine ⟨?_, hin⟩
    unfold PageTable.Framed
    rw [above _ le_rfl, above trampoline (by unfold trapframeVa; omega)]
    exact hF
  · -- a process without mirrored pages does not get any
    have := hw.thread ht
    rw [hold_some hp] at this
    change pt.mir = 0 at this
    rw [hq]
    exact Multiset.le_zero.mp (this ▸ hc.mir hS ▸ Multiset.le_add_right _ _)
  · rw [hq, hold_some hp]
    unfold Holder.user
    rw [← hc.user hS]
    generalize frameAt p.trapframe + frameAt p.alarmTrapframe = F
    calc (free' : Multiset Page) + (F + pt'.tables) + (pt'.own + pt'.mir)
        = (free' + pt'.tables) + F + (pt'.own + pt'.mir) := by abel
      _ = (free + pt.tables + pt.mapped S) + F + (pt'.own + pt'.mir) := by rw [hf]
      _ = (free : Multiset Page) + (F + pt.tables) + (pt'.own + pt'.mir + pt.mapped S) := by abel
  · obtain ⟨v, e, hv, he, hx⟩ := hx
    by_cases hvS : v ∈ S
    · exact Or.inr ⟨v, hvS, e, he, hx⟩
    · refine Or.inl ⟨v, e, hv, ?_, hx⟩
      rw [leaf, hp] at he
      exact ((hc v).trans (if_neg hvS)).trans he
  · rw [hq, hold_some hp]
    have hz : ∑ u ∈ S, mirAt (pt.leaf u) = 0 := by
      refine sum_eq_zero fun u hu => ?_
      cases he : pt.leaf u with
      | none => rfl
      | some e =>
        have : e.mirrored = false := hm u hu e (by rw [leaf, hp]; exact he)
        simp [mirAt, this]
    have := hc.mir hS
    rw [hz, add_zero] at this
    exact this

theorem sysSbrk_shrinks (hw : p.Wf) {n : Int} (t : Int) (hn : n < 0) :
    Ensures (p.sysSbrk n t) free fun r free' =>
      Shrinks (p.shrunk n) free p free' r.2 ∧ Remaps p r.2 := by
  refine Ensures.ite (fun _ => ?_) fun h => absurd (Or.inr hn) h
  refine Ensures.bind (Ensures.bind (Ensures.deref fun pt hp => ?_))
  obtain ⟨hF, hin⟩ := hw.table pt hp
  have hsz := hw.size
  refine Ensures.ite (fun h => by omega) fun _ => Ensures.ite (fun _ => ?_) fun h => absurd hn h
  refine Ensures.bind (((uvmdealloc_spec p.sz (addInt p.sz n)).and (uvmdealloc_within hin)).mono ?_)
  rintro ⟨sz, pt'⟩ free' ⟨⟨hle, hc, hf⟩, hin'⟩
  refine Ensures.pure (Ensures.pure ⟨?_, some pt', sz, p.trapframe, rfl⟩)
  refine Shrinks.of_cleared hp hw (fun u hu => ?_) hc hf hin' ?_
  · have := (mem_Ico.mp hu).2
    exact mem_range.mpr (by omega)
  · have : pgRoundUp sz ≤ pgRoundUp p.sz := by
      change sz ≤ p.sz at hle
      unfold pgRoundUp; omega
    omega

/-! ## Programs -/

section
variable {pt : PageTable}

theorem loadseg_spec (ph : Proghdr) : Ensures (loadseg pt ph) free fun _ free' => free' = free := by
  have loop : ∀ n v i, Ensures (loadsegLoop pt ph.readable v i n) free
      fun _ free' => free' = free := by
    intro n
    induction n with
    | zero => exact fun v i => Ensures.pure rfl
    | succ n ih =>
      intro v i
      refine Ensures.bind ((walkaddr_spec v).mono ?_)
      rintro r _ rfl
      cases r with
      | none => exact Ensures.fail
      | some _ => exact Ensures.ite (fun _ => ih _ _) fun _ => Ensures.pure rfl
  exact loop _ _ _

theorem loadSegs_spec (phs : List (Option Proghdr)) {sz : Nat} (hF : pt.Framed)
    (hin : pt.Within (pgRoundUp sz)) (hsz : pgRoundUp sz ≤ trapframeVa) :
    Ensures (loadSegs pt sz phs) free fun r free' =>
      Extends free pt free' r.2.2 ∧ r.2.2.Within (pgRoundUp r.2.1) ∧
      pgRoundUp r.2.1 ≤ trapframeVa := by
  induction phs generalizing pt sz free with
  | nil => exact Ensures.pure ⟨Extends.refl free pt, hin, hsz⟩
  | cons ph phs ih =>
    cases ph with
    | none => exact Ensures.pure ⟨Extends.refl free pt, hin, hsz⟩
    | some ph =>
      refine Ensures.ite (fun _ => ?_) fun _ => ih hF hin hsz
      refine Ensures.ite (fun _ => ?_) fun _ => Ensures.pure ⟨Extends.refl free pt, hin, hsz⟩
      refine Ensures.bind (((uvmalloc_spec ph.w ph.x hF hsz).and
        (uvmalloc_within ph.w ph.x hin)).mono ?_)
      rintro ⟨sz₁, pt₁⟩ free₁ ⟨⟨h₁, hb⟩, hin₁⟩
      dsimp only at hin₁
      refine Ensures.ite (fun hz => ?_) fun hz => ?_
      · rw [if_pos hz] at hin₁
        exact Ensures.pure ⟨h₁, hin₁, hsz⟩
      · rw [if_neg hz] at hin₁
        refine Ensures.bind ((loadseg_spec ph).mono ?_)
        rintro r _ rfl
        refine Ensures.ite (fun _ => ?_) fun _ => Ensures.pure ⟨h₁, hin₁, hb hz⟩
        exact (ih (h₁.framed hF) hin₁ (hb hz)).mono fun _ _ h => ⟨h₁.trans h.1, h.2⟩

theorem pushArgs_spec (argv : List Nat) {stackbase sp argc n : Nat} (hF : pt.Framed)
    (hin : pt.Within n) :
    Ensures (pushArgs pt stackbase sp argc argv) free fun r free' =>
      Extends free pt free' r.2 ∧ r.2.Within n := by
  induction argv generalizing pt sp argc free with
  | nil => exact Ensures.pure ⟨Extends.refl free pt, hin⟩
  | cons len args ih =>
    refine Ensures.ite (fun _ => Ensures.pure ⟨Extends.refl free pt, hin⟩) fun _ => ?_
    refine Ensures.ite (fun _ => Ensures.pure ⟨Extends.refl free pt, hin⟩) fun _ => ?_
    refine Ensures.bind (((OsLab.copyout_spec 0 _ _ hF).and
      (copyout_within _ _ hin (Nat.zero_le n))).mono ?_)
    rintro ⟨ok, pt₁⟩ free₁ ⟨h₁, hin₁⟩
    refine Ensures.ite (fun _ => ?_) fun _ => Ensures.pure ⟨h₁, hin₁⟩
    exact (ih (h₁.framed hF) hin₁).mono fun _ _ h => ⟨h₁.trans h.1, h.2⟩

theorem execStack_spec (argv : List Nat) {sz : Nat} (hF : pt.Framed)
    (hin : pt.Within (pgRoundUp sz)) (hsz : pgRoundUp sz ≤ trapframeVa) :
    Ensures (execStack pt sz argv) free fun r free' =>
      Extends free pt free' r.2.2 ∧ r.2.2.Within (pgRoundUp r.2.1) ∧
      pgRoundUp r.2.1 ≤ trapframeVa := by
  -- the image is rounded up to whole pages before the stack is added
  have hround : pgRoundUp (pgRoundUp sz * pgSize) = pgRoundUp sz := by
    unfold pgRoundUp pgSize; omega
  rw [← hround] at hin hsz
  refine Ensures.bind (((uvmalloc_spec true false hF hsz).and
    (uvmalloc_within true false hin)).mono ?_)
  rintro ⟨sz₁, pt₁⟩ free₁ ⟨⟨h₁, hb⟩, hin₁⟩
  dsimp only at hin₁
  refine Ensures.ite (fun hz => ?_) fun hz => ?_
  · rw [if_pos hz] at hin₁
    exact Ensures.pure ⟨h₁, hin₁, hsz⟩
  rw [if_neg hz] at hin₁
  refine Ensures.bind (((uvmclear_spec _).and (uvmclear_within _ hin₁)).mono ?_)
  rintro pt₂ free₂ ⟨h₂, hin₂⟩
  have h₁₂ := h₁.trans h₂
  refine Ensures.bind ((pushArgs_spec argv (h₁₂.framed hF) hin₂).mono ?_)
  rintro ⟨sp, pt₃⟩ free₃ ⟨h₃, hin₃⟩
  have h₁₃ := h₁₂.trans h₃
  cases sp with
  | none => exact Ensures.pure ⟨h₁₃, hin₃, hb hz⟩
  | some sp =>
    refine Ensures.ite (fun _ => Ensures.pure ⟨h₁₃, hin₃, hb hz⟩) fun _ => ?_
    refine Ensures.bind (((OsLab.copyout_spec 0 _ _ (h₁₃.framed hF)).and
      (copyout_within _ _ hin₃ (Nat.zero_le _))).mono ?_)
    rintro ⟨ok, pt₄⟩ free₄ ⟨h₄, hin₄⟩
    exact Ensures.pure ⟨h₁₃.trans h₄, hin₄, hb hz⟩

theorem execImage_spec (img : Image) (argv : List Nat) (hF : pt.Framed) (hin : pt.Within 0) :
    Ensures (execImage pt img argv) free fun r free' =>
      Extends free pt free' r.2.2 ∧ r.2.2.Within (pgRoundUp r.2.1) ∧
      pgRoundUp r.2.1 ≤ trapframeVa := by
  have hz : pgRoundUp 0 ≤ trapframeVa := Nat.zero_le _
  refine Ensures.bind ((loadSegs_spec img.phdrs hF (hin.mono (Nat.zero_le _)) hz).mono ?_)
  rintro ⟨ok, sz, pt₁⟩ free₁ ⟨h₁, hin₁, hsz⟩
  refine Ensures.ite (fun _ => ?_) fun _ => Ensures.pure ⟨h₁, hin₁, hsz⟩
  exact (execStack_spec argv (h₁.framed hF) hin₁ hsz).mono fun _ _ h => ⟨h₁.trans h.1, h.2⟩

end

theorem kexec_spec (hw : p.Wf) (img : Option Image) (argv : List Nat) :
    Ensures (p.kexec img argv) free fun r free' =>
      Renews free p free' r.2 ∧ (r.2 = p ∨ r.2.hold.mir = 0) ∧ Remaps p r.2 := by
  have stay {a : Int} {free' : List Page} (h : (free' : Multiset Page) = free) :
      Renews free p free' (a, p).2 ∧ ((a, p).2 = p ∨ (a, p).2.hold.mir = 0) ∧
      Remaps p (a, p).2 :=
    ⟨(Grows.of_perm hw h).toRenews, Or.inl rfl, Remaps.refl p⟩
  cases img with
  | none => exact Ensures.pure (stay rfl)
  | some img =>
    refine Ensures.bind (Ensures.deref fun tf htf => ?_)
    refine Ensures.bind ((procPagetable_spec tf.page).mono fun r free₁ h₁ => ?_)
    cases r with
    | none => exact Ensures.pure (stay (h₁.1 rfl))
    | some pt =>
      obtain ⟨hF, hb, hp₁⟩ := h₁.2 pt rfl
      refine Ensures.bind ((execImage_spec img argv hF hb).mono ?_)
      rintro ⟨sp, sz, pt'⟩ free₂ ⟨h₂, hin, hsz⟩
      -- the new table holds what has left the free list
      have hmir : pt'.mir = 0 := h₂.mir.trans hb.bare.mir
      have hp₂ : (free₂ : Multiset Page) + pt'.tables + pt'.own = free := by
        rw [h₂.pages, hb.bare.own, add_zero, hp₁]
      cases sp with
      | none =>
        refine Ensures.bind ((procFreepagetable_spec sz hsz).mono ?_)
        rintro _ free₃ ⟨-, h₃⟩
        refine Ensures.pure (stay ?_)
        rw [h₃, hmir, add_zero, hp₂]
      | some sp =>
        refine Ensures.bind (Ensures.deref fun old hold => ?_)
        refine Ensures.bind ((procFreepagetable_spec p.sz hw.size).mono ?_)
        rintro _ free₃ ⟨-, h₃⟩
        refine Ensures.pure ⟨⟨⟨fun hu => ?_, fun _ => ⟨Option.some_ne_none _, Option.some_ne_none pt'⟩,
          fun pt₁ h => ?_, hsz, fun _ => ?_⟩, ?_⟩, Or.inr ?_, some pt', sz, _, rfl⟩
        · have := (hw.unused hu).2.2
          rw [hold] at this; cases this
        · cases h
          exact ⟨h₂.framed hF, hin⟩
        · rw [hold_some rfl]
          exact hmir
        · rw [hold_some rfl, hold_some hold]
          unfold Holder.user
          simp only [htf, hmir, h₃, add_zero]
          change (free₂ : Multiset Page) + old.tables + (old.own + old.mir) +
            (frameAt (some tf) + frameAt p.alarmTrapframe + pt'.tables) + pt'.own = _
          rw [← hp₂]
          abel
        · rw [hold_some rfl]
          exact hmir

theorem kexec_grows (hw : p.Wf) (hu : p.hold.user = 0) (img : Option Image) (argv : List Nat) :
    Ensures (p.kexec img argv) free fun r free' => Grows free p free' r.2 ∧ Remaps p r.2 := by
  refine (kexec_spec hw img argv).mono ?_
  rintro r free' ⟨hr, hm, hp⟩
  have hmir : p.hold.mir = 0 := Multiset.le_zero.mp (hu ▸ Multiset.le_add_left _ _)
  refine ⟨⟨hr, hu ▸ Multiset.zero_le _, ?_⟩, hp⟩
  rcases hm with hm | hm
  · rw [hm]
  · rw [hm, hmir]

/-! ## `exec` -/

theorem fetchArgs_spec (hw : p.Wf) (n : Nat) (args : List ExecArg) :
    Ensures (p.fetchArgs n args) free fun r free' =>
      Grows free p (free' ++ r.2.1) r.2.2 ∧ Remaps p r.2.2 := by
  induction args generalizing p free n with
  | nil => exact Ensures.pure ⟨Grows.of_perm hw (by rw [List.append_nil]), Remaps.refl p⟩
  | cons a args ih =>
    refine Ensures.ite (fun _ => ?_) fun _ => ?_
    · exact Ensures.pure ⟨Grows.of_perm hw (by rw [List.append_nil]), Remaps.refl p⟩
    refine Ensures.bind ((touchAll_spec hw a.touch).mono ?_)
    rintro ⟨ok, p₁⟩ free₁ ⟨hg, hr⟩
    have stay : Grows free p (free₁ ++ []) p₁ ∧ Remaps p p₁ := ⟨by rw [List.append_nil]; exact hg, hr⟩
    refine Ensures.ite (fun _ => ?_) fun _ => Ensures.pure stay
    cases a with
    | null touch => exact Ensures.pure stay
    | str touch len =>
      refine Ensures.bind ((kalloc_spec free₁).mono fun pa free₂ h₂ => ?_)
      cases pa with
      | none =>
        refine Ensures.pure ⟨hg.trans (Grows.of_perm hg.wf ?_), hr⟩
        rw [List.append_nil, ← h₂]
        exact (add_zero _).symm
      | some pa =>
        have hpa : Grows free p (free₂ ++ [pa]) p₁ := hg.trans (Grows.of_perm hg.wf h₂)
        cases len with
        | none => exact Ensures.pure ⟨hpa, hr⟩
        | some l =>
          refine Ensures.bind ((ih hpa.wf (n + 1)).mono ?_)
          rintro ⟨lens, pages, p₂⟩ free₃ ⟨h₃, hr₃⟩
          refine Ensures.pure ⟨(hpa.trans (h₃.frame [pa])).trans (Grows.of_perm h₃.wf ?_), hr.trans hr₃⟩
          rw [List.append_assoc]
          exact Multiset.coe_eq_coe.mpr (List.Perm.append_left _ (List.perm_append_singleton pa pages).symm)

theorem freeAll_spec (pages : List Page) :
    Ensures (pages.forM kfree) free fun _ free' => (free' : Multiset Page) = ↑(free ++ pages) := by
  induction pages generalizing free with
  | nil => exact Ensures.pure (by rw [List.append_nil])
  | cons pa pages ih =>
    refine Ensures.bind ((kfree_spec pa free).mono fun _ free₁ h₁ => ih.mono fun _ free' h => ?_)
    rw [h, ← Multiset.coe_add, h₁, ← Multiset.coe_add, ← Multiset.cons_coe, ← Multiset.singleton_add, add_assoc]

/-- `sys_exec` leaves the process as it was but for pages that were made present, or gives it a new
address space that mirrors nothing. -/
theorem sysExec_spec (hw : p.Wf) (img : Option Image) (args : List ExecArg) :
    Ensures (p.sysExec img args) free fun r free' =>
      Renews free p free' r.2 ∧ (r.2.hold.mir = p.hold.mir ∨ r.2.hold.mir = 0) ∧ Remaps p r.2 := by
  refine Ensures.bind ((fetchArgs_spec hw 0 args).mono ?_)
  rintro ⟨lens, pages, p₁⟩ free₁ ⟨hg, hr⟩
  cases lens with
  | none =>
    refine Ensures.bind ((freeAll_spec pages).mono fun _ free' h => Ensures.pure ⟨?_, .inl hg.mir, hr⟩)
    exact (hg.trans (Grows.of_perm hg.wf h)).toRenews
  | some argv =>
    refine Ensures.bind ((kexec_spec hg.wf img argv).mono ?_)
    rintro ⟨r, q⟩ free₂ ⟨h₂, hm, hr₂⟩
    refine Ensures.bind ((freeAll_spec pages).mono fun _ free' h => Ensures.pure ⟨⟨h₂.wf, ?_⟩, ?_, hr.trans hr₂⟩)
    · have hp₁ := hg.pages
      have hp₂ := h₂.pages
      rw [← Multiset.coe_add] at hp₁ h
      rw [h, ← hp₁]
      rw [add_assoc] at hp₂ ⊢
      rw [add_right_comm, hp₂]
      abel
    · exact hm.imp (fun e => (congrArg (fun p : Proc => p.hold.mir) e).trans hg.mir) id

end Proc

end OsLab
