import OsLab.Sharing

/-!
# Every page comes back

A page is counted where it is owned: on the free list, as bookkeeping of a slot, or in
the page table for which it was allocated. `uvmmirror` copies entries without counting
them. `exec` and `sbrk` in a thread free mirrored pages; reaping a thread forgets the
pages that it got itself.
-/

namespace OsLab

open Mach

namespace Proc

variable {p : Proc}

def AllOwn (p : Proc) : Prop :=
  ∀ v e, v < trapframeVa → p.leaf v = some e → e.mirrored = false

def AllMirrored (p : Proc) : Prop :=
  ∀ v e, v < trapframeVa → p.leaf v = some e → e.mirrored = true

theorem AllOwn.mir (h : p.AllOwn) : p.hold.mir = 0 := by
  cases hp : p.pagetable with
  | none => rw [hold_none hp]
  | some pt =>
    rw [hold_some hp]
    refine PageTable.mir_eq_zero fun v hv => ?_
    cases he : pt.leaf v with
    | none => rfl
    | some e =>
      have : e.mirrored = false := h v e hv (by rw [leaf, hp]; exact he)
      simp [mirAt, this]

theorem AllMirrored.own (h : p.AllMirrored) : p.hold.own = 0 := by
  cases hp : p.pagetable with
  | none => rw [hold_none hp]
  | some pt =>
    rw [hold_some hp]
    refine PageTable.own_eq_zero fun v hv => ?_
    cases he : pt.leaf v with
    | none => rfl
    | some e =>
      have : e.mirrored = true := h v e hv (by rw [leaf, hp]; exact he)
      simp [ownAt, this]

def pages (p : Proc) : Multiset Page := p.hold.kern + p.hold.own

theorem Wf.pages_unused (hw : p.Wf) (hu : p.state = .unused) : p.pages = 0 := by
  obtain ⟨htf, ha, hpt⟩ := hw.unused hu
  have hn : p.alarmTrapframe = none := congrArg Prod.snd ha
  unfold pages
  rw [hold_none hpt, htf, hn]
  rfl

end Proc

namespace Kernel

variable {k k' k₀ k₁ : Kernel} {i j : Slot} {T : Multiset Page}

/-- A trap that frees no page that its process borrows, and forgets none that
a process owns. -/
def Tidy (k : Kernel) (t : Trap) : Prop :=
  match t.cause with
  | .ecall io =>
    match decode t.user io with
    | .exec _ _ => (k.proc t.i).AllOwn
    | .sbrk n _ => n < 0 →
      ∀ v ∈ (k.proc t.i).shrunk n, ∀ e, (k.proc t.i).leaf v = some e → e.mirrored = false
    | c => ∀ z, k.reaped t.i c = some z → (k.proc z).isThread = true → (k.proc z).AllMirrored
  | .timer => (k.proc t.i).alarmActive = false → (k.proc t.i).alarmTrapframe = none
  | _ => True

def Counts (T : Multiset Page) (k : Kernel) : Prop := k.Wf ∧ k.pool.total = T

theorem counts_blind (T : Multiset Page) : Blind (Counts T) where
  wf h := h.1
  grows h hw hg := ⟨hw, (hg.toRenews.total hg.mir).trans h.2⟩
  mirrors h hw hm := ⟨hw, hm.total.trans h.2⟩

theorem sysExec_counts (h : Counts T k) (img : Option Image) (args : List ExecArg)
    (ho : (k.proc i).AllOwn) :
    Ensures (update i fun p => p.sysExec img args) k fun _ k' => Counts T k' := by
  refine update_spec ((Proc.sysExec_spec (h.1 i) img args).mono ?_)
  rintro ⟨r, q⟩ free ⟨hr, hm, -⟩
  have hs : Sets k (({ k with freelist := free } : Kernel).setProc i q) i q := rfl
  refine ⟨hs.wf h.1 hr.wf, ((hs.renews hr).total ?_).trans h.2⟩
  rw [hs.holder_self, pool_holder]
  rcases hm with hm | hm
  · exact hm
  · exact Eq.trans hm ho.mir.symm

theorem sysSbrk_counts (h : Counts T k) {n : Int} (m : Int) (hn : n < 0)
    (ho : ∀ v ∈ (k.proc i).shrunk n, ∀ e, (k.proc i).leaf v = some e → e.mirrored = false) :
    Ensures (update i fun p => p.sysSbrk n m) k fun _ k' => Counts T k' := by
  refine update_spec ((Proc.sysSbrk_shrinks (h.1 i) m hn).mono ?_)
  rintro ⟨r, q⟩ free ⟨hr, -⟩
  have hs : Sets k (({ k with freelist := free } : Kernel).setProc i q) i q := rfl
  refine ⟨hs.wf h.1 hr.wf, ((hs.renews hr.toRenews).total ?_).trans h.2⟩
  rw [hs.holder_self, pool_holder]
  exact hr.mir ho

theorem freeproc_counts {z : Slot} (h : Counts T k)
    (ho : (k.proc z).isThread = true → (k.proc z).AllMirrored) :
    Ensures (freeproc z) k fun _ k' => Counts T k' := by
  refine (freeproc_spec h.1 z).mono fun _ k' hf => ⟨hf.wf, ?_⟩
  cases ht : (k.proc z).isThread with
  | true => exact ((hf.drops ht).total (ho ht).own).trans h.2
  | false =>
    refine ((hf.renews ht).total ?_).trans h.2
    rw [hf.sets.holder_self, pool_holder, (h.1 z).thread ht, Proc.freed_hold]

theorem step_counts {t : Trap} (h : Counts T k) (ht : Tidy k t) (hs : step k t = some k') :
    Counts T k' := by
  unfold Tidy at ht
  refine (counts_blind T).step h hs ⟨?_, ?_, ?_⟩ ?_
  · intro io img args hio hc k₁ h₁ hr
    obtain ⟨tf, hi⟩ := hr t.i
    rw [hio] at ht
    simp only [hc] at ht
    exact sysExec_counts h₁ img args (by rw [hi]; exact ht)
  · intro io n m hio hc hn k₁ h₁ hr
    obtain ⟨tf, hi⟩ := hr t.i
    rw [hio] at ht
    simp only [hc] at ht
    exact sysSbrk_counts h₁ m hn (by rw [hi]; exact ht hn)
  · intro io z hio hz _ k₁ h₁ hr k₂ h₂ _ hk
    obtain ⟨tf, hi⟩ := hr z
    refine freeproc_counts h₂ ?_
    rw [hk, hi]
    rw [hio] at ht
    cases hc : decode t.user io with
    | exec img args => rw [hc] at hz; cases hz
    | sbrk n m => rw [hc] at hz; cases hz
    | _ => simp only [hc] at ht; rw [hc] at hz; exact ht z hz
  · intro hc ha k₁ h₁ hb
    rw [hc] at ht
    exact (fireAlarm_spec h₁.1 ((congrArg Prod.snd hb).trans (ht ha))).mono fun _ _ hf =>
      (counts_blind T).grows h₁ hf.wf hf.grows

def oldPages (k₀ k : Kernel) : Multiset Page :=
  ∑ i with (k₀.proc i).state ≠ .unused, (k.proc i).pages

theorem total_eq_oldPages (hw : k.Wf)
    (hnew : ∀ i, (k₀.proc i).state = .unused → (k.proc i).state = .unused) :
    k.pool.total = k.freelist + oldPages k₀ k := by
  have hz : ∑ i with ¬ (k₀.proc i).state ≠ .unused, (k.proc i).pages = 0 := by
    refine Finset.sum_eq_zero fun i hi => ?_
    have hu := not_not.mp (Finset.mem_filter.mp hi).2
    exact (hw i).pages_unused (hnew i hu)
  have hp : k.pool.total = k.freelist + ∑ i, (k.proc i).pages := rfl
  rw [hp, ← Finset.sum_filter_add_sum_filter_not _ fun i => (k₀.proc i).state ≠ .unused, hz,
    add_zero, oldPages]

/-- When everything that a tidy run creates has been reaped, every page is free
again or belongs to a process from before the run, and none is free twice or
free and still mapped. -/
theorem pages_come_back {ts : List Trap} (h₀ : ReachableBy Exclusive k₀)
    (hm : Meets (fun k t => Tidy k t ∧ Exclusive k t) k₀ ts) (hr : run k₀ ts = some k)
    (hnew : ∀ i, (k₀.proc i).state = .unused → (k.proc i).state = .unused) :
    (k.freelist : Multiset Page) + oldPages k₀ k = k₀.freelist + oldPages k₀ k₀ ∧
    k.freelist.Nodup ∧ (∀ i x, (k.proc i).Maps x → x ∉ k.freelist) ∧
    ((∀ i, (k₀.proc i).state ≠ .unused → (k.proc i).pages = (k₀.proc i).pages) →
      k.freelist.Perm k₀.freelist) := by
  have hw := h₀.reachable.wf
  have h : Counts k₀.pool.total k :=
    run_induct (fun _ _ _ => step_counts) ⟨hw, rfl⟩ (hm.mono fun _ _ h => h.1) hr
  have ha : Apart k := run_induct (fun _ _ _ => step_apart) h₀.apart (hm.mono fun _ _ h => h.2) hr
  have hb : (k.freelist : Multiset Page) + oldPages k₀ k = k₀.freelist + oldPages k₀ k₀ := by
    rw [← total_eq_oldPages h.1 hnew, ← total_eq_oldPages hw fun _ hu => hu]
    exact h.2
  refine ⟨hb, ha.free_nodup, fun i x hx => ha.not_free hx, fun hp => ?_⟩
  have ho : oldPages k₀ k = oldPages k₀ k₀ :=
    Finset.sum_congr rfl fun i hi => hp i (Finset.mem_filter.mp hi).2
  rw [ho] at hb
  exact Multiset.coe_eq_coe.mp (add_right_cancel hb)

def forkAndReap : List Trap := [ecall 0 1 0 0 0, ecall 1 2 0 0 0, ecall 0 3 0 0 0]

theorem pages_come_back_forkAndReap : ∃ k₀ k, small = some k₀ ∧ run k₀ forkAndReap = some k ∧
    (k.freelist : Multiset Page) + oldPages k₀ k = k₀.freelist + oldPages k₀ k₀ := by
  have h : reaches forkAndReap (fun k₀ k => exclusive k₀ forkAndReap ∧ (step k₀ (ecall 0 1 0 0 0)).any fun k₁ =>
      (step k₁ (ecall 1 2 0 0 0)).any fun k₂ =>
        k₂.reaped 0 (.wait 0) = some 1 ∧ (k₂.proc 1).isThread = false ∧
        ∀ i, (k₀.proc i).state = .unused → (k.proc i).state = .unused) = true := by
    decide +kernel
  obtain ⟨k₀, k, hb, hr, ht⟩ := reaches_iff.mp h
  simp only [Option.any_eq_true, decide_eq_true_eq] at ht
  obtain ⟨hx, k₁, hk₁, k₂, hk₂, hz, hth, hnew⟩ := ht
  have h₀ : ReachableBy Exclusive k₀ := small_reachableBy [] hb trivial rfl
  have hm : Meets Tidy k₀ forkAndReap := by
    refine ⟨(fun _ hz => nomatch hz), fun k₁' h₁ => ?_⟩
    obtain rfl : k₁ = k₁' := Option.some.inj (hk₁.symm.trans h₁)
    refine ⟨(fun _ hz => nomatch hz), fun k₂' h₂ => ?_⟩
    obtain rfl : k₂ = k₂' := Option.some.inj (hk₂.symm.trans h₂)
    refine ⟨fun z hz' ht => ?_, fun _ _ => trivial⟩
    obtain rfl : 1 = z := Option.some.inj (hz.symm.trans hz')
    rw [hth] at ht
    cases ht
  have hm' := hm.and (exclusive_meets h₀.reachable.wf hx)
  exact ⟨k₀, k, hb, hr, (pages_come_back h₀ hm' hr hnew).1⟩

def threadGrows : List Trap :=
  [ecall 0 24 0 0 0, ecall 1 12 4096 1 0, ecall 1 2 0 0 0, ecall 0 3 0 0 0]

theorem grown_thread_leaks : ∃ k₀ k, small = some k₀ ∧ run k₀ threadGrows = some k ∧
    (∀ i, i ≠ 0 → (k.proc i).state = .unused) ∧ (k.proc 0).sz = (k₀.proc 0).sz ∧
    (∀ v : Fin 8, (k.proc 0).leaf v = (k₀.proc 0).leaf v) ∧
    k.freelist.length + 1 = k₀.freelist.length := by
  have h : reaches threadGrows (fun k₀ k => decide (
      (∀ i, i ≠ 0 → (k.proc i).state = .unused) ∧ (k.proc 0).sz = (k₀.proc 0).sz ∧
      (∀ v : Fin 8, (k.proc 0).leaf v = (k₀.proc 0).leaf v) ∧
      k.freelist.length + 1 = k₀.freelist.length)) = true := by decide +kernel
  obtain ⟨k₀, k, hb, hr, ht⟩ := reaches_iff.mp h
  exact ⟨k₀, k, hb, hr, of_decide_eq_true ht⟩

end Kernel

end OsLab
