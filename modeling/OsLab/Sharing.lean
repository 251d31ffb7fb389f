import OsLab.KernelStep

/-!
# Mapped pages and the free list

In every state of a run that frees no page which another process still maps,
no process maps a page of the free list. `clone` makes two page tables share
their pages, so the condition is not idle: when the creator of a thread is
reaped first, the thread goes on with freed pages.
-/

namespace OsLab

open Mach

namespace Kernel

variable {k k' k₁ : Kernel} {i j : Slot}

def MayFree (k : Kernel) (i : Slot) (c : Call) (o : Slot) (x : Page) : Prop :=
  match c with
  | .exec _ _ => o = i ∧ (k.proc i).Maps x
  | .sbrk n _ =>
    n < 0 ∧ o = i ∧ ∃ v ∈ (k.proc i).shrunk n, ∃ e, (k.proc i).leaf v = some e ∧ e.pa = x
  | c => k.reaped i c = some o ∧ (k.proc o).isThread = false ∧ (k.proc o).Maps x

/-- A trap that frees only pages which no other process maps. -/
def Exclusive (k : Kernel) (t : Trap) : Prop :=
  ∀ io, t.cause = .ecall io → ∀ o x, MayFree k t.i (decode t.user io) o x →
    ∀ j, j ≠ o → ¬ (k.proc j).Maps x

def Apart (k : Kernel) : Prop := k.Wf ∧ k.pool.Separated

theorem apart_blind : Blind Apart where
  wf h := h.1
  grows h hw hg := ⟨hw, h.2.grows hg⟩
  mirrors h hw hm := ⟨hw, h.2.mirrors hm⟩

theorem Apart.not_free (h : Apart k) {x : Page} (hx : (k.proc i).Maps x) : x ∉ k.freelist := by
  intro hf
  have hd := (Multiset.nodup_add.mp (h.2 i)).2.2
  refine Multiset.disjoint_left.mp hd ?_ (Proc.mem_user.mpr hx)
  exact Multiset.mem_add.mpr (Or.inl (Multiset.mem_coe.mpr hf))

theorem Apart.closed_nodup (h : Apart k) : k.pool.closed.Nodup := (Multiset.nodup_add.mp (h.2 0)).1

theorem Apart.free_nodup (h : Apart k) : k.freelist.Nodup :=
  Multiset.coe_nodup.mp (Multiset.nodup_add.mp h.closed_nodup).1

theorem Apart.kern (h : Apart k) {x : Page} (hx : x ∈ (k.proc i).hold.kern) :
    x ∉ k.freelist ∧ ∀ j, ¬ (k.proc j).Maps x := by
  have hk : x ∈ ∑ j, (k.pool.holder j).kern :=
    Multiset.mem_sum.mpr ⟨i, Finset.mem_univ i, hx⟩
  refine ⟨fun hf => ?_, fun j hj => ?_⟩
  · exact Multiset.disjoint_left.mp (Multiset.nodup_add.mp h.closed_nodup).2.2 (Multiset.mem_coe.mpr hf) hk
  · refine Multiset.disjoint_left.mp (Multiset.nodup_add.mp (h.2 j)).2.2 ?_ (Proc.mem_user.mpr hj)
    exact Multiset.mem_add.mpr (Or.inr hk)

theorem apart_zero {pages : List Page} (hp : pages.Nodup) : Apart (zero pages) := by
  have hz : ∀ i, (zero pages).pool.holder i = ⟨0, 0, 0⟩ := fun i => rfl
  have hc : (zero pages).pool.closed = pages := by
    unfold Pool.closed
    rw [Finset.sum_eq_zero fun j _ => congrArg Holder.kern (hz j), add_zero]
    rfl
  refine ⟨zero_wf pages, fun i => ?_⟩
  rw [hc, hz i]
  simpa [Holder.user] using hp

/-! ## The functions that give up pages -/

theorem sysExec_apart (h : Apart k) (img : Option Image) (args : List ExecArg)
    (hx : ∀ x, (k.proc i).Maps x → ∀ j, j ≠ i → ¬ (k.proc j).Maps x) :
    Ensures (update i fun p => p.sysExec img args) k fun _ k' => Apart k' := by
  refine update_spec ((Proc.sysExec_spec (h.1 i) img args).mono ?_)
  rintro ⟨r, q⟩ free ⟨hr, -, -⟩
  have hs : Sets k (({ k with freelist := free } : Kernel).setProc i q) i q := rfl
  refine ⟨hs.wf h.1 hr.wf, h.2.renews (hs.renews hr) fun j hj x hxi hxj => ?_⟩
  exact absurd (Proc.mem_user.mp hxj) (hx x (Proc.mem_user.mp hxi) j hj)

theorem sysSbrk_apart (h : Apart k) {n : Int} (t : Int) (hn : n < 0)
    (hx : ∀ v ∈ (k.proc i).shrunk n, ∀ e, (k.proc i).leaf v = some e →
      ∀ j, j ≠ i → ¬ (k.proc j).Maps e.pa) :
    Ensures (update i fun p => p.sysSbrk n t) k fun _ k' => Apart k' := by
  refine update_spec ((Proc.sysSbrk_shrinks (h.1 i) t hn).mono ?_)
  rintro ⟨r, q⟩ free ⟨hr, -⟩
  have hs : Sets k (({ k with freelist := free } : Kernel).setProc i q) i q := rfl
  refine ⟨hs.wf h.1 hr.wf, h.2.renews (hs.renews hr.toRenews) fun j hj x hxi hxj => ?_⟩
  rcases hr.keep x (Proc.mem_user.mp hxi) with hq | ⟨v, hv, e, he, rfl⟩
  · rw [hs.holder_self]
    exact Proc.mem_user.mpr hq
  · exact absurd (Proc.mem_user.mp hxj) (hx v hv e he j hj)

theorem freeproc_apart {z : Slot} (h : Apart k)
    (hx : (k.proc z).isThread = false → ∀ j, j ≠ z → ∀ x ∈ (k.pool.holder z).user,
      x ∉ (k.pool.holder j).user) :
    Ensures (freeproc z) k fun _ k' => Apart k' := by
  refine (freeproc_spec h.1 z).mono fun _ k' hf => ⟨hf.wf, ?_⟩
  cases ht : (k.proc z).isThread with
  | true => exact h.2.drops (hf.drops ht)
  | false =>
    exact h.2.renews (hf.renews ht) fun j hj x hxz hxj => absurd hxj (hx ht j hj x hxz)

theorem fireAlarm_apart (h : Apart k) : Ensures (fireAlarm i) k fun _ k' => Apart k' := by
  have hs := forget_sets k i
  have h' : Apart (k.forget i) := by
    refine ⟨forget_wf h.1, h.2.loses (i := i) ⟨hs.holder_other, rfl, ?_, ?_⟩⟩
    · rw [hs.holder_self]; exact Proc.hold_forget_le _
    · rw [hs.holder_self]; rfl
  exact (fireAlarm_fired h.1).mono fun _ k' hf => apart_blind.grows h' hf.wf hf.grows

/-! ## Runs -/

theorem step_apart {t : Trap} (h : Apart k) (hx : Exclusive k t) (hs : step k t = some k') :
    Apart k' := by
  refine apart_blind.step h hs ⟨?_, ?_, ?_⟩ fun _ _ k₁ h₁ _ => fireAlarm_apart h₁
  · intro io img args hio hc k₁ h₁ hr
    refine sysExec_apart h₁ img args fun x hxi j hj => ?_
    rw [hr.maps] at hxi ⊢
    refine hx io hio t.i x ?_ j hj
    rw [hc]; exact ⟨rfl, hxi⟩
  · intro io n m hio hc hn k₁ h₁ hr
    refine sysSbrk_apart h₁ m hn fun v hv e he j hj => ?_
    obtain ⟨tf, hi⟩ := hr t.i
    rw [hr.maps]
    refine hx io hio t.i e.pa ?_ j hj
    rw [hi] at hv he
    rw [hc]; exact ⟨hn, rfl, v, hv, e, he, rfl⟩
  · intro io z hio hz hzi k₁ h₁ hr k₂ h₂ hg hk
    refine freeproc_apart h₂ fun ht => ?_
    refine hg.unshared h₁.2 hzi fun j hj x hxz hxj => ?_
    rw [pool_holder, Proc.mem_user, hr.maps] at hxz hxj
    have hth : (k.proc z).isThread = false := by
      obtain ⟨tf, hi⟩ := hr z
      rw [hk, hi] at ht; exact ht
    refine hx io hio z x ?_ j hj hxj
    cases hc : decode t.user io with
    | exec img args => rw [hc] at hz; cases hz
    | sbrk n m => rw [hc] at hz; cases hz
    | _ => rw [hc] at hz; exact ⟨hz, hth, hxz⟩

/-- In these states the free list, which runs through the free pages, is out of reach of the
processes: it is the list that `kalloc` and `kfree` work on. -/
theorem ReachableBy.apart (h : ReachableBy Exclusive k) : Apart k := by
  obtain ⟨pages, img, argv, k₀, ts, hp, hb, hm, hr⟩ := h
  exact run_induct (fun _ _ _ => step_apart) (boot_spec apart_blind.stable (apart_zero hp) hb) hm hr

/-! ## Checking a run -/

def userPages (p : Proc) : List Page := (List.range (pgRoundUp p.sz)).filterMap fun v => (p.leaf v).map Pte.pa

theorem mem_userPages (hw : k.Wf) {x : Page} (h : (k.proc i).Maps x) : x ∈ userPages (k.proc i) := by
  obtain ⟨v, e, hv, he, rfl⟩ := h
  refine List.mem_filterMap.mpr ⟨v, List.mem_range.mpr ?_, by rw [he]; rfl⟩
  by_contra hge
  obtain ⟨pt, hpt, hl⟩ := Option.bind_eq_some_iff.mp he
  have hne : v ≠ trampoline := by
    unfold trapframeVa at hv
    omega
  rw [((hw i).table pt hpt).2 v (Nat.le_of_not_lt hge) (Nat.ne_of_lt hv) hne] at hl
  cases hl

def frees (k : Kernel) (i : Slot) : Call → Option Slot
  | .exec _ _ => some i
  | .sbrk n _ => if n < 0 then some i else none
  | c => (k.reaped i c).filter fun o => (k.proc o).isThread = false

theorem MayFree.frees (hw : k.Wf) {c : Call} {o : Slot} {x : Page} (h : MayFree k i c o x) :
    k.frees i c = some o ∧ (k.proc o).Maps x := by
  cases c with
  | exec img args => obtain ⟨rfl, h⟩ := h; exact ⟨rfl, h⟩
  | sbrk n m =>
    obtain ⟨hn, rfl, v, hv, e, he, rfl⟩ := h
    have hlt : v < pgRoundUp (k.proc o).sz := (Finset.mem_Ico.mp hv).2
    exact ⟨if_pos hn, v, e, hlt.trans_le (hw o).size, he, rfl⟩
  | _ =>
    obtain ⟨hr, ht, hx⟩ := h
    refine ⟨?_, hx⟩
    unfold Kernel.frees
    simp only [hr, Option.filter_some, ht, decide_true, if_true]

def unshared (k : Kernel) (o : Slot) : Bool :=
  (List.finRange 64).all fun j => j = o ∨ ∀ x ∈ userPages (k.proc o), x ∉ userPages (k.proc j)

def exclusive (k : Kernel) : List Trap → Bool
  | [] => true
  | t :: ts =>
    (match t.cause with
      | .ecall io => (k.frees t.i (decode t.user io)).all k.unshared
      | _ => true) && (step k t).all (exclusive · ts)

theorem exclusive_meets {ts : List Trap} (hw : k.Wf) (h : exclusive k ts = true) : Meets Exclusive k ts := by
  induction ts generalizing k with
  | nil => trivial
  | cons t ts ih =>
    rw [exclusive, Bool.and_eq_true] at h
    refine ⟨fun io hio o x hx j hj hxj => ?_, fun k' hk => ih (step_wf hw hk) ?_⟩
    · obtain ⟨hf, hxo⟩ := hx.frees hw
      have hu := h.1
      simp only [hio, hf, Option.all_some, unshared, List.all_eq_true, decide_eq_true_eq] at hu
      exact (hu j (List.mem_finRange j)).resolve_left hj x (mem_userPages hw hxo) (mem_userPages hw hxj)
    · have hs := h.2
      rwa [hk, Option.all_some] at hs

/-- As long as only pages that no other process maps are freed, no process
that exists maps a free page. -/
theorem mapped_not_free {pages : List Page} {img : Option Image} {argv : List Nat}
    {k₀ : Kernel} {ts : List Trap} (hp : pages.Nodup) (hb : boot pages img argv = some k₀)
    (hm : Meets Exclusive k₀ ts) (hr : run k₀ ts = some k) :
    ∀ i v e, (k.proc i).state ≠ .unused → v < trapframeVa → (k.proc i).leaf v = some e →
      e.pa ∉ k.freelist := by
  intro i v e _ hv he
  have h : ReachableBy Exclusive k := ⟨pages, img, argv, k₀, ts, hp, hb, hm, hr⟩
  exact h.apart.not_free ⟨v, e, hv, he, rfl⟩

def growAndExit : List Trap :=
  [ecall 0 1 0 0 0, ecall 1 12 4096 1 0, ecall 1 2 0 0 0, ecall 0 3 0 0 0]

theorem mapped_not_free_growAndExit : ∃ k₀ k, small = some k₀ ∧ run k₀ growAndExit = some k ∧
    k.freelist.length = k₀.freelist.length ∧
    ∀ i v e, (k.proc i).state ≠ .unused → v < trapframeVa → (k.proc i).leaf v = some e →
      e.pa ∉ k.freelist := by
  have h : reaches growAndExit (fun k₀ k => exclusive k₀ growAndExit ∧
      k.freelist.length = k₀.freelist.length) = true := by decide +kernel
  obtain ⟨k₀, k, hb, hr, ht⟩ := reaches_iff.mp h
  obtain ⟨hx, hlen⟩ := of_decide_eq_true ht
  have hw : k₀.Wf := boot_spec wf_blind.stable (zero_wf _) hb
  exact ⟨k₀, k, hb, hr, hlen, mapped_not_free List.nodup_range hb (exclusive_meets hw hx) hr⟩

def orphanThread : List Trap :=
  [ecall 0 1 0 0 0, ecall 1 24 0 0 0, ecall 1 2 0 0 0, ecall 0 3 0 0 0]

theorem thread_outlives_creator : ∃ k₀ k, small = some k₀ ∧ run k₀ orphanThread = some k ∧
    (k.proc 2).state = .runnable ∧
    ∃ e, (k.proc 2).leaf 0 = some e ∧ e.u = true ∧ e.pa ∈ k.freelist := by
  have h : reaches orphanThread (fun _ k => (k.proc 2).state = .runnable ∧
      ((k.proc 2).leaf 0).any fun e => e.u ∧ e.pa ∈ k.freelist) = true := by decide +kernel
  obtain ⟨k₀, k, hb, hr, ht⟩ := reaches_iff.mp h
  simp only [decide_eq_true_eq, Option.any_eq_true] at ht
  exact ⟨k₀, k, hb, hr, ht.1, ht.2⟩

end Kernel

end OsLab
