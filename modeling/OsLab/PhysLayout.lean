import OsLab.Leak
import OsLab.PhysRefine

/-!
# A memory for every state

A state of `Kernel.lean` whose bookkeeping pages are all different stands for
words of memory: each page is written on its own, and the pieces fit together
because no page has two of them.
-/

namespace OsLab

open Mach Phys

/-! ## Functions from pieces -/

/-- What is asked of a function on disjoint sets, one function can satisfy. -/
theorem exists_glue {ι α β : Type} [Inhabited β] {S : ι → Set α} {P : ι → (α → β) → Prop}
    (hlocal : ∀ a f f', (∀ x ∈ S a, f' x = f x) → P a f → P a f')
    (hdisj : ∀ a b x, x ∈ S a → x ∈ S b → a = b) (hex : ∀ a, ∃ f, P a f) : ∃ f, ∀ a, P a f := by
  classical
  choose g hg using hex
  refine ⟨fun x => if h : ∃ a, x ∈ S a then g h.choose x else default, fun a => ?_⟩
  refine hlocal a (g a) _ (fun x hx => ?_) (hg a)
  have h : ∃ a, x ∈ S a := ⟨a, hx⟩
  rw [dif_pos h, hdisj _ a x h.choose_spec hx]

theorem disjoint_of_sum_nodup {ι α : Type} [Fintype ι] [DecidableEq ι] {M : ι → Multiset α}
    (h : (∑ a, M a).Nodup) {a b : ι} {x : α} (ha : x ∈ M a) (hb : x ∈ M b) : a = b := by
  by_contra hne
  rw [← Finset.add_sum_erase _ _ (Finset.mem_univ a)] at h
  refine Multiset.disjoint_left.mp (Multiset.nodup_add.mp h).2.2 ha ?_
  exact Multiset.mem_sum.mpr ⟨b, Finset.mem_erase.mpr ⟨Ne.symm hne, Finset.mem_univ b⟩, hb⟩

/-! ## Free pages and trapframes -/

theorem exists_chain (l : List Page) (hl : l.Nodup) : ∃ a ram, Chain ram a l := by
  induction l with
  | nil => exact ⟨0, fun _ _ => 0, rfl⟩
  | cons p l ih =>
    obtain ⟨hp, hl⟩ := List.nodup_cons.mp hl
    obtain ⟨a, ram, h⟩ := ih hl
    refine ⟨addr p, Function.update ram p fun _ => a, rfl, ?_⟩
    rw [Function.update_self]
    exact h.frame fun x hx => Function.update_of_ne (fun hxp : x = p => hp (hxp ▸ hx)) ..

def Reg.ofWord : Nat → Reg
  | 5 => .ra | 6 => .sp | 7 => .gp | 8 => .tp | 9 => .t0 | 10 => .t1 | 11 => .t2 | 12 => .s0 | 13 => .s1
  | 14 => .a0 | 15 => .a1 | 16 => .a2 | 17 => .a3 | 18 => .a4 | 19 => .a5 | 20 => .a6 | 21 => .a7
  | 22 => .s2 | 23 => .s3 | 24 => .s4 | 25 => .s5 | 26 => .s6 | 27 => .s7 | 28 => .s8 | 29 => .s9
  | 30 => .s10 | 31 => .s11 | 32 => .t3 | 33 => .t4 | 34 => .t5 | _ => .t6

theorem exists_saved (regs : Trapframe) : ∃ c, Saved c regs := by
  refine ⟨fun w => if w = PhysKernel.wordEpc then regs.epc else regs.reg (Reg.ofWord w), if_pos rfl, ?_⟩
  intro r
  cases r <;> rfl

/-! ## Page tables -/

def Pte.Fits (e : Pte) : Prop := e.pa < 2 ^ 52 ∧ (e.r ∨ e.w ∨ e.x)

instance (e : Pte) : Decidable e.Fits := inferInstanceAs (Decidable (_ ∧ _))

def permWord (r w x u : Bool) : Word :=
  (if r then pteR else 0) ||| (if w then pteW else 0) ||| (if x then pteX else 0) ||| (if u then pteU else 0)

theorem permWord_bits : ∀ r w x u : Bool, pteFlags (permWord r w x u) = permWord r w x u ∧
    (permWord r w x u).getLsbD 1 = r ∧ (permWord r w x u).getLsbD 2 = w ∧
    (permWord r w x u).getLsbD 3 = x ∧ (permWord r w x u).getLsbD 4 = u := by
  decide

def Pte.word (e : Pte) : Word := pa2pte e.pa ||| permWord e.r e.w e.x e.u ||| pteV

theorem Pte.Fits.reads {e : Pte} (h : e.Fits) : Valid e.word ∧ Reads e.word e := by
  obtain ⟨hflags, hr, hw, hx, hu⟩ := permWord_bits e.r e.w e.x e.u
  have henc : Encodes e.word e.pa (permWord e.r e.w e.x e.u) := encodes h.1 hflags
  have hbit {i : Nat} (h0 : 0 < i) (hi : i < 10) :
      e.word.getLsbD i = (permWord e.r e.w e.x e.u).getLsbD i := getLsbD_new e.pa _ h0 hi
  refine ⟨henc.valid, ?_, henc.page, ?_, ?_, ?_, ?_⟩
  · rw [isLeaf_iff, hbit (by omega) (by omega), hbit (by omega) (by omega), hbit (by omega) (by omega),
      hr, hw, hx]
    exact h.2
  · rw [hbit (by omega) (by omega), hr]
  · rw [hbit (by omega) (by omega), hw]
  · rw [hbit (by omega) (by omega), hx]
  · rw [hbit (by omega) (by omega), hu]

theorem exists_points {o : Option Page} (h : ∀ d, o = some d → d < 2 ^ 52) : ∃ w, Points w o := by
  cases o with
  | none => exact ⟨0, not_valid_zero⟩
  | some d => exact ⟨pa2pte d ||| pteV, points_new (h d rfl)⟩

inductive Level
  | root
  | dir (i : Nat)
  | tab (j : Nat)

def PageTable.page (pt : PageTable) : Level → Option Page
  | .root => some pt.root
  | .dir i => pt.dir i
  | .tab j => pt.tab j

def PageTable.Holds (pt : PageTable) (c : Nat → Word) : Level → Prop
  | .root => ∀ i < 512, Points (c i) (pt.dir i)
  | .dir i => ∀ n < 512, Points (c n) (pt.tab (512 * i + n))
  | .tab j => ∀ n < 512, c n = ((pt.leaf (512 * j + n)).map Pte.word).getD 0

theorem PageTable.Distinct.page {pt : PageTable} (h : pt.Distinct) {a b : Level} {x : Page}
    (ha : pt.page a = some x) (hb : pt.page b = some x) : a = b := by
  cases a with
  | root =>
    cases ha
    cases b with
    | root => rfl
    | dir i => exact absurd hb (h.root_dir i)
    | tab j => exact absurd hb (h.root_tab j)
  | dir i =>
    cases b with
    | root => cases hb; exact absurd ha (h.root_dir i)
    | dir j => rw [h.dir_inj ha hb]
    | tab j => exact absurd hb (h.dir_tab ha)
  | tab i =>
    cases b with
    | root => cases hb; exact absurd ha (h.root_tab i)
    | dir j => exact absurd ha (h.dir_tab hb)
    | tab j => rw [h.tab_inj ha hb]

theorem PageTable.exists_holds {pt : PageTable} (hpage : ∀ x ∈ pt.tables, x < 2 ^ 52) (a : Level) :
    ∃ c, pt.Holds c a := by
  cases a with
  | root =>
    have h (i : Nat) : ∃ w, Points w (pt.dir i) := exists_points fun d hd => hpage d (PageTable.dir_mem hd)
    choose c hc using h
    exact ⟨c, fun i _ => hc i⟩
  | dir i =>
    have h (n : Nat) : ∃ w, Points w (pt.tab (512 * i + n)) :=
      exists_points fun t ht => hpage t (PageTable.tab_mem ht)
    choose c hc using h
    exact ⟨c, fun n _ => hc n⟩
  | tab j => exact ⟨fun n => ((pt.leaf (512 * j + n)).map Pte.word).getD 0, fun n _ => rfl⟩

theorem exists_tree {pt : PageTable} (hd : pt.Distinct) (hpage : ∀ x ∈ pt.tables, x < 2 ^ 52)
    (hleaf : ∀ v e, pt.leaf v = some e → e.Fits) : ∃ ram W, Tree ram pt W := by
  have h : ∃ ram : Ram, ∀ a x, pt.page a = some x → pt.Holds (ram x) a := by
    refine exists_glue (S := fun a => { x | pt.page a = some x })
      (fun a ram ram' hram h x hx => ?_) (fun a b x => hd.page) fun a => ?_
    · rw [hram x hx]
      exact h x hx
    · obtain ⟨c, hc⟩ := PageTable.exists_holds hpage a
      exact ⟨fun _ => c, fun _ _ => hc⟩
  obtain ⟨ram, h⟩ := h
  refine ⟨ram, fun v => (pt.leaf v).map Pte.word, h .root _ rfl, fun j d hj => ?_, fun v t ht => ?_, fun v => ?_⟩
  · have hdir : Points (ram d (j % 512)) (pt.tab (512 * (j / 512) + j % 512)) :=
      h (.dir (j / 512)) d hj (j % 512) (Nat.mod_lt j (by decide))
    rwa [Nat.div_add_mod] at hdir
  · have htab : ram t (v % 512) = ((pt.leaf (512 * (v / 512) + v % 512)).map Pte.word).getD 0 :=
      h (.tab (v / 512)) t ht (v % 512) (Nat.mod_lt v (by decide))
    rw [Nat.div_add_mod] at htab
    rw [htab]
    cases he : pt.leaf v with
    | none => exact (if_neg not_valid_zero).symm
    | some e => exact (if_pos (hleaf v e he).reads.1).symm
  · cases he : pt.leaf v with
    | none => exact .none
    | some e => exact .some (hleaf v e he).reads.2

/-! ## Processes -/

def Proc.record (p : Proc) : PhysProc where
  state := p.state
  chan := 0
  killed := if p.killed then 1 else 0
  xstate := p.xstate
  pid := p.pid
  parent := p.parent
  kstack := 0
  sz := p.sz
  pagetable := p.pagetable.map PageTable.root
  trapframe := p.trapframe.map Frame.page
  context := ⟨0, 0, fun _ => 0⟩
  ofile := fun _ => none
  cwd := some 0
  name := fun _ => 0
  isThread := p.isThread
  alarmInterval := p.alarmInterval
  alarmTicks := p.alarmTicks
  alarmHandler := p.alarmHandler
  alarmTrapframe := p.alarmTrapframe.map Frame.page
  alarmActive := p.alarmActive

theorem Proc.record_low (p : Proc) : p = p.record.low p.pagetable p.trapframe p.alarmTrapframe := by
  obtain ⟨state, killed⟩ := p
  cases killed <;> rfl

theorem exists_write (f : Option Frame) (ram : Ram) : ∃ ram' : Ram,
    (∀ x, x ∉ frameAt f → ram' x = ram x) ∧ ∀ g, f = some g → Saved (ram' g.page) g.regs := by
  cases f with
  | none => exact ⟨ram, fun _ _ => rfl, nofun⟩
  | some f =>
    obtain ⟨c, hc⟩ := exists_saved f.regs
    refine ⟨Function.update ram f.page c, fun x hx => ?_, fun g hg => ?_⟩
    · exact Function.update_of_ne (fun hxf : x = f.page => hx (hxf ▸ frameAt_mem f)) ..
    · cases hg
      rw [Function.update_self]
      exact hc

theorem exists_procRep {p : Proc} (hn : p.hold.kern.Nodup) (hpage : ∀ x ∈ p.hold.kern, x < 2 ^ 52)
    (hleaf : ∀ v e, p.leaf v = some e → e.Fits) : ∃ ram, ProcRep ram p.record p := by
  obtain ⟨hframes, htables, hapart⟩ := Multiset.nodup_add.mp hn
  have htree : ∃ ram : Ram, ∀ pt, p.pagetable = some pt → ∃ W, Tree ram pt W := by
    cases hpt : p.pagetable with
    | none => exact ⟨fun _ _ => 0, nofun⟩
    | some pt =>
      rw [hpt] at htables
      have hfits : ∀ v e, pt.leaf v = some e → e.Fits := fun v e he => hleaf v e (by
        unfold Proc.leaf
        rw [hpt]
        exact he)
      obtain ⟨ram, W, h⟩ := exists_tree (PageTable.distinct htables)
        (fun x hx => hpage x (Proc.tables_mem hpt hx)) hfits
      exact ⟨ram, fun pt' hpt' => ⟨W, Option.some.inj hpt' ▸ h⟩⟩
  obtain ⟨ram, h⟩ := htree
  -- the trapframes are on other pages than the table, and on different ones
  obtain ⟨ram₁, hother₁, h₁⟩ := exists_write p.trapframe ram
  obtain ⟨ram₂, hother₂, h₂⟩ := exists_write p.alarmTrapframe ram₁
  refine ⟨ram₂, p.record_low, rfl, rfl, rfl, fun pt hpt => ?_, fun f hf => ?_, h₂⟩
  · obtain ⟨W, ht⟩ := h pt hpt
    refine ⟨W, ht.frame fun x hx => ?_⟩
    have hx' : x ∉ frameAt p.trapframe + frameAt p.alarmTrapframe := fun hmem =>
      Multiset.disjoint_left.mp hapart hmem (by rw [hpt]; exact hx)
    rw [Multiset.mem_add, not_or] at hx'
    rw [hother₂ x hx'.2, hother₁ x hx'.1]
  · have hnot : f.page ∉ frameAt p.alarmTrapframe :=
      Multiset.disjoint_left.mp (Multiset.nodup_add.mp hframes).2.2 (by rw [hf]; exact frameAt_mem f)
    rw [hother₂ _ hnot]
    exact h₁ f hf

/-- A state whose bookkeeping pages are different and in the allocator's range is that of some memory.
No file is open in it. -/
theorem exists_rep {k : Kernel} {kend : Page} (hn : k.pool.closed.Nodup)
    (hrange : ∀ x ∈ k.pool.closed, kend ≤ x ∧ x < phystop) (hkend : 0 < kend)
    (hleaf : ∀ z v e, (k.proc z).leaf v = some e → e.Fits)
    (hpid : k.nextpid = (BitVec.ofInt 32 k.nextpid).toInt) :
    ∃ σ, Rep σ k ∧ ∀ z, σ.proc z = (k.proc z).record := by
  obtain ⟨hfree, hsum, hdisj⟩ := Multiset.nodup_add.mp hn
  obtain ⟨a, ram₀, hchain⟩ := exists_chain k.freelist (Multiset.coe_nodup.mp hfree)
  have hclosed {z : Slot} {x : Page} (hx : x ∈ (k.proc z).hold.kern) : x ∈ k.pool.closed :=
    Multiset.mem_add.mpr (.inr (Multiset.mem_of_le (Rep.kern_le k z) hx))
  -- the pages of slot `z`, and for `none` the free ones
  have hram : ∃ ram : Ram, ∀ o : Option Slot,
      o.elim (Chain ram a k.freelist) fun z => ProcRep ram (k.proc z).record (k.proc z) := by
    refine exists_glue (S := fun o => { x | o.elim (x ∈ k.freelist) fun z => x ∈ (k.proc z).hold.kern })
      (fun o ram ram' hsame h => ?_) (fun o o' x hx hx' => ?_) fun o => ?_
    · cases o with
      | none => exact h.frame hsame
      | some z => exact h.of_frame hsame
    · cases o with
      | none =>
        cases o' with
        | none => rfl
        | some z =>
          exact absurd (Multiset.mem_of_le (Rep.kern_le k z) hx')
            (Multiset.disjoint_left.mp hdisj (Multiset.mem_coe.mpr hx))
      | some z =>
        cases o' with
        | none =>
          exact absurd (Multiset.mem_of_le (Rep.kern_le k z) hx)
            (Multiset.disjoint_left.mp hdisj (Multiset.mem_coe.mpr hx'))
        | some z' => rw [disjoint_of_sum_nodup hsum hx hx']
    · cases o with
      | none => exact ⟨ram₀, hchain⟩
      | some z =>
        refine exists_procRep (Multiset.nodup_of_le (Rep.kern_le k z) hsum) (fun x hx => ?_) (hleaf z)
        exact (hrange x (hclosed hx)).2.trans (by decide)
  obtain ⟨ram, h⟩ := hram
  refine ⟨⟨⟨ram, a, kend⟩, fun z => (k.proc z).record, BitVec.ofInt 32 k.nextpid, fun _ => 0, fun _ => 0, 0⟩,
    ⟨h none, hn, hrange, hkend, hpid, fun z => h (some z)⟩, fun _ => rfl⟩

/-! ## Runs -/

namespace Kernel
variable {k k₀ : Kernel} {pages : List Page}

/-- The pids fit, and the entries below the size of a process, and the two above, are leaves for the
hardware. -/
def fits (k : Kernel) : Bool :=
  (BitVec.ofInt 32 k.nextpid).toInt = k.nextpid && (List.finRange 64).all fun z =>
    (List.range (pgRoundUp (k.proc z).sz) ++ [trapframeVa, trampoline]).all fun v =>
      ((k.proc z).leaf v).all fun e => decide e.Fits

theorem Wf.fits (hw : k.Wf) (h : k.fits = true) (z : Slot) (v : Nat) (e : Pte)
    (he : (k.proc z).leaf v = some e) : e.Fits := by
  have hmem : v ∈ List.range (pgRoundUp (k.proc z).sz) ++ [trapframeVa, trampoline] := by
    obtain ⟨pt, hpt, hpte⟩ := Option.bind_eq_some_iff.mp he
    have hin := ((hw z).table pt hpt).2
    by_contra hv
    simp only [List.mem_append, List.mem_range, List.mem_cons, List.not_mem_nil, or_false, not_or] at hv
    rw [hin v (Nat.not_lt.mp hv.1) hv.2.1 hv.2.2] at hpte
    cases hpte
  have hall := List.all_eq_true.mp (List.all_eq_true.mp (Bool.and_eq_true_iff.mp h).2 z (List.mem_finRange z)) v hmem
  rw [he] at hall
  exact of_decide_eq_true hall

theorem counts_zero (pages : List Page) : Counts pages (zero pages) := by
  refine ⟨zero_wf pages, ?_⟩
  change (pages : Multiset Page) + ∑ _ : Slot, ((0 : Multiset Page) + 0) = pages
  rw [Finset.sum_eq_zero fun _ _ => add_zero 0, add_zero]

theorem Counts.closed_le {T : Multiset Page} (h : Counts T k) : k.pool.closed ≤ T := by
  rw [← h.2]
  exact add_le_add le_rfl (Finset.sum_le_sum fun i _ => Multiset.le_add_right _ _)

end Kernel

/-- A state that a machine with pages of the allocator's range reaches, and that has lost no page, is
that of some memory. -/
theorem exists_rep_run {k k₀ : Kernel} {pages : List Page} {img : Option Image} {argv : List Nat}
    {ts : List Kernel.Trap} {kend : Page} (hp : pages.Nodup) (hkend : 0 < kend)
    (hrange : ∀ x ∈ pages, kend ≤ x ∧ x < phystop) (hb : Kernel.boot pages img argv = some k₀)
    (hm : Kernel.Meets Kernel.Tidy k₀ ts) (hr : Kernel.run k₀ ts = some k) (hfits : k.fits = true) :
    k.Wf ∧ ∃ σ, Rep σ k ∧ ∀ z, σ.proc z = (k.proc z).record := by
  have h₀ : Kernel.Counts pages k₀ :=
    Kernel.boot_spec (Kernel.counts_blind pages).stable (Kernel.counts_zero pages) hb
  have h := Kernel.run_induct (fun _ _ _ => Kernel.step_counts) h₀ hm hr
  refine ⟨h.1, exists_rep (Multiset.nodup_of_le h.closed_le hp) (fun x hx => hrange x ?_) hkend (h.1.fits hfits) ?_⟩
  · exact Multiset.mem_coe.mp (Multiset.mem_of_le h.closed_le hx)
  · exact (of_decide_eq_true (Bool.and_eq_true_iff.mp hfits).1).symm

end OsLab
