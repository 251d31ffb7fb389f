import OsLab.ProcSound
import OsLab.VmPanics

/-!
# The panics of the functions on one process

A process whose user pages lie below its size can be freed, grown, shrunk and
given a new program without `remap` or `freewalk: leaf`. Only `kexec` needs more
than that: nothing in it keeps a segment below the trapframe, but memory runs out
first.
-/

namespace OsLab

open Mach Finset

variable {E : Panic → Prop} {pt : PageTable} {free : List Page} {p : Proc} {sz : Nat}

theorem trampoline_succ : trampoline + 1 = maxVa := by unfold trampoline maxVa; omega

theorem trapframeVa_succ : trapframeVa + 1 = trampoline := by
  unfold trapframeVa trampoline maxVa; omega

theorem trapframeVa_lt : trapframeVa < maxVa := by
  have := trapframeVa_succ
  have := trampoline_succ
  omega

/-! ## Making and freeing page tables -/

theorem procPagetable_fails (tf : Page) : Fails (procPagetable tf) free E := by
  have hlt := trapframeVa_succ
  have hmax := trampoline_succ
  have hne : trapframeVa ≠ trampoline := by omega
  -- a table without an entry is freed
  have undo {pt : PageTable} {free : List Page} (h : ∀ v, pt.leaf v = none) :
      Fails (uvmfree pt 0) free E :=
    uvmfree_fails (fun h => absurd h (by unfold pgRoundUp; omega)) fun v _ => h v
  refine Fails.bind (Fails.bind kalloc_fails fun r _ _ => ?_)
    (Ensures.bind ((kalloc_spec free).mono fun r free₁ _ => ?_))
  · cases r with
    | none => exact Fails.pure
    | some pa => exact Fails.pure
  cases r with
  | none => exact Ensures.pure Fails.pure
  | some pa =>
    refine Ensures.pure ?_
    refine Fails.bind (mappages_fails (fun h => absurd h (by omega)) fun h => absurd rfl h)
      ((mappages_spec (PageTable.empty pa) trampoline free₁ _).mono ?_)
    rintro ⟨ok, pt₁⟩ free₂ ⟨-, -, hok₁, hno₁⟩
    refine Fails.ite (fun h₁ => ?_) fun h₁ => ?_
    · obtain ⟨-, hl₁⟩ := hok₁ h₁
      have htf : pt₁.leaf trapframeVa = none := by rw [hl₁, Function.update_of_ne hne]; rfl
      refine Fails.bind (mappages_fails (fun h => absurd h (by omega)) fun h => absurd htf h)
        ((mappages_spec pt₁ trapframeVa free₂ _).mono ?_)
      rintro ⟨ok₂, pt₂⟩ free₃ ⟨-, -, -, hno₂⟩
      refine Fails.ite (fun _ => Fails.pure) fun h₂ => ?_
      refine Fails.bind (uvmunmap_fails fun h => absurd h (by omega))
        ((uvmunmap_spec 1 false pt₂ trampoline free₃).mono ?_)
      rintro pt₃ free₄ ⟨hc, -, -⟩
      refine Fails.bind (undo fun v => ?_) fun _ _ _ => Fails.pure
      rw [hc v, hno₂ (by simpa using h₂), hl₁]
      split
      · rfl
      · rename_i hv
        rw [Function.update_of_ne (by rw [mem_Ico] at hv; omega)]
        rfl
    · refine Fails.bind (undo fun v => ?_) fun _ _ _ => Fails.pure
      rw [hno₁ (by simpa using h₁)]
      rfl

theorem procFreepagetable_fails (hin : pt.Within (pgRoundUp sz)) (hsz : pgRoundUp sz ≤ trapframeVa) :
    Fails (procFreepagetable pt sz) free E := by
  have hlt := trapframeVa_succ
  have hmax := trampoline_succ
  refine Fails.bind (uvmunmap_fails fun h => absurd h (by omega))
    ((uvmunmap_spec 1 false pt trampoline free).mono ?_)
  rintro pt₁ free₁ ⟨hc₁, -, -⟩
  refine Fails.bind (uvmunmap_fails fun h => absurd h (by omega))
    ((uvmunmap_spec 1 false pt₁ trapframeVa free₁).mono ?_)
  rintro pt₂ free₂ ⟨hc₂, -, -⟩
  refine uvmfree_fails (fun h => absurd h (by omega)) fun v hv => ?_
  rw [hc₂ v, hc₁ v]
  split
  · rfl
  · rename_i h₂
    split
    · rfl
    · rename_i h₁
      rw [mem_Ico] at h₁ h₂
      exact hin v hv (by omega) (by omega)

theorem threadFreepagetable_fails (hin : pt.Within (pgRoundUp sz))
    (hsz : pgRoundUp sz ≤ trapframeVa) : Fails (threadFreepagetable pt sz) free E := by
  have hlt := trapframeVa_succ
  have hmax := trampoline_succ
  refine Fails.bind (uvmunmap_fails fun h => absurd h (by omega))
    ((uvmunmap_spec _ false pt 0 free).mono ?_)
  rintro pt₁ free₁ ⟨hc, -, -⟩
  refine procFreepagetable_fails (hc.within hin fun u _ hu => mem_Ico.mpr ⟨Nat.zero_le u, ?_⟩)
    (Nat.zero_le _)
  omega

theorem procPagetable_length {tf : Page} :
    Ensures (procPagetable tf) free fun r free' => r ≠ none → free'.length ≤ free.length := by
  refine Ensures.bind (Ensures.bind ((kalloc_length free).mono fun r free₁ h₁ => ?_))
  cases r with
  | none => exact Ensures.pure (Ensures.pure fun h => absurd rfl h)
  | some pa =>
    refine Ensures.pure (Ensures.bind (mappages_length.mono fun r free₂ h₂ => ?_))
    refine Ensures.ite (fun _ => ?_) fun _ => Ensures.bind fun _ _ _ => Ensures.pure fun h => absurd rfl h
    refine Ensures.bind (mappages_length.mono fun r free₃ h₃ => ?_)
    refine Ensures.ite (fun _ => Ensures.pure fun _ => h₃.trans (h₂.trans h₁.1)) fun _ => ?_
    exact Ensures.bind fun _ _ _ => Ensures.bind fun _ _ _ => Ensures.pure fun h => absurd rfl h

theorem kfreeFrame_fails (f : Option Frame) : Fails (kfreeFrame f) free E := by
  cases f with
  | none => exact Fails.pure
  | some f => exact kfree_fails

namespace Proc

theorem freeproc_fails
    (ht : ∀ pt, p.pagetable = some pt → pt.Within (pgRoundUp p.sz) ∧ pgRoundUp p.sz ≤ trapframeVa) :
    Fails p.freeproc free E := by
  refine Fails.bind (kfreeFrame_fails _) fun _ free₁ _ => ?_
  refine Fails.bind (kfreeFrame_fails _) fun _ free₂ _ => ?_
  cases hp : p.pagetable with
  | none => exact Fails.pure
  | some pt =>
    obtain ⟨hin, hsz⟩ := ht pt hp
    refine Fails.ite (fun _ => ?_) fun _ => ?_
    · exact Fails.bind (threadFreepagetable_fails hin hsz) fun _ _ _ => Fails.pure
    · exact Fails.bind (procFreepagetable_fails hin hsz) fun _ _ _ => Fails.pure

theorem Wf.freeproc_fails (hw : p.Wf) : Fails p.freeproc free E :=
  Proc.freeproc_fails fun pt hp => ⟨(hw.table pt hp).2, hw.size⟩

/-! ## Growing and shrinking -/

theorem growproc_fails (hw : p.Wf) (hn : p.pagetable ≠ none) (n : Int) (hwalk : E .walk) :
    Fails (p.growproc n) free E := by
  refine Fails.bind (Fails.deref fun h => absurd h hn) (Ensures.deref fun pt hp => ?_)
  have hin := (hw.table pt hp).2
  refine Fails.ite (fun _ => ?_) fun _ => Fails.ite (fun _ => ?_) fun _ => Fails.pure
  · refine Fails.ite (fun _ => Fails.pure) fun hle => ?_
    -- the test against `TRAPFRAME` keeps the new pages below it
    refine Fails.bind (uvmalloc_fails hwalk fun u hu hu' _ => hin u hu ?_ ?_) fun r _ _ => ?_
    · have := pgRoundUp_le (Nat.le_of_not_lt hle); omega
    · have := pgRoundUp_le (Nat.le_of_not_lt hle); unfold trapframeVa at this; omega
    · exact Fails.ite (fun _ => Fails.pure) fun _ => Fails.pure
  · exact Fails.bind (uvmdealloc_fails hwalk) fun r _ _ => Fails.pure

theorem sysSbrk_fails (hw : p.Wf) (hn : p.pagetable ≠ none) (n t : Int) (hwalk : E .walk) :
    Fails (p.sysSbrk n t) free E := by
  refine Fails.ite (fun _ => ?_) fun _ => ?_
  · exact Fails.bind (growproc_fails hw hn n hwalk) fun _ _ _ => Fails.pure
  · exact Fails.ite (fun _ => Fails.pure) fun _ => Fails.ite (fun _ => Fails.pure) fun _ => Fails.pure

/-! ## Faults and copies -/

theorem vmfault_fails (hn : p.pagetable ≠ none) (va : Nat) (hwalk : E .walk) :
    Fails (p.vmfault va) free E :=
  Fails.bind (Fails.deref fun h => absurd h hn) fun _ _ _ =>
    Fails.bind (OsLab.vmfault_fails fun _ => hwalk) fun _ _ _ => Fails.pure

def Stands (p : Proc) (free : List Page) (q : Proc) (free' : List Page) : Prop :=
  (q.trapframe = p.trapframe ∧ q.pagetable ≠ none) ∧ free'.length ≤ free.length

theorem Stands.refl (hn : p.pagetable ≠ none) : Stands p free p free := ⟨⟨rfl, hn⟩, le_rfl⟩

theorem Stands.trans {p₁ q : Proc} {free₁ free' : List Page} (h : Stands p free p₁ free₁)
    (h' : Stands p₁ free₁ q free') : Stands p free q free' :=
  ⟨⟨h'.1.1.trans h.1.1, h'.1.2⟩, h'.2.trans h.2⟩

theorem vmfault_stands (va : Nat) :
    Ensures (p.vmfault va) free fun r free' => Stands p free r.2 free' :=
  Ensures.bind (Ensures.deref fun _ _ => Ensures.bind (vmfault_length.mono fun _ _ h =>
    Ensures.pure ⟨⟨rfl, Option.some_ne_none _⟩, h⟩))

theorem touchAll_fails (hwalk : E .walk) (hn : p.pagetable ≠ none) (vas : List Nat) :
    Fails (p.touchAll vas) free E := by
  induction vas generalizing p free with
  | nil => exact Fails.pure
  | cons va vas ih =>
    refine Fails.bind (vmfault_fails hn va hwalk) ((vmfault_stands va).mono fun r _ h => ?_)
    exact Fails.ite (fun _ => ih h.1.2) fun _ => Fails.pure

theorem touchAll_stands (hn : p.pagetable ≠ none) (vas : List Nat) :
    Ensures (p.touchAll vas) free fun r free' => Stands p free r.2 free' := by
  induction vas generalizing p free with
  | nil => exact Ensures.pure (Stands.refl hn)
  | cons va vas ih =>
    refine Ensures.bind ((vmfault_stands va).mono fun r _ h => ?_)
    exact Ensures.ite (fun _ => (ih h.1.2).mono fun _ _ h' => h.trans h') fun _ => Ensures.pure h

theorem copyout_fails (hn : p.pagetable ≠ none) (addr len : Nat) :
    Fails (p.copyout addr len) free E :=
  Fails.bind (Fails.deref fun h => absurd h hn) fun _ _ _ =>
    Fails.bind OsLab.copyout_fails fun _ _ _ => Fails.pure

end Proc

/-! ## Programs -/

structure ExecPanics (E : Panic → Prop) : Prop where
  walk : E .walk
  loadseg : E .loadseg
  uvmclear : E .uvmclear

theorem uvmallocLoop_length {a₀ a n : Nat} {w x : Bool} :
    Ensures (uvmallocLoop a₀ w x pt a n) free fun r free' =>
      r.1 = true → n + free'.length ≤ free.length := by
  induction n generalizing pt free a with
  | zero => exact Ensures.pure fun _ => by omega
  | succ n ih =>
    refine Ensures.bind ((kalloc_length free).mono fun r free₁ h₁ => ?_)
    cases r with
    | none => exact Ensures.bind fun _ _ _ => Ensures.pure nofun
    | some mem =>
      have hlen := h₁.2 (Option.some_ne_none mem)
      refine Ensures.bind (mappages_length.mono fun r free₂ h₂ => ?_)
      refine Ensures.ite (fun _ => ?_) fun _ => ?_
      · refine Ensures.mono ih fun r free' h hr => ?_
        have := h hr
        omega
      · exact Ensures.bind fun _ _ _ => Ensures.bind fun _ _ _ => Ensures.pure nofun

theorem uvmalloc_length {oldsz newsz : Nat} {w x : Bool} :
    Ensures (uvmalloc pt oldsz newsz w x) free fun r free' =>
      r.1 ≠ 0 → pgRoundUp r.1 + free'.length ≤ pgRoundUp oldsz + free.length := by
  refine Ensures.ite (fun _ => Ensures.pure fun _ => le_rfl) fun hle => ?_
  refine Ensures.bind (uvmallocLoop_length.mono fun r free' h => Ensures.pure fun hr => ?_)
  have hok : r.1 = true := by
    by_contra hf
    exact hr (if_neg hf)
  have := h hok
  rw [if_pos hok]
  unfold pgRoundUp at this ⊢
  omega

theorem loadseg_fails (ph : Proghdr) (h : E .loadseg) : Fails (loadseg pt ph) free E := by
  have loop : ∀ n v i free, Fails (loadsegLoop pt ph.readable v i n) free E := by
    intro n
    induction n with
    | zero => exact fun v i free => Fails.pure
    | succ n ih =>
      intro v i free
      refine Fails.bind walkaddr_fails fun r _ _ => ?_
      cases r with
      | none => exact Fails.fail h
      | some _ => exact Fails.ite (fun _ => ih _ _ _) fun _ => Fails.pure
  exact loop _ _ _ _

theorem loadSegs_length (phs : List (Option Proghdr)) :
    Ensures (loadSegs pt sz phs) free fun r free' =>
      r.1 = true → pgRoundUp r.2.1 + free'.length ≤ pgRoundUp sz + free.length := by
  induction phs generalizing pt sz free with
  | nil => exact Ensures.pure fun _ => le_rfl
  | cons ph phs ih =>
    cases ph with
    | none => exact Ensures.pure nofun
    | some ph =>
      refine Ensures.ite (fun _ => ?_) fun _ => ih
      refine Ensures.ite (fun _ => ?_) fun _ => Ensures.pure nofun
      refine Ensures.bind (uvmalloc_length.mono fun r free₁ h₁ => ?_)
      refine Ensures.ite (fun _ => Ensures.pure nofun) fun hz => ?_
      refine Ensures.bind ((Proc.loadseg_spec ph).mono ?_)
      rintro ok _ rfl
      refine Ensures.ite (fun _ => ?_) fun _ => Ensures.pure nofun
      exact ih.mono fun _ _ h hr => (h hr).trans (h₁ hz)

section
variable (hE : ExecPanics E)
include hE

theorem loadSegs_fails (phs : List (Option Proghdr)) (hin : pt.Within (pgRoundUp sz))
    (hlen : pgRoundUp sz + free.length ≤ trapframeVa) : Fails (loadSegs pt sz phs) free E := by
  have hlt := trapframeVa_succ
  induction phs generalizing pt sz free with
  | nil => exact Fails.pure
  | cons ph phs ih =>
    cases ph with
    | none => exact Fails.pure
    | some ph =>
      refine Fails.ite (fun _ => ?_) fun _ => ih hin hlen
      refine Fails.ite (fun _ => ?_) fun _ => Fails.pure
      refine Fails.bind (uvmalloc_fails hE.walk fun u hu _ hu' => hin u hu (by omega) (by omega))
        ((uvmalloc_length.and (uvmalloc_within ph.w ph.x hin)).mono ?_)
      rintro ⟨sz₁, pt₁⟩ free₁ ⟨hlen₁, hin₁⟩
      dsimp only at hin₁
      refine Fails.ite (fun _ => Fails.pure) fun hz => ?_
      rw [if_neg hz] at hin₁
      refine Fails.bind (loadseg_fails ph hE.loadseg) ((Proc.loadseg_spec ph).mono ?_)
      rintro ok _ rfl
      refine Fails.ite (fun _ => ih hin₁ ?_) fun _ => Fails.pure
      exact (hlen₁ hz).trans hlen

omit hE in
theorem pushArgs_fails (argv : List Nat) {stackbase sp argc : Nat} :
    Fails (pushArgs pt stackbase sp argc argv) free E := by
  induction argv generalizing pt sp argc free with
  | nil => exact Fails.pure
  | cons len args ih =>
    refine Fails.ite (fun _ => Fails.pure) fun _ => Fails.ite (fun _ => Fails.pure) fun _ => ?_
    refine Fails.bind copyout_fails fun r _ _ => ?_
    exact Fails.ite (fun _ => ih) fun _ => Fails.pure

theorem execStack_fails (argv : List Nat) (hin : pt.Within (pgRoundUp sz))
    (hlen : pgRoundUp sz + free.length ≤ trapframeVa) : Fails (execStack pt sz argv) free E := by
  have hlt := trapframeVa_succ
  have hround : pgRoundUp (pgRoundUp sz * pgSize) = pgRoundUp sz := by
    unfold pgRoundUp pgSize; omega
  rw [← hround] at hin hlen
  refine Fails.bind (uvmalloc_fails hE.walk fun u hu _ hu' => hin u hu (by omega) (by omega))
    fun r free₁ _ => ?_
  refine Fails.ite (fun _ => Fails.pure) fun _ => ?_
  refine Fails.bind (uvmclear_fails hE.walk hE.uvmclear) fun pt₂ free₂ _ => ?_
  refine Fails.bind (pushArgs_fails argv) fun r free₃ _ => ?_
  obtain ⟨sp, pt₃⟩ := r
  cases sp with
  | none => exact Fails.pure
  | some sp =>
    refine Fails.ite (fun _ => Fails.pure) fun _ => ?_
    exact Fails.bind copyout_fails fun _ _ _ => Fails.pure

theorem execImage_fails (img : Image) (argv : List Nat) (hF : pt.Framed) (hin : pt.Within 0)
    (hlen : free.length ≤ trapframeVa) : Fails (execImage pt img argv) free E := by
  have hz : pgRoundUp 0 = 0 := rfl
  have hin₀ : pt.Within (pgRoundUp 0) := hz ▸ hin
  have hlen₀ : pgRoundUp 0 + free.length ≤ trapframeVa := by rw [hz, Nat.zero_add]; exact hlen
  refine Fails.bind (loadSegs_fails hE img.phdrs hin₀ hlen₀)
    (((Proc.loadSegs_spec img.phdrs hF hin₀ (Nat.zero_le _)).and (loadSegs_length img.phdrs)).mono ?_)
  rintro ⟨ok, sz, pt₁⟩ free₁ ⟨⟨-, hin₁, -⟩, hlen₁⟩
  refine Fails.ite (fun hok => ?_) fun _ => Fails.pure
  exact execStack_fails hE argv hin₁ ((hlen₁ hok).trans hlen₀)

theorem Proc.kexec_fails (hw : p.Wf) (htf : p.trapframe ≠ none) (hpt : p.pagetable ≠ none)
    (img : Option Image) (argv : List Nat) (hlen : free.length ≤ trapframeVa) :
    Fails (p.kexec img argv) free E := by
  cases img with
  | none => exact Fails.pure
  | some img =>
    refine Fails.bind (Fails.deref fun h => absurd h htf) (Ensures.deref fun tf _ => ?_)
    refine Fails.bind (procPagetable_fails tf.page)
      (((procPagetable_spec tf.page).and procPagetable_length).mono ?_)
    rintro r free₁ ⟨h₁, hlen₁⟩
    cases r with
    | none => exact Fails.pure
    | some pt =>
      obtain ⟨hF, hb, -⟩ := h₁.2 pt rfl
      refine Fails.bind (execImage_fails hE img argv hF hb ((hlen₁ (Option.some_ne_none pt)).trans hlen))
        ((Proc.execImage_spec img argv hF hb).mono ?_)
      rintro ⟨sp, sz, pt'⟩ free₂ ⟨-, hin, hsz⟩
      cases sp with
      | none => exact Fails.bind (procFreepagetable_fails hin hsz) fun _ _ _ => Fails.pure
      | some sp =>
        refine Fails.bind (Fails.deref fun h => absurd h hpt) (Ensures.deref fun old hold => ?_)
        exact Fails.bind (procFreepagetable_fails (hw.table old hold).2 hw.size)
          fun _ _ _ => Fails.pure

theorem Proc.fetchArgs_fails (hn : p.pagetable ≠ none) (n : Nat) (args : List ExecArg) :
    Fails (p.fetchArgs n args) free E := by
  induction args generalizing p free n with
  | nil => exact Fails.pure
  | cons a args ih =>
    refine Fails.ite (fun _ => Fails.pure) fun _ => ?_
    refine Fails.bind (touchAll_fails hE.walk hn a.touch) ((touchAll_stands hn a.touch).mono ?_)
    rintro ⟨ok, p₁⟩ free₁ ⟨⟨-, hn₁⟩, -⟩
    refine Fails.ite (fun _ => ?_) fun _ => Fails.pure
    cases a with
    | null touch => exact Fails.pure
    | str touch len =>
      refine Fails.bind kalloc_fails fun pa _ _ => ?_
      cases pa with
      | none => exact Fails.pure
      | some pa =>
        cases len with
        | none => exact Fails.pure
        | some l => exact Fails.bind (ih hn₁ (n + 1)) fun _ _ _ => Fails.pure

omit hE in
theorem Proc.fetchArgs_stands (hn : p.pagetable ≠ none) (n : Nat) (args : List ExecArg) :
    Ensures (p.fetchArgs n args) free fun r free' => Stands p free r.2.2 free' := by
  induction args generalizing p free n with
  | nil => exact Ensures.pure (Stands.refl hn)
  | cons a args ih =>
    refine Ensures.ite (fun _ => Ensures.pure (Stands.refl hn)) fun _ => ?_
    refine Ensures.bind ((touchAll_stands hn a.touch).mono ?_)
    rintro ⟨ok, p₁⟩ free₁ h₁
    refine Ensures.ite (fun _ => ?_) fun _ => Ensures.pure h₁
    cases a with
    | null touch => exact Ensures.pure h₁
    | str touch len =>
      refine Ensures.bind ((kalloc_length free₁).mono fun pa free₂ h₂ => ?_)
      have h₁₂ : Stands p free p₁ free₂ := ⟨h₁.1, h₂.1.trans h₁.2⟩
      cases pa with
      | none => exact Ensures.pure h₁₂
      | some pa =>
        cases len with
        | none => exact Ensures.pure h₁₂
        | some l => exact Ensures.bind ((ih h₁.1.2 (n + 1)).mono fun r _ h₃ => Ensures.pure (h₁₂.trans h₃))

omit hE in
theorem Proc.freeAll_fails (pages : List Page) : Fails (pages.forM kfree) free E := by
  induction pages generalizing free with
  | nil => exact Fails.pure
  | cons pa pages ih => exact Fails.bind kfree_fails fun _ _ _ => ih

theorem Proc.sysExec_fails (hw : p.Wf) (htf : p.trapframe ≠ none) (hpt : p.pagetable ≠ none)
    (img : Option Image) (args : List ExecArg) (hlen : free.length ≤ trapframeVa) :
    Fails (p.sysExec img args) free E := by
  refine Fails.bind (fetchArgs_fails hE hpt 0 args)
    (((fetchArgs_spec hw 0 args).and (fetchArgs_stands hpt 0 args)).mono ?_)
  rintro ⟨lens, pages, q⟩ free₁ ⟨⟨hg, -⟩, ⟨hq, hqt⟩, hlen₁⟩
  cases lens with
  | none => exact Fails.bind (freeAll_fails pages) fun _ _ _ => Fails.pure
  | some argv =>
    exact Fails.bind (kexec_fails hE hg.wf (hq ▸ htf) hqt img argv (hlen₁.trans hlen)) fun _ _ _ =>
      Fails.bind (freeAll_fails pages) fun _ _ _ => Fails.pure

end

end OsLab
