import OsLab.KernelStep
import OsLab.ProcPanics

/-!
# The panics of a trap

In a reachable state every user page of a process lies below its size, and its
size below the trapframe. So no trap ends in `mappages: remap` or
`freewalk: leaf`, on whatever path it frees a process or gives up half way.
-/

namespace OsLab

open Mach

theorem Proc.Live.ne_unused {p : Proc} (h : p.Live) : p.state ≠ .unused := by
  rcases h with h | h | h <;> rw [h] <;> exact nofun

namespace Kernel

variable {E : Panic → Prop} {k k' k₁ : Kernel} {i j : Slot}

theorem lift_fails {α : Type} {x : Vm α} (h : Fails x k.freelist E) : Fails (lift x) k E := by
  intro e he
  unfold lift at he
  cases hx : x k.freelist with
  | error e' => rw [hx] at he; cases he; exact h e hx
  | ok r => rw [hx] at he; cases he

theorem getProc_fails : Fails (getProc i) k E := nofun

theorem put_fails {q : Proc} : Fails (put i q) k E := nofun

theorem update_fails {α : Type} {f : Proc → Vm (α × Proc)}
    (h : Fails (f (k.proc i)) k.freelist E) : Fails (update i f) k E :=
  Fails.bind getProc_fails (getProc_spec (Fails.bind (lift_fails h) fun _ _ _ =>
    Fails.bind put_fails fun _ _ _ => Fails.pure))

theorem setRegs_fails {f : Trapframe → Trapframe} (h : (k.proc i).trapframe = none → E .null) :
    Fails (setRegs i f) k E :=
  Fails.bind getProc_fails (getProc_spec (Fails.bind (Fails.deref h) fun _ _ _ => put_fails))

theorem setRegs_enters {f : Trapframe → Trapframe} (hk : k.Wf) (hi : (k.proc i).Live) :
    Ensures (setRegs i f) k fun _ k' => k'.Wf ∧ (k'.proc i).Live ∧ k'.freelist = k.freelist := by
  have hfree : Ensures (setRegs i f) k fun _ k' => k'.freelist = k.freelist :=
    Ensures.bind (getProc_spec (Ensures.bind (Ensures.deref fun _ _ => put_spec rfl)))
  refine ((setRegs_spec wf_blind.stable hk f).and hfree).mono ?_
  rintro _ k' ⟨⟨hk', hr, -⟩, hf⟩
  obtain ⟨tf, hj⟩ := hr i
  refine ⟨hk', ?_, hf⟩
  rw [hj]
  exact hi

/-! ## Creating and freeing processes -/

theorem freeproc_fails (h : Fails (k.proc i).freeproc k.freelist E) : Fails (freeproc i) k E :=
  Fails.bind getProc_fails (getProc_spec (Fails.bind (lift_fails h) fun _ _ _ =>
    Fails.bind put_fails fun _ _ _ => Fails.modify))

theorem allocPages_fails (hpt : (k.proc j).pagetable = none) : Fails (allocPages j) k E := by
  -- a slot without a page table is given back
  have undo {k' : Kernel} (h : (k'.proc j).pagetable = none) : Fails (freeproc j) k' E :=
    freeproc_fails (Proc.freeproc_fails fun pt hp => by rw [h] at hp; cases hp)
  refine Fails.bind (lift_fails kalloc_fails) (lift_spec fun r free _ => ?_)
  cases r with
  | none => exact Fails.bind (undo hpt) fun _ _ _ => Fails.pure
  | some pa =>
    refine Fails.bind getProc_fails (getProc_spec (Fails.bind put_fails (put_spec ?_)))
    refine Fails.bind (lift_fails (procPagetable_fails pa)) (lift_spec fun r free₁ _ => ?_)
    cases r with
    | none =>
      refine Fails.bind (undo ?_) fun _ _ _ => Fails.pure
      change (Function.update k.proc j _ j).pagetable = none
      rw [Function.update_self]
      exact hpt
    | some pt => exact Fails.bind put_fails fun _ _ _ => Fails.pure

theorem allocproc_fails (hk : k.Wf) : Fails allocproc k E := by
  refine Fails.bind Fails.get (Ensures.get ?_)
  cases hj : k.findSlot fun p => p.state = .unused with
  | none => exact Fails.pure
  | some j =>
    have hu : (k.proc j).state = .unused := by simpa using findSlot_spec hj
    refine Fails.bind put_fails (put_spec (Fails.bind Fails.modify (Ensures.modify ?_)))
    refine allocPages_fails ?_
    change (Function.update k.proc j _ j).pagetable = none
    rw [Function.update_self]
    exact ((hk j).unused hu).2.2

theorem allocproc_length :
    Ensures allocproc k fun r k' => r ≠ none → k'.freelist.length ≤ k.freelist.length := by
  refine Ensures.bind (Ensures.get ?_)
  cases k.findSlot fun p => p.state = .unused with
  | none => exact Ensures.pure fun h => absurd rfl h
  | some j =>
    refine Ensures.bind (put_spec (Ensures.bind (Ensures.modify ?_)))
    refine Ensures.bind (lift_spec ((kalloc_length k.freelist).mono fun r free h₁ => ?_))
    cases r with
    | none => exact Ensures.bind fun _ _ _ => Ensures.pure fun h => absurd rfl h
    | some pa =>
      refine Ensures.bind (getProc_spec (Ensures.bind (put_spec (Ensures.bind (lift_spec
        (procPagetable_length.mono fun r free₂ h₂ => ?_))))))
      cases r with
      | none => exact Ensures.bind fun _ _ _ => Ensures.pure fun h => absurd rfl h
      | some pt =>
        refine Ensures.bind (put_spec (Ensures.pure fun _ => ?_))
        exact (h₂ (Option.some_ne_none pt)).trans h₁.1

theorem newproc_fails {share : PageTable → PageTable → Nat → Vm (Bool × PageTable)}
    {isThread : Bool} {regs : Trapframe → Trapframe} {A : PageTable → List Page → Prop} (hk : k.Wf)
    (hi : (k.proc i).Live) (hsh : Shares share isThread)
    (hA : Ensures allocproc k fun r k' => ∀ j new, r = some j →
      (k'.proc j).pagetable = some new → A new k'.freelist)
    (hshare : ∀ old new free, (k.proc i).pagetable = some old → new.Within 0 → A new free →
      Fails (share old new (k.proc i).sz) free E) :
    Fails (newproc share isThread regs i) k E := by
  obtain ⟨htf, hpt⟩ := (hk i).live hi
  refine Fails.bind (allocproc_fails hk) (((allocproc_spec wf_blind.stable hk).and hA).mono ?_)
  rintro r k₁ ⟨⟨hk₁, ha⟩, hA₁⟩
  cases r with
  | none => exact Fails.pure
  | some j =>
    obtain ⟨hu, pa, pt, hs, hF, hb⟩ := ha j rfl
    have hij : i ≠ j := by
      rintro rfl
      exact hi.ne_unused hu
    have hp : k₁.proc i = k.proc i := hs.other hij
    have hnp : (k₁.proc j).pagetable = some pt := by rw [hs.self]; rfl
    refine Fails.bind getProc_fails (getProc_spec (Fails.bind getProc_fails (getProc_spec ?_)))
    rw [hp]
    refine Fails.bind (Fails.deref fun h => absurd h hpt) (Ensures.deref fun old hold => ?_)
    refine Fails.bind (Fails.deref fun h => by rw [hnp] at h; cases h)
      (Ensures.deref fun new hnew => ?_)
    obtain rfl : pt = new := Option.some.inj (hnp.symm.trans hnew)
    refine Fails.bind (lift_fails (hshare old pt _ hold hb (hA₁ j pt rfl hnp)))
      (lift_spec ((hsh old pt (k.proc i).sz k₁.freelist hF hb (hk i).size).mono ?_))
    rintro ⟨ok, new'⟩ free' ⟨hno, -, -, -, -⟩
    refine Fails.bind put_fails (put_spec ?_)
    generalize hk₂ : ({ k₁ with freelist := free' } : Kernel).setProc j
      { k₁.proc j with pagetable := some new' } = k₂
    have hj : k₂.proc j = { k₁.proc j with pagetable := some new' } := by
      rw [← hk₂]; exact Function.update_self ..
    refine Fails.ite (fun _ => ?_) fun hf => ?_
    · have hn : (k₂.proc j).trapframe ≠ none := by rw [hj, hs.self]; exact Option.some_ne_none _
      refine Fails.bind (Fails.deref fun h => absurd h htf) (Ensures.deref fun tf _ => ?_)
      refine Fails.bind getProc_fails (getProc_spec ?_)
      refine Fails.bind (Fails.deref fun h => absurd h hn) (Ensures.deref fun tf' _ => ?_)
      exact Fails.bind put_fails fun _ _ _ => Fails.pure
    · have hin : new'.Within 0 := hb.congr (hno (by simpa using hf)).leaf
      refine Fails.bind (freeproc_fails (Proc.freeproc_fails fun pt' hp' => ?_)) fun _ _ _ => Fails.pure
      rw [hj] at hp' ⊢
      cases hp'
      exact ⟨hin.mono (Nat.zero_le _), (hk₁ j).size⟩

theorem kfork_fails (hk : k.Wf) (hi : (k.proc i).Live) (hwalk : E .walk) :
    Fails (kfork i) k E := by
  refine newproc_fails (A := fun _ _ => True) hk hi uvmcopy_shares
    (fun _ _ _ _ _ _ _ => trivial) fun old new free _ hb _ => ?_
  refine uvmcopyLoop_fails old hwalk fun u _ hu => hb.bare u ?_
  have := (hk i).size
  omega

theorem clone_fails {fcn arg stack : Word} (hk : k.Wf) (hi : (k.proc i).Live)
    (ht : ∀ old, (k.proc i).pagetable = some old → ∀ u < pgRoundUp (k.proc i).sz,
      old.leaf u = none → E .noPte ∧ E .notPresent) : Fails (clone fcn arg stack i) k E := by
  have hsz := (hk i).size
  have hlt := trapframeVa_succ
  have hmax := trampoline_succ
  refine newproc_fails (A := fun _ _ => True) hk hi uvmmirror_shares
    (fun _ _ _ _ _ _ _ => trivial) fun old new free hold hb _ => ?_
  refine uvmmirrorLoop_fails old (fun h => absurd h (by omega)) (fun u _ hu htab => ?_)
    (fun u _ hu hl => ?_) fun u _ hu => hb.bare u (by omega)
  · exact (ht old hold u (by omega) (old.leaf_tab u htab)).1
  · exact (ht old hold u (by omega) hl).2

/-! ## Exit, wait and kill -/

theorem kexit_fails {status : Int} (h : E .initExiting) : Fails (kexit i status) k E :=
  Fails.bind Fails.get fun _ _ _ => Fails.ite (fun _ => Fails.fail h) fun _ =>
    Fails.bind Fails.modify fun _ _ _ => Fails.bind getProc_fails fun _ _ _ => put_fails

theorem waitFor_fails (hk : k.Wf) (hi : (k.proc i).Live) (wanted : Proc → Bool) (addr : Nat)
    (nohang : Bool) : Fails (waitFor i wanted addr nohang) k E := by
  have hpt := ((hk i).live hi).2
  refine Fails.bind Fails.get (Ensures.get ?_)
  cases hz : k.zombieChild i wanted with
  | none =>
    refine Fails.ite (fun _ => Fails.pure) fun _ => ?_
    exact Fails.ite (fun _ => Fails.pure) fun _ => Fails.pure
  | some z =>
    have reap (ok : Bool) {k' : Kernel} (hk' : k'.Wf) :
        Fails (if ok then do
            freeproc z
            pure (some (k.proc z).pid)
          else pure (some (-1))) k' E := by
      refine Fails.ite (fun _ => ?_) fun _ => Fails.pure
      exact Fails.bind (freeproc_fails (hk' z).freeproc_fails) fun _ _ _ => Fails.pure
    refine Fails.ite (fun _ => ?_) fun _ => ?_
    · exact Fails.bind Fails.pure (Ensures.pure (reap _ hk))
    · refine Fails.bind (update_fails (Proc.copyout_fails hpt addr 4))
        ((update_grows hk (Proc.copyout_spec (hk i) addr 4)).mono ?_)
      exact fun ok k' h => reap ok h.1

theorem kkill_fails {pid : Int} : Fails (kkill pid) k E := by
  refine Fails.bind Fails.get (Ensures.get ?_)
  cases k.findSlot fun p => p.pid = pid with
  | none => exact Fails.pure
  | some j => exact Fails.bind put_fails fun _ _ _ => Fails.pure

/-! ## Alarms -/

theorem alarmReturn_fails (hnull : E .null) : Fails (alarmReturn i) k E := by
  refine Fails.bind getProc_fails fun _ _ _ => ?_
  refine Fails.bind (Fails.deref fun _ => hnull) fun _ _ _ => ?_
  refine Fails.bind (Fails.deref fun _ => hnull) fun _ _ _ => ?_
  refine Fails.bind (lift_fails kfree_fails) fun _ _ _ => ?_
  exact Fails.bind put_fails fun _ _ _ => Fails.bind Fails.modify fun _ _ _ => Fails.pure

theorem alarmTick_fails (hnull : E .null) : Fails (alarmTick i) k E := by
  refine Fails.bind getProc_fails fun _ _ _ => Fails.ite (fun _ => ?_) fun _ => Fails.pure
  refine Fails.bind put_fails fun _ k₁ _ => Fails.ite (fun _ => ?_) fun _ => Fails.pure
  refine Fails.bind getProc_fails fun _ _ _ => ?_
  refine Fails.bind (Fails.deref fun _ => hnull) fun _ _ _ => ?_
  refine Fails.bind (lift_fails kalloc_fails) fun r _ _ => ?_
  cases r with
  | none => exact put_fails
  | some pa => exact Fails.bind put_fails fun _ _ _ => Fails.modify

/-! ## Traps -/

structure OtherPanics (E : Panic → Prop) : Prop extends ExecPanics E where
  noPte : E .noPte
  notPresent : E .notPresent
  initExiting : E .initExiting
  exec : E .exec
  null : E .null

section
variable (hE : OtherPanics E)
include hE

theorem call_fails (hk : k.Wf) (hi : (k.proc i).Live) (hlen : k.freelist.length ≤ trapframeVa)
    (c : Call) : Fails (call i c) k E := by
  obtain ⟨htf, hpt⟩ := (hk i).live hi
  have ret {α : Type} {x : Km α} (f : α → Outcome) (hx : Fails x k E) :
      Fails (do return f (← x)) k E :=
    Fails.bind hx fun _ _ _ => Fails.pure
  cases c with
  | fork => exact ret _ (kfork_fails hk hi hE.walk)
  | exit status => exact Fails.bind (kexit_fails hE.initExiting) fun _ _ _ => Fails.pure
  | wait addr => exact ret _ (waitFor_fails hk hi _ addr false)
  | kill pid => exact ret _ kkill_fails
  | exec img args => exact ret _ (update_fails (Proc.sysExec_fails hE.1 (hk i) htf hpt img args hlen))
  | sbrk n t => exact ret _ (update_fails (Proc.sysSbrk_fails (hk i) hpt n t hE.walk))
  | waitpid pid addr options => exact ret _ (waitFor_fails hk hi _ addr _)
  | clone fcn arg stack =>
    exact ret _ (clone_fails hk hi fun _ _ _ _ _ => ⟨hE.noPte, hE.notPresent⟩)
  | alarm interval handler =>
    exact Fails.bind getProc_fails fun _ _ _ => Fails.bind put_fails fun _ _ _ => Fails.pure
  | alarmReturn => exact ret _ (alarmReturn_fails hE.null)
  | other r touch =>
    exact Fails.bind (update_fails (Proc.touchAll_fails hE.walk hpt touch)) fun _ _ _ => Fails.pure
  | unknown => exact Fails.pure

omit hE in
theorem setKilled_fails (r : Outcome) :
    Fails (do let p ← getProc i; put i { p with killed := true }; pure r) k E :=
  Fails.bind getProc_fails fun _ _ _ => Fails.bind put_fails fun _ _ _ => Fails.pure

theorem cause_fails (hk : k.Wf) (hi : (k.proc i).Live) (hlen : k.freelist.length ≤ trapframeVa)
    (c : Cause) : Fails (cause i c) k E := by
  cases c with
  | ecall io =>
    refine Fails.bind getProc_fails (getProc_spec (Fails.ite (fun _ => ?_) fun _ => ?_))
    · exact Fails.bind (kexit_fails hE.initExiting) fun _ _ _ => Fails.pure
    · refine Fails.bind (setRegs_fails fun _ => hE.null) ((setRegs_enters hk hi).mono ?_)
      rintro _ k₁ ⟨hk₁, hi₁, hf₁⟩
      refine Fails.bind getProc_fails (getProc_spec ?_)
      refine Fails.bind (Fails.deref fun _ => hE.null) (Ensures.deref fun tf _ => ?_)
      refine Fails.bind (call_fails hE hk₁ hi₁ (hf₁ ▸ hlen) _) fun r k₂ _ => ?_
      cases r with
      | ret v => exact Fails.bind (setRegs_fails fun _ => hE.null) fun _ _ _ => Fails.pure
      | gone => exact Fails.pure
      | asleep => exact Fails.pure
  | fault va =>
    refine Fails.bind (update_fails (Proc.vmfault_fails ((hk i).live hi).2 va hE.walk))
      fun ok k₁ _ => ?_
    exact Fails.ite (fun _ => Fails.pure) fun _ => setKilled_fails _
  | timer => exact Fails.pure
  | device => exact Fails.pure
  | other => exact setKilled_fails _

theorem usertrap_fails (hk : k.Wf) (hi : (k.proc i).Live)
    (hlen : k.freelist.length ≤ trapframeVa) (user : Trapframe) (c : Cause) :
    Fails (usertrap i user c) k E := by
  refine Fails.bind (setRegs_fails fun _ => hE.null) ((setRegs_enters hk hi).mono ?_)
  rintro _ k₁ ⟨hk₁, hi₁, hf₁⟩
  refine Fails.bind (cause_fails hE hk₁ hi₁ (hf₁ ▸ hlen) c) fun r k₂ _ => ?_
  cases r with
  | gone => exact Fails.pure
  | asleep => exact Fails.pure
  | ret v =>
    refine Fails.bind getProc_fails fun p _ _ => Fails.ite (fun _ => ?_) fun _ => ?_
    · exact Fails.bind (kexit_fails hE.initExiting) fun _ _ _ => Fails.pure
    · cases c with
      | timer => exact Fails.bind (alarmTick_fails hE.null) fun _ _ _ => Fails.pure
      | _ => exact Fails.bind Fails.pure fun _ _ _ => Fails.pure

theorem userinit_fails {pages : List Page} (img : Option Image) (argv : List Nat)
    (hlen : pages.length ≤ trapframeVa) : Fails (boot.userinit img argv) (zero pages) E := by
  have hk := zero_wf pages
  refine Fails.bind (allocproc_fails hk)
    (((allocproc_spec wf_blind.stable hk).and allocproc_length).mono ?_)
  rintro r k₁ ⟨⟨hk₁, ha⟩, hlen₁⟩
  refine Fails.bind (Fails.deref fun _ => hE.null) (Ensures.deref fun i hi => ?_)
  obtain ⟨-, pa, pt, hs, -, -⟩ := ha i hi
  have htf : (k₁.proc i).trapframe ≠ none := by rw [hs.self]; exact Option.some_ne_none _
  have hpt : (k₁.proc i).pagetable ≠ none := by rw [hs.self]; exact Option.some_ne_none _
  refine Fails.bind Fails.modify (Ensures.modify (Fails.bind getProc_fails (getProc_spec ?_)))
  refine Fails.bind put_fails (put_spec (Fails.bind (update_fails ?_) fun r k₂ _ => ?_))
  · have hq : ({ k₁.proc i with state := .runnable } : Proc).Wf :=
      (hk₁ i).congr rfl rfl rfl rfl (fun h => by cases h) fun _ => ⟨htf, hpt⟩
    change Fails ((Function.update k₁.proc i _ i).kexec img argv) k₁.freelist E
    rw [Function.update_self]
    exact Proc.kexec_fails hE.toExecPanics hq htf hpt img argv ((hlen₁ (hi ▸ nofun)).trans hlen)
  · exact Fails.ite (fun _ => Fails.fail hE.exec) fun _ => setRegs_fails fun _ => hE.null

end

/-! ## System calls of a process that was not killed -/

def entered (k : Kernel) (i : Slot) (tf : Frame) (user : Trapframe) : Kernel :=
  k.setProc i { k.proc i with trapframe := some { tf with regs := { user with epc := user.epc + 4 } } }

section
variable {tf : Frame} {user : Trapframe} {io : Io}

theorem entered_self (k : Kernel) (i : Slot) (tf : Frame) (user : Trapframe) :
    (k.entered i tf user).proc i =
    { k.proc i with trapframe := some { tf with regs := { user with epc := user.epc + 4 } } } :=
  Function.update_self ..

theorem setRegs_eq {f : Trapframe → Trapframe} (htf : (k.proc i).trapframe = some tf) :
    setRegs i f k =
      .ok ((), k.setProc i { k.proc i with trapframe := some { tf with regs := f tf.regs } }) := by
  simp only [setRegs, bind, getProc, htf]
  rfl

variable (htf : (k.proc i).trapframe = some tf) (hk : (k.proc i).killed = false)
include htf hk

theorem usertrap_ecall_eq : usertrap i user (.ecall io) k = (do
    let r ← syscall i io
    match r with
    | .ret _ => do
      if (← getProc i).killed then do
        kexit i (-1)
        pure .gone
      else pure r
    | _ => pure r : Km Outcome) (k.entered i tf user) := by
  have hself : (k.setProc i { k.proc i with trapframe := some { tf with regs := user } }).proc i =
      { k.proc i with trapframe := some { tf with regs := user } } := Function.update_self ..
  have henter : (k.setProc i { k.proc i with trapframe := some { tf with regs := user } }).setProc i
      { k.proc i with trapframe := some { tf with regs := { user with epc := user.epc + 4 } } } =
      k.entered i tf user := by
    unfold entered setProc
    rw [Function.update_idem]
  have hframe : ((k.setProc i { k.proc i with trapframe := some { tf with regs := user } }).proc
      i).trapframe = some { tf with regs := user } := by rw [hself]
  have hcause : cause i (.ecall io) (k.setProc i
      { k.proc i with trapframe := some { tf with regs := user } }) =
      syscall i io (k.entered i tf user) := by
    refine (bind_ok rfl).trans ?_
    rw [hself, if_neg (by rw [hk]; exact Bool.false_ne_true)]
    refine (bind_ok (setRegs_eq hframe)).trans ?_
    rw [hself, henter]
  refine (bind_ok (setRegs_eq htf)).trans ?_
  cases hs : syscall i io (k.entered i tf user) with
  | error e => rw [bind_error (hcause.trans hs), bind_error hs]
  | ok r =>
    refine (bind_ok (hcause.trans hs)).trans (Eq.trans ?_ (bind_ok hs).symm)
    cases r.1 <;> rfl

omit htf hk in
theorem syscall_entered_eq : syscall i io (k.entered i tf user) = (do
    let r ← call i (decode user io)
    match r with
    | .ret v => do
      setRegs i fun tf => tf.set .a0 (BitVec.ofInt 64 v)
      pure r
    | _ => pure r : Km Outcome) (k.entered i tf user) := by
  refine (bind_ok rfl).trans ?_
  rw [entered_self]
  rfl

theorem usertrap_ecall_error {e : Panic}
    (hc : call i (decode user io) (k.entered i tf user) = .error e) :
    usertrap i user (.ecall io) k = .error e := by
  rw [usertrap_ecall_eq htf hk]
  refine bind_error ?_
  rw [syscall_entered_eq]
  exact bind_error hc

/-- A system call does not panic if the function of the table does not, and leaves the
caller alive. -/
theorem usertrap_ecall_fails (hcall : Fails (call i (decode user io)) (k.entered i tf user) E)
    (hret : Ensures (call i (decode user io)) (k.entered i tf user) fun _ k' =>
      (k'.proc i).trapframe ≠ none ∧ (k'.proc i).killed = false) :
    Fails (usertrap i user (.ecall io)) k E := by
  have hsys : Fails (syscall i io) (k.entered i tf user) E := by
    refine Fails.congr syscall_entered_eq (Fails.bind hcall (hret.mono fun r k' h => ?_))
    cases r with
    | ret v =>
      exact Fails.bind (setRegs_fails fun hn => absurd hn h.1) fun _ _ _ => Fails.pure
    | gone => exact Fails.pure
    | asleep => exact Fails.pure
  have halive : Ensures (syscall i io) (k.entered i tf user) fun _ k' =>
      (k'.proc i).killed = false := by
    refine Ensures.congr syscall_entered_eq (Ensures.bind (hret.mono fun r k' h => ?_))
    cases r with
    | ret v =>
      refine Ensures.bind (Ensures.bind (getProc_spec (Ensures.bind (Ensures.deref fun tf _ =>
        put_spec (Ensures.pure ?_)))))
      change (Function.update k'.proc i _ i).killed = false
      rw [Function.update_self]
      exact h.2
    | gone => exact Ensures.pure h.2
    | asleep => exact Ensures.pure h.2
  intro e he
  rw [usertrap_ecall_eq htf hk] at he
  refine Fails.bind hsys (halive.mono fun r k' h => ?_) e he
  cases r with
  | gone => exact Fails.pure
  | asleep => exact Fails.pure
  | ret v =>
    refine Fails.bind getProc_fails (getProc_spec (Fails.ite (fun hd => ?_) fun _ => Fails.pure))
    rw [h] at hd
    cases hd

theorem usertrap_ecall_ensures {Q : Int → Kernel → Prop}
    (hret : Ensures (call i (decode user io)) (k.entered i tf user) fun r k' =>
      ∃ v, r = .ret v ∧ (k'.proc i).killed = false ∧ Q v k') :
    Ensures (usertrap i user (.ecall io)) k fun r k'' =>
      ∃ v k', r = .ret v ∧ Q v k' ∧ RegsOnly k' k'' := by
  have hsys : Ensures (syscall i io) (k.entered i tf user) fun r k'' =>
      ∃ v k', r = .ret v ∧ (k''.proc i).killed = false ∧ Q v k' ∧ RegsOnly k' k'' := by
    refine Ensures.congr syscall_entered_eq (Ensures.bind (hret.mono ?_))
    rintro _ k' ⟨v, rfl, hd, hQ⟩
    refine Ensures.bind (Ensures.bind (getProc_spec (Ensures.bind (Ensures.deref fun tf _ =>
      put_spec (Ensures.pure ⟨v, k', rfl, ?_, hQ, fun j => ?_⟩)))))
    · rw [setProc_self]
      exact hd
    · by_cases hj : j = i
      · subst hj
        exact ⟨_, setProc_self ..⟩
      · exact ⟨_, setProc_other _ _ hj⟩
  intro r k'' hr
  rw [usertrap_ecall_eq htf hk] at hr
  refine Ensures.bind (R := fun r k'' => ∃ v k', r = .ret v ∧ Q v k' ∧ RegsOnly k' k'')
    (hsys.mono ?_) r k'' hr
  rintro _ k'' ⟨v, k', rfl, hd, hQ, hregs⟩
  refine Ensures.bind (getProc_spec (Ensures.ite (fun h => ?_) fun _ => ?_))
  · rw [hd] at h
    cases h
  · exact Ensures.pure (a := Outcome.ret v) ⟨v, k', rfl, hQ, hregs⟩

omit hk in
theorem entered_wf (hw : k.Wf) (user : Trapframe) : (k.entered i tf user).Wf := by
  have hhold := Proc.setRegs_hold { user with epc := user.epc + 4 } htf
  refine Sets.wf rfl hw ((hw i).congr (congrArg Holder.mir hhold) rfl rfl rfl ?_ ?_)
  · exact fun hu => absurd hu ((hw i).used htf)
  · exact fun hl => ⟨Option.some_ne_none _, ((hw i).live hl).2⟩

omit htf hk in
theorem entered_regs (k : Kernel) (i : Slot) (tf : Frame) (user : Trapframe) :
    RegsOnly k (k.entered i tf user) := fun j => by
  by_cases hj : j = i
  · subst hj
    exact ⟨_, entered_self ..⟩
  · exact ⟨_, setProc_other _ _ hj⟩

end

/-! ## Page-table panics -/

def physPages : Nat := 32768

theorem physPages_le : physPages ≤ trapframeVa := by
  unfold physPages trapframeVa trampoline maxVa; omega

def UserLeaf (pt : PageTable) (v : Nat) : Prop :=
  pt.leaf v ≠ none ∧ v ≠ trapframeVa ∧ v ≠ trampoline

theorem other_of_ne : OtherPanics fun e => e ≠ .remap ∧ e ≠ .leaf where
  walk := by decide
  loadseg := by decide
  uvmclear := by decide
  noPte := by decide
  notPresent := by decide
  initExiting := by decide
  exec := by decide
  null := by decide

theorem panics_iff {t : Trap} {e : Panic} : panics k t = some e ↔
    ((k.proc t.i).state = .runnable ∨ (k.proc t.i).state = .running) ∧
    usertrap t.i t.user t.cause k = .error e := by
  unfold panics
  split
  · rename_i h
    cases hu : usertrap t.i t.user t.cause k with
    | error e' => simp [h]
    | ok r => simp
  · rename_i h
    simp [h]

/-- The kernel boots without `remap` and `freewalk: leaf`. In every state of every run
the user pages of a process lie below its size, and no trap ends in one of these panics. -/
theorem page_table_panics_unreachable :
    (∀ pages img argv e, pages.length ≤ physPages →
      boot.userinit img argv (zero pages) = .error e → e ≠ .remap ∧ e ≠ .leaf) ∧
    ∀ k, Reachable k →
      (∀ i pt, (k.proc i).pagetable = some pt → pgRoundUp (k.proc i).sz ≤ trapframeVa ∧
        ∀ v, UserLeaf pt v → v < pgRoundUp (k.proc i).sz) ∧
      (k.freelist.length ≤ physPages →
        ∀ t, panics k t ≠ some .remap ∧ panics k t ≠ some .leaf) := by
  refine ⟨fun pages img argv e hlen he => ?_, fun k h => ⟨fun i pt hpt => ?_, fun hlen t => ?_⟩⟩
  · exact userinit_fails other_of_ne img argv (hlen.trans physPages_le) e he
  · refine ⟨(h.wf i).size, fun v hv => ?_⟩
    by_contra hlt
    exact hv.1 (((h.wf i).table pt hpt).2 v (Nat.le_of_not_lt hlt) hv.2.1 hv.2.2)
  · have key : ∀ e, panics k t = some e → e ≠ .remap ∧ e ≠ .leaf := by
      intro e he
      obtain ⟨hst, he⟩ := panics_iff.mp he
      have hl : (k.proc t.i).Live := hst.elim Or.inl fun h => Or.inr (Or.inl h)
      exact usertrap_fails other_of_ne h.wf hl (hlen.trans physPages_le) t.user t.cause e he
    exact ⟨fun he => (key _ he).1 rfl, fun he => (key _ he).2 rfl⟩

theorem page_table_panics_unreachable_cloneAndReap : ∃ k₀ k pt, small = some k₀ ∧
    run k₀ [ecall 0 24 0 0 0, ecall 1 2 0 0 0, ecall 0 3 0 0 0] = some k ∧
    (k.proc 0).pagetable = some pt ∧ UserLeaf pt 0 ∧ 0 < pgRoundUp (k.proc 0).sz ∧
    ∀ t, panics k t ≠ some .remap ∧ panics k t ≠ some .leaf := by
  have h : reaches [ecall 0 24 0 0 0, ecall 1 2 0 0 0, ecall 0 3 0 0 0] (fun _ k =>
      k.freelist.length ≤ 40 ∧ (k.proc 0).pagetable.any fun pt => pt.leaf 0 ≠ none) = true := by
    decide +kernel
  obtain ⟨k₀, k, hb, hr, ht⟩ := reaches_iff.mp h
  simp only [Option.any_eq_true, decide_eq_true_eq] at ht
  obtain ⟨hlen, pt, hpt, hl⟩ := ht
  have hmax : maxVa = 67108864 := by unfold maxVa; rfl
  have hu : UserLeaf pt 0 :=
    ⟨hl, by unfold trapframeVa trampoline; omega, by unfold trampoline; omega⟩
  obtain ⟨hleaf, hpanic⟩ := page_table_panics_unreachable.2 k
    ⟨List.range 40, some initImage, [], k₀, _, List.nodup_range, hb, hr⟩
  exact ⟨k₀, k, pt, hb, hr, hpt, hu, (hleaf 0 pt hpt).2 0 hu,
    hpanic (hlen.trans (by unfold physPages; omega))⟩

end Kernel

end OsLab
