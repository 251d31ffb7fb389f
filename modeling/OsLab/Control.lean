import OsLab.KernelStep

/-!
# What a trap does to the process records

The fields of a process that are not about its memory: state, `killed`, pid and
the alarm. `Change` lists all that a system call can do to them, and `Trapped`
all that a trap can. A result about these fields is a case analysis over the two.
-/

namespace OsLab

open Mach

/-- The fields of a process but for its memory, its parent and its exit status. -/
structure Control where
  state : ProcState
  killed : Bool
  pid : Int
  alarmInterval : Int
  alarmTicks : Int
  alarmHandler : Word
  alarmTrapframe : Option Frame
  alarmActive : Bool

namespace Control

def zero : Control := ⟨.unused, false, 0, 0, 0, 0, none, false⟩

/-- A slot that `allocproc` has set up for process `pid`: it keeps its `killed`. -/
def allocated (c : Control) (pid : Int) : Control := ⟨.used, c.killed, pid, 0, 0, 0, none, false⟩

def born (c : Control) (pid : Int) : Control := { c.allocated pid with state := .runnable }

def exited (c : Control) : Control := { c with state := .zombie }

def marked (c : Control) : Control :=
  { c with killed := true, state := if c.state = .sleeping then .runnable else c.state }

def alarm (c : Control) (interval : Int) (handler : Word) : Control :=
  { c with alarmInterval := interval, alarmHandler := handler, alarmTicks := 0, alarmActive := false }

def returned (c : Control) : Control :=
  { c with alarmTrapframe := none, alarmActive := false, alarmTicks := 0 }

end Control

def Proc.control (p : Proc) : Control :=
  ⟨p.state, p.killed, p.pid, p.alarmInterval, p.alarmTicks, p.alarmHandler, p.alarmTrapframe, p.alarmActive⟩

theorem Proc.Remaps.control {p q : Proc} (h : Proc.Remaps p q) : q.control = p.control := by
  obtain ⟨pt, sz, tf, rfl⟩ := h
  rfl

namespace Kernel

variable {k k' k₁ : Kernel} {i j : Slot} {α : Type}

def control (k : Kernel) (j : Slot) : Control := (k.proc j).control

theorem control_setProc (k : Kernel) (i : Slot) (p : Proc) :
    (k.setProc i p).control = Function.update k.control i p.control := by
  funext j
  by_cases hj : j = i
  · subst hj
    rw [Function.update_self, control, setProc_self]
  · rw [Function.update_of_ne hj, control, setProc_other k p hj, control]

/-! ## System calls -/

structure Same (k k' : Kernel) : Prop where
  control : k'.control = k.control
  nextpid : k'.nextpid = k.nextpid

theorem Same.refl (k : Kernel) : Same k k := ⟨rfl, rfl⟩

theorem Same.trans (h : Same k k₁) (h' : Same k₁ k') : Same k k' :=
  ⟨h'.control.trans h.control, h'.nextpid.trans h.nextpid⟩

theorem lift_same (x : Vm α) : Ensures (lift x) k fun _ k' => Same k k' :=
  lift_spec fun _ _ _ => ⟨rfl, rfl⟩

theorem update_same {f : Proc → Vm (α × Proc)}
    (hf : Ensures (f (k.proc i)) k.freelist fun r _ => Proc.Remaps (k.proc i) r.2) :
    Ensures (update i f) k fun _ k' => Same k k' := by
  refine update_spec (hf.mono fun r free hr => ⟨?_, rfl⟩)
  rw [control_setProc]
  exact Function.update_eq_self_iff.mpr hr.control

theorem put_same {q : Proc} (h : q.control = (k.proc i).control) : Same k (k.setProc i q) := by
  refine ⟨?_, rfl⟩
  rw [control_setProc]
  exact Function.update_eq_self_iff.mpr h

theorem freeproc_control (z : Slot) :
    Ensures (freeproc z) k fun _ k' => k'.control = Function.update k.control z Control.zero ∧
      k'.nextpid = k.nextpid := by
  refine Ensures.bind (getProc_spec (Ensures.bind (lift_spec ?_)))
  have hq : Ensures (k.proc z).freeproc k.freelist fun q _ => q.control = Control.zero := by
    refine Ensures.bind fun _ _ _ => Ensures.bind fun _ _ _ => ?_
    cases (k.proc z).pagetable with
    | none => exact Ensures.pure rfl
    | some pt =>
      refine Ensures.ite (fun _ => Ensures.bind fun _ _ _ => ?_) fun _ => Ensures.bind fun _ _ _ => ?_
      · exact Ensures.pure rfl
      · exact Ensures.pure rfl
  refine hq.mono fun q free hq => Ensures.bind (put_spec (Ensures.modify ⟨?_, rfl⟩))
  rw [← hq]
  exact control_setProc _ z q

theorem allocPages_control (j : Slot) :
    Ensures (allocPages j) k fun r k' => k'.nextpid = k.nextpid ∧
      (r = none → k'.control = Function.update k.control j Control.zero) ∧
      ∀ j', r = some j' → j' = j ∧ k'.control = Function.update k.control j
        { (k.control j).allocated (k.proc j).pid with state := (k.proc j).state } := by
  refine Ensures.bind ((lift_same kalloc).mono fun r k₁ h₁ => ?_)
  cases r with
  | none =>
    refine Ensures.bind ((freeproc_control j).mono fun _ k' hf => Ensures.pure ?_)
    rw [hf.1, hf.2, h₁.control, h₁.nextpid]
    exact ⟨rfl, fun _ => rfl, nofun⟩
  | some pa =>
    refine Ensures.bind (getProc_spec (Ensures.bind (put_spec ?_)))
    have h₂ := h₁.trans (put_same (k := k₁) (i := j)
      (q := { k₁.proc j with trapframe := some ⟨pa, Trapframe.junk⟩ }) rfl)
    refine Ensures.bind ((lift_same (procPagetable pa)).mono fun r k₃ h₃ => ?_)
    replace h₃ := h₂.trans h₃
    cases r with
    | none =>
      refine Ensures.bind ((freeproc_control j).mono fun _ k' hf => Ensures.pure ?_)
      rw [hf.1, hf.2, h₃.control, h₃.nextpid]
      exact ⟨rfl, fun _ => rfl, nofun⟩
    | some pt =>
      refine Ensures.bind (put_spec (Ensures.pure ⟨h₃.nextpid, nofun, fun j' hj' => ?_⟩))
      refine ⟨(Option.some.inj hj').symm, ?_⟩
      have hj : (k₁.proc j).control = (k.proc j).control := congrFun h₁.control j
      rw [control_setProc, h₃.control]
      congr 1
      simp only [Proc.control, Control.mk.injEq] at hj
      simp only [Proc.control, Control.allocated, control, hj]

inductive Creates (k k' : Kernel) : Int → Prop
  | full (h : Same k k') : Creates k k' (-1)
  | undone {j : Slot} (hj : (k.proc j).state = .unused)
      (h : k'.control = Function.update k.control j Control.zero) (hn : k'.nextpid = k.nextpid + 1) :
      Creates k k' (-1)
  | born {j : Slot} (hj : (k.proc j).state = .unused)
      (h : k'.control = Function.update k.control j ((k.control j).born k.nextpid))
      (hn : k'.nextpid = k.nextpid + 1) : Creates k k' k.nextpid

theorem allocproc_control : Ensures allocproc k fun r k' =>
    (r = none → Creates k k' (-1)) ∧ ∀ j, r = some j → (k.proc j).state = .unused ∧
      k'.control = Function.update k.control j ((k.control j).allocated k.nextpid) ∧
      k'.nextpid = k.nextpid + 1 := by
  refine Ensures.bind (Ensures.get ?_)
  cases hj : k.findSlot fun p => p.state = .unused with
  | none => exact Ensures.pure ⟨fun _ => .full (Same.refl k), nofun⟩
  | some j =>
    have hu : (k.proc j).state = .unused := by simpa using findSlot_spec hj
    refine Ensures.bind (put_spec (Ensures.bind (Ensures.modify ?_)))
    -- the state in which the slot has its new identity
    generalize hp : ({ k.proc j with pid := k.nextpid, isThread := false, state := .used } : Proc) = p
    generalize hk₁ : ({ k.setProc j p with nextpid := (k.setProc j p).nextpid + 1 } : Kernel) = k₁
    have hc₁ : k₁.control = Function.update k.control j p.control := by
      rw [← hk₁]; exact control_setProc k j p
    have hp₁ : k₁.proc j = p := by rw [← hk₁]; exact setProc_self k j p
    have hn₁ : k₁.nextpid = k.nextpid + 1 := by rw [← hk₁]; rfl
    refine (allocPages_control j).mono ?_
    rintro r k' ⟨hn, hnone, hsome⟩
    rw [hn₁] at hn
    refine ⟨fun hr => .undone hu ?_ hn, fun j' hj' => ?_⟩
    · rw [hnone hr, hc₁, Function.update_idem]
    · obtain ⟨rfl, hc⟩ := hsome j' hj'
      refine ⟨hu, ?_, hn⟩
      rw [hc, hc₁, Function.update_idem, Function.update_self, hp₁, ← hp]
      rfl

theorem newproc_control (share : PageTable → PageTable → Nat → Vm (Bool × PageTable)) (isThread : Bool)
    (regs : Trapframe → Trapframe) :
    Ensures (newproc share isThread regs i) k fun v k' => Creates k k' v := by
  refine Ensures.bind (allocproc_control.mono ?_)
  rintro r k₁ ⟨hnone, hsome⟩
  cases r with
  | none => exact Ensures.pure (hnone rfl)
  | some j =>
    obtain ⟨hu, hc, hn⟩ := hsome j rfl
    refine Ensures.bind (getProc_spec (Ensures.bind (getProc_spec ?_)))
    refine Ensures.bind (Ensures.deref fun old _ => Ensures.bind (Ensures.deref fun new _ => ?_))
    refine Ensures.bind ((lift_same _).mono fun r k₂ h₂ => Ensures.bind (put_spec ?_))
    generalize hk₃ : k₂.setProc j { k₁.proc j with pagetable := some r.2 } = k₃
    have hp₃ : k₃.proc j = { k₁.proc j with pagetable := some r.2 } := by rw [← hk₃]; exact setProc_self ..
    have hn₃ : k₃.nextpid = k.nextpid + 1 := by rw [← hk₃]; exact h₂.nextpid.trans hn
    have hc₃ : k₃.control = Function.update k.control j ((k.control j).allocated k.nextpid) := by
      rw [← hk₃, control_setProc, h₂.control, hc, Function.update_idem]
      congr 1
      exact (congrFun hc j).trans (Function.update_self ..)
    have hj₃ : (k₃.proc j).control = (k.control j).allocated k.nextpid :=
      (congrFun hc₃ j).trans (Function.update_self ..)
    refine Ensures.ite (fun _ => ?_) fun _ => ?_
    · refine Ensures.bind (Ensures.deref fun tf _ => Ensures.bind (getProc_spec ?_))
      refine Ensures.bind (Ensures.deref fun tf' _ => Ensures.bind (put_spec (Ensures.pure ?_)))
      have hpid : (k₃.proc j).pid = k.nextpid := congrArg Control.pid hj₃
      refine Eq.subst (motive := fun v => Creates k _ v) hpid.symm (.born hu ?_ hn₃)
      rw [control_setProc, hc₃, Function.update_idem]
      congr 1
      exact congrArg (fun c : Control => { c with state := .runnable }) hj₃
    · refine Ensures.bind ((freeproc_control j).mono fun _ k' hf => Ensures.pure (.undone hu ?_ ?_))
      · rw [hf.1, hc₃, Function.update_idem]
      · rw [hf.2, hn₃]

/-! ## The other calls -/

theorem reparent_control (i : Slot) (k : Kernel) : (reparent i k).control = k.control := by
  funext j
  unfold control reparent
  dsimp only
  split
  · rfl
  · rfl

theorem kexit_control (status : Int) : Ensures (kexit i status) k fun _ k' =>
    k'.control = Function.update k.control i (k.control i).exited ∧ k'.nextpid = k.nextpid := by
  refine Ensures.bind (Ensures.get (Ensures.ite (fun _ => Ensures.fail) fun _ => ?_))
  refine Ensures.bind (Ensures.modify (Ensures.bind (getProc_spec (put_spec ⟨?_, rfl⟩))))
  rw [control_setProc, reparent_control]
  congr 1
  exact congrArg Control.exited (congrFun (reparent_control i k) i)

def Reaps (k k' : Kernel) : Prop :=
  Same k k' ∨ ∃ z, (k.proc z).state = .zombie ∧ k'.control = Function.update k.control z Control.zero ∧
    k'.nextpid = k.nextpid

theorem waitFor_control (hw : k.Wf) (wanted : Proc → Bool) (addr : Nat) (nohang : Bool) :
    Ensures (waitFor i wanted addr nohang) k fun _ k' => Reaps k k' := by
  refine Ensures.bind (Ensures.get ?_)
  cases hz : k.zombieChild i wanted with
  | some z =>
    have hstate := zombieChild_zombie hz
    have reap (ok : Bool) {k₁ : Kernel} (h : Same k k₁) : Ensures (if ok then do
          freeproc z
          pure (some (k.proc z).pid)
        else pure (some (-1))) k₁ fun _ k' => Reaps k k' := by
      refine Ensures.ite (fun _ => ?_) fun _ => Ensures.pure (Or.inl h)
      refine Ensures.bind ((freeproc_control z).mono fun _ k' hf => Ensures.pure (Or.inr ⟨z, hstate, ?_⟩))
      rw [← h.control, ← h.nextpid]
      exact hf
    refine Ensures.ite (fun _ => Ensures.bind (Ensures.pure (reap _ (Same.refl k)))) fun _ => ?_
    refine Ensures.bind ((update_same ?_).mono fun ok k₁ h₁ => reap ok h₁)
    exact (Proc.copyout_spec (hw i) addr 4).mono fun _ _ h => h.2
  | none =>
    refine Ensures.ite (fun _ => Ensures.pure (Or.inl (Same.refl k))) fun _ => ?_
    exact Ensures.ite (fun _ => Ensures.pure (Or.inl (Same.refl k))) fun _ =>
      Ensures.pure (Or.inl (Same.refl k))

inductive Change (k : Kernel) (i : Slot) (k' : Kernel) : Call → Outcome → Prop
  | same {c : Call} {r : Outcome} (h : Same k k') (hc : ∀ n f, c ≠ .alarm n f) (hr : c ≠ .alarmReturn) :
      Change k i k' c r
  | creates {c : Call} {v : Int} (hc : c = .fork ∨ ∃ fcn arg stack, c = .clone fcn arg stack)
      (h : Creates k k' v) : Change k i k' c (.ret v)
  | exits {status : Int} (h : k'.control = Function.update k.control i (k.control i).exited)
      (hn : k'.nextpid = k.nextpid) : Change k i k' (.exit status) .gone
  | reaps {c : Call} {r : Outcome} (hc : (∃ addr, c = .wait addr) ∨ ∃ pid addr opt, c = .waitpid pid addr opt)
      (h : Reaps k k') : Change k i k' c r
  | kills {pid : Int} {j : Slot} (hj : (k.proc j).pid = pid)
      (h : k'.control = Function.update k.control j (k.control j).marked)
      (hn : k'.nextpid = k.nextpid) : Change k i k' (.kill pid) (.ret 0)
  | alarm {n : Int} {f : Word} (h : k'.control = Function.update k.control i ((k.control i).alarm n f))
      (hn : k'.nextpid = k.nextpid) : Change k i k' (.alarm n f) (.ret 0)
  | returns {saved : Frame} (hb : (k.proc i).alarmTrapframe = some saved)
      (h : k'.control = Function.update k.control i (k.control i).returned)
      (hn : k'.nextpid = k.nextpid) : Change k i k' .alarmReturn (.ret 0)

theorem call_control (hw : k.Wf) (c : Call) : Ensures (call i c) k fun r k' => Change k i k' c r := by
  have grown {f : Proc → Vm (Int × Proc)} {c : Call} (hc : ∀ n f, c ≠ .alarm n f) (hr : c ≠ .alarmReturn)
      (hf : Ensures (f (k.proc i)) k.freelist fun r _ => Proc.Remaps (k.proc i) r.2) :
      Ensures (do return .ret (← update i f)) k fun r k' => Change k i k' c r :=
    Ensures.bind ((update_same hf).mono fun _ _ h => Ensures.pure (.same h hc hr))
  cases c with
  | fork =>
    exact Ensures.bind ((newproc_control _ _ _).mono fun _ _ h => Ensures.pure (.creates (Or.inl rfl) h))
  | exit status => exact Ensures.bind ((kexit_control status).mono fun _ _ h => Ensures.pure (.exits h.1 h.2))
  | wait addr =>
    refine Ensures.bind ((waitFor_control hw _ addr _).mono fun _ _ h => Ensures.pure ?_)
    exact .reaps (Or.inl ⟨addr, rfl⟩) h
  | kill pid =>
    refine Ensures.bind (Ensures.bind (Ensures.get ?_))
    cases hj : k.findSlot fun p => p.pid = pid with
    | none => exact Ensures.pure (Ensures.pure (.same (Same.refl k) nofun nofun))
    | some j =>
      have hpid : (k.proc j).pid = pid := by simpa using findSlot_spec hj
      refine Ensures.bind (put_spec (Ensures.pure (Ensures.pure (.kills hpid ?_ rfl))))
      exact control_setProc ..
  | exec img args =>
    exact grown nofun nofun ((Proc.sysExec_spec (hw i) img args).mono fun _ _ h => h.2.2)
  | sbrk n t =>
    refine grown nofun nofun ?_
    by_cases hn : n < 0
    · exact (Proc.sysSbrk_shrinks (hw i) t hn).mono fun _ _ h => h.2
    · exact (Proc.sysSbrk_grows (hw i) t (by omega)).mono fun _ _ h => h.2
  | waitpid pid addr options =>
    refine Ensures.bind ((waitFor_control hw _ addr _).mono fun _ _ h => Ensures.pure ?_)
    exact .reaps (Or.inr ⟨pid, addr, options, rfl⟩) h
  | clone fcn arg stack =>
    refine Ensures.bind ((newproc_control _ _ _).mono fun _ _ h => Ensures.pure (.creates (Or.inr ?_) h))
    exact ⟨fcn, arg, stack, rfl⟩
  | alarm interval handler =>
    refine Ensures.bind (getProc_spec (Ensures.bind (put_spec (Ensures.pure (.alarm ?_ rfl)))))
    exact control_setProc ..
  | alarmReturn =>
    refine Ensures.bind (Ensures.bind (getProc_spec (Ensures.bind (Ensures.deref fun tf _ => ?_))))
    refine Ensures.bind (Ensures.deref fun saved hs => Ensures.bind ((lift_same _).mono fun _ k₁ h₁ => ?_))
    refine Ensures.bind (put_spec (Ensures.bind (Ensures.modify (Ensures.pure (Ensures.pure ?_)))))
    refine .returns hs ?_ h₁.nextpid
    exact (control_setProc ..).trans (by rw [h₁.control]; rfl)
  | other r touch =>
    refine Ensures.bind ((update_same ((Proc.touchAll_spec (hw i) touch).mono fun _ _ h => h.2)).mono ?_)
    exact fun _ _ h => Ensures.pure (.same h nofun nofun)
  | unknown => exact Ensures.pure (.same (Same.refl k) nofun nofun)

/-- The call started in a state that differs from `k` in memory and registers. -/
theorem Change.of_same {k₀ : Kernel} {c : Call} {r : Outcome} (hs : Same k k₀) (h : Change k₀ i k' c r) :
    Change k i k' c r := by
  have hj : ∀ j, (k₀.proc j).control = (k.proc j).control := congrFun hs.control
  have hst : ∀ j, (k₀.proc j).state = (k.proc j).state := fun j => congrArg Control.state (hj j)
  cases h with
  | same h hc hr => exact .same (hs.trans h) hc hr
  | creates hc h =>
    refine .creates hc ?_
    cases h with
    | full h => exact .full (hs.trans h)
    | undone hu h hn => exact .undone (hst _ ▸ hu) (hs.control ▸ h) (hs.nextpid ▸ hn)
    | born hu h hn => exact hs.nextpid ▸ .born (hst _ ▸ hu) (hs.nextpid ▸ hs.control ▸ h) (hs.nextpid ▸ hn)
  | exits h hn => exact .exits (hs.control ▸ h) (hs.nextpid ▸ hn)
  | reaps hc h =>
    refine .reaps hc (h.imp hs.trans ?_)
    rintro ⟨z, hz, h, hn⟩
    exact ⟨z, hst z ▸ hz, hs.control ▸ h, hs.nextpid ▸ hn⟩
  | kills hp h hn =>
    exact .kills ((congrArg Control.pid (hj _)).symm.trans hp) (hs.control ▸ h) (hs.nextpid ▸ hn)
  | alarm h hn => exact .alarm (hs.control ▸ h) (hs.nextpid ▸ hn)
  | returns hb h hn =>
    exact .returns ((congrArg Control.alarmTrapframe (hj i)).symm.trans hb) (hs.control ▸ h) (hs.nextpid ▸ hn)

/-! ## Traps -/

theorem setRegs_same (f : Trapframe → Trapframe) : Ensures (setRegs i f) k fun _ k' =>
    Same k k' ∧ k'.freelist = k.freelist ∧ ∃ tf, (k.proc i).trapframe = some tf ∧
      (k'.proc i).trapframe = some { tf with regs := f tf.regs } := by
  refine Ensures.bind (getProc_spec (Ensures.bind (Ensures.deref fun tf htf => put_spec ?_)))
  exact ⟨put_same rfl, rfl, tf, htf, congrArg Proc.trapframe (setProc_self ..)⟩

def regs (k : Kernel) (i : Slot) : Option Trapframe := (k.proc i).trapframe.map Frame.regs

inductive Ticks (k : Kernel) (i : Slot) (user : Trapframe) (k' : Kernel) : Prop
  | idle (hi : ¬((k.proc i).alarmInterval > 0 ∧ (k.proc i).alarmActive = false))
      (h : k'.control = k.control) (hr : k'.regs i = some user)
  | counts (hi : (k.proc i).alarmInterval > 0) (ha : (k.proc i).alarmActive = false)
      (ht : (k.proc i).alarmTicks + 1 < (k.proc i).alarmInterval)
      (h : k'.control = Function.update k.control i
        { k.control i with alarmTicks := (k.proc i).alarmTicks + 1 }) (hr : k'.regs i = some user)
  | starved (hi : (k.proc i).alarmInterval > 0) (ha : (k.proc i).alarmActive = false)
      (ht : (k.proc i).alarmInterval ≤ (k.proc i).alarmTicks + 1) (hf : k.freelist = [])
      (h : k'.control = Function.update k.control i
        { k.control i with alarmTicks := (k.proc i).alarmTicks + 1, alarmTrapframe := none })
      (hr : k'.regs i = some user)
  | fires (pa : Page) (hi : (k.proc i).alarmInterval > 0) (ha : (k.proc i).alarmActive = false)
      (ht : (k.proc i).alarmInterval ≤ (k.proc i).alarmTicks + 1)
      (h : k'.control = Function.update k.control i
        { k.control i with alarmTicks := 0, alarmTrapframe := some ⟨pa, user⟩, alarmActive := true })
      (hr : k'.regs i = some { user with epc := (k.proc i).alarmHandler })

theorem alarmTick_control {tf : Frame} (htf : (k.proc i).trapframe = some tf) :
    Ensures (alarmTick i) k fun _ k' => Ticks k i tf.regs k' ∧ k'.nextpid = k.nextpid := by
  refine Ensures.bind (getProc_spec (Ensures.ite (fun hc => ?_) fun hc => Ensures.pure ⟨?_, rfl⟩))
  · refine Ensures.bind (put_spec ?_)
    generalize hk₁ : k.setProc i { k.proc i with alarmTicks := (k.proc i).alarmTicks + 1 } = k₁
    have hp₁ : k₁.proc i = { k.proc i with alarmTicks := (k.proc i).alarmTicks + 1 } := by
      rw [← hk₁]; exact setProc_self ..
    have hf₁ : k₁.freelist = k.freelist := by rw [← hk₁]; rfl
    have hn₁ : k₁.nextpid = k.nextpid := by rw [← hk₁]; rfl
    have hc₁ : k₁.control = Function.update k.control i
        { k.control i with alarmTicks := (k.proc i).alarmTicks + 1 } := by
      rw [← hk₁]; exact control_setProc ..
    refine Ensures.ite (fun ht => ?_) fun ht => Ensures.pure ⟨.counts hc.1 hc.2 (by omega) hc₁ ?_, hn₁⟩
    · refine Ensures.bind (getProc_spec (Ensures.bind (Ensures.deref fun tf' htf' => ?_)))
      obtain rfl : tf = tf' := by
        rw [hp₁] at htf'
        exact Option.some.inj (htf.symm.trans htf')
      refine Ensures.bind (lift_spec ?_)
      cases hf : k.freelist with
      | nil =>
        rw [hf₁, hf]
        refine Ensures.pure (put_spec ⟨.starved hc.1 hc.2 ht hf ?_ ?_, hn₁⟩)
        · refine (control_setProc ..).trans ?_
          change Function.update k₁.control i _ = _
          rw [hc₁, Function.update_idem, hp₁]
          rfl
        · unfold regs
          rw [setProc_self]
          change (k₁.proc i).trapframe.map _ = _
          rw [htf']
          rfl
      | cons pa free =>
        rw [hf₁, hf]
        refine Ensures.pure (Ensures.bind (put_spec (Ensures.modify ⟨.fires pa hc.1 hc.2 ht ?_ ?_, hn₁⟩)))
        · refine (control_setProc ..).trans ?_
          change Function.update k₁.control i _ = _
          rw [hc₁, Function.update_idem, hp₁]
          rfl
        · unfold regs
          change ((Kernel.setProc _ i _).proc i).trapframe.map _ = _
          rw [setProc_self, hp₁]
          rfl
    · unfold regs
      rw [hp₁]
      exact congrArg (Option.map Frame.regs) htf
  · exact .idle hc rfl (congrArg (Option.map Frame.regs) htf)

theorem Ticks.sets {user : Trapframe} (h : Ticks k i user k') : ∃ x, k'.control = Function.update k.control i x ∧
    x.state = (k.control i).state ∧ x.pid = (k.control i).pid ∧ x.killed = (k.control i).killed := by
  cases h with
  | idle _ h _ => exact ⟨_, h.trans (Function.update_eq_self ..).symm, rfl, rfl, rfl⟩
  | counts _ _ _ h _ => exact ⟨_, h, rfl, rfl, rfl⟩
  | starved _ _ _ _ h _ => exact ⟨_, h, rfl, rfl, rfl⟩
  | fires _ _ _ _ h _ => exact ⟨_, h, rfl, rfl, rfl⟩

theorem Ticks.of_same {k₀ : Kernel} {user : Trapframe} (hs : Same k k₀) (hf : k₀.freelist = k.freelist)
    (h : Ticks k₀ i user k') : Ticks k i user k' := by
  have hi : (k₀.proc i).control = (k.proc i).control := congrFun hs.control i
  have hint : (k₀.proc i).alarmInterval = (k.proc i).alarmInterval := congrArg Control.alarmInterval hi
  have htick : (k₀.proc i).alarmTicks = (k.proc i).alarmTicks := congrArg Control.alarmTicks hi
  have hact : (k₀.proc i).alarmActive = (k.proc i).alarmActive := congrArg Control.alarmActive hi
  have hhan : (k₀.proc i).alarmHandler = (k.proc i).alarmHandler := congrArg Control.alarmHandler hi
  cases h with
  | idle h hc hr => exact .idle (hint ▸ hact ▸ h) (hc.trans hs.control) hr
  | counts h ha ht hc hr =>
    rw [hint] at h ht
    rw [htick] at ht hc
    exact .counts h (hact ▸ ha) ht (hs.control ▸ hc) hr
  | starved h ha ht hn hc hr =>
    rw [hint] at h ht
    rw [htick] at ht hc
    exact .starved h (hact ▸ ha) ht (hf ▸ hn) (hs.control ▸ hc) hr
  | fires pa h ha ht hc hr =>
    rw [hint] at h ht
    rw [htick] at ht
    exact .fires pa h (hact ▸ ha) ht (hs.control ▸ hc) (hhan ▸ hr)

inductive Leaves (k : Kernel) (i : Slot) (r : Outcome) (k' : Kernel) : Outcome → Prop
  | goes (h : Same k k') (hk : (∃ v, r = .ret v) → (k.proc i).killed = false) : Leaves k i r k' r
  | exits (hk : (k.proc i).killed = true) (h : k'.control = Function.update k.control i (k.control i).exited)
      (hn : k'.nextpid = k.nextpid) : Leaves k i r k' .gone

inductive Trapped (k : Kernel) (t : Trap) (k' : Kernel) : Outcome → Prop
  | call {io : Io} {k₁ : Kernel} {r r' : Outcome} (hc : t.cause = .ecall io)
      (hk : (k.proc t.i).killed = false) (h : Change k t.i k₁ (decode t.user io) r)
      (he : Leaves k₁ t.i r k' r') : Trapped k t k' r'
  | dies (hc : (k.proc t.i).killed = true ∨ t.cause = .other ∨ ∃ va, t.cause = .fault va)
      (h : k'.control = Function.update k.control t.i { (k.control t.i).exited with killed := true })
      (hn : k'.nextpid = k.nextpid) : Trapped k t k' .gone
  | quiet {r : Outcome} (hc : t.cause = .device ∨ ∃ va, t.cause = .fault va) (h : Same k k') : Trapped k t k' r
  | ticks {r : Outcome} (hc : t.cause = .timer) (hk : (k.proc t.i).killed = false)
      (h : Ticks k t.i t.user k') (hn : k'.nextpid = k.nextpid) : Trapped k t k' r

theorem exit_leaves (hk : (k.proc i).killed = true) (r : Outcome) :
    Ensures (do kexit i (-1); pure Outcome.gone) k fun r' k' => Leaves k i r k' r' :=
  Ensures.bind ((kexit_control (-1)).mono fun _ _ h => Ensures.pure (.exits hk h.1 h.2))

def Marked (k : Kernel) (i : Slot) (k' : Kernel) : Prop :=
  k'.control = Function.update k.control i { k.control i with killed := true } ∧ k'.nextpid = k.nextpid

theorem Same.marked (h : Same k k') (hk : (k'.proc i).killed = true) : Marked k i k' := by
  refine ⟨?_, h.nextpid⟩
  have hi : k.control i = { k.control i with killed := true } := by
    rw [← h.control]
    change (k'.proc i).control = { (k'.proc i).control with killed := true }
    rw [← hk]
    rfl
  rw [← hi, Function.update_eq_self, h.control]

theorem Marked.killed (h : Marked k i k') : (k'.proc i).killed = true := by
  change (k'.control i).killed = true
  rw [h.1, Function.update_self]

theorem Marked.dies {t : Trap} {r : Outcome} (h : Marked k t.i k₁)
    (hc : (k.proc t.i).killed = true ∨ t.cause = .other ∨ ∃ va, t.cause = .fault va)
    (he : Leaves k₁ t.i (.ret 0) k' r) : Trapped k t k' r := by
  cases he with
  | goes _ hk =>
    have := h.killed
    rw [hk ⟨0, rfl⟩] at this
    cases this
  | exits _ hx hn =>
    refine .dies hc ?_ (hn.trans h.2)
    rw [hx, h.1, Function.update_self, Function.update_idem]
    rfl

theorem setKilled_marked (h : Same k k₁) : Ensures (do
      let p ← getProc i
      put i { p with killed := true }
      pure (Outcome.ret 0)) k₁ fun r k' => r = .ret 0 ∧ Marked k i k' := by
  refine Ensures.bind (getProc_spec (Ensures.bind (put_spec (Ensures.pure ⟨rfl, ?_, h.nextpid⟩))))
  rw [control_setProc, ← h.control]
  rfl

theorem cause_control (hw : k₁.Wf) (h₁ : Same k k₁) {c : Cause} (hc : ∀ io, c ≠ .ecall io) :
    Ensures (cause i c) k₁ fun r k' => r = .ret 0 ∧
      ((Same k k' ∧ c ≠ .other) ∨ (Marked k i k' ∧ (c = .other ∨ ∃ va, c = .fault va))) := by
  cases c with
  | ecall io => exact absurd rfl (hc io)
  | fault va =>
    refine Ensures.bind ((update_same ((Proc.vmfault_spec (hw i) va).mono fun _ _ h => h.2)).mono ?_)
    intro ok k₂ h₂
    refine Ensures.ite (fun _ => Ensures.pure ⟨rfl, Or.inl ⟨h₁.trans h₂, nofun⟩⟩) fun _ => ?_
    exact (setKilled_marked (h₁.trans h₂)).mono fun _ _ h => ⟨h.1, Or.inr ⟨h.2, Or.inr ⟨va, rfl⟩⟩⟩
  | timer => exact Ensures.pure ⟨rfl, Or.inl ⟨h₁, nofun⟩⟩
  | device => exact Ensures.pure ⟨rfl, Or.inl ⟨h₁, nofun⟩⟩
  | other => exact (setKilled_marked h₁).mono fun _ _ h => ⟨h.1, Or.inr ⟨h.2, Or.inl rfl⟩⟩

theorem syscall_control (hw : k.Wf) (user : Trapframe) {tf : Frame} (io : Io) (htf : (k.proc i).trapframe = some tf)
    (hu : tf.regs.reg = user.reg) : Ensures (syscall i io) k fun r k' =>
      ∃ k₁, Change k i k₁ (decode user io) r ∧ Same k₁ k' := by
  refine Ensures.bind (getProc_spec (Ensures.bind (Ensures.deref fun tf' htf' => ?_)))
  obtain rfl : tf = tf' := Option.some.inj (htf.symm.trans htf')
  have hd : decode tf.regs io = decode user io := by
    unfold decode argint argaddr
    rw [hu]
  rw [hd]
  refine Ensures.bind ((call_control hw _).mono fun r k₁ h₁ => ?_)
  cases r with
  | ret v => exact Ensures.bind ((setRegs_same _).mono fun _ _ h => Ensures.pure ⟨k₁, h₁, h.1⟩)
  | gone => exact Ensures.pure ⟨k₁, h₁, Same.refl k₁⟩
  | asleep => exact Ensures.pure ⟨k₁, h₁, Same.refl k₁⟩

theorem usertrap_control (hw : k.Wf) (t : Trap) :
    Ensures (usertrap t.i t.user t.cause) k fun r k' => Trapped k t k' r := by
  obtain ⟨i, user, c⟩ := t
  refine Ensures.bind (((setRegs_same _).and (setRegs_spec wf_blind.stable hw _)).mono ?_)
  rintro _ k₁ ⟨⟨h₁, hf₁, tf, -, htf₁⟩, hw₁, -⟩
  have hkilled : (k₁.proc i).killed = (k.proc i).killed := congrArg Control.killed (congrFun h₁.control i)
  -- a process that was marked before the trap
  have dead {k₂ k' : Kernel} {r : Outcome} (h₂ : Same k k₂) (hk : (k₂.proc i).killed = true)
      (h : Leaves k₂ i (.ret 0) k' r) : Trapped k ⟨i, user, c⟩ k' r := by
    refine (h₂.marked hk).dies (Or.inl ?_) h
    exact (congrArg Control.killed (congrFun h₂.control i)).symm.trans hk
  cases c with
  | ecall io =>
    have hcause : Ensures (cause i (.ecall io)) k₁ fun r k' =>
        (∃ k₂, (k₁.proc i).killed = false ∧ Change k i k₂ (decode user io) r ∧ Same k₂ k') ∨
        (r = .gone ∧ Trapped k ⟨i, user, .ecall io⟩ k' r) := by
      refine Ensures.bind (getProc_spec (Ensures.ite (fun hk => ?_) fun hk => ?_))
      · refine Ensures.bind ((kexit_control (-1)).mono fun _ k' h => Ensures.pure (Or.inr ⟨rfl, ?_⟩))
        exact dead h₁ hk (.exits hk h.1 h.2)
      · refine Ensures.bind (((setRegs_same _).and (setRegs_spec wf_blind.stable hw₁ _)).mono ?_)
        rintro _ k₂ ⟨⟨h₂, -, tf₂, htf₂, htf₂'⟩, hw₂, -⟩
        obtain rfl := Option.some.inj (htf₁.symm.trans htf₂)
        refine (syscall_control hw₂ user io htf₂' rfl).mono ?_
        rintro r k' ⟨k₃, h₃, hs⟩
        exact Or.inl ⟨k₃, by simpa using hk, h₃.of_same (h₁.trans h₂), hs⟩
    refine Ensures.bind (hcause.mono fun r k' h => ?_)
    rcases h with ⟨k₂, hk, h₂, hs⟩ | ⟨rfl, h⟩
    · rw [hkilled] at hk
      have hi : (k'.proc i).killed = (k₂.proc i).killed := congrArg Control.killed (congrFun hs.control i)
      cases r with
      | ret v =>
        refine Ensures.bind (getProc_spec (Ensures.ite (fun hd => ?_) fun hd => ?_))
        · refine Ensures.bind ((kexit_control (-1)).mono fun _ _ h => Ensures.pure (.call rfl hk h₂ ?_))
          exact .exits (hi ▸ hd) (hs.control ▸ h.1) (h.2.trans hs.nextpid)
        · refine Ensures.bind (Ensures.pure (Ensures.pure (.call rfl hk h₂ (.goes hs fun _ => ?_))))
          rw [← hi]
          simpa using hd
      | gone => exact Ensures.pure (.call rfl hk h₂ (.goes hs nofun))
      | asleep => exact Ensures.pure (.call rfl hk h₂ (.goes hs nofun))
    · exact Ensures.pure h
  | timer =>
    refine Ensures.bind (Ensures.pure (Ensures.bind (getProc_spec (Ensures.ite (fun hk => ?_) fun hk => ?_))))
    · exact (exit_leaves hk (.ret 0)).mono fun _ _ h => dead h₁ hk h
    · refine Ensures.bind ((alarmTick_control htf₁).mono fun _ k' h => Ensures.pure ?_)
      exact .ticks rfl (hkilled ▸ by simpa using hk) (h.1.of_same h₁ hf₁) (h.2.trans h₁.nextpid)
  | _ =>
    refine Ensures.bind ((cause_control hw₁ h₁ fun io h => (by cases h)).mono ?_)
    rintro _ k₂ ⟨rfl, h₂⟩
    refine Ensures.bind (getProc_spec (Ensures.ite (fun hk => ?_) fun hk => ?_))
    · refine (exit_leaves hk (.ret 0)).mono fun _ _ h => ?_
      rcases h₂ with h₂ | h₂
      · exact dead h₂.1 hk h
      · exact h₂.1.dies (Or.inr h₂.2) h
    · refine Ensures.bind (Ensures.pure (Ensures.pure ?_))
      rcases h₂ with h₂ | h₂
      · exact .quiet (by simp_all) h₂.1
      · exact absurd h₂.1.killed hk

theorem step_control {t : Trap} (hw : k.Wf) (h : step k t = some k') :
    ∃ r, usertrap t.i t.user t.cause k = .ok (r, k') ∧ Trapped k t k' r := by
  unfold step at h
  split at h
  · split at h
    · cases h; exact ⟨_, ‹_›, usertrap_control hw t _ _ ‹_›⟩
    · cases h; exact ⟨_, ‹_›, usertrap_control hw t _ _ ‹_›⟩
    · cases h
  · cases h

theorem Change.nextpid_le {c : Call} {r : Outcome} (h : Change k i k' c r) : k.nextpid ≤ k'.nextpid := by
  cases h with
  | same h _ _ => exact h.nextpid.ge
  | creates _ h =>
    cases h with
    | full h => exact h.nextpid.ge
    | undone _ _ hn => omega
    | born _ _ hn => omega
  | reaps _ h => exact h.elim (fun h => h.nextpid.ge) fun ⟨_, _, _, hn⟩ => hn.ge
  | exits _ hn => exact hn.ge
  | kills _ _ hn => exact hn.ge
  | alarm _ hn => exact hn.ge
  | returns _ _ hn => exact hn.ge

theorem Trapped.nextpid_le {t : Trap} {r : Outcome} (h : Trapped k t k' r) : k.nextpid ≤ k'.nextpid := by
  cases h with
  | call _ _ h he =>
    refine h.nextpid_le.trans ?_
    cases he with
    | goes hs _ => exact hs.nextpid.ge
    | exits _ _ hn => exact hn.ge
  | dies _ _ hn => exact hn.ge
  | quiet _ h => exact h.nextpid.ge
  | ticks _ _ _ hn => exact hn.ge

end Kernel

end OsLab
