import OsLab.KernelSound

/-!
# Traps and runs

Every trap keeps a stable property, provided that its `exec`, its shrinking
`sbrk`, its reaping of a zombie and its alarm functions do. So a property of all
states of a run is proved from these functions.
-/

namespace OsLab

open Mach

namespace Kernel

variable {k k' k₁ : Kernel} {i j : Slot} {q : Proc}

/-! ## States that differ in registers only -/

def RegsOnly (k k' : Kernel) : Prop := ∀ j, ∃ tf, k'.proc j = { k.proc j with trapframe := tf }

theorem RegsOnly.trans (h : RegsOnly k k₁) (h' : RegsOnly k₁ k') : RegsOnly k k' := by
  intro j
  obtain ⟨tf, hj⟩ := h j
  obtain ⟨tf', hj'⟩ := h' j
  exact ⟨tf', by rw [hj', hj]⟩

theorem RegsOnly.maps (h : RegsOnly k k') (j : Slot) (x : Page) :
    (k'.proc j).Maps x ↔ (k.proc j).Maps x := by
  obtain ⟨tf, hj⟩ := h j
  rw [hj]
  exact Iff.rfl

theorem RegsOnly.zombieChild (h : RegsOnly k k') {wanted : Proc → Bool}
    (ht : ∀ p tf, wanted { p with trapframe := tf } = wanted p) :
    k'.zombieChild i wanted = k.zombieChild i wanted := by
  unfold Kernel.zombieChild findSlot
  congr 1
  funext j
  obtain ⟨tf, hj⟩ := h j
  rw [hj]
  dsimp only
  rw [ht]

def reaped (k : Kernel) (i : Slot) : Call → Option Slot
  | .wait _ => k.zombieChild i fun _ => true
  | .waitpid pid _ _ => k.zombieChild i (isTarget pid)
  | _ => none

theorem zombieChild_zombie {wanted : Proc → Bool} {z : Slot}
    (h : k.zombieChild i wanted = some z) : (k.proc z).state = .zombie := by
  have := findSlot_spec h
  simp only [Bool.decide_and, Bool.and_eq_true, decide_eq_true_eq] at this
  exact this.2.2

theorem reaped_zombie {c : Call} {z : Slot} (h : k.reaped i c = some z) :
    (k.proc z).state = .zombie := by
  cases c with
  | wait addr => exact zombieChild_zombie h
  | waitpid pid addr options => exact zombieChild_zombie h
  | _ => cases h

theorem RegsOnly.reaped (h : RegsOnly k k') (c : Call) : k'.reaped i c = k.reaped i c := by
  cases c with
  | wait addr => exact h.zombieChild fun _ _ => rfl
  | waitpid pid addr options => exact h.zombieChild fun _ _ => rfl
  | _ => rfl

section
variable {I : Kernel → Prop} (hI : Stable I)
include hI

theorem setRegs_spec (h : I k) (f : Trapframe → Trapframe) :
    Ensures (setRegs i f) k fun _ k' => I k' ∧ RegsOnly k k' ∧
      ∃ tf, (k.proc i).trapframe = some tf ∧
        (k'.proc i).trapframe = some { tf with regs := f tf.regs } := by
  refine Ensures.bind (getProc_spec (Ensures.bind (Ensures.deref fun tf htf => put_spec ?_)))
  have hw := hI.wf h i
  have hhold := Proc.setRegs_hold (f tf.regs) htf
  refine ⟨hI.put h (hw.congr (congrArg Holder.mir hhold) rfl rfl rfl ?_ ?_) rfl hhold,
    fun j => ?_, tf, htf, ?_⟩
  · exact fun hu => absurd hu (hw.used htf)
  · exact fun hl => ⟨Option.some_ne_none _, (hw.live hl).2⟩
  · by_cases hj : j = i
    · subst hj
      exact ⟨some { tf with regs := f tf.regs }, Function.update_self ..⟩
    · exact ⟨(k.proc j).trapframe, Function.update_of_ne hj ..⟩
  · change (Function.update k.proc i _ i).trapframe = _
    rw [Function.update_self]

/-! ## Waiting -/

theorem waitFor_spec (h : I k) (hs : (k.proc i).state ≠ .zombie) (wanted : Proc → Bool)
    (addr : Nat) (nohang : Bool)
    (hreap : ∀ z, k.zombieChild i wanted = some z → z ≠ i →
      ∀ k', I k' → Pool.Grows k.pool k'.pool i → k'.proc z = k.proc z →
        Ensures (freeproc z) k' fun _ k'' => I k'') :
    Ensures (waitFor i wanted addr nohang) k fun _ k' => I k' := by
  refine Ensures.bind (Ensures.get ?_)
  cases hz : k.zombieChild i wanted with
  | some z =>
    have hzi : z ≠ i := by
      rintro rfl
      exact hs (zombieChild_zombie hz)
    -- the zombie is reaped after the status has been copied out
    have reap (ok : Bool) {k' : Kernel} (h' : I k') (hg : Pool.Grows k.pool k'.pool i)
        (hk' : k'.proc z = k.proc z) :
        Ensures (if ok then do
            freeproc z
            pure (some (k.proc z).pid)
          else pure (some (-1))) k' fun _ k'' => I k'' := by
      refine Ensures.ite (fun _ => ?_) fun _ => Ensures.pure h'
      exact Ensures.bind ((hreap z hz hzi k' h' hg hk').mono fun _ _ h'' => Ensures.pure h'')
    refine Ensures.ite (fun _ => ?_) fun _ => ?_
    · exact Ensures.bind (Ensures.pure (reap _ h ⟨⟨fun _ _ => rfl, rfl⟩, le_rfl, rfl⟩ rfl))
    · have hw := hI.wf h
      refine Ensures.bind ((update_grows hw (Proc.copyout_spec (hw i) addr 4)).mono ?_)
      rintro ok k' ⟨hw', hq, hg, ho⟩
      exact reap ok (hI.grows h hw' hq hg) hg (ho z hzi)
  | none =>
    refine Ensures.ite (fun _ => Ensures.pure h) fun _ => ?_
    exact Ensures.ite (fun _ => Ensures.pure h) fun _ => Ensures.pure h

/-! ## Calls -/

theorem call_spec (h : I k) (hs : (k.proc i).state ≠ .zombie) (c : Call)
    (hexec : ∀ img args, c = .exec img args →
      Ensures (update i fun p => p.sysExec img args) k fun _ k' => I k')
    (hsbrk : ∀ n t, c = .sbrk n t → n < 0 →
      Ensures (update i fun p => p.sysSbrk n t) k fun _ k' => I k')
    (hreap : ∀ z, k.reaped i c = some z → z ≠ i → ∀ k', I k' → Pool.Grows k.pool k'.pool i →
      k'.proc z = k.proc z → Ensures (freeproc z) k' fun _ k'' => I k'')
    (halarm : ∀ n f, c = .alarm n f → I (k.setProc i ((k.proc i).sysAlarm n f)))
    (hreturn : c = .alarmReturn → Ensures (alarmReturn i) k fun _ k' => I k') :
    Ensures (call i c) k fun _ k' => I k' := by
  have ret {α : Type} {x : Km α} (f : α → Outcome) (hx : Ensures x k fun _ k' => I k') :
      Ensures (do return f (← x)) k fun _ k' => I k' :=
    Ensures.bind (hx.mono fun _ _ h' => Ensures.pure h')
  have hw := hI.wf h
  cases c with
  | fork => exact ret _ (newproc_spec hI uvmcopy_shares h)
  | exit status => exact Ensures.bind ((kexit_spec hI h status).mono fun _ _ h' => Ensures.pure h')
  | wait addr => exact ret _ (waitFor_spec hI h hs _ addr false hreap)
  | kill pid => exact ret _ (kkill_spec hI h pid)
  | exec img args => exact ret _ (hexec img args rfl)
  | sbrk n t =>
    by_cases hn : n < 0
    · exact ret _ (hsbrk n t rfl hn)
    · exact ret _ (update_keeps hI h (Proc.sysSbrk_grows (hw i) t (by omega)))
  | waitpid pid addr options =>
    exact ret _ (waitFor_spec hI h hs _ addr _ hreap)
  | clone fcn arg stack => exact ret _ (newproc_spec hI uvmmirror_shares h)
  | alarm interval handler =>
    exact Ensures.bind (getProc_spec (Ensures.bind (put_spec (Ensures.pure
      (halarm interval handler rfl)))))
  | alarmReturn => exact ret _ (hreturn rfl)
  | other r touch =>
    exact Ensures.bind ((update_keeps hI h (Proc.touchAll_spec (hw i) touch)).mono fun _ _ h' => Ensures.pure h')
  | unknown => exact Ensures.pure h

/-! ## Traps -/

theorem syscall_spec {tf : Frame} {io : Io} (htf : (k.proc i).trapframe = some tf)
    (hcall : Ensures (call i (decode tf.regs io)) k fun _ k' => I k') :
    Ensures (syscall i io) k fun _ k' => I k' := by
  refine Ensures.bind (getProc_spec (Ensures.bind (Ensures.deref fun tf' htf' => ?_)))
  obtain rfl : tf = tf' := Option.some.inj (htf.symm.trans htf')
  refine Ensures.bind (hcall.mono fun r k' h' => ?_)
  cases r with
  | ret v =>
    exact Ensures.bind ((setRegs_spec hI h' _).mono fun _ _ h'' => Ensures.pure h''.1)
  | gone => exact Ensures.pure h'
  | asleep => exact Ensures.pure h'

theorem setKilled_spec (h : I k) (r : Outcome) :
    Ensures (do let p ← getProc i; put i { p with killed := true }; pure r) k
      fun _ k' => I k' := by
  refine Ensures.bind (getProc_spec (Ensures.bind (put_spec (Ensures.pure ?_))))
  exact hI.put h ((hI.wf h i).congr rfl rfl rfl rfl (hI.wf h i).unused (hI.wf h i).live) rfl rfl

theorem cause_spec {tf : Frame} (h : I k) (htf : (k.proc i).trapframe = some tf) (c : Cause)
    (hcall : ∀ io, c = .ecall io → ∀ k₁, I k₁ → RegsOnly k k₁ →
      Ensures (call i (decode tf.regs io)) k₁ fun _ k' => I k') :
    Ensures (cause i c) k fun _ k' => I k' := by
  cases c with
  | ecall io =>
    refine Ensures.bind (getProc_spec (Ensures.ite (fun _ => ?_) fun _ => ?_))
    · exact Ensures.bind ((kexit_spec hI h (-1)).mono fun _ _ h' => Ensures.pure h')
    · refine Ensures.bind ((setRegs_spec hI h _).mono ?_)
      rintro _ k₁ ⟨h₁, hr, tf', htf', htf₁⟩
      obtain rfl : tf = tf' := Option.some.inj (htf.symm.trans htf')
      exact syscall_spec hI htf₁ (hcall io rfl k₁ h₁ hr)
  | fault va =>
    refine Ensures.bind ((update_keeps hI h (Proc.vmfault_spec (hI.wf h i) va)).mono ?_)
    exact fun ok k' h' => Ensures.ite (fun _ => Ensures.pure h') fun _ => setKilled_spec hI h' _
  | timer => exact Ensures.pure h
  | device => exact Ensures.pure h
  | other => exact setKilled_spec hI h _

/-- A trap keeps a stable property if its system call and its alarm do. -/
theorem usertrap_spec (h : I k) (user : Trapframe) (c : Cause)
    (hcall : ∀ io, c = .ecall io → ∀ k₁, I k₁ → RegsOnly k k₁ →
      Ensures (call i (decode user io)) k₁ fun _ k' => I k')
    (htick : c = .timer → ∀ k₁, I k₁ → RegsOnly k k₁ →
      Ensures (alarmTick i) k₁ fun _ k' => I k') :
    Ensures (usertrap i user c) k fun _ k' => I k' := by
  refine Ensures.bind ((setRegs_spec hI h _).mono ?_)
  rintro _ k₁ ⟨h₁, hr₁, tf, -, htf₁⟩
  -- the check for `killed` after the cause has been dealt with
  have dead {k' : Kernel} (h' : I k') : Ensures (do kexit i (-1); pure Outcome.gone) k'
      fun _ k'' => I k'' :=
    Ensures.bind ((kexit_spec hI h' (-1)).mono fun _ _ h'' => Ensures.pure h'')
  by_cases hc : c = .timer
  · subst hc
    refine Ensures.bind (Ensures.pure (Ensures.bind (getProc_spec ?_)))
    refine Ensures.ite (fun _ => dead h₁) fun _ => ?_
    exact Ensures.bind ((htick rfl k₁ h₁ hr₁).mono fun _ _ h' => Ensures.pure h')
  · refine Ensures.bind ((cause_spec hI h₁ htf₁ c ?_).mono fun r k' h' => ?_)
    · exact fun io hio k₂ h₂ hr₂ => hcall io hio k₂ h₂ (hr₁.trans hr₂)
    · cases r with
      | gone => exact Ensures.pure h'
      | asleep => exact Ensures.pure h'
      | ret v =>
        refine Ensures.bind (getProc_spec (Ensures.ite (fun _ => dead h') fun _ => ?_))
        cases c with
        | timer => exact absurd rfl hc
        | _ => exact Ensures.bind (Ensures.pure (Ensures.pure h'))

omit hI in
theorem step_ensures {t : Trap} {Q : Kernel → Prop} (hstep : step k t = some k')
    (h : Ensures (usertrap t.i t.user t.cause) k fun _ k'' => Q k'') : Q k' := by
  unfold step at hstep
  split at hstep
  · split at hstep
    · cases hstep; exact h _ _ ‹_›
    · cases hstep; exact h _ _ ‹_›
    · cases hstep
  · cases hstep

omit hI in
theorem step_state {t : Trap} (hstep : step k t = some k') : (k.proc t.i).state ≠ .zombie := by
  unfold step at hstep
  split at hstep
  · rename_i h
    rcases h with h | h <;> rw [h] <;> exact nofun
  · cases hstep

/-- The parts of a trap that give up pages keep `I`. -/
structure PageSteps (I : Kernel → Prop) (k : Kernel) (t : Trap) : Prop where
  exec : ∀ io img args, t.cause = .ecall io → decode t.user io = .exec img args →
    ∀ k₁, I k₁ → RegsOnly k k₁ → Ensures (update t.i fun p => p.sysExec img args) k₁ fun _ k' => I k'
  sbrk : ∀ io n m, t.cause = .ecall io → decode t.user io = .sbrk n m → n < 0 →
    ∀ k₁, I k₁ → RegsOnly k k₁ → Ensures (update t.i fun p => p.sysSbrk n m) k₁ fun _ k' => I k'
  reap : ∀ io z, t.cause = .ecall io → k.reaped t.i (decode t.user io) = some z → z ≠ t.i →
    ∀ k₁, I k₁ → RegsOnly k k₁ → ∀ k₂, I k₂ → Pool.Grows k₁.pool k₂.pool t.i →
      k₂.proc z = k₁.proc z → Ensures (freeproc z) k₂ fun _ k' => I k'

/-- The parts of a trap that belong to the alarm keep `I`. -/
structure AlarmSteps (I : Kernel → Prop) (k : Kernel) (t : Trap) : Prop where
  alarm : ∀ io n f, t.cause = .ecall io → decode t.user io = .alarm n f →
    ∀ k₁, I k₁ → RegsOnly k k₁ → I (k₁.setProc t.i ((k₁.proc t.i).sysAlarm n f))
  alarmReturn : ∀ io, t.cause = .ecall io → decode t.user io = .alarmReturn →
    ∀ k₁, I k₁ → RegsOnly k k₁ → Ensures (alarmReturn t.i) k₁ fun _ k' => I k'
  fire : t.cause = .timer → (k.proc t.i).alarmActive = false → ∀ k₁, I k₁ →
    (k₁.proc t.i).alarm = (k.proc t.i).alarm → Ensures (fireAlarm t.i) k₁ fun _ k' => I k'

theorem step_spec {t : Trap} (h : I k) (hstep : step k t = some k') (hp : PageSteps I k t)
    (ha : AlarmSteps I k t) : I k' := by
  refine step_ensures hstep (usertrap_spec hI h t.user t.cause ?_ ?_)
  · intro io hio k₁ h₁ hr
    have hz : (k₁.proc t.i).state ≠ .zombie := by
      obtain ⟨tf, hj⟩ := hr t.i
      rw [hj]; exact step_state hstep
    refine call_spec hI h₁ hz _ ?_ ?_ ?_ ?_ ?_
    · exact fun img args hc => hp.exec io img args hio hc k₁ h₁ hr
    · exact fun n m hc hn => hp.sbrk io n m hio hc hn k₁ h₁ hr
    · exact fun z hc hzi => hp.reap io z hio (hr.reaped _ ▸ hc) hzi k₁ h₁ hr
    · exact fun n f hc => ha.alarm io n f hio hc k₁ h₁ hr
    · exact fun hc => ha.alarmReturn io hio hc k₁ h₁ hr
  · intro hc k₁ h₁ hr
    obtain ⟨tf, hj⟩ := hr t.i
    refine alarmTick_spec hI h₁ fun hn k₂ h₂ hb => ?_
    rw [hj] at hn hb
    exact ha.fire hc hn k₂ h₂ hb

/-! ## Boot -/

theorem boot_spec {pages : List Page} {img : Option Image} {argv : List Nat}
    (h : I (zero pages)) (hk : boot pages img argv = some k) : I k := by
  have init : Ensures (boot.userinit img argv) (zero pages) fun _ k' => I k' := by
    refine Ensures.bind ((allocproc_spec hI h).mono ?_)
    rintro r k₁ ⟨h₁, ha⟩
    refine Ensures.bind (Ensures.deref fun i hi => ?_)
    obtain ⟨-, pa, pt, hs₁, hF, hb⟩ := ha i hi
    refine Ensures.bind (Ensures.modify (Ensures.bind (getProc_spec (Ensures.bind (put_spec ?_)))))
    have h₂ : I { k₁ with initproc := i } :=
      hI.same h₁ (fun j => hI.wf h₁ j) ⟨fun _ => rfl, rfl⟩ rfl
    have htf : (k₁.proc i).trapframe ≠ none := by rw [hs₁.self]; exact Option.some_ne_none _
    have hpt : (k₁.proc i).pagetable = some pt := by rw [hs₁.self]; rfl
    have h₃ := hI.put (i := i) (q := { k₁.proc i with state := .runnable }) h₂
      ((hI.wf h₁ i).congr rfl rfl rfl rfl (fun h => by cases h)
        fun _ => ⟨htf, hpt ▸ Option.some_ne_none pt⟩) rfl rfl
    refine Ensures.bind ((update_keeps hI h₃ ?_).mono fun r k' h' => ?_)
    · refine Proc.kexec_grows (hI.wf h₃ i) ?_ img argv
      change (Function.update k₁.proc i _ i).hold.user = 0
      have hpt' : ({ k₁.proc i with state := .runnable } : Proc).pagetable = some pt := hpt
      rw [Function.update_self, Proc.hold_some hpt']
      unfold Holder.user
      rw [hb.bare.own, hb.bare.mir, add_zero]
    · exact Ensures.ite (fun _ => Ensures.fail) fun _ =>
        (setRegs_spec hI h' _).mono fun _ _ h'' => h''.1
  unfold boot at hk
  split at hk
  · cases hk
  · cases hk; exact init _ _ ‹_›

end

/-! ## Properties of the pages alone -/

structure Blind (I : Kernel → Prop) : Prop where
  wf : ∀ {k}, I k → k.Wf
  grows : ∀ {k k' i}, I k → k'.Wf → Pool.Grows k.pool k'.pool i → I k'
  mirrors : ∀ {k k' i j}, I k → k'.Wf → Pool.Mirrors k.pool k'.pool i j → I k'

section
variable {I : Kernel → Prop} (hB : Blind I)
include hB

theorem Blind.stable : Stable I :=
  ⟨hB.wf, fun h hw _ hg => hB.grows h hw hg, fun h hw _ hm => hB.mirrors h hw hm⟩

theorem Blind.sysAlarm (h : I k) (n : Int) (f : Word) :
    I (k.setProc i ((k.proc i).sysAlarm n f)) := by
  have hs : Sets k (k.setProc i ((k.proc i).sysAlarm n f)) i ((k.proc i).sysAlarm n f) := rfl
  have hw := hB.wf h i
  have hq : ((k.proc i).sysAlarm n f).Wf := by
    refine hw.congr rfl rfl rfl rfl (fun hu => ?_) hw.live
    obtain ⟨htf, ha, hpt⟩ := hw.unused hu
    have hn : (k.proc i).alarmTrapframe = none := congrArg Prod.snd ha
    exact ⟨htf, Prod.ext rfl hn, hpt⟩
  exact hB.grows h (hs.wf (hB.wf h) hq) (hs.grows (Proc.Grows.of_hold hq rfl))

theorem Blind.alarmReturn (h : I k) : Ensures (alarmReturn i) k fun _ k' => I k' := by
  refine (alarmReturn_spec (hB.wf h)).mono ?_
  rintro _ k' ⟨-, tf, saved, hr⟩
  exact hB.grows h hr.wf hr.grows

theorem Blind.step {t : Trap} (h : I k) (hstep : step k t = some k') (hp : PageSteps I k t)
    (hfire : t.cause = .timer → (k.proc t.i).alarmActive = false → ∀ k₁, I k₁ →
      (k₁.proc t.i).alarm = (k.proc t.i).alarm → Ensures (fireAlarm t.i) k₁ fun _ k' => I k') : I k' :=
  step_spec hB.stable h hstep hp
    ⟨fun _ n f _ _ _ h₁ _ => hB.sysAlarm h₁ n f, fun _ _ _ _ h₁ _ => hB.alarmReturn h₁, hfire⟩

end

/-! ## Runs -/

def Meets (C : Kernel → Trap → Prop) (k : Kernel) : List Trap → Prop
  | [] => True
  | t :: ts => C k t ∧ ∀ k', step k t = some k' → Meets C k' ts

theorem Meets.mono {C D : Kernel → Trap → Prop} (h : ∀ k t, C k t → D k t) {ts : List Trap} (hm : Meets C k ts) :
    Meets D k ts := by
  induction ts generalizing k with
  | nil => trivial
  | cons t ts ih => exact ⟨h k t hm.1, fun k' hk => ih (hm.2 k' hk)⟩

theorem Meets.and {C D : Kernel → Trap → Prop} {ts : List Trap} (hC : Meets C k ts) (hD : Meets D k ts) :
    Meets (fun k t => C k t ∧ D k t) k ts := by
  induction ts generalizing k with
  | nil => trivial
  | cons t ts ih => exact ⟨⟨hC.1, hD.1⟩, fun k' hk => ih (hC.2 k' hk) (hD.2 k' hk)⟩

theorem Meets.left {C : Kernel → Trap → Prop} {ts ts' : List Trap} (hm : Meets C k (ts ++ ts')) : Meets C k ts := by
  induction ts generalizing k with
  | nil => trivial
  | cons t ts ih => exact ⟨hm.1, fun k' hk => ih (hm.2 k' hk)⟩

def ReachableBy (C : Kernel → Trap → Prop) (k : Kernel) : Prop :=
  ∃ pages img argv k₀ ts, pages.Nodup ∧ boot pages img argv = some k₀ ∧ Meets C k₀ ts ∧ run k₀ ts = some k

theorem ReachableBy.reachable {C : Kernel → Trap → Prop} (h : ReachableBy C k) : Reachable k := by
  obtain ⟨pages, img, argv, k₀, ts, hp, hb, -, hr⟩ := h
  exact ⟨pages, img, argv, k₀, ts, hp, hb, hr⟩

theorem run_induct {I : Kernel → Prop} {C : Kernel → Trap → Prop}
    (hstep : ∀ k t k', I k → C k t → step k t = some k' → I k') {ts : List Trap} (h : I k)
    (hm : Meets C k ts) (hr : run k ts = some k') : I k' := by
  induction ts generalizing k with
  | nil => cases hr; exact h
  | cons t ts ih =>
    unfold run at hr
    cases hk : step k t with
    | none => rw [hk] at hr; cases hr
    | some k₁ =>
      rw [hk] at hr
      exact ih (hstep k t k₁ h hm.1 hk) (hm.2 k₁ hk) hr

theorem meets_true (k : Kernel) (ts : List Trap) : Meets (fun _ _ => True) k ts := by
  induction ts generalizing k with
  | nil => trivial
  | cons t ts ih => exact ⟨trivial, fun k' _ => ih k'⟩

theorem wf_blind : Blind Wf := ⟨id, fun _ hw _ => hw, fun _ hw _ => hw⟩

theorem step_wf {t : Trap} (h : k.Wf) (hs : step k t = some k') : k'.Wf := by
  refine wf_blind.step h hs ⟨?_, ?_, ?_⟩ ?_
  · intro io img args _ _ k₁ h₁ _
    exact update_spec ((Proc.sysExec_spec (h₁ t.i) img args).mono fun r free hr =>
      Sets.wf rfl h₁ hr.1.wf)
  · intro io n m _ _ hn k₁ h₁ _
    exact update_spec ((Proc.sysSbrk_shrinks (h₁ t.i) m hn).mono fun r free hr =>
      Sets.wf rfl h₁ hr.1.wf)
  · exact fun io z _ _ _ k₁ _ _ k₂ h₂ _ _ => (freeproc_spec h₂ z).mono fun _ _ hf => hf.wf
  · exact fun _ _ k₁ h₁ _ => (fireAlarm_fired h₁).mono fun _ _ hf => hf.wf

theorem zero_wf (pages : List Page) : (zero pages).Wf := fun _ => Proc.freed_wf (p := Proc.zero)

theorem Reachable.wf (h : Reachable k) : k.Wf := by
  obtain ⟨pages, img, argv, k₀, ts, -, hb, hr⟩ := h
  have h₀ : k₀.Wf := boot_spec wf_blind.stable (zero_wf pages) hb
  exact run_induct (fun _ _ _ h _ => step_wf h) h₀ (meets_true k₀ ts) hr

/-! ## Runs of a small machine -/

def initImage : Image := ⟨0, [some ⟨true, 0, 1, 0, true, false, 0⟩]⟩

def ecall (i : Slot) (num a0 a1 a2 : Word) : Trap where
  i := i
  user := ⟨0, fun r => match r with | .a7 => num | .a0 => a0 | .a1 => a1 | .a2 => a2 | _ => 0⟩
  cause := .ecall ⟨none, [], 0, []⟩

def small : Option Kernel := boot (List.range 40) (some initImage) []

def reaches (ts : List Trap) (test : Kernel → Kernel → Bool) : Bool :=
  small.any fun k₀ => (run k₀ ts).any (test k₀)

theorem small_reachableBy {C : Kernel → Trap → Prop} {k₀ : Kernel} (ts : List Trap) (hb : small = some k₀)
    (hm : Meets C k₀ ts) (hr : run k₀ ts = some k) : ReachableBy C k :=
  ⟨List.range 40, some initImage, [], k₀, ts, List.nodup_range, hb, hm, hr⟩

theorem reaches_iff {ts : List Trap} {test : Kernel → Kernel → Bool} :
    reaches ts test = true ↔ ∃ k₀ k, small = some k₀ ∧ run k₀ ts = some k ∧ test k₀ k = true := by
  simp [reaches, Option.any_eq_true]

end Kernel

end OsLab
