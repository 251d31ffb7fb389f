import OsLab.KernelPanics
import OsLab.Sharing

/-!
# The alarm state machine

While no process calls `alarm` from inside a handler, a handler is active exactly when
there is a backup, and no backup is lost. A handler that returns goes on with the
interrupted registers, except for `a0`: `syscall` stores the return value of
`alarm_return` there.
-/

namespace OsLab

open Mach

namespace Kernel

variable {k k' k₀ k₁ k₂ k₃ : Kernel} {i j : Slot} {q : Proc}

/-! ## Properties of the alarms alone -/

structure Alarms (I : Kernel → Prop) : Prop where
  wf : ∀ {k}, I k → k.Wf
  quiet : ∀ {k k'}, I k → k'.Wf → Quiet k k' → I k'

section
variable {I : Kernel → Prop} (hA : Alarms I)
include hA

theorem Alarms.stable : Stable I :=
  ⟨hA.wf, fun h hw hq _ => hA.quiet h hw hq, fun h hw hq _ => hA.quiet h hw hq⟩

theorem Alarms.update {α : Type} {f : Proc → Vm (α × Proc)} (h : I k)
    (hf : Ensures (f (k.proc i)) k.freelist fun r _ => r.2.Wf ∧ Proc.Remaps (k.proc i) r.2) :
    Ensures (update i f) k fun _ k' => I k' := by
  refine update_spec (hf.mono fun r free hr => ?_)
  have hs : Sets k (({ k with freelist := free } : Kernel).setProc i r.2) i r.2 := rfl
  exact hA.quiet h (hs.wf (hA.wf h) hr.1) (hs.quiet hr.2.alarm rfl)

theorem Alarms.step {t : Trap} (h : I k) (hstep : step k t = some k')
    (hreap : ∀ z, (k.proc z).state = .zombie → ∀ k₁, I k₁ → Ensures (freeproc z) k₁ fun _ k' => I k')
    (ha : AlarmSteps I k t) : I k' := by
  refine step_spec hA.stable h hstep ⟨?_, ?_, ?_⟩ ha
  · exact fun io img args _ _ k₁ h₁ _ => hA.update h₁
      ((Proc.sysExec_spec (hA.wf h₁ t.i) img args).mono fun _ _ hr => ⟨hr.1.wf, hr.2.2⟩)
  · exact fun io n m _ _ hn k₁ h₁ _ => hA.update h₁
      ((Proc.sysSbrk_shrinks (hA.wf h₁ t.i) m hn).mono fun _ _ hr => ⟨hr.1.wf, hr.2⟩)
  · exact fun io z _ hz _ k₁ _ _ k₂ h₂ _ _ => hreap z (reaped_zombie hz) k₂ h₂

end

/-! ## Backups -/

def current (k : Kernel) : Multiset Page := ∑ i, frameAt (k.proc i).alarmTrapframe

theorem Quiet.frame (h : Quiet k k') (i : Slot) :
    (k'.proc i).alarmTrapframe = (k.proc i).alarmTrapframe :=
  congrArg Prod.snd (h.alarm i)

theorem Quiet.active (h : Quiet k k') (i : Slot) :
    (k'.proc i).alarmActive = (k.proc i).alarmActive :=
  congrArg Prod.fst (h.alarm i)

theorem Quiet.current (h : Quiet k k') : k'.current = k.current :=
  Finset.sum_congr rfl fun i _ => congrArg frameAt (h.frame i)

theorem Sets.current (h : Sets k k' i q) :
    k'.current + frameAt (k.proc i).alarmTrapframe = k.current + frameAt q.alarmTrapframe := by
  unfold Kernel.current
  rw [Pool.sum_split _ i, Pool.sum_split (fun j => frameAt (k.proc j).alarmTrapframe) i, h.self,
    Pool.sum_erase_congr fun j hj => congrArg (fun p : Proc => frameAt p.alarmTrapframe) (h.other hj)]
  abel

/-- A handler is active exactly when there is a backup, and no backup is lost
or freed twice. -/
structure AlarmOk (k : Kernel) : Prop where
  wf : k.Wf
  active : ∀ i, (k.proc i).alarmActive = true ↔ (k.proc i).alarmTrapframe.isSome = true
  pages : (k.backups : Multiset Page) = k.released + k.current

def NoReset (k : Kernel) (t : Trap) : Prop :=
  ∀ io n f, t.cause = .ecall io → decode t.user io = .alarm n f → (k.proc t.i).alarmActive = false

theorem AlarmOk.quiet (h : AlarmOk k) (hw : k'.Wf) (hq : Quiet k k') : AlarmOk k' := by
  refine ⟨hw, fun i => ?_, ?_⟩
  · rw [hq.active, hq.frame]; exact h.active i
  · have hb : k'.backups = k.backups := congrArg Prod.fst hq.log
    have hr : k'.released = k.released := congrArg Prod.snd hq.log
    rw [hb, hr, hq.current, h.pages]

theorem alarmOk_alarms : Alarms AlarmOk where
  wf h := h.wf
  quiet h hw hq := h.quiet hw hq

theorem AlarmOk.none_of_inactive (h : AlarmOk k) (ha : (k.proc i).alarmActive = false) :
    (k.proc i).alarmTrapframe = none := by
  cases hf : (k.proc i).alarmTrapframe with
  | none => rfl
  | some f =>
    have := (h.active i).mpr (by rw [hf]; rfl)
    rw [ha] at this
    cases this

theorem AlarmOk.sets (h : AlarmOk k) (hs : Sets k k' i q) (hw : k'.Wf)
    (hq : q.alarmActive = true ↔ q.alarmTrapframe.isSome = true)
    (hl : (k'.backups : Multiset Page) + k.released + frameAt (k.proc i).alarmTrapframe =
      k.backups + k'.released + frameAt q.alarmTrapframe) : AlarmOk k' := by
  refine ⟨hw, fun j => ?_, ?_⟩
  · by_cases hj : j = i
    · subst hj; rw [hs.self]; exact hq
    · rw [hs.other hj]; exact h.active j
  · have hc := hs.current
    rw [h.pages] at hl
    refine add_right_cancel (b := (k.released : Multiset Page) + frameAt (k.proc i).alarmTrapframe) ?_
    calc (k'.backups : Multiset Page) + (k.released + frameAt (k.proc i).alarmTrapframe)
        = k'.backups + k.released + frameAt (k.proc i).alarmTrapframe := by abel
      _ = k.released + k.current + k'.released + frameAt q.alarmTrapframe := hl
      _ = k.released + k'.released + (k.current + frameAt q.alarmTrapframe) := by abel
      _ = k.released + k'.released + (k'.current + frameAt (k.proc i).alarmTrapframe) := by rw [hc]
      _ = k'.released + k'.current + (k.released + frameAt (k.proc i).alarmTrapframe) := by abel

theorem freeproc_alarmOk (h : AlarmOk k) (z : Slot) :
    Ensures (freeproc z) k fun _ k' => AlarmOk k' := by
  refine (freeproc_spec h.wf z).mono fun _ k' hf => ?_
  have hb : k'.backups = k.backups := congrArg Prod.fst hf.log
  have hr : k'.released = ((k.proc z).alarmTrapframe.map Frame.page).toList ++ k.released :=
    congrArg Prod.snd hf.log
  refine h.sets hf.sets hf.wf (by simp [Proc.freed, Proc.zero]) ?_
  have h₀ : frameAt (k.proc z).freed.alarmTrapframe = 0 := rfl
  have h₁ : (((k.proc z).alarmTrapframe.map Frame.page).toList : Multiset Page) =
      frameAt (k.proc z).alarmTrapframe := by
    cases (k.proc z).alarmTrapframe <;> rfl
  rw [hb, hr, h₀, ← Multiset.coe_add, h₁]
  abel

theorem alarmReturn_alarmOk (h : AlarmOk k) :
    Ensures (alarmReturn i) k fun _ k' => AlarmOk k' := by
  refine (alarmReturn_spec h.wf).mono ?_
  rintro _ k' ⟨-, tf, saved, hr⟩
  have hb : k'.backups = k.backups := congrArg Prod.fst hr.log
  have hr' : k'.released = saved.page :: k.released := congrArg Prod.snd hr.log
  refine h.sets hr.sets hr.wf (by simp [Proc.returned]) ?_
  have h₀ : frameAt ((k.proc i).returned tf saved).alarmTrapframe = 0 := rfl
  have h₁ : frameAt (some saved) = {saved.page} := rfl
  rw [hb, hr', h₀, hr.backup, h₁, ← Multiset.cons_coe, ← Multiset.singleton_add]
  abel

theorem fireAlarm_alarmOk (h : AlarmOk k) (hn : (k.proc i).alarmTrapframe = none) :
    Ensures (fireAlarm i) k fun _ k' => AlarmOk k' := by
  refine (fireAlarm_spec h.wf hn).mono fun _ k' hf => ?_
  rcases hf.alarm with hq | ⟨tf, pa, -, hp, hl⟩
  · exact h.quiet hf.wf hq
  · have hb : k'.backups = pa :: k.backups := congrArg Prod.fst hl
    have hr : k'.released = k.released := congrArg Prod.snd hl
    refine h.sets (hp ▸ hf.sets) hf.wf (by simp [Proc.fired]) ?_
    have h₀ : frameAt none = 0 := rfl
    have h₁ : frameAt ((k.proc i).fired tf pa).alarmTrapframe = {pa} := rfl
    rw [hb, hr, hn, h₀, h₁, ← Multiset.cons_coe, ← Multiset.singleton_add]
    abel

theorem step_alarmOk {t : Trap} (h : AlarmOk k) (ht : NoReset k t) (hs : step k t = some k') :
    AlarmOk k' := by
  refine alarmOk_alarms.step h hs ?_ ⟨?_, ?_, ?_⟩
  · exact fun z _ k₁ h₁ => freeproc_alarmOk h₁ z
  · intro io n f hio hc k₁ h₁ hr
    have ha : (k₁.proc t.i).alarmActive = false := by
      obtain ⟨tf, hi⟩ := hr t.i
      rw [hi]; exact ht io n f hio hc
    have hn := h₁.none_of_inactive ha
    have hs₁ : Sets k₁ (k₁.setProc t.i ((k₁.proc t.i).sysAlarm n f)) t.i
      ((k₁.proc t.i).sysAlarm n f) := rfl
    refine h₁.sets hs₁ (wf_blind.sysAlarm h₁.wf n f) ?_ rfl
    rw [show ((k₁.proc t.i).sysAlarm n f).alarmTrapframe = none from hn]
    simp [Proc.sysAlarm]
  · exact fun io _ _ k₁ h₁ _ => alarmReturn_alarmOk h₁
  · exact fun _ ha k₁ h₁ hb => fireAlarm_alarmOk h₁
      ((congrArg Prod.snd hb).trans (h.none_of_inactive ha))

theorem zero_alarmOk (pages : List Page) : AlarmOk (zero pages) := by
  refine ⟨zero_wf pages, fun i => by simp [zero, Proc.zero], ?_⟩
  have : (zero pages).current = 0 := Finset.sum_eq_zero fun _ _ => rfl
  rw [this]
  rfl

/-- As long as `alarm` is not called from inside a handler, a handler is active
exactly when its process has a backup, and a page that was allocated for a
backup is a current backup or has been freed once. -/
theorem alarm_consistent {pages : List Page} {img : Option Image} {argv : List Nat}
    {ts : List Trap} (hb : boot pages img argv = some k₀) (hm : Meets NoReset k₀ ts)
    (hr : run k₀ ts = some k) :
    (∀ i, (k.proc i).alarmActive = true ↔ (k.proc i).alarmTrapframe.isSome = true) ∧
    (k.backups : Multiset Page) = k.released + k.current := by
  have h₀ : AlarmOk k₀ := boot_spec alarmOk_alarms.stable (zero_alarmOk pages) hb
  have h := run_induct (fun _ _ _ => step_alarmOk) h₀ hm hr
  exact ⟨h.active, h.pages⟩

def timer (i : Slot) (a0 : Word) : Trap :=
  ⟨i, ⟨0, fun r => match r with | .a0 => a0 | _ => 0⟩, .timer⟩

def fireAndReturn : List Trap := [ecall 0 26 1 0 0, timer 0 7, ecall 0 28 0 0 0]

theorem alarm_consistent_fireAndReturn : ∃ k₀ k, small = some k₀ ∧
    run k₀ fireAndReturn = some k ∧
    (∀ i, (k.proc i).alarmActive = true ↔ (k.proc i).alarmTrapframe.isSome = true) ∧
    (k.backups : Multiset Page) = k.released + k.current := by
  have h : reaches fireAndReturn (fun k₀ _ => (k₀.proc 0).alarmActive = false) = true := by
    decide +kernel
  obtain ⟨k₀, k, hb, hr, ht⟩ := reaches_iff.mp h
  have hm : Meets NoReset k₀ fireAndReturn := by
    refine ⟨fun _ _ _ _ _ => of_decide_eq_true ht, fun _ _ => ⟨(fun _ _ _ hc => nomatch hc),
      fun _ _ => ⟨fun io n f hio hc => ?_, fun _ _ => trivial⟩⟩⟩
    cases hio
    cases hc
  exact ⟨k₀, k, hb, hr, alarm_consistent hb hm hr⟩

def alarmInHandler : List Trap := [ecall 0 26 1 0 0, timer 0 0, ecall 0 26 1 0 0, timer 0 0]

theorem backup_lost : ∃ k₀ k, small = some k₀ ∧ run k₀ alarmInHandler = some k ∧
    k.backups.length = 2 ∧ k.released = [] ∧
    ∀ i, i ≠ 0 → (k.proc i).alarmTrapframe = none := by
  have h : reaches alarmInHandler (fun _ k => decide (k.backups.length = 2 ∧ k.released = [] ∧
      ∀ i, i ≠ 0 → (k.proc i).alarmTrapframe.isNone)) = true := by decide +kernel
  obtain ⟨k₀, k, hb, hr, ht⟩ := reaches_iff.mp h
  obtain ⟨hl, hrel, hn⟩ := of_decide_eq_true ht
  exact ⟨k₀, k, hb, hr, hl, hrel, fun i hi => Option.isNone_iff_eq_none.mp (hn i hi)⟩

/-! ## From the interrupt to `alarm_return` -/

def AlarmIs (i : Slot) (a : Bool × Option Frame) (k : Kernel) : Prop :=
  k.Wf ∧ (k.proc i).alarm = a

theorem alarmIs_alarms (i : Slot) (a : Bool × Option Frame) : Alarms (AlarmIs i a) where
  wf h := h.1
  quiet h hw hq := ⟨hw, (hq.alarm i).trans h.2⟩

theorem AlarmIs.other {a : Bool × Option Frame} (h : AlarmIs i a k) (hw : k'.Wf)
    (hs : Sets k k' j q) (hj : i ≠ j) : AlarmIs i a k' :=
  ⟨hw, by rw [hs.other hj]; exact h.2⟩

theorem AlarmIs.active {a : Bool × Option Frame} (h : AlarmIs i a k) :
    (k.proc i).alarmActive = a.1 :=
  congrArg Prod.fst h.2

theorem AlarmIs.frame {a : Bool × Option Frame} (h : AlarmIs i a k) :
    (k.proc i).alarmTrapframe = a.2 :=
  congrArg Prod.snd h.2

def Saves (i : Slot) (T : Trapframe) (k : Kernel) : Prop :=
  (k.proc i).alarmActive = true → ∃ pa, AlarmIs i (true, some ⟨pa, T⟩) k

theorem AlarmIs.saves {T : Trapframe} {f : Option Frame} (h : AlarmIs i (false, f) k) :
    Saves i T k := by
  intro ha
  rw [h.active] at ha
  cases ha

theorem fireAlarm_saves {tf : Frame} {f : Option Frame} (h : AlarmIs i (false, f) k)
    (htf : (k.proc i).trapframe = some tf) :
    Ensures (fireAlarm i) k fun _ k' => Saves i tf.regs k' := by
  refine (fireAlarm_fired h.1).mono fun _ k' hf => ?_
  have hs := forget_sets k i
  rcases hf.alarm with hq | ⟨tf', pa, htf', hp, -⟩
  · intro ha
    rw [hq.active, hs.self] at ha
    exact absurd (h.active.symm.trans ha) Bool.false_ne_true
  · rw [hs.self] at htf'
    obtain rfl : tf = tf' := Option.some.inj (htf.symm.trans htf')
    exact fun _ => ⟨pa, hf.wf, by rw [hp]; rfl⟩

theorem alarmTick_saves {tf : Frame} {f : Option Frame} (h : AlarmIs i (false, f) k)
    (htf : (k.proc i).trapframe = some tf) :
    Ensures (alarmTick i) k fun _ k' => Saves i tf.regs k' := by
  refine Ensures.bind (getProc_spec (Ensures.ite (fun _ => ?_) fun _ => Ensures.pure h.saves))
  refine Ensures.bind (put_spec ?_)
  -- the tick is counted
  have hs : Sets k (k.setProc i { k.proc i with alarmTicks := (k.proc i).alarmTicks + 1 }) i
    { k.proc i with alarmTicks := (k.proc i).alarmTicks + 1 } := rfl
  have hw := (h.1 i).congr (q := { k.proc i with alarmTicks := (k.proc i).alarmTicks + 1 })
    rfl rfl rfl rfl (h.1 i).unused (h.1 i).live
  have h' := (alarmIs_alarms i (false, f)).quiet h (hs.wf h.1 hw) (hs.quiet rfl rfl)
  refine Ensures.ite (fun _ => ?_) fun _ => Ensures.pure h'.saves
  exact fireAlarm_saves h' (by rw [hs.self]; exact htf)

theorem timer_saves {T : Trapframe} (hw : k.Wf) (hs : step k ⟨i, T, .timer⟩ = some k')
    (ha : (k.proc i).alarmActive = false) : Saves i T k' := by
  have h : AlarmIs i (false, (k.proc i).alarmTrapframe) k := ⟨hw, Prod.ext ha rfl⟩
  have hA := alarmIs_alarms i (false, (k.proc i).alarmTrapframe)
  refine step_ensures hs (Ensures.bind ((setRegs_spec hA.stable h _).mono ?_))
  rintro _ k₁ ⟨h₁, -, tf, -, htf⟩
  refine Ensures.bind (Ensures.pure (Ensures.bind (getProc_spec (Ensures.ite (fun _ => ?_)
    fun _ => ?_))))
  · exact Ensures.bind ((kexit_spec hA.stable h₁ (-1)).mono fun _ _ h₂ => Ensures.pure h₂.saves)
  · exact Ensures.bind ((alarmTick_saves h₁ htf).mono fun _ _ h₂ => Ensures.pure h₂)

def InHandler (i : Slot) (k : Kernel) (t : Trap) : Prop :=
  (k.proc i).state ≠ .zombie ∧ ∀ io, t.i = i → t.cause = .ecall io →
    decode t.user io ≠ .alarmReturn ∧ ∀ n f, decode t.user io ≠ .alarm n f

theorem step_inHandler {t : Trap} {f : Frame} (h : AlarmIs i (true, some f) k)
    (ht : InHandler i k t) (hs : step k t = some k') : AlarmIs i (true, some f) k' := by
  refine (alarmIs_alarms i _).step h hs ?_ ⟨?_, ?_, ?_⟩
  · intro z hz k₁ h₁
    have hi : i ≠ z := fun hi => ht.1 (hi ▸ hz)
    exact (freeproc_spec h₁.1 z).mono fun _ _ hf => h₁.other hf.wf hf.sets hi
  · intro io n g hio hc k₁ h₁ _
    have hi : i ≠ t.i := fun hi => (ht.2 io hi.symm hio).2 n g hc
    exact h₁.other (wf_blind.sysAlarm h₁.1 n g) rfl hi
  · intro io hio hc k₁ h₁ _
    have hi : i ≠ t.i := fun hi => (ht.2 io hi.symm hio).1 hc
    refine (alarmReturn_spec h₁.1).mono ?_
    rintro _ k₂ ⟨-, tf, saved, hr⟩
    exact h₁.other hr.wf hr.sets hi
  · intro _ ha k₁ h₁ _
    have hi : i ≠ t.i := by
      rintro rfl
      rw [h.active] at ha
      cases ha
    refine (fireAlarm_fired h₁.1).mono fun _ k₂ hf => ?_
    exact (h₁.other (forget_wf h₁.1) (forget_sets k₁ t.i) hi).other hf.wf hf.sets hi

theorem RegsOnly.killed (h : RegsOnly k k') : (k'.proc i).killed = (k.proc i).killed := by
  obtain ⟨tf, hi⟩ := h i
  rw [hi]

theorem call_alarmReturn {f : Frame} (h : AlarmIs i (true, some f) k) :
    Ensures (call i .alarmReturn) k fun r k' => (∃ v, r = .ret v ∧ v = 0) ∧ k'.Wf ∧
      (k'.proc i).killed = (k.proc i).killed ∧
      (k'.proc i).trapframe.map Frame.regs = some f.regs := by
  refine Ensures.bind ((alarmReturn_spec h.1).mono ?_)
  rintro v k' ⟨rfl, tf, saved, hr⟩
  obtain rfl : saved = f := Option.some.inj (hr.backup.symm.trans h.frame)
  refine Ensures.pure ⟨⟨0, rfl, rfl⟩, hr.wf, ?_, ?_⟩
  · rw [hr.sets.self]; rfl
  · rw [hr.sets.self]; rfl

/-- `alarm_return` leaves a process with the registers of its backup `f`, but
for the return value of the system call. -/
theorem alarmReturn_restores {f : Frame} {U : Trapframe} {io : Io}
    (h : AlarmIs i (true, some f) k) (hk : (k.proc i).killed = false)
    (hc : decode U io = .alarmReturn) (hs : step k ⟨i, U, .ecall io⟩ = some k') :
    (k'.proc i).trapframe.map Frame.regs = some (f.regs.set .a0 0) := by
  have hA := alarmIs_alarms i (true, some f)
  refine step_ensures (Q := fun k' => (k'.proc i).trapframe.map Frame.regs =
    some (f.regs.set .a0 0)) hs (Ensures.bind ((setRegs_spec hA.stable h _).mono ?_))
  rintro _ k₁ ⟨h₁, hr₁, tf₁, -, htf₁⟩
  have hk₁ : (k₁.proc i).killed = false := hr₁.killed.trans hk
  -- the system call, up to its return value
  have hcall : Ensures (cause i (.ecall io)) k₁ fun r k₂ => (∃ v, r = .ret v) ∧
      (k₂.proc i).killed = false ∧
      (k₂.proc i).trapframe.map Frame.regs = some (f.regs.set .a0 0) := by
    refine Ensures.bind (getProc_spec (Ensures.ite (fun hd => ?_) fun _ => ?_))
    · rw [hk₁] at hd; cases hd
    refine Ensures.bind ((setRegs_spec hA.stable h₁ _).mono ?_)
    rintro _ k₂ ⟨h₂, hr₂, tf₂, htf₂, htf₂'⟩
    obtain rfl : ({ tf₁ with regs := U } : Frame) = tf₂ := Option.some.inj (htf₁.symm.trans htf₂)
    refine Ensures.bind (getProc_spec (Ensures.bind (Ensures.deref fun tf htf => ?_)))
    obtain rfl := Option.some.inj (htf₂'.symm.trans htf)
    have hd : decode { U with epc := U.epc + 4 } io = .alarmReturn := hc
    rw [hd]
    refine Ensures.bind ((call_alarmReturn h₂).mono ?_)
    rintro _ k₃ ⟨⟨v, rfl, rfl⟩, hw₃, hk₃, htf₃⟩
    refine Ensures.bind ((setRegs_spec wf_blind.stable hw₃ _).mono ?_)
    rintro _ k₄ ⟨-, hr₄, tf₄, htf₄, htf₄'⟩
    refine Ensures.pure ⟨⟨0, rfl⟩, ?_, ?_⟩
    · rw [hr₄.killed, hk₃, hr₂.killed, hk₁]
    · rw [htf₄, Option.map_some] at htf₃
      rw [htf₄', Option.map_some, ← Option.some.inj htf₃]
      rfl
  refine Ensures.bind (hcall.mono ?_)
  rintro _ k₂ ⟨⟨v, rfl⟩, hk₂, htf⟩
  refine Ensures.bind (getProc_spec (Ensures.ite (fun hd => ?_) fun _ => ?_))
  · rw [hk₂] at hd; cases hd
  · exact Ensures.pure (a := Outcome.ret v) htf

theorem set_eq_self_iff {T : Trapframe} {r : Reg} {v : Word} : T.set r v = T ↔ T.reg r = v := by
  constructor
  · intro h
    rw [← h]
    simp [Trapframe.set]
  · rintro rfl
    simp [Trapframe.set]

/-- The alarm of process `i` fires while it runs with registers `T`, its
handler runs, and calls `alarm_return`: the process goes on with the registers
`T` if and only if `a0` was zero. All the time nobody can get at the page with
the backup: it is neither free nor mapped. -/
theorem alarm_transparent_iff {T U : Trapframe} {io : Io} {ts : List Trap} (h₀ : ReachableBy Exclusive k₀)
    (hs₁ : step k₀ ⟨i, T, .timer⟩ = some k₁) (ha₀ : (k₀.proc i).alarmActive = false)
    (ha₁ : (k₁.proc i).alarmActive = true) (hm : Meets (fun k t => InHandler i k t ∧ Exclusive k t) k₁ ts)
    (hr : run k₁ ts = some k₂) (hk : (k₂.proc i).killed = false)
    (hc : decode U io = .alarmReturn) (hs₂ : step k₂ ⟨i, U, .ecall io⟩ = some k₃) :
    ((k₃.proc i).trapframe.map Frame.regs = some T ↔ T.reg .a0 = 0) ∧
    ∃ pa, ∀ ts₁ ts₂ k, ts = ts₁ ++ ts₂ → run k₁ ts₁ = some k →
      (k.proc i).alarmTrapframe = some ⟨pa, T⟩ ∧ pa ∉ k.freelist ∧ ∀ j, ¬ (k.proc j).Maps pa := by
  obtain ⟨pa, h₁⟩ := timer_saves h₀.reachable.wf hs₁ ha₀ ha₁
  have ha : Apart k₁ := step_apart h₀.apart (fun io hio => by cases hio) hs₁
  constructor
  · have h₂ := run_induct (fun _ _ _ => step_inHandler) h₁ (hm.mono fun _ _ h => h.1) hr
    rw [alarmReturn_restores h₂ hk hc hs₂, Option.some.injEq]
    exact set_eq_self_iff
  · refine ⟨pa, fun ts₁ ts₂ k hts hr₁ => ?_⟩
    subst hts
    have h := run_induct (fun _ _ _ => step_inHandler) h₁ (hm.left.mono fun _ _ h => h.1) hr₁
    have ha' := run_induct (fun _ _ _ => step_apart) ha (hm.left.mono fun _ _ h => h.2) hr₁
    refine ⟨h.frame, ha'.kern (i := i) ?_⟩
    have hf : pa ∈ frameAt (k.proc i).alarmTrapframe := by
      rw [h.frame]
      exact Multiset.mem_singleton_self pa
    exact Multiset.mem_add.mpr (.inl (Multiset.mem_add.mpr (.inr hf)))

theorem alarm_transparent_iff_zero : ∃ k₀ k₁ k₂ k₃ : Kernel,
    step k₀ (timer 0 0) = some k₁ ∧ run k₁ [ecall 0 12 4096 1 0, ecall 0 12 (-4096) 1 0] = some k₂ ∧
    step k₂ (ecall 0 28 0 0 0) = some k₃ ∧
    (k₃.proc 0).trapframe.map Frame.regs = some (timer 0 0).user := by
  have h : reaches [ecall 0 26 1 0 0] (fun kb k => exclusive kb [ecall 0 26 1 0 0] ∧
      (k.proc 0).alarmActive = false ∧
      (step k (timer 0 0)).any fun k₁ => (k₁.proc 0).alarmActive ∧ (k₁.proc 0).state ≠ .zombie ∧
      exclusive k₁ [ecall 0 12 4096 1 0, ecall 0 12 (-4096) 1 0] ∧
      (step k₁ (ecall 0 12 4096 1 0)).any fun k₁' => (k₁'.proc 0).state ≠ .zombie ∧
      (step k₁' (ecall 0 12 (-4096) 1 0)).any fun k₂ => (k₂.proc 0).killed = false ∧
      (step k₂ (ecall 0 28 0 0 0)).any fun _ => true) = true := by decide +kernel
  obtain ⟨kb, k₀, hb, hr₀, ht⟩ := reaches_iff.mp h
  simp only [Option.any_eq_true, decide_eq_true_eq] at ht
  obtain ⟨hxb, ha₀, k₁, hs₁, ha₁, hz, hx, k₁', hs, hz', k₂, hs', hk, k₃, hs₂, -⟩ := ht
  have hwb : kb.Wf := boot_spec wf_blind.stable (zero_wf _) hb
  have h₀ : ReachableBy Exclusive k₀ := small_reachableBy [ecall 0 26 1 0 0] hb (exclusive_meets hwb hxb) hr₀
  have hw₁ : k₁.Wf := step_wf h₀.reachable.wf hs₁
  have hm : Meets (InHandler 0) k₁ [ecall 0 12 4096 1 0, ecall 0 12 (-4096) 1 0] := by
    refine ⟨⟨hz, fun io _ hio => ?_⟩, fun k' hk' => ⟨⟨?_, fun io _ hio => ?_⟩, fun _ _ => trivial⟩⟩
    · cases hio
      exact ⟨nofun, nofun⟩
    · obtain rfl : k₁' = k' := Option.some.inj (hs.symm.trans hk')
      exact hz'
    · cases hio
      exact ⟨nofun, nofun⟩
  have hr : run k₁ [ecall 0 12 4096 1 0, ecall 0 12 (-4096) 1 0] = some k₂ := by
    simp only [run, hs, hs']
  exact ⟨k₀, k₁, k₂, k₃, hs₁, hr, hs₂,
    (alarm_transparent_iff h₀ hs₁ ha₀ ha₁ (hm.and (exclusive_meets hw₁ hx)) hr hk rfl hs₂).1.mpr rfl⟩

/-- A program is interrupted with 7 in `a0` and goes on with 0. -/
theorem alarm_loses_a0 : (timer 0 7).user.reg .a0 = 7 ∧ ∃ k₀ k, small = some k₀ ∧
    run k₀ fireAndReturn = some k ∧
    (k.proc 0).trapframe.map (fun f => f.regs.reg .a0) = some 0 := by
  have h : reaches fireAndReturn (fun _ k =>
      (k.proc 0).trapframe.map (fun f => f.regs.reg .a0) = some 0) = true := by decide +kernel
  obtain ⟨k₀, k, hb, hr, ht⟩ := reaches_iff.mp h
  exact ⟨rfl, k₀, k, hb, hr, of_decide_eq_true ht⟩

/-! ## Returning without a backup -/

structure Backed (k : Kernel) : Prop where
  wf : k.Wf
  backup : ∀ i, (k.proc i).alarmActive = true → (k.proc i).alarmTrapframe ≠ none

theorem backed_alarms : Alarms Backed where
  wf h := h.wf
  quiet h hw hq := ⟨hw, fun i => by rw [hq.active, hq.frame]; exact h.backup i⟩

theorem Backed.sets (h : Backed k) (hs : Sets k k' i q) (hw : k'.Wf)
    (hq : q.alarmActive = true → q.alarmTrapframe ≠ none) : Backed k' := by
  refine ⟨hw, fun j => ?_⟩
  by_cases hj : j = i
  · subst hj; rw [hs.self]; exact hq
  · rw [hs.other hj]; exact h.backup j

theorem fireAlarm_backed (h : Backed k) (ha : (k.proc i).alarmActive = false) :
    Ensures (fireAlarm i) k fun _ k' => Backed k' := by
  refine (fireAlarm_fired h.wf).mono fun _ k' hf => ?_
  -- the old backup is forgotten while no handler is active
  have h' : Backed (k.forget i) := by
    refine h.sets (forget_sets k i) (forget_wf h.wf) fun h' => ?_
    have : (k.proc i).alarmActive = true := h'
    rw [ha] at this
    cases this
  rcases hf.alarm with hq | ⟨tf, pa, -, hp, -⟩
  · exact backed_alarms.quiet h' hf.wf hq
  · exact h'.sets (hp ▸ hf.sets) hf.wf fun _ => Option.some_ne_none _

theorem step_backed {t : Trap} (h : Backed k) (hs : step k t = some k') : Backed k' := by
  refine backed_alarms.step h hs ?_ ⟨?_, ?_, ?_⟩
  · exact fun z _ k₁ h₁ => (freeproc_spec h₁.wf z).mono fun _ _ hf => h₁.sets hf.sets hf.wf nofun
  · exact fun io n f _ _ k₁ h₁ _ => h₁.sets (i := t.i) rfl (wf_blind.sysAlarm h₁.wf n f) nofun
  · intro io _ _ k₁ h₁ _
    refine (alarmReturn_spec h₁.wf).mono ?_
    rintro _ k₂ ⟨-, tf, saved, hr⟩
    exact h₁.sets hr.sets hr.wf nofun
  · exact fun _ ha k₁ h₁ hb => fireAlarm_backed h₁ ((congrArg Prod.fst hb).trans ha)

theorem Reachable.backed (h : Reachable k) : Backed k := by
  obtain ⟨pages, img, argv, k₀, ts, -, hb, hr⟩ := h
  have h₀ : Backed k₀ := boot_spec backed_alarms.stable ⟨zero_wf pages, nofun⟩ hb
  exact run_induct (fun _ _ _ h _ => step_backed h) h₀ (meets_true k₀ ts) hr

theorem call_alarmReturn_fails {E : Panic → Prop} (htf : (k.proc i).trapframe ≠ none)
    (hf : (k.proc i).alarmTrapframe ≠ none) : Fails (call i .alarmReturn) k E := by
  refine Fails.bind (Fails.bind getProc_fails (getProc_spec ?_)) fun _ _ _ => Fails.pure
  refine Fails.bind (Fails.deref fun h => absurd h htf) (Ensures.deref fun tf _ => ?_)
  refine Fails.bind (Fails.deref fun h => absurd h hf) (Ensures.deref fun saved _ => ?_)
  refine Fails.bind (lift_fails kfree_fails) fun _ _ _ => ?_
  exact Fails.bind put_fails fun _ _ _ => Fails.bind Fails.modify fun _ _ _ => Fails.pure

theorem call_alarmReturn_alive (hk : (k.proc i).killed = false) :
    Ensures (call i .alarmReturn) k fun _ k' =>
      (k'.proc i).trapframe ≠ none ∧ (k'.proc i).killed = false := by
  refine Ensures.bind (Ensures.bind (getProc_spec (Ensures.bind (Ensures.deref fun tf _ => ?_))))
  refine Ensures.bind (Ensures.deref fun saved _ => Ensures.bind (lift_spec fun _ free _ => ?_))
  refine Ensures.bind (put_spec (Ensures.bind (Ensures.modify (Ensures.pure (Ensures.pure ?_)))))
  change (Function.update k.proc i _ i).trapframe ≠ none ∧
    (Function.update k.proc i _ i).killed = false
  rw [Function.update_self]
  exact ⟨Option.some_ne_none _, hk⟩

theorem call_alarmReturn_null {tf : Frame} (htf : (k.proc i).trapframe = some tf)
    (hf : (k.proc i).alarmTrapframe = none) : call i .alarmReturn k = .error .null := by
  refine bind_error ((bind_ok rfl).trans ?_)
  rw [htf, hf]
  rfl

/-- `alarm_return` reads through a null pointer exactly when its caller has no backup. A
process in its handler has one. -/
theorem alarmReturn_panics_iff {U : Trapframe} {io : Io} (h : Reachable k)
    (hst : (k.proc i).state = .runnable ∨ (k.proc i).state = .running)
    (hk : (k.proc i).killed = false) (hc : decode U io = .alarmReturn) :
    (panics k ⟨i, U, .ecall io⟩ = none ↔ (k.proc i).alarmTrapframe ≠ none) ∧
    ((k.proc i).alarmActive = true → panics k ⟨i, U, .ecall io⟩ = none) := by
  have hl : (k.proc i).Live := hst.elim Or.inl fun h => Or.inr (Or.inl h)
  obtain ⟨tf, htf⟩ := Option.ne_none_iff_exists'.mp ((h.wf i).live hl).1
  have hself := entered_self k i tf U
  have htf' : ((k.entered i tf U).proc i).trapframe =
      some { tf with regs := { U with epc := U.epc + 4 } } := by rw [hself]
  have none_of (hf : (k.proc i).alarmTrapframe ≠ none) : panics k ⟨i, U, .ecall io⟩ = none := by
    refine Option.eq_none_iff_forall_ne_some.mpr fun e he => ?_
    refine usertrap_ecall_fails (E := fun _ => False) htf hk ?_ ?_ e (panics_iff.mp he).2
    · rw [hc]
      exact call_alarmReturn_fails (htf' ▸ Option.some_ne_none _) (by rw [hself]; exact hf)
    · rw [hc]
      exact call_alarmReturn_alive (by rw [hself]; exact hk)
  refine ⟨⟨fun hp hf => ?_, none_of⟩, fun ha => none_of (h.backed.backup i ha)⟩
  have hcall : call i (decode U io) (k.entered i tf U) = .error .null := by
    rw [hc]
    exact call_alarmReturn_null htf' (by rw [hself]; exact hf)
  have : panics k ⟨i, U, .ecall io⟩ = some .null :=
    panics_iff.mpr ⟨hst, usertrap_ecall_error htf hk hcall⟩
  rw [hp] at this
  cases this

theorem alarmReturn_panics_iff_fired : ∃ k₀ k, small = some k₀ ∧
    run k₀ [ecall 0 26 1 0 0, timer 0 0] = some k ∧ panics k (ecall 0 28 0 0 0) = none := by
  have h : reaches [ecall 0 26 1 0 0, timer 0 0] (fun _ k => (k.proc 0).alarmActive = true ∧
      (k.proc 0).state = .runnable ∧ (k.proc 0).killed = false) = true := by decide +kernel
  obtain ⟨k₀, k, hb, hr, ht⟩ := reaches_iff.mp h
  obtain ⟨ha, hst, hk⟩ := of_decide_eq_true ht
  have h₀ : Reachable k := ⟨List.range 40, some initImage, [], k₀, _, List.nodup_range, hb, hr⟩
  exact ⟨k₀, k, hb, hr, (alarmReturn_panics_iff h₀ (Or.inl hst) hk rfl).2 ha⟩

theorem alarmReturn_without_backup : ∃ k₀, small = some k₀ ∧
    panics k₀ (ecall 0 28 0 0 0) = some .null := by
  have h : reaches [] (fun _ k => panics k (ecall 0 28 0 0 0) = some .null) = true := by
    decide +kernel
  obtain ⟨k₀, k, hb, hr, ht⟩ := reaches_iff.mp h
  cases hr
  exact ⟨k₀, hb, of_decide_eq_true ht⟩

end Kernel

end OsLab
