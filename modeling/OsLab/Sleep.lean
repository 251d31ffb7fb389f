import OsLab.Proc

/-!
# Sleeping and waking

`sleep`, `wakeup`, `kkill` and the switches of the scheduler, for processes that
share one condition lock. What the processes do between these calls is a
parameter, the code of a group of system calls. A step of a process is a critical
section of some `p->lock`, or a part of one that another lock is taken or released
in.
-/

namespace OsLab

/-- Where a process is: at a place `p` in the code of the calls, or in a function that
returns to one. `c` is the channel. -/
inductive Pc (C P : Type)
  | code (p : P)
  | wakeup (c : C) (j : Nat) (p : P) -- before slot `j`
  | sleepLock (c : C) (p : P) -- before `acquire(&p->lock)`
  | sleepRelease (c : C) (p : P) -- before `release(lk)`
  | sleepState (c : C) (p : P) -- before `p->state = SLEEPING`
  | sched (c : C) (p : P)
  | reacquire (p : P) -- before `acquire(lk)`
deriving DecidableEq

namespace Pc
variable {C P : Type}

def next : Pc C P → P
  | code p | wakeup _ _ p | sleepLock _ p | sleepRelease _ p | sleepState _ p | sched _ p
  | reacquire p => p

def Waits (pc : Pc C P) (c : C) (p : P) : Prop :=
  pc = .sleepLock c p ∨ pc = .sleepRelease c p ∨ pc = .sleepState c p ∨ pc = .sched c p

end Pc

/-- The processes and their condition lock `lk`. `plock i` says that process `i` holds its
`p->lock` from one step to the next. -/
structure Sys (C P D : Type) where
  lk : Option Slot
  plock : Slot → Bool
  state : Slot → ProcState
  chan : Slot → Option C
  killed : Slot → Bool
  pc : Slot → Pc C P
  data : D

/-- A process makes its next step, with input `x`; or the scheduler, the timer, `kkill` or a
`wakeup` elsewhere in the kernel gets to a slot. -/
inductive Act (A : Type)
  | run (i : Slot) (x : A)
  | schedule (i : Slot)
  | yield (i : Slot)
  | kkill (i : Slot)
  | wake (i : Slot)

namespace Sys
variable {C P D A : Type}

def goto (s : Sys C P D) (i : Slot) (pc : Pc C P) : Sys C P D :=
  { s with pc := Function.update s.pc i pc }

@[simp] theorem goto_self (s : Sys C P D) (i : Slot) (pc : Pc C P) : (s.goto i pc).pc i = pc :=
  Function.update_self ..

theorem goto_other (s : Sys C P D) {i j : Slot} (pc : Pc C P) (h : j ≠ i) :
    (s.goto i pc).pc j = s.pc j :=
  Function.update_of_ne h ..

@[simp] theorem goto_lk (s : Sys C P D) (i : Slot) (pc : Pc C P) : (s.goto i pc).lk = s.lk := rfl

@[simp] theorem goto_data (s : Sys C P D) (i : Slot) (pc : Pc C P) :
    (s.goto i pc).data = s.data := rfl

@[simp] theorem goto_state (s : Sys C P D) (i : Slot) (pc : Pc C P) :
    (s.goto i pc).state = s.state := rfl

def rouse (s : Sys C P D) (i : Slot) : Sys C P D :=
  if s.state i = .sleeping then { s with state := Function.update s.state i .runnable } else s

section
variable [DecidableEq C]

def wakeupAt (s : Sys C P D) (j : Slot) (c : C) : Sys C P D :=
  if s.chan j = some c then s.rouse j else s

def sleepStep (s : Sys C P D) (i : Slot) : Option (Sys C P D) :=
  match s.pc i with
  | .code _ => none
  | .wakeup c j p =>
    if h : j < 64 then
      if j = i.val then some (s.goto i (.wakeup c (j + 1) p))
      else if s.plock ⟨j, h⟩ then none
      else some ((s.wakeupAt ⟨j, h⟩ c).goto i (.wakeup c (j + 1) p))
    else some (s.goto i (.code p))
  | .sleepLock c p =>
    if s.plock i then none
    else some ({ s with plock := Function.update s.plock i true }.goto i (.sleepRelease c p))
  | .sleepRelease c p => some ({ s with lk := none }.goto i (.sleepState c p))
  | .sleepState c p => some ({ s with
      chan := Function.update s.chan i (some c)
      state := Function.update s.state i .sleeping
      plock := Function.update s.plock i false }.goto i (.sched c p))
  | .sched _ _ => none
  | .reacquire p =>
    if s.lk = none then some ({ s with lk := some i }.goto i (.code p)) else none

def schedule (s : Sys C P D) (i : Slot) : Sys C P D :=
  match s.pc i with
  | .sched _ p => { s with
      state := Function.update s.state i .running
      chan := Function.update s.chan i none }.goto i (.reacquire p)
  | _ => { s with state := Function.update s.state i .running }

variable (code : Slot → P → A → Sys C P D → Option (Sys C P D))

def step (s : Sys C P D) : Act A → Option (Sys C P D)
  | .run i x =>
    match s.pc i with
    | .code p => if s.state i = .running ∨ s.state i = .zombie then code i p x s else none
    | _ => if s.state i = .running then s.sleepStep i else none
  | .schedule i => if s.state i = .runnable ∧ s.plock i = false then some (s.schedule i) else none
  | .yield i =>
    -- interrupts are off while a lock is held
    if s.state i = .running ∧ s.plock i = false ∧ s.lk ≠ some i then
      some { s with state := Function.update s.state i .runnable }
    else none
  | .kkill i =>
    if s.plock i then none
    else some ({ s with killed := Function.update s.killed i true }.rouse i)
  | .wake i => if s.plock i then none else some (s.rouse i)

inductive Switch (s : Sys C P D) : Sys C P D → Prop
  | wakeupSelf {i c p} (hpc : s.pc i = .wakeup c i p) : Switch s (s.goto i (.wakeup c (i + 1) p))
  | wakeupAt {i j : Slot} {c p} (hpc : s.pc i = .wakeup c j p) (hpl : s.plock j = false) :
    Switch s ((s.wakeupAt j c).goto i (.wakeup c (j + 1) p))
  | wakeupEnd {i c j p} (hpc : s.pc i = .wakeup c j p) (hj : 64 ≤ j) : Switch s (s.goto i (.code p))
  | sleepLock {i c p} (hpc : s.pc i = .sleepLock c p) :
    Switch s ({ s with plock := Function.update s.plock i true }.goto i (.sleepRelease c p))
  | sleepRelease {i c p} (hpc : s.pc i = .sleepRelease c p) :
    Switch s ({ s with lk := none }.goto i (.sleepState c p))
  | sleepState {i c p} (hpc : s.pc i = .sleepState c p) (hst : s.state i = .running) :
    Switch s ({ s with
      chan := Function.update s.chan i (some c)
      state := Function.update s.state i .sleeping
      plock := Function.update s.plock i false }.goto i (.sched c p))
  | reacquire {i p} (hpc : s.pc i = .reacquire p) (hlk : s.lk = none) :
    Switch s ({ s with lk := some i }.goto i (.code p))
  | schedule {i} (hst : s.state i = .runnable) : Switch s (s.schedule i)
  | yield {i} (hst : s.state i = .running) :
    Switch s { s with state := Function.update s.state i .runnable }
  | rouse {i} (killed : Slot → Bool) : Switch s ({ s with killed := killed }.rouse i)

theorem sleepStep_switch {s s' : Sys C P D} {i : Slot} (hst : s.state i = .running)
    (h : s.sleepStep i = some s') : Switch s s' := by
  unfold sleepStep at h
  split at h
  · cases h
  · rename_i c j p hpc
    split at h
    · rename_i hj
      split at h
      · rename_i hji
        cases h
        subst hji
        exact .wakeupSelf hpc
      · split at h
        · cases h
        · rename_i hpl
          cases h
          exact .wakeupAt (j := ⟨j, hj⟩) hpc (by simpa using hpl)
    · rename_i hj
      cases h
      exact .wakeupEnd hpc (by omega)
  · rename_i hpc
    split at h
    · cases h
    · cases h; exact .sleepLock hpc
  · rename_i hpc
    cases h
    exact .sleepRelease hpc
  · rename_i hpc
    cases h
    exact .sleepState hpc hst
  · cases h
  · rename_i hpc
    split at h
    · rename_i hlk
      cases h
      exact .reacquire hpc hlk
    · cases h

theorem step_cases {s s' : Sys C P D} {a : Act A} (h : s.step code a = some s') :
    (∃ i p x, a = .run i x ∧ s.pc i = .code p ∧ (s.state i = .running ∨ s.state i = .zombie) ∧
      code i p x s = some s') ∨ Switch s s' := by
  cases a with
  | run i x =>
    rw [step] at h
    split at h
    · rename_i p hpc
      split at h
      · rename_i hst
        exact .inl ⟨i, p, x, rfl, hpc, hst, h⟩
      · cases h
    · split at h
      · rename_i hst
        exact .inr (sleepStep_switch hst h)
      · cases h
  | schedule i =>
    rw [step] at h
    split at h
    · rename_i hst
      cases h
      exact .inr (.schedule hst.1)
    · cases h
  | yield i =>
    rw [step] at h
    split at h
    · rename_i hst
      cases h
      exact .inr (.yield hst.1)
    · cases h
  | kkill i =>
    rw [step] at h
    split at h
    · cases h
    · cases h; exact .inr (.rouse _)
  | wake i =>
    rw [step] at h
    split at h
    · cases h
    · cases h; exact .inr (.rouse s.killed)

/-! ## What switches keep -/

theorem rouse_cases {C P D : Type} (s : Sys C P D) (i : Slot) :
    s.rouse i = s ∨ (s.state i = .sleeping ∧
      s.rouse i = { s with state := Function.update s.state i .runnable }) := by
  unfold rouse
  split
  · exact .inr ⟨‹_›, rfl⟩
  · exact .inl rfl

theorem wakeupAt_cases (s : Sys C P D) (j : Slot) (c : C) :
    s.wakeupAt j c = s ∨ (s.state j = .sleeping ∧
      s.wakeupAt j c = { s with state := Function.update s.state j .runnable }) := by
  unfold wakeupAt
  split
  · exact s.rouse_cases j
  · exact .inl rfl

section
variable {code : Slot → P → A → Sys C P D → Option (Sys C P D)}

omit [DecidableEq C] in
theorem rouse_killed (s : Sys C P D) (i : Slot) : (s.rouse i).killed = s.killed := by
  obtain h | ⟨-, h⟩ := s.rouse_cases i <;> rw [h]

theorem sleepStep_killed {s s' : Sys C P D} {i : Slot} (h : s.sleepStep i = some s') : s'.killed = s.killed := by
  unfold sleepStep at h
  split at h
  · cases h
  · rename_i c j p hpc
    split at h
    · split at h
      · cases h; rfl
      · split at h
        · cases h
        · cases h
          obtain heq | ⟨-, heq⟩ := s.wakeupAt_cases ⟨j, ‹_›⟩ c <;> rw [heq] <;> rfl
    · cases h; rfl
  · split at h <;> cases h; rfl
  · cases h; rfl
  · cases h; rfl
  · cases h
  · split at h <;> cases h; rfl

/-- A step outside the code of the calls leaves `killed` alone, unless it is `kkill`. -/
theorem step_killed {s s' : Sys C P D} {a : Act A} (h : s.step code a = some s') :
    (∃ i p x, a = .run i x ∧ s.pc i = .code p ∧ code i p x s = some s') ∨ Switch s s' ∧ (s'.killed = s.killed ∨
      ∃ k, a = .kkill k ∧ s.plock k = false ∧
        s' = { s with killed := Function.update s.killed k true }.rouse k) := by
  obtain ⟨i, p, x, ha, hpc, -, hcode⟩ | hsw := step_cases _ h
  · exact .inl ⟨i, p, x, ha, hpc, hcode⟩
  · cases a with
    | run i x =>
      rw [step] at h
      split at h
      · obtain ⟨-, hcode⟩ := Option.ite_none_right_eq_some.mp h
        exact .inl ⟨_, _, _, rfl, ‹_›, hcode⟩
      · obtain ⟨-, hstep⟩ := Option.ite_none_right_eq_some.mp h
        exact .inr ⟨hsw, .inl (sleepStep_killed hstep)⟩
    | schedule i =>
      obtain ⟨-, h⟩ := Option.ite_none_right_eq_some.mp h
      cases h
      refine .inr ⟨hsw, .inl ?_⟩
      unfold Sys.schedule
      split <;> rfl
    | yield i =>
      obtain ⟨-, h⟩ := Option.ite_none_right_eq_some.mp h
      cases h
      exact .inr ⟨hsw, .inl rfl⟩
    | kkill i =>
      obtain ⟨hpl, h⟩ := Option.ite_none_left_eq_some.mp h
      cases h
      exact .inr ⟨hsw, .inr ⟨i, rfl, by simpa using hpl, rfl⟩⟩
    | wake i =>
      obtain ⟨-, h⟩ := Option.ite_none_left_eq_some.mp h
      cases h
      exact .inr ⟨hsw, .inl (rouse_killed s i)⟩

end

end

end Sys

def ProcState.Active (st : ProcState) : Prop := st = .runnable ∨ st = .running ∨ st = .sleeping

instance (st : ProcState) : Decidable st.Active := inferInstanceAs (Decidable (_ ∨ _))

namespace Sys
variable {C P D A : Type}

structure Frame (s s' : Sys C P D) : Prop where
  data : s'.data = s.data
  next : ∀ j, (s'.pc j).next = (s.pc j).next
  state : ∀ j, s'.state j = s.state j ∨ (s.state j).Active ∧ (s'.state j).Active

namespace Frame
variable {s s' : Sys C P D}

theorem goto {i : Slot} {pc : Pc C P} (h : Frame s s') (hpc : pc.next = (s.pc i).next) :
    Frame s (s'.goto i pc) where
  data := h.data
  next := fun j => by
    by_cases hj : j = i
    · rw [hj, goto_self, hpc]
    · rw [goto_other _ _ hj, h.next j]
  state := h.state

theorem set {i : Slot} {st : ProcState} (hi : (s.state i).Active) (hst : st.Active) :
    Frame s { s with state := Function.update s.state i st } where
  data := rfl
  next := fun _ => rfl
  state := fun j => by
    by_cases hj : j = i
    · subst hj
      exact .inr ⟨hi, by simpa using hst⟩
    · exact .inl (Function.update_of_ne hj ..)

theorem state_iff (h : Frame s s') {j : Slot} {st : ProcState} (hst : ¬ st.Active) :
    s'.state j = st ↔ s.state j = st := by
  obtain heq | ⟨hact, hact'⟩ := h.state j
  · rw [heq]
  · exact iff_of_false (fun hj => hst (hj ▸ hact')) fun hj => hst (hj ▸ hact)

theorem refl (s : Sys C P D) : Frame s s := ⟨rfl, fun _ => rfl, fun _ => .inl rfl⟩

theorem of_rouse {i : Slot} : Frame s (s.rouse i) := by
  obtain h | ⟨hst, h⟩ := s.rouse_cases i
  · rw [h]; exact refl s
  · rw [h]; exact set (.inr (.inr hst)) (.inl rfl)

end Frame

variable [DecidableEq C]

theorem Switch.frame {s s' : Sys C P D} (h : Switch s s') : Frame s s' := by
  cases h with
  | wakeupSelf hpc => exact (Frame.refl s).goto (by rw [hpc]; rfl)
  | @wakeupAt i j c p hpc hpl =>
    have hf : Frame s (s.wakeupAt j c) := by
      unfold Sys.wakeupAt
      split
      · exact Frame.of_rouse
      · exact Frame.refl s
    exact hf.goto (by rw [hpc]; rfl)
  | wakeupEnd hpc hj => exact (Frame.refl s).goto (by rw [hpc]; rfl)
  | sleepLock hpc => exact Frame.goto ⟨rfl, fun _ => rfl, fun _ => .inl rfl⟩ (by rw [hpc]; rfl)
  | sleepRelease hpc => exact Frame.goto ⟨rfl, fun _ => rfl, fun _ => .inl rfl⟩ (by rw [hpc]; rfl)
  | @sleepState i c p hpc hst =>
    have hf : Frame s { s with state := Function.update s.state i .sleeping } :=
      Frame.set (.inr (.inl hst)) (.inr (.inr rfl))
    exact Frame.goto ⟨rfl, fun _ => rfl, hf.state⟩ (by rw [hpc]; rfl)
  | reacquire hpc hlk => exact Frame.goto ⟨rfl, fun _ => rfl, fun _ => .inl rfl⟩ (by rw [hpc]; rfl)
  | @schedule i hst =>
    have hf : Frame s { s with state := Function.update s.state i .running } :=
      Frame.set (.inl hst) (.inr (.inl rfl))
    unfold Sys.schedule
    split
    · rename_i hpc
      exact Frame.goto ⟨rfl, fun _ => rfl, hf.state⟩ (by rw [show s.pc i = _ from hpc]; rfl)
    · exact hf
  | yield hst => exact Frame.set (.inr (.inl hst)) (.inl rfl)
  | rouse killed => exact ⟨Frame.of_rouse.data, Frame.of_rouse.next, Frame.of_rouse.state⟩

/-! ## The locks -/

end Sys

def Pc.holds {C P : Type} (held : P → Bool) : Pc C P → Bool
  | .code p => held p
  | .wakeup _ _ _ | .sleepLock _ _ | .sleepRelease _ _ => true
  | .sleepState _ _ | .sched _ _ | .reacquire _ => false

def Pc.IsCode {C P : Type} (pc : Pc C P) : Prop := ∃ p, pc = .code p

namespace Sys
variable {C P D : Type}

inductive Goes : Pc C P → Pc C P → Prop
  | wakeupNext {c k p} : Goes (.wakeup c k p) (.wakeup c (k + 1) p)
  | wakeupEnd {c k p} : Goes (.wakeup c k p) (.code p)
  | sleepLock {c p} : Goes (.sleepLock c p) (.sleepRelease c p)
  | sleepRelease {c p} : Goes (.sleepRelease c p) (.sleepState c p)
  | sleepState {c p} : Goes (.sleepState c p) (.sched c p)
  | sched {c p} : Goes (.sched c p) (.reacquire p)
  | reacquire {p} : Goes (.reacquire p) (.code p)

theorem Switch.goes [DecidableEq C] {s s' : Sys C P D} (h : Switch s s') (j : Slot) :
    s'.pc j = s.pc j ∨ Goes (s.pc j) (s'.pc j) := by
  have moved {t : Sys C P D} {i : Slot} {pc : Pc C P} (ht : t.pc = s.pc) (hi : Goes (s.pc i) pc) :
      (t.goto i pc).pc j = s.pc j ∨ Goes (s.pc j) ((t.goto i pc).pc j) := by
    by_cases hji : j = i
    · subst hji; rw [goto_self]; exact .inr hi
    · rw [goto_other _ _ hji, ht]; exact .inl rfl
  cases h with
  | wakeupSelf hpc => exact moved rfl (hpc ▸ .wakeupNext)
  | @wakeupAt i j₀ c p hpc hpl =>
    obtain heq | ⟨-, heq⟩ := s.wakeupAt_cases j₀ c <;> rw [heq] <;>
      exact moved rfl (hpc ▸ .wakeupNext)
  | wakeupEnd hpc hk => exact moved rfl (hpc ▸ .wakeupEnd)
  | sleepLock hpc => exact moved rfl (hpc ▸ .sleepLock)
  | sleepRelease hpc => exact moved rfl (hpc ▸ .sleepRelease)
  | sleepState hpc hst => exact moved rfl (hpc ▸ .sleepState)
  | reacquire hpc hlk => exact moved rfl (hpc ▸ .reacquire)
  | @schedule i hst =>
    unfold Sys.schedule
    split
    · rename_i hpc
      exact moved rfl (hpc ▸ .sched)
    · exact .inl rfl
  | yield hst => exact .inl rfl
  | @rouse i killed =>
    obtain heq | ⟨-, heq⟩ := Sys.rouse_cases { s with killed := killed } i <;> rw [heq] <;>
      exact .inl rfl

theorem Switch.lk_cases [DecidableEq C] {s s' : Sys C P D} (h : Switch s s') : s'.lk = s.lk ∨
    (∃ i c p, s.pc i = .sleepRelease c p ∧ s'.lk = none) ∨
    ∃ i p, s.pc i = .reacquire p ∧ s.lk = none ∧ s'.lk = some i := by
  cases h with
  | sleepRelease hpc => exact .inr (.inl ⟨_, _, _, hpc, rfl⟩)
  | reacquire hpc hlk => exact .inr (.inr ⟨_, _, hpc, hlk, rfl⟩)
  | @wakeupAt i j c p =>
    obtain heq | ⟨-, heq⟩ := s.wakeupAt_cases j c <;> rw [heq] <;> exact .inl rfl
  | @schedule i =>
    unfold Sys.schedule
    split <;> exact .inl rfl
  | @rouse i killed =>
    obtain heq | ⟨-, heq⟩ := Sys.rouse_cases { s with killed := killed } i <;> rw [heq] <;>
      exact .inl rfl
  | _ => exact .inl rfl

theorem Switch.plock_of_code [DecidableEq C] {s s' : Sys C P D} (h : Switch s s') {j : Slot}
    (hj : (s.pc j).IsCode) : s'.plock j = s.plock j := by
  obtain ⟨q, hq⟩ := hj
  cases h with
  | @sleepLock i c p hpc =>
    have hne : j ≠ i := by rintro rfl; rw [hq] at hpc; cases hpc
    exact Function.update_of_ne hne ..
  | @sleepState i c p hpc =>
    have hne : j ≠ i := by rintro rfl; rw [hq] at hpc; cases hpc
    exact Function.update_of_ne hne ..
  | @wakeupAt i j₀ c p =>
    obtain heq | ⟨-, heq⟩ := s.wakeupAt_cases j₀ c <;> rw [heq] <;> rfl
  | @schedule i =>
    unfold Sys.schedule
    split <;> rfl
  | @rouse i killed =>
    obtain heq | ⟨-, heq⟩ := Sys.rouse_cases { s with killed := killed } i <;> rw [heq]
  | _ => rfl

theorem Switch.waits [DecidableEq C] {s s' : Sys C P D} (h : Switch s s') {j : Slot} {c : C} {p : P}
    (hj : (s'.pc j).Waits c p) : (s.pc j).Waits c p := by
  obtain heq | hgoes := h.goes j
  · exact heq ▸ hj
  · generalize s.pc j = pc, s'.pc j = pc' at *
    cases hgoes <;> simp_all [Pc.Waits]

theorem Switch.reacquire_of [DecidableEq C] {s s' : Sys C P D} (h : Switch s s') {j : Slot} {p : P}
    (hj : s'.pc j = .reacquire p) : s.pc j = .reacquire p ∨ ∃ c, (s.pc j).Waits c p := by
  obtain heq | hgoes := h.goes j
  · exact .inl (heq ▸ hj)
  · rw [hj] at hgoes
    generalize s.pc j = pc at *
    cases hgoes
    exact .inr ⟨_, .inr (.inr (.inr rfl))⟩

theorem Switch.wakeup_of [DecidableEq C] {s s' : Sys C P D} (h : Switch s s') {j : Slot} {c : C}
    {k : Nat} {p : P} (hj : s'.pc j = .wakeup c k p) : ∃ k', s.pc j = .wakeup c k' p := by
  obtain heq | hgoes := h.goes j
  · exact ⟨k, heq ▸ hj⟩
  · rw [hj] at hgoes
    generalize s.pc j = pc at *
    cases hgoes
    exact ⟨_, rfl⟩

/-- Who holds what. `wakeup` and `sleep` return to code that holds `lk`. -/
structure Locked (held : P → Bool) (s : Sys C P D) : Prop where
  lk : ∀ i, (s.pc i).holds held = true ↔ s.lk = some i
  ret : ∀ i, ¬ (s.pc i).IsCode → held (s.pc i).next = true
  plock : ∀ i c p, s.pc i = .sleepRelease c p ∨ s.pc i = .sleepState c p → s.plock i = true

/-- What the code of the calls does with the locks in a step of process `i` at place `p`. -/
structure CodeStep (held : P → Bool) (i : Slot) (p : P) (s s' : Sys C P D) : Prop where
  other : ∀ j, j ≠ i → s'.pc j = s.pc j ∨
    ∃ q q', s.pc j = .code q ∧ s'.pc j = .code q' ∧ held q = false ∧ held q' = false
  own : (s'.pc i).IsCode ∨ held (s'.pc i).next = true ∧
    ((∃ c q, s'.pc i = .wakeup c 0 q) ∨ ∃ c q, s'.pc i = .sleepLock c q)
  lk : s'.lk = if (s'.pc i).holds held = held p then s.lk else if held p then none else some i
  free : held p = false → (s'.pc i).holds held = true → s.lk = none
  plock : ∀ j, j ≠ i → s.plock j = true → s'.plock j = true

namespace Locked
variable {held : P → Bool} {s s' : Sys C P D} {i : Slot}

theorem holder (h : Locked held s) {j : Slot} (hi : (s.pc i).holds held = true)
    (hj : (s.pc j).holds held = true) : j = i :=
  Option.some.inj (((h.lk j).mp hj).symm.trans ((h.lk i).mp hi))

/-- A step of process `i` that leaves `lk` alone or takes or releases it. -/
theorem of_step (h : Locked held s)
    (hother : ∀ j, j ≠ i → s'.pc j = s.pc j ∨
      ∃ q q', s.pc j = .code q ∧ s'.pc j = .code q' ∧ held q = false ∧ held q' = false)
    (hlk : s'.lk = if (s'.pc i).holds held then some i else
      if (s.pc i).holds held then none else s.lk)
    (hfree : (s'.pc i).holds held = true → (s.pc i).holds held = true ∨ s.lk = none)
    (hret : ¬ (s'.pc i).IsCode → held (s'.pc i).next = true)
    (hpl : ∀ j, j ≠ i → s.plock j = true → s'.plock j = true)
    (hpli : ∀ c p, s'.pc i = .sleepRelease c p ∨ s'.pc i = .sleepState c p → s'.plock i = true) :
    Locked held s' where
  lk := fun j => by
    by_cases hj : j = i
    · subst hj
      rw [hlk]
      have hwas := h.lk j
      cases hold : (s'.pc j).holds held with
      | true => simp
      | false => cases hbefore : (s.pc j).holds held <;> simp_all
    · have hsame : (s'.pc j).holds held = (s.pc j).holds held := by
        obtain heq | ⟨q, q', hq, hq', hf, hf'⟩ := hother j hj
        · rw [heq]
        · rw [hq, hq']; exact hf'.trans hf.symm
      rw [hsame, h.lk j, hlk]
      have hi := h.lk i
      cases hold : (s'.pc i).holds held with
      | true =>
        rw [if_pos rfl]
        refine iff_of_false (fun hlk => ?_) fun hji => hj (Option.some.inj hji).symm
        obtain hheld | hnone := hfree hold
        · exact hj (Option.some.inj (hlk.symm.trans (hi.mp hheld)))
        · rw [hnone] at hlk; cases hlk
      | false =>
        cases hwas : (s.pc i).holds held with
        | true =>
          have := hi.mp hwas
          simp [this, Ne.symm hj]
        | false => simp
  ret := fun j => by
    by_cases hj : j = i
    · subst hj; exact hret
    · obtain heq | ⟨q, q', -, hq', -⟩ := hother j hj
      · rw [heq]; exact h.ret j
      · exact fun hno => absurd ⟨q', hq'⟩ hno
  plock := fun j c p hw => by
    by_cases hj : j = i
    · subst hj; exact hpli c p hw
    · obtain heq | ⟨q, q', -, hq', -⟩ := hother j hj
      · rw [heq] at hw; exact hpl j hj (h.plock j c p hw)
      · rw [hq'] at hw; simp at hw

theorem code {p : P} (h : Locked held s) (hpc : s.pc i = .code p) (hs : CodeStep held i p s s') :
    Locked held s' := by
  have hheld : (s.pc i).holds held = held p := by rw [hpc]; rfl
  refine h.of_step hs.other ?_ (fun hnew => ?_) (fun hno => ?_) hs.plock fun c q hw => ?_
  · rw [hs.lk, hheld]
    have hlk := h.lk i
    rw [hheld] at hlk
    cases hp : held p with
    | true => rw [hlk.mp hp]
    | false => cases (s'.pc i).holds held <;> rfl
  · rw [hheld]
    cases hp : held p with
    | true => exact .inl rfl
    | false => exact .inr (hs.free hp hnew)
  · exact (hs.own.resolve_left hno).1
  · obtain ⟨q', hq⟩ | ⟨-, ⟨c', q', hq⟩ | ⟨c', q', hq⟩⟩ := hs.own <;> simp [hq] at hw

theorem of_goto {t : Sys C P D} {pc : Pc C P} (h : Locked held s) (hpc : t.pc = s.pc)
    (hlk : t.lk = if pc.holds held then some i else if (s.pc i).holds held then none else s.lk)
    (hfree : pc.holds held = true → (s.pc i).holds held = true ∨ s.lk = none)
    (hret : ¬ pc.IsCode → held pc.next = true)
    (hpl : ∀ j, j ≠ i → s.plock j = true → t.plock j = true)
    (hpli : ∀ c p, pc = .sleepRelease c p ∨ pc = .sleepState c p → t.plock i = true) :
    Locked held (t.goto i pc) := by
  refine h.of_step (i := i) (fun j hj => .inl ?_) ?_ ?_ ?_ hpl ?_
  · rw [goto_other _ _ hj, hpc]
  · rw [goto_self]; exact hlk
  · rw [goto_self]; exact hfree
  · rw [goto_self]; exact hret
  · rw [goto_self]; exact hpli

theorem congr (h : Locked held s) (hpc : s'.pc = s.pc) (hlk : s'.lk = s.lk) (hpl : s'.plock = s.plock) :
    Locked held s' := by
  refine ⟨?_, ?_, ?_⟩
  · rw [hpc, hlk]; exact h.lk
  · rw [hpc]; exact h.ret
  · rw [hpc, hpl]; exact h.plock

theorem switch [DecidableEq C] (h : Locked held s) (hs : Switch s s') : Locked held s' := by
  have ret {i : Slot} {pc : Pc C P} (hi : s.pc i = pc) (hno : ¬ pc.IsCode) : held pc.next = true :=
    hi ▸ h.ret i (hi ▸ hno)
  have lock {i : Slot} (hi : (s.pc i).holds held = true) : s.lk = some i := (h.lk i).mp hi
  cases hs with
  | @wakeupSelf i c p hpc =>
    have hp : held p = true := ret hpc nofun
    have hi : (s.pc i).holds held = true := by rw [hpc]; rfl
    exact h.of_goto rfl (lock hi) (fun _ => .inl hi) (fun _ => hp) (fun _ _ hpl => hpl)
      fun _ _ hw => by simp at hw
  | @wakeupAt i j c p hpc hpl =>
    have hp : held p = true := ret hpc nofun
    have hi : (s.pc i).holds held = true := by rw [hpc]; rfl
    have stay (st : Slot → ProcState) : Locked held
        ({ s with state := st }.goto i (.wakeup c (j + 1) p)) :=
      h.of_goto rfl (lock hi) (fun _ => .inl hi) (fun _ => hp) (fun _ _ hpl => hpl)
        fun _ _ hw => by simp at hw
    obtain heq | ⟨-, heq⟩ := s.wakeupAt_cases j c <;> rw [heq]
    · exact stay s.state
    · exact stay _
  | @wakeupEnd i c j p hpc hj =>
    have hp : held p = true := ret hpc nofun
    have hi : (s.pc i).holds held = true := by rw [hpc]; rfl
    refine h.of_goto rfl ?_ (fun _ => .inl hi) (fun _ => hp) (fun _ _ hpl => hpl)
      fun _ _ hw => by simp at hw
    exact (lock hi).trans (if_pos hp).symm
  | @sleepLock i c p hpc =>
    have hp : held p = true := ret hpc nofun
    have hi : (s.pc i).holds held = true := by rw [hpc]; rfl
    refine h.of_goto rfl (lock hi) (fun _ => .inl hi) (fun _ => hp) (fun j hj hpl => ?_)
      fun _ _ _ => Function.update_self ..
    exact (Function.update_of_ne hj ..).trans hpl
  | @sleepRelease i c p hpc =>
    have hp : held p = true := ret hpc nofun
    have hi : (s.pc i).holds held = true := by rw [hpc]; rfl
    refine h.of_goto rfl ?_ nofun (fun _ => hp) (fun _ _ hpl => hpl) fun _ _ _ => ?_
    · rw [hi]; rfl
    · exact h.plock i c p (.inl hpc)
  | @sleepState i c p hpc hst =>
    have hp : held p = true := ret hpc nofun
    have hi : (s.pc i).holds held = false := by rw [hpc]; rfl
    refine h.of_goto rfl ?_ nofun (fun _ => hp) (fun j hj hpl => ?_) fun _ _ hw => by simp at hw
    · rw [hi]; rfl
    · exact (Function.update_of_ne hj ..).trans hpl
  | @reacquire i p hpc hlk =>
    have hp : held p = true := ret hpc nofun
    refine h.of_goto rfl ?_ (fun _ => .inr hlk) (fun _ => hp) (fun _ _ hpl => hpl)
      fun _ _ hw => by simp at hw
    exact (if_pos hp).symm
  | @schedule i hst =>
    unfold Sys.schedule
    split
    · rename_i c p hpc
      have hp : held p = true := ret hpc nofun
      have hi : (s.pc i).holds held = false := by rw [hpc]; rfl
      refine h.of_goto rfl ?_ nofun (fun _ => hp) (fun _ _ hpl => hpl) fun _ _ hw => by simp at hw
      rw [hi]
      rfl
    · exact h.congr rfl rfl rfl
  | yield hst => exact h.congr rfl rfl rfl
  | @rouse i killed =>
    obtain heq | ⟨-, heq⟩ := Sys.rouse_cases { s with killed := killed } i <;> rw [heq] <;>
      exact h.congr rfl rfl rfl

end Locked

end Sys

end OsLab
