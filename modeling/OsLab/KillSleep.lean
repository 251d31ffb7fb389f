import OsLab.SemaphoreSound
import OsLab.ReapSound

/-!
# A kill and a process that goes to sleep

`sys_sem_wait`, `kwait` and `kwaitpid` look at `p->killed` and then call `sleep`,
and `kkill` needs neither `sem_lock` nor `wait_lock`. A process that is killed
between the look and `acquire(&p->lock)` in `sleep` goes to sleep all the same.
A kill at any other moment is seen, or wakes the process.
-/

namespace OsLab

namespace Sys
variable {C P D A : Type}

/-- The process has looked at `killed` for the last time before it is woken. -/
def Committed (s : Sys C P D) (i : Slot) : Prop :=
  match s.pc i with
  | .sleepLock _ _ | .sleepRelease _ _ | .sleepState _ _ => True
  | .sched _ _ => s.state i = .sleeping
  | _ => False

/-- `kkill` does not get to a process between its last look at `killed` and
`acquire(&p->lock)` in `sleep`. -/
def Timely (s : Sys C P D) : Act A → Prop
  | .kkill i => ∀ c p, s.pc i ≠ .sleepLock c p
  | _ => True

def Alert (s : Sys C P D) : Prop := ∀ i, s.Committed i → s.killed i = false

/-- Who is committed after the step was so before it, with the same `killed`, or is not killed. -/
def Heeds (s s' : Sys C P D) : Prop :=
  ∀ i, s'.Committed i → s'.killed i = false ∨ s.Committed i ∧ s'.killed i = s.killed i

section
variable {s s' : Sys C P D} {i : Slot}

theorem Alert.next (h : Alert s) (hs : Heeds s s') : Alert s' := by
  intro i hi
  obtain hno | ⟨hc, heq⟩ := hs i hi
  · exact hno
  · exact heq.trans (h i hc)

theorem Committed.of_pc (hpc : s'.pc i = s.pc i)
    (hst : s'.state i = .sleeping → (∃ c p, s.pc i = .sched c p) → s.state i = .sleeping)
    (h : s'.Committed i) : s.Committed i := by
  unfold Committed at *
  rw [hpc] at h
  split
  · trivial
  · trivial
  · trivial
  · rename_i c p heq
    rw [heq] at h
    exact hst h ⟨c, p, heq⟩
  · rename_i h₁ h₂ h₃ h₄
    split at h
    · exact h₁ _ _ ‹_›
    · exact h₂ _ _ ‹_›
    · exact h₃ _ _ ‹_›
    · exact absurd ‹_› (h₄ _ _)
    · exact h

theorem not_committed_code {p : P} (hpc : s.pc i = .code p) : ¬ s.Committed i := by
  simp [Committed, hpc]

variable [DecidableEq C]

theorem Switch.sleeping (h : Switch s s') (hi : s'.state i = .sleeping) :
    s.state i = .sleeping ∨ ∃ c p, s.pc i = .sleepState c p := by
  have awake {k : Slot} (st : ProcState) (hst : st ≠ .sleeping)
      (hk : Function.update s.state k st i = .sleeping) : s.state i = .sleeping := by
    by_cases hik : i = k
    · subst hik
      exact absurd ((Function.update_self ..).symm.trans hk) hst
    · exact (Function.update_of_ne hik ..).symm.trans hk
  cases h with
  | @sleepState k c p hpc hst =>
    by_cases hik : i = k
    · subst hik
      exact .inr ⟨c, p, hpc⟩
    · exact .inl ((Function.update_of_ne hik ..).symm.trans hi)
  | @wakeupAt k j c p =>
    obtain heq | ⟨-, heq⟩ := s.wakeupAt_cases j c <;> rw [heq] at hi
    · exact .inl hi
    · exact .inl (awake .runnable nofun hi)
  | @schedule k hst =>
    unfold Sys.schedule at hi
    split at hi <;> exact .inl (awake .running nofun hi)
  | yield hst => exact .inl (awake .runnable nofun hi)
  | @rouse k killed =>
    obtain heq | ⟨-, heq⟩ := Sys.rouse_cases { s with killed := killed } k <;> rw [heq] at hi
    · exact .inl hi
    · exact .inl (awake .runnable nofun hi)
  | _ => exact .inl hi

theorem Switch.committed (h : Switch s s') (hi : s'.Committed i) : s.Committed i := by
  obtain heq | hgoes := h.goes i
  · refine hi.of_pc heq fun hst hpc => ?_
    obtain ⟨c, p, hpc⟩ := hpc
    obtain hsl | ⟨c', p', hpc'⟩ := h.sleeping hst
    · exact hsl
    · rw [hpc] at hpc'
      cases hpc'
  · unfold Committed at *
    generalize s.pc i = pc, s'.pc i = pc' at *
    cases hgoes <;> trivial

variable {code : Slot → P → A → Sys C P D → Option (Sys C P D)} {a : Act A}

omit [DecidableEq C] in
theorem rouse_not_sleeping (s : Sys C P D) (i : Slot) : (s.rouse i).state i ≠ .sleeping := by
  unfold rouse
  split
  · simp
  · exact ‹_›

omit [DecidableEq C] in
theorem kkill_heeds {held : P → Bool} {k : Slot} (hl : Locked held s)
    (hk : ∀ c p, s.pc k ≠ .sleepLock c p) (hpl : s.plock k = false) :
    ¬ ({ s with killed := Function.update s.killed k true }.rouse k).Committed k := by
  have hpc : ({ s with killed := Function.update s.killed k true }.rouse k).pc k = s.pc k := by
    obtain h | ⟨-, h⟩ := rouse_cases { s with killed := Function.update s.killed k true } k <;> rw [h]
  have hst := rouse_not_sleeping { s with killed := Function.update s.killed k true } k
  have hlock (c : C) (p : P) := hl.plock k c p
  rw [hpl] at hlock
  unfold Committed
  rw [hpc]
  split
  · exact absurd ‹_› (hk _ _)
  · exact fun _ => absurd (hlock _ _ (.inl ‹_›)) nofun
  · exact fun _ => absurd (hlock _ _ (.inr ‹_›)) nofun
  · exact hst
  · exact id

omit [DecidableEq C] in
theorem Heeds.of_code (hself : s'.Committed i → s'.killed i = false)
    (hother : ∀ j ≠ i, (∃ p, s'.pc j = .code p) ∨
      s'.pc j = s.pc j ∧ (s'.state j = .sleeping → s.state j = .sleeping))
    (hkilled : ∀ j, s'.killed j = s.killed j ∨ s'.killed j = false) : Heeds s s' := by
  intro j hj
  by_cases hji : j = i
  · subst hji
    exact .inl (hself hj)
  · obtain ⟨p, hpc⟩ | ⟨hpc, hst⟩ := hother j hji
    · exact absurd hj (not_committed_code hpc)
    · obtain hsame | hno := hkilled j
      · exact .inr ⟨hj.of_pc hpc fun h _ => hst h, hsame⟩
      · exact .inl hno

theorem step_heeds {held : P → Bool} (hl : Locked held s)
    (hcode : ∀ i p x s', code i p x s = some s' → Heeds s s') (hok : Timely s a)
    (h : s.step code a = some s') : Heeds s s' := by
  obtain ⟨i, p, x, -, -, hstep⟩ | ⟨hsw, heq | ⟨k, rfl, hpl, rfl⟩⟩ := step_killed h
  · exact hcode i p x s' hstep
  · exact fun j hj => .inr ⟨hsw.committed hj, congrFun heq j⟩
  · intro j hj
    have hne : j ≠ k := by rintro rfl; exact kkill_heeds hl hok hpl hj
    refine .inr ⟨hsw.committed hj, ?_⟩
    rw [rouse_killed]
    exact Function.update_of_ne hne ..

theorem alert_of_runs {held : P → Bool} {I : Sys C P D → Prop} {s₀ : Sys C P D}
    (hl : ∀ s, I s → Locked held s) (hI : ∀ s a s', I s → s.step code a = some s' → I s')
    (hcode : ∀ s i p x s', code i p x s = some s' → Heeds s s') (h₀ : I s₀)
    (hpc : ∀ i, ∃ p, s₀.pc i = .code p) (h : Runs (step code) Timely s₀ s) : Alert s := by
  refine And.right (h.invariant (I := fun s => I s ∧ Alert s) ⟨h₀, fun i hi => ?_⟩ ?_)
  · obtain ⟨p, hp⟩ := hpc i
    exact absurd hi (not_committed_code hp)
  · intro s a s' hi hok hs
    exact ⟨hI s a s' hi.1 hs, hi.2.next (step_heeds (hl s hi.1) (hcode s) hok hs)⟩

end

end Sys

namespace Sem

open Sys

section
variable {i : Slot} {p : SemPlace} {x : SemCall} {s s' : SemSys}

theorem Move.killed (h : Move i s p s') (j : Slot) :
    s'.killed j = s.killed j ∨ s'.killed j = false := by
  cases h with
  | reap np hnp =>
    by_cases hj : j = np
    · subst hj; exact .inr (Function.update_self ..)
    · exact .inl (Function.update_of_ne hj ..)
  | _ => exact .inl rfl

theorem code_heeds (h : code i p x s = some s') : Heeds s s' := by
  have hm := code_move h
  refine .of_code (i := i) (fun hi => ?_) (fun j hj => ?_) hm.killed
  · cases hm with
    | waitSleep a =>
      -- `killed` has just been read
      unfold code at h
      dsimp only at h
      split at h
      · have hpc := congrArg (fun t : SemSys => t.pc i) (Option.some.inj h)
        simp [leave] at hpc
      · rename_i hno
        exact Bool.not_eq_true _ ▸ hno
    | postWrite a v => simp [Committed] at hi
    | _ => exact absurd hi (not_committed_code (goto_self ..))
  · obtain hpc | ⟨-, hpc⟩ := hm.other hj
    · refine .inr ⟨hpc, fun hst => ?_⟩
      obtain ⟨heq, -⟩ | ⟨-, hno, -⟩ := hm.state hj
      · exact heq ▸ hst
      · exact absurd hst hno
    · exact .inl ⟨_, hpc⟩

end

end Sem

namespace Reap

open Sys

section
variable {i : Slot} {p : ReapPlace} {x : ReapInput} {s s' : ReapSys}

theorem Move.killed (h : Move i s p s') (j : Slot) :
    s'.killed j = s.killed j ∨ s'.killed j = false := by
  have cleared {t : ReapSys} (k : Slot) (ht : t.killed = s.killed) :
      (freeproc t k).killed j = s.killed j ∨ (freeproc t k).killed j = false := by
    by_cases hj : j = k
    · subst hj; exact .inr (Function.update_self ..)
    · exact .inl ((Function.update_of_ne hj ..).trans (congrFun ht j))
  cases h with
  | noMemory np hnp => exact cleared np rfl
  | reap w k b => exact cleared k rfl
  | _ => exact .inl rfl

theorem scanEnd_killed {w : WaitArgs} {b : Bool} {c : Option Slot} {q : ReapPlace}
    (h : (scanEnd s i w b).pc i = .sleepLock c q) : s.killed i = false := by
  unfold scanEnd at h
  split at h
  · simp [leave] at h
  · rename_i hno
    simpa using (not_or.mp hno).2

theorem code_heeds (h : code i p x s = some s') : Heeds s s' := by
  have hm := code_move h
  refine .of_code (i := i) (fun hi => ?_) (fun j hj => ?_) hm.killed
  · cases hm with
    | waitSleep w k b hk =>
      unfold code at h
      dsimp only at h
      rw [dif_neg (by omega)] at h
      have hpc := congrArg (fun t : ReapSys => t.pc i) (Option.some.inj h)
      have hno : s.killed i = false := scanEnd_killed (hpc.trans (goto_self ..))
      exact hno
    | reparentChild status k hk => simp [Committed] at hi
    | reparentEnd status k hk => simp [Committed] at hi
    | _ => exact absurd hi (not_committed_code (goto_self ..))
  · obtain hpc | ⟨-, hpc⟩ := hm.other hj
    · refine .inr ⟨hpc, fun hst => ?_⟩
      obtain heq | ⟨-, h'⟩ | ⟨-, h'⟩ | ⟨-, -, h'⟩ | ⟨-, -, h', -⟩ := hm.state j
      · exact heq ▸ hst
      all_goals rw [hst] at h'; cases h'
    · exact .inl ⟨_, hpc⟩

end

end Reap

/-- In every run in which no kill comes between the look at `killed` and `acquire(&p->lock)` in
`sleep`: nobody is asleep in `sem_wait`, `kwait` or `kwaitpid` with `killed` set. -/
theorem kill_wakes_sleeper (i : Slot) :
    (∀ s₀ s, Sem.Start s₀ → Runs Sem.step Sys.Timely s₀ s →
      ∀ a, Sem.Asleep s i a → s.killed i = false) ∧
    ∀ s, Runs Reap.step Sys.Timely Reap.boot s →
      ∀ w, Reap.Asleep s i w → s.killed i = false := by
  refine ⟨fun s₀ s h₀ h a hi => ?_, fun s h w hi => ?_⟩
  · have halert : s.Alert := Sys.alert_of_runs (fun _ hi => hi.locked) (fun _ _ _ hi hs => hi.step hs)
      (fun _ _ _ _ _ => Sem.code_heeds) (Sem.Inv.start h₀) (fun i => ⟨_, h₀.pc i⟩) h
    refine halert i ?_
    simpa [Sys.Committed, hi.1] using hi.2
  · have halert : s.Alert := Sys.alert_of_runs (fun _ hi => hi.locked) (fun _ _ _ hi hs => hi.step hs)
      (fun _ _ _ _ _ => Reap.code_heeds) Reap.Inv.boot (fun i => ⟨_, rfl⟩) h
    obtain ⟨⟨c, k, b, hpc⟩, hst⟩ := hi
    refine halert i ?_
    simpa [Sys.Committed, hpc] using hst

def waitpidToSleep : List (Act ReapInput) :=
  [.schedule 0, .run 0 (.fork 1)] ++ List.replicate 69 (.run 0 (.waitpid ⟨2, 0⟩))

/-- Two threads sleep in `sem_wait`, and one of them is killed; a parent sleeps in `kwaitpid`, and
its child is killed, and then the parent. -/
theorem kill_wakes_sleeper_killed :
    (∃ s, Runs Sem.step Sys.Timely (Sem.alone 0) s ∧ s.killed 1 = true ∧ ¬ Sem.Asleep s 1 8 ∧
      Sem.Asleep s 0 8 ∧ s.killed 0 = false) ∧
    ∃ s s', Runs Reap.step Sys.Timely Reap.boot s ∧ s.killed 1 = true ∧ Reap.Asleep s 0 ⟨2, 0⟩ ∧
      s.killed 0 = false ∧ Reap.step s (.kkill 0) = some s' ∧ s'.killed 0 = true ∧
      ¬ Reap.Asleep s' 0 ⟨2, 0⟩ := by
  let both : List (Act SemCall) := [.run 0 (.clone 1 ((Sem.alone 0).data.space 0)), .schedule 1] ++
    List.replicate 7 (.run 1 (.wait 8)) ++ List.replicate 7 (.run 0 (.wait 8))
  have hsem : ∃ s s', steps Sem.step (Sem.alone 0) both = some s ∧ Sem.Asleep s 1 8 ∧
      Sem.step s (.kkill 1) = some s' ∧ s'.killed 1 = true ∧ Sem.Asleep s' 0 8 :=
    ⟨_, _, rfl, ⟨rfl, rfl⟩, rfl, rfl, rfl, rfl⟩
  have hreap : ∃ s s' s'', steps Reap.step Reap.boot
      (waitpidToSleep ++ List.replicate 3 (.run 0 (.waitpid ⟨2, 0⟩))) = some s ∧
      s.pc 1 = .code .user ∧ Reap.step s (.kkill 1) = some s' ∧ s'.killed 1 = true ∧
      Reap.Asleep s' 0 ⟨2, 0⟩ ∧ Reap.step s' (.kkill 0) = some s'' ∧ s''.killed 0 = true :=
    ⟨_, _, _, rfl, rfl, rfl, rfl, ⟨⟨_, _, _, rfl⟩, rfl⟩, rfl, rfl⟩
  obtain ⟨s₁, s, hs₁, hi₁, hs, hk, hi⟩ := hsem
  obtain ⟨t₁, t, t', ht₁, hp₁, ht, hkt, hj, ht', hkt'⟩ := hreap
  have hr : Runs Sem.step Sys.Timely (Sem.alone 0) s := by
    refine .next (.of_steps .start (fun s a ha => ?_) hs₁) ?_ hs
    · simp only [both, List.mem_append, List.mem_cons, List.mem_replicate] at ha
      obtain ((rfl | rfl | h) | ⟨-, rfl⟩) | ⟨-, rfl⟩ := ha
      all_goals trivial
    · exact fun c p h => by cases hi₁.1.symm.trans h
  have hr' : Runs Reap.step Sys.Timely Reap.boot t := by
    refine .next (.of_steps .start (fun s a ha => ?_) ht₁) ?_ ht
    · simp only [waitpidToSleep, List.mem_append, List.mem_cons, List.mem_replicate] at ha
      obtain ((rfl | rfl | h) | ⟨-, rfl⟩) | ⟨-, rfl⟩ := ha
      all_goals trivial
    · exact fun c p h => by cases hp₁.symm.trans h
  have hr'' : Runs Reap.step Sys.Timely Reap.boot t' := by
    obtain ⟨_, _, _, hpc⟩ := hj.1
    refine hr'.next ?_ ht'
    exact fun c p h => by cases hpc.symm.trans h
  refine ⟨⟨s, hr, hk, fun hno => ?_, hi, ?_⟩, t, t', hr', hkt, hj, ?_, ht', hkt', fun hno => ?_⟩
  · cases hk.symm.trans ((kill_wakes_sleeper 1).1 _ s (Sem.alone_start 0) hr 8 hno)
  · exact (kill_wakes_sleeper 0).1 _ s (Sem.alone_start 0) hr 8 hi
  · exact (kill_wakes_sleeper 0).2 t hr' _ hj
  · cases hkt'.symm.trans ((kill_wakes_sleeper 0).2 t' hr'' _ hno)

/-- The kill comes after the look at `killed`, and the process goes to sleep. -/
theorem kill_lost_in_sleep :
    (∃ s, steps Sem.step (Sem.alone 0) (List.replicate 4 (.run 0 (.wait 8)) ++ [.kkill 0] ++
      List.replicate 3 (.run 0 (.wait 8))) = some s ∧ Sem.Asleep s 0 8 ∧ s.killed 0 = true) ∧
    ∃ s, steps Reap.step Reap.boot (waitpidToSleep ++ [.kkill 0] ++
      List.replicate 3 (.run 0 (.waitpid ⟨2, 0⟩))) = some s ∧ Reap.Asleep s 0 ⟨2, 0⟩ ∧
      s.killed 0 = true :=
  ⟨⟨_, rfl, ⟨rfl, rfl⟩, rfl⟩, _, rfl, ⟨⟨_, _, _, rfl⟩, rfl⟩, rfl⟩

end OsLab
