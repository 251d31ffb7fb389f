import OsLab.Reap

/-!
# Children and zombies

What holds in every run of `Reap.lean`: the parent of a process is alive, and no
process sleeps in `kwait` or `kwaitpid` while `wait_lock` is free and it has a
zombie child to reap.
-/

namespace OsLab

namespace Reap

open Sys

inductive Move (i : Slot) (s : ReapSys) : ReapPlace → ReapSys → Prop
  | fork (np : Slot) (hnp : s.state np = .unused) : Move i s .user
    ((record (allocated s np) (.created s.data.numbers s.data.nextpid)).goto i
      (.code (.forkParent np)))
  | noMemory (np : Slot) (hnp : s.state np = .unused) : Move i s .user
    ((freeproc (allocated s np) np).goto i (.code .user))
  | exit (status : BitVec 32) (hi : i ≠ initproc) :
    Move i s .user (s.goto i (.code (.exitAcquire status)))
  | wait (w : WaitArgs) : Move i s .user (s.goto i (.code (.waitAcquire w)))
  | forkParent (np : Slot) (hlk : s.lk = none) : Move i s (.forkParent np)
    ((setParent s np i).goto i (.code (.forkState np)))
  | forkState (np : Slot) : Move i s (.forkState np)
    ({ s with state := Function.update s.state np .runnable }.goto i (.code .user))
  | exitAcquire (status : BitVec 32) (hlk : s.lk = none) : Move i s (.exitAcquire status)
    ({ s with lk := some i }.goto i (.code (.reparent status 0)))
  | reparentOther (status : BitVec 32) (k : Slot) (hk : s.data.parent k ≠ some i) :
    Move i s (.reparent status k) (s.goto i (.code (.reparent status (k + 1))))
  | reparentChild (status : BitVec 32) (k : Slot) (hk : s.data.parent k = some i) :
    Move i s (.reparent status k)
      ((setParent s k initproc).goto i (.wakeup (some initproc) 0 (.reparent status (k + 1))))
  | reparentEnd (status : BitVec 32) (k : Nat) (hk : 64 ≤ k) : Move i s (.reparent status k)
    (s.goto i (.wakeup (s.data.parent i) 0 (.exitLock status (s.data.parent i))))
  | exitLock (status : BitVec 32) (c : Option Slot) : Move i s (.exitLock status c)
    ((record (becomeZombie s i status) (.exited (s.data.number i) status)).goto i
      (.code .exitUnlock))
  | exitUnlock : Move i s .exitUnlock ({ s with lk := none }.goto i (.code .exitSched))
  | exitSched : Move i s .exitSched
    ({ s with plock := Function.update s.plock i false }.goto i (.code .dead))
  | waitAcquire (w : WaitArgs) (hlk : s.lk = none) : Move i s (.waitAcquire w)
    ({ s with lk := some i }.goto i (.code (.scan w 0 false)))
  | scanOther (w : WaitArgs) (k : Slot) (b : Bool)
    (hk : ¬ (s.data.parent k = some i ∧ w.wants (s.data.pid k))) :
    Move i s (.scan w k b) (s.goto i (.code (.scan w (k + 1) b)))
  | scanChild (w : WaitArgs) (k : Slot) (b : Bool) (hst : s.state k ≠ .zombie) :
    Move i s (.scan w k b) (s.goto i (.code (.scan w (k + 1) true)))
  | reap (w : WaitArgs) (k : Slot) (b : Bool) (hk : s.data.parent k = some i)
    (hpl : s.plock k = false) (hst : s.state k = .zombie) :
    Move i s (.scan w k b) (Reap.reap s i k)
  | waitReturn (w : WaitArgs) (k : Nat) (b : Bool) : Move i s (.scan w k b) (leave s i)
  | waitSleep (w : WaitArgs) (k : Nat) (b : Bool) (hk : 64 ≤ k) : Move i s (.scan w k b)
    (s.goto i (.sleepLock (some i) (.scan w 0 false)))

section
variable {i : Slot} {p : ReapPlace} {x : ReapInput} {s s' : ReapSys}

theorem allocproc_some {np : Slot} (h : allocproc s np = some s') :
    s.state np = .unused ∧ s' = allocated s np := by
  obtain ⟨⟨hst, -⟩, h⟩ := Option.ite_none_right_eq_some.mp h
  cases h
  exact ⟨hst, rfl⟩

theorem fork_move {np : Slot} (h : fork s i np = some s') : Move i s .user s' := by
  obtain ⟨t, ht, rfl⟩ := Option.map_eq_some_iff.mp h
  obtain ⟨hst, rfl⟩ := allocproc_some ht
  exact .fork np hst

theorem scanSlot_move {w : WaitArgs} {k : Slot} {b : Bool} (h : scanSlot s i w k b x = some s') :
    Move i s (.scan w k b) s' := by
  unfold scanSlot at h
  split at h
  · rename_i hk
    split at h
    · cases h
    · rename_i hpl
      split at h
      · rename_i hst
        split at h
        · cases h; exact .reap w k b hk.1 (by simpa using hpl) hst
        · cases h; exact .waitReturn w k b
        · cases h
      · rename_i hst
        cases h
        exact .scanChild w k b hst
  · rename_i hk
    cases h
    exact .scanOther w k b hk

theorem scanEnd_move {w : WaitArgs} {k : Nat} {b : Bool} (hk : 64 ≤ k) :
    Move i s (.scan w k b) (scanEnd s i w b) := by
  unfold scanEnd
  split
  · exact .waitReturn w k b
  · split
    · exact .waitReturn w k b
    · exact .waitSleep w k b hk

theorem code_move (h : code i p x s = some s') : Move i s p s' := by
  cases p with
  | user =>
    cases x with
    | fork np => exact fork_move h
    | clone np => exact fork_move h
    | noMemory np =>
      obtain ⟨t, ht, rfl⟩ := Option.map_eq_some_iff.mp h
      obtain ⟨hst, rfl⟩ := allocproc_some ht
      exact .noMemory np hst
    | exit status =>
      obtain ⟨hi, h⟩ := Option.ite_none_left_eq_some.mp h
      cases h
      exact .exit status hi
    | wait => cases h; exact .wait _
    | waitpid w => cases h; exact .wait w
    | copyout ok => cases h
  | forkParent np =>
    obtain ⟨hlk, h⟩ := Option.ite_none_right_eq_some.mp h
    cases h
    exact .forkParent np hlk
  | forkState np =>
    obtain ⟨-, h⟩ := Option.ite_none_left_eq_some.mp h
    cases h
    exact .forkState np
  | exitAcquire status =>
    obtain ⟨hlk, h⟩ := Option.ite_none_right_eq_some.mp h
    cases h
    exact .exitAcquire status hlk
  | reparent status k =>
    unfold code at h
    dsimp only at h
    split at h
    · rename_i hk
      cases h
      unfold reparentSlot
      split
      · exact .reparentChild status ⟨k, hk⟩ ‹_›
      · exact .reparentOther status ⟨k, hk⟩ ‹_›
    · cases h; exact .reparentEnd status k (by omega)
  | exitLock status c =>
    obtain ⟨-, h⟩ := Option.ite_none_left_eq_some.mp h
    cases h
    exact .exitLock status c
  | exitUnlock => cases h; exact .exitUnlock
  | exitSched => cases h; exact .exitSched
  | dead => cases h
  | waitAcquire w =>
    obtain ⟨hlk, h⟩ := Option.ite_none_right_eq_some.mp h
    cases h
    exact .waitAcquire w hlk
  | scan w k b =>
    unfold code at h
    dsimp only at h
    split at h
    · rename_i hk; exact scanSlot_move (k := ⟨k, hk⟩) h
    · cases h; exact scanEnd_move (by omega)

theorem Move.other (h : Move i s p s') {j : Slot} (hj : j ≠ i) :
    s'.pc j = s.pc j ∨ s.state j = .unused ∧ s'.pc j = .code .user := by
  have new {t : ReapSys} {np : Slot} {pc : Pc (Option Slot) ReapPlace} (hnp : s.state np = .unused)
      (ht : t.pc = (allocated s np).pc) :
      (t.goto i pc).pc j = s.pc j ∨ s.state j = .unused ∧ (t.goto i pc).pc j = .code .user := by
    rw [goto_other _ _ hj, ht]
    by_cases hjn : j = np
    · subst hjn; exact .inr ⟨hnp, goto_self ..⟩
    · exact .inl (goto_other _ _ hjn)
  cases h with
  | fork np hnp => exact new hnp rfl
  | noMemory np hnp => exact new hnp rfl
  | _ => exact .inl (goto_other _ _ hj)

theorem Move.state (h : Move i s p s') (k : Slot) : s'.state k = s.state k ∨
    (s.state k = .unused ∧ s'.state k = .used) ∨
    (p = .forkState k ∧ s'.state k = .runnable) ∨
    ((∃ status c, p = .exitLock status c) ∧ k = i ∧ s'.state k = .zombie) ∨
    (s.state k = .zombie ∧ s.plock k = false ∧ s'.state k = .unused ∧ s'.data.parent k = none) := by
  cases h with
  | fork np hnp =>
    by_cases hk : k = np
    · subst hk; exact .inr (.inl ⟨hnp, Function.update_self ..⟩)
    · exact .inl (Function.update_of_ne hk ..)
  | noMemory np hnp =>
    by_cases hk : k = np
    · subst hk; exact .inl ((Function.update_self ..).trans hnp.symm)
    · exact .inl ((Function.update_of_ne hk ..).trans (Function.update_of_ne hk ..))
  | forkState np =>
    by_cases hk : k = np
    · subst hk; exact .inr (.inr (.inl ⟨rfl, Function.update_self ..⟩))
    · exact .inl (Function.update_of_ne hk ..)
  | exitLock status c =>
    by_cases hk : k = i
    · subst hk; exact .inr (.inr (.inr (.inl ⟨⟨status, c, rfl⟩, rfl, Function.update_self ..⟩)))
    · exact .inl (Function.update_of_ne hk ..)
  | reap w j b hj hpl hst =>
    by_cases hk : k = j
    · subst hk
      exact .inr (.inr (.inr (.inr ⟨hst, hpl, Function.update_self .., Function.update_self ..⟩)))
    · exact .inl (Function.update_of_ne hk ..)
  | _ => exact .inl rfl

theorem Move.parent (h : Move i s p s') (k : Slot) : s'.data.parent k = s.data.parent k ∨
    (p = .forkParent k ∧ s.lk = none ∧ s'.data.parent k = some i) ∨
    (held p = true ∧ s.data.parent k = some i ∧ s'.data.parent k = some initproc ∧
      ∃ q, s'.pc i = .wakeup (some initproc) 0 q) ∨
    (s'.data.parent k = none ∧ (s.state k = .unused ∨ held p = true ∧ s.data.parent k = some i)) := by
  cases h with
  | noMemory np hnp =>
    by_cases hk : k = np
    · subst hk; exact .inr (.inr (.inr ⟨Function.update_self .., .inl hnp⟩))
    · exact .inl (Function.update_of_ne hk ..)
  | forkParent np hlk =>
    by_cases hk : k = np
    · subst hk; exact .inr (.inl ⟨rfl, hlk, Function.update_self ..⟩)
    · exact .inl (Function.update_of_ne hk ..)
  | reparentChild status j hj =>
    by_cases hk : k = j
    · subst hk; exact .inr (.inr (.inl ⟨rfl, hj, Function.update_self .., _, goto_self ..⟩))
    · exact .inl (Function.update_of_ne hk ..)
  | reap w j b hj hpl hst =>
    by_cases hk : k = j
    · subst hk; exact .inr (.inr (.inr ⟨Function.update_self .., .inr ⟨rfl, hj⟩⟩))
    · exact .inl (Function.update_of_ne hk ..)
  | _ => exact .inl rfl

theorem Move.pid (h : Move i s p s') (k : Slot) :
    s'.data.pid k = s.data.pid k ∨ s.state k = .unused ∨ s'.state k = .unused := by
  cases h with
  | fork np hnp =>
    by_cases hk : k = np
    · subst hk; exact .inr (.inl hnp)
    · exact .inl (Function.update_of_ne hk ..)
  | noMemory np hnp =>
    by_cases hk : k = np
    · subst hk; exact .inr (.inl hnp)
    · exact .inl ((Function.update_of_ne hk ..).trans (Function.update_of_ne hk ..))
  | reap w j b hj hpl hst =>
    by_cases hk : k = j
    · subst hk; exact .inr (.inr (Function.update_self ..))
    · exact .inl (Function.update_of_ne hk ..)
  | _ => exact .inl rfl

theorem Move.chan (h : Move i s p s') (k : Slot) :
    s'.chan k = s.chan k ∨ s'.state k = .unused := by
  cases h with
  | noMemory np hnp =>
    by_cases hk : k = np
    · subst hk; exact .inr (Function.update_self ..)
    · exact .inl (Function.update_of_ne hk ..)
  | reap w j b hj hpl hst =>
    by_cases hk : k = j
    · subst hk; exact .inr (Function.update_self ..)
    · exact .inl (Function.update_of_ne hk ..)
  | _ => exact .inl rfl

end

/-! ## Where the processes are -/

structure Places (s : ReapSys) : Prop where
  chan : ∀ i c q, (s.pc i).Waits c q → c = some i ∧ ∃ w, q = .scan w 0 false
  back : ∀ i q, s.pc i = .reacquire q → ∃ w, q = .scan w 0 false
  wake : ∀ i c k q, s.pc i = .wakeup c k q →
    (∃ status k', q = .reparent status k') ∨ ∃ status, q = .exitLock status c
  zombie : ∀ i, s.state i = .zombie →
    (s.pc i).next = .exitUnlock ∨ (s.pc i).next = .exitSched ∨ (s.pc i).next = .dead
  idle : ∀ i, s.state i = .unused ∨ s.state i = .used →
    (s.pc i).next = .user ∨ (s.pc i).next = .dead
  lock : ∀ i, (s.pc i).next = .exitUnlock ∨ (s.pc i).next = .exitSched → s.plock i = true

section
variable {i : Slot} {p : ReapPlace} {s s' : ReapSys}

theorem Places.isCode (h : Places s) (hi : (s.pc i).next = .user ∨ (s.pc i).next = .dead ∨
    (s.pc i).next = .exitUnlock ∨ (s.pc i).next = .exitSched) : (s.pc i).IsCode := by
  have hchan := h.chan i
  have hback := h.back i
  have hwake := h.wake i
  generalize s.pc i = pc at *
  cases pc with
  | code q => exact ⟨q, rfl⟩
  | wakeup c k q =>
    obtain ⟨status, k', rfl⟩ | ⟨status, rfl⟩ := hwake c k q rfl <;> simp [Pc.next] at hi
  | reacquire q =>
    obtain ⟨w, rfl⟩ := hback q rfl
    simp [Pc.next] at hi
  | _ c q =>
    obtain ⟨-, w, rfl⟩ := hchan c q (by simp [Pc.Waits])
    simp [Pc.next] at hi

theorem Places.switch (h : Places s) (hs : Switch s s') : Places s' := by
  have hf := hs.frame
  constructor
  case chan => exact fun j c q hj => h.chan j c q (hs.waits hj)
  case back =>
    intro j q hj
    obtain hj | ⟨c, hj⟩ := hs.reacquire_of hj
    · exact h.back j q hj
    · exact (h.chan j c q hj).2
  case wake =>
    intro j c k q hj
    obtain ⟨k', hj⟩ := hs.wakeup_of hj
    exact h.wake j c k' q hj
  case zombie =>
    intro j hj
    rw [hf.next]
    exact h.zombie j ((hf.state_iff (by decide)).mp hj)
  case idle =>
    intro j hj
    rw [hf.next]
    exact h.idle j (hj.imp (hf.state_iff (by decide)).mp (hf.state_iff (by decide)).mp)
  case lock =>
    intro j hj
    rw [hf.next] at hj
    rw [hs.plock_of_code (h.isCode (.inr (.inr hj)))]
    exact h.lock j hj

theorem Places.idle_code (h : Places s) (hi : s.state i = .unused ∨ s.state i = .used) :
    s.pc i = .code .user ∨ s.pc i = .code .dead := by
  have hnext := h.idle i hi
  obtain ⟨q, hq⟩ := h.isCode (i := i) (hnext.imp id Or.inl)
  rw [hq] at hnext ⊢
  exact hnext.imp (congrArg _) (congrArg _)

theorem Move.codeStep (h : Places s) (hm : Move i s p s') : CodeStep held i p s s' where
  other := fun j hj => by
    obtain heq | ⟨hst, huser⟩ := hm.other hj
    · exact .inl heq
    · obtain hq | hq := h.idle_code (i := j) (.inl hst) <;>
        exact .inr ⟨_, _, hq, huser, rfl, rfl⟩
  own := by
    cases hm with
    | waitSleep w k b => exact .inr ⟨by rw [goto_self]; rfl, .inr ⟨_, _, goto_self ..⟩⟩
    | reparentChild status k => exact .inr ⟨by rw [goto_self]; rfl, .inl ⟨_, _, goto_self ..⟩⟩
    | reparentEnd status k => exact .inr ⟨by rw [goto_self]; rfl, .inl ⟨_, _, goto_self ..⟩⟩
    | _ => exact .inl ⟨_, goto_self ..⟩
  lk := by
    cases hm <;> simp [Reap.reap, leave, record, freeproc, allocated, setParent, becomeZombie,
      Pc.holds, held]
  free := by
    cases hm with
    | exitAcquire status hlk => exact fun _ _ => hlk
    | waitAcquire w hlk => exact fun _ _ => hlk
    | _ => simp [leave, Reap.reap, Pc.holds, held]
  plock := fun j hj hpl => by
    cases hm with
    | exitLock status c => exact (Function.update_of_ne hj ..).trans hpl
    | exitSched => exact (Function.update_of_ne hj ..).trans hpl
    | _ => exact hpl

theorem Places.move (h : Places s) (hpc : s.pc i = .code p)
    (hst : s.state i = .running ∨ s.state i = .zombie) (hm : Move i s p s') : Places s' := by
  constructor
  case chan =>
    intro j c q hj
    by_cases hji : j = i
    · subst hji
      cases hm with
      | waitSleep w k b =>
        obtain ⟨rfl, rfl⟩ : some j = c ∧ .scan w 0 false = q := by simpa [Pc.Waits] using hj
        exact ⟨rfl, w, rfl⟩
      | _ => simp [leave, Reap.reap, Pc.Waits] at hj
    · obtain heq | ⟨-, huser⟩ := hm.other hji
      · rw [heq] at hj; exact h.chan j c q hj
      · rw [huser] at hj; simp [Pc.Waits] at hj
  case back =>
    intro j q hj
    by_cases hji : j = i
    · subst hji
      cases hm <;> simp [leave, Reap.reap] at hj
    · obtain heq | ⟨-, huser⟩ := hm.other hji
      · rw [heq] at hj; exact h.back j q hj
      · rw [huser] at hj; cases hj
  case wake =>
    intro j c k q hj
    by_cases hji : j = i
    · subst hji
      cases hm with
      | reparentChild status k' =>
        rw [goto_self] at hj
        cases hj
        exact .inl ⟨_, _, rfl⟩
      | reparentEnd status k' =>
        rw [goto_self] at hj
        cases hj
        exact .inr ⟨_, rfl⟩
      | _ => simp [leave, Reap.reap] at hj
    · obtain heq | ⟨-, huser⟩ := hm.other hji
      · rw [heq] at hj; exact h.wake j c k q hj
      · rw [huser] at hj; cases hj
  case zombie =>
    intro j hj
    obtain hsame | ⟨-, hnew⟩ | ⟨-, hnew⟩ | ⟨⟨status, c, rfl⟩, rfl, -⟩ | ⟨-, -, hnew, -⟩ := hm.state j
    · rw [hsame] at hj
      have hz := h.zombie j hj
      by_cases hji : j = i
      · subst hji
        rw [hpc] at hz
        obtain rfl | rfl | rfl := hz <;> cases hm <;> simp [Pc.next]
      · obtain heq | ⟨hun, -⟩ := hm.other hji
        · rw [heq]; exact hz
        · rw [hj] at hun; cases hun
    · rw [hj] at hnew; cases hnew
    · rw [hj] at hnew; cases hnew
    · cases hm
      rw [goto_self]
      exact .inl rfl
    · rw [hj] at hnew; cases hnew
  case idle =>
    intro j hj
    have hne : j ≠ i := by
      rintro rfl
      obtain hsame | ⟨hun, -⟩ | ⟨-, hnew⟩ | ⟨-, -, hnew⟩ | ⟨hz, -, hnew, -⟩ := hm.state j
      · rw [hsame] at hj
        obtain hst | hst := hst <;> simp [hst] at hj
      · obtain hst | hst := hst <;> simp [hst] at hun
      · simp [hnew] at hj
      · simp [hnew] at hj
      · have hp := h.zombie j hz
        rw [hpc] at hp
        obtain rfl | rfl | rfl := hp <;> cases hm <;> simp [hz] at hnew
    have hold : (s.pc j).next = .user ∨ (s.pc j).next = .dead := by
      obtain hsame | ⟨hun, -⟩ | ⟨-, hnew⟩ | ⟨-, rfl, -⟩ | ⟨hz, hpl, -⟩ := hm.state j
      · rw [hsame] at hj; exact h.idle j hj
      · exact h.idle j (.inl hun)
      · simp [hnew] at hj
      · exact absurd rfl hne
      · -- it has left `sched`, or `p->lock` would be held
        have hunlocked (hn : (s.pc j).next = .exitUnlock ∨ (s.pc j).next = .exitSched) : False := by
          have := h.lock j hn
          rw [hpl] at this
          cases this
        obtain hn | hn | hn := h.zombie j hz
        · exact (hunlocked (.inl hn)).elim
        · exact (hunlocked (.inr hn)).elim
        · exact .inr hn
    obtain heq | ⟨-, huser⟩ := hm.other hne
    · rw [heq]; exact hold
    · rw [huser]; exact .inl rfl
  case lock =>
    intro j hj
    by_cases hji : j = i
    · subst hji
      have hlock := h.lock j
      rw [hpc] at hlock
      cases hm with
      | exitLock status c => exact Function.update_self ..
      | exitUnlock => exact hlock (.inl rfl)
      | _ => simp [leave, Reap.reap, Pc.next] at hj
    · refine (hm.codeStep h).plock j hji (h.lock j ?_)
      obtain heq | ⟨-, huser⟩ := hm.other hji
      · rwa [heq] at hj
      · rw [huser] at hj; simp [Pc.next] at hj

theorem Places.holds (h : Places s) (hi : held (s.pc i).next = true) :
    (s.pc i).holds held = true ∨ ∃ w, (s.pc i).next = .scan w 0 false := by
  have hchan := h.chan i
  have hback := h.back i
  generalize s.pc i = pc at *
  cases pc with
  | code q => exact .inl hi
  | reacquire q => exact .inr (hback q rfl)
  | wakeup c k q => exact .inl rfl
  | _ c q => exact .inr (hchan c q (by simp [Pc.Waits])).2

theorem Places.running (h : Places s) (hpc : s.pc i = .code p)
    (hst : s.state i = .running ∨ s.state i = .zombie)
    (hp : p ≠ .exitUnlock ∧ p ≠ .exitSched ∧ p ≠ .dead) : s.state i = .running := by
  obtain hst | hst := hst
  · exact hst
  · have hz := h.zombie i hst
    rw [hpc] at hz
    obtain hz | hz | hz := hz
    · exact absurd hz hp.1
    · exact absurd hz hp.2.1
    · exact absurd hz hp.2.2

end

/-! ## Parents -/

/-- What a process in a call knows about the table. In `reparent` and the scans it is because
`wait_lock` is held. -/
def Fact (s : ReapSys) (i : Slot) : ReapPlace → Prop
  | .forkParent np => s.state np = .used ∧ s.data.parent np = none
  | .forkState np => s.state np = .used
  | .exitAcquire _ => i ≠ initproc
  | .reparent _ k => i ≠ initproc ∧ ∀ j : Slot, j.val < k → s.data.parent j ≠ some i
  | .exitLock _ c => i ≠ initproc ∧ (∀ j, s.data.parent j ≠ some i) ∧ c = s.data.parent i
  | .scan w k _ => ∀ j : Slot, j.val < k → s.data.parent j = some i → w.wants (s.data.pid j) →
      s.state j ≠ .zombie
  | _ => True

def Forks (p : ReapPlace) (np : Slot) : Prop := p = .forkParent np ∨ p = .forkState np

structure Tree (s : ReapSys) : Prop where
  unused : ∀ k, s.state k = .unused → s.data.parent k = none
  parent : ∀ k q, s.data.parent k = some q → (s.state q).Active
  init : (s.state initproc).Active
  forks : ∀ i j np, Forks (s.pc i).next np → Forks (s.pc j).next np → i = j
  fact : ∀ i, Fact s i (s.pc i).next

section
variable {i : Slot} {p : ReapPlace} {s s' : ReapSys}

theorem Fact.frame (hf : Sys.Frame s s') (h : Fact s i p) : Fact s' i p := by
  have used (k : Slot) : s.state k = .used → s'.state k = .used := (hf.state_iff (by decide)).mpr
  cases p with
  | forkParent np => exact ⟨used np h.1, by rw [hf.data]; exact h.2⟩
  | forkState np => exact used np h
  | scan w k b =>
    intro j hj hpar hw hz
    rw [hf.data] at hpar hw
    exact h j hj hpar hw ((hf.state_iff (by decide)).mp hz)
  | reparent status k => simpa only [Fact, hf.data] using h
  | exitLock status c => simpa only [Fact, hf.data] using h
  | _ => exact h

theorem Tree.switch (h : Tree s) (hs : Switch s s') : Tree s' := by
  have hf := hs.frame
  have active {k : Slot} (hk : (s.state k).Active) : (s'.state k).Active := by
    obtain heq | ⟨-, hact⟩ := hf.state k
    · rw [heq]; exact hk
    · exact hact
  constructor
  case unused =>
    intro k hk
    rw [hf.data]
    exact h.unused k ((hf.state_iff (by decide)).mp hk)
  case parent =>
    intro k q hk
    rw [hf.data] at hk
    exact active (h.parent k q hk)
  case init => exact active h.init
  case forks =>
    intro i j np hi hj
    rw [hf.next] at hi hj
    exact h.forks i j np hi hj
  case fact =>
    intro j
    rw [hf.next]
    exact (h.fact j).frame hf

theorem Move.active (hm : Move i s p s') {q : Slot} (hq : (s.state q).Active) :
    (s'.state q).Active ∨ q = i ∧ ∃ status c, p = .exitLock status c := by
  obtain hsame | ⟨hun, -⟩ | ⟨-, hnew⟩ | ⟨hp, hqi, -⟩ | ⟨hz, -⟩ := hm.state q
  · rw [hsame]; exact .inl hq
  · simp [hun, ProcState.Active] at hq
  · rw [hnew]; exact .inl (.inl rfl)
  · exact .inr ⟨hqi, hp⟩
  · simp [hz, ProcState.Active] at hq

theorem Forks.used (h : Fact s i p) {np : Slot} (hf : Forks p np) : s.state np = .used := by
  obtain rfl | rfl := hf
  · exact h.1
  · exact h

theorem Move.forks (hm : Move i s p s') {np : Slot} (h : Forks (s'.pc i).next np) :
    Forks p np ∨ s.state np = .unused := by
  cases hm with
  | fork np' hnp =>
    obtain rfl : np' = np := by simpa [Forks, Pc.next] using h
    exact .inr hnp
  | forkParent np' =>
    obtain rfl : np' = np := by simpa [Forks, Pc.next] using h
    exact .inl (.inl rfl)
  | _ => simp [Forks, leave, Reap.reap, Pc.next] at h

theorem Tree.fact_own (h : Tree s) (hpc : s.pc i = .code p) (hm : Move i s p s') :
    Fact s' i (s'.pc i).next := by
  have hfact := h.fact i
  rw [hpc] at hfact
  cases hm with
  | fork np hnp =>
    rw [goto_self]
    exact ⟨Function.update_self .., h.unused np hnp⟩
  | exit status hi => rw [goto_self]; exact hi
  | forkParent np => rw [goto_self]; exact hfact.1
  | exitAcquire status => rw [goto_self]; exact ⟨hfact, fun _ hj => absurd hj (Nat.not_lt_zero _)⟩
  | reparentOther status k hk =>
    rw [goto_self]
    refine ⟨hfact.1, fun j hj => ?_⟩
    by_cases hjk : j = k
    · subst hjk; exact hk
    · exact hfact.2 j (by have := Fin.val_ne_of_ne hjk; omega)
  | reparentChild status k hk =>
    rw [goto_self]
    refine ⟨hfact.1, fun j hj => ?_⟩
    by_cases hjk : j = k
    · subst hjk
      rw [goto_data, setParent_parent, Function.update_self]
      exact fun heq => hfact.1 (Option.some.inj heq).symm
    · rw [goto_data, setParent_parent, Function.update_of_ne hjk]
      exact hfact.2 j (by have := Fin.val_ne_of_ne hjk; omega)
  | reparentEnd status k hk =>
    rw [goto_self]
    exact ⟨hfact.1, fun j => hfact.2 j (by omega), rfl⟩
  | scanOther w k b hk =>
    rw [goto_self]
    intro j hj hpar hw
    by_cases hjk : j = k
    · subst hjk; exact absurd ⟨hpar, hw⟩ hk
    · exact hfact j (by have := Fin.val_ne_of_ne hjk; omega) hpar hw
  | scanChild w k b hst =>
    rw [goto_self]
    intro j hj hpar hw
    by_cases hjk : j = k
    · subst hjk; exact hst
    · exact hfact j (by have := Fin.val_ne_of_ne hjk; omega) hpar hw
  | waitAcquire w => rw [goto_self]; exact fun _ hj => absurd hj (Nat.not_lt_zero _)
  | waitSleep w k b => rw [goto_self]; exact fun _ hj => absurd hj (Nat.not_lt_zero _)
  | _ => simp [leave, Reap.reap, Fact, Pc.next]

theorem Tree.parent_eq (hl : Locked held s) (h : Tree s) (hpc : s.pc i = .code p)
    (hm : Move i s p s') {j : Slot} (hj : j ≠ i) (hold : (s.pc j).holds held = true) (k : Slot) :
    held p = false ∧ s'.data.parent k = s.data.parent k := by
  have hp : held p = false := by
    by_contra hp
    exact hj (hl.holder (i := i) (by rw [hpc]; exact (Bool.not_eq_false _).mp hp) hold)
  refine ⟨hp, ?_⟩
  obtain hsame | ⟨-, hlk, -⟩ | ⟨hp', -⟩ | ⟨hnone, hun | ⟨hp', -⟩⟩ := hm.parent k
  · exact hsame
  · rw [(hl.lk j).mp hold] at hlk; cases hlk
  · rw [hp] at hp'; cases hp'
  · rw [hnone, h.unused k hun]
  · rw [hp] at hp'; cases hp'

theorem Tree.used_eq (h : Tree s) (hpc : s.pc i = .code p)
    (hst : s.state i = .running ∨ s.state i = .zombie) (hm : Move i s p s') {j np : Slot}
    (hj : j ≠ i) (hf : Forks (s.pc j).next np) :
    s'.state np = .used ∧ (s.data.parent np = none → s'.data.parent np = none) := by
  have hused := Forks.used (h.fact j) hf
  have hno : ¬ Forks p np := fun hp => hj (h.forks j i np hf (by rw [hpc]; exact hp))
  constructor
  · obtain hsame | ⟨hun, -⟩ | ⟨hp, -⟩ | ⟨-, rfl, -⟩ | ⟨hz, -⟩ := hm.state np
    · rw [hsame]; exact hused
    · rw [hused] at hun; cases hun
    · exact absurd (.inr hp) hno
    · obtain hst | hst := hst <;> rw [hused] at hst <;> cases hst
    · rw [hused] at hz; cases hz
  · intro hnone
    obtain hsame | ⟨hp, -⟩ | ⟨-, hpar, -⟩ | ⟨hnew, -⟩ := hm.parent np
    · rw [hsame]; exact hnone
    · exact absurd (.inl hp) hno
    · rw [hnone] at hpar; cases hpar
    · exact hnew

theorem Tree.fact_other (hl : Locked held s) (hplaces : Places s) (h : Tree s)
    (hpc : s.pc i = .code p) (hst : s.state i = .running ∨ s.state i = .zombie)
    (hm : Move i s p s') {j : Slot} (hj : j ≠ i) : Fact s' j (s.pc j).next := by
  have hfact := h.fact j
  have hused (np : Slot) (hf : Forks (s.pc j).next np) := h.used_eq hpc hst hm hj hf
  have hholds := hplaces.holds (i := j)
  have hkept := h.parent_eq hl hpc hm hj
  generalize (s.pc j).next = q at *
  cases q with
  | forkParent np =>
    have := hused np (.inl rfl)
    exact ⟨this.1, this.2 hfact.2⟩
  | forkState np => exact (hused np (.inr rfl)).1
  | exitAcquire status => exact hfact
  | reparent status k =>
    obtain hold | ⟨w, hw⟩ := hholds rfl
    · exact ⟨hfact.1, fun k hk => by rw [(hkept hold k).2]; exact hfact.2 k hk⟩
    · cases hw
  | exitLock status c =>
    obtain hold | ⟨w, hw⟩ := hholds rfl
    · refine ⟨hfact.1, fun k => ?_, ?_⟩
      · rw [(hkept hold k).2]; exact hfact.2.1 k
      · rw [(hkept hold j).2]; exact hfact.2.2
    · cases hw
  | scan w k b =>
    obtain hold | ⟨w', hw⟩ := hholds rfl
    · intro l hlk hpar hwants hz
      rw [(hkept hold l).2] at hpar
      have hzombie : s.state l = .zombie := by
        obtain hsame | ⟨-, hnew⟩ | ⟨-, hnew⟩ | ⟨⟨status, c, rfl⟩, -⟩ | ⟨-, -, hnew, -⟩ := hm.state l
        · rw [← hsame]; exact hz
        · rw [hz] at hnew; cases hnew
        · rw [hz] at hnew; cases hnew
        · exact absurd (hkept hold l).1 nofun
        · rw [hz] at hnew; cases hnew
      refine hfact l hlk hpar ?_ hzombie
      obtain hpid | hun | hun := hm.pid l
      · rw [← hpid]; exact hwants
      · rw [hzombie] at hun; cases hun
      · rw [hz] at hun; cases hun
    · cases hw
      exact fun _ hlk => absurd hlk (Nat.not_lt_zero _)
  | _ => trivial

theorem Tree.move (hl : Locked held s) (hplaces : Places s) (h : Tree s) (hpc : s.pc i = .code p)
    (hst : s.state i = .running ∨ s.state i = .zombie) (hm : Move i s p s') : Tree s' := by
  have hfact := h.fact i
  rw [hpc] at hfact
  constructor
  case unused =>
    intro k hk
    obtain hsame | ⟨-, hnew⟩ | ⟨-, hnew⟩ | ⟨-, -, hnew⟩ | ⟨-, -, -, hnone⟩ := hm.state k
    · rw [hsame] at hk
      have hnone := h.unused k hk
      obtain hsame | ⟨rfl, -⟩ | ⟨-, hpar, -⟩ | ⟨hnew, -⟩ := hm.parent k
      · rw [hsame]; exact hnone
      · rw [show s.state k = _ from hfact.1] at hk; cases hk
      · rw [hnone] at hpar; cases hpar
      · exact hnew
    · rw [hk] at hnew; cases hnew
    · rw [hk] at hnew; cases hnew
    · rw [hk] at hnew; cases hnew
    · exact hnone
  case parent =>
    intro k q hk
    obtain hsame | ⟨rfl, -, hnew⟩ | ⟨-, -, hnew, -⟩ | ⟨hnew, -⟩ := hm.parent k
    · rw [hsame] at hk
      obtain hact | ⟨rfl, status, c, rfl⟩ := hm.active (h.parent k q hk)
      · exact hact
      · exact absurd hk (hfact.2.1 k)
    · obtain rfl := Option.some.inj (hnew.symm.trans hk)
      have hrun := hplaces.running hpc hst ⟨nofun, nofun, nofun⟩
      obtain hact | ⟨-, status, c, hp⟩ := hm.active (.inr (.inl hrun))
      · exact hact
      · cases hp
    · obtain rfl := Option.some.inj (hnew.symm.trans hk)
      obtain hact | ⟨hi, status, c, rfl⟩ := hm.active h.init
      · exact hact
      · exact absurd hi.symm hfact.1
    · rw [hnew] at hk; cases hk
  case init =>
    obtain hact | ⟨hi, status, c, rfl⟩ := hm.active h.init
    · exact hact
    · exact absurd hi.symm hfact.1
  case forks =>
    have old {j np : Slot} (hj : Forks (s'.pc j).next np) :
        Forks (s.pc j).next np ∨ j = i ∧ s.state np = .unused := by
      by_cases hji : j = i
      · subst hji
        rw [hpc]
        exact (hm.forks hj).imp id fun hun => ⟨rfl, hun⟩
      · obtain heq | ⟨-, huser⟩ := hm.other hji
        · rw [heq] at hj; exact .inl hj
        · rw [huser] at hj; simp [Forks, Pc.next] at hj
    have new {j np : Slot} (hj : Forks (s.pc j).next np) (hun : s.state np = .unused) : False := by
      rw [Forks.used (h.fact j) hj] at hun
      cases hun
    intro j k np hj hk
    obtain hj | ⟨rfl, hun⟩ := old hj
    · obtain hk | ⟨rfl, hun⟩ := old hk
      · exact h.forks j k np hj hk
      · exact (new hj hun).elim
    · obtain hk | ⟨rfl, -⟩ := old hk
      · exact (new hk hun).elim
      · rfl
  case fact =>
    intro j
    by_cases hji : j = i
    · subst hji; exact h.fact_own hpc hm
    · obtain heq | ⟨-, huser⟩ := hm.other hji
      · rw [heq]; exact h.fact_other hl hplaces hpc hst hm hji
      · rw [huser]; trivial

/-! ## No exit is missed -/

def Due (s : ReapSys) (i : Slot) : ReapPlace → Prop
  | .scan w _ _ => ∃ k, s.data.parent k = some i ∧ s.state k = .zombie ∧ w.wants (s.data.pid k)
  | _ => False

def calm : ReapPlace → Option (Option Slot)
  | .exitLock _ c => some c
  | _ => none

theorem held_of_calm (p : ReapPlace) (c : Option Slot) (h : calm p = some c) : held p = true := by
  cases p with
  | exitLock status c => rfl
  | _ => cases h

theorem due_frame (s s' : ReapSys) (hf : Sys.Frame s s') (i : Slot) (p : ReapPlace)
    (h : Due s' i p) : Due s i p := by
  cases p with
  | scan w k b =>
    obtain ⟨k, hpar, hz, hw⟩ := h
    rw [hf.data] at hpar hw
    exact ⟨k, hpar, (hf.state_iff (by decide)).mp hz, hw⟩
  | _ => exact h.elim

theorem Move.wakeStep (hplaces : Places s) (h : Tree s) (hpc : s.pc i = .code p)
    (hm : Move i s p s') : WakeStep held calm Due i p s s' where
  toCodeStep := hm.codeStep hplaces
  sleepers := fun j hj hsl => by
    have hst : s.state j = .sleeping := by
      obtain hsame | ⟨-, hnew⟩ | ⟨-, hnew⟩ | ⟨-, -, hnew⟩ | ⟨-, -, hnew, -⟩ := hm.state j
      · rw [← hsame]; exact hsl
      all_goals rw [hsl] at hnew; cases hnew
    obtain hch | hun := hm.chan j
    · exact ⟨hst, hch⟩
    · rw [hsl] at hun; cases hun
  sleep := fun c q hq => by
    have hfact := h.fact i
    rw [hpc] at hfact
    cases hm with
    | waitSleep w k b hk =>
      rw [goto_self] at hq
      cases hq
      refine ⟨fun ⟨k', hpar, hz, hw⟩ => ?_, rfl⟩
      exact hfact k' (by omega) hpar hw hz
    | _ => simp [leave, Reap.reap] at hq
  calmed := fun c hc => by
    cases hm with
    | reparentEnd status k hk =>
      rw [goto_self] at hc
      cases hc
      exact .inl ⟨_, goto_self ..⟩
    | _ => simp [leave, Reap.reap, Pc.next, calm] at hc
  due := fun j c q hj hw hdue => by
    obtain ⟨rfl, w, rfl⟩ := hplaces.chan j c q hw
    obtain ⟨k, hpar, hz, hwants⟩ := hdue
    obtain hsame | ⟨-, -, hnew⟩ | ⟨hp, -, hnew, hwake⟩ | ⟨hnew, -⟩ := hm.parent k
    · rw [hsame] at hpar
      obtain hst | ⟨-, hnew⟩ | ⟨-, hnew⟩ | ⟨⟨status, c, rfl⟩, rfl, -⟩ | ⟨-, -, hnew, -⟩ := hm.state k
      · rw [hst] at hz
        refine .inl ⟨k, hpar, hz, ?_⟩
        obtain hpid | hun | hun := hm.pid k
        · rw [← hpid]; exact hwants
        · rw [hz] at hun; cases hun
        · rw [hst, hz] at hun; cases hun
      · rw [hz] at hnew; cases hnew
      · rw [hz] at hnew; cases hnew
      · -- the parent has been woken before
        have hfact := h.fact k
        rw [hpc] at hfact
        refine .inr ⟨rfl, .inr ?_⟩
        rw [calm, show c = _ from hfact.2.2, hpar]
      · rw [hz] at hnew; cases hnew
    · exact absurd (Option.some.inj (hpar.symm.trans hnew)) hj
    · -- a zombie goes to init, which is woken next
      obtain rfl := Option.some.inj (hpar.symm.trans hnew)
      exact .inr ⟨hp, .inl hwake⟩
    · rw [hnew] at hpar; cases hpar

structure Inv (s : ReapSys) : Prop where
  locked : Locked held s
  places : Places s
  tree : Tree s
  none : NoneLost calm Due s

theorem Inv.boot : Inv boot where
  locked := ⟨fun _ => ⟨nofun, nofun⟩, fun _ hi => absurd ⟨_, rfl⟩ hi, fun _ _ _ hi => by
    obtain hi | hi := hi <;> cases hi⟩
  places := by
    constructor
    case zombie => intro i hi; simp only [Reap.boot] at hi; split at hi <;> cases hi
    case idle => exact fun _ _ => .inl rfl
    all_goals simp [Reap.boot, Pc.Waits, Pc.next]
  tree := by
    constructor
    case init => exact .inl rfl
    case forks => intro i j np hi; simp [Reap.boot, Forks, Pc.next] at hi
    case fact => exact fun _ => trivial
    all_goals simp [Reap.boot]
  none := by
    constructor
    case quiet =>
      intro e q c he hq
      cases he
      cases hq
    all_goals simp [Reap.boot, DozesAt, Pc.next, calm]

theorem Inv.step {a : Act ReapInput} (h : Inv s) (hs : Reap.step s a = some s') : Inv s' := by
  obtain ⟨i, p, x, -, hpc, hst, hcode⟩ | hsw := step_cases _ hs
  · have hm := code_move hcode
    exact ⟨h.locked.code hpc (hm.codeStep h.places), h.places.move hpc hst hm,
      h.tree.move h.locked h.places hpc hst hm,
      h.none.code held_of_calm h.locked hpc (hm.wakeStep h.places h.tree hpc)⟩
  · exact ⟨h.locked.switch hsw, h.places.switch hsw, h.tree.switch hsw,
      h.none.switch held_of_calm due_frame h.locked hsw⟩

end

theorem Inv.of_runs {s : ReapSys} (h : Runs Reap.step (fun _ _ => True) Reap.boot s) : Inv s :=
  h.invariant .boot fun _ _ _ hi _ hs => hi.step hs

def Asleep (s : ReapSys) (i : Slot) (w : WaitArgs) : Prop :=
  (∃ c k b, s.pc i = .sched c (.scan w k b)) ∧ s.state i = .sleeping

/-- In every run: while `wait_lock` is free, nobody sleeps in `kwait` or `kwaitpid` with a zombie
child that the call would reap. -/
theorem no_sleeper_with_zombie {s : ReapSys} (h : Runs step (fun _ _ => True) boot s)
    (hlk : s.lk = none) {i : Slot} {w : WaitArgs} (hi : Asleep s i w) :
    ¬ ∃ k, s.data.parent k = some i ∧ s.state k = .zombie ∧ w.wants (s.data.pid k) := by
  have hinv := Inv.of_runs h
  obtain ⟨⟨c, k, b, hpc⟩, hst⟩ := hi
  exact hinv.none.not_due hinv.locked hlk (.inr ⟨hpc, hst⟩)

def forkAndWait : List (Act ReapInput) :=
  [.schedule 0, .run 0 (.fork 1)] ++ List.replicate 72 (.run 0 .wait)

theorem no_sleeper_with_zombie_forkAndWait : ∃ s, Runs step (fun _ _ => True) boot s ∧
    s.lk = none ∧ Asleep s 0 .kwait ∧ s.data.parent 1 = some 0 ∧ s.state 1 ≠ .zombie := by
  have h : ∃ s, steps step boot forkAndWait = some s ∧ s.lk = none ∧ Asleep s 0 .kwait ∧
      s.data.parent 1 = some 0 := ⟨_, rfl, rfl, ⟨⟨_, _, _, rfl⟩, rfl⟩, rfl⟩
  obtain ⟨s, hs, hlk, hi, hpar⟩ := h
  have hr := Runs.of_steps .start (fun _ _ _ => trivial) hs
  refine ⟨s, hr, hlk, hi, hpar, fun hz => ?_⟩
  exact no_sleeper_with_zombie hr hlk hi ⟨1, hpar, hz, .inl (by decide)⟩

end Reap

end OsLab
