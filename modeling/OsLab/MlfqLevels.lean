import OsLab.Metrics

/-!
# The levels of MLFQ

A process has executed 0, 2 or 6 ticks whenever it waits at level 0, 1 or 2.
While it is on a CPU, what it has executed and the time left of its quantum add
up to the ticks at which the level ends.
-/

namespace OsLab
namespace Sim
variable {n m : Nat}

def levelStart (priority : Int) : Int := if priority = 0 then 0 else if priority = 1 then 2 else 6

theorem levelStart_demote {p : Process} (h0 : 0 ≤ p.priority) (h2 : p.priority < 2) :
    levelStart (mlfqDemote p).priority = levelStart p.priority + mlfqQuantum p := by
  have hp : p.priority = 0 ∨ p.priority = 1 := by omega
  unfold mlfqDemote
  rw [if_pos h2]
  rcases hp with hp | hp <;> simp [levelStart, mlfqQuantum, hp, q0Quantum, q1Quantum]

def done (p : Process) : Int := p.burstTime - p.remainingTime

structure Leveled (s : Sim n m) : Prop where
  range : ∀ i, 0 ≤ (s.processes i).priority ∧ (s.processes i).priority ≤ 2
  running : ∀ c i, (s.cpus c).currentPid = (s.processes i).pid →
    done (s.processes i) + (s.cpus c).timeLeftOnCore = levelStart (s.processes i).priority + mlfqQuantum (s.processes i)
  waiting : ∀ i, 0 < (s.processes i).remainingTime → s.isRunning i = false →
    done (s.processes i) = levelStart (s.processes i).priority

theorem Leveled.level_done {s : Sim n m} (h : Leveled s) {c : Fin m} {i : Fin n}
    (hc : (s.cpus c).currentPid = (s.processes i).pid) (ht : (s.cpus c).timeLeftOnCore = 0) :
    done (s.processes i) = levelStart (s.processes i).priority + mlfqQuantum (s.processes i) := by
  have := h.running c i hc
  rwa [ht, Int.add_zero] at this

theorem leveled_init {ps : Fin n → Process} (hw : Workload ps) : Leveled (mlfqInit ps : Sim n m) where
  range := fun i => by simp [mlfqInit, init, mlfqReset]
  running := fun c i h => by
    have := hw.pid_pos i
    simp only [mlfqInit, init, mlfqReset] at h
    omega
  waiting := fun i _ _ => by
    have := hw.fresh i
    simp [mlfqInit, init, mlfqReset, done, levelStart, this]

/-! ## STEP 1 -/

structure MlfqFinishedOn (s a : Sim n m) (l : List (Fin m)) : Prop where
  coherent : Coherent a
  core : ∀ i, core (a.processes i) = core (s.processes i)
  others : ∀ c, c ∉ l → a.cpus c = s.cpus c
  kept : ∀ i, (∀ c ∈ l, (s.cpus c).currentPid ≠ (s.processes i).pid) → a.processes i = s.processes i
  idle : ∀ c, (s.cpus c).currentPid = -1 → (a.cpus c).currentPid = -1
  ended : ∀ c ∈ l, ∀ i, (s.cpus c).currentPid = (s.processes i).pid → (s.processes i).remainingTime = 0 →
    (a.cpus c).currentPid = -1 ∧ (a.processes i).priority = (s.processes i).priority
  expired : ∀ c ∈ l, ∀ i, (s.cpus c).currentPid = (s.processes i).pid → (s.processes i).remainingTime ≠ 0 →
    (s.cpus c).timeLeftOnCore = 0 → (a.cpus c).currentPid = -1 ∧ a.processes i = mlfqDemote (s.processes i)
  goesOn : ∀ c ∈ l, ∀ i, (s.cpus c).currentPid = (s.processes i).pid → (s.processes i).remainingTime ≠ 0 →
    (s.cpus c).timeLeftOnCore ≠ 0 → a.cpus c = s.cpus c ∧ a.processes i = s.processes i

theorem MlfqFinishedOn.step {s a : Sim n m} {l : List (Fin m)} (hs : Coherent s) (h : MlfqFinishedOn s a l) {c : Fin m}
    (hc : c ∉ l) : MlfqFinishedOn s (finishOn findLast record mlfqExpire a c) (l ++ [c]) := by
  have R := finishOn_released findLast_finds record_same mlfqExpire_ok h.coherent c
  have hcpu := h.others c hc
  -- only the process on `c` can change
  have hlocal : ∀ j, (s.cpus c).currentPid ≠ (s.processes j).pid →
      (finishOn findLast record mlfqExpire a c).processes j = a.processes j := by
    intro j hj
    rcases @finishOn_cases n m findLast record mlfqExpire findLast_finds a h.coherent c with
      ⟨_, e⟩ | ⟨i, hi, ⟨_, e⟩ | ⟨_, e⟩⟩
    · rw [e]
    · have hji : j ≠ i := fun e' => hj (by rw [← hcpu, hi, e', core_pid (h.core i)])
      rw [e]
      simp [Sim.free, setCpu, record, setProcess, hji]
    · have hji : j ≠ i := fun e' => hj (by rw [← hcpu, hi, e', core_pid (h.core i)])
      rw [e]
      exact mlfqExpire_local a c i j hji
  have hother : ∀ c' ∈ l, ∀ i, (s.cpus c').currentPid = (s.processes i).pid →
      (s.cpus c).currentPid ≠ (s.processes i).pid := by
    intro c' hc' i hi hi'
    exact hc (hs.unique i c' c hi hi' ▸ hc')
  have hne : ∀ c' ∈ l, c' ≠ c := fun c' hc' e => hc (e ▸ hc')
  -- and before `c` is served it is as at the start
  have hfresh : ∀ i, (s.cpus c).currentPid = (s.processes i).pid → a.processes i = s.processes i := by
    intro i hi
    exact h.kept i fun c' hc' hi' => hother c' hc' i hi' hi
  have hserve : ∀ i, (s.cpus c).currentPid = (s.processes i).pid → finishOn findLast record mlfqExpire a c =
      if (s.processes i).remainingTime = 0 then { (record a i).free c i with completed := a.completed + 1 }
      else mlfqExpire a c i := by
    intro i hi
    rw [← hfresh i hi]
    exact finishOn_busy findLast_finds h.coherent (by rw [hcpu, hi, hfresh i hi])
  refine ⟨R.coherent, fun i => (R.core i).trans (h.core i), fun c' hc' => ?_, fun i hi => ?_, fun c' hc' => ?_,
    fun c' hc' i hi h0 => ?_, fun c' hc' i hi h0 ht => ?_, fun c' hc' i hi h0 ht => ?_⟩
  · simp only [List.mem_append, List.mem_singleton, not_or] at hc'
    rw [R.others c' hc'.2, h.others c' hc'.1]
  · rw [hlocal i (hi c (by simp)), h.kept i fun c' hc' => hi c' (List.mem_append_left _ hc')]
  · by_cases hcc : c' = c
    · subst hcc
      simp [finishOn, hcpu, hc']
    · rw [R.others c' hcc]; exact h.idle c' hc'
  all_goals rcases List.mem_append.mp hc' with hc' | hc'
  · rw [R.others c' (hne c' hc'), hlocal i (hother c' hc' i hi)]
    exact h.ended c' hc' i hi h0
  · obtain rfl := List.mem_singleton.mp hc'
    rw [hserve i hi, if_pos h0]
    simp [Sim.free, setCpu, record, setProcess, hfresh i hi]
  · rw [R.others c' (hne c' hc'), hlocal i (hother c' hc' i hi)]
    exact h.expired c' hc' i hi h0 ht
  · obtain rfl := List.mem_singleton.mp hc'
    rw [hserve i hi, if_neg h0, mlfqExpire, hcpu, if_pos ht]
    simp [Sim.free, setCpu, setProcess, hfresh i hi]
  · rw [R.others c' (hne c' hc'), hlocal i (hother c' hc' i hi)]
    exact h.goesOn c' hc' i hi h0 ht
  · obtain rfl := List.mem_singleton.mp hc'
    rw [hserve i hi, if_neg h0, mlfqExpire, hcpu, if_neg ht]
    exact ⟨hcpu, hfresh i hi⟩

theorem mlfqFinish_spec {s : Sim n m} (hs : Coherent s) : MlfqFinishedOn s (mlfqFinish s) (List.finRange m) := by
  refine foldl_range (P := fun l a => MlfqFinishedOn s a l) _ ⟨hs, fun _ => rfl, fun _ _ => rfl, fun _ _ => rfl,
    fun _ h => h, nofun, nofun, nofun⟩ ?_
  intro l c a hl h
  exact h.step hs (not_mem_visited (List.nodup_finRange m) hl)

theorem mlfqFinish_running {s : Sim n m} (hs : Coherent s) {c : Fin m} {i : Fin n}
    (h : ((mlfqFinish s).cpus c).currentPid = ((mlfqFinish s).processes i).pid) :
    (mlfqFinish s).cpus c = s.cpus c ∧ (mlfqFinish s).processes i = s.processes i ∧
      (s.cpus c).currentPid = (s.processes i).pid := by
  have F := mlfqFinish_spec hs
  have hne := F.coherent.pid_ne i
  have hbusy : (s.cpus c).currentPid ≠ -1 := fun h' => hne (h.symm.trans (F.idle c h'))
  obtain ⟨j, hj⟩ := hs.resolves c hbusy
  by_cases h0 : (s.processes j).remainingTime = 0
  · exact absurd (h.symm.trans (F.ended c (List.mem_finRange c) j hj h0).1) hne
  · by_cases ht : (s.cpus c).timeLeftOnCore = 0
    · exact absurd (h.symm.trans (F.expired c (List.mem_finRange c) j hj h0 ht).1) hne
    · obtain ⟨h1, h2⟩ := F.goesOn c (List.mem_finRange c) j hj h0 ht
      rw [h1, hj, core_pid (F.core i)] at h
      obtain rfl : j = i := hs.pid_inj h
      exact ⟨h1, h2, hj⟩

theorem mlfqFinish_cases {s : Sim n m} (hs : Coherent s) (h : Leveled s) (i : Fin n) :
    (mlfqFinish s).processes i = s.processes i ∨ ((s.processes i).remainingTime = 0 ∧
      ((mlfqFinish s).processes i).priority = (s.processes i).priority) ∨
      ((mlfqFinish s).processes i = mlfqDemote (s.processes i) ∧
        done (s.processes i) = levelStart (s.processes i).priority + mlfqQuantum (s.processes i)) := by
  have F := mlfqFinish_spec hs
  by_cases hrun : ∃ c, (s.cpus c).currentPid = (s.processes i).pid
  · obtain ⟨c, hc⟩ := hrun
    by_cases h0 : (s.processes i).remainingTime = 0
    · exact Or.inr (Or.inl ⟨h0, (F.ended c (List.mem_finRange c) i hc h0).2⟩)
    · by_cases ht : (s.cpus c).timeLeftOnCore = 0
      · exact Or.inr (Or.inr ⟨(F.expired c (List.mem_finRange c) i hc h0 ht).2, h.level_done hc ht⟩)
      · exact Or.inl (F.goesOn c (List.mem_finRange c) i hc h0 ht).2
  · exact Or.inl (F.kept i fun c _ hc => hrun ⟨c, hc⟩)

theorem Leveled.below_last {s : Sim n m} (h : Leveled s) {i : Fin n} (hd : done (s.processes i) < 1000)
    (he : done (s.processes i) = levelStart (s.processes i).priority + mlfqQuantum (s.processes i)) :
    (s.processes i).priority < 2 := by
  have h1 := h.range i
  by_contra hge
  have hp : (s.processes i).priority = 2 := by omega
  simp [levelStart, mlfqQuantum, hp, q2Quantum] at he
  omega

theorem mlfqFinish_waiting {s : Sim n m} (hs : Coherent s) (h : Leveled s) {i : Fin n}
    (hd : done (s.processes i) < 1000) (e : (mlfqFinish s).processes i = s.processes i)
    (h0 : 0 < (s.processes i).remainingTime) (hr : (mlfqFinish s).isRunning i = false) : s.isRunning i = false := by
  have F := mlfqFinish_spec hs
  cases hb : s.isRunning i with
  | false => rfl
  | true =>
    obtain ⟨c, hc⟩ := (hs.running i).mp hb
    by_cases ht : (s.cpus c).timeLeftOnCore = 0
    · have hl := h.below_last hd (h.level_done hc ht)
      rw [(F.expired c (List.mem_finRange c) i hc (by omega) ht).2] at e
      have := congrArg Process.priority e
      simp only [mlfqDemote, if_pos hl] at this
      omega
    · -- a process that goes on keeps its CPU
      have hk := (F.goesOn c (List.mem_finRange c) i hc (by omega) ht).1
      have := (F.coherent.running i).mpr ⟨c, by rw [hk, core_pid (F.core i)]; exact hc⟩
      rw [hr] at this
      cases this

theorem mlfqFinish_leveled {s : Sim n m} (hs : Coherent s) (h : Leveled s)
    (hd : ∀ i, done (s.processes i) < 1000) : Leveled (mlfqFinish s) := by
  have F := mlfqFinish_spec hs
  refine ⟨fun i => ?_, fun c i hc => ?_, fun i h0 hr => ?_⟩
  · have h1 := h.range i
    rcases mlfqFinish_cases hs h i with e | ⟨_, e⟩ | ⟨e, he⟩
    · rw [e]; exact h1
    · rw [e]; exact h1
    · have h2 := h.below_last (hd i) he
      rw [e]
      simp only [mlfqDemote, if_pos h2]
      omega
  · obtain ⟨h1, h2, h3⟩ := mlfqFinish_running hs hc
    rw [h1, h2]
    exact h.running c i h3
  · rcases mlfqFinish_cases hs h i with e | ⟨hz, _⟩ | ⟨e, he⟩
    · rw [e] at h0 ⊢
      exact h.waiting i h0 (mlfqFinish_waiting hs h (hd i) e h0 hr)
    · rw [core_remaining (F.core i)] at h0
      omega
    · have hl := h.below_last (hd i) he
      rw [e, levelStart_demote (h.range i).1 hl, ← he]
      simp [done, mlfqDemote, hl]

/-! ## STEP 2 and execution -/

theorem mlfqAssignOn_leveled {s : Sim n m} (hs : Coherent s) (h : Leveled s) (c : Fin m) :
    Leveled (assignOn mlfqPick id (fun _ p => mlfqQuantum p) s c) := by
  rcases @assignOn_cases n m mlfqPick id (fun _ p => mlfqQuantum p) s c with ⟨_, e⟩ | ⟨_, _, e⟩ | ⟨i, hc, hi, e⟩
  · rw [e]; exact h
  · rw [e]; exact h
  · obtain ⟨_, hrem, hoff⟩ := ready_iff.mp (mlfqPick_ready s i hi)
    rw [e]
    refine ⟨h.range, fun c' j hj => ?_, fun j h0 hr => ?_⟩
    · simp only [id, dispatch, setCpu] at hj ⊢
      by_cases hcc : c' = c
      · subst hcc
        simp only [Function.update_self] at hj ⊢
        obtain rfl : i = j := hs.pid_inj hj
        rw [h.waiting i hrem hoff]
      · rw [Function.update_of_ne hcc] at hj ⊢
        exact h.running c' j hj
    · simp only [id, dispatch] at h0 hr ⊢
      by_cases hji : j = i
      · subst hji; simp at hr
      · rw [Function.update_of_ne hji] at hr
        exact h.waiting j h0 hr

theorem mlfqExecute_leveled {s : Sim n m} (hs : Coherent s) (h : Leveled s) : Leveled (mlfqExecute s) := by
  have he : Executed s (mlfqExecute s) := execute_spec findLast_finds 1 hs
  have hprio : ∀ i, ((mlfqExecute s).processes i).priority = (s.processes i).priority := fun i => by rw [he.processes i]
  have hq : ∀ i, mlfqQuantum ((mlfqExecute s).processes i) = mlfqQuantum (s.processes i) := by
    intro i
    unfold mlfqQuantum
    rw [hprio]
  refine ⟨fun i => by rw [hprio]; exact h.range i, fun c i hc => ?_, fun i h0 hr => ?_⟩
  · rw [he.pid c, he.processes i] at hc
    have hrun := (hs.running i).mpr ⟨c, hc⟩
    have hbusy : (s.cpus c).currentPid ≠ -1 := by rw [hc]; exact hs.pid_ne i
    have ht : ((mlfqExecute s).cpus c).timeLeftOnCore = (s.cpus c).timeLeftOnCore - 1 :=
      execute_timeLeft findLast_finds 1 hs hbusy
    have := h.running c i hc
    rw [hprio, hq, ht, ← this]
    simp only [done, he.processes i, hrun, if_true]
    omega
  · rw [he.isRunning] at hr
    have hsame : (mlfqExecute s).processes i = s.processes i := by rw [he.processes i, hr]; simp
    rw [hsame] at h0 ⊢
    exact h.waiting i h0 hr

/-! ## The run -/

section
variable {ps : Fin n → Process} (hw : Workload ps)
include hw

theorem mlfq_done_le {rest : List (Sim n m → Sim n m)} {s : Sim n m} (h : At guard mlfqSteps (mlfqInit ps) rest s)
    (hr : rest ≠ [advance]) (i : Fin n) : done (s.processes i) = (s.cells (s.processes i).pid s.time).card ∧
      done (s.processes i) ≤ s.time := by
  have hwork := ((mlfq_accounts.run mlfq_sound (mlfqReset_workload hw) h).1 hr).work i
  have hle : (s.cells (s.processes i).pid s.time).card ≤ s.time := by
    have := Finset.card_filter_le (Finset.range s.time) fun u => ∃ c, s.timeline c u = (s.processes i).pid
    rwa [Finset.card_range] at this
  unfold done
  omega

/-- Before `MAX_TIME` no process has executed enough ticks to use up the quantum of
the last level. -/
theorem mlfqFinish_leveled_of_head {s : Sim n m} (h : At guard mlfqSteps (mlfqInit ps) [] s) (hg : guard s)
    (hs : Leveled s) : Leveled (mlfqFinish s) :=
  mlfqFinish_leveled (mlfq_sound.head (mlfqReset_workload hw) h).1 hs fun i => by
    have h1 := (mlfq_done_le hw h (by simp) i).2
    have h2 := hg.2
    unfold maxTime at h2
    omega

omit hw in
theorem mlfqAssign_fold_leveled {s : Sim n m} (hc : Coherent s) (hal : Alive s) (hs : Leveled s) (l : List (Fin m)) :
    let a := l.foldl (assignOn mlfqPick id fun _ p => mlfqQuantum p) s
    Coherent a ∧ Leveled a := by
  have key := foldl_keeps (P := fun a : Sim n m => (Coherent a ∧ Alive a) ∧ Leveled a) l (fun a c _ ⟨ha, hla⟩ =>
    ⟨assignOn_coherent mlfqPick_ready SameCore.refl ha.1 ha.2 c, mlfqAssignOn_leveled ha.1 hla c⟩) ⟨⟨hc, hal⟩, hs⟩
  exact ⟨key.1.1, key.2⟩

theorem mlfq_leveled {s : Sim n m} (h : At guard mlfqSteps (mlfqInit ps) [] s) : Leveled s := by
  have hwm := mlfqReset_workload hw
  apply At.iteration (P := Leveled) (leveled_init hw) _ h
  intro s hs hg ih
  have hfin := mlfqFinish_leveled_of_head hw hs hg ih
  obtain ⟨a, hat, ha, _, _, _, hb⟩ := mlfq_sound.tickWith (P := Leveled) hwm hs hg hfin (by
    intro f hf a hca hala ha
    rw [List.mem_singleton] at hf
    subst hf
    exact (mlfqAssign_fold_leveled hca hala ha (List.finRange m)).2)
  have hb : body mlfqSteps s = advance (mlfqExecute a) := hb
  rw [hb]
  have := mlfqExecute_leveled (mlfq_sound.beforeAct hwm hat).1 ha
  exact ⟨this.range, this.running, this.waiting⟩

end

end Sim
end OsLab
