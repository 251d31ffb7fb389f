import OsLab.Runs

/-!
# Work that finishes at the horizon

A process that runs its last tick is recorded by STEP 1 of the next tick. The
loop is left at `MAX_TIME`, so a process that finishes in tick `MAX_TIME - 1`
is not recorded any more; this is the only way in which finished work is lost.
-/

namespace OsLab
namespace Sim
variable {n m : Nat}

structure Accounted (g : Int → Int) (s : Sim n m) : Prop where
  counted : s.completed = (Finset.univ.filter fun i => (s.processes i).remainingTime = 0).card
  recorded : ∀ i, (s.processes i).remainingTime = 0 → Recorded g s.timeline (s.processes i)

/-- Before the execution step of tick `MAX_TIME - 1` a process on a CPU has one
tick left to run. -/
def EndsAtHorizon (act : Sim n m → Sim n m) (steps : List (Sim n m → Sim n m)) (s₀ : Sim n m) : Prop :=
  ∃ a i, At guard steps s₀ [act, advance] a ∧ a.time + 1 = maxTime ∧ a.isRunning i = true ∧
    (a.processes i).remainingTime = 1

section
variable {first act : Sim n m → Sim n m} {mids : List (Sim n m → Sim n m)} (hS : Sound first act mids)
  {ps : Fin n → Process} (hw : Workload ps)
include hS hw

theorem Sound.previous {s : Sim n m} (h : At guard (first :: (mids ++ [act, advance])) (init ps) [] s) :
    s = init ps ∨ ∃ a, At guard (first :: (mids ++ [act, advance])) (init ps) [act, advance] a ∧
      Executed a (act a) ∧ s = advance (act a) := by
  apply At.iteration (P := fun s => s = init ps ∨ ∃ a, At guard (first :: (mids ++ [act, advance])) (init ps)
    [act, advance] a ∧ Executed a (act a) ∧ s = advance (act a)) (Or.inl rfl) _ h
  intro s hs hg _
  obtain ⟨a, hat, _, _, he, hb⟩ := hS.tick hw hs hg
  exact Or.inr ⟨a, hat, he, hb⟩

theorem Sound.running_of_shown {s : Sim n m} (h : At guard (first :: (mids ++ [act, advance])) (init ps) [] s)
    {u : Nat} (hu : s.time = u + 1) {c : Fin m} {i : Fin n} (hc : s.timeline c u = (s.processes i).pid) :
    s.isRunning i = true := by
  rcases hS.previous hw h with rfl | ⟨a, hat, he, rfl⟩
  · cases hu
  · obtain ⟨hco, _, _⟩ := hS.beforeAct hw hat
    have hpos := hco.pid_pos i
    simp only [advance, he.time, he.isRunning, he.processes i] at hu hc ⊢
    obtain rfl := Nat.succ.inj hu
    rw [he.column c] at hc
    apply (hco.running i).mpr
    refine ⟨c, ?_⟩
    split at hc
    · omega
    · exact hc

theorem Sound.endsAtHorizon_iff {s : Sim n m} (h : At guard (first :: (mids ++ [act, advance])) (init ps) [] s)
    (hg : ¬ guard s) : EndsAtHorizon act (first :: (mids ++ [act, advance])) (init ps) ↔
      s.time = maxTime ∧ ∃ i, (s.processes i).remainingTime = 0 ∧ s.isRunning i = true := by
  constructor
  · rintro ⟨a, i, hat, ht, hi, h1⟩
    obtain ⟨hco, _, hcol⟩ := hS.beforeAct hw hat
    have he := hS.act a hco hcol
    have htime : (advance (act a)).time = maxTime := by rw [← ht, ← he.time]; rfl
    have hs : s = advance (act a) := h.exit_unique hg hat.step.step (by
      intro hg'
      have := hg'.2
      omega)
    subst hs
    refine ⟨htime, i, ?_, ?_⟩
    · simp [advance, he.processes i, hi, h1]
    · simp only [advance, he.isRunning]; exact hi
  · rintro ⟨ht, i, h0, hi⟩
    rcases hS.previous hw h with rfl | ⟨a, hat, he, rfl⟩
    · cases ht
    · simp only [advance, he.isRunning, he.time, he.processes i] at h0 hi ht
      rw [if_pos hi] at h0
      exact ⟨a, i, hat, ht, hi, by omega⟩

variable {g : Int → Int} (hL : Lawful first mids) (hA : Accounts (fun t io => (t : Int) + g io) first mids)
  (hB : Books (Derived g) first mids)
  (hcons : ∀ s, At guard (first :: (mids ++ [act, advance])) (init ps) [act, advance] s → WorkConserving s)
include hL hA hB hcons

theorem Sound.accounted_iff {s : Sim n m} (h : At guard (first :: (mids ++ [act, advance])) (init ps) [] s)
    (hg : ¬ guard s) : Accounted g s ↔ ¬ EndsAtHorizon act (first :: (mids ++ [act, advance])) (init ps) := by
  have E := hS.ended hw hL hA hB hcons h hg
  have hsub : s.counted ⊆ Finset.univ.filter fun i => (s.processes i).remainingTime = 0 := by
    intro i hi
    exact Finset.mem_filter.mpr ⟨Finset.mem_univ i, (mem_counted.mp hi).1⟩
  rw [hS.endsAtHorizon_iff hw h hg]
  constructor
  · intro hacc ⟨_, i, h0, hi⟩
    have hfull := Finset.eq_of_subset_of_card_le hsub (by rw [← hacc.counted, E.count])
    have hmem : i ∈ s.counted := hfull ▸ Finset.mem_filter.mpr ⟨Finset.mem_univ i, h0⟩
    rw [(mem_counted.mp hmem).2] at hi
    cases hi
  · intro hno
    have hall : ∀ i, (s.processes i).remainingTime = 0 → i ∈ s.counted := by
      intro i h0
      by_contra hi
      refine hno ⟨(E.pending_of_not_counted hw hi).1, i, h0, ?_⟩
      cases hr : s.isRunning i with
      | true => rfl
      | false => exact absurd (mem_counted.mpr ⟨h0, hr⟩) hi
    refine ⟨?_, fun i h0 => E.recorded i (hall i h0)⟩
    rw [E.count]
    congr 1
    exact Finset.Subset.antisymm hsub fun i hi => hall i (Finset.mem_filter.mp hi).2

end

/-- **Finished work is accounted for** exactly when no process runs its last
tick in tick `MAX_TIME - 1`. -/
theorem finished_work_accounted (hn : n ≤ 100) (rand rand' : Nat → Nat) (p : Fin n → Process) :
    let ps := initializeTestData rand p
    (Accounted id (runFcfs ps : Sim n m) ↔ ¬ EndsAtHorizon (m := m) fcfsExecute fcfsSteps (fcfsInit ps)) ∧
    (Accounted id (runMlfq ps : Sim n m) ↔ ¬ EndsAtHorizon (m := m) mlfqExecute mlfqSteps (mlfqInit ps)) ∧
    (Accounted (fun _ => 0) (runLottery rand' ps : Sim n m) ↔
      ¬ EndsAtHorizon (m := m) lotteryExecute (lotterySteps rand') (init ps)) ∧
    (Accounted id (runEdf ps : Sim n m) ↔ ¬ EndsAtHorizon (m := m) edfExecute edfSteps (init ps)) := by
  intro ps
  have hw : Workload ps := initializeTestData_workload hn rand p
  have hwf := fcfsSort_workload hw
  have hwm := mlfqReset_workload hw
  have hr : ∀ i, InRange (ps i) := initializeTestData_inRange rand p
  exact ⟨fcfs_sound.accounted_iff hwf fcfs_lawful fcfs_accounts fcfs_books (fun _ h => fcfs_conserving hw (fun i => (hr i).arrival_lt) h)
      (At.start.loop maxTime) (fcfs_sound.exit hwf),
    mlfq_sound.accounted_iff hwm mlfq_lawful mlfq_accounts mlfq_books (fun _ h => mlfq_conserving hw h)
      (At.start.loop maxTime) (mlfq_sound.exit hwm),
    (lottery_sound rand').accounted_iff hw (lottery_lawful rand') (lottery_accounts_zero rand') (lottery_books rand')
      (fun _ h => lottery_conserving rand' hw (fun i => (hr i).priority.1) h) (At.start.loop maxTime) ((lottery_sound rand').exit hw),
    edf_sound.accounted_iff hw edf_lawful edf_accounts edf_books (fun _ h => edf_conserving hw (fun i => (hr i).deadline_bounds.2) h)
      (At.start.loop maxTime) (edf_sound.exit hw)⟩

theorem finished_work_accounted_two : 2 ≤ 100 ∧ (Accounted id (runFcfs (countedProcesses 2) : Sim 2 1) ↔
    ¬ EndsAtHorizon (m := 1) fcfsExecute fcfsSteps (fcfsInit (countedProcesses 2))) :=
  ⟨by decide, (finished_work_accounted (n := 2) (m := 1) (by decide) id id _).1⟩

/-! ## A full simulation -/

section
variable {g : Int → Int} {ps : Fin n → Process} {time : Nat} {timeline : Fin 1 → Nat → Int}
  {processes : Fin n → Process} {completed : Nat} {counted : Finset (Fin n)}
  (E : Ended g ps time timeline processes completed counted) (hw : Workload ps) (hrel : ∀ i, release ps i = 0)
  (hsum : ∑ i, demand ps i = maxTime)
include E hw hrel hsum

omit hw in
theorem Ended.busy {u : Nat} (hu : u < time) : (gantt ps timeline u).card = 1 := by
  have hwidth : ∀ v ∈ Finset.Ico 0 u, (gantt ps timeline v).card ≤ 1 :=
    fun v hv => E.gantt.greedy.width v (by have := Finset.mem_Ico.mp hv; omega)
  refine Nat.le_antisymm (E.gantt.greedy.width u hu) ?_
  by_contra hlt
  have hidle : gantt ps timeline u = ∅ := Finset.card_eq_zero.mp (by omega)
  have hdone : ∀ i ∈ Finset.univ, demand ps i ≤ executed (gantt ps timeline) i u := by
    intro i _
    by_contra hp
    have := E.gantt.greedy.greedy u hu (by omega) i (by rw [hrel]; exact Nat.zero_le u) (by omega)
    rw [hidle] at this
    exact Finset.notMem_empty i this
  have h1 := Finset.sum_le_sum hdone
  have h2 : ∑ i, executed (gantt ps timeline) i u ≤ ∑ _v ∈ Finset.Ico 0 u, 1 := by
    unfold executed
    rw [sum_card_ticks]
    exact Finset.sum_le_sum hwidth
  have h3 := E.horizon
  rw [Finset.sum_const, Nat.card_Ico, Nat.nsmul_eq_mul] at h2
  omega

theorem Ended.full : time = maxTime ∧ ∀ i, (processes i).remainingTime = 0 := by
  have hexec : ∑ i, executed (gantt ps timeline) i time = time := by
    have h1 : ∑ u ∈ Finset.Ico 0 time, (gantt ps timeline u).card = ∑ _u ∈ Finset.Ico 0 time, 1 :=
      Finset.sum_congr rfl fun u hu => E.busy hrel hsum (Finset.mem_Ico.mp hu).2
    unfold executed
    rw [sum_card_ticks, h1]
    simp
  have hle : ∀ i ∈ Finset.univ, executed (gantt ps timeline) i time ≤ demand ps i :=
    fun i _ => E.gantt.greedy.executed_le i time (Nat.le_refl _)
  have htime : time = maxTime := by
    rcases E.exit with hc | ht
    · -- all processes have been counted, so all the work has been done
      rw [E.count] at hc
      have : ∑ i, executed (gantt ps timeline) i time = ∑ i, demand ps i :=
        Finset.sum_congr rfl fun i _ => (E.remaining_eq_zero hw i).mp (E.finished i (mem_of_full hc i))
      omega
    · exact ht
  refine ⟨htime, fun i => (E.remaining_eq_zero hw i).mpr ?_⟩
  exact (Finset.sum_eq_sum_iff_of_le hle).mp (by omega) i (Finset.mem_univ i)

end

def longBursts (k : Nat) : Nat := if k % 5 = 1 then 9 else 0

def longProcesses : Fin 100 → Process := initializeTestData longBursts fun _ => ⟨0, 0, 0, 0, 0, 0, 0, 0, 0, 0, 0, 0⟩

/-- With 100 such processes on one CPU, all 1000 ticks are executed and every
process finishes, but the last one to finish is not counted. -/
theorem long_not_accounted : ¬ Accounted id (runFcfs longProcesses : Sim 100 1) := by
  have hw : Workload longProcesses := initializeTestData_workload (by decide) _ _
  have ha : ∀ i, (longProcesses i).arrivalTime = 0 := by
    intro i
    simp [longProcesses, initializeTestData, longBursts]
  have hb : ∀ i, (longProcesses i).burstTime = 10 := by
    intro i
    have : (5 * (i : Nat) + 1) % 5 = 1 := by omega
    simp [longProcesses, initializeTestData, longBursts, this]
  have hwf := fcfsSort_workload hw
  obtain ⟨e, he⟩ := fcfsSort_perm longProcesses
  have hrel : ∀ i, release (fcfsSort longProcesses) i = 0 := fun i => by simp [release, he, ha]
  have hdem : ∀ i, demand (fcfsSort longProcesses) i = 10 := fun i => by simp [demand, he, hb]
  have hsum : ∑ i, demand (fcfsSort longProcesses) i = maxTime := by simp [hdem, maxTime]
  have ha' : ∀ i, (longProcesses i).arrivalTime < 9999 := fun i => by rw [ha]; decide
  have E := fcfs_ended (m := 1) hw ha'
  obtain ⟨ht, hdone⟩ := E.full hwf hrel hsum
  have h : At guard fcfsSteps (fcfsInit longProcesses) [] (runFcfs longProcesses : Sim 100 1) := At.start.loop maxTime
  have hg : ¬ guard (runFcfs longProcesses : Sim 100 1) := fcfs_sound.exit hwf
  intro hacc
  refine (fcfs_sound.accounted_iff hwf fcfs_lawful fcfs_accounts fcfs_books (fun _ h => fcfs_conserving hw ha' h) h
    hg).mp hacc ((fcfs_sound.endsAtHorizon_iff hwf h hg).mpr ⟨ht, ?_⟩)
  -- the process that was executed in the last tick
  have hbusy := E.busy hrel hsum (u := maxTime - 1) (by rw [ht]; decide)
  obtain ⟨i, hi⟩ := Finset.card_pos.mp (show 0 < _ by rw [hbusy]; decide)
  refine ⟨i, hdone i, ?_⟩
  obtain ⟨c, hc⟩ := mem_gantt.mp hi
  exact fcfs_sound.running_of_shown hwf h (u := maxTime - 1) ht (by rw [hc, E.pid i])

end Sim
end OsLab
