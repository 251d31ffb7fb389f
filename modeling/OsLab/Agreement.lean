import OsLab.MetricsChart

/-!
# Agreement without contention

With a CPU for every process each one runs from its arrival until it is
finished, whatever the scheduler. The recorded metrics are then the same for
all schedulers exactly when no process has an I/O wait: `run_lottery` and
`run_work_steal` leave it out.
-/

namespace OsLab
namespace Sim
variable {n m : Nat}

def metricsOf (processes : Fin n → Process) (pid : Int) : Option (Int × Int × Int) :=
  (findFirst processes pid).map fun i =>
    ((processes i).completionTime, (processes i).turnaroundTime, (processes i).waitingTime)

/-- The runs that ended in the given process arrays record the same metrics, and
these are related as the documentation says. -/
structure Agree (ps : Fin n → Process) (runs : List (Fin n → Process)) : Prop where
  same : ∀ a ∈ runs, ∀ b ∈ runs, ∀ i, metricsOf a (ps i).pid = metricsOf b (ps i).pid
  documented : ∀ a ∈ runs, ∀ i, (a i).turnaroundTime = (a i).waitingTime + (a i).burstTime + (a i).ioWaitTime

section
variable {ps qs : Fin n → Process} {e : Equiv.Perm (Fin n)} (he : ∀ i, static (qs i) = static (ps (e i)))
  (hw : Workload qs) (hm : n ≤ m) (ha : ∀ i, 0 ≤ (qs i).arrivalTime ∧ (qs i).arrivalTime + (qs i).burstTime < maxTime)
  {g : Int → Int} {time : Nat} {timeline : Fin m → Nat → Int} {processes : Fin n → Process} {completed : Nat}
  {counted : Finset (Fin n)} (E : Ended g qs time timeline processes completed counted)
include hw hm ha E

theorem Ended.alone (i : Fin n) :
    (processes i).completionTime = (qs i).arrivalTime + (qs i).burstTime + g (qs i).ioWaitTime ∧
    (processes i).turnaroundTime = (qs i).burstTime + g (qs i).ioWaitTime ∧ (processes i).waitingTime = 0 := by
  have halone := E.gantt.greedy.alone (by rw [Fintype.card_fin]; exact hm) i
  have h1 := ha i
  have h2 := hw.burst_pos i
  have hi : i ∈ counted := by
    by_contra hi
    obtain ⟨ht, hp⟩ := E.pending_of_not_counted hw hi
    rw [halone (maxTime - 1) (by omega)] at hp
    unfold demand release at hp
    omega
  obtain ⟨hder, u, hu, hst⟩ := E.recorded i hi
  obtain ⟨h3, h4, h5, h6⟩ := E.last_tick hw hi hu
  rw [halone u (by omega)] at h5
  rw [halone (u + 1) (by omega)] at h6
  have hlast : (u : Int) + 1 = (qs i).arrivalTime + (qs i).burstTime := by
    unfold demand release at *
    omega
  rw [hder.waiting, hder.turnaround, hst, E.burst i, E.arrival i, E.io i]
  omega

variable (hio : ∀ i, (ps i).ioWaitTime = 0) (hg : g 0 = 0)
include he hio hg

theorem Ended.metricsOf_eq (i : Fin n) :
    metricsOf processes (ps i).pid = some ((ps i).arrivalTime + (ps i).burstTime, (ps i).burstTime, 0) := by
  obtain ⟨j, rfl⟩ := e.surjective i
  have hinj : Function.Injective fun k => (processes k).pid := by
    intro k l hkl
    simp only [E.pid] at hkl
    exact hw.pid_inj hkl
  have hj := he j
  rw [← static_pid hj, ← E.pid j, ← static_arrival hj, ← static_burst hj]
  have hz : (qs j).ioWaitTime = 0 := (static_io hj).trans (hio (e j))
  obtain ⟨h1, h2, h3⟩ := E.alone hw hm ha j
  unfold metricsOf
  rw [findFirst_finds _ hinj j, Option.map_some, h1, h2, h3, hz, hg, Int.add_zero, Int.add_zero]

theorem Ended.documented (i : Fin n) :
    (processes i).turnaroundTime = (processes i).waitingTime + (processes i).burstTime + (processes i).ioWaitTime := by
  have hz : (qs i).ioWaitTime = 0 := (static_io (he i)).trans (hio (e i))
  obtain ⟨_, h2, h3⟩ := E.alone hw hm ha i
  rw [h2, h3, E.burst i, E.io i, hz, hg]
  omega

end

/-- **Agreement.** With at least as many CPUs as processes, the five schedulers
record the same metrics on a workload of `initialize_test_data`, with
`turnaround_time = waiting_time + burst_time + io_wait_time`, exactly when no
process has an I/O wait. -/
theorem schedulers_agree_iff (hn : n ≤ 100) (hm : n ≤ m) (rand rand' : Nat → Nat) (p : Fin n → Process) :
    let ps := initializeTestData rand p
    Agree ps [(runFcfs ps : Sim n m).processes, (runMlfq ps : Sim n m).processes,
      (runLottery rand' ps : Sim n m).processes, (runEdf ps : Sim n m).processes,
      (WorkSim.runWorkSteal ps : WorkSim n m).processes] ↔ ∀ i, (ps i).ioWaitTime = 0 := by
  intro ps
  rcases Nat.eq_zero_or_pos n with rfl | hpos
  · exact ⟨fun _ i => i.elim0, fun _ => ⟨fun _ _ _ _ i => i.elim0, fun _ _ i => i.elim0⟩⟩
  have hw : Workload ps := initializeTestData_workload hn rand p
  have hr : ∀ i, InRange (ps i) := initializeTestData_inRange rand p
  have ha : ∀ i, 0 ≤ (ps i).arrivalTime ∧ (ps i).arrivalTime + (ps i).burstTime < maxTime := by
    intro i
    have h1 := (hr i).arrival
    have h2 := (hr i).burst
    unfold maxTime
    omega
  have El := lottery_ended (m := m) hw rand' fun i => (hr i).priority.1
  constructor
  · -- `run_lottery` leaves the I/O wait out of the turnaround time
    intro h i
    have hdoc := h.documented (runLottery rand' ps : Sim n m).processes (by simp) i
    obtain ⟨_, h2, h3⟩ := El.alone hw hm ha i
    rw [h2, h3, El.burst i, El.io i] at hdoc
    omega
  · intro hio
    obtain ⟨e, he⟩ := fcfsSort_perm ps
    have hsort : ∀ i, 0 ≤ (fcfsSort ps i).arrivalTime ∧
        (fcfsSort ps i).arrivalTime + (fcfsSort ps i).burstTime < maxTime := by
      intro i
      rw [he]
      exact ha (e i)
    have hperm : ∀ i, static (fcfsSort ps i) = static (ps (e i)) := fun i => by rw [he]; rfl
    have hrefl : ∀ i, static (ps i) = static (ps (Equiv.refl (Fin n) i)) := fun _ => rfl
    have hreset : ∀ i, static (mlfqReset ps i) = static (ps (Equiv.refl (Fin n) i)) := fun _ => rfl
    have Ef := fcfs_ended (m := m) hw fun i => (hr i).arrival_lt
    have Em := mlfq_ended (m := m) hw
    have Ee := edf_ended (m := m) hw fun i => (hr i).deadline_bounds.2
    have Es := workSteal_ended (m := m) hw (by omega) fun i => (ha i).1
    have hwf := fcfsSort_workload hw
    have hwm := mlfqReset_workload hw
    constructor
    · have heach : ∀ a ∈ [(runFcfs ps : Sim n m).processes, (runMlfq ps : Sim n m).processes,
          (runLottery rand' ps : Sim n m).processes, (runEdf ps : Sim n m).processes,
          (WorkSim.runWorkSteal ps : WorkSim n m).processes], ∀ i, metricsOf a (ps i).pid =
            some ((ps i).arrivalTime + (ps i).burstTime, (ps i).burstTime, 0) := by
        simp only [List.mem_cons, List.not_mem_nil, or_false, forall_eq_or_imp, forall_eq]
        exact ⟨Ef.metricsOf_eq hperm hwf hm hsort hio rfl, Em.metricsOf_eq hreset hwm hm ha hio rfl,
          El.metricsOf_eq hrefl hw hm ha hio rfl, Ee.metricsOf_eq hrefl hw hm ha hio rfl,
          Es.metricsOf_eq hrefl hw hm ha hio rfl⟩
      intro a hma b hmb i
      rw [heach a hma i, heach b hmb i]
    · simp only [List.mem_cons, List.not_mem_nil, or_false, forall_eq_or_imp, forall_eq]
      exact ⟨Ef.documented hperm hwf hm hsort hio rfl, Em.documented hreset hwm hm ha hio rfl,
        El.documented hrefl hw hm ha hio rfl, Ee.documented hrefl hw hm ha hio rfl,
        Es.documented hrefl hw hm ha hio rfl⟩

theorem schedulers_agree_two :
    let ps : Fin 2 → Process := initializeTestData (fun _ => 0) fun _ => ⟨0, 0, 0, 0, 0, 0, 0, 0, 0, 0, 0, 0⟩
    2 ≤ 3 ∧ Agree ps [(runFcfs ps : Sim 2 3).processes, (runMlfq ps : Sim 2 3).processes,
      (runLottery id ps : Sim 2 3).processes, (runEdf ps : Sim 2 3).processes,
      (WorkSim.runWorkSteal ps : WorkSim 2 3).processes] :=
  ⟨by decide, (schedulers_agree_iff (n := 2) (m := 3) (by decide) (by decide) _ id _).mpr (by decide)⟩

/-- One process, with an I/O wait of 1, on one CPU: `run_fcfs` records its
completion at 3 and `run_lottery` at 2. -/
theorem schedulers_disagree_one :
    ¬ Agree (countedProcesses 1) [(runFcfs (countedProcesses 1) : Sim 1 1).processes,
      (runMlfq (countedProcesses 1) : Sim 1 1).processes, (runLottery id (countedProcesses 1) : Sim 1 1).processes,
      (runEdf (countedProcesses 1) : Sim 1 1).processes,
      (WorkSim.runWorkSteal (countedProcesses 1) : WorkSim 1 1).processes] := by
  intro h
  have hsame := h.same (runFcfs (countedProcesses 1) : Sim 1 1).processes (by simp)
    (runLottery id (countedProcesses 1) : Sim 1 1).processes (by simp) 0
  revert hsame
  decide +kernel

end Sim
end OsLab
