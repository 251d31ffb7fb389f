import OsLab.Makespan

/-!
# Metrics and the chart

The metrics of a counted process can be read off the chart: its cells are its
burst, and its waiting time is the number of ticks it was not run between its
arrival and its last tick. With a CPU for every process nothing waits, and the
schedulers differ only in what they make of the I/O wait.
-/

namespace OsLab
namespace Sim
variable {n m : Nat}

def cellsOf (timeline : Fin m → Nat → Int) (pid : Int) : Finset (Fin m × Nat) :=
  (Finset.univ ×ˢ Finset.range maxTime).filter fun x => timeline x.1 x.2 = pid

/-- The chart shows process `p` in `burst_time` cells, in different columns and
not before its arrival, and `waiting_time` is the number of ticks from its
arrival to its last one in which no CPU runs it. -/
structure Matches (timeline : Fin m → Nat → Int) (p : Process) : Prop where
  cells : ((cellsOf timeline p.pid).card : Int) = p.burstTime
  after : ∀ c t, timeline c t = p.pid → p.arrivalTime ≤ t
  columns : ∀ c c' t, timeline c t = p.pid → timeline c' t = p.pid → c = c'
  waiting : ∃ u, LastTick timeline p.pid u ∧ p.waitingTime =
    (((Finset.Icc p.arrivalTime.toNat u).filter fun t => ∀ c, timeline c t ≠ p.pid).card : Int)

section
variable {g : Int → Int} {ps : Fin n → Process} {time : Nat} {timeline : Fin m → Nat → Int}
  {processes : Fin n → Process} {completed : Nat} {counted : Finset (Fin n)}
  (E : Ended g ps time timeline processes completed counted) (hw : Workload ps)
include E hw

theorem Ended.unique {i : Fin n} {c c' : Fin m} {t : Nat} (h : timeline c t = (ps i).pid)
    (h' : timeline c' t = (ps i).pid) : c = c' := by
  have hpos := hw.pid_pos i
  exact E.gantt.once t c c' (h.trans h'.symm) (by omega)

theorem Ended.card_cellsOf (i : Fin n) :
    (cellsOf timeline (ps i).pid).card = executed (gantt ps timeline) i time := by
  unfold executed
  apply Finset.card_bij fun x _ => x.2
  · intro x hx
    have hx := (Finset.mem_filter.mp hx).2
    refine mem_ticks.mpr ⟨⟨Nat.zero_le _, ?_⟩, mem_gantt.mpr ⟨x.1, hx⟩⟩
    by_contra hge
    have h1 := E.gantt.clean x.1 x.2 (by omega)
    have h2 := hw.pid_pos i
    omega
  · intro x hx y hy e
    have hx := (Finset.mem_filter.mp hx).2
    have hy := (Finset.mem_filter.mp hy).2
    rw [← e] at hy
    exact Prod.ext (E.unique hw hx hy) e
  · intro t ht
    obtain ⟨⟨_, h1⟩, h2⟩ := mem_ticks.mp ht
    obtain ⟨c, hc⟩ := mem_gantt.mp h2
    have h3 := E.horizon
    exact ⟨(c, t), Finset.mem_filter.mpr ⟨Finset.mem_product.mpr ⟨Finset.mem_univ c, Finset.mem_range.mpr (by omega)⟩, hc⟩, rfl⟩

theorem Ended.idle_ticks {i : Fin n} (hi : i ∈ counted) {u : Nat} (hu : LastTick timeline (processes i).pid u) :
    ((Finset.Icc (release ps i) u).filter fun t => ∀ c, timeline c t ≠ (ps i).pid).card + demand ps i =
      u + 1 - release ps i := by
  obtain ⟨h1, h2, _, h4⟩ := E.last_tick hw hi hu
  have hrun : ((Finset.Icc (release ps i) u).filter fun t => ∃ c, timeline c t = (ps i).pid).card = demand ps i := by
    rw [← h4]
    unfold executed
    congr 1
    ext t
    rw [Finset.mem_filter, Finset.mem_Icc, mem_ticks, mem_gantt]
    constructor
    · exact fun ⟨⟨_, h5⟩, h6⟩ => ⟨⟨Nat.zero_le t, by omega⟩, h6⟩
    · intro ⟨⟨_, h5⟩, h6⟩
      have := (E.gantt.greedy.valid t (by omega) i (mem_gantt.mpr h6)).1
      exact ⟨⟨this, by omega⟩, h6⟩
  have hsplit := Finset.card_filter_add_card_filter_not (s := Finset.Icc (release ps i) u)
    (fun t => ∃ c, timeline c t = (ps i).pid)
  simp only [not_exists] at hsplit
  rw [hrun, Nat.card_Icc] at hsplit
  simp only [ne_eq]
  omega

theorem Ended.matches {i : Fin n} (ha : 0 ≤ (ps i).arrivalTime) (hi : i ∈ counted) : Matches timeline (processes i) := by
  have hpid := E.pid i
  have harr := E.arrival i
  have hbst := E.burst i
  refine ⟨?_, fun c t hc => ?_, fun c c' t hc hc' => ?_, ?_⟩
  · have h1 := (E.remaining_eq_zero hw i).mp (E.finished i hi)
    have h2 := hw.burst_pos i
    rw [hpid, hbst, E.card_cellsOf hw i, h1]
    unfold demand
    omega
  · rw [hpid] at hc
    have hpos := hw.pid_pos i
    have ht : t < time := by
      by_contra hge
      have := E.gantt.clean c t (by omega)
      omega
    have := (E.gantt.greedy.valid t ht i (mem_gantt.mpr ⟨c, hc⟩)).1
    unfold release at this
    rw [harr]
    omega
  · rw [hpid] at hc hc'
    exact E.unique hw hc hc'
  · obtain ⟨hder, u, hu, hst⟩ := E.recorded i hi
    have hidle := E.idle_ticks hw hi hu
    have h1 := (E.last_tick hw hi hu).2.1
    have h2 := hw.burst_pos i
    refine ⟨u, hu, ?_⟩
    rw [hder.waiting, hder.turnaround, hst, hbst, harr, hpid]
    unfold demand release at *
    omega

end

structure MetricsMatch (ps : Fin n → Process) (timeline : Fin m → Nat → Int) (processes : Fin n → Process)
    (completed : Nat) (counted : Finset (Fin n)) : Prop where
  same : ∃ e : Equiv.Perm (Fin n), ∀ i, static (processes i) = static (ps (e i))
  count : completed = counted.card
  finished : ∀ i ∈ counted, (processes i).remainingTime = 0
  shown : ∀ i ∈ counted, Matches timeline (processes i)

theorem Ended.metricsMatch {g : Int → Int} {ps qs : Fin n → Process} {time : Nat} {timeline : Fin m → Nat → Int}
    {processes : Fin n → Process} {completed : Nat} {counted : Finset (Fin n)}
    (E : Ended g qs time timeline processes completed counted) (hq : Workload qs)
    (hsame : ∃ e : Equiv.Perm (Fin n), ∀ i, static (qs i) = static (ps (e i))) (ha : ∀ i, 0 ≤ (ps i).arrivalTime) :
    MetricsMatch ps timeline processes completed counted := by
  obtain ⟨e, he⟩ := hsame
  have harr : ∀ i, 0 ≤ (qs i).arrivalTime := by
    intro i
    rw [static_arrival (he i)]
    exact ha (e i)
  exact ⟨⟨e, fun i => (E.gantt.same i).trans (he i)⟩, E.count, E.finished, fun i hi => E.matches hq (harr i) hi⟩

/-- **Metrics agree with the chart.** For every workload of
`initialize_test_data` and every scheduler: `completed` is the number of the
processes that have been counted, and the chart shows each of these as its
metrics say. -/
theorem metrics_match_chart (hn : n ≤ 100) (hm : 1 ≤ m) (rand rand' : Nat → Nat) (p : Fin n → Process) :
    let ps := initializeTestData rand p
    (let s : Sim n m := runFcfs ps; MetricsMatch ps s.timeline s.processes s.completed s.counted) ∧
    (let s : Sim n m := runMlfq ps; MetricsMatch ps s.timeline s.processes s.completed s.counted) ∧
    (let s : Sim n m := runLottery rand' ps; MetricsMatch ps s.timeline s.processes s.completed s.counted) ∧
    (let s : Sim n m := runEdf ps; MetricsMatch ps s.timeline s.processes s.completed s.counted) ∧
    (let s : WorkSim n m := WorkSim.runWorkSteal ps;
      MetricsMatch ps s.timeline s.processes s.completedProcesses s.completed) := by
  intro ps
  have hw : Workload ps := initializeTestData_workload hn rand p
  have hr : ∀ i, InRange (ps i) := initializeTestData_inRange rand p
  have ha : ∀ i, 0 ≤ (ps i).arrivalTime := fun i => (hr i).arrival.1
  exact ⟨(fcfs_ended hw fun i => (hr i).arrival_lt).metricsMatch (fcfsSort_workload hw) (fcfsSort_static ps) ha,
    (mlfq_ended hw).metricsMatch (mlfqReset_workload hw) (mlfqReset_static ps) ha,
    (lottery_ended hw rand' fun i => (hr i).priority.1).metricsMatch hw (static_refl ps) ha,
    (edf_ended hw fun i => (hr i).deadline_bounds.2).metricsMatch hw (static_refl ps) ha,
    (workSteal_ended hw hm ha).metricsMatch hw (static_refl ps) ha⟩

theorem metrics_match_chart_two :
    (runEdf (countedProcesses 2) : Sim 2 1).completed = (runEdf (countedProcesses 2) : Sim 2 1).counted.card ∧
    ∀ i ∈ (runEdf (countedProcesses 2) : Sim 2 1).counted,
      Matches (runEdf (countedProcesses 2) : Sim 2 1).timeline ((runEdf (countedProcesses 2) : Sim 2 1).processes i) := by
  have h := (metrics_match_chart (n := 2) (m := 1) (by decide) (by decide) id id
    fun _ => ⟨0, 0, 0, 0, 0, 0, 0, 0, 0, 0, 0, 0⟩).2.2.2.1
  exact ⟨h.count, h.shown⟩

end Sim
end OsLab
