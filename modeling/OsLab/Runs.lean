import OsLab.WorkStealChart

/-!
# The end of a run

The main loop of a scheduler ends with every process counted or at `MAX_TIME`.
What is known of its chart and metrics then has the same form for all five.
-/

namespace OsLab
namespace Sim
variable {n m : Nat}

structure Ended (g : Int → Int) (ps : Fin n → Process) (time : Nat) (timeline : Fin m → Nat → Int)
    (processes : Fin n → Process) (completed : Nat) (counted : Finset (Fin n)) : Prop
    extends Outcome g ps time timeline processes completed counted where
  horizon : time ≤ maxTime
  exit : n ≤ completed ∨ time = maxTime

section
variable {first act : Sim n m → Sim n m} {mids : List (Sim n m → Sim n m)} (hS : Sound first act mids)
  {ps : Fin n → Process} (hw : Workload ps)
include hS hw

theorem Sound.horizon {s : Sim n m} (h : At guard (first :: (mids ++ [act, advance])) (init ps) [] s) :
    s.time ≤ maxTime := by
  apply At.iteration (P := fun s : Sim n m => s.time ≤ maxTime) (Nat.zero_le _) _ h
  intro s hs hg _
  obtain ⟨a, _, ht, _, he, hb⟩ := hS.tick hw hs hg
  simp only [hb, advance, he.time, ht]
  exact hg.2

variable {g : Int → Int} (hL : Lawful first mids) (hA : Accounts (fun t io => (t : Int) + g io) first mids)
  (hB : Books (Derived g) first mids)
  (hcons : ∀ s, At guard (first :: (mids ++ [act, advance])) (init ps) [act, advance] s → WorkConserving s)
include hL hA hB hcons

theorem Sound.ended {s : Sim n m} (h : At guard (first :: (mids ++ [act, advance])) (init ps) [] s) (hg : ¬ guard s) :
    Ended g ps s.time s.timeline s.processes s.completed s.counted := by
  have hle := hS.horizon hw h
  refine ⟨outcome_head hS hL hA hB hw hcons h, hle, ?_⟩
  by_cases hc : n ≤ s.completed
  · exact Or.inl hc
  · refine Or.inr (Nat.le_antisymm hle ?_)
    by_contra hlt
    exact hg ⟨by omega, by omega⟩

end

section
variable {ps : Fin n → Process} (hw : Workload ps)
include hw

theorem fcfs_ended (ha : ∀ i, (ps i).arrivalTime < 9999) :
    Ended id (fcfsSort ps) (runFcfs ps : Sim n m).time (runFcfs ps : Sim n m).timeline (runFcfs ps : Sim n m).processes
      (runFcfs ps : Sim n m).completed (runFcfs ps : Sim n m).counted :=
  fcfs_sound.ended (fcfsSort_workload hw) fcfs_lawful fcfs_accounts fcfs_books
    (fun _ h => fcfs_conserving hw ha h) (At.start.loop maxTime) (fcfs_sound.exit (fcfsSort_workload hw))

theorem mlfq_ended :
    Ended id (mlfqReset ps) (runMlfq ps : Sim n m).time (runMlfq ps : Sim n m).timeline (runMlfq ps : Sim n m).processes
      (runMlfq ps : Sim n m).completed (runMlfq ps : Sim n m).counted :=
  mlfq_sound.ended (mlfqReset_workload hw) mlfq_lawful mlfq_accounts mlfq_books
    (fun _ h => mlfq_conserving hw h) (At.start.loop maxTime) (mlfq_sound.exit (mlfqReset_workload hw))

theorem lottery_ended (rand : Nat → Nat) (hpr : ∀ i, 0 ≤ (ps i).priority) :
    Ended (fun _ => 0) ps (runLottery rand ps : Sim n m).time (runLottery rand ps : Sim n m).timeline
      (runLottery rand ps : Sim n m).processes (runLottery rand ps : Sim n m).completed
      (runLottery rand ps : Sim n m).counted :=
  (lottery_sound rand).ended hw (lottery_lawful rand) (lottery_accounts_zero rand) (lottery_books rand)
    (fun _ h => lottery_conserving rand hw hpr h) (At.start.loop maxTime) ((lottery_sound rand).exit hw)

theorem edf_ended (hd : ∀ i, (ps i).deadline < 999999) :
    Ended id ps (runEdf ps : Sim n m).time (runEdf ps : Sim n m).timeline (runEdf ps : Sim n m).processes
      (runEdf ps : Sim n m).completed (runEdf ps : Sim n m).counted :=
  edf_sound.ended hw edf_lawful edf_accounts edf_books
    (fun _ h => edf_conserving hw hd h) (At.start.loop maxTime) (edf_sound.exit hw)

theorem workSteal_ended (hm : 0 < m) (ha : ∀ i, 0 ≤ (ps i).arrivalTime) :
    Ended (fun _ => 0) ps (WorkSim.runWorkSteal ps : WorkSim n m).currentTime
      (WorkSim.runWorkSteal ps : WorkSim n m).timeline (WorkSim.runWorkSteal ps : WorkSim n m).processes
      (WorkSim.runWorkSteal ps : WorkSim n m).completedProcesses (WorkSim.runWorkSteal ps : WorkSim n m).completed := by
  have h : At WorkSim.guard WorkSim.steps (WorkSim.init ps) [] (WorkSim.runWorkSteal ps : WorkSim n m) :=
    At.start.loop maxTime
  have hle : (WorkSim.runWorkSteal ps : WorkSim n m).currentTime ≤ maxTime := by
    apply At.iteration (P := fun s : WorkSim n m => s.currentTime ≤ maxTime) (Nat.zero_le _) _ h
    intro s hs hg _
    obtain ⟨a, _, _, _, ht, he, hb⟩ := WorkSim.tick hm hw ha hs hg
    simp only [hb, WorkSim.advance, he.time, ht]
    exact hg.2
  have hexit := WorkSim.exit hm hw ha
  refine ⟨WorkSim.outcome_head hm hw ha h, hle, ?_⟩
  by_cases hc : n ≤ (WorkSim.runWorkSteal ps : WorkSim n m).completedProcesses
  · exact Or.inl hc
  · refine Or.inr (Nat.le_antisymm hle ?_)
    by_contra hlt
    exact hexit ⟨by omega, by omega⟩

end

/-! ## The order of the process array -/

theorem fcfsSort_static (ps : Fin n → Process) :
    ∃ e : Equiv.Perm (Fin n), ∀ i, static (fcfsSort ps i) = static (ps (e i)) := by
  obtain ⟨e, he⟩ := fcfsSort_perm ps
  exact ⟨e, fun i => by rw [he]; rfl⟩

theorem mlfqReset_static (ps : Fin n → Process) :
    ∃ e : Equiv.Perm (Fin n), ∀ i, static (mlfqReset ps i) = static (ps (e i)) := ⟨Equiv.refl _, fun _ => rfl⟩

theorem static_refl (ps : Fin n → Process) : ∃ e : Equiv.Perm (Fin n), ∀ i, static (ps i) = static (ps (e i)) :=
  ⟨Equiv.refl _, fun _ => rfl⟩

/-! ## When every process has been counted -/

section
variable {g : Int → Int} {ps : Fin n → Process} {time : Nat} {timeline : Fin m → Nat → Int}
  {processes : Fin n → Process} {completed : Nat} {counted : Finset (Fin n)}
  (E : Ended g ps time timeline processes completed counted) (hw : Workload ps)
include E

theorem Ended.pid (i : Fin n) : (processes i).pid = (ps i).pid := static_pid (E.gantt.same i)
theorem Ended.arrival (i : Fin n) : (processes i).arrivalTime = (ps i).arrivalTime := static_arrival (E.gantt.same i)
theorem Ended.burst (i : Fin n) : (processes i).burstTime = (ps i).burstTime := static_burst (E.gantt.same i)
theorem Ended.deadline (i : Fin n) : (processes i).deadline = (ps i).deadline := static_deadline (E.gantt.same i)
theorem Ended.io (i : Fin n) : (processes i).ioWaitTime = (ps i).ioWaitTime := static_io (E.gantt.same i)

include hw

theorem Ended.remaining_eq_zero (i : Fin n) :
    (processes i).remainingTime = 0 ↔ executed (gantt ps timeline) i time = demand ps i := by
  have h1 := E.gantt.work i
  have h2 := hw.burst_pos i
  unfold demand
  omega

/-- A process that has not been counted was pending in the last tick before
`MAX_TIME`. -/
theorem Ended.pending_of_not_counted {i : Fin n} (hi : i ∉ counted) :
    time = maxTime ∧ executed (gantt ps timeline) i (maxTime - 1) < demand ps i := by
  have htime : time = maxTime := by
    rcases E.exit with hc | ht
    · rw [E.count] at hc
      exact absurd (mem_of_full hc i) hi
    · exact ht
  refine ⟨htime, ?_⟩
  by_cases h0 : (processes i).remainingTime = 0
  · obtain ⟨u, hu, c, hc⟩ := E.late i h0 hi
    have hmem : i ∈ gantt ps timeline u := mem_gantt.mpr ⟨c, by rw [← E.pid i]; exact hc⟩
    have := (E.gantt.greedy.valid u (by omega) i hmem).2
    rwa [show u = maxTime - 1 by omega] at this
  · have h1 : executed (gantt ps timeline) i time ≠ demand ps i := fun h => h0 ((E.remaining_eq_zero hw i).mpr h)
    have h2 := E.gantt.greedy.executed_le i time (Nat.le_refl _)
    have h3 : executed (gantt ps timeline) i (maxTime - 1) ≤ executed (gantt ps timeline) i time :=
      executed_mono (by omega)
    omega

omit hw in
theorem Ended.completed_eq (h : ∀ i, i ∈ counted) : completed = n := by
  rw [E.count, Finset.eq_univ_iff_forall.mpr h, Finset.card_univ, Fintype.card_fin]

theorem Ended.last_tick {i : Fin n} (hi : i ∈ counted) {u : Nat} (hu : LastTick timeline (processes i).pid u) :
    u < time ∧ release ps i ≤ u ∧ executed (gantt ps timeline) i u < demand ps i ∧
      executed (gantt ps timeline) i (u + 1) = demand ps i := by
  obtain ⟨⟨c, hc⟩, hlast⟩ := hu
  rw [E.pid i] at hc hlast
  have hut : u < time := by
    by_contra hge
    have h1 := E.gantt.clean c u (by omega)
    have h2 := hw.pid_pos i
    omega
  have hmem : i ∈ gantt ps timeline u := mem_gantt.mpr ⟨c, hc⟩
  obtain ⟨h1, h2⟩ := E.gantt.greedy.valid u hut i hmem
  refine ⟨hut, h1, h2, ?_⟩
  have hdone := (E.remaining_eq_zero hw i).mp (E.finished i hi)
  have hsplit := executed_add (σ := gantt ps timeline) (i := i) (show u + 1 ≤ time by omega)
  have hnone : ticks (gantt ps timeline) i (u + 1) time = ∅ := by
    rw [Finset.eq_empty_iff_forall_notMem]
    intro v hv
    obtain ⟨⟨h3, _⟩, h4⟩ := mem_ticks.mp hv
    obtain ⟨c', hc'⟩ := mem_gantt.mp h4
    have := hlast c' v hc'
    omega
  rw [hnone, Finset.card_empty] at hsplit
  omega

end

end Sim
end OsLab
