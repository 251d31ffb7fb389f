import Mathlib.Order.Lattice.Nat
import OsLab.Runs

/-!
# The makespan of the schedulers

A workload that fits below `MAX_TIME` by Graham's bound is completed by every
scheduler, and no tick beyond the bound is executed.
-/

namespace OsLab
namespace Sim
variable {n m : Nat}

def finishTick (timeline : Fin m → Nat → Int) : Nat :=
  ((Finset.range maxTime).filter fun t => ∃ c, timeline c t ≠ 0).sup (· + 1)

section
variable {ps : Fin n → Process} (hw : Workload ps) (hm : 1 ≤ m) (ha : ∀ i, 0 ≤ (ps i).arrivalTime) {A B : Int}
  (hA : ∀ i, (ps i).arrivalTime ≤ A) (hB : ∀ i, (ps i).burstTime ≤ B)
include hw

theorem sum_demand : ((∑ i, demand ps i : Nat) : Int) = ∑ i, (ps i).burstTime := by
  rw [Nat.cast_sum]
  apply Finset.sum_congr rfl
  intro i _
  have := hw.burst_pos i
  unfold demand
  omega

theorem burst_sum_nonneg : 0 ≤ ∑ i, (ps i).burstTime :=
  Finset.sum_nonneg fun i _ => by have := hw.burst_pos i; omega

variable {g : Int → Int} {time : Nat} {timeline : Fin m → Nat → Int} {processes : Fin n → Process} {completed : Nat}
  {counted : Finset (Fin n)} (E : Ended g ps time timeline processes completed counted)
include hm ha hA hB E

/-- Every process is counted, because one that was pending in the last tick
before `MAX_TIME` would exceed the bound. -/
theorem Ended.all_counted (hfit : (∑ i, (ps i).burstTime) + (m - 1) * B ≤ m * ((maxTime : Int) - 1 - A)) (i : Fin n) :
    i ∈ counted := by
  by_contra hi
  obtain ⟨ht, hp⟩ := E.pending_of_not_counted hw hi
  have h0 := ha i
  have h1 := hA i
  have h2 := hw.burst_pos i
  have h3 := hB i
  obtain ⟨A, rfl⟩ : ∃ a : Nat, A = a := ⟨A.toNat, by omega⟩
  obtain ⟨B, rfl⟩ : ∃ b : Nat, B = b := ⟨B.toNat, by omega⟩
  have hbound := E.gantt.greedy.pending (A := A) (B := B) (t := maxTime - 1)
    (fun j => by have := hA j; unfold release; omega) (fun j => by have := hB j; unfold demand; omega)
    (by rw [ht]; exact Nat.sub_le _ _) hp
  have hlt : m * (maxTime - 1 - A) < ∑ i, demand ps i + (m - 1) * B := by omega
  have hcast : (m : Int) * ((maxTime - 1 - A : Nat) : Int) < ((∑ i, demand ps i : Nat) : Int) + ((m - 1 : Nat) : Int) * B := by
    exact_mod_cast hlt
  have hpred : ((m - 1 : Nat) : Int) = (m : Int) - 1 := by omega
  have hsub : (maxTime : Int) - 1 - A ≤ ((maxTime - 1 - A : Nat) : Int) := by unfold maxTime; omega
  rw [sum_demand hw, hpred] at hcast
  have := Int.mul_le_mul_of_nonneg_left hsub (Int.natCast_nonneg m)
  omega

theorem Ended.finishTick_le (hn : 0 < n) : (m : Int) * ((finishTick timeline : Int) - A) ≤
    (∑ i, (ps i).burstTime) + (m - 1) * B := by
  have h0 := ha ⟨0, hn⟩
  have h1 := hA ⟨0, hn⟩
  have h2 := hw.burst_pos ⟨0, hn⟩
  have h3 := hB ⟨0, hn⟩
  obtain ⟨A, rfl⟩ : ∃ a : Nat, A = a := ⟨A.toNat, by omega⟩
  obtain ⟨B, rfl⟩ : ∃ b : Nat, B = b := ⟨B.toNat, by omega⟩
  have hright : 0 ≤ (∑ i, (ps i).burstTime) + (m - 1) * (B : Int) :=
    Int.add_nonneg (burst_sum_nonneg hw) (Int.mul_nonneg (by omega) (Int.natCast_nonneg B))
  by_cases hle : finishTick timeline ≤ A
  · have : (m : Int) * ((finishTick timeline : Int) - A) ≤ 0 :=
      Int.mul_nonpos_of_nonneg_of_nonpos (Int.natCast_nonneg m) (by omega)
    omega
  -- the last executed tick
  have hne : ((Finset.range maxTime).filter fun t => ∃ c, timeline c t ≠ 0).Nonempty := by
    by_contra hemp
    rw [Finset.not_nonempty_iff_eq_empty] at hemp
    apply hle
    unfold finishTick
    rw [hemp]
    exact Nat.zero_le A
  obtain ⟨u, hu, he⟩ := Finset.exists_mem_eq_sup _ hne (· + 1)
  obtain ⟨_, c, hc⟩ := Finset.mem_filter.mp hu
  obtain ⟨j, hj⟩ := E.gantt.shown c u hc
  have hut : u < time := by
    by_contra hge
    exact hc (E.gantt.clean c u (by omega))
  have hbound := E.gantt.greedy.makespan (A := A) (B := B)
    (fun j => by have := hA j; unfold release; omega) (fun j => by have := hB j; unfold demand; omega)
    hut (mem_gantt.mpr ⟨c, hj⟩)
  have hF : finishTick timeline = u + 1 := he
  have hcast : (m : Int) * ((u + 1 - A : Nat) : Int) ≤ ((∑ i, demand ps i : Nat) : Int) + ((m - 1 : Nat) : Int) * B := by
    exact_mod_cast hbound
  have hpred : ((m - 1 : Nat) : Int) = (m : Int) - 1 := by omega
  have hsub : ((u + 1 - A : Nat) : Int) = ((u + 1 : Nat) : Int) - A := by omega
  rw [sum_demand hw, hpred, hsub] at hcast
  rw [hF]
  exact hcast

end

theorem Ended.makespan {g : Int → Int} {ps qs : Fin n → Process} {time : Nat} {timeline : Fin m → Nat → Int}
    {processes : Fin n → Process} {completed : Nat} {counted : Finset (Fin n)} {A B : Int}
    (E : Ended g qs time timeline processes completed counted) (hm : 1 ≤ m) (ha : ∀ i, 0 ≤ (ps i).arrivalTime)
    (hA : ∀ i, (ps i).arrivalTime ≤ A) (hB : ∀ i, (ps i).burstTime ≤ B)
    (hfit : (∑ i, (ps i).burstTime) + (m - 1) * B ≤ m * ((maxTime : Int) - 1 - A)) (hn : 0 < n) (hq : Workload qs)
    (hsame : ∃ e : Equiv.Perm (Fin n), ∀ i, static (qs i) = static (ps (e i))) :
    completed = n ∧ (m : Int) * ((finishTick timeline : Int) - A) ≤ (∑ i, (ps i).burstTime) + (m - 1) * B := by
  obtain ⟨e, he⟩ := hsame
  have hsum : ∑ i, (qs i).burstTime = ∑ i, (ps i).burstTime := by
    simp only [static_burst (he _)]
    exact Equiv.sum_comp e fun i => (ps i).burstTime
  have h1 : ∀ i, 0 ≤ (qs i).arrivalTime := fun i => by rw [static_arrival (he i)]; exact ha _
  have h2 : ∀ i, (qs i).arrivalTime ≤ A := fun i => by rw [static_arrival (he i)]; exact hA _
  have h3 : ∀ i, (qs i).burstTime ≤ B := fun i => by rw [static_burst (he i)]; exact hB _
  rw [← hsum]
  exact ⟨E.completed_eq (E.all_counted hq hm h1 h2 h3 (by rw [hsum]; exact hfit)), E.finishTick_le hq hm h1 h2 h3 hn⟩

/-- **Makespan.** On every workload that fits by Graham's bound, each of the
five schedulers completes all processes, and executes none after the bound. -/
theorem makespan_bound {ps : Fin n → Process} (hn : n ≤ 100) (hm : 1 ≤ m) (hpid : ∀ i : Fin n, (ps i).pid = i + 1)
    (ha : ∀ i, 0 ≤ (ps i).arrivalTime) (hrem : ∀ i, (ps i).remainingTime = (ps i).burstTime)
    (hburst : ∀ i, 1 ≤ (ps i).burstTime) (hpr : ∀ i, 0 ≤ (ps i).priority ∧ (ps i).priority ≤ 4)
    (hd : ∀ i, 0 ≤ (ps i).deadline ∧ (ps i).deadline < 999999) (rand : Nat → Nat) {A B : Int}
    (hA : IsGreatest (Set.range fun i => (ps i).arrivalTime) A)
    (hB : IsGreatest (Set.range fun i => (ps i).burstTime) B)
    (hfit : (∑ i, (ps i).burstTime) + (m - 1) * B ≤ m * ((maxTime : Int) - 1 - A)) :
    ((runFcfs ps : Sim n m).completed = n ∧
      (m : Int) * ((finishTick (runFcfs ps : Sim n m).timeline : Int) - A) ≤ (∑ i, (ps i).burstTime) + (m - 1) * B) ∧
    ((runMlfq ps : Sim n m).completed = n ∧
      (m : Int) * ((finishTick (runMlfq ps : Sim n m).timeline : Int) - A) ≤ (∑ i, (ps i).burstTime) + (m - 1) * B) ∧
    ((runLottery rand ps : Sim n m).completed = n ∧
      (m : Int) * ((finishTick (runLottery rand ps : Sim n m).timeline : Int) - A) ≤
        (∑ i, (ps i).burstTime) + (m - 1) * B) ∧
    ((runEdf ps : Sim n m).completed = n ∧
      (m : Int) * ((finishTick (runEdf ps : Sim n m).timeline : Int) - A) ≤ (∑ i, (ps i).burstTime) + (m - 1) * B) ∧
    ((WorkSim.runWorkSteal ps : WorkSim n m).completedProcesses = n ∧
      (m : Int) * ((finishTick (WorkSim.runWorkSteal ps : WorkSim n m).timeline : Int) - A) ≤
        (∑ i, (ps i).burstTime) + (m - 1) * B) := by
  have hw : Workload ps := ⟨.of_pid hpid hrem hburst, hn⟩
  have hA' : ∀ i, (ps i).arrivalTime ≤ A := fun i => hA.2 ⟨i, rfl⟩
  have hB' : ∀ i, (ps i).burstTime ≤ B := fun i => hB.2 ⟨i, rfl⟩
  obtain ⟨i₀, _⟩ := hA.1
  have hn0 : 0 < n := Nat.lt_of_le_of_lt (Nat.zero_le _) i₀.isLt
  -- the bound leaves no room for an arrival at the sentinel of `run_fcfs`
  have hlate : ∀ i, (ps i).arrivalTime < 9999 := by
    intro i
    have h1 := hA' i
    have h2 : 1 ≤ ∑ i, (ps i).burstTime :=
      Int.le_trans (hburst i) (Finset.single_le_sum (f := fun i => (ps i).burstTime)
        (fun j _ => by have := hburst j; omega) (Finset.mem_univ i))
    have h3 : 0 ≤ ((m : Int) - 1) * B := by
      have := hburst i
      have := hB' i
      exact Int.mul_nonneg (by omega) (by omega)
    by_contra hge
    have h4 : (m : Int) * ((maxTime : Int) - 1 - A) ≤ 0 :=
      Int.mul_nonpos_of_nonneg_of_nonpos (Int.natCast_nonneg m) (by unfold maxTime; omega)
    omega
  exact ⟨(fcfs_ended hw hlate).makespan hm ha hA' hB' hfit hn0 (fcfsSort_workload hw) (fcfsSort_static ps),
    (mlfq_ended hw).makespan hm ha hA' hB' hfit hn0 (mlfqReset_workload hw) (mlfqReset_static ps),
    (lottery_ended hw rand fun i => (hpr i).1).makespan hm ha hA' hB' hfit hn0 hw (static_refl ps),
    (edf_ended hw fun i => (hd i).2).makespan hm ha hA' hB' hfit hn0 hw (static_refl ps),
    (workSteal_ended hw hm ha).makespan hm ha hA' hB' hfit hn0 hw (static_refl ps)⟩

theorem makespan_bound_three : (runFcfs (countedProcesses 3) : Sim 3 2).completed = 3 ∧
    (WorkSim.runWorkSteal (countedProcesses 3) : WorkSim 3 2).completedProcesses = 3 := by
  have h := @makespan_bound 3 2 (countedProcesses 3) (by decide) (by decide) (by decide)
    (by decide) (by decide) (by decide) (by decide) (by decide) id 0 7
    ⟨⟨0, by decide⟩, by rintro _ ⟨i, rfl⟩; revert i; decide⟩ ⟨⟨1, by decide⟩, by rintro _ ⟨i, rfl⟩; revert i; decide⟩
    (by decide)
  exact ⟨h.1.1, h.2.2.2.2.1⟩

end Sim
end OsLab
