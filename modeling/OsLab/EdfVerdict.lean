import OsLab.EdfOptimal
import OsLab.Runs

/-!
# The verdict of EDF

`run_edf` counts a deadline miss when it records a process, and calls the
workload feasible when it has counted none. Work that the horizon cuts off
leaves the verdict right on generated workloads: there is then so much work
that some other process has been recorded after its deadline.
-/

namespace OsLab
namespace Sim
variable {n m : Nat}

def edfSchedulability (s : Sim n m) : String :=
  if s.deadlineMisses = 0 then "FEASIBLE (all deadlines met)" else "NOT FULLY FEASIBLE"

theorem edfSchedulability_feasible {s : Sim n m} :
    edfSchedulability s = "FEASIBLE (all deadlines met)" ↔ s.deadlineMisses = 0 := by
  unfold edfSchedulability
  split
  · simp [*]
  · simp [*]

/-! ## The counter of deadline misses -/

def lateProcesses (s : Sim n m) : Finset (Fin n) :=
  s.counted.filter fun i => (s.processes i).deadline < (s.processes i).completionTime

def Tallied (s : Sim n m) : Prop := s.deadlineMisses = s.lateProcesses.card

theorem Tallied.same {s s' : Sim n m} (h : Tallied s) (hm : s'.deadlineMisses = s.deadlineMisses)
    (hc : s'.counted = s.counted) (hd : ∀ i ∈ s.counted, (s'.processes i).deadline = (s.processes i).deadline ∧
      (s'.processes i).completionTime = (s.processes i).completionTime) : Tallied s' := by
  unfold Tallied lateProcesses
  rw [hm, hc, h]
  unfold lateProcesses
  congr 1
  apply Finset.filter_congr
  intro i hi
  rw [(hd i hi).1, (hd i hi).2]

theorem edfRecord_misses (s : Sim n m) (i : Fin n) : (s.edfRecord i).deadlineMisses = s.deadlineMisses +
    if (s.processes i).deadline < ((s.edfRecord i).processes i).completionTime then 1 else 0 := by
  have hst : ((s.edfRecord i).processes i).completionTime = (s.time : Int) + (s.processes i).ioWaitTime :=
    edfStamps.stamp s i
  rw [hst]
  unfold edfRecord
  simp only [record, setProcess, Function.update_self]
  by_cases h : (s.processes i).deadline < (s.time : Int) + (s.processes i).ioWaitTime
  · simp [h]
  · simp [h]

theorem Tallied.release {s : Sim n m} (hco : Coherent s) (h : Tallied s) {c : Fin m} {i : Fin n}
    (hc : (s.cpus c).currentPid = (s.processes i).pid) (h0 : (s.processes i).remainingTime = 0) :
    Tallied { (s.edfRecord i).free c i with completed := s.completed + 1 } := by
  have hs := edfRecord_same s i
  have hnot := not_mem_counted ((hco.running i).mpr ⟨c, hc⟩)
  have hrest : (s.counted.filter fun j => ((s.edfRecord i).processes j).deadline <
      ((s.edfRecord i).processes j).completionTime) = s.lateProcesses := by
    apply Finset.filter_congr
    intro j hj
    rw [edfStamps.others s i j fun e => hnot (e ▸ hj)]
  have hnot' : i ∉ s.lateProcesses := fun hi => hnot (Finset.mem_filter.mp hi).1
  have hdl : ((s.edfRecord i).processes i).deadline = (s.processes i).deadline := core_deadline (hs.core i)
  unfold Tallied lateProcesses
  rw [counted_release hs h0]
  simp only [Sim.free, setCpu, Finset.filter_insert, hrest, hdl, edfRecord_misses]
  rw [h]
  split
  · rw [Finset.card_insert_of_notMem hnot']
  · rfl

theorem edfFinish_tallied {s : Sim n m} (hco : Coherent s) (h : Tallied s) : Tallied (edfFinish s) := by
  have key := foldl_keeps (f := finishOn findFirst edfRecord keepCpu) (b := s)
    (P := fun a : Sim n m => Coherent a ∧ Tallied a) (List.finRange m) (by
      intro a c _ ⟨hco, ha⟩
      refine ⟨(finishOn_released findFirst_finds edfRecord_same keepCpu_ok hco c).coherent, ?_⟩
      rcases @finishOn_cases n m findFirst edfRecord keepCpu findFirst_finds a hco c with
        ⟨_, e⟩ | ⟨i, hi, ⟨h0, e⟩ | ⟨_, e⟩⟩
      · rw [e]; exact ha
      · rw [e]; exact ha.release hco hi h0
      · rw [e]; exact ha) ⟨hco, h⟩
  exact key.2

theorem edfAssign_misses (s : Sim n m) : (edfAssign s).deadlineMisses = s.deadlineMisses := by
  apply foldl_keeps (P := fun a : Sim n m => a.deadlineMisses = s.deadlineMisses) _ _ rfl
  intro a c _ ha
  rcases @assignOn_cases n m edfPick id (fun q _ => q.timeLeftOnCore) a c with ⟨_, e⟩ | ⟨_, _, e⟩ | ⟨i, _, _, e⟩
  · rw [e]; exact ha
  · rw [e]; exact ha
  · rw [e]; exact ha

theorem edf_tallied {ps : Fin n → Process} (hw : Workload ps) {s : Sim n m} (h : At guard edfSteps (init ps) [] s) :
    Tallied s := by
  apply At.iteration (P := Tallied) _ _ h
  · have : (init ps : Sim n m).counted = ∅ := by
      rw [Finset.eq_empty_iff_forall_notMem]
      intro i hi
      have h0 : (ps i).remainingTime = 0 := (mem_counted.mp hi).1
      have h1 := hw.fresh i
      have h2 := hw.burst_pos i
      omega
    unfold Tallied lateProcesses
    rw [this]
    rfl
  intro s hs hg ih
  obtain ⟨a, _, ha, _, _, he, hb⟩ := edf_sound.tickWith (P := Tallied) hw hs hg
    (edfFinish_tallied (edf_sound.head hw hs).1 ih) (by
      intro f hf a hco hal ha
      have hal' := (edf_sound.mids f hf a hco hal).1.2
      have hps := (edf_frame hf a).1
      refine ha.same ?_ ?_ fun i _ => by rw [hps]; exact ⟨rfl, rfl⟩
      · simp only [List.mem_cons, List.not_mem_nil, or_false] at hf
        rcases hf with rfl | rfl
        · exact (edfPreempt_frame a).2.2
        · exact edfAssign_misses a
      · ext i
        rw [mem_counted, mem_counted, hps]
        exact and_congr_right fun h0 => by rw [hal.idle h0, hal'.idle (by rw [hps]; exact h0)])
  have hb : body edfSteps s = advance (edfExecute a) := hb
  rw [hb]
  refine ha.same he.deadlineMisses ?_ fun i _ => ?_
  · ext i
    have : i ∈ (advance (edfExecute a)).counted ↔
        ((edfExecute a).processes i).remainingTime = 0 ∧ (edfExecute a).isRunning i = false := mem_counted
    rw [this, mem_counted, he.isRunning, he.processes i]
    refine and_congr_left fun hr => ?_
    rw [hr]
    simp
  · simp only [advance, he.processes i]
    exact ⟨trivial, trivial⟩

/-! ## The load argument -/

section
variable {ps : Fin n → Process} (hw : Workload ps) (hm : 1 ≤ m) (ha : ∀ i, release ps i ≤ 4) (hb : ∀ i, demand ps i ≤ 10)
  (hd : ∀ i, (ps i).deadline ≤ 23) (hio : ∀ i, 0 ≤ (ps i).ioWaitTime) {time : Nat} {timeline : Fin m → Nat → Int}
  {processes : Fin n → Process} {completed : Nat} {counted : Finset (Fin n)}
  (E : Ended id ps time timeline processes completed counted)
include hw hm ha hb hd hio E

/-- If the horizon cuts off a process, then some other process has been recorded
after its deadline. Otherwise only processes with work left at the end could have
been executed after tick 23, and they are too few. -/
theorem Ended.some_late {i : Fin n} (hi : i ∉ counted) :
    ∃ j ∈ counted, (processes j).deadline < (processes j).completionTime := by
  by_contra hno
  obtain ⟨htime, hp⟩ := E.pending_of_not_counted hw hi
  have htime' : maxTime - 1 ≤ time := by rw [htime]; exact Nat.sub_le _ _
  have hpend : ∀ u, u < maxTime - 1 → executed (gantt ps timeline) i u < demand ps i :=
    fun u hu => lt_of_le_of_lt (executed_mono (Nat.le_of_lt hu)) hp
  have hone : ∀ a, (ticks (gantt ps timeline) i a (maxTime - 1)).card ≤ 10 :=
    fun a => le_trans (card_ticks_le_executed a _) (le_trans (Nat.le_of_lt hp) (hb i))
  have hwin : ∀ a, 4 ≤ a → m * (maxTime - 1 - a) ≤
      ∑ j, (ticks (gantt ps timeline) j a (maxTime - 1)).card + (m - 1) * 10 := by
    intro a h4
    have h1 := E.gantt.greedy.window (j := i) (a := a) (by have := ha i; omega) htime' fun u _ hu => hpend u hu
    have h2 := Nat.mul_le_mul_left (m - 1) (hone a)
    omega
  -- a process with a tick after 23 is not counted, and so has work left at the end
  have hlate : ∀ j ∈ Finset.univ, (ticks (gantt ps timeline) j 23 (maxTime - 1)).card ≤
      10 * (demand ps j - executed (gantt ps timeline) j (maxTime - 1)) := by
    intro j _
    by_cases hj : j ∈ counted
    · have hnone : ticks (gantt ps timeline) j 23 (maxTime - 1) = ∅ := by
        rw [Finset.eq_empty_iff_forall_notMem]
        intro v hv
        obtain ⟨⟨h3, _⟩, h4⟩ := mem_ticks.mp hv
        obtain ⟨c, hc⟩ := mem_gantt.mp h4
        obtain ⟨_, u, hu, hst⟩ := E.recorded j hj
        have h5 := hu.2 c v (by rw [E.pid j]; exact hc)
        have h6 : ¬ (processes j).deadline < (processes j).completionTime := fun h => hno ⟨j, hj, h⟩
        have h7 := hd j
        have h8 := hio j
        rw [hst, E.deadline j, E.io j] at h6
        simp only [id] at h6
        omega
      rw [hnone]
      exact Nat.zero_le _
    · have h1 := (E.pending_of_not_counted hw hj).2
      have h2 := card_ticks_le_executed (σ := gantt ps timeline) (i := j) 23 (maxTime - 1)
      have h3 := hb j
      omega
  have hsum := Finset.sum_le_sum hlate
  have hleft : ∑ j, (demand ps j - executed (gantt ps timeline) j (maxTime - 1)) +
      ∑ j, executed (gantt ps timeline) j (maxTime - 1) = ∑ j, demand ps j := by
    rw [← Finset.sum_add_distrib]
    apply Finset.sum_congr rfl
    intro j _
    have := E.gantt.greedy.executed_le j (maxTime - 1) htime'
    omega
  have hall : ∑ j, (ticks (gantt ps timeline) j 4 (maxTime - 1)).card ≤
      ∑ j, executed (gantt ps timeline) j (maxTime - 1) := Finset.sum_le_sum fun j _ => card_ticks_le_executed 4 _
  have hwork : ∑ j, demand ps j ≤ 1000 := by
    have h1 := Finset.sum_le_card_nsmul Finset.univ (fun j => demand ps j) 10 fun j _ => hb j
    have h2 := hw.small
    rw [Finset.card_univ, Fintype.card_fin, Nat.nsmul_eq_mul] at h1
    omega
  have h4 := hwin 4 (Nat.le_refl _)
  have h23 := hwin 23 (by decide)
  rw [← Finset.mul_sum] at hsum
  obtain ⟨k, rfl⟩ : ∃ k, m = k + 1 := ⟨m - 1, by omega⟩
  unfold maxTime at *
  omega

end

/-- **The verdict.** For every generated workload and number of CPUs: the report
says `FEASIBLE` exactly when every process has been recorded, was executed for
its burst time, and its last tick leaves room for its I/O wait. -/
theorem edf_feasible_iff (hn : n ≤ 100) (hm : 1 ≤ m) (rand : Nat → Nat) (p : Fin n → Process) :
    let ps := initializeTestData rand p
    let s : Sim n m := runEdf ps
    edfSchedulability s = "FEASIBLE (all deadlines met)" ↔
      ∀ i, i ∈ s.counted ∧ ((s.cells (ps i).pid s.time).card : Int) = (ps i).burstTime ∧
        ∃ u : Nat, LastTick s.timeline (ps i).pid u ∧ (u : Int) + 1 + (ps i).ioWaitTime ≤ (ps i).deadline := by
  intro ps s
  have hw : Workload ps := initializeTestData_workload hn rand p
  have hr : ∀ i, InRange (ps i) := initializeTestData_inRange rand p
  have h : At guard edfSteps (init ps) [] s := At.start.loop maxTime
  have E : Ended id ps s.time s.timeline s.processes s.completed s.counted :=
    edf_ended hw fun i => (hr i).deadline_bounds.2
  have hT : s.deadlineMisses = s.lateProcesses.card := edf_tallied hw h
  have hL := (edf_accounts.run edf_sound hw h).1 (by simp)
  rw [edfSchedulability_feasible, hT, Finset.card_eq_zero]
  constructor
  · intro hnone
    have hnot : ∀ i ∈ s.counted, (s.processes i).completionTime ≤ (s.processes i).deadline := by
      intro i hi
      by_contra hlt
      have : i ∈ s.lateProcesses := Finset.mem_filter.mpr ⟨hi, by omega⟩
      rw [hnone] at this
      exact Finset.notMem_empty i this
    have hall : ∀ i, i ∈ s.counted := by
      intro i
      by_contra hi
      have hrel : ∀ i, release ps i ≤ 4 := fun i => by
        have := (hr i).arrival
        unfold release
        omega
      have hdem : ∀ i, demand ps i ≤ 10 := fun i => by
        have := (hr i).burst
        unfold demand
        omega
      obtain ⟨j, hj, hlt⟩ := E.some_late hw hm hrel hdem (fun i => (hr i).deadline.2) (fun i => (hr i).io.1) hi
      have := hnot j hj
      omega
    intro i
    obtain ⟨_, u, hu, hst⟩ := E.recorded i (hall i)
    have hle := hnot i (hall i)
    have hwork := hL.work i
    rw [(mem_counted.mp (hall i)).1, E.pid i, E.burst i] at hwork
    rw [hst, E.deadline i, E.io i] at hle
    rw [E.pid i] at hu
    exact ⟨hall i, by omega, u, hu, hle⟩
  · intro hok
    rw [Finset.eq_empty_iff_forall_notMem]
    intro i hi
    obtain ⟨hi, hlt⟩ := Finset.mem_filter.mp hi
    obtain ⟨_, _, u, ⟨⟨c, hc⟩, hlast⟩, hle⟩ := hok i
    obtain ⟨_, u', ⟨⟨c', hc'⟩, hlast'⟩, hst⟩ := E.recorded i hi
    rw [E.pid i] at hc' hlast'
    have huu : u = u' := Nat.le_antisymm (hlast' c u hc) (hlast c' u' hc')
    rw [hst, E.deadline i, E.io i, ← huu] at hlt
    simp only [id] at hlt
    omega

theorem edf_feasible_iff_two : edfSchedulability (runEdf (countedProcesses 2) : Sim 2 1) = "FEASIBLE (all deadlines met)" ↔
    ∀ i, i ∈ (runEdf (countedProcesses 2) : Sim 2 1).counted ∧
      (((runEdf (countedProcesses 2) : Sim 2 1).cells (countedProcesses 2 i).pid
        (runEdf (countedProcesses 2) : Sim 2 1).time).card : Int) = (countedProcesses 2 i).burstTime ∧
      ∃ u : Nat, LastTick (runEdf (countedProcesses 2) : Sim 2 1).timeline (countedProcesses 2 i).pid u ∧
        (u : Int) + 1 + (countedProcesses 2 i).ioWaitTime ≤ (countedProcesses 2 i).deadline :=
  edf_feasible_iff (n := 2) (m := 1) (by decide) (by decide) id _

/-! ## I/O waits and optimality -/

def IoFeasible (ps : Fin n → Process) : Prop :=
  ∃ φ : Nat → Option (Fin n), ∀ i, (ps i).burstTime ≤ ((Finset.range maxTime).filter fun t : Nat =>
    (ps i).arrivalTime ≤ t ∧ (t : Int) + 1 + (ps i).ioWaitTime ≤ (ps i).deadline ∧ φ t = some i).card

def IoOrdered (s : Sim n m) : Prop := ∀ r w, s.isRunning r = true → s.ready w = true →
  (s.processes r).deadline - (s.processes r).ioWaitTime ≤ (s.processes w).deadline - (s.processes w).ioWaitTime

/-- **EDF and I/O waits.** On one CPU, if every tick runs a process that must be
done first once the I/O waits are taken into account, then a workload that can
be scheduled is reported as feasible. -/
theorem edf_io_optimal (hn : n ≤ 100) (rand : Nat → Nat) (p : Fin n → Process) :
    let ps := initializeTestData rand p
    (∀ a : Sim n 1, At guard edfSteps (init ps) [edfExecute, advance] a → IoOrdered a) → IoFeasible ps →
      (runEdf ps : Sim n 1).deadlineMisses = 0 ∧
      edfSchedulability (runEdf ps : Sim n 1) = "FEASIBLE (all deadlines met)" := by
  intro ps hord ⟨φ, hφ⟩
  have hw : Workload ps := initializeTestData_workload hn rand p
  have hr : ∀ i, InRange (ps i) := initializeTestData_inRange rand p
  -- the tick by which a process must have been executed
  let dl : Fin n → Nat := fun i => ((ps i).deadline - (ps i).ioWaitTime).toNat
  have hordered : ∀ a, At guard edfSteps (init ps) [edfExecute, advance] a → OrderedBy dl (a : Sim n 1) := by
    intro a hat r w hr hrw
    have hs := edf_static hat
    have hle := hord a hat r w hr hrw
    rw [static_deadline (hs r), static_deadline (hs w), static_io (hs r), static_io (hs w)] at hle
    simp only [dl]
    omega
  have hfeas : Feasible (release ps) dl (demand ps) φ := by
    intro i
    have hsub : ((Finset.range maxTime).filter fun t : Nat => (ps i).arrivalTime ≤ t ∧
        (t : Int) + 1 + (ps i).ioWaitTime ≤ (ps i).deadline ∧ φ t = some i) ⊆ slots φ i (release ps i) (dl i) := by
      intro t ht
      obtain ⟨h2, h3, h4⟩ := (Finset.mem_filter.mp ht).2
      rw [mem_slots]
      simp only [release, dl]
      exact ⟨⟨by omega, by omega⟩, h4⟩
    have h1 := hφ i
    have h2 := Finset.card_le_card hsub
    unfold demand
    omega
  have hdl : ∀ i, dl i < maxTime := fun i => by
    have h1 := (hr i).deadline
    have h2 := (hr i).io
    simp only [dl, maxTime]
    omega
  have h : At guard edfSteps (init ps) [] (runEdf ps : Sim n 1) := At.start.loop maxTime
  have E : Ended id ps _ _ _ _ _ := edf_ended (m := 1) hw fun i => (hr i).deadline_bounds.2
  have hS := chart_edf hw (fun i => (hr i).deadline_bounds) (fun i => (hr i).arrival.1) hordered h
  have hnone : (runEdf ps : Sim n 1).lateProcesses = ∅ := by
    rw [Finset.eq_empty_iff_forall_notMem]
    intro i hi
    obtain ⟨hi, hlt⟩ := Finset.mem_filter.mp hi
    obtain ⟨_, u, hu, hst⟩ := E.recorded i hi
    have hut := (E.last_tick hw hi hu).1
    obtain ⟨⟨c, hc⟩, _⟩ := hu
    rw [Fin.fin_one_eq_zero c, E.pid i] at hc
    have hbefore := hS.before_deadline hfeas hut ((chart_iff hw).mpr hc)
    rw [hst, E.deadline i, E.io i] at hlt
    simp only [id, dl] at hlt hbefore
    omega
  have hmisses : (runEdf ps : Sim n 1).deadlineMisses = 0 := by
    rw [edf_tallied hw h, hnone]
    rfl
  exact ⟨hmisses, edfSchedulability_feasible.mpr hmisses⟩

/-- The order of the deadlines is enough, if the I/O waits do not change it. -/
theorem ioOrdered_of_deadlines {ps : Fin n → Process} (hw : Workload ps)
    (hd : ∀ i, 0 ≤ (ps i).deadline ∧ (ps i).deadline < 999999) (hio : ∀ i j, (ps i).deadline ≤ (ps j).deadline →
      (ps i).deadline - (ps i).ioWaitTime ≤ (ps j).deadline - (ps j).ioWaitTime) {a : Sim n m}
    (h : At guard edfSteps (init ps) [edfExecute, advance] a) : IoOrdered a := by
  intro r w hr hrw
  have hs := edf_static h
  have hle := (edf_ordered hw hd h).1 r w hr hrw
  rw [static_deadline (hs r), static_deadline (hs w)] at hle ⊢
  rw [static_io (hs r), static_io (hs w)]
  exact hio r w hle

theorem edf_io_optimal_two : (runEdf (countedProcesses 2) : Sim 2 1).deadlineMisses = 0 ∧
    edfSchedulability (runEdf (countedProcesses 2) : Sim 2 1) = "FEASIBLE (all deadlines met)" :=
  edf_io_optimal (n := 2) (by decide) id _
    (fun _ h => ioOrdered_of_deadlines (initializeTestData_workload (by decide) _ _) (by decide) (by decide) h)
    ⟨fun t => if t < 2 then some 0 else if t < 9 then some 1 else none, by decide +kernel⟩

/-- A `rand()` for two processes that arrive at 0: one with burst 4, deadline 5
and no I/O wait, and one with burst 1, deadline 6 and an I/O wait of 2. -/
def ioBound (k : Nat) : Nat := [0, 3, 0, 1, 0, 0, 0, 0, 5, 2].getD k 0

def ioProcesses : Fin 2 → Process := initializeTestData ioBound fun _ => ⟨0, 0, 0, 0, 0, 0, 0, 0, 0, 0, 0, 0⟩

/-- Running the second process first meets both deadlines; `run_edf` runs it
last, and counts a miss. -/
theorem edf_io_miss : IoFeasible ioProcesses ∧ (runEdf ioProcesses : Sim 2 1).deadlineMisses = 1 ∧
    edfSchedulability (runEdf ioProcesses : Sim 2 1) = "NOT FULLY FEASIBLE" :=
  ⟨⟨fun t => if t < 1 then some 1 else some 0, by decide +kernel⟩, by decide +kernel, by decide +kernel⟩

end Sim
end OsLab
