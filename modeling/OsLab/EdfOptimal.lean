import OsLab.EdfGlobal
import OsLab.EdfTheory
import OsLab.Metrics

/-!
# EDF on one CPU is optimal

On one CPU the chart of `run_edf` is an EDF schedule in the sense of
`EdfSchedule`, so it meets all deadlines that can be met; the accounts turn
this into the completion times that `run_edf` records.
-/

namespace OsLab
namespace Sim
variable {n m : Nat}

/-! ## The chart as a schedule -/

def chart (ps : Fin n → Process) (s : Sim n 1) (u : Nat) : Option (Fin n) := findFirst ps (s.timeline 0 u)

theorem chart_iff {ps : Fin n → Process} (hw : Workload ps) {s : Sim n 1} {u : Nat} {i : Fin n} :
    chart ps s u = some i ↔ s.timeline 0 u = (ps i).pid := by
  constructor
  · intro h
    have := List.find?_some h
    simp only [beq_iff_eq] at this
    exact this.symm
  · intro h
    unfold chart
    rw [h]
    exact findFirst_finds ps hw.pid_inj i

theorem served_chart {ps : Fin n → Process} (hw : Workload ps) (s : Sim n 1) (i : Fin n) (t : Nat) :
    served (chart ps s) i t = (s.cells (ps i).pid t).card := by
  unfold served
  congr 1
  ext u
  rw [mem_slots, mem_cells, chart_iff hw]
  constructor
  · exact fun h => ⟨h.1.2, 0, h.2⟩
  · intro ⟨hu, c, hc⟩
    rw [Fin.fin_one_eq_zero c] at hc
    exact ⟨⟨Nat.zero_le _, hu⟩, hc⟩

def OrderedBy (dl : Fin n → Nat) (s : Sim n m) : Prop := ∀ r w, s.isRunning r = true → s.ready w = true → dl r ≤ dl w

section
variable {ps : Fin n → Process} {dl : Fin n → Nat}

variable (hw : Workload ps) (hd : ∀ i, 0 ≤ (ps i).deadline ∧ (ps i).deadline < 999999)
  (ha : ∀ i, 0 ≤ (ps i).arrivalTime)
include hw hd

theorem edf_orderedBy_due {a : Sim n m} (h : At guard edfSteps (init ps) [edfExecute, advance] a) :
    OrderedBy (due ps) a := by
  intro r w hr hw'
  have hdl : ∀ i, (a.processes i).deadline = (ps i).deadline := fun i => static_deadline (edf_static h i)
  have := (edf_ordered hw hd h).1 r w hr hw'
  rw [hdl r, hdl w] at this
  unfold due
  omega

include ha

theorem edfTick_choice {a : Sim n 1} (h : At guard edfSteps (init ps) [edfExecute, advance] a)
    (hord : OrderedBy dl a) :
    (∀ i, (a.cpus 0).currentPid = (ps i).pid → release ps i ≤ a.time ∧ served (chart ps a) i a.time < demand ps i) ∧
    ∀ j, release ps j ≤ a.time → served (chart ps a) j a.time < demand ps j →
      ∃ i, (a.cpus 0).currentPid = (ps i).pid ∧ dl i ≤ dl j := by
  have hs := edf_static h
  have hpid : ∀ i, (a.processes i).pid = (ps i).pid := fun i => static_pid (hs i)
  have harr : ∀ i, (a.processes i).arrivalTime = (ps i).arrivalTime := fun i => static_arrival (hs i)
  have hbt : ∀ i, (a.processes i).burstTime = (ps i).burstTime := fun i => static_burst (hs i)
  obtain ⟨hco, hal, _⟩ := edf_sound.beforeAct hw h
  have hL := (edf_accounts.run edf_sound hw h).1 (by simp)
  have hwork : ∀ i, (a.processes i).remainingTime + served (chart ps a) i a.time = (ps i).burstTime := by
    intro i
    rw [served_chart hw, ← hpid i, ← hbt i]
    exact hL.work i
  have hleft : ∀ i, 0 < (a.processes i).remainingTime ↔ served (chart ps a) i a.time < demand ps i := by
    intro i
    have := hwork i
    have := hw.burst_pos i
    unfold demand
    omega
  constructor
  · intro i hi
    have hrun : a.isRunning i = true := (hco.running i).mpr ⟨0, by rw [hpid]; exact hi⟩
    refine ⟨?_, (hleft i).mp (hal i hrun)⟩
    have h1 := (edf_ordered hw hd h).2 i hrun
    rw [harr i] at h1
    have := ha i
    unfold release
    omega
  · intro j hj hs
    by_cases hon : (a.cpus 0).currentPid = (ps j).pid
    · exact ⟨j, hon, Nat.le_refl _⟩
    · have hja : (a.processes j).arrivalTime ≤ a.time := by
        have := ha j
        unfold release at hj
        rw [harr j]
        omega
      have hoff : ∀ c, (a.cpus c).currentPid ≠ (a.processes j).pid := by
        intro c
        rw [Fin.fin_one_eq_zero c, hpid]
        exact hon
      obtain ⟨r, hr⟩ := hco.resolves 0 ((edf_global hw hd h j hja ((hleft j).mpr hs) hoff).1 0)
      have hidle : a.isRunning j = false := ((edf_sound.noDouble hw h).idle_iff j).mpr hoff
      exact ⟨r, by rw [hr, hpid], hord r j ((hco.running r).mpr ⟨0, hr⟩) (ready_iff.mpr ⟨hja, (hleft j).mpr hs, hidle⟩)⟩

variable (hord : ∀ a, At guard edfSteps (init ps) [edfExecute, advance] a → OrderedBy dl (a : Sim n 1))
include hord

theorem chart_edf {s : Sim n 1} (h : At guard edfSteps (init ps) [] s) :
    EdfSchedule (release ps) dl (demand ps) (chart ps s) s.time := by
  apply At.iteration (P := fun s => EdfSchedule (release ps) dl (demand ps) (chart ps s) s.time) _ _ h
  · exact ⟨fun u hu => absurd hu (Nat.not_lt_zero u), fun u hu => absurd hu (Nat.not_lt_zero u)⟩
  intro s hs hg ih
  obtain ⟨a, hat, ht, htl, he, hb⟩ := edf_sound.tick hw hs hg
  obtain ⟨hvalid, hedf⟩ := edfTick_choice hw hd ha hat (hord a hat)
  obtain ⟨hco, _, _⟩ := edf_sound.beforeAct hw hat
  have hb : body edfSteps s = advance (edfExecute a) := hb
  rw [hb]
  have htime : (advance (edfExecute a)).time = s.time + 1 := by simp only [advance, he.time, ht]
  have hpast : ∀ u, u < s.time → chart ps (advance (edfExecute a)) u = chart ps s u := by
    intro u hu
    simp only [chart, advance, he.past 0 u (by omega), htl]
  have hsame : ∀ u < s.time, chart ps a u = chart ps s u := fun u _ => by simp only [chart, htl]
  have hnow : ∀ i, chart ps (advance (edfExecute a)) s.time = some i ↔ (a.cpus 0).currentPid = (ps i).pid := by
    intro i
    have hpos := hw.pid_pos i
    rw [chart_iff hw, ← ht]
    simp only [advance, he.column 0]
    split
    · omega
    · rfl
  have hserved : ∀ i u, u ≤ s.time → served (chart ps (advance (edfExecute a))) i u = served (chart ps s) i u :=
    fun i u hu => served_congr (fun v hv => hpast v (by omega)) i
  have hserved' : ∀ i, served (chart ps a) i a.time = served (chart ps s) i s.time := by
    intro i
    rw [ht]
    exact served_congr hsame i
  rw [htime]
  constructor
  · intro u hu i hi
    by_cases hut : u = s.time
    · subst hut
      have := hvalid i ((hnow i).mp hi)
      rw [hserved' i, ht] at this
      rw [hserved i _ (Nat.le_refl _)]
      exact this
    · rw [hpast u (by omega)] at hi
      rw [hserved i u (by omega)]
      exact ih.valid u (by omega) i hi
  · intro u hu j hj hs
    rw [hserved j u (by omega)] at hs
    by_cases hut : u = s.time
    · subst hut
      obtain ⟨i, hi, hij⟩ := hedf j (by omega) (by rw [hserved' j]; exact hs)
      exact ⟨i, (hnow i).mpr hi, hij⟩
    · rw [hpast u (by omega)]
      exact ih.edf u (by omega) j hj hs

/-! ## The end of the run -/

/-- When the loop has ended, all deadlines below the horizon of the simulation
being feasible, every process has finished and has been counted. -/
theorem runEdf_done (hdl : ∀ i, dl i < maxTime) {φ : Nat → Option (Fin n)}
    (hφ : Feasible (release ps) dl (demand ps) φ) (i : Fin n) :
    ((runEdf ps : Sim n 1).processes i).remainingTime = 0 ∧ (runEdf ps : Sim n 1).isRunning i = false := by
  have h : At guard edfSteps (init ps) [] (runEdf ps : Sim n 1) := At.start.loop maxTime
  have hL := (edf_accounts.run edf_sound hw h).1 (by simp)
  have hexit : ¬ guard (runEdf ps : Sim n 1) := edf_sound.exit hw
  have hS := chart_edf hw hd ha hord h
  have hs := edf_static h i
  have hpid : ((runEdf ps : Sim n 1).processes i).pid = (ps i).pid := static_pid hs
  have hbt : ((runEdf ps : Sim n 1).processes i).burstTime = (ps i).burstTime := static_burst hs
  generalize (runEdf ps : Sim n 1) = s at h hL hexit hS hpid hbt ⊢
  by_cases hall : n ≤ s.completed
  · -- all processes have been counted
    rw [hL.completed] at hall
    exact mem_counted.mp (mem_of_full hall i)
  · -- the chart has been written up to the horizon
    have htime : maxTime ≤ s.time := by
      by_contra hlt
      exact hexit ⟨by omega, by omega⟩
    have hdue := hdl i
    have hmeets : demand ps i ≤ served (chart ps s) i (dl i) := hS.meets hφ (by omega)
    have hmono : served (chart ps s) i (dl i) ≤ served (chart ps s) i s.time := served_mono (by omega)
    have hle := hS.served_le i s.time (Nat.le_refl _)
    have h0 : (s.processes i).remainingTime = 0 := by
      have hwork := hL.work i
      have hb := hw.burst_pos i
      rw [hpid, ← served_chart hw, hbt] at hwork
      unfold demand at *
      omega
    refine ⟨h0, ?_⟩
    cases hr : s.isRunning i with
    | false => rfl
    | true =>
      -- it would have been served after its deadline
      obtain ⟨u, hu, c, hc⟩ := hL.last i h0 hr
      rw [Fin.fin_one_eq_zero c, hpid] at hc
      have := hS.before_deadline hφ (by omega) ((chart_iff hw).mpr hc)
      omega

end

/-- **Optimality of EDF on one CPU.** If some assignment of ticks to processes
meets all deadlines, then `run_edf` finishes and counts every process, serves
it only before its deadline, and records a completion time that is at most the
deadline plus the I/O wait. -/
theorem edf_optimal {ps : Fin n → Process} (hn : n ≤ 100) (hpid : ∀ i : Fin n, (ps i).pid = i + 1)
    (ha : ∀ i, 0 ≤ (ps i).arrivalTime) (hrem : ∀ i, (ps i).remainingTime = (ps i).burstTime)
    (hburst : ∀ i, 1 ≤ (ps i).burstTime) (hdl : ∀ i, (ps i).deadline < maxTime)
    (hφ : ∃ φ : Nat → Option (Fin n), ∀ i, (ps i).burstTime ≤ ((Finset.range maxTime).filter fun t : Nat =>
      (ps i).arrivalTime ≤ t ∧ t < (ps i).deadline ∧ φ t = some i).card) :
    (runEdf ps : Sim n 1).completed = n ∧ ∀ i, ((runEdf ps : Sim n 1).processes i).remainingTime = 0 ∧
      ((runEdf ps : Sim n 1).cells (ps i).pid (runEdf ps : Sim n 1).time).card = (ps i).burstTime ∧
      (∀ t : Nat, (runEdf ps : Sim n 1).timeline 0 t = (ps i).pid → t < (ps i).deadline) ∧
      ((runEdf ps : Sim n 1).processes i).completionTime - ((runEdf ps : Sim n 1).processes i).ioWaitTime ≤
        (ps i).deadline := by
  obtain ⟨φ, hφ⟩ := hφ
  have hw : Workload ps := ⟨.of_pid hpid hrem hburst, hn⟩
  have hd : ∀ i, 0 ≤ (ps i).deadline ∧ (ps i).deadline < 999999 := by
    intro i
    have h1 := hdl i
    have h2 := hburst i
    have h3 := hφ i
    refine ⟨?_, by unfold maxTime at h1; omega⟩
    obtain ⟨t, ht⟩ := Finset.card_pos.mp (show 0 < _ by omega : 0 < ((Finset.range maxTime).filter fun t : Nat =>
      (ps i).arrivalTime ≤ t ∧ t < (ps i).deadline ∧ φ t = some i).card)
    have := (Finset.mem_filter.mp ht).2
    omega
  have hfeas : Feasible (release ps) (due ps) (demand ps) φ := by
    intro i
    have h1 := hφ i
    have hsub : ((Finset.range maxTime).filter fun t : Nat =>
        (ps i).arrivalTime ≤ t ∧ t < (ps i).deadline ∧ φ t = some i) ⊆ slots φ i (release ps i) (due ps i) := by
      intro t ht
      obtain ⟨h2, h3, h4⟩ := (Finset.mem_filter.mp ht).2
      rw [mem_slots]
      unfold release due
      exact ⟨⟨by omega, by omega⟩, h4⟩
    have := Finset.card_le_card hsub
    unfold demand
    omega
  have hord : ∀ a, At guard edfSteps (init ps) [edfExecute, advance] a → OrderedBy (due ps) (a : Sim n 1) :=
    fun _ h => edf_orderedBy_due hw hd h
  have hdone := runEdf_done hw hd ha hord (fun i => by have := hdl i; unfold due maxTime at *; omega) hfeas
  have h : At guard edfSteps (init ps) [] (runEdf ps : Sim n 1) := At.start.loop maxTime
  have hL := (edf_accounts.run edf_sound hw h).1 (by simp)
  have hS := chart_edf hw hd ha hord h
  have hcol := (edf_sound.head hw h).2
  have hs := edf_static h
  generalize (runEdf ps : Sim n 1) = s at hdone h hL hS hcol hs ⊢
  have hbefore : ∀ i (t : Nat), s.timeline 0 t = (ps i).pid → t < (ps i).deadline := by
    intro i t ht
    have htime : t < s.time := by
      by_contra hle
      have h1 := hcol.clean 0 t (by omega)
      have h2 := hw.pid_pos i
      omega
    have := hS.before_deadline hfeas htime ((chart_iff hw).mpr ht)
    unfold due at this
    omega
  constructor
  · rw [hL.completed, Finset.eq_univ_iff_forall.mpr fun i => mem_counted.mpr (hdone i)]
    simp
  · intro i
    have hpi : (s.processes i).pid = (ps i).pid := static_pid (hs i)
    have hbi : (s.processes i).burstTime = (ps i).burstTime := static_burst (hs i)
    obtain ⟨h0, hoff⟩ := hdone i
    obtain ⟨u, _, ⟨c, hc⟩, _, hst⟩ := hL.stamped i h0 hoff
    rw [Fin.fin_one_eq_zero c, hpi] at hc
    refine ⟨h0, ?_, hbefore i, ?_⟩
    · have := hL.work i
      rw [h0, hpi, hbi] at this
      omega
    · have := hbefore i u hc
      rw [hst]
      omega

theorem edf_optimal_two : (runEdf (countedProcesses 2) : Sim 2 1).completed = 2 ∧
    ∀ i, ((runEdf (countedProcesses 2) : Sim 2 1).processes i).completionTime -
      ((runEdf (countedProcesses 2) : Sim 2 1).processes i).ioWaitTime ≤ (countedProcesses 2 i).deadline := by
  have h := @edf_optimal 2 (countedProcesses 2) (by decide) (by decide) (by decide) (by decide) (by decide)
    (by decide) ⟨fun t => if t < 2 then some 0 else if t < 9 then some 1 else none, by decide +kernel⟩
  exact ⟨h.1, fun i => (h.2 i).2.2.2⟩

end Sim
end OsLab
