import OsLab.FcfsFollows
import OsLab.Runs

/-!
# FCFS as list scheduling

`run_fcfs` writes the chart of the list schedule, so every process that ends
before `MAX_TIME` runs as it was placed, whatever the order of the array.
-/

namespace OsLab
namespace Sim
variable {n m : Nat}

/-! ## The run -/

section
variable {ps : Fin n → Process} (hw : Workload ps) (ha : ∀ i, 0 ≤ (ps i).arrivalTime)

theorem fcfs_static {rest : List (Sim n m → Sim n m)} {s : Sim n m} (h : At guard fcfsSteps (fcfsInit ps) rest s) :
    Each (fun i p => static p = static (fcfsSort ps i)) s :=
  static_run [] (fun s i => (record_same s i).core) (fun _ _ _ _ => rfl) (by simp) (fun _ => rfl) (fun _ => rfl) h

include hw ha

theorem fcfs_following {s : Sim n m} (h : At guard fcfsSteps (fcfsInit ps) [] s) :
    ∃ free rest log, Following (fcfsSort ps) s free rest log := by
  have hwf := fcfsSort_workload hw
  have haf : ∀ i, 0 ≤ (fcfsSort ps i).arrivalTime := by
    obtain ⟨e, he⟩ := fcfsSort_perm ps
    intro i
    rw [he]
    exact ha (e i)
  apply At.iteration (P := fun s : Sim n m => ∃ free rest log, Following (fcfsSort ps) s free rest log)
    ⟨_, _, _, following_init hwf haf⟩ _ h
  intro s hs hg ⟨free, rest, log, hF⟩
  have hco := (fcfs_sound.head hwf hs).1
  obtain ⟨hcf, hal, htf, _⟩ := fcfs_sound.first s hco
  have hat := (hs.enter hg).step
  obtain ⟨free', rest', log', hF', hserved⟩ := following_assign hwf hcf hal (by rw [htf]; exact hg.2)
    (fcfs_static hat) (hF.finish hco)
  obtain ⟨hca, hala, _⟩ := fcfs_sound.beforeAct hwf hat.step
  exact ⟨free', rest', log', hF'.execute hca hala (fcfs_static hat.step) hserved⟩

theorem runFcfs_chart (c : Fin m) {u : Nat} (hu : u < maxTime) :
    (runFcfs ps : Sim n m).timeline c u = shownAt (fcfsSpec ps) c u := by
  have hwf := fcfsSort_workload hw
  have h : At guard fcfsSteps (fcfsInit ps) [] (runFcfs ps : Sim n m) := At.start.loop maxTime
  have hg : ¬ guard (runFcfs ps : Sim n m) := fcfs_sound.exit hwf
  obtain ⟨free, rest, log, hF⟩ := fcfs_following hw ha h
  obtain ⟨hco, hcol⟩ := fcfs_sound.head hwf h
  have hL := (fcfs_accounts.run fcfs_sound hwf h).1 (by simp)
  have hspec : fcfsSpec (m := m) ps = fcfsSpec (fcfsSort ps) := by
    obtain ⟨e, he⟩ := fcfsSort_perm ps
    rw [he, fcfsSpec_comp hw]
  rw [hspec]
  unfold shownAt
  by_cases hlt : u < (runFcfs ps : Sim n m).time
  · rw [hF.chart c u hlt, shownAt, ← hF.progress.cellAt_eq hlt]
    rfl
  · -- all processes have been counted, so nothing is left and all cores are free
    have hall : n ≤ (runFcfs ps : Sim n m).completed := by
      by_contra hn
      exact hg ⟨by omega, by omega⟩
    rw [hL.completed] at hall
    have hcounted : ∀ i, i ∈ (runFcfs ps : Sim n m).counted := mem_of_full hall
    have hrest : rest = [] := by
      rw [List.eq_nil_iff_forall_not_mem]
      intro p hp
      obtain ⟨i, rfl⟩ := hF.mem p hp
      have h1 := ((hF.waiting i).mp hp).2
      have h2 := (mem_counted.mp (hcounted i)).1
      omega
    have hidle : ∀ c, ((runFcfs ps : Sim n m).cpus c).currentPid = -1 := by
      intro c
      by_contra hc
      obtain ⟨i, hi⟩ := hco.resolves c hc
      have h1 := (hco.running i).mpr ⟨c, hi⟩
      rw [(mem_counted.mp (hcounted i)).2] at h1
      cases h1
    have hlog : fcfsSpec (fcfsSort ps) = log := by
      unfold fcfsSpec
      rw [hF.progress.split, hrest]
      exact List.append_nil log
    rw [hlog, cellAt_eq_none, hcol.clean c u (by omega)]
    · rfl
    · intro e he hcov
      have h1 := hF.progress.ends e he
      have h2 := hF.idle c (hidle c)
      have h3 := hcov.2.2
      rw [hcov.1] at h1
      omega

omit ha in
theorem placement_unique {e e' : Placement Process m} (hm : 0 < m) (he : e ∈ fcfsSpec ps) (he' : e' ∈ fcfsSpec ps)
    (hpid : e.job.pid = e'.job.pid) : e = e' := by
  have hjobs : (fcfsSpec (m := m) ps).map (·.job) = inOrder ps := listSchedule_jobs hm _
  have hmem : ∀ e : Placement Process m, e ∈ fcfsSpec ps → ∃ i, ps i = e.job := by
    intro e he
    exact mem_inOrder.mp (hjobs ▸ List.mem_map_of_mem he)
  have hnodup : ((fcfsSpec (m := m) ps).map (·.job)).Nodup := by
    rw [hjobs, (inOrder_perm ps).nodup_iff, List.nodup_ofFn]
    exact fun i j hij => hw.pid_inj (congrArg Process.pid hij)
  obtain ⟨i, hi⟩ := hmem e he
  obtain ⟨j, hj⟩ := hmem e' he'
  apply List.inj_on_of_nodup_map hnodup he he'
  rw [← hi, ← hj] at hpid ⊢
  rw [hw.pid_inj hpid]

theorem runFcfs_cells (hm : 0 < m) {e : Placement Process m} (he : e ∈ fcfsSpec ps)
    (hfin : e.start + burstTicks e.job < maxTime) (c : Fin m) (u : Nat) :
    (runFcfs ps : Sim n m).timeline c u = e.job.pid ↔ Covers burstTicks c u e := by
  have hwf := fcfsSort_workload hw
  have h : At guard fcfsSteps (fcfsInit ps) [] (runFcfs ps : Sim n m) := At.start.loop maxTime
  obtain ⟨i, hi⟩ := mem_inOrder.mp ((listSchedule_jobs hm (inOrder ps)) ▸ List.mem_map_of_mem he)
  have hpos := hw.pid_pos i
  rw [hi] at hpos
  constructor
  · intro hshown
    have hu : u < maxTime := by
      by_contra hge
      have h1 := (fcfs_sound.head hwf h).2.clean c u (by have := fcfs_sound.horizon hwf h; omega)
      omega
    rw [runFcfs_chart hw ha c hu, shownAt] at hshown
    cases hcell : cellAt burstTicks (fcfsSpec ps) c u with
    | none =>
      rw [hcell] at hshown
      simp only [Option.elim_none] at hshown
      omega
    | some p =>
      rw [hcell] at hshown
      obtain ⟨e', he', hcov, rfl⟩ := mem_of_cellAt hcell
      rw [← placement_unique hw hm he' he hshown]
      exact hcov
  · intro hcov
    have hu : u < maxTime := by
      have := hcov.2.2
      omega
    have hcell : cellAt burstTicks (fcfsSpec ps) c u = some e.job := (listSchedule_inTurn (inOrder ps)).cellAt_eq he hcov
    rw [runFcfs_chart hw ha c hu, shownAt, hcell]
    rfl

theorem runFcfs_completed (hm : 0 < m) {e : Placement Process m} (he : e ∈ fcfsSpec ps)
    (hfin : e.start + burstTicks e.job < maxTime) : ∃ i ∈ (runFcfs ps : Sim n m).counted,
      ((runFcfs ps : Sim n m).processes i).pid = e.job.pid ∧
      ((runFcfs ps : Sim n m).processes i).completionTime = (e.start : Int) + e.job.burstTime + e.job.ioWaitTime := by
  have hwf := fcfsSort_workload hw
  have h : At guard fcfsSteps (fcfsInit ps) [] (runFcfs ps : Sim n m) := At.start.loop maxTime
  have hg : ¬ guard (runFcfs ps : Sim n m) := fcfs_sound.exit hwf
  have hL := (fcfs_accounts.run fcfs_sound hwf h).1 (by simp)
  have hcells := runFcfs_cells hw ha hm he hfin
  -- the process in the sorted array
  obtain ⟨j, hj⟩ := mem_inOrder.mp ((listSchedule_jobs hm (inOrder ps)) ▸ List.mem_map_of_mem he)
  obtain ⟨σ, hσ⟩ := fcfsSort_perm ps
  have hst : static ((runFcfs ps : Sim n m).processes (σ.symm j)) = static e.job := by
    rw [fcfs_static h (σ.symm j), hσ, Function.comp_apply, Equiv.apply_symm_apply, hj]
  generalize σ.symm j = i at hst
  have hpid : ((runFcfs ps : Sim n m).processes i).pid = e.job.pid := static_pid hst
  have hbt : ((runFcfs ps : Sim n m).processes i).burstTime = e.job.burstTime := static_burst hst
  have hio : ((runFcfs ps : Sim n m).processes i).ioWaitTime = e.job.ioWaitTime := static_io hst
  have hburst : 1 ≤ e.job.burstTime := hj ▸ hw.burst_pos j
  have hlen : (burstTicks e.job : Int) = e.job.burstTime := by unfold burstTicks; omega
  have hcounted : i ∈ (runFcfs ps : Sim n m).counted := by
    by_cases hall : n ≤ (runFcfs ps : Sim n m).completed
    · rw [hL.completed] at hall
      exact mem_of_full hall i
    · -- the chart has been written up to `MAX_TIME`
      have htime : maxTime ≤ (runFcfs ps : Sim n m).time := by
        by_contra hlt
        exact hg ⟨by omega, by omega⟩
      have hset : (runFcfs ps : Sim n m).cells ((runFcfs ps : Sim n m).processes i).pid (runFcfs ps : Sim n m).time =
          Finset.Ico e.start (e.start + burstTicks e.job) := by
        ext u
        rw [mem_cells, Finset.mem_Ico, hpid]
        constructor
        · intro ⟨_, c, hc⟩
          exact ((hcells c u).mp hc).2
        · intro hu
          exact ⟨by omega, e.core, (hcells e.core u).mpr ⟨rfl, hu⟩⟩
      have hwork := hL.work i
      rw [hset, Nat.card_Ico, hbt] at hwork
      have h0 : ((runFcfs ps : Sim n m).processes i).remainingTime = 0 := by omega
      refine mem_counted.mpr ⟨h0, ?_⟩
      cases hr : (runFcfs ps : Sim n m).isRunning i with
      | false => rfl
      | true =>
        obtain ⟨u, hu, c, hc⟩ := hL.last i h0 hr
        have := ((hcells c u).mp (hc.trans hpid)).2.2
        omega
  refine ⟨i, hcounted, hpid, ?_⟩
  obtain ⟨h0, hoff⟩ := mem_counted.mp hcounted
  obtain ⟨u, _, ⟨c, hc⟩, hlast, hst⟩ := hL.stamped i h0 hoff
  have h1 := ((hcells c u).mp (hc.trans hpid)).2
  have h2 := hlast e.core (e.start + burstTicks e.job - 1)
    (((hcells e.core _).mpr ⟨rfl, by omega, by omega⟩).trans hpid.symm)
  rw [hst, hio]
  omega

end

structure RunsAs (s : Sim n m) (e : Placement Process m) : Prop where
  cells : ∀ c (u : Nat), s.timeline c u = e.job.pid ↔
    c = e.core ∧ e.start ≤ u ∧ (u : Int) < (e.start : Int) + e.job.burstTime
  completed : ∃ i ∈ s.counted, (s.processes i).pid = e.job.pid ∧
    (s.processes i).completionTime = (e.start : Int) + e.job.burstTime + e.job.ioWaitTime

/-- **FCFS is list scheduling.** The list schedule places every process once,
`run_fcfs` runs every process that ends before `MAX_TIME` as it was placed, and
neither the schedule nor the chart depends on the order of the array. -/
theorem fcfs_list_schedule {ps : Fin n → Process} (hw : Workload ps) (ha : ∀ i, 0 ≤ (ps i).arrivalTime) (hm : 1 ≤ m) :
    ((fcfsSpec (m := m) ps).map (·.job)).Perm (List.ofFn ps) ∧
    (∀ e ∈ fcfsSpec ps, (e.start : Int) + e.job.burstTime < maxTime → RunsAs (runFcfs ps : Sim n m) e) ∧
    ∀ σ : Equiv.Perm (Fin n), fcfsSpec (m := m) (ps ∘ σ) = fcfsSpec ps ∧
      (runFcfs (ps ∘ σ) : Sim n m).timeline = (runFcfs ps : Sim n m).timeline := by
  have hjobs : (fcfsSpec (m := m) ps).map (·.job) = inOrder ps := listSchedule_jobs hm _
  refine ⟨by rw [hjobs]; exact inOrder_perm ps, fun e he hfin => ?_, fun σ => ⟨fcfsSpec_comp hw σ, ?_⟩⟩
  · obtain ⟨i, hi⟩ := mem_inOrder.mp (hjobs ▸ List.mem_map_of_mem he)
    have hburst : 1 ≤ e.job.burstTime := hi ▸ hw.burst_pos i
    have hlen : (burstTicks e.job : Int) = e.job.burstTime := by unfold burstTicks; omega
    have hfin' : e.start + burstTicks e.job < maxTime := by omega
    refine ⟨fun c u => ?_, runFcfs_completed hw ha hm he hfin'⟩
    rw [runFcfs_cells hw ha hm he hfin', Covers, eq_comm (a := e.core), ← hlen]
    exact and_congr_right fun _ => and_congr_right fun _ => by omega
  · have hw' : Workload (ps ∘ σ) := ⟨hw.toUnstarted.comp σ, hw.small⟩
    funext c u
    by_cases hu : u < maxTime
    · rw [runFcfs_chart hw' (fun i => ha (σ i)) c hu, runFcfs_chart hw ha c hu, fcfsSpec_comp hw]
    · have clean : ∀ {qs : Fin n → Process}, Workload qs → (runFcfs qs : Sim n m).timeline c u = 0 := by
        intro qs hq
        have hwf := fcfsSort_workload hq
        have h : At guard fcfsSteps (fcfsInit qs) [] (runFcfs qs : Sim n m) := At.start.loop maxTime
        have := fcfs_sound.horizon hwf h
        exact (fcfs_sound.head hwf h).2.clean c u (by omega)
      rw [clean hw', clean hw]

theorem fcfs_list_schedule_three :
    RunsAs (runFcfs (countedProcesses 3) : Sim 3 2) ⟨countedProcesses 3 1, 1, 0⟩ :=
  (fcfs_list_schedule (m := 2) (initializeTestData_workload (n := 3) (by decide) id _) (by decide) (by decide)).2.1 _
    (by decide +kernel) (by decide)

end Sim
end OsLab
