import OsLab.Metrics
import OsLab.WorkStealPlaces

/-!
# The chart of work stealing

Step C of `run_work_steal` executes every process on a core once and records a
process that finishes at once, so at the head of the loop all finished
processes have been counted.
-/

namespace OsLab
namespace WorkSim
variable {n m : Nat}

/-! ## Executing one tick -/

theorem burn_congr {s a : WorkSim n m} (h : s.currentTime = a.currentTime) (p : Process) : s.burn p = a.burn p := by
  simp only [burn, record, h]

theorem burnOn_cores_of_ne (s : WorkSim n m) {c c' : Fin m} (j : Fin n) (h : c' ≠ c) :
    (s.burnOn c j).cores c' = s.cores c' := by
  by_cases h0 : (s.processes j).remainingTime - 1 = 0
  · simp [burnOn, h0, h]
  · simp [burnOn, h0]

structure ExecutedOn (a s : WorkSim n m) (l : List (Fin m)) : Prop where
  time : s.currentTime = a.currentTime
  processes : ∀ i, s.processes i =
    if ∃ c ∈ l, a.cores c = (a.processes i).pid then a.burn (a.processes i) else a.processes i
  cores : ∀ c, c ∉ l → s.cores c = a.cores c
  column : ∀ c ∈ l, s.timeline c a.currentTime = if a.cores c = -1 then 0 else a.cores c
  past : ∀ c t, t ≠ a.currentTime → s.timeline c t = a.timeline c t

theorem ExecutedOn.nil (a : WorkSim n m) : ExecutedOn a a [] :=
  ⟨rfl, fun _ => by simp, fun _ _ => rfl, nofun, fun _ _ _ => rfl⟩

section
variable {ps : Fin n → Process} (hw : Sim.Workload ps) {a s : WorkSim n m} {l : List (Fin m)} {c : Fin m}

theorem ExecutedOn.mark_column (he : ExecutedOn a s l) (v : Int)
    (hv : v = if a.cores c = -1 then 0 else a.cores c) : ∀ c' ∈ l ++ [c],
    (s.mark c v).timeline c' a.currentTime = if a.cores c' = -1 then 0 else a.cores c' := by
  intro c' hc'
  by_cases e : c' = c
  · subst e; simp [mark, he.time, hv]
  · simp only [mark, Function.update_of_ne e]
    apply he.column
    rcases List.mem_append.mp hc' with h | h
    · exact h
    · exact absurd (List.mem_singleton.mp h) e

theorem ExecutedOn.mark_past (he : ExecutedOn a s l) (v : Int) (c' : Fin m) (t : Nat) (ht : t ≠ a.currentTime) :
    (s.mark c v).timeline c' t = a.timeline c' t := by
  by_cases e : c' = c
  · subst e
    simp only [mark, Function.update_self, he.time, Function.update_of_ne ht]
    exact he.past c' t ht
  · simp only [mark, Function.update_of_ne e]
    exact he.past c' t ht

include hw

theorem ExecutedOn.step (h : Conserved ps a) (he : ExecutedOn a s l) (hc : c ∉ l) :
    ExecutedOn a (s.executeOn c) (l ++ [c]) := by
  have hcc := he.cores c hc
  have hnew : ∀ i, (∃ c' ∈ l ++ [c], a.cores c' = (a.processes i).pid) ↔
      (∃ c' ∈ l, a.cores c' = (a.processes i).pid) ∨ a.cores c = (a.processes i).pid := by
    intro i
    simp [List.mem_append, or_and_right, exists_or]
  by_cases hi : a.cores c = -1
  · rw [executeOn_idle (hcc.trans hi)]
    refine ⟨he.time, fun i => ?_, fun c' hc' => he.cores c' fun h' => hc' (List.mem_append_left _ h'),
      he.mark_column 0 (by rw [if_pos hi]), he.mark_past 0⟩
    have hne : a.cores c ≠ (a.processes i).pid := by
      rw [hi]
      exact (h.pid_ne hw.toUnstarted i).symm
    simp only [hnew, hne, or_false]
    exact he.processes i
  · obtain ⟨j, hj⟩ := h.resolves c hi
    have hpid : ∀ i, (s.processes i).pid = (a.processes i).pid := by
      intro i
      rw [he.processes i]
      split
      · exact Sim.static_pid (burn_static a (a.processes i))
      · rfl
    have hinj : Function.Injective fun i => (s.processes i).pid := by
      intro i k hik
      simp only [hpid] at hik
      exact h.pid_inj hw.toUnstarted hik
    have hold : s.processes j = a.processes j := by
      rw [he.processes j, if_neg]
      rintro ⟨c', hc', hp⟩
      exact hc (h.core_unique hp hj ▸ hc')
    rw [executeOn_busy hinj (hcc.trans (hj.trans (hpid j).symm)) (by rw [hcc]; exact hi)]
    refine ⟨he.time, fun i => ?_, fun c' hc' => ?_, ?_, he.mark_past _⟩
    · simp only [hnew]
      by_cases hij : i = j
      · subst hij
        simp only [burnOn, mark, Function.update_self, hold, hj, or_true, if_true]
        exact burn_congr he.time _
      · have hne : a.cores c ≠ (a.processes i).pid := by
          rw [hj]
          exact fun hp => hij (h.pid_inj hw.toUnstarted hp.symm)
        simp only [burnOn, mark, Function.update_of_ne hij, hne, or_false]
        exact he.processes i
    · have hcl : c' ∉ l := fun h' => hc' (List.mem_append_left _ h')
      have hne : c' ≠ c := fun e => hc' (List.mem_append_right _ (List.mem_singleton.mpr e))
      rw [burnOn_cores_of_ne _ j hne]
      exact he.cores c' hcl
    · exact he.mark_column _ (by rw [hcc, if_neg hi])

theorem execute_executed (h : Conserved ps a) : ExecutedOn a (execute a) (List.finRange m) := by
  refine foldl_range (P := fun l s => ExecutedOn a s l) _ (ExecutedOn.nil a) ?_
  intro l c s hl he
  exact he.step hw h (not_mem_visited (List.nodup_finRange m) hl)

end

/-! ## The steps before execution -/

theorem loadOn_frame (s : WorkSim n m) (i : Fin n) :
    (s.loadOn i).processes = s.processes ∧ (s.loadOn i).timeline = s.timeline := by
  unfold loadOn
  split
  · cases s.minQ with
    | none => exact ⟨rfl, rfl⟩
    | some c => exact ⟨rfl, rfl⟩
  · exact ⟨rfl, rfl⟩

theorem load_frame (s : WorkSim n m) : (load s).processes = s.processes ∧ (load s).timeline = s.timeline :=
  foldl_keeps (P := fun a : WorkSim n m => a.processes = s.processes ∧ a.timeline = s.timeline) _
    (fun a i _ ⟨h1, h2⟩ => ⟨(loadOn_frame a i).1.trans h1, (loadOn_frame a i).2.trans h2⟩) ⟨rfl, rfl⟩

theorem assign_frame {s : WorkSim n m} {ps : Fin n → Process} (hw : Sim.Workload ps) (h : Conserved ps s) :
    (assign s).processes = s.processes ∧ (assign s).timeline = s.timeline := by
  have key := foldl_keeps (f := assignOn) (b := s)
    (P := fun a : WorkSim n m => Conserved ps a ∧ a.processes = s.processes ∧ a.timeline = s.timeline) (List.finRange m)
    (by
      intro a c _ ⟨hc, h1, h2⟩
      refine ⟨hc.assignOn hw.toUnstarted c, ?_, (assignOn_frame a c).1.trans h2⟩
      rcases assignOn_cases hc.queues c with ⟨e, _⟩ | ⟨_, _, _, _, t⟩
      · rw [e]; exact h1
      · exact t.processes.trans h1) ⟨h, rfl, rfl⟩
  exact key.2

/-! ## The run -/

section
variable {ps : Fin n → Process} (hm : 0 < m) (hw : Sim.Workload ps) (ha : ∀ i, 0 ≤ (ps i).arrivalTime)
include hm hw ha

theorem tick {s : WorkSim n m} (h : At guard steps (init ps) [] s) (hg : guard s) :
    ∃ a, At guard steps (init ps) [execute, advance] a ∧ a.processes = s.processes ∧ a.timeline = s.timeline ∧
      a.currentTime = s.currentTime ∧ ExecutedOn a (execute a) (List.finRange m) ∧
      body steps s = advance (execute a) := by
  have h1 : At guard steps (init ps) [assign, execute, advance] (load s) := (h.enter hg).step
  have hc := conserved_at hm hw.toUnstarted ha h1
  obtain ⟨hl1, hl2⟩ := load_frame s
  obtain ⟨ha1, ha2⟩ := assign_frame hw hc
  have htime : (assign (load s)).currentTime = s.currentTime := by
    have hne : ∀ i, (ps i).pid ≠ -1 := fun i => by have := hw.pid_pos i; omega
    rcases kept_run hm hw.pid_inj hne ha h with ⟨_, hk, hs⟩ | ⟨h0, _⟩ | ⟨_, h0, _⟩ | ⟨h0, _⟩
    · obtain ⟨hk1, ht1, _⟩ := load_kept hm hk hs
      exact (assign_kept hne hk1).2.1.trans ht1
    · cases h0
    · simp at h0
    · cases h0
  refine ⟨assign (load s), h1.step, ha1.trans hl1, ha2.trans hl2, htime, ?_, rfl⟩
  exact execute_executed hw (conserved_at hm hw.toUnstarted ha h1.step)

theorem ticked {s a : WorkSim n m} (hat : At guard steps (init ps) [execute, advance] a) (hps : a.processes = s.processes)
    (htl : a.timeline = s.timeline) (ht : a.currentTime = s.currentTime)
    (he : ExecutedOn a (execute a) (List.finRange m)) :
    Sim.Ticked ps s.currentTime (fun i => decide (∃ c, a.cores c = (a.processes i).pid)) s.timeline (execute a).timeline
      s.processes (execute a).processes := by
  have hc := conserved_at hm hw.toUnstarted ha hat
  have hne : ∀ i, (ps i).pid ≠ -1 := fun i => by have := hw.pid_pos i; omega
  have hcol : ∀ c i, a.cores c = (a.processes i).pid → (execute a).timeline c a.currentTime = (ps i).pid := by
    intro c i hi
    rw [he.column c (List.mem_finRange c), if_neg (by rw [hi]; exact hc.pid_ne hw.toUnstarted i), hi, hc.pid]
  have hbusy : ∀ c, (execute a).timeline c a.currentTime ≠ 0 → a.cores c ≠ -1 := by
    intro c h0 hi
    rw [he.column c (List.mem_finRange c), if_pos hi] at h0
    exact h0 rfl
  have hburn : ∀ i, (execute a).processes i = if ∃ c, a.cores c = (a.processes i).pid then a.burn (a.processes i)
      else a.processes i := by
    intro i
    have := he.processes i
    simp only [List.mem_finRange, true_and] at this
    exact this
  rw [← ht, ← htl, ← hps]
  refine ⟨fun c h0 => ?_, fun i hi => ?_, fun c c' heq h0 => ?_, he.past, fun i hi => ?_, fun ⟨c, h0⟩ i h1 h2 => ?_,
    fun i => ?_, fun i => ?_⟩
  · obtain ⟨i, hi⟩ := hc.resolves c (hbusy c h0)
    exact ⟨i, decide_eq_true ⟨c, hi⟩, hcol c i hi⟩
  · obtain ⟨c, hi⟩ := of_decide_eq_true hi
    exact ⟨c, hcol c i hi⟩
  · obtain ⟨i, hi⟩ := hc.resolves c (hbusy c h0)
    rw [heq] at h0
    obtain ⟨j, hj⟩ := hc.resolves c' (hbusy c' h0)
    rw [hcol c i hi, hcol c' j hj] at heq
    obtain rfl : i = j := hw.pid_inj heq
    exact hc.core_unique hi hj
  · -- a process on a core has arrived and is not completed
    obtain ⟨c, hi⟩ := of_decide_eq_true hi
    have hplace : ∀ p, a.IsAt i p → p = .core c := fun p hp => (hc.place i).unique hp hi
    constructor
    · apply hc.punctual
      cases hb : a.arrived i with
      | true => rfl
      | false => exact nomatch hplace .unarrived hb
    · have h0 : (a.processes i).remainingTime ≠ 0 := fun h0 => nomatch hplace .completed h0
      have := (hc.bounds i).1
      omega
  · have hidle : a.cores c = -1 := by
      by_contra hi
      obtain ⟨j, hj⟩ := hc.resolves c hi
      have := hw.pid_pos j
      rw [hcol c j hj] at h0
      omega
    rw [← hc.arrival i] at h1
    exact decide_eq_true ((idle_after_assign hm hw.pid_inj hne ha hat ⟨c, hidle⟩).2 i h1 h2)
  · rw [hburn i]
    split
    · exact burn_static a _
    · rfl
  · rw [hburn i]
    by_cases hi : ∃ c, a.cores c = (a.processes i).pid
    · rw [if_pos hi, decide_eq_true hi, burn_remaining]
      rfl
    · rw [if_neg hi, decide_eq_false hi]
      simp

theorem outcome_head {s : WorkSim n m} (h : At guard steps (init ps) [] s) :
    Sim.Outcome (fun _ => 0) ps s.currentTime s.timeline s.processes s.completedProcesses s.completed := by
  have key : Sim.Gantt ps s.currentTime s.timeline s.processes ∧
      ∀ i, (s.processes i).remainingTime = 0 → Sim.Recorded (fun _ => 0) s.timeline (s.processes i) := by
    apply At.iteration (P := fun s : WorkSim n m => Sim.Gantt ps s.currentTime s.timeline s.processes ∧
      ∀ i, (s.processes i).remainingTime = 0 → Sim.Recorded (fun _ => 0) s.timeline (s.processes i)) _ _ h
    · refine ⟨Sim.gantt_init hw, fun i h0 => ?_⟩
      have h1 := hw.fresh i
      have h2 := hw.burst_pos i
      have h0 : (ps i).remainingTime = 0 := h0
      omega
    intro s hs hg ⟨hG, hrec⟩
    obtain ⟨a, hat, hps, htl, ht, he, hb⟩ := tick hm hw ha hs hg
    have tk := ticked hm hw ha hat hps htl ht he
    have hG' := hG.tick hw tk
    rw [hb]
    have htime : (advance (execute a)).currentTime = s.currentTime + 1 := by
      simp only [advance, he.time, ht]
    rw [htime]
    refine ⟨hG', fun i h0 => ?_⟩
    have h0 : ((execute a).processes i).remainingTime = 0 := h0
    have hproc := he.processes i
    simp only [List.mem_finRange, true_and] at hproc
    by_cases hi : ∃ c, a.cores c = (a.processes i).pid
    · -- the process finishes in this tick
      rw [if_pos hi] at hproc
      have hb0 : (a.processes i).remainingTime - 1 = 0 := by rw [← burn_remaining a, ← hproc]; exact h0
      have hmet : (execute a).processes i = a.record { a.processes i with
          remainingTime := (a.processes i).remainingTime - 1 } := by
        rw [hproc, burn, if_pos hb0]
      have hlast := tk.lastTick_now hw hG' (decide_eq_true hi)
      rw [← Sim.static_pid (hG'.same i)] at hlast
      refine ⟨⟨?_, ?_⟩, s.currentTime, hlast, ?_⟩
      · simp only [advance]; rw [hmet]; rfl
      · simp only [advance]; rw [hmet]; simp [record]
      · simp only [advance]; rw [hmet]; simp [record, ht]
    · -- it had finished before
      rw [if_neg hi, hps] at hproc
      rw [hproc] at h0
      obtain ⟨hd, u, hlast, hst⟩ := hrec i h0
      rw [Sim.static_pid (hG.same i)] at hlast
      have hlast' := tk.lastTick_past hw hG (decide_eq_false hi) hlast
      rw [← Sim.static_pid (hG.same i)] at hlast'
      simp only [advance]
      rw [hproc]
      exact ⟨hd, u, hlast', hst⟩
  exact ⟨key.1, (conserved_at hm hw.toUnstarted ha h).count, fun i hi => mem_completed.mp hi,
    fun i hi => key.2 i (mem_completed.mp hi), fun i h0 hi => absurd (mem_completed.mpr h0) hi⟩

theorem exit : ¬ guard (runWorkSteal ps : WorkSim n m) := by
  apply At.loop_exit (fun s : WorkSim n m => maxTime - s.currentTime) _ maxTime At.start (Nat.sub_le _ _)
  intro s h hg
  obtain ⟨a, _, _, _, ht, he, hb⟩ := tick hm hw ha h hg
  have := hg.2
  simp only [hb, advance, he.time, ht]
  omega

end

end WorkSim
end OsLab
