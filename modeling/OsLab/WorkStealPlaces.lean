import Mathlib.Data.Fintype.Card
import OsLab.Schedulers

/-!
# Every process is in one place

A process of `run_work_steal` has not arrived, or sits at one position of one
queue, or is on one core, or is completed. Each iteration of an inner loop
moves at most one process from one of these places to another. The steps are
taken apart here into the iterations of their loops.
-/

namespace OsLab
namespace WorkSim
variable {n m : Nat}

inductive Place (m : Nat)
  | unarrived
  | queue (c : Fin m) (k : Nat)
  | core (c : Fin m)
  | completed

def IsAt (s : WorkSim n m) (i : Fin n) : Place m → Prop
  | .unarrived => s.arrived i = false
  | .queue c k => (s.queues c).Holds k i
  | .core c => s.cores c = (s.processes i).pid
  | .completed => (s.processes i).remainingTime = 0

def completed (s : WorkSim n m) : Finset (Fin n) := Finset.univ.filter fun i => (s.processes i).remainingTime = 0

theorem mem_completed {s : WorkSim n m} {i : Fin n} : i ∈ s.completed ↔ (s.processes i).remainingTime = 0 := by
  simp [completed]

def arrivals (s : WorkSim n m) : Finset (Fin n) := Finset.univ.filter fun i => s.arrived i = true

structure Conserved (ps : Fin n → Process) (s : WorkSim n m) : Prop where
  same : ∀ i, Sim.static (s.processes i) = Sim.static (ps i)
  bounds : ∀ i, 0 ≤ (s.processes i).remainingTime ∧ (s.processes i).remainingTime ≤ (ps i).burstTime
  queues : ∀ c, (s.queues c).Ok
  short : ∀ c, (s.queues c).rear ≤ s.arrivals.card
  resolves : ∀ c, s.cores c ≠ -1 → ∃ i, s.cores c = (s.processes i).pid
  place : ∀ i, ∃! p, s.IsAt i p
  count : s.completedProcesses = s.completed.card
  punctual : ∀ i, s.arrived i = true → (ps i).arrivalTime ≤ s.currentTime

section
variable {ps : Fin n → Process}

theorem Conserved.pid {s : WorkSim n m} (h : Conserved ps s) (i : Fin n) : (s.processes i).pid = (ps i).pid :=
  Sim.static_pid (h.same i)

theorem Conserved.arrival {s : WorkSim n m} (h : Conserved ps s) (i : Fin n) :
    (s.processes i).arrivalTime = (ps i).arrivalTime := Sim.static_arrival (h.same i)

theorem Conserved.pid_inj (hw : Sim.Unstarted ps) {s : WorkSim n m} (h : Conserved ps s) :
    Function.Injective fun i => (s.processes i).pid := by
  intro i j he
  simp only [h.pid] at he
  exact hw.pid_inj he

theorem Conserved.pid_ne (hw : Sim.Unstarted ps) {s : WorkSim n m} (h : Conserved ps s) (i : Fin n) :
    (s.processes i).pid ≠ -1 := by
  have := hw.pid_pos i
  rw [h.pid i]
  omega

theorem Conserved.core_unique {s : WorkSim n m} (h : Conserved ps s) {i : Fin n} {c c' : Fin m}
    (hc : s.cores c = (s.processes i).pid) (hc' : s.cores c' = (s.processes i).pid) : c = c' := by
  have heq : Place.core c = Place.core c' := (h.place i).unique hc hc'
  cases heq
  rfl

theorem conserved_init (hw : Sim.Unstarted ps) : Conserved ps (init ps : WorkSim n m) where
  same := fun _ => rfl
  bounds := fun i => by
    have h1 := hw.fresh i
    have h2 := hw.burst_pos i
    simp only [init]
    omega
  queues := fun _ => CPUQueue.empty_ok
  short := fun _ => Nat.zero_le _
  resolves := fun _ h => absurd rfl h
  place := fun i => by
    refine ⟨.unarrived, rfl, fun p hp => ?_⟩
    cases p with
    | unarrived => rfl
    | queue c k => exact absurd hp.2.1 (Nat.not_lt_zero k)
    | core c =>
      have h1 := hw.pid_pos i
      have hp : -1 = (ps i).pid := hp
      omega
    | completed =>
      have h1 := hw.fresh i
      have h2 := hw.burst_pos i
      have hp : (ps i).remainingTime = 0 := hp
      omega
  count := by
    have : (init ps : WorkSim n m).completed = ∅ := by
      ext i
      have h1 := hw.fresh i
      have h2 := hw.burst_pos i
      rw [mem_completed]
      simp only [init, Finset.notMem_empty, iff_false]
      omega
    rw [this]
    rfl
  punctual := fun _ h => by cases h

theorem place_moved {s s' : WorkSim n m} (h : ∀ i, ∃! p, s.IsAt i p) {i : Fin n} (q q' : Place m) (hfrom : s.IsAt i q)
    (hleft : ¬ s'.IsAt i q) (hto : s'.IsAt i q') (hi : ∀ p, s'.IsAt i p → s.IsAt i p ∨ p = q')
    (hothers : ∀ j, j ≠ i → ∀ p, s'.IsAt j p ↔ s.IsAt j p) : ∀ j, ∃! p, s'.IsAt j p := by
  intro j
  by_cases hj : j = i
  · subst hj
    refine ⟨q', hto, fun p hp => ?_⟩
    rcases hi p hp with hs | hs
    · rw [(h j).unique hs hfrom] at hp
      exact absurd hp hleft
    · exact hs
  · obtain ⟨p, hp, hu⟩ := h j
    exact ⟨p, (hothers j hj p).mpr hp, fun r hr => hu r ((hothers j hj r).mp hr)⟩

theorem place_kept {s s' : WorkSim n m} (h : ∀ i, ∃! p, s.IsAt i p) (hat : ∀ i p, s'.IsAt i p ↔ s.IsAt i p) :
    ∀ i, ∃! p, s'.IsAt i p := by
  intro i
  obtain ⟨p, hp, hu⟩ := h i
  exact ⟨p, (hat i p).mpr hp, fun r hr => hu r ((hat i r).mp hr)⟩

/-! ## Step A -/

theorem Conserved.loadOn (hm : 0 < m) {s : WorkSim n m} (h : Conserved ps s) (i : Fin n) :
    Conserved ps (s.loadOn i) := by
  by_cases hc : (s.processes i).arrivalTime = s.currentTime ∧ s.arrived i = false
  swap
  · have e : s.loadOn i = s := if_neg hc
    rw [e]; exact h
  obtain ⟨c, hmin⟩ := s.minQ_some hm
  have e : s.loadOn i = { s with
      queues := Function.update s.queues c ((s.queues c).pushBack i)
      arrived := Function.update s.arrived i true } := by
    unfold WorkSim.loadOn
    rw [if_pos hc, hmin]
  have hq : ∀ c' k j, ((s.loadOn i).queues c').Holds k j ↔
      (s.queues c').Holds k j ∨ (c' = c ∧ k = (s.queues c).rear ∧ j = i) := by
    intro c' k j
    rw [e]
    by_cases hcc : c' = c
    · subst hcc
      simp only [Function.update_self, CPUQueue.pushBack_holds (h.queues c'), true_and]
    · simp only [Function.update_of_ne hcc, hcc, false_and, or_false]
  have hcard : (s.loadOn i).arrivals.card = s.arrivals.card + 1 := by
    have : (s.loadOn i).arrivals = insert i s.arrivals := by
      ext j
      simp only [arrivals, e, Finset.mem_insert, Finset.mem_filter, Finset.mem_univ, true_and]
      by_cases hj : j = i
      · subst hj; simp
      · simp [hj]
    rw [this, Finset.card_insert_of_notMem (by simp [arrivals, hc.2])]
  refine ⟨by rw [e]; exact h.same, by rw [e]; exact h.bounds, fun c' => ?_, fun c' => ?_, by rw [e]; exact h.resolves,
    place_moved h.place (i := i) .unarrived (.queue c (s.queues c).rear) hc.2 ?_ ((hq c _ i).mpr (Or.inr ⟨rfl, rfl, rfl⟩)) (fun p hp => ?_)
      (fun j hj p => ?_), ?_, fun j hj => ?_⟩
  · rw [e]
    by_cases hcc : c' = c
    · subst hcc; simp only [Function.update_self]; exact CPUQueue.pushBack_ok (h.queues c') i
    · simp only [Function.update_of_ne hcc]; exact h.queues c'
  · have h1 := h.short c'
    rw [hcard, e]
    by_cases hcc : c' = c
    · subst hcc; simp only [Function.update_self, CPUQueue.pushBack]; omega
    · simp only [Function.update_of_ne hcc]; omega
  · rw [e]; simp [IsAt]
  · cases p with
    | unarrived => rw [e] at hp; simp [IsAt] at hp
    | queue c' k =>
      rcases (hq c' k i).mp hp with hp | ⟨rfl, rfl, _⟩
      · exact Or.inl hp
      · exact Or.inr rfl
    | core c' => rw [e] at hp; exact Or.inl hp
    | completed => rw [e] at hp; exact Or.inl hp
  · cases p with
    | unarrived => rw [e]; simp [IsAt, hj]
    | queue c' k => simp [IsAt, hq, hj]
    | core c' => rw [e]; rfl
    | completed => rw [e]; rfl
  · rw [e]; exact h.count
  · rw [e] at hj ⊢
    by_cases hji : j = i
    · subst hji
      rw [← h.arrival j]
      exact Int.le_of_eq hc.1
    · exact h.punctual j (by simpa [hji] using hj)

/-! ## Step B -/

theorem take_frame (s : WorkSim n m) (pop : CPUQueue n → Option (Fin n) × CPUQueue n) (i c : Fin m) :
    (s.take pop i c).timeline = s.timeline ∧ (s.take pop i c).completedProcesses = s.completedProcesses := by
  unfold take
  simp only
  split <;> exact ⟨rfl, rfl⟩

theorem take_rear (s : WorkSim n m) {pop : CPUQueue n → Option (Fin n) × CPUQueue n}
    (hp : ∀ q, (pop q).2.rear ≤ q.rear) (i c c' : Fin m) : ((s.take pop i c).queues c').rear ≤ (s.queues c').rear := by
  have e : (s.take pop i c).queues = Function.update s.queues c (pop (s.queues c)).2 := by
    unfold take
    simp only
    split <;> rfl
  rw [e]
  by_cases hc : c' = c
  · subst hc; rw [Function.update_self]; exact hp _
  · rw [Function.update_of_ne hc]

theorem popFront_rear (q : CPUQueue n) : q.popFront.2.rear ≤ q.rear := by
  unfold CPUQueue.popFront
  split <;> exact Nat.le_refl _

theorem popBack_rear (q : CPUQueue n) : q.popBack.2.rear ≤ q.rear := by
  unfold CPUQueue.popBack
  split
  · exact Nat.le_refl _
  · exact Nat.sub_le _ _

theorem assignOn_frame (s : WorkSim n m) (i : Fin m) : (s.assignOn i).timeline = s.timeline ∧
    (s.assignOn i).completedProcesses = s.completedProcesses ∧
    ∀ c, ((s.assignOn i).queues c).rear ≤ (s.queues c).rear := by
  have h1 := s.take_frame CPUQueue.popFront i i
  have h2 := fun c => s.take_rear popFront_rear i i c
  unfold assignOn
  split
  · simp only
    split
    · exact ⟨h1.1, h1.2, h2⟩
    · split
      · exact ⟨h1.1, h1.2, h2⟩
      · rename_i c _
        have h3 := (s.take CPUQueue.popFront i i).take_frame CPUQueue.popBack i c
        have h4 := fun c' => (s.take CPUQueue.popFront i i).take_rear popBack_rear i c c'
        exact ⟨h3.1.trans h1.1, h3.2.trans h1.2, fun c' => Nat.le_trans (h4 c') (h2 c')⟩
  · exact ⟨rfl, rfl, fun _ => Nat.le_refl _⟩

theorem Conserved.assignOn (hw : Sim.Unstarted ps) {s : WorkSim n m} (h : Conserved ps s) (i : Fin m) :
    Conserved ps (s.assignOn i) := by
  rcases assignOn_cases h.queues i with ⟨e, _⟩ | ⟨hi, c, p, k, t⟩
  · rw [e]; exact h
  obtain ⟨_, hcp, hrear⟩ := s.assignOn_frame i
  have hq : ∀ c' k' j, ((s.assignOn i).queues c').Holds k' j ↔ (s.queues c').Holds k' j ∧ ¬ (c' = c ∧ k' = k) := by
    intro c' k' j
    by_cases hc : c' = c
    · subst hc; simp [t.queue]
    · rw [t.others c' hc]; simp [hc]
  refine ⟨by rw [t.processes]; exact h.same, by rw [t.processes]; exact h.bounds, fun c' => ?_, fun c' => ?_,
    fun c' hc' => ?_, place_moved h.place (i := p) (.queue c k) (.core i) t.held (fun hr => ?_) ?_
      (fun r hr => ?_) (fun j hj r => ?_), ?_, ?_⟩
  · by_cases hc : c' = c
    · rw [hc]; exact t.ok
    · rw [t.others c' hc]; exact h.queues c'
  · have h1 := h.short c'
    have h2 := hrear c'
    unfold arrivals at h1 ⊢
    rw [t.arrived]
    omega
  · rw [t.cores] at hc' ⊢
    rw [t.processes]
    by_cases hc : c' = i
    · subst hc; exact ⟨p, by simp⟩
    · rw [Function.update_of_ne hc] at hc' ⊢; exact h.resolves c' hc'
  · exact ((hq c k p).mp hr).2 ⟨rfl, rfl⟩
  · simp only [IsAt, t.cores, t.processes, Function.update_self]
  · cases r with
    | unarrived => rw [IsAt, t.arrived] at hr; exact Or.inl hr
    | queue c' k' => exact Or.inl ((hq c' k' p).mp hr).1
    | core c' =>
      simp only [IsAt, t.cores, t.processes] at hr
      by_cases hc : c' = i
      · exact Or.inr (by rw [hc])
      · rw [Function.update_of_ne hc] at hr; exact Or.inl hr
    | completed => rw [IsAt, t.processes] at hr; exact Or.inl hr
  · cases r with
    | unarrived => simp only [IsAt, t.arrived]
    | queue c' k' =>
      simp only [IsAt, hq]
      refine ⟨fun hr => hr.1, fun hr => ⟨hr, fun ⟨h1, h2⟩ => hj ?_⟩⟩
      subst h1
      subst h2
      exact Option.some.inj (hr.2.2.symm.trans t.held.2.2)
    | core c' =>
      simp only [IsAt, t.cores, t.processes]
      by_cases hc : c' = i
      · subst hc
        rw [Function.update_self, hi]
        exact ⟨fun hr => absurd (h.pid_inj hw hr).symm hj, fun hr => absurd hr.symm (h.pid_ne hw j)⟩
      · rw [Function.update_of_ne hc]
    | completed => simp only [IsAt, t.processes]
  · rw [hcp, h.count]
    simp only [completed, t.processes]
  · rw [t.arrived, t.time]
    exact h.punctual

/-! ## Step C -/

def burn (s : WorkSim n m) (p : Process) : Process :=
  if p.remainingTime - 1 = 0 then s.record { p with remainingTime := p.remainingTime - 1 }
  else { p with remainingTime := p.remainingTime - 1 }

theorem burn_static (s : WorkSim n m) (p : Process) : Sim.static (s.burn p) = Sim.static p := by
  unfold burn
  split <;> rfl

theorem burn_remaining (s : WorkSim n m) (p : Process) : (s.burn p).remainingTime = p.remainingTime - 1 := by
  unfold burn
  split <;> rfl

def burnOn (s : WorkSim n m) (c : Fin m) (j : Fin n) : WorkSim n m :=
  { s with
    processes := Function.update s.processes j (s.burn (s.processes j))
    completedProcesses := s.completedProcesses + if (s.processes j).remainingTime - 1 = 0 then 1 else 0
    cores := if (s.processes j).remainingTime - 1 = 0 then Function.update s.cores c (-1) else s.cores }

theorem burnOn_static (s : WorkSim n m) (c : Fin m) (j i : Fin n) :
    Sim.static ((s.burnOn c j).processes i) = Sim.static (s.processes i) := by
  simp only [burnOn]
  by_cases hi : i = j
  · subst hi; rw [Function.update_self]; exact burn_static s _
  · rw [Function.update_of_ne hi]

theorem burnOn_pid (s : WorkSim n m) (c : Fin m) (j i : Fin n) :
    ((s.burnOn c j).processes i).pid = (s.processes i).pid := Sim.static_pid (burnOn_static s c j i)

theorem burnOn_remaining (s : WorkSim n m) (c : Fin m) (j i : Fin n) :
    ((s.burnOn c j).processes i).remainingTime = (s.processes i).remainingTime - if i = j then 1 else 0 := by
  simp only [burnOn]
  by_cases hi : i = j
  · subst hi; rw [Function.update_self, burn_remaining, if_pos rfl]
  · rw [Function.update_of_ne hi, if_neg hi, Int.sub_zero]

theorem executeOn_idle {s : WorkSim n m} {c : Fin m} (hc : s.cores c = -1) : s.executeOn c = s.mark c 0 :=
  if_neg (not_not.mpr hc)

theorem executeOn_busy {s : WorkSim n m} (hinj : Function.Injective fun i => (s.processes i).pid) {c : Fin m} {j : Fin n}
    (hc : s.cores c = (s.processes j).pid) (hne : s.cores c ≠ -1) :
    s.executeOn c = (s.mark c (s.cores c)).burnOn c j := by
  have hf : Sim.findFirst s.processes (s.cores c) = some j := by
    rw [hc]
    exact Sim.findFirst_finds s.processes hinj j
  unfold executeOn burnOn burn
  by_cases h0 : (s.processes j).remainingTime - 1 = 0
  · simp [hne, mark, hf, h0, record]
  · simp [hne, mark, hf, h0]

theorem Conserved.mark {s : WorkSim n m} (h : Conserved ps s) (c : Fin m) (v : Int) : Conserved ps (s.mark c v) :=
  ⟨h.same, h.bounds, h.queues, h.short, h.resolves, place_kept h.place fun _ p => by cases p <;> rfl, h.count, h.punctual⟩

theorem burnOn_completed {s : WorkSim n m} {j : Fin n} (hj : (s.processes j).remainingTime ≠ 0) (c : Fin m) :
    (s.burnOn c j).completed.card = s.completed.card + if (s.processes j).remainingTime - 1 = 0 then 1 else 0 := by
  have hmem : ∀ i, i ∈ (s.burnOn c j).completed ↔
      (s.processes i).remainingTime - (if i = j then 1 else 0) = 0 := fun i => by
    rw [mem_completed, burnOn_remaining]
  by_cases h0 : (s.processes j).remainingTime - 1 = 0
  · have hins : (s.burnOn c j).completed = insert j s.completed := by
      ext i
      rw [hmem, Finset.mem_insert, mem_completed]
      by_cases hi : i = j
      · subst hi; simp [h0]
      · simp [hi]
    rw [hins, Finset.card_insert_of_notMem (by rw [mem_completed]; exact hj), if_pos h0]
  · have hsame : (s.burnOn c j).completed = s.completed := by
      ext i
      rw [hmem, mem_completed]
      by_cases hi : i = j
      · subst hi; rw [if_pos rfl]; omega
      · rw [if_neg hi, Int.sub_zero]
    rw [hsame, if_neg h0, Nat.add_zero]

section
variable {s : WorkSim n m} (h : Conserved ps s) {c : Fin m} {j : Fin n} (hc : s.cores c = (s.processes j).pid)
include h hc

theorem Conserved.remaining_ne : (s.processes j).remainingTime ≠ 0 := by
  intro h0
  have heq : Place.completed = Place.core c := (h.place j).unique h0 hc
  cases heq

theorem Conserved.place_finished (hw : Sim.Unstarted ps) (h0 : (s.processes j).remainingTime - 1 = 0) :
    ∀ i, ∃! p, (s.burnOn c j).IsAt i p := by
  have hcores : (s.burnOn c j).cores = Function.update s.cores c (-1) := if_pos h0
  apply place_moved h.place (i := j) (.core c) .completed hc
  · simp only [IsAt, burnOn_pid, hcores, Function.update_self]
    exact fun hr => h.pid_ne hw j hr.symm
  · simp only [IsAt, burnOn_remaining, if_true, h0]
  · intro r hr
    cases r with
    | unarrived => exact Or.inl hr
    | queue c' k => exact Or.inl hr
    | core c' =>
      simp only [IsAt, burnOn_pid, hcores] at hr
      by_cases e : c' = c
      · subst e; exact Or.inl hc
      · rw [Function.update_of_ne e] at hr; exact Or.inl hr
    | completed => exact Or.inr rfl
  · intro i hi r
    cases r with
    | unarrived => rfl
    | queue c' k => rfl
    | core c' =>
      simp only [IsAt, burnOn_pid, hcores]
      by_cases e : c' = c
      · subst e
        rw [Function.update_self, hc]
        exact ⟨fun hr => absurd hr.symm (h.pid_ne hw i), fun hr => absurd (h.pid_inj hw hr).symm hi⟩
      · rw [Function.update_of_ne e]
    | completed => simp only [IsAt, burnOn_remaining, hi, if_false, Int.sub_zero]

theorem Conserved.place_unfinished (h0 : (s.processes j).remainingTime - 1 ≠ 0) :
    ∀ i, ∃! p, (s.burnOn c j).IsAt i p := by
  have hcores : (s.burnOn c j).cores = s.cores := if_neg h0
  have hrem := h.remaining_ne hc
  apply place_kept h.place
  intro i r
  cases r with
  | unarrived => rfl
  | queue c' k => rfl
  | core c' => simp only [IsAt, burnOn_pid, hcores]
  | completed =>
    simp only [IsAt, burnOn_remaining]
    by_cases hi : i = j
    · subst hi; simp only [if_true]; omega
    · simp [hi]

theorem Conserved.burnOn (hw : Sim.Unstarted ps) : Conserved ps (s.burnOn c j) := by
  have hrem := h.remaining_ne hc
  have hcores : (s.burnOn c j).cores =
      if (s.processes j).remainingTime - 1 = 0 then Function.update s.cores c (-1) else s.cores := rfl
  have hcp : (s.burnOn c j).completedProcesses =
      s.completedProcesses + if (s.processes j).remainingTime - 1 = 0 then 1 else 0 := rfl
  refine ⟨fun i => (burnOn_static s c j i).trans (h.same i), fun i => ?_, h.queues, h.short, fun c' hc' => ?_, ?_, ?_,
    h.punctual⟩
  · rw [burnOn_remaining]
    have := h.bounds i
    by_cases hi : i = j
    · subst hi; rw [if_pos rfl]; omega
    · rw [if_neg hi, Int.sub_zero]; exact this
  · simp only [burnOn_pid]
    rw [hcores] at hc' ⊢
    split at hc'
    · rw [if_pos ‹_›]
      by_cases e : c' = c
      · subst e; simp at hc'
      · rw [Function.update_of_ne e] at hc' ⊢; exact h.resolves c' hc'
    · rw [if_neg ‹_›]
      exact h.resolves c' hc'
  · by_cases h0 : (s.processes j).remainingTime - 1 = 0
    · exact h.place_finished hc hw h0
    · exact h.place_unfinished hc h0
  · rw [hcp, h.count, burnOn_completed hrem]

end

theorem Conserved.executeOn (hw : Sim.Unstarted ps) {s : WorkSim n m} (h : Conserved ps s) (c : Fin m) :
    Conserved ps (s.executeOn c) := by
  by_cases hc : s.cores c = -1
  · rw [executeOn_idle hc]; exact h.mark c 0
  · obtain ⟨j, hj⟩ := h.resolves c hc
    rw [executeOn_busy (h.pid_inj hw) hj hc]
    exact (h.mark c (s.cores c)).burnOn hj hw

/-! ## Every point of a run -/

def parts : List (List (WorkSim n m → WorkSim n m)) :=
  [(List.finRange n).map fun i s => s.loadOn i, (List.finRange m).map fun c s => s.assignOn c,
    (List.finRange m).map fun c s => s.executeOn c, [advance]]

theorem parts_body : (parts.map body : List (WorkSim n m → WorkSim n m)) = steps := by
  have hfold : ∀ {α : Type} (l : List α) (f : WorkSim n m → α → WorkSim n m),
      body (l.map fun a s => f s a) = fun s => l.foldl f s := by
    intro α l f
    funext s
    unfold body
    rw [List.foldl_map]
  simp only [parts, List.map_cons, List.map_nil, hfold]
  rfl

def iterations : List (WorkSim n m → WorkSim n m) := parts.flatten

theorem mem_iterations {f : WorkSim n m → WorkSim n m} (h : f ∈ (iterations : List (WorkSim n m → WorkSim n m))) :
    ((∃ i, f = fun s => s.loadOn i) ∨ (∃ c, f = fun s => s.assignOn c) ∨ ∃ c, f = fun s => s.executeOn c) ∨
      f = advance := by
  simp only [iterations, parts, List.flatten_cons, List.flatten_nil, List.append_nil, List.mem_append, List.mem_map,
    List.mem_finRange, true_and, List.mem_singleton] at h
  rcases h with ⟨i, rfl⟩ | ⟨c, rfl⟩ | ⟨c, rfl⟩ | rfl
  · exact Or.inl (Or.inl ⟨i, rfl⟩)
  · exact Or.inl (Or.inr (Or.inl ⟨c, rfl⟩))
  · exact Or.inl (Or.inr (Or.inr ⟨c, rfl⟩))
  · exact Or.inr rfl

theorem iteration_quiet (hm : 0 < m) (hw : Sim.Unstarted ps) {s : WorkSim n m} (h : Conserved ps s)
    {f : WorkSim n m → WorkSim n m}
    (hf : (∃ i, f = fun s => s.loadOn i) ∨ (∃ c, f = fun s => s.assignOn c) ∨ ∃ c, f = fun s => s.executeOn c) :
    Conserved ps (f s) ∧ (f s).currentTime = s.currentTime ∧ ∀ i, s.arrived i = true → (f s).arrived i = true := by
  rcases hf with ⟨i, rfl⟩ | ⟨c, rfl⟩ | ⟨c, rfl⟩
  · exact ⟨h.loadOn hm i, loadOn_time hm s i, (loadOn_arrived hm s i).1⟩
  · refine ⟨h.assignOn hw c, ?_⟩
    rcases assignOn_cases h.queues c with ⟨e, _⟩ | ⟨_, c', p, k, t⟩
    · change (s.assignOn c).currentTime = _ ∧ ∀ i, _ → (s.assignOn c).arrived i = true
      rw [e]
      exact ⟨rfl, fun _ hi => hi⟩
    · exact ⟨t.time, fun i hi => by rw [t.arrived]; exact hi⟩
  · refine ⟨h.executeOn hw c, ?_⟩
    by_cases hc : s.cores c = -1
    · simp only [executeOn_idle hc]
      exact ⟨rfl, fun _ hi => hi⟩
    · obtain ⟨j, hj⟩ := h.resolves c hc
      simp only [executeOn_busy (h.pid_inj hw) hj hc]
      exact ⟨rfl, fun _ hi => hi⟩

theorem advance_last {rest : List (WorkSim n m → WorkSim n m)} (hm : 0 < m) (hw : Sim.Unstarted ps)
    (h : (advance :: rest) <:+ (iterations : List (WorkSim n m → WorkSim n m))) : rest = [] := by
  have hne : ∀ f : WorkSim n m → WorkSim n m, ((∃ i, f = fun s => s.loadOn i) ∨ (∃ c, f = fun s => s.assignOn c) ∨
      ∃ c, f = fun s => s.executeOn c) → f ≠ advance := by
    intro f hf e
    have := (iteration_quiet hm hw (conserved_init hw) hf).2.1
    rw [e] at this
    simp [advance, init] at this
  have hsplit : (iterations : List (WorkSim n m → WorkSim n m)) = ((List.finRange n).map fun i s => s.loadOn i) ++
      ((List.finRange m).map fun c s => s.assignOn c) ++ ((List.finRange m).map fun c s => s.executeOn c) ++ [advance] := by
    simp [iterations, parts]
  rw [hsplit] at h
  rcases List.suffix_concat_iff.mp h with h0 | ⟨r, hr, hs⟩
  · cases h0
  · cases r with
    | nil => exact (List.cons.inj hr).2
    | cons g r =>
      obtain ⟨rfl, _⟩ := List.cons.inj hr
      have hg := hs.subset List.mem_cons_self
      simp only [List.mem_append, List.mem_map, List.mem_finRange, true_and] at hg
      exfalso
      rcases hg with (⟨i, e⟩ | ⟨c, e⟩) | ⟨c, e⟩
      · exact hne _ (Or.inl ⟨i, rfl⟩) e
      · exact hne _ (Or.inr (Or.inl ⟨c, rfl⟩)) e
      · exact hne _ (Or.inr (Or.inr ⟨c, rfl⟩)) e

theorem conserved_run (hm : 0 < m) (hw : Sim.Unstarted ps) (ha : ∀ i, 0 ≤ (ps i).arrivalTime)
    {rest : List (WorkSim n m → WorkSim n m)} {s : WorkSim n m} (h : At guard iterations (init ps) rest s) :
    Conserved ps s ∧ (∀ i, s.arrived i = false → s.currentTime ≤ (ps i).arrivalTime) ∧
      (rest ≠ [] → ∀ i, (fun s : WorkSim n m => s.loadOn i) ∉ rest → s.arrived i = false →
        s.currentTime < (ps i).arrivalTime) := by
  refine At.invariant (P := fun rest s => Conserved ps s ∧ (∀ i, s.arrived i = false → s.currentTime ≤ (ps i).arrivalTime) ∧
      (rest ≠ [] → ∀ i, (fun s : WorkSim n m => s.loadOn i) ∉ rest → s.arrived i = false →
        s.currentTime < (ps i).arrivalTime)) ?_ ?_ ?_ h
  · exact ⟨conserved_init hw, fun i _ => ha i, fun hne => absurd rfl hne⟩
  · intro s _ ⟨hc, hle, _⟩
    refine ⟨hc, hle, fun _ i hi => absurd ?_ hi⟩
    simp [iterations, parts]
  · intro f rest s hf ⟨hc, hle, hlt⟩
    rcases mem_iterations (hf.subset List.mem_cons_self) with hq | rfl
    · obtain ⟨h1, h2, h3⟩ := iteration_quiet hm hw hc hq
      have hback : ∀ i, (f s).arrived i = false → s.arrived i = false := by
        intro i hi
        cases hb : s.arrived i with
        | false => rfl
        | true => rw [h3 i hb] at hi; cases hi
      rw [h2]
      refine ⟨h1, fun i hi => hle i (hback i hi), fun _ i hmem hi => ?_⟩
      by_cases e : (fun s : WorkSim n m => s.loadOn i) = f
      · -- the arrivals of the current tick have just been looked at
        have hnot : (s.processes i).arrivalTime ≠ s.currentTime := by
          intro he
          rw [← e, (loadOn_arrived hm s i).2 he] at hi
          cases hi
        rw [hc.arrival i] at hnot
        have := hle i (hback i hi)
        omega
      · exact hlt (List.cons_ne_nil _ _) i (fun hm => (List.mem_cons.mp hm).elim e hmem) (hback i hi)
    · obtain rfl := advance_last hm hw hf
      refine ⟨⟨hc.same, hc.bounds, hc.queues, hc.short, hc.resolves, fun i => ?_, hc.count, fun i hi => ?_⟩, fun i hi => ?_,
        fun hne => absurd rfl hne⟩
      · obtain ⟨p, hp, hu⟩ := hc.place i
        refine ⟨p, ?_, fun r hr => hu r ?_⟩
        · cases p <;> exact hp
        · cases r <;> exact hr
      · have := hc.punctual i hi
        simp only [advance]
        omega
      · have hnot : (fun s : WorkSim n m => s.loadOn i) ∉ [advance] := by
          intro hmem
          have e := List.mem_singleton.mp hmem
          have := loadOn_time hm s i
          rw [show s.loadOn i = advance s from congrFun e s] at this
          simp [advance] at this
        have := hlt (List.cons_ne_nil _ _) i hnot hi
        simp only [advance]
        omega

theorem conserved_at (hm : 0 < m) (hw : Sim.Unstarted ps) (ha : ∀ i, 0 ≤ (ps i).arrivalTime)
    {rest : List (WorkSim n m → WorkSim n m)} {s : WorkSim n m} (h : At guard steps (init ps) rest s) : Conserved ps s := by
  rw [← parts_body] at h
  obtain ⟨_, _, hat⟩ := h.fine
  exact (conserved_run hm hw ha hat).1

end

/-- **Conservation of processes.** At every point of a run, between any two
iterations of the loops of steps A, B and C: the indices of every queue are in
order and within the array, its size is the number of its positions, and each
process has not arrived, or is at one position of one queue, or is on one core,
or is completed. A process that has not arrived is not overdue, one that has is
not early, and `completed_processes` counts the completed ones. -/
theorem process_conservation {ps : Fin n → Process} (hn : n ≤ 100) (hm : 1 ≤ m)
    (hinj : Function.Injective fun i => (ps i).pid) (hpos : ∀ i, 0 < (ps i).pid) (ha : ∀ i, 0 ≤ (ps i).arrivalTime)
    (hrem : ∀ i, (ps i).remainingTime = (ps i).burstTime) (hburst : ∀ i, 1 ≤ (ps i).burstTime)
    (rest : List (WorkSim n m → WorkSim n m)) (s : WorkSim n m)
    (h : At guard iterations (init ps) rest s ∨ At guard steps (init ps) rest s) :
    (∀ c, (s.queues c).front ≤ (s.queues c).rear ∧ (s.queues c).rear ≤ n ∧
      (s.queues c).size = (s.queues c).rear - (s.queues c).front) ∧
    (∀ i, ∃! p, s.IsAt i p) ∧
    (∀ i, (s.arrived i = false → s.currentTime ≤ (ps i).arrivalTime) ∧
      (s.arrived i = true → (ps i).arrivalTime ≤ s.currentTime)) ∧
    s.completedProcesses = s.completed.card := by
  have hw : Sim.Workload ps := ⟨⟨hinj, hpos, hrem, hburst⟩, hn⟩
  obtain ⟨rest', hat⟩ : ∃ rest', At guard iterations (init ps) rest' s := by
    rcases h with h | h
    · exact ⟨rest, h⟩
    · rw [← parts_body] at h
      obtain ⟨r, _, hat⟩ := h.fine
      exact ⟨_, hat⟩
  obtain ⟨hc, hle, _⟩ := conserved_run hm hw.toUnstarted ha hat
  refine ⟨fun c => ⟨(hc.queues c).order, ?_, (hc.queues c).size⟩, hc.place, fun i => ⟨hle i, hc.punctual i⟩, hc.count⟩
  have h1 := hc.short c
  have h2 := Finset.card_le_univ s.arrivals
  rw [Fintype.card_fin] at h2
  omega

theorem process_conservation_tick :
    (body steps (init (Sim.countedProcesses 3) : WorkSim 3 2)).completedProcesses = 0 ∧
    ∀ i, ∃! p, (body steps (init (Sim.countedProcesses 3) : WorkSim 3 2)).IsAt i p := by
  have hw : Sim.Workload (Sim.countedProcesses 3) := Sim.initializeTestData_workload (by decide) _ _
  have h := process_conservation (m := 2) (by decide) (by decide) hw.pid_inj hw.pid_pos (by decide) hw.fresh hw.burst_pos []
    (body steps (init (Sim.countedProcesses 3) : WorkSim 3 2)) (Or.inr (At.start.iterate (by decide)))
  exact ⟨by decide, h.2.1⟩

end WorkSim
end OsLab
