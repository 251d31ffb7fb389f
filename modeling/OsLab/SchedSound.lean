import OsLab.Sched

/-!
# No process is scheduled twice

`Coherent` ties `is_running`, the CPUs' pids and the remaining times together.
Each step of a tick is built from freeing a CPU, dispatching a process and
executing; coherence is proved for these and lifted over the CPU loops.
-/

namespace OsLab
namespace Sim
variable {n m : Nat}

def core (p : Process) : Int × Int × Int × Int × Int × Int :=
  (p.pid, p.arrivalTime, p.burstTime, p.remainingTime, p.deadline, p.ioWaitTime)

structure SameCore (s s' : Sim n m) : Prop where
  core : ∀ i, core (s'.processes i) = core (s.processes i)
  cpus : s'.cpus = s.cpus
  isRunning : s'.isRunning = s.isRunning
  time : s'.time = s.time
  timeline : s'.timeline = s.timeline
  completed : s'.completed = s.completed

theorem SameCore.refl (s : Sim n m) : SameCore s s := ⟨fun _ => rfl, rfl, rfl, rfl, rfl, rfl⟩

section
variable {p q : Process} (h : core p = core q)
include h

theorem core_pid : p.pid = q.pid := congrArg (·.1) h
theorem core_arrival : p.arrivalTime = q.arrivalTime := congrArg (·.2.1) h
theorem core_burst : p.burstTime = q.burstTime := congrArg (·.2.2.1) h
theorem core_remaining : p.remainingTime = q.remainingTime := congrArg (·.2.2.2.1) h
theorem core_deadline : p.deadline = q.deadline := congrArg (·.2.2.2.2.1) h
theorem core_io : p.ioWaitTime = q.ioWaitTime := congrArg (·.2.2.2.2.2) h

end

theorem core_update (ps : Fin n → Process) (i : Fin n) (p : Process) (h : core p = core (ps i)) (j : Fin n) :
    core (Function.update ps i p j) = core (ps j) := by
  by_cases hj : j = i
  · subst hj; simpa using h
  · simp [hj]

theorem record_same (s : Sim n m) (i : Fin n) : SameCore s (s.record i) where
  core := core_update _ _ _ rfl
  cpus := rfl
  isRunning := rfl
  time := rfl
  timeline := rfl
  completed := rfl

/-! ## Looking a process up -/

def Finds (find : (Fin n → Process) → Int → Option (Fin n)) : Prop :=
  ∀ ps : Fin n → Process, (Function.Injective fun i => (ps i).pid) → ∀ i, find ps (ps i).pid = some i

theorem findFirst_finds : Finds (findFirst (n := n)) := by
  intro ps hinj i
  unfold findFirst
  cases h : (List.finRange n).find? fun j => (ps j).pid == (ps i).pid with
  | none =>
    have := List.find?_eq_none.mp h i (List.mem_finRange i)
    simp at this
  | some j =>
    have hj := List.find?_some h
    simp only [beq_iff_eq] at hj
    rw [hinj hj]

theorem findLast_finds : Finds (findLast (n := n)) := by
  intro ps hinj i
  have key : ∀ l : List (Fin n), (i ∈ l → l.foldl (fun pIdx j => if (ps j).pid = (ps i).pid then some j
      else pIdx) none = some i) := by
    intro l
    induction l using List.reverseRecOn with
    | nil => intro h; cases h
    | append_singleton l j ih =>
      intro h
      rw [List.foldl_append]
      by_cases hj : (ps j).pid = (ps i).pid
      · have : j = i := hinj hj
        simp [this]
      · have hne : i ≠ j := fun e => hj (by rw [e])
        have hi : i ∈ l := by simpa [hne] using h
        simp [hj, ih hi]
  exact key _ (List.mem_finRange i)

/-! ## Coherence -/

structure Unstarted (ps : Fin n → Process) : Prop where
  pid_inj : Function.Injective fun i => (ps i).pid
  pid_pos : ∀ i, 0 < (ps i).pid
  fresh : ∀ i, (ps i).remainingTime = (ps i).burstTime
  burst_pos : ∀ i, 1 ≤ (ps i).burstTime

theorem Unstarted.of_pid {ps : Fin n → Process} (hpid : ∀ i : Fin n, (ps i).pid = i + 1)
    (hrem : ∀ i, (ps i).remainingTime = (ps i).burstTime) (hburst : ∀ i, 1 ≤ (ps i).burstTime) :
    Unstarted ps := by
  refine ⟨fun i j hij => ?_, fun i => ?_, hrem, hburst⟩
  · simp only [hpid] at hij
    exact Fin.ext (by omega)
  · rw [hpid]; omega

structure Workload (ps : Fin n → Process) : Prop extends Unstarted ps where
  small : n ≤ 100

structure Coherent (s : Sim n m) : Prop where
  pid_inj : Function.Injective fun i => (s.processes i).pid
  pid_pos : ∀ i, 0 < (s.processes i).pid
  running : ∀ i, s.isRunning i = true ↔ ∃ c, (s.cpus c).currentPid = (s.processes i).pid
  unique : ∀ i c c', (s.cpus c).currentPid = (s.processes i).pid →
    (s.cpus c').currentPid = (s.processes i).pid → c = c'
  resolves : ∀ c, (s.cpus c).currentPid ≠ -1 → ∃ i, (s.cpus c).currentPid = (s.processes i).pid
  bounds : ∀ i, 0 ≤ (s.processes i).remainingTime ∧ (s.processes i).remainingTime ≤ (s.processes i).burstTime

def Alive (s : Sim n m) : Prop := ∀ i, s.isRunning i = true → 0 < (s.processes i).remainingTime

theorem Coherent.pid_ne {s : Sim n m} (h : Coherent s) (i : Fin n) : (s.processes i).pid ≠ -1 := by
  have := h.pid_pos i
  omega

theorem coherent_init {ps : Fin n → Process} (h : Unstarted ps) : Coherent (init (m := m) ps) where
  pid_inj := h.pid_inj
  pid_pos := h.pid_pos
  running := fun i => by
    have := h.pid_pos i
    simp only [init, Bool.false_eq_true, false_iff, not_exists]
    intro _; omega
  unique := fun i c c' hc => by
    have := h.pid_pos i
    simp only [init] at hc
    omega
  resolves := fun c hc => absurd rfl hc
  bounds := fun i => by
    have h1 := h.fresh i
    have h2 := h.burst_pos i
    simp only [init]
    omega

theorem Coherent.same {s s' : Sim n m} (h : Coherent s) (hs : SameCore s s') : Coherent s' where
  pid_inj := fun i j hij => h.pid_inj (by
    simp only [core_pid (hs.core _)] at hij
    exact hij)
  pid_pos := fun i => by rw [core_pid (hs.core i)]; exact h.pid_pos i
  running := fun i => by rw [hs.isRunning, hs.cpus, core_pid (hs.core i)]; exact h.running i
  unique := fun i c c' => by rw [hs.cpus, core_pid (hs.core i)]; exact h.unique i c c'
  resolves := fun c hc => by
    rw [hs.cpus] at hc ⊢
    obtain ⟨i, hi⟩ := h.resolves c hc
    exact ⟨i, by rw [core_pid (hs.core i)]; exact hi⟩
  bounds := fun i => by rw [core_remaining (hs.core i), core_burst (hs.core i)]; exact h.bounds i

theorem Alive.same {s s' : Sim n m} (h : Alive s) (hs : SameCore s s') : Alive s' := by
  intro i hi
  rw [hs.isRunning] at hi
  rw [core_remaining (hs.core i)]
  exact h i hi

theorem Coherent.free {s : Sim n m} (h : Coherent s) {c : Fin m} {i : Fin n}
    (hc : (s.cpus c).currentPid = (s.processes i).pid) : Coherent (s.free c i) where
  pid_inj := h.pid_inj
  pid_pos := h.pid_pos
  running := fun j => by
    have hj := h.pid_ne j
    simp only [Sim.free, setCpu]
    by_cases hji : j = i
    · subst hji
      simp only [Function.update_self, Bool.false_eq_true, false_iff, not_exists]
      intro c' hc'
      by_cases hcc : c' = c
      · subst hcc; simp only [Function.update_self] at hc'; omega
      · rw [Function.update_of_ne hcc] at hc'
        exact hcc (h.unique j c' c hc' hc)
    · rw [Function.update_of_ne hji, h.running j]
      constructor
      · rintro ⟨c', hc'⟩
        have hcc : c' ≠ c := by
          intro e; subst e
          exact hji (h.pid_inj (hc'.symm.trans hc))
        exact ⟨c', by rw [Function.update_of_ne hcc]; exact hc'⟩
      · rintro ⟨c', hc'⟩
        by_cases hcc : c' = c
        · subst hcc; simp only [Function.update_self] at hc'; omega
        · rw [Function.update_of_ne hcc] at hc'; exact ⟨c', hc'⟩
  unique := fun j c₁ c₂ h₁ h₂ => by
    have hj := h.pid_ne j
    simp only [Sim.free, setCpu] at h₁ h₂
    by_cases e₁ : c₁ = c
    · subst e₁; simp only [Function.update_self] at h₁; omega
    · by_cases e₂ : c₂ = c
      · subst e₂; simp only [Function.update_self] at h₂; omega
      · rw [Function.update_of_ne e₁] at h₁
        rw [Function.update_of_ne e₂] at h₂
        exact h.unique j c₁ c₂ h₁ h₂
  resolves := fun c' hc' => by
    simp only [Sim.free, setCpu] at hc' ⊢
    by_cases e : c' = c
    · subst e; simp at hc'
    · rw [Function.update_of_ne e] at hc' ⊢; exact h.resolves c' hc'
  bounds := h.bounds

theorem Coherent.dispatch {s : Sim n m} (h : Coherent s) {c : Fin m} {i : Fin n} (q : Int)
    (hc : (s.cpus c).currentPid = -1) (hi : s.isRunning i = false) : Coherent (s.dispatch c i q) := by
  have hno : ∀ c', (s.cpus c').currentPid ≠ (s.processes i).pid := by
    intro c' hc'
    have := (h.running i).mpr ⟨c', hc'⟩
    rw [hi] at this; cases this
  refine ⟨h.pid_inj, h.pid_pos, fun j => ?_, fun j c₁ c₂ h₁ h₂ => ?_, fun c' hc' => ?_, h.bounds⟩
  · have hj := h.pid_ne j
    simp only [Sim.dispatch, setCpu]
    by_cases hji : j = i
    · subst hji
      simp only [Function.update_self, true_iff]
      exact ⟨c, by simp⟩
    · rw [Function.update_of_ne hji, h.running j]
      constructor
      · rintro ⟨c', hc'⟩
        have hcc : c' ≠ c := by intro e; subst e; omega
        exact ⟨c', by rw [Function.update_of_ne hcc]; exact hc'⟩
      · rintro ⟨c', hc'⟩
        by_cases hcc : c' = c
        · subst hcc
          simp only [Function.update_self] at hc'
          exact absurd (h.pid_inj hc').symm hji
        · rw [Function.update_of_ne hcc] at hc'; exact ⟨c', hc'⟩
  · simp only [Sim.dispatch, setCpu] at h₁ h₂
    by_cases e₁ : c₁ = c <;> by_cases e₂ : c₂ = c
    · rw [e₁, e₂]
    · subst e₁
      rw [Function.update_self] at h₁
      rw [Function.update_of_ne e₂] at h₂
      exact absurd (h₂.trans h₁.symm) (hno c₂)
    · subst e₂
      rw [Function.update_self] at h₂
      rw [Function.update_of_ne e₁] at h₁
      exact absurd (h₁.trans h₂.symm) (hno c₁)
    · rw [Function.update_of_ne e₁] at h₁
      rw [Function.update_of_ne e₂] at h₂
      exact h.unique j c₁ c₂ h₁ h₂
  · simp only [Sim.dispatch, setCpu] at hc' ⊢
    by_cases e : c' = c
    · subst e; exact ⟨i, by simp⟩
    · rw [Function.update_of_ne e] at hc' ⊢; exact h.resolves c' hc'

/-! ## STEP 1: releasing finished processes -/

def ExpireOk (expire : Sim n m → Fin m → Fin n → Sim n m) : Prop :=
  ∀ s c i, ∃ s₁, SameCore s s₁ ∧ (expire s c i = s₁ ∨ expire s c i = s₁.free c i)

theorem keepCpu_ok : ExpireOk (keepCpu (n := n) (m := m)) :=
  fun s _ _ => ⟨s, SameCore.refl s, Or.inl rfl⟩

section
variable {find : (Fin n → Process) → Int → Option (Fin n)} {record : Sim n m → Fin n → Sim n m}
  {expire : Sim n m → Fin m → Fin n → Sim n m}

theorem finishOn_busy (hf : Finds find) {s : Sim n m} (h : Coherent s) {c : Fin m} {i : Fin n}
    (hi : (s.cpus c).currentPid = (s.processes i).pid) : finishOn find record expire s c =
      if (s.processes i).remainingTime = 0 then { (record s i).free c i with completed := s.completed + 1 }
      else expire s c i := by
  have hc : (s.cpus c).currentPid ≠ -1 := by rw [hi]; exact h.pid_ne i
  have hfi : find s.processes (s.cpus c).currentPid = some i := by rw [hi]; exact hf _ h.pid_inj i
  unfold finishOn
  rw [if_pos hc, hfi]

theorem finishOn_cases (hf : Finds find) {s : Sim n m} (h : Coherent s) (c : Fin m) :
    ((s.cpus c).currentPid = -1 ∧ finishOn find record expire s c = s) ∨
    ∃ i, (s.cpus c).currentPid = (s.processes i).pid ∧
      (((s.processes i).remainingTime = 0 ∧ finishOn find record expire s c =
          { (record s i).free c i with completed := s.completed + 1 }) ∨
       ((s.processes i).remainingTime ≠ 0 ∧ finishOn find record expire s c = expire s c i)) := by
  by_cases hc : (s.cpus c).currentPid = -1
  · exact Or.inl ⟨hc, by simp [finishOn, hc]⟩
  · obtain ⟨i, hi⟩ := h.resolves c hc
    refine Or.inr ⟨i, hi, ?_⟩
    rw [finishOn_busy hf h hi]
    by_cases hr : (s.processes i).remainingTime = 0
    · exact Or.inl ⟨hr, if_pos hr⟩
    · exact Or.inr ⟨hr, if_neg hr⟩

structure Released (s s' : Sim n m) (c : Fin m) : Prop where
  coherent : Coherent s'
  core : ∀ i, core (s'.processes i) = core (s.processes i)
  others : ∀ c', c' ≠ c → s'.cpus c' = s.cpus c'
  done : ∀ i, (s'.cpus c).currentPid = (s'.processes i).pid → 0 < (s'.processes i).remainingTime
  time : s'.time = s.time
  timeline : s'.timeline = s.timeline

theorem Released.of_free {s s₁ : Sim n m} (h : Coherent s) (hs : SameCore s s₁) {c : Fin m} {i : Fin n}
    (hc : (s.cpus c).currentPid = (s.processes i).pid) : Released s (s₁.free c i) c where
  coherent := (h.same hs).free (by rw [hs.cpus, core_pid (hs.core i)]; exact hc)
  core := hs.core
  others := fun c' hcc => by
    simp only [Sim.free, setCpu, Function.update_of_ne hcc, hs.cpus]
  done := fun j hj => by
    have := (h.same hs).pid_ne j
    simp only [Sim.free, setCpu, Function.update_self] at hj
    omega
  time := hs.time
  timeline := hs.timeline

theorem Released.count {s s' : Sim n m} {c : Fin m} (h : Released s s' c) (k : Nat) :
    Released s { s' with completed := k } c :=
  ⟨⟨h.coherent.pid_inj, h.coherent.pid_pos, h.coherent.running, h.coherent.unique, h.coherent.resolves,
    h.coherent.bounds⟩, h.core, h.others, h.done, h.time, h.timeline⟩

theorem finishOn_released (hf : Finds find) (hr : ∀ s i, SameCore s (record s i)) (he : ExpireOk expire)
    {s : Sim n m} (h : Coherent s) (c : Fin m) : Released s (finishOn find record expire s c) c := by
  rcases @finishOn_cases n m find record expire hf s h c with
    ⟨hc, hs⟩ | ⟨i, hi, ⟨h0, hs⟩ | ⟨h0, hs⟩⟩
  · rw [hs]
    refine ⟨h, fun _ => rfl, fun _ _ => rfl, fun j hj => ?_, rfl, rfl⟩
    have := h.pid_ne j
    omega
  · rw [hs]
    exact (Released.of_free h (hr s i) hi).count _
  · rw [hs]
    obtain ⟨s₁, hs₁, e | e⟩ := he s c i
    · rw [e]
      refine ⟨h.same hs₁, hs₁.core, fun _ _ => by rw [hs₁.cpus], fun j hj => ?_, hs₁.time, hs₁.timeline⟩
      -- the process on `c` is `i`, which has not finished
      rw [hs₁.cpus, hi, core_pid (hs₁.core j)] at hj
      have hij : i = j := h.pid_inj hj
      rw [core_remaining (hs₁.core j), ← hij]
      have := (h.bounds i).1
      omega
    · rw [e]
      exact Released.of_free h hs₁ hi

theorem finish_spec (hf : Finds find) (hr : ∀ s i, SameCore s (record s i)) (he : ExpireOk expire)
    {s : Sim n m} (h : Coherent s) : Coherent (finish find record expire s) ∧
      Alive (finish find record expire s) ∧ (finish find record expire s).time = s.time ∧
      (finish find record expire s).timeline = s.timeline := by
  have key := foldl_range (f := finishOn find record expire) (b := s)
    (P := fun l a => Coherent a ∧ a.time = s.time ∧ a.timeline = s.timeline ∧
      ∀ c ∈ l, ∀ i, (a.cpus c).currentPid = (a.processes i).pid → 0 < (a.processes i).remainingTime)
    (List.finRange m) ⟨h, rfl, rfl, fun _ hc => by cases hc⟩ (by
      intro l c a hl ⟨ha, ht, htl, hd⟩
      have hnot := not_mem_visited (List.nodup_finRange m) hl
      have R := finishOn_released hf hr he ha c
      refine ⟨R.coherent, R.time.trans ht, R.timeline.trans htl, fun c' hc' i hi => ?_⟩
      rcases List.mem_append.mp hc' with hc' | hc'
      · have hne : c' ≠ c := fun e => hnot (e ▸ hc')
        rw [R.others c' hne, core_pid (R.core i)] at hi
        rw [core_remaining (R.core i)]
        exact hd c' hc' i hi
      · rw [List.mem_singleton] at hc'
        subst hc'
        exact R.done i hi)
  obtain ⟨hc, ht, htl, hd⟩ := key
  refine ⟨hc, fun i hi => ?_, ht, htl⟩
  obtain ⟨c, hcp⟩ := (hc.running i).mp hi
  exact hd c (List.mem_finRange c) i hcp

end

/-! ## Assigning idle CPUs -/

section
variable {pick : Sim n m → Option (Fin n)} {charge : Sim n m → Sim n m} {timeLeft : Processor → Process → Int}

theorem assignOn_cases (s : Sim n m) (c : Fin m) :
    ((s.cpus c).currentPid ≠ -1 ∧ assignOn pick charge timeLeft s c = s) ∨
    ((s.cpus c).currentPid = -1 ∧ pick s = none ∧ assignOn pick charge timeLeft s c = charge s) ∨
    ∃ i, (s.cpus c).currentPid = -1 ∧ pick s = some i ∧ assignOn pick charge timeLeft s c =
      (charge s).dispatch c i (timeLeft (s.cpus c) (s.processes i)) := by
  by_cases hc : (s.cpus c).currentPid = -1
  · cases hp : pick s with
    | none => exact Or.inr (Or.inl ⟨hc, rfl, by simp [assignOn, hc, hp]⟩)
    | some i => exact Or.inr (Or.inr ⟨i, hc, rfl, by simp [assignOn, hc, hp]⟩)
  · exact Or.inl ⟨hc, by simp [assignOn, hc]⟩

theorem ready_iff {s : Sim n m} {i : Fin n} : s.ready i = true ↔
    (s.processes i).arrivalTime ≤ s.time ∧ 0 < (s.processes i).remainingTime ∧ s.isRunning i = false := by
  simp [ready, and_assoc]

theorem SameCore.ready {s s' : Sim n m} (hs : SameCore s s') (i : Fin n) : s'.ready i = s.ready i := by
  simp only [Sim.ready, core_arrival (hs.core i), core_remaining (hs.core i), hs.time, hs.isRunning]

variable (hp : ∀ s i, pick s = some i → s.ready i = true) (hch : ∀ s, SameCore s (charge s))
include hp hch

theorem assignOn_coherent {s : Sim n m} (h : Coherent s) (ha : Alive s) (c : Fin m) :
    Coherent (assignOn pick charge timeLeft s c) ∧ Alive (assignOn pick charge timeLeft s c) := by
  rcases @assignOn_cases n m pick charge timeLeft s c with
    ⟨_, e⟩ | ⟨_, _, e⟩ | ⟨i, hc, hi, e⟩
  · rw [e]; exact ⟨h, ha⟩
  · rw [e]; exact ⟨h.same (hch s), ha.same (hch s)⟩
  · obtain ⟨_, hrem, hrun⟩ := ready_iff.mp (hp s i hi)
    have hs := hch s
    rw [e]
    refine ⟨(h.same hs).dispatch _ (by rw [hs.cpus]; exact hc) (by rw [hs.isRunning]; exact hrun), ?_⟩
    intro j hj
    simp only [Sim.dispatch, setCpu] at hj ⊢
    rw [core_remaining (hs.core j)]
    by_cases hji : j = i
    · subst hji; exact hrem
    · rw [Function.update_of_ne hji, hs.isRunning] at hj
      exact ha j hj

theorem assign_coherent {s : Sim n m} (h : Coherent s) (ha : Alive s) :
    Coherent (assign pick charge timeLeft s) ∧ Alive (assign pick charge timeLeft s) :=
  foldl_keeps (P := fun s => Coherent s ∧ Alive s) _
    (fun _ c _ hs => assignOn_coherent hp hch hs.1 hs.2 c) ⟨h, ha⟩

omit hp in
theorem assignOn_quiet (s : Sim n m) (c : Fin m) : (assignOn pick charge timeLeft s c).time = s.time ∧
    (assignOn pick charge timeLeft s c).timeline = s.timeline := by
  rcases @assignOn_cases n m pick charge timeLeft s c with
    ⟨_, e⟩ | ⟨_, _, e⟩ | ⟨i, _, _, e⟩
  · rw [e]; exact ⟨rfl, rfl⟩
  · rw [e]; exact ⟨(hch s).time, (hch s).timeline⟩
  · rw [e]; exact ⟨(hch s).time, (hch s).timeline⟩

omit hp in
theorem assign_quiet (s : Sim n m) : (assign pick charge timeLeft s).time = s.time ∧
    (assign pick charge timeLeft s).timeline = s.timeline :=
  foldl_keeps (P := fun a : Sim n m => a.time = s.time ∧ a.timeline = s.timeline) _
    (fun a c _ ha => by
      have := @assignOn_quiet n m pick charge timeLeft hch a c
      exact ⟨this.1.trans ha.1, this.2.trans ha.2⟩) ⟨rfl, rfl⟩

end

/-! ## Executing one tick -/

/-- What the execution step does: each process on a CPU loses one unit of
remaining time, and the column of the current tick shows the CPUs' pids. -/
structure Executed (s s' : Sim n m) : Prop where
  pid : ∀ c, (s'.cpus c).currentPid = (s.cpus c).currentPid
  processes : ∀ i, s'.processes i = { s.processes i with
    remainingTime := (s.processes i).remainingTime - if s.isRunning i then 1 else 0 }
  isRunning : s'.isRunning = s.isRunning
  time : s'.time = s.time
  completed : s'.completed = s.completed
  deadlineMisses : s'.deadlineMisses = s.deadlineMisses
  column : ∀ c, s'.timeline c s.time = if (s.cpus c).currentPid = -1 then 0 else (s.cpus c).currentPid
  past : ∀ c t, t ≠ s.time → s'.timeline c t = s.timeline c t

structure ExecutedOn (s s' : Sim n m) (l : List (Fin m)) : Prop where
  pid : ∀ c, (s'.cpus c).currentPid = (s.cpus c).currentPid
  processes : ∀ i, s'.processes i = { s.processes i with
    remainingTime := (s.processes i).remainingTime -
      if ∃ c ∈ l, (s.cpus c).currentPid = (s.processes i).pid then 1 else 0 }
  isRunning : s'.isRunning = s.isRunning
  time : s'.time = s.time
  completed : s'.completed = s.completed
  deadlineMisses : s'.deadlineMisses = s.deadlineMisses
  column : ∀ c, s'.timeline c s.time = if c ∈ l then
    (if (s.cpus c).currentPid = -1 then 0 else (s.cpus c).currentPid) else s.timeline c s.time
  past : ∀ c t, t ≠ s.time → s'.timeline c t = s.timeline c t

theorem ExecutedOn.nil (s : Sim n m) : ExecutedOn s s [] :=
  ⟨fun _ => rfl, fun _ => by simp, rfl, rfl, rfl, rfl, fun _ => by simp, fun _ _ _ => rfl⟩

theorem ExecutedOn.done {s s' : Sim n m} (h : Coherent s) (he : ExecutedOn s s' (List.finRange m)) :
    Executed s s' where
  pid := he.pid
  processes := fun i => by
    rw [he.processes i]
    have : (∃ c ∈ List.finRange m, (s.cpus c).currentPid = (s.processes i).pid) ↔ s.isRunning i = true := by
      simp [h.running i]
    simp only [this]
  isRunning := he.isRunning
  time := he.time
  completed := he.completed
  deadlineMisses := he.deadlineMisses
  column := fun c => by rw [he.column c, if_pos (List.mem_finRange c)]
  past := he.past

section
variable {s s' : Sim n m} {l : List (Fin m)} {c : Fin m}

theorem ExecutedOn.pid_eq (he : ExecutedOn s s' l) (i : Fin n) : (s'.processes i).pid = (s.processes i).pid := by
  rw [he.processes i]

theorem ExecutedOn.mark_column (he : ExecutedOn s s' l) (hc : c ∉ l) (v : Int)
    (hv : v = if (s.cpus c).currentPid = -1 then 0 else (s.cpus c).currentPid) (c' : Fin m) :
    (s'.mark c v).timeline c' s.time = if c' ∈ l ++ [c] then
      (if (s.cpus c').currentPid = -1 then 0 else (s.cpus c').currentPid) else s.timeline c' s.time := by
  by_cases e : c' = c
  · subst e; simp [mark, he.time, hv]
  · simp only [mark, Function.update_of_ne e, he.column c', List.mem_append, List.mem_singleton, e, or_false]

theorem ExecutedOn.mark_past (he : ExecutedOn s s' l) (v : Int) (c' : Fin m) (t : Nat) (ht : t ≠ s.time) :
    (s'.mark c v).timeline c' t = s.timeline c' t := by
  by_cases e : c' = c
  · subst e
    simp only [mark, Function.update_self, he.time, Function.update_of_ne ht]
    exact he.past c' t ht
  · simp only [mark, Function.update_of_ne e]
    exact he.past c' t ht

theorem ExecutedOn.idle (h : Coherent s) (he : ExecutedOn s s' l) (hc : c ∉ l) (hi : (s.cpus c).currentPid = -1) :
    ExecutedOn s (s'.mark c 0) (l ++ [c]) where
  pid := he.pid
  processes := fun i => by
    have hne : (s.cpus c).currentPid ≠ (s.processes i).pid := by rw [hi]; exact (h.pid_ne i).symm
    have : (∃ c' ∈ l ++ [c], (s.cpus c').currentPid = (s.processes i).pid) ↔
        ∃ c' ∈ l, (s.cpus c').currentPid = (s.processes i).pid := by
      simp [List.mem_append, or_and_right, exists_or, hne]
    simp only [this]
    exact he.processes i
  isRunning := he.isRunning
  time := he.time
  completed := he.completed
  deadlineMisses := he.deadlineMisses
  column := he.mark_column hc 0 (by rw [if_pos hi])
  past := he.mark_past 0

theorem ExecutedOn.busy (h : Coherent s) (he : ExecutedOn s s' l) (hc : c ∉ l) {i : Fin n}
    (hi : (s.cpus c).currentPid = (s.processes i).pid) (q : Int) :
    ExecutedOn s (((s'.mark c (s.cpus c).currentPid).setProcess i { s'.processes i with
      remainingTime := (s'.processes i).remainingTime - 1 }).setCpu c
      { currentPid := (s.cpus c).currentPid, timeLeftOnCore := q }) (l ++ [c]) where
  pid := fun c' => by
    by_cases e : c' = c
    · subst e; simp [setCpu]
    · simp only [setCpu, setProcess, mark, Function.update_of_ne e]
      exact he.pid c'
  processes := fun j => by
    simp only [setCpu, setProcess, mark]
    by_cases e : j = i
    · subst e
      have h0 : ¬ ∃ c' ∈ l, (s.cpus c').currentPid = (s.processes j).pid := by
        rintro ⟨c', hc', hp⟩
        exact hc (h.unique j c' c hp hi ▸ hc')
      have h1 : ∃ c' ∈ l ++ [c], (s.cpus c').currentPid = (s.processes j).pid := ⟨c, by simp, hi⟩
      rw [Function.update_self, he.processes j, if_neg h0, if_pos h1, Int.sub_zero]
    · have hne : (s.cpus c).currentPid ≠ (s.processes j).pid := by
        rw [hi]; exact fun hp => e (h.pid_inj hp.symm)
      have : (∃ c' ∈ l ++ [c], (s.cpus c').currentPid = (s.processes j).pid) ↔
          ∃ c' ∈ l, (s.cpus c').currentPid = (s.processes j).pid := by
        simp [List.mem_append, or_and_right, exists_or, hne]
      simp only [this, Function.update_of_ne e]
      exact he.processes j
  isRunning := he.isRunning
  time := he.time
  completed := he.completed
  deadlineMisses := he.deadlineMisses
  column := he.mark_column hc _ (by
    have : (s.cpus c).currentPid ≠ -1 := by rw [hi]; exact h.pid_ne i
    rw [if_neg this])
  past := he.mark_past _

end

section
variable {find : (Fin n → Process) → Int → Option (Fin n)} (hf : Finds find) (burn : Int) {s : Sim n m} (h : Coherent s)
include hf h

theorem executeOn_cases {a : Sim n m} {l : List (Fin m)} (he : ExecutedOn s a l) (c : Fin m) :
    ((s.cpus c).currentPid = -1 ∧ executeOn find burn a c = a.mark c 0) ∨
    ∃ i, (s.cpus c).currentPid = (s.processes i).pid ∧ executeOn find burn a c =
      ((a.mark c (s.cpus c).currentPid).setProcess i { a.processes i with
        remainingTime := (a.processes i).remainingTime - 1 }).setCpu c
        { currentPid := (s.cpus c).currentPid, timeLeftOnCore := (a.cpus c).timeLeftOnCore - burn } := by
  unfold executeOn
  rw [he.pid c]
  by_cases hi : (s.cpus c).currentPid = -1
  · exact Or.inl ⟨hi, by simp [hi]⟩
  · obtain ⟨i, hci⟩ := h.resolves c hi
    have hinj : Function.Injective fun i => (a.processes i).pid := by
      intro j k hjk
      simp only [he.pid_eq] at hjk
      exact h.pid_inj hjk
    have hfi : find a.processes (s.cpus c).currentPid = some i := by
      rw [hci, ← he.pid_eq i]; exact hf _ hinj i
    refine Or.inr ⟨i, hci, ?_⟩
    simp only [ne_eq, hi, not_false_eq_true, if_true, mark, he.pid c, hfi]

theorem execute_spec : Executed s (execute find burn s) := by
  refine ExecutedOn.done h (foldl_range (P := fun l a => ExecutedOn s a l) _ (ExecutedOn.nil s) ?_)
  intro l c a hl he
  have hc := not_mem_visited (List.nodup_finRange m) hl
  rcases executeOn_cases hf burn h he c with ⟨hi, e⟩ | ⟨i, hci, e⟩
  · rw [e]; exact he.idle h hc hi
  · rw [e]; exact he.busy h hc hci _

theorem execute_timeLeft {c : Fin m} (hc : (s.cpus c).currentPid ≠ -1) :
    ((execute find burn s).cpus c).timeLeftOnCore = (s.cpus c).timeLeftOnCore - burn := by
  have key := foldl_range (f := executeOn find burn) (b := s) (P := fun l a => ExecutedOn s a l ∧
    (a.cpus c).timeLeftOnCore = if c ∈ l then (s.cpus c).timeLeftOnCore - burn else (s.cpus c).timeLeftOnCore)
    (List.finRange m) ⟨ExecutedOn.nil s, by simp⟩ (by
      intro l c' a hl ⟨he, ht⟩
      have hc' := not_mem_visited (List.nodup_finRange m) hl
      rcases executeOn_cases hf burn h he c' with ⟨hi, e⟩ | ⟨i, hci, e⟩
      · have hne : c ≠ c' := fun e' => hc (e' ▸ hi)
        rw [e]
        exact ⟨he.idle h hc' hi, by simpa [mark, hne] using ht⟩
      · rw [e]
        refine ⟨he.busy h hc' hci _, ?_⟩
        by_cases hcc : c = c'
        · subst hcc
          rw [if_neg hc'] at ht
          simp [setCpu, ht]
        · simpa [setCpu, setProcess, mark, hcc] using ht)
  rw [show (execute find burn s).cpus c = ((List.finRange m).foldl (executeOn find burn) s).cpus c from rfl, key.2,
    if_pos (List.mem_finRange c)]

end

theorem Executed.coherent {s s' : Sim n m} (he : Executed s s') (h : Coherent s) (ha : Alive s) : Coherent s' where
  pid_inj := fun i j hij => h.pid_inj (by simpa [he.processes] using hij)
  pid_pos := fun i => by rw [he.processes i]; exact h.pid_pos i
  running := fun i => by simp only [he.isRunning, he.pid, he.processes i]; exact h.running i
  unique := fun i c c' => by simp only [he.pid, he.processes i]; exact h.unique i c c'
  resolves := fun c hc => by
    rw [he.pid] at hc ⊢
    obtain ⟨i, hi⟩ := h.resolves c hc
    exact ⟨i, by rw [he.processes i]; exact hi⟩
  bounds := fun i => by
    have hb := h.bounds i
    rw [he.processes i]
    by_cases hi : s.isRunning i = true
    · have := ha i hi
      simp only [hi, if_true]; omega
    · simp only [hi]; simpa using hb

/-! ## The invariant along a run -/

structure Columns (s : Sim n m) (t₀ : Nat) : Prop where
  once : ∀ t c c', s.timeline c t = s.timeline c' t → s.timeline c t ≠ 0 → c = c'
  clean : ∀ c t, t₀ ≤ t → s.timeline c t = 0

theorem Columns.quiet {s s' : Sim n m} {t₀ : Nat} (h : Columns s t₀) (e : s'.timeline = s.timeline) : Columns s' t₀ :=
  ⟨by rw [e]; exact h.once, by rw [e]; exact h.clean⟩

theorem Executed.columns {s s' : Sim n m} (he : Executed s s') (h : Coherent s) (hc : Columns s s.time) :
    Columns s' (s.time + 1) where
  once := fun t c c' heq hne => by
    by_cases ht : t = s.time
    · subst ht
      rw [he.column c] at hne
      have hb : (s.cpus c).currentPid ≠ -1 := fun e => hne (by rw [if_pos e])
      obtain ⟨i, hi⟩ := h.resolves c hb
      rw [he.column c, he.column c', if_neg hb] at heq
      have hb' : (s.cpus c').currentPid ≠ -1 := by
        intro e
        rw [if_pos e, hi] at heq
        have := h.pid_pos i
        omega
      rw [if_neg hb'] at heq
      exact h.unique i c c' hi (heq ▸ hi)
    · rw [he.past c t ht, he.past c' t ht] at heq
      rw [he.past c t ht] at hne
      exact hc.once t c c' heq hne
  clean := fun c t ht => by
    rw [he.past c t (by omega)]
    exact hc.clean c t (by omega)

structure NoDouble (s : Sim n m) : Prop where
  running_iff : ∀ i, s.isRunning i = true ↔ ∃! c, (s.cpus c).currentPid = (s.processes i).pid
  idle_iff : ∀ i, s.isRunning i = false ↔ ∀ c, (s.cpus c).currentPid ≠ (s.processes i).pid
  resolves : ∀ c, (s.cpus c).currentPid ≠ -1 → ∃ i, (s.cpus c).currentPid = (s.processes i).pid
  remaining : ∀ i, 0 ≤ (s.processes i).remainingTime ∧ (s.processes i).remainingTime ≤ (s.processes i).burstTime
  once : ∀ t c c', s.timeline c t = s.timeline c' t → s.timeline c t ≠ 0 → c = c'

theorem noDouble_of {s : Sim n m} {t₀ : Nat} (h : Coherent s) (hc : Columns s t₀) : NoDouble s where
  running_iff := fun i => by
    rw [h.running i]
    exact ⟨fun ⟨c, hcp⟩ => ⟨c, hcp, fun c' hc' => h.unique i c' c hc' hcp⟩, fun ⟨c, hcp, _⟩ => ⟨c, hcp⟩⟩
  idle_iff := fun i => by rw [Bool.eq_false_iff, ne_eq, h.running i, not_exists]
  resolves := h.resolves
  remaining := h.bounds
  once := hc.once

structure Sound (first act : Sim n m → Sim n m) (mids : List (Sim n m → Sim n m)) : Prop where
  first : ∀ s, Coherent s → Coherent (first s) ∧ Alive (first s) ∧ (first s).time = s.time ∧
    (first s).timeline = s.timeline
  mids : ∀ f ∈ mids, ∀ s, Coherent s → Alive s → (Coherent (f s) ∧ Alive (f s)) ∧ (f s).time = s.time ∧
    (f s).timeline = s.timeline
  act : ∀ s, Coherent s → Columns s s.time → Executed s (act s)

/-- **Run lemma.** Every state of a scheduler with sound steps is coherent, and
between STEP 1 and execution only unfinished processes are on the CPUs. -/
theorem Sound.run {first act : Sim n m → Sim n m} {mids : List (Sim n m → Sim n m)} (hS : Sound first act mids)
    {ps : Fin n → Process} (hw : Workload ps) {rest : List (Sim n m → Sim n m)} {s : Sim n m}
    (h : At guard (first :: (mids ++ [act, advance])) (init ps) rest s) :
    (rest = [] ∧ Coherent s ∧ Columns s s.time) ∨
    (rest = first :: (mids ++ [act, advance]) ∧ guard s ∧ Coherent s ∧ Columns s s.time) ∨
    (∃ k, rest = mids.drop k ++ [act, advance] ∧ Coherent s ∧ Alive s ∧ Columns s s.time) ∨
    (rest = [advance] ∧ Coherent s ∧ Columns s (s.time + 1)) := by
  refine At.outline (H := fun s => Coherent s ∧ Columns s s.time)
    (M := fun s => Coherent s ∧ Alive s ∧ Columns s s.time)
    (D := fun s => Coherent s ∧ Columns s (s.time + 1)) ?_ ?_ ?_ ?_ ?_ h
  · exact ⟨coherent_init hw.toUnstarted, fun _ _ _ _ hne => absurd rfl hne, fun _ _ _ => rfl⟩
  · intro s _ ⟨hc, hcol⟩
    obtain ⟨h1, h2, ht, htl⟩ := hS.first s hc
    exact ⟨h1, h2, by rw [ht]; exact hcol.quiet htl⟩
  · intro f hf s ⟨hc, ha, hcol⟩
    obtain ⟨⟨h1, h2⟩, ht, htl⟩ := hS.mids f hf s hc ha
    exact ⟨h1, h2, by rw [ht]; exact hcol.quiet htl⟩
  · intro s ⟨hc, ha, hcol⟩
    have he := hS.act s hc hcol
    exact ⟨he.coherent hc ha, by rw [he.time]; exact he.columns hc hcol⟩
  · intro s ⟨hc, hcol⟩
    exact ⟨⟨hc.pid_inj, hc.pid_pos, hc.running, hc.unique, hc.resolves, hc.bounds⟩, hcol.once, hcol.clean⟩

theorem Sound.head {first act : Sim n m → Sim n m} {mids : List (Sim n m → Sim n m)} (hS : Sound first act mids)
    {ps : Fin n → Process} (hw : Workload ps) {s : Sim n m}
    (h : At guard (first :: (mids ++ [act, advance])) (init ps) [] s) : Coherent s ∧ Columns s s.time := by
  rcases hS.run hw h with ⟨_, hc⟩ | ⟨h0, _⟩ | ⟨k, h0, _⟩ | ⟨h0, _⟩
  · exact hc
  · cases h0
  · simp at h0
  · cases h0

theorem Sound.beforeAct {first act : Sim n m → Sim n m} {mids : List (Sim n m → Sim n m)} (hS : Sound first act mids)
    {ps : Fin n → Process} (hw : Workload ps) {s : Sim n m}
    (h : At guard (first :: (mids ++ [act, advance])) (init ps) [act, advance] s) :
    Coherent s ∧ Alive s ∧ Columns s s.time := by
  rcases hS.run hw h with ⟨h0, _⟩ | ⟨h0, _⟩ | ⟨_, _, hc⟩ | ⟨h0, _⟩
  · cases h0
  · have := congrArg List.length h0
    simp at this
  · exact hc
  · have := congrArg List.length h0
    simp at this

theorem Sound.tickWith {first act : Sim n m → Sim n m} {mids : List (Sim n m → Sim n m)} (hS : Sound first act mids)
    {P : Sim n m → Prop} {ps : Fin n → Process} (hw : Workload ps) {s : Sim n m}
    (h : At guard (first :: (mids ++ [act, advance])) (init ps) [] s) (hg : guard s) (hfirst : P (first s))
    (hmids : ∀ f ∈ mids, ∀ a, Coherent a → Alive a → P a → P (f a)) :
    ∃ a, At guard (first :: (mids ++ [act, advance])) (init ps) [act, advance] a ∧ P a ∧ a.time = s.time ∧
      a.timeline = s.timeline ∧ Executed a (act a) ∧ body (first :: (mids ++ [act, advance])) s = advance (act a) := by
  have mid : ∀ l a, (∀ f ∈ l, f ∈ mids) → Coherent a → Alive a → P a →
      At guard (first :: (mids ++ [act, advance])) (init ps) (l ++ [act, advance]) a →
      ∃ b, At guard (first :: (mids ++ [act, advance])) (init ps) [act, advance] b ∧ P b ∧ b.time = a.time ∧
        b.timeline = a.timeline ∧ (l ++ [act, advance]).foldl (fun s f => f s) a = advance (act b) := by
    intro l
    induction l with
    | nil => intro a _ _ _ hP hat; exact ⟨a, hat, hP, rfl, rfl, rfl⟩
    | cons f l ih =>
      intro a hl hc ha hP hat
      have hf := hl f List.mem_cons_self
      obtain ⟨⟨hc', ha'⟩, ht, htl⟩ := hS.mids f hf a hc ha
      obtain ⟨b, hb, hPb, hbt, hbtl, e⟩ := ih (f a) (fun g hg => hl g (List.mem_cons_of_mem _ hg)) hc' ha'
        (hmids f hf a hc ha hP) hat.step
      exact ⟨b, hb, hPb, hbt.trans ht, hbtl.trans htl, e⟩
  obtain ⟨hc, ha, ht, htl⟩ := hS.first s (hS.head hw h).1
  obtain ⟨b, hb, hPb, hbt, hbtl, e⟩ := mid mids (first s) (fun _ hf => hf) hc ha hfirst (h.enter hg).step
  obtain ⟨hbc, _, hcol⟩ := hS.beforeAct hw hb
  exact ⟨b, hb, hPb, hbt.trans ht, hbtl.trans htl, hS.act b hbc hcol, e⟩

theorem Sound.tick {first act : Sim n m → Sim n m} {mids : List (Sim n m → Sim n m)} (hS : Sound first act mids)
    {ps : Fin n → Process} (hw : Workload ps) {s : Sim n m}
    (h : At guard (first :: (mids ++ [act, advance])) (init ps) [] s) (hg : guard s) :
    ∃ a, At guard (first :: (mids ++ [act, advance])) (init ps) [act, advance] a ∧ a.time = s.time ∧
      a.timeline = s.timeline ∧ Executed a (act a) ∧ body (first :: (mids ++ [act, advance])) s = advance (act a) := by
  obtain ⟨a, hat, _, hrest⟩ := hS.tickWith (P := fun _ => True) hw h hg trivial fun _ _ _ _ _ hP => hP
  exact ⟨a, hat, hrest⟩

theorem Sound.exit {first act : Sim n m → Sim n m} {mids : List (Sim n m → Sim n m)} (hS : Sound first act mids)
    {ps : Fin n → Process} (hw : Workload ps) :
    ¬ guard (loop guard (first :: (mids ++ [act, advance])) maxTime (init ps)) := by
  apply At.loop_exit (fun s : Sim n m => maxTime - s.time) _ maxTime At.start (Nat.sub_le _ _)
  intro s h hg
  obtain ⟨a, _, ht, _, he, hb⟩ := hS.tick hw h hg
  have := hg.2
  simp only [hb, advance, he.time, ht]
  omega

section
variable {first act : Sim n m → Sim n m} {mids : List (Sim n m → Sim n m)} (hS : Sound first act mids)
  {ps : Fin n → Process} (hw : Workload ps)
include hS hw

theorem Sound.head_unique {s s' : Sim n m} (h : At guard (first :: (mids ++ [act, advance])) (init ps) [] s)
    (h' : At guard (first :: (mids ++ [act, advance])) (init ps) [] s') (ht : s.time = s'.time) : s = s' := by
  have key : ∀ k, (∀ j < k, guard ((body (first :: (mids ++ [act, advance])))^[j] (init ps))) →
      At guard (first :: (mids ++ [act, advance])) (init ps) [] ((body (first :: (mids ++ [act, advance])))^[k] (init ps)) ∧
      ((body (first :: (mids ++ [act, advance])))^[k] (init ps)).time = k := by
    intro k
    induction k with
    | zero => intro _; exact ⟨.start, rfl⟩
    | succ k ih =>
      intro hk
      obtain ⟨hat, htime⟩ := ih fun j hj => hk j (Nat.lt_succ_of_lt hj)
      rw [Function.iterate_succ_apply']
      obtain ⟨a, _, hta, _, he, hb⟩ := hS.tick hw hat (hk k (Nat.lt_succ_self k))
      refine ⟨hat.iterate (hk k (Nat.lt_succ_self k)), ?_⟩
      simp only [hb, advance, he.time, hta, htime]
  obtain ⟨k, rfl, hk⟩ := h.iterate_eq
  obtain ⟨k', rfl, hk'⟩ := h'.iterate_eq
  rw [(key k hk).2, (key k' hk').2] at ht
  rw [ht]

theorem Sound.past {b s : Sim n m} (hb : At guard (first :: (mids ++ [act, advance])) (init ps) [] b)
    (h : At guard (first :: (mids ++ [act, advance])) (init ps) [] s) (hg : ¬ guard s) (c : Fin m) {u : Nat}
    (hu : u < b.time) : s.timeline c u = b.timeline c u := by
  have key := At.iteration (P := fun s => b.time ≤ s.time ∧ s.timeline c u = b.timeline c u) ⟨Nat.le_refl _, rfl⟩ (by
    intro s hs hg ⟨hle, ih⟩
    obtain ⟨a, _, ht, htl, he, e⟩ := hS.tick hw (hb.trans hs) hg
    rw [e]
    simp only [advance, he.time, ht]
    rw [he.past c u (by omega), htl]
    exact ⟨by omega, ih⟩) (hb.to_exit h hg)
  exact key.2

end

theorem Sound.noDouble {first act : Sim n m → Sim n m} {mids : List (Sim n m → Sim n m)}
    (hS : Sound first act mids) {ps : Fin n → Process} (hw : Workload ps) {rest : List (Sim n m → Sim n m)}
    {s : Sim n m} (h : At guard (first :: (mids ++ [act, advance])) (init ps) rest s) : NoDouble s := by
  rcases hS.run hw h with ⟨_, hc, hcol⟩ | ⟨_, _, hc, hcol⟩ | ⟨_, _, hc, _, hcol⟩ | ⟨_, hc, hcol⟩ <;>
    exact noDouble_of hc hcol

end Sim
end OsLab
