import OsLab.Edf
import OsLab.Fcfs
import OsLab.Lottery
import OsLab.Mlfq
import OsLab.WorkStealSound

/-!
# The schedulers side by side

No scheduler runs a process on two CPUs, and none leaves a CPU idle while a
process that could run is waiting. For the latter the searches must not be
stopped by their sentinels, so facts about the fields they compare are carried
along the run.
-/

namespace OsLab
namespace Sim
variable {n m : Nat}

/-! ## Facts about each process -/

def Each (Q : Fin n → Process → Prop) (s : Sim n m) : Prop := ∀ i, Q i (s.processes i)

section
variable {Q : Fin n → Process → Prop}

theorem Each.setProcess {s : Sim n m} (h : Each Q s) {i : Fin n} {p : Process} (hp : Q i p) :
    Each Q (s.setProcess i p) := by
  intro j
  by_cases hj : j = i
  · subst hj; simpa [Sim.setProcess] using hp
  · simpa [Sim.setProcess, hj] using h j

theorem finish_each {find : (Fin n → Process) → Int → Option (Fin n)} {record : Sim n m → Fin n → Sim n m}
    {expire : Sim n m → Fin m → Fin n → Sim n m} (hr : ∀ s i, Each Q s → Each Q (record s i))
    (he : ∀ s c i, Each Q s → Each Q (expire s c i)) (s : Sim n m) (h : Each Q s) :
    Each Q (finish find record expire s) := by
  apply foldl_keeps (P := Each Q) _ _ h
  intro a c _ ha
  unfold finishOn
  split
  · cases find a.processes (a.cpus c).currentPid with
    | none => exact ha
    | some i =>
      simp only
      split
      · exact hr a i ha
      · exact he a c i ha
  · exact ha

theorem assign_each {pick : Sim n m → Option (Fin n)} {charge : Sim n m → Sim n m}
    {timeLeft : Processor → Process → Int} (hch : ∀ s, (charge s).processes = s.processes) (s : Sim n m)
    (h : Each Q s) : Each Q (assign pick charge timeLeft s) := by
  apply foldl_keeps (P := Each Q) _ _ h
  intro a c _ ha
  rcases @assignOn_cases n m pick charge timeLeft a c with ⟨_, e⟩ | ⟨_, _, e⟩ | ⟨i, _, _, e⟩
  · rw [e]; exact ha
  · intro j; rw [e, hch]; exact ha j
  · intro j; rw [e]; simp only [dispatch, setCpu, hch]; exact ha j

theorem execute_each (hQ : ∀ i p, Q i p → Q i { p with remainingTime := p.remainingTime - 1 })
    (find : (Fin n → Process) → Int → Option (Fin n)) (burn : Int) (s : Sim n m) (h : Each Q s) :
    Each Q (execute find burn s) := by
  apply foldl_keeps (P := Each Q) _ _ h
  intro a c _ ha
  unfold executeOn
  split
  · simp only [mark]
    cases find a.processes (a.cpus c).currentPid with
    | none => exact ha
    | some i => exact ha.setProcess (hQ i _ (ha i))
  · exact ha

theorem lotteryExecute_each (hQ : ∀ i p, Q i p → Q i { p with remainingTime := p.remainingTime - 1 })
    (s : Sim n m) (h : Each Q s) : Each Q (lotteryExecute s) := by
  apply foldl_keeps (P := Each Q) _ _ h
  intro a c _ ha
  unfold lotteryExecuteOn
  split
  · intro j
    change Q j (if _ then _ else _)
    split
    · exact hQ j _ (ha j)
    · exact ha j
  · exact ha

theorem edfPreempt_each (s : Sim n m) (h : Each Q s) : Each Q (edfPreempt s) := by
  apply foldl_keeps (P := Each Q) _ _ h
  intro a i _ ha
  unfold edfPreemptOn
  split
  · cases a.edfWorst with
    | mk w d =>
      cases w with
      | none => exact ha
      | some c =>
        simp only
        split
        · cases findFirst a.processes (a.cpus c).currentPid with
          | none => exact ha
          | some k => exact ha
        · exact ha
  · exact ha

theorem each_run {steps : List (Sim n m → Sim n m)} {s₀ : Sim n m}
    (hk : ∀ f ∈ steps, ∀ s, Each Q s → Each Q (f s)) (h₀ : Each Q s₀) {rest : List (Sim n m → Sim n m)}
    {s : Sim n m} (h : At guard steps s₀ rest s) : Each Q s :=
  At.invariant (P := fun _ s => Each Q s) h₀ (fun _ _ hs => hs)
    (fun f _ s hf hs => hk f (hf.subset List.mem_cons_self) s hs) h

end

/-! ## Idle CPUs -/

def WorkConserving (s : Sim n m) : Prop := (∃ c, (s.cpus c).currentPid = -1) →
  ∀ i, (s.processes i).arrivalTime ≤ s.time → 0 < (s.processes i).remainingTime →
    ∃ c, (s.cpus c).currentPid = (s.processes i).pid

section
variable {Q : Fin n → Process → Prop} {pick : Sim n m → Option (Fin n)} {charge : Sim n m → Sim n m}
  {timeLeft : Processor → Process → Int}
  (hp : ∀ s i, pick s = some i → s.ready i = true)
  (hch : ∀ s, SameCore s (charge s)) (hps : ∀ s, (charge s).processes = s.processes)
  (hpid : ∀ i p, Q i p → p.pid ≠ -1)
  (hnone : ∀ s, Each Q s → pick s = none → ∀ i, s.ready i = false)
include hp hch hps hpid hnone

theorem assign_idle {s : Sim n m} (h : Each Q s) {c : Fin m}
    (hc : ((assign pick charge timeLeft s).cpus c).currentPid = -1) (i : Fin n) :
    (assign pick charge timeLeft s).ready i = false := by
  have key := foldl_range (f := assignOn pick charge timeLeft) (b := s)
    (P := fun l a => Each Q a ∧ ((∃ c ∈ l, (a.cpus c).currentPid = -1) → ∀ i, a.ready i = false))
    (List.finRange m) ⟨h, fun ⟨_, hc, _⟩ => by cases hc⟩ (by
      intro l c a _ ⟨ha, hid⟩
      rcases @assignOn_cases n m pick charge timeLeft a c with ⟨hb, e⟩ | ⟨_, hn, e⟩ | ⟨j, _, hj, e⟩
      · rw [e]
        refine ⟨ha, fun ⟨c', hc', hi⟩ => hid ⟨c', ?_, hi⟩⟩
        rcases List.mem_append.mp hc' with hc' | hc'
        · exact hc'
        · rw [List.mem_singleton.mp hc'] at hi; exact absurd hi hb
      · rw [e]
        refine ⟨fun k => by rw [hps]; exact ha k, fun _ k => ?_⟩
        rw [(hch a).ready k]
        exact hnone a ha hn k
      · rw [e]
        refine ⟨fun k => by simp only [dispatch, setCpu, hps]; exact ha k, fun ⟨c', hc', hi⟩ => ?_⟩
        -- `c` is busy now, and no earlier CPU was idle: `j` was ready
        exfalso
        simp only [dispatch, setCpu] at hi
        by_cases hcc : c' = c
        · subst hcc
          rw [Function.update_self, hps] at hi
          exact hpid j _ (ha j) hi
        · rw [Function.update_of_ne hcc, (hch a).cpus] at hi
          have hl : c' ∈ l := by
            rcases List.mem_append.mp hc' with hc' | hc'
            · exact hc'
            · exact absurd (List.mem_singleton.mp hc') hcc
          have := hid ⟨c', hl, hi⟩ j
          rw [hp a j hj] at this
          cases this)
  exact key.2 ⟨c, List.mem_finRange c, hc⟩ i

theorem assign_conserving (mids : List (Sim n m → Sim n m)) {first act : Sim n m → Sim n m}
    (hS : Sound first act (mids ++ [assign pick charge timeLeft])) {ps : Fin n → Process} (hw : Workload ps)
    (hQ : ∀ {rest s}, At guard (first :: ((mids ++ [assign pick charge timeLeft]) ++ [act, advance])) (init ps) rest s →
      Each Q s) {s : Sim n m}
    (h : At guard (first :: ((mids ++ [assign pick charge timeLeft]) ++ [act, advance])) (init ps) [act, advance] s) :
    WorkConserving s := by
  obtain ⟨s', hs', rfl⟩ := h.back (f := assign pick charge timeLeft)
    ⟨first :: mids, by simp⟩
  intro ⟨c, hc⟩ i ha hr
  have hidle := assign_idle hp hch hps hpid hnone (hQ hs') hc i
  have hrun : (assign pick charge timeLeft s').isRunning i = true := by
    cases hb : (assign pick charge timeLeft s').isRunning i with
    | true => rfl
    | false => rw [ready_iff.mpr ⟨ha, hr, hb⟩] at hidle; cases hidle
  obtain ⟨c', hc', _⟩ := ((hS.noDouble hw h).running_iff i).mp hrun
  exact ⟨c', hc'⟩

end

/-! ## The tick schedulers -/

section
variable {ps : Fin n → Process}

theorem fcfs_conserving (hw : Workload ps) (ha : ∀ i, (ps i).arrivalTime < 9999) {s : Sim n m}
    (h : At guard fcfsSteps (fcfsInit ps) [fcfsExecute, advance] s) : WorkConserving s := by
  let Q : Fin n → Process → Prop := fun _ p => 0 < p.pid ∧ p.arrivalTime < 9999
  have h₀ : Each Q (fcfsInit ps : Sim n m) := by
    intro i
    obtain ⟨e, he⟩ := fcfsSort_perm ps
    simp only [fcfsInit, init, he]
    exact ⟨hw.pid_pos _, ha _⟩
  have hr : ∀ (s : Sim n m) i, Each Q s → Each Q (record s i) := fun s i hs => hs.setProcess (hs i)
  have hk : ∀ f ∈ (fcfsSteps : List (Sim n m → Sim n m)), ∀ s, Each Q s → Each Q (f s) := by
    intro f hf
    simp only [fcfsSteps, List.cons_append, List.nil_append, List.mem_cons, List.not_mem_nil, or_false] at hf
    rcases hf with rfl | rfl | rfl | rfl
    · exact finish_each hr fun _ _ _ hs => hs
    · exact assign_each fun _ => rfl
    · exact execute_each (fun _ _ hp => hp) _ _
    · exact fun _ hs => hs
  refine assign_conserving (Q := Q) fcfsPick_ready SameCore.refl (fun _ => rfl) ?_ ?_ [] fcfs_sound
    (fcfsSort_workload hw) (each_run hk h₀) h
  · intro i p hp; have := hp.1; omega
  · intro s hs hn i
    cases hi : s.ready i with
    | false => rfl
    | true => exact absurd (fcfsPick_none s hn i hi) (not_le.mpr (hs i).2)

theorem mlfq_conserving (hw : Workload ps) {s : Sim n m}
    (h : At guard mlfqSteps (mlfqInit ps) [mlfqExecute, advance] s) : WorkConserving s := by
  let Q : Fin n → Process → Prop := fun _ p => 0 < p.pid ∧ p.priority ≤ 2
  have h₀ : Each Q (mlfqInit ps : Sim n m) := fun i => ⟨hw.pid_pos i, by simp [mlfqInit, init, mlfqReset]⟩
  have hr : ∀ (s : Sim n m) i, Each Q s → Each Q (record s i) := fun s i hs => hs.setProcess (hs i)
  have he : ∀ (s : Sim n m) c i, Each Q s → Each Q (mlfqExpire s c i) := by
    intro s c i hs
    unfold mlfqExpire
    split
    · have hd : Q i (mlfqDemote (s.processes i)) := by
        have := hs i
        unfold mlfqDemote
        split
        · exact ⟨this.1, by simp only; omega⟩
        · exact this
      exact hs.setProcess hd
    · exact hs
  have hk : ∀ f ∈ (mlfqSteps : List (Sim n m → Sim n m)), ∀ s, Each Q s → Each Q (f s) := by
    intro f hf
    simp only [mlfqSteps, List.cons_append, List.nil_append, List.mem_cons, List.not_mem_nil, or_false] at hf
    rcases hf with rfl | rfl | rfl | rfl
    · exact finish_each hr he
    · exact assign_each fun _ => rfl
    · exact execute_each (fun _ _ hp => hp) _ _
    · exact fun _ hs => hs
  refine assign_conserving (Q := Q) mlfqPick_ready SameCore.refl (fun _ => rfl) ?_ ?_ [] mlfq_sound
    (mlfqReset_workload hw) (each_run hk h₀) h
  · intro i p hp; have := hp.1; omega
  · intro s hs hn i
    cases hi : s.ready i with
    | false => rfl
    | true =>
      have h1 := mlfqPick_none s hn i hi
      have h2 := (hs i).2
      omega

def static (p : Process) : Int × Int × Int × Int × Int :=
  (p.pid, p.arrivalTime, p.burstTime, p.deadline, p.ioWaitTime)

theorem static_of_core {p q : Process} (h : core p = core q) : static p = static q := by
  simp only [static, core_pid h, core_arrival h, core_burst h, core_deadline h, core_io h]

section
variable {p q : Process} (h : static p = static q)
include h

theorem static_pid : p.pid = q.pid := congrArg (·.1) h
theorem static_arrival : p.arrivalTime = q.arrivalTime := congrArg (·.2.1) h
theorem static_burst : p.burstTime = q.burstTime := congrArg (·.2.2.1) h
theorem static_deadline : p.deadline = q.deadline := congrArg (·.2.2.2.1) h
theorem static_io : p.ioWaitTime = q.ioWaitTime := congrArg (·.2.2.2.2) h

end

/-- **Run lemma.** The static fields, in a scheduler whose bookkeeping keeps the
core of every process. -/
theorem static_run {find find' : (Fin n → Process) → Int → Option (Fin n)} {record : Sim n m → Fin n → Sim n m}
    {expire : Sim n m → Fin m → Fin n → Sim n m} {pick : Sim n m → Option (Fin n)} {charge : Sim n m → Sim n m}
    {timeLeft : Processor → Process → Int} {burn : Int} {s₀ : Sim n m} (mids : List (Sim n m → Sim n m))
    (hr : ∀ s i j, core ((record s i).processes j) = core (s.processes j))
    (he : ∀ s c i j, core ((expire s c i).processes j) = core (s.processes j))
    (hm : ∀ f ∈ mids, ∀ s, Each (fun i p => static p = static (ps i)) s → Each (fun i p => static p = static (ps i)) (f s))
    (hch : ∀ s, (charge s).processes = s.processes) (h₀ : ∀ i, static (s₀.processes i) = static (ps i))
    {rest : List (Sim n m → Sim n m)} {s : Sim n m}
    (h : At guard (finish find record expire :: (mids ++ [assign pick charge timeLeft, execute find' burn, advance]))
      s₀ rest s) : Each (fun i p => static p = static (ps i)) s := by
  refine each_run (Q := fun i p => static p = static (ps i)) ?_ h₀ h
  intro f hf
  simp only [List.mem_cons, List.mem_append, List.not_mem_nil, or_false] at hf
  rcases hf with rfl | hf | rfl | rfl | rfl
  · exact finish_each (fun s i hs j => (static_of_core (hr s i j)).trans (hs j))
      fun s c i hs j => (static_of_core (he s c i j)).trans (hs j)
  · exact hm f hf
  · exact assign_each hch
  · exact execute_each (fun _ _ hp => hp) _ _
  · exact fun _ hs => hs

theorem edf_static {rest : List (Sim n m → Sim n m)} {s : Sim n m} (h : At guard edfSteps (init ps) rest s) :
    Each (fun i p => static p = static (ps i)) s :=
  static_run [edfPreempt] (fun s i => (edfRecord_same s i).core) (fun _ _ _ _ => rfl)
    (fun _ hf => by rw [List.mem_singleton.mp hf]; exact edfPreempt_each) (fun _ => rfl) (fun _ => rfl) h

theorem edf_conserving (hw : Workload ps) (hd : ∀ i, (ps i).deadline < 999999) {s : Sim n m}
    (h : At guard edfSteps (init ps) [edfExecute, advance] s) : WorkConserving s := by
  refine assign_conserving (Q := fun i p => static p = static (ps i)) edfPick_ready SameCore.refl (fun _ => rfl) ?_ ?_
    [edfPreempt] edf_sound hw edf_static h
  · intro i p hp
    have h1 := static_pid hp
    have h2 := hw.pid_pos i
    omega
  · intro s hs hn i
    cases hi : s.ready i with
    | false => rfl
    | true =>
      have h1 := static_deadline (hs i)
      have h2 := edfPick_none s hn i hi
      have h3 := hd i
      omega

theorem lotteryPick_none (rand : Nat → Nat) (s : Sim n m) (hpr : ∀ i, 0 ≤ (s.processes i).priority)
    (h : lotteryPick rand s = none) (i : Fin n) : s.ready i = false := by
  cases hi : s.ready i with
  | false => rfl
  | true =>
    have hpos := totalTickets_pos hpr hi
    have hlt := Int.emod_lt_of_pos (rand s.draws : Int) hpos
    unfold lotteryPick at h
    rw [if_pos hpos] at h
    -- the ticket is below the total, and then the draw has a winner
    obtain ⟨j, hj⟩ := lotteryDraw_some (s := s) _ (List.finRange n) 0 (Int.emod_nonneg _ (ne_of_gt hpos))
      (by rw [zero_add, ← totalTickets_eq]; exact hlt)
    rw [h] at hj
    cases hj

theorem lottery_conserving (rand : Nat → Nat) (hw : Workload ps) (hpr : ∀ i, 0 ≤ (ps i).priority) {s : Sim n m}
    (h : At guard (lotterySteps rand) (init ps) [lotteryExecute, advance] s) : WorkConserving s := by
  let Q : Fin n → Process → Prop := fun _ p => 0 < p.pid ∧ 0 ≤ p.priority
  have h₀ : Each Q (init ps : Sim n m) := fun i => ⟨hw.pid_pos i, hpr i⟩
  have hr : ∀ (s : Sim n m) i, Each Q s → Each Q (lotteryRecord s i) := fun s i hs => hs.setProcess (hs i)
  have hch : ∀ s : Sim n m, (lotteryCharge s).processes = s.processes := by
    intro s
    unfold lotteryCharge
    split <;> rfl
  have hk : ∀ f ∈ (lotterySteps rand : List (Sim n m → Sim n m)), ∀ s, Each Q s → Each Q (f s) := by
    intro f hf
    simp only [lotterySteps, List.cons_append, List.nil_append, List.mem_cons, List.not_mem_nil, or_false] at hf
    rcases hf with rfl | rfl | rfl | rfl
    · exact finish_each hr fun _ _ _ hs => hs
    · exact assign_each hch
    · exact lotteryExecute_each fun _ _ hp => hp
    · exact fun _ hs => hs
  refine assign_conserving (Q := Q) (lotteryPick_ready rand) lotteryCharge_same hch ?_ ?_ []
    (lottery_sound rand) hw (each_run hk h₀) h
  · intro i p hp; have := hp.1; omega
  · exact fun s hs hn => lotteryPick_none rand s (fun i => (hs i).2) hn

end

/-! ## Main results -/

structure InRange (p : Process) : Prop where
  arrival : 0 ≤ p.arrivalTime ∧ p.arrivalTime ≤ 4
  burst : 1 ≤ p.burstTime ∧ p.burstTime ≤ 10
  priority : 0 ≤ p.priority ∧ p.priority ≤ 4
  deadline : p.arrivalTime + p.burstTime ≤ p.deadline ∧ p.deadline ≤ 23
  io : 0 ≤ p.ioWaitTime ∧ p.ioWaitTime ≤ 2

theorem initializeTestData_inRange (rand : Nat → Nat) (p : Fin n → Process) (i : Fin n) :
    InRange (initializeTestData rand p i) := by
  constructor <;> simp only [initializeTestData] <;> omega

section
variable {p : Process} (h : InRange p)
include h

theorem InRange.arrival_lt : p.arrivalTime < 9999 := by
  have := h.arrival
  omega

theorem InRange.deadline_bounds : 0 ≤ p.deadline ∧ p.deadline < 999999 := by
  have h1 := h.arrival
  have h2 := h.burst
  have h3 := h.deadline
  omega

end

theorem initializeTestData_unstarted (rand : Nat → Nat) (p : Fin n → Process) :
    Unstarted (initializeTestData rand p) :=
  .of_pid (fun _ => rfl) (fun _ => rfl) fun i => (initializeTestData_inRange rand p i).burst.1

theorem initializeTestData_workload (hn : n ≤ 100) (rand : Nat → Nat) (p : Fin n → Process) :
    Workload (initializeTestData rand p) := ⟨initializeTestData_unstarted rand p, hn⟩

/-- **No double scheduling**, at every program point of every run of the four
tick schedulers. -/
theorem no_double_scheduling {ps : Fin n → Process} (hw : Workload ps) (rand : Nat → Nat)
    (rest : List (Sim n m → Sim n m)) (s : Sim n m) :
    (At guard fcfsSteps (fcfsInit ps) rest s → NoDouble s) ∧
    (At guard mlfqSteps (mlfqInit ps) rest s → NoDouble s) ∧
    (At guard (lotterySteps rand) (init ps) rest s → NoDouble s) ∧
    (At guard edfSteps (init ps) rest s → NoDouble s) :=
  ⟨fun h => fcfs_sound.noDouble (fcfsSort_workload hw) h, fun h => mlfq_sound.noDouble (mlfqReset_workload hw) h,
    fun h => (lottery_sound rand).noDouble hw h, fun h => edf_sound.noDouble hw h⟩

def countedProcesses (n : Nat) : Fin n → Process :=
  initializeTestData id fun _ => ⟨0, 0, 0, 0, 0, 0, 0, 0, 0, 0, 0, 0⟩

theorem no_double_scheduling_tick :
    NoDouble (body fcfsSteps (fcfsInit (countedProcesses 3) : Sim 3 2)) ∧
    NoDouble (body mlfqSteps (mlfqInit (countedProcesses 3) : Sim 3 2)) ∧
    NoDouble (body (lotterySteps id) (init (countedProcesses 3) : Sim 3 2)) ∧
    NoDouble (body edfSteps (init (countedProcesses 3) : Sim 3 2)) := by
  have hw : Workload (countedProcesses 3) := initializeTestData_workload (by decide) _ _
  exact ⟨(no_double_scheduling hw id [] _).1 (At.start.iterate (by decide)),
    (no_double_scheduling hw id [] _).2.1 (At.start.iterate (by decide)),
    (no_double_scheduling hw id [] _).2.2.1 (At.start.iterate (by decide)),
    (no_double_scheduling hw id [] _).2.2.2 (At.start.iterate (by decide))⟩

/-- **Work conservation**, after the assignment step of every tick, on the
workloads of `initialize_test_data`. -/
theorem work_conservation (hn : n ≤ 100) (hm : 1 ≤ m) (rand rand' : Nat → Nat) (p : Fin n → Process) :
    (∀ s : Sim n m, At guard fcfsSteps (fcfsInit (initializeTestData rand p)) [fcfsExecute, advance] s →
      WorkConserving s) ∧
    (∀ s : Sim n m, At guard mlfqSteps (mlfqInit (initializeTestData rand p)) [mlfqExecute, advance] s →
      WorkConserving s) ∧
    (∀ s : Sim n m, At guard (lotterySteps rand') (init (initializeTestData rand p)) [lotteryExecute, advance] s →
      WorkConserving s) ∧
    (∀ s : Sim n m, At guard edfSteps (init (initializeTestData rand p)) [edfExecute, advance] s →
      WorkConserving s) ∧
    (∀ s : WorkSim n m, At WorkSim.guard WorkSim.steps (WorkSim.init (initializeTestData rand p))
        [WorkSim.execute, WorkSim.advance] s → (∃ c, s.cores c = -1) →
      (∀ c, (s.queues c).size = 0) ∧ ∀ i, (s.processes i).arrivalTime ≤ s.currentTime →
        0 < (s.processes i).remainingTime → s.OnCore i) := by
  have hw := initializeTestData_workload hn rand p
  have hr := initializeTestData_inRange rand p
  refine ⟨fun s h => fcfs_conserving hw (fun i => (hr i).arrival_lt) h, fun s h => mlfq_conserving hw h,
    fun s h => lottery_conserving rand' hw (fun i => (hr i).priority.1) h,
    fun s h => edf_conserving hw (fun i => (hr i).deadline_bounds.2) h,
    fun s h => WorkSim.idle_after_assign hm hw.pid_inj ?_ (fun i => (hr i).arrival.1) h⟩
  intro i
  have := hw.pid_pos i
  omega

theorem work_conservation_tick :
    WorkConserving (fcfsAssign (fcfsFinish (fcfsInit (countedProcesses 1) : Sim 1 2))) ∧
    WorkConserving (mlfqAssign (mlfqFinish (mlfqInit (countedProcesses 1) : Sim 1 2))) ∧
    WorkConserving (lotteryAssign id (lotteryFinish (init (countedProcesses 1) : Sim 1 2))) ∧
    WorkConserving (edfAssign (edfPreempt (edfFinish (init (countedProcesses 1) : Sim 1 2)))) ∧
    (WorkSim.assign (WorkSim.load (WorkSim.init (countedProcesses 1) : WorkSim 1 2))).OnCore 0 := by
  obtain ⟨hf, hm, hl, he, hw⟩ := work_conservation (n := 1) (m := 2) (by decide) (by decide) id id
    fun _ => ⟨0, 0, 0, 0, 0, 0, 0, 0, 0, 0, 0, 0⟩
  exact ⟨hf _ (At.start.enter (by decide)).step.step, hm _ (At.start.enter (by decide)).step.step,
    hl _ (At.start.enter (by decide)).step.step, he _ (At.start.enter (by decide)).step.step.step,
    (hw _ (At.start.enter (by decide)).step.step ⟨1, by decide⟩).2 0 (by decide) (by decide)⟩

end Sim
end OsLab
