import OsLab.Chart
import OsLab.Ledger

/-!
# Metrics of the tick schedulers

For each scheduler: its steps before execution leave the remaining times alone,
its accounts are right, and the metrics of every counted process are those that
its recording step computes from the completion time.
-/

namespace OsLab
namespace Sim
variable {n m : Nat}

/-! ## Steps that leave the remaining times alone -/

section
variable {find : (Fin n → Process) → Int → Option (Fin n)} {record : Sim n m → Fin n → Sim n m}
  {expire : Sim n m → Fin m → Fin n → Sim n m}

theorem finish_lawful (hf : Finds find) (hr : ∀ s i, SameCore s (record s i)) (he : ExpireOk expire)
    {s : Sim n m} (h : Coherent s) : (∀ i, core ((finish find record expire s).processes i) = core (s.processes i)) ∧
      ∀ i, (finish find record expire s).isRunning i = true → s.isRunning i = true := by
  have key := foldl_keeps (f := finishOn find record expire) (b := s)
    (P := fun a : Sim n m => Coherent a ∧ (∀ i, core (a.processes i) = core (s.processes i)) ∧
      ∀ i, a.isRunning i = true → s.isRunning i = true) (List.finRange m) (by
      intro a c _ ⟨hco, hcore, hrun⟩
      have R := finishOn_released hf hr he hco c
      refine ⟨R.coherent, fun i => (R.core i).trans (hcore i), fun i hi => ?_⟩
      have hfree : ∀ (a₁ : Sim n m) j, a₁.isRunning = a.isRunning → (a₁.free c j).isRunning i = true →
          a.isRunning i = true := by
        intro a₁ j e hi
        by_cases hij : i = j
        · subst hij; simp [Sim.free] at hi
        · simpa [Sim.free, hij, e] using hi
      apply hrun i
      rcases @finishOn_cases n m find record expire hf a hco c with ⟨_, e⟩ | ⟨j, _, ⟨_, e⟩ | ⟨_, e⟩⟩
      · rwa [e] at hi
      · rw [e] at hi
        exact hfree _ j (hr a j).isRunning hi
      · rw [e] at hi
        obtain ⟨a₁, hs, e₁ | e₁⟩ := he a c j
        · rw [e₁, hs.isRunning] at hi; exact hi
        · rw [e₁] at hi
          exact hfree a₁ j hs.isRunning hi) ⟨h, fun _ => rfl, fun _ hi => hi⟩
  exact key.2

end

section
variable {pick : Sim n m → Option (Fin n)} {charge : Sim n m → Sim n m} {timeLeft : Processor → Process → Int}
  (hp : ∀ s i, pick s = some i → s.ready i = true) (hch : ∀ s, SameCore s (charge s))
include hp hch

theorem assign_lawful (s : Sim n m) : (∀ i, core ((assign pick charge timeLeft s).processes i) = core (s.processes i)) ∧
    ∀ i, (assign pick charge timeLeft s).isRunning i = true → s.isRunning i = true ∨ s.ready i = true := by
  have key := foldl_keeps (f := assignOn pick charge timeLeft) (b := s)
    (P := fun a : Sim n m => (∀ i, core (a.processes i) = core (s.processes i)) ∧ a.time = s.time ∧
      ∀ i, a.isRunning i = true → s.isRunning i = true ∨ s.ready i = true) (List.finRange m) (by
      intro a c _ ⟨hcore, ht, hrun⟩
      have hs := hch a
      rcases @assignOn_cases n m pick charge timeLeft a c with ⟨_, e⟩ | ⟨_, _, e⟩ | ⟨j, _, hj, e⟩
      · rw [e]; exact ⟨hcore, ht, hrun⟩
      · rw [e]
        exact ⟨fun i => (hs.core i).trans (hcore i), hs.time.trans ht, fun i hi => hrun i (by rwa [hs.isRunning] at hi)⟩
      · rw [e]
        refine ⟨fun i => (hs.core i).trans (hcore i), hs.time.trans ht, fun i hi => ?_⟩
        by_cases hij : i = j
        · -- the dispatched process was ready before, or has been running all along
          subst hij
          obtain ⟨h1, h2, _⟩ := ready_iff.mp (hp a i hj)
          rw [core_arrival (hcore i), ht] at h1
          rw [core_remaining (hcore i)] at h2
          cases hr : s.isRunning i with
          | true => exact Or.inl rfl
          | false => exact Or.inr (ready_iff.mpr ⟨h1, h2, hr⟩)
        · simp only [dispatch, Function.update_of_ne hij, hs.isRunning] at hi
          exact hrun i hi) ⟨fun _ => rfl, rfl, fun _ hi => Or.inl hi⟩
  exact ⟨key.1, key.2.2⟩

end

theorem edfPreempt_lawful {s : Sim n m} (h : Coherent s) (ha : Alive s) :
    (edfPreempt s).processes = s.processes ∧ ∀ i, (edfPreempt s).isRunning i = true → s.isRunning i = true := by
  have key := foldl_keeps (f := edfPreemptOn) (b := s)
    (P := fun a : Sim n m => (Coherent a ∧ Alive a) ∧ a.processes = s.processes ∧
      ∀ i, a.isRunning i = true → s.isRunning i = true) (List.finRange n) (by
      intro a j _ ⟨⟨hco, hal⟩, hps, hrun⟩
      refine ⟨(edfPreemptOn_coherent hco hal j).1, ?_⟩
      rcases edfPreemptOn_cases hco j with ⟨e, _⟩ | ⟨c, k, _, _, _, _, e⟩
      · rw [e]; exact ⟨hps, hrun⟩
      · rw [e]
        refine ⟨hps, fun i hi => hrun i ?_⟩
        by_cases hik : i = k
        · subst hik; simp [Sim.free] at hi
        · simpa [Sim.free, hik] using hi) ⟨⟨h, ha⟩, rfl, fun _ hi => hi⟩
  exact key.2

theorem fcfs_lawful : Lawful (fcfsFinish (n := n) (m := m)) [fcfsAssign] where
  first := fun _ h => finish_lawful findLast_finds record_same keepCpu_ok h
  mids := fun f hf s _ _ => by
    rw [List.mem_singleton] at hf
    subst hf
    exact assign_lawful fcfsPick_ready SameCore.refl s

theorem mlfq_lawful : Lawful (mlfqFinish (n := n) (m := m)) [mlfqAssign] where
  first := fun _ h => finish_lawful findLast_finds record_same mlfqExpire_ok h
  mids := fun f hf s _ _ => by
    rw [List.mem_singleton] at hf
    subst hf
    exact assign_lawful mlfqPick_ready SameCore.refl s

theorem lottery_lawful (rand : Nat → Nat) : Lawful (lotteryFinish (n := n) (m := m)) [lotteryAssign rand] where
  first := fun _ h => finish_lawful findLast_finds lotteryRecord_same keepCpu_ok h
  mids := fun f hf s _ _ => by
    rw [List.mem_singleton] at hf
    subst hf
    exact assign_lawful (lotteryPick_ready rand) lotteryCharge_same s

theorem edf_lawful : Lawful (edfFinish (n := n) (m := m)) [edfPreempt, edfAssign] where
  first := fun _ h => finish_lawful findFirst_finds edfRecord_same keepCpu_ok h
  mids := fun f hf s h ha => by
    simp only [List.mem_cons, List.not_mem_nil, or_false] at hf
    rcases hf with rfl | rfl
    · obtain ⟨hps, hrun⟩ := edfPreempt_lawful h ha
      exact ⟨fun i => by rw [hps], fun i hi => Or.inl (hrun i hi)⟩
    · exact assign_lawful edfPick_ready SameCore.refl s

/-! ## Accounts -/

theorem assign_frame {pick : Sim n m → Option (Fin n)} {charge : Sim n m → Sim n m}
    {timeLeft : Processor → Process → Int} (hch : ∀ s, SameCore s (charge s))
    (hps : ∀ s, (charge s).processes = s.processes) (s : Sim n m) :
    (assign pick charge timeLeft s).processes = s.processes ∧ (assign pick charge timeLeft s).completed = s.completed := by
  apply foldl_keeps (P := fun a : Sim n m => a.processes = s.processes ∧ a.completed = s.completed) _ _ ⟨rfl, rfl⟩
  intro a c _ ha
  have hc := (hch a).completed
  rcases @assignOn_cases n m pick charge timeLeft a c with ⟨_, e⟩ | ⟨_, _, e⟩ | ⟨i, _, _, e⟩
  · rw [e]; exact ha
  · rw [e]; exact ⟨(hps a).trans ha.1, hc.trans ha.2⟩
  · rw [e]; exact ⟨(hps a).trans ha.1, hc.trans ha.2⟩

theorem edfPreempt_frame (s : Sim n m) : (edfPreempt s).processes = s.processes ∧
    (edfPreempt s).completed = s.completed ∧ (edfPreempt s).deadlineMisses = s.deadlineMisses := by
  apply foldl_keeps (P := fun a : Sim n m => a.processes = s.processes ∧ a.completed = s.completed ∧
    a.deadlineMisses = s.deadlineMisses) _ _ ⟨rfl, rfl, rfl⟩
  intro a i _ ha
  unfold edfPreemptOn
  split
  · cases a.edfWorst with
    | mk w d =>
      cases w with
      | none => exact ha
      | some c =>
        simp only
        split
        · cases findFirst a.processes (a.cpus c).currentPid with
          | none => exact ha
          | some k => exact ha
        · exact ha
  · exact ha

theorem lotteryCharge_processes (s : Sim n m) : (lotteryCharge s).processes = s.processes := by
  unfold lotteryCharge
  split <;> rfl

theorem Accounts.of_frame {stamp : Nat → Int → Int} {first : Sim n m → Sim n m} {mids : List (Sim n m → Sim n m)}
    (hfirst : ∀ s, Coherent s → Clean s s.time → Ledger stamp s s.time → Ledger stamp (first s) s.time)
    (hmids : ∀ f ∈ mids, ∀ s : Sim n m, (f s).processes = s.processes ∧ (f s).completed = s.completed) :
    Accounts stamp first mids where
  first := hfirst
  mids := fun f hf s _ _ => by
    obtain ⟨h1, h2⟩ := hmids f hf s
    exact ⟨fun i => by rw [h1], fun i => by rw [h1], h2⟩

theorem recordStamps : Stamps (n := n) (m := m) (fun t io => (t : Int) + io) record where
  same := record_same
  stamp := fun s i => by simp [record, setProcess]
  others := fun s i j hj => by simp [record, setProcess, hj]

theorem edfStamps : Stamps (n := n) (m := m) (fun t io => (t : Int) + io) edfRecord where
  same := edfRecord_same
  stamp := fun s i => by
    unfold edfRecord
    simp only
    split <;> simp [record, setProcess]
  others := fun s i j hj => by
    unfold edfRecord
    simp only
    split <;> simp [record, setProcess, hj]

theorem lotteryStamps : Stamps (n := n) (m := m) (fun t _ => (t : Int)) lotteryRecord where
  same := lotteryRecord_same
  stamp := fun s i => by simp [lotteryRecord, setProcess]
  others := fun s i j hj => by simp [lotteryRecord, setProcess, hj]

theorem mlfqExpire_quiet : ExpireQuiet (mlfqExpire (n := n) (m := m)) := by
  intro s c i hne
  unfold mlfqExpire
  split
  · have hd : core (mlfqDemote (s.processes i)) = core (s.processes i) := by
      unfold mlfqDemote
      split <;> rfl
    have hst : (mlfqDemote (s.processes i)).completionTime = (s.processes i).completionTime := by
      unfold mlfqDemote
      split <;> rfl
    refine ⟨core_update _ _ _ hd, rfl, rfl, fun j => ?_, fun j h0 => ?_⟩
    · by_cases hj : j = i
      · subst hj; simpa [Sim.free, setCpu, setProcess] using hst
      · simp [Sim.free, setCpu, setProcess, hj]
    · have hj : j ≠ i := fun e => hne (e ▸ h0)
      simp [Sim.free, setProcess, hj]
  · exact ⟨fun _ => rfl, rfl, rfl, fun _ => rfl, fun _ _ => rfl⟩

theorem fcfs_accounts : Accounts (n := n) (m := m) (fun t io => (t : Int) + io) fcfsFinish [fcfsAssign] :=
  .of_frame (fun _ hc hcl h => finish_ledger findLast_finds recordStamps keepCpu_ok keepCpu_quiet hc hcl h)
    fun f hf s => by
      rw [List.mem_singleton] at hf
      subst hf
      exact assign_frame SameCore.refl (fun _ => rfl) s

theorem mlfq_accounts : Accounts (n := n) (m := m) (fun t io => (t : Int) + io) mlfqFinish [mlfqAssign] :=
  .of_frame (fun _ hc hcl h => finish_ledger findLast_finds recordStamps mlfqExpire_ok mlfqExpire_quiet hc hcl h)
    fun f hf s => by
      rw [List.mem_singleton] at hf
      subst hf
      exact assign_frame SameCore.refl (fun _ => rfl) s

theorem lottery_accounts (rand : Nat → Nat) :
    Accounts (n := n) (m := m) (fun t _ => (t : Int)) lotteryFinish [lotteryAssign rand] :=
  .of_frame (fun _ hc hcl h => finish_ledger findLast_finds lotteryStamps keepCpu_ok keepCpu_quiet hc hcl h)
    fun f hf s => by
      rw [List.mem_singleton] at hf
      subst hf
      exact assign_frame lotteryCharge_same lotteryCharge_processes s

theorem lottery_accounts_zero (rand : Nat → Nat) :
    Accounts (n := n) (m := m) (fun t _ => (t : Int) + 0) lotteryFinish [lotteryAssign rand] := by
  simp only [Int.add_zero]
  exact lottery_accounts rand

theorem edf_frame {f : Sim n m → Sim n m} (hf : f ∈ [edfPreempt, edfAssign]) (s : Sim n m) :
    (f s).processes = s.processes ∧ (f s).completed = s.completed := by
  simp only [List.mem_cons, List.not_mem_nil, or_false] at hf
  rcases hf with rfl | rfl
  · exact ⟨(edfPreempt_frame s).1, (edfPreempt_frame s).2.1⟩
  · exact assign_frame SameCore.refl (fun _ => rfl) s

theorem edf_accounts : Accounts (n := n) (m := m) (fun t io => (t : Int) + io) edfFinish [edfPreempt, edfAssign] :=
  .of_frame (fun _ hc hcl h => finish_ledger findFirst_finds edfStamps keepCpu_ok keepCpu_quiet hc hcl h)
    fun _ hf s => edf_frame hf s

/-! ## Booked metrics -/

/-- `turnaround_time` and `waiting_time` as they are computed from
`completion_time`; `g` is what the scheduler makes of the I/O wait. -/
structure Derived (g : Int → Int) (p : Process) : Prop where
  turnaround : p.turnaroundTime = p.completionTime - p.arrivalTime
  waiting : p.waitingTime = p.turnaroundTime - p.burstTime - g p.ioWaitTime

def Booked (R : Process → Prop) (s : Sim n m) : Prop := ∀ i ∈ s.counted, R (s.processes i)

theorem booked_init {R : Process → Prop} {ps : Fin n → Process} (hw : Workload ps) : Booked R (init ps : Sim n m) := by
  intro i hi
  have h0 : (ps i).remainingTime = 0 := (mem_counted.mp hi).1
  have h1 := hw.fresh i
  have h2 := hw.burst_pos i
  omega

section
variable {R : Process → Prop} {find : (Fin n → Process) → Int → Option (Fin n)} {record : Sim n m → Fin n → Sim n m}
  {expire : Sim n m → Fin m → Fin n → Sim n m} {stamp : Nat → Int → Int}

def ExpireLocal (expire : Sim n m → Fin m → Fin n → Sim n m) : Prop :=
  ∀ s c i j, j ≠ i → (expire s c i).processes j = s.processes j

theorem keepCpu_local : ExpireLocal (keepCpu (n := n) (m := m)) := fun _ _ _ _ _ => rfl

theorem mlfqExpire_local : ExpireLocal (mlfqExpire (n := n) (m := m)) := by
  intro s c i j hj
  unfold mlfqExpire
  split
  · simp [Sim.free, setCpu, setProcess, hj]
  · rfl

theorem finish_booked (hf : Finds find) (hr : Stamps stamp record) (he : ExpireOk expire) (hq : ExpireQuiet expire)
    (hl : ExpireLocal expire) (hrec : ∀ s i, R ((record s i).processes i)) {s : Sim n m} (hco : Coherent s)
    (h : Booked R s) : Booked R (finish find record expire s) := by
  have key := foldl_keeps (f := finishOn find record expire) (b := s)
    (P := fun a : Sim n m => Coherent a ∧ Booked R a) (List.finRange m) (by
      intro a c _ ⟨hco, ha⟩
      refine ⟨(finishOn_released hf hr.same he hco c).coherent, fun j hj => ?_⟩
      rcases @finishOn_cases n m find record expire hf a hco c with ⟨_, e⟩ | ⟨i, _, ⟨_, e⟩ | ⟨h0, e⟩⟩
      · rw [e] at hj ⊢
        exact ha j hj
      · rw [e] at hj ⊢
        have hs := hr.same a i
        by_cases hji : j = i
        · subst hji; exact hrec a j
        · have hja : j ∈ a.counted := by
            rw [mem_counted] at hj ⊢
            simpa [Sim.free, setCpu, core_remaining (hs.core j), hs.isRunning, hji] using hj
          have := ha j hja
          rw [← hr.others a i j hji] at this
          exact this
      · rw [e] at hj ⊢
        have hs := hq a c i h0
        rw [mem_counted, core_remaining (hs.core j)] at hj
        have hji : j ≠ i := fun e' => h0 (e' ▸ hj.1)
        rw [hs.running j hj.1] at hj
        rw [hl a c i j hji]
        exact ha j (mem_counted.mpr hj)) ⟨hco, h⟩
  exact key.2

end

structure Books (R : Process → Prop) (first : Sim n m → Sim n m) (mids : List (Sim n m → Sim n m)) : Prop where
  first : ∀ s, Coherent s → Booked R s → Booked R (first s)
  mids : ∀ f ∈ mids, ∀ s : Sim n m, (f s).processes = s.processes

theorem Books.head {R : Process → Prop} {first act : Sim n m → Sim n m} {mids : List (Sim n m → Sim n m)}
    (hB : Books R first mids) (hS : Sound first act mids) {ps : Fin n → Process} (hw : Workload ps) {s : Sim n m}
    (h : At guard (first :: (mids ++ [act, advance])) (init ps) [] s) : Booked R s := by
  apply At.iteration (P := Booked R) (booked_init hw) _ h
  intro s hs hg ih
  obtain ⟨a, _, ha, _, _, he, hb⟩ := hS.tickWith (P := Booked R) hw hs hg (hB.first s (hS.head hw hs).1 ih) (by
    intro f hf a hco hal ha i hi
    have hps := hB.mids f hf a
    rw [mem_counted, hps] at hi
    rw [hps]
    apply ha
    -- a finished process is on no CPU before the step either
    exact mem_counted.mpr ⟨hi.1, hal.idle hi.1⟩)
  rw [hb]
  intro i hi
  have hi : ((act a).processes i).remainingTime = 0 ∧ (act a).isRunning i = false := mem_counted.mp hi
  have hsame : (act a).processes i = a.processes i := by
    rw [he.isRunning] at hi
    rw [he.processes i, hi.2]
    simp
  rw [hsame, he.isRunning] at hi
  have := ha i (mem_counted.mpr hi)
  rw [← hsame] at this
  exact this

theorem fcfs_books : Books (n := n) (m := m) (Derived id) fcfsFinish [fcfsAssign] where
  first := fun _ hc h => finish_booked findLast_finds recordStamps keepCpu_ok keepCpu_quiet keepCpu_local
    (fun s i => by constructor <;> simp [record, setProcess]) hc h
  mids := fun f hf s => by
    rw [List.mem_singleton] at hf
    subst hf
    exact (assign_frame SameCore.refl (fun _ => rfl) s).1

theorem mlfq_books : Books (n := n) (m := m) (Derived id) mlfqFinish [mlfqAssign] where
  first := fun _ hc h => finish_booked findLast_finds recordStamps mlfqExpire_ok mlfqExpire_quiet mlfqExpire_local
    (fun s i => by constructor <;> simp [record, setProcess]) hc h
  mids := fun f hf s => by
    rw [List.mem_singleton] at hf
    subst hf
    exact (assign_frame SameCore.refl (fun _ => rfl) s).1

theorem lottery_books (rand : Nat → Nat) :
    Books (n := n) (m := m) (Derived fun _ => 0) lotteryFinish [lotteryAssign rand] where
  first := fun _ hc h => finish_booked findLast_finds lotteryStamps keepCpu_ok keepCpu_quiet keepCpu_local
    (fun s i => by constructor <;> simp [lotteryRecord, setProcess]) hc h
  mids := fun f hf s => by
    rw [List.mem_singleton] at hf
    subst hf
    exact (assign_frame lotteryCharge_same lotteryCharge_processes s).1

theorem edf_books : Books (n := n) (m := m) (Derived id) edfFinish [edfPreempt, edfAssign] where
  first := fun _ hc h => finish_booked findFirst_finds edfStamps keepCpu_ok keepCpu_quiet keepCpu_local
    (fun s i => by
      unfold edfRecord
      simp only
      split <;> constructor <;> simp [record, setProcess]) hc h
  mids := fun _ hf s => (edf_frame hf s).1

/-! ## The outcome of a run -/

def LastTick (timeline : Fin m → Nat → Int) (pid : Int) (u : Nat) : Prop :=
  (∃ c, timeline c u = pid) ∧ ∀ c t, timeline c t = pid → t ≤ u

section
variable {ps : Fin n → Process} {time : Nat} {run : Fin n → Bool} {timeline timeline' : Fin m → Nat → Int}
  {processes processes' : Fin n → Process} (t : Ticked ps time run timeline timeline' processes processes')
  (hw : Workload ps) {i : Fin n}
include t hw

theorem Ticked.lastTick_now (hG : Gantt ps (time + 1) timeline' processes') (hi : run i = true) :
    LastTick timeline' (ps i).pid time := by
  refine ⟨t.placed i hi, fun c u hu => ?_⟩
  by_contra hlt
  have h1 := hG.clean c u (by omega)
  have h2 := hw.pid_pos i
  omega

theorem Ticked.lastTick_past (hG : Gantt ps time timeline processes) (hi : run i = false) {u : Nat}
    (h : LastTick timeline (ps i).pid u) : LastTick timeline' (ps i).pid u := by
  obtain ⟨⟨c, hc⟩, hlast⟩ := h
  have hpos := hw.pid_pos i
  have hu : u ≠ time := by
    intro e
    rw [e, hG.clean c _ (Nat.le_refl _)] at hc
    omega
  refine ⟨⟨c, by rw [t.past c u hu]; exact hc⟩, fun c' v hv => ?_⟩
  by_cases htt : v = time
  · exfalso
    rw [htt] at hv
    obtain ⟨j, hj, e⟩ := t.column c' (by omega)
    obtain rfl : i = j := hw.pid_inj (hv.symm.trans e)
    rw [hi] at hj
    cases hj
  · rw [t.past c' v htt] at hv
    exact hlast c' v hv

end

structure Recorded (g : Int → Int) (timeline : Fin m → Nat → Int) (p : Process) : Prop extends Derived g p where
  last : ∃ u, LastTick timeline p.pid u ∧ p.completionTime = (u : Int) + 1 + g p.ioWaitTime

/-- What is known at the head of the loop, for all schedulers alike: `counted`
are the processes that have been counted as completed. A finished process that
has not been counted was executed in the tick before. -/
structure Outcome (g : Int → Int) (ps : Fin n → Process) (time : Nat) (timeline : Fin m → Nat → Int)
    (processes : Fin n → Process) (completed : Nat) (counted : Finset (Fin n)) : Prop where
  gantt : Gantt ps time timeline processes
  count : completed = counted.card
  finished : ∀ i ∈ counted, (processes i).remainingTime = 0
  recorded : ∀ i ∈ counted, Recorded g timeline (processes i)
  late : ∀ i, (processes i).remainingTime = 0 → i ∉ counted → ∃ u, time = u + 1 ∧ ∃ c, timeline c u = (processes i).pid

section
variable {g : Int → Int} {first act : Sim n m → Sim n m} {mids : List (Sim n m → Sim n m)} (hS : Sound first act mids)
  (hL : Lawful first mids) (hA : Accounts (fun t io => (t : Int) + g io) first mids) (hB : Books (Derived g) first mids)
  {ps : Fin n → Process} (hw : Workload ps)
  (hcons : ∀ s, At guard (first :: (mids ++ [act, advance])) (init ps) [act, advance] s → WorkConserving s)
include hS hL hA hB hw hcons

theorem outcome_head {s : Sim n m} (h : At guard (first :: (mids ++ [act, advance])) (init ps) [] s) :
    Outcome g ps s.time s.timeline s.processes s.completed s.counted := by
  have hled := (hA.run hS hw h).1 (by simp)
  have hbook := hB.head hS hw h
  refine ⟨(Lawful.gantt hS hL hw hcons h).1, hled.completed, fun i hi => (mem_counted.mp hi).1, fun i hi => ?_,
    fun i h0 hi => ?_⟩
  · obtain ⟨h0, hr⟩ := mem_counted.mp hi
    obtain ⟨u, _, hc, hlast, hst⟩ := hled.stamped i h0 hr
    exact ⟨hbook i hi, u, ⟨hc, hlast⟩, by rw [hst]; push_cast; rfl⟩
  · apply hled.last i h0
    cases hr : s.isRunning i with
    | true => rfl
    | false => exact absurd (mem_counted.mpr ⟨h0, hr⟩) hi

end

end Sim
end OsLab
