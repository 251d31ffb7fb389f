import OsLab.Runs
import OsLab.SchedUses

/-!
# Which accesses of the schedulers are in bounds

Every index that a scheduler uses is an index of a process, a CPU or a tick
that exists, whatever the workload. The arrays of fixed size are therefore
overrun only by the indices of processes beyond the hundredth; and these are
used in every run that has such a process.
-/

namespace OsLab

/-! ## Lists of accesses -/

/-- Every access is within bounds when the arrays of fixed size have an element
for each process. -/
def Covered (n m : Nat) (l : List Use) : Prop := ∀ u ∈ l, u.Within n n m

section
variable {n m : Nat}

theorem Use.Within.mono {k k' : Nat} (hk : k ≤ k') {u : Use} (h : u.Within k n m) : u.Within k' n m := by
  cases u <;> simp only [Use.Within] at h ⊢ <;> omega

theorem Covered.inBounds {l : List Use} (h : Covered n m l) (hn : n ≤ 100) : ∀ u ∈ l, u.InBounds n m :=
  fun u hu => (h u hu).mono hn

@[simp] theorem covered_nil : Covered n m [] := fun _ hu => by cases hu

@[simp] theorem covered_cons {u : Use} {l : List Use} : Covered n m (u :: l) ↔ u.Within n n m ∧ Covered n m l :=
  List.forall_mem_cons

@[simp] theorem covered_append {l l' : List Use} : Covered n m (l ++ l') ↔ Covered n m l ∧ Covered n m l' :=
  List.forall_mem_append

@[simp] theorem covered_flatMap {α : Type} {l : List α} {f : α → List Use} :
    Covered n m (l.flatMap f) ↔ ∀ a ∈ l, Covered n m (f a) := by
  simp only [Covered, List.mem_flatMap]
  exact ⟨fun h a ha u hu => h u ⟨a, ha, hu⟩, fun h u ⟨a, ha, hu⟩ => h a ha u hu⟩

@[simp] theorem covered_map {α : Type} {l : List α} {f : α → Use} :
    Covered n m (l.map f) ↔ ∀ a ∈ l, (f a).Within n n m := List.forall_mem_map

@[simp] theorem covered_ite {p : Prop} [Decidable p] {l l' : List Use} :
    Covered n m (if p then l else l') ↔ (p → Covered n m l) ∧ (¬ p → Covered n m l') := by
  split <;> simp [*]

variable (i : Fin n) (c : Fin m)

@[simp] theorem within_isRunning : (Use.isRunning i.val).Within n n m := by simp [Use.Within]
@[simp] theorem within_arrived : (Use.arrived i.val).Within n n m := by simp [Use.Within]
@[simp] theorem within_processes : (Use.processes i.val).Within n n m := by simp [Use.Within]
@[simp] theorem within_cpus : (Use.cpus c.val).Within n n m := by simp [Use.Within]
@[simp] theorem within_queues : (Use.queues c.val).Within n n m := by simp [Use.Within]

@[simp] theorem within_timeline {t : Nat} : (Use.timeline c.val t).Within n n m ↔ t < maxTime := by
  simp [Use.Within]

@[simp] theorem within_processIndices {k : Nat} : (Use.processIndices k).Within n n m ↔ k < n := by
  simp [Use.Within]

@[simp] theorem lookupUses_covered (ps : Fin n → Process) (pid : Int) (stop : Bool) (l : List (Fin n)) :
    Covered n m (lookupUses ps pid c stop l) := by
  induction l with
  | nil => simp [lookupUses]
  | cons j l ih => simp [lookupUses, ih]

theorem setupUses_covered : Covered n m (setupUses m) := by simp [setupUses]

theorem printUses_covered {time : Nat} (h : time ≤ maxTime) : Covered n m (printUses n m time) := by
  simp only [printUses, covered_append, covered_flatMap, covered_map, List.mem_range, within_timeline, within_processes]
  exact ⟨fun _ _ t ht => by omega, fun _ _ => trivial⟩

end

namespace Sim
variable {n m : Nat}

/-! ## The steps of a tick -/

theorem Coherent.found {find : (Fin n → Process) → Int → Option (Fin n)} (hf : Finds find) {s : Sim n m} (h : Coherent s)
    {c : Fin m} (hc : (s.cpus c).currentPid ≠ -1) : ∃ i, find s.processes (s.cpus c).currentPid = some i := by
  obtain ⟨i, hi⟩ := h.resolves c hc
  exact ⟨i, by rw [hi]; exact hf _ h.pid_inj i⟩

section
variable {find : (Fin n → Process) → Int → Option (Fin n)} {stop : Bool} {s : Sim n m} {c : Fin m}

theorem finishOnUses_covered {expire : Sim n m → Fin m → Fin n → List Use} (he : ∀ s c i, Covered n m (expire s c i))
    (hs : (s.cpus c).currentPid ≠ -1 → ∃ i, find s.processes (s.cpus c).currentPid = some i) :
    Covered n m (finishOnUses find stop expire s c) := by
  unfold finishOnUses
  by_cases hc : (s.cpus c).currentPid = -1
  · simp [hc]
  · obtain ⟨i, hi⟩ := hs hc
    simp [hi, he]

theorem executeOnUses_covered {burn : Int} (ht : s.time < maxTime)
    (hs : (s.cpus c).currentPid ≠ -1 → ∃ i, find s.processes (s.cpus c).currentPid = some i) :
    Covered n m (executeOnUses find stop burn s c) := by
  unfold executeOnUses
  by_cases hc : (s.cpus c).currentPid = -1
  · simp [hc, ht]
  · obtain ⟨i, hi⟩ := hs hc
    simp [hi, ht]

end

theorem finish_covered {find : (Fin n → Process) → Int → Option (Fin n)} {stop : Bool} {record : Sim n m → Fin n → Sim n m}
    {expire : Sim n m → Fin m → Fin n → Sim n m} {expireUses : Sim n m → Fin m → Fin n → List Use}
    (hf : Finds find) (hr : ∀ s i, SameCore s (record s i)) (he : ExpireOk expire)
    (hu : ∀ s c i, Covered n m (expireUses s c i)) {s : Sim n m} (h : Coherent s) :
    Covered n m (traced (finishOnUses find stop expireUses) (finishOn find record expire) (List.finRange m) s) :=
  traced_keeps (P := Coherent) (fun _ c ha => (finishOn_released hf hr he ha c).coherent)
    (fun _ _ ha => finishOnUses_covered hu (ha.found hf)) h

theorem execute_covered {find : (Fin n → Process) → Int → Option (Fin n)} {stop : Bool} (burn : Int) (hf : Finds find)
    {s : Sim n m} (h : Coherent s) (ht : s.time < maxTime) :
    Covered n m (traced (executeOnUses find stop burn) (executeOn find burn) (List.finRange m) s) := by
  refine traced_range (P := fun l a => ExecutedOn s a l) (ExecutedOn.nil s) (fun l c a hl he => ?_) fun l c a _ he => ?_
  · have hc := not_mem_visited (List.nodup_finRange m) hl
    rcases executeOn_cases hf burn h he c with ⟨hi, e⟩ | ⟨i, hci, e⟩
    · rw [e]; exact he.idle h hc hi
    · rw [e]; exact he.busy h hc hci _
  · apply executeOnUses_covered (by rw [he.time]; exact ht)
    rw [he.pid c]
    intro hc
    obtain ⟨i, hi⟩ := h.resolves c hc
    have hinj : Function.Injective fun i => (a.processes i).pid := by
      simp only [he.pid_eq]
      exact h.pid_inj
    exact ⟨i, by rw [hi, ← he.pid_eq i]; exact hf _ hinj i⟩

theorem readyUses_covered (s : Sim n m) (i : Fin n) : Covered n m (readyUses s i) := by simp [readyUses]

theorem scanUses_covered (s : Sim n m) : Covered n m (scanUses s) := by simp [scanUses, readyUses_covered]

theorem assign_covered {scan : Sim n m → List Use} (hscan : ∀ s, Covered n m (scan s)) {pick : Sim n m → Option (Fin n)}
    {f : Sim n m → Fin m → Sim n m} (s : Sim n m) :
    Covered n m (traced (assignOnUses scan pick) f (List.finRange m) s) := by
  refine traced_keeps (P := fun _ => True) (fun _ _ _ => trivial) (fun a c _ => ?_) trivial
  change Covered n m (assignOnUses scan pick a c)
  unfold assignOnUses
  cases pick a <;> simp [hscan]

theorem fcfsScanUses_covered (s : Sim n m) : Covered n m (fcfsScanUses s) := by
  refine traced_keeps (P := fun _ => True) (fun _ _ _ => trivial) (fun best i _ => ?_) trivial
  change Covered n m (fcfsScanOnUses s best i)
  unfold fcfsScanOnUses
  cases best.1 <;> simp [readyUses_covered]

theorem lotteryDrawUses_covered (s : Sim n m) (w : Int) : ∀ (l : List (Fin n)) (sum : Int),
    Covered n m (lotteryDrawUses s w sum l)
  | [], _ => by simp [lotteryDrawUses]
  | i :: l, sum => by simp [lotteryDrawUses, readyUses_covered, lotteryDrawUses_covered s w l]

theorem lotteryScanUses_covered (rand : Nat → Nat) (s : Sim n m) : Covered n m (lotteryScanUses rand s) := by
  simp [lotteryScanUses, scanUses_covered, lotteryDrawUses_covered]

theorem lotteryExecute_covered {s : Sim n m} (ht : s.time < maxTime) :
    Covered n m (traced lotteryExecuteOnUses lotteryExecuteOn (List.finRange m) s) := by
  refine traced_keeps (P := fun a : Sim n m => a.time < maxTime) (fun a c ha => ?_) (fun a c ha => ?_) ht
  · unfold lotteryExecuteOn
    split <;> exact ha
  · change Covered n m (lotteryExecuteOnUses a c)
    simp [lotteryExecuteOnUses, ha]

theorem edfPreemptOnUses_covered {s : Sim n m} (h : Coherent s) (i : Fin n) : Covered n m (edfPreemptOnUses s i) := by
  have worst : ∀ c, Covered n m (edfWorstOnUses s c) := by
    intro c
    unfold edfWorstOnUses
    by_cases hc : (s.cpus c).currentPid = -1
    · simp [hc]
    · obtain ⟨k, hk⟩ := h.found findFirst_finds hc
      simp [hk]
  have spec := scanMin_spec s.edfBusy (fun c => -s.edfDeadlineOn c) (List.finRange m)
  rw [← edfWorst_eq] at spec
  unfold edfPreemptOnUses
  cases hw : s.edfWorst with
  | mk w d =>
    cases w with
    | none => simp [worst]
    | some c =>
      -- the CPU found by the scan is busy
      obtain ⟨_, hb, _⟩ := spec.2 c (by rw [hw])
      simp only [edfBusy, Bool.and_eq_true, decide_eq_true_eq] at hb
      obtain ⟨k, hk⟩ := h.found findFirst_finds hb.1
      simp [worst, hk]

theorem edfPreempt_covered {s : Sim n m} (h : Coherent s) (ha : Alive s) :
    Covered n m (traced edfPreemptOnUses edfPreemptOn (List.finRange n) s) :=
  traced_keeps (P := fun a : Sim n m => Coherent a ∧ Alive a) (fun _ i hi => (edfPreemptOn_coherent hi.1 hi.2 i).1)
    (fun _ i hi => edfPreemptOnUses_covered hi.1 i) ⟨h, ha⟩

/-! ## Runs -/

def program (first : (Sim n m → Sim n m) × (Sim n m → List Use)) (mids : List ((Sim n m → Sim n m) × (Sim n m → List Use)))
    (act : (Sim n m → Sim n m) × (Sim n m → List Use)) : List ((Sim n m → Sim n m) × (Sim n m → List Use)) :=
  first :: (mids ++ [act, (advance, advanceUses)])

section
variable {first act : (Sim n m → Sim n m) × (Sim n m → List Use)} {mids : List ((Sim n m → Sim n m) × (Sim n m → List Use))}

theorem program_steps : (program first mids act).map Prod.fst = first.1 :: (mids.map Prod.fst ++ [act.1, advance]) := by
  simp [program]

theorem bodyTrace_program (s : Sim n m) : bodyTrace (program first mids act) s =
    first.2 s ++ (bodyTrace mids (first.1 s) ++ act.2 (body (mids.map Prod.fst) (first.1 s))) := by
  simp [program, bodyTrace, bodyTrace_append, advanceUses]

variable {stamp : Nat → Int → Int} (hA : Accounts stamp first.1 (mids.map Prod.fst))
  (hS : Sound first.1 act.1 (mids.map Prod.fst))
include hA hS

theorem program_covered (hfirst : ∀ s, Coherent s → Covered n m (first.2 s))
    (hmids : ∀ p ∈ mids, ∀ s, Coherent s → Alive s → Covered n m (p.2 s))
    (hact : ∀ s, Coherent s → s.time < maxTime → Covered n m (act.2 s)) {ps : Fin n → Process} (h : Unstarted ps)
    (fuel : Nat) : Covered n m (loopTrace guard (program first mids act) fuel (init ps)) := by
  have inner : ∀ l, (∀ p ∈ l, p ∈ mids) → ∀ s, Balanced stamp s s.time → Alive s → Covered n m (bodyTrace l s) := by
    intro l
    induction l with
    | nil => exact fun _ _ _ _ => covered_nil
    | cons p l ih =>
      intro hl s hb ha
      have hp := hl p List.mem_cons_self
      obtain ⟨hb', ha'⟩ := hb.mid hA hS ha (List.mem_map_of_mem hp)
      exact covered_append.mpr ⟨hmids p hp s hb.coherent ha,
        ih (fun q hq => hl q (List.mem_cons_of_mem p hq)) _ hb' ha'⟩
  intro u hu
  obtain ⟨k, _, hg, hu⟩ := mem_loopTrace.mp hu
  have hg := (hg k (Nat.le_refl k)).2
  have hb := (balanced_init (m := m) h).iterate hA hS k
  rw [program_steps] at hu hg
  generalize (body (first.1 :: (mids.map Prod.fst ++ [act.1, advance])))^[k] (init ps : Sim n m) = s at hu hg hb
  obtain ⟨h1, ha⟩ := hb.enter hA hS
  obtain ⟨h2, _, ht⟩ := h1.along hA hS ha _ fun _ hf => hf
  rw [bodyTrace_program] at hu
  have ht1 := (hS.first s hb.coherent).2.2.1
  have hcov : Covered n m (first.2 s ++ (bodyTrace mids (first.1 s) ++ act.2 (body (mids.map Prod.fst) (first.1 s)))) :=
    covered_append.mpr ⟨hfirst s hb.coherent, covered_append.mpr ⟨inner mids (fun _ hp => hp) _ h1 ha,
      hact _ h2.coherent (by rw [ht, ht1]; exact hg)⟩⟩
  exact hcov u hu

end

section
variable {ps : Fin n → Process} (hw : Workload ps)
include hw

theorem fcfsUses_covered : Covered n m (fcfsUses m ps) := by
  have hw' := fcfsSort_workload hw
  refine covered_append.mpr ⟨covered_append.mpr ⟨covered_append.mpr ⟨setupUses_covered, ?_⟩, ?_⟩,
    printUses_covered (fcfs_sound.horizon hw' (At.start.loop maxTime))⟩
  · simp [fcfsSortUses]
  · refine program_covered fcfs_accounts fcfs_sound
      (fun s h => finish_covered findLast_finds record_same keepCpu_ok (fun _ _ _ => covered_nil) h) (fun p hp s _ _ => ?_)
      (fun s h ht => execute_covered 1 findLast_finds h ht) hw'.toUnstarted maxTime
    rw [List.mem_singleton.mp hp]
    exact assign_covered fcfsScanUses_covered s

theorem mlfqUses_covered : Covered n m (mlfqUses m ps) := by
  have hw' := mlfqReset_workload hw
  refine covered_append.mpr ⟨covered_append.mpr ⟨covered_append.mpr ⟨setupUses_covered, by simp⟩, ?_⟩,
    printUses_covered (mlfq_sound.horizon hw' (At.start.loop maxTime))⟩
  refine program_covered mlfq_accounts mlfq_sound
    (fun s h => finish_covered findLast_finds record_same mlfqExpire_ok (fun _ _ _ => ?_) h) (fun p hp s _ _ => ?_)
    (fun s h ht => execute_covered 1 findLast_finds h ht) hw'.toUnstarted maxTime
  · simp [mlfqExpireUses]
  · rw [List.mem_singleton.mp hp]
    exact assign_covered scanUses_covered s

theorem lotteryUses_covered (rand : Nat → Nat) : Covered n m (lotteryUses m rand ps) := by
  refine covered_append.mpr ⟨covered_append.mpr ⟨setupUses_covered, ?_⟩,
    printUses_covered ((lottery_sound rand).horizon hw (At.start.loop maxTime))⟩
  refine program_covered (lottery_accounts rand) (lottery_sound rand)
    (fun s h => finish_covered findLast_finds lotteryRecord_same keepCpu_ok (fun _ _ _ => covered_nil) h)
    (fun p hp s _ _ => ?_) (fun s _ ht => lotteryExecute_covered ht) hw.toUnstarted maxTime
  rw [List.mem_singleton.mp hp]
  exact assign_covered (lotteryScanUses_covered rand) s

theorem edfUses_covered : Covered n m (edfUses m ps) := by
  refine covered_append.mpr ⟨covered_append.mpr ⟨setupUses_covered, ?_⟩,
    printUses_covered (edf_sound.horizon hw (At.start.loop maxTime))⟩
  refine program_covered edf_accounts edf_sound
    (fun s h => finish_covered findFirst_finds edfRecord_same keepCpu_ok (fun _ _ _ => covered_nil) h)
    (fun p hp s h ha => ?_) (fun s h ht => execute_covered 0 findFirst_finds h ht) hw.toUnstarted maxTime
  rcases List.mem_pair.mp hp with rfl | rfl
  · exact edfPreempt_covered h ha
  · exact assign_covered scanUses_covered s

end

end Sim

/-! ## Work stealing -/

namespace WorkSim
variable {n m : Nat} {ps : Fin n → Process} {s : WorkSim n m}

theorem Conserved.rear_le (h : Conserved ps s) (c : Fin m) : (s.queues c).rear ≤ n := by
  have h1 := Finset.card_le_univ s.arrivals
  rw [Fintype.card_fin] at h1
  exact (h.short c).trans h1

theorem Conserved.rear_lt (h : Conserved ps s) (c : Fin m) {i : Fin n} (hi : s.arrived i = false) :
    (s.queues c).rear < n := by
  have hlt : s.arrivals.card < n := by
    have h1 := Finset.card_lt_univ_of_notMem (s := s.arrivals) (x := i) (by simp [arrivals, hi])
    rwa [Fintype.card_fin] at h1
  exact (h.short c).trans_lt hlt

theorem minQUses_covered (s : WorkSim n m) : Covered n m (minQUses s) := by
  refine traced_keeps (P := fun _ => True) (fun _ _ _ => trivial) (fun best c _ => ?_) trivial
  cases best with
  | none => exact covered_nil
  | some b => exact covered_cons.mpr ⟨within_queues c, covered_cons.mpr ⟨within_queues b, covered_nil⟩⟩

theorem loadOnUses_covered (h : Conserved ps s) (i : Fin n) : Covered n m (loadOnUses s i) := by
  unfold loadOnUses
  cases hq : s.minQ with
  | none => simp [minQUses_covered]
  | some c =>
    simp only [covered_cons, covered_ite, covered_append, covered_nil, within_processes, within_arrived, within_queues,
      within_processIndices, minQUses_covered, CPUQueue.pushBackUses, List.cons_append, List.nil_append, true_and, and_true,
      implies_true]
    exact fun _ hi => h.rear_lt c hi

theorem takeUses_covered {pop : CPUQueue n → Option (Fin n) × CPUQueue n}
    {uses : CPUQueue n → List Use} {i c : Fin m} (hp : CPUQueue.PopOk pop (s.queues c))
    (hu : (s.queues c).size ≠ 0 → Covered n m (uses (s.queues c))) (h0 : (s.queues c).size = 0 → uses (s.queues c) = []) :
    Covered n m (s.takeUses pop uses i c) := by
  unfold takeUses
  by_cases hs : (s.queues c).size = 0
  · simp [hs, h0 hs]
  · obtain ⟨p, k, hpop, _⟩ := hp.one hs
    simp [hs, hu hs, hpop]

theorem assignOnUses_covered (h : Conserved ps s) (i : Fin m) : Covered n m (assignOnUses s i) := by
  have hrear := h.rear_le
  have hsize := fun c => (h.queues c).size
  have front : Covered n m (s.takeUses CPUQueue.popFront CPUQueue.popFrontUses i i) := by
    refine takeUses_covered (CPUQueue.popFront_ok (h.queues i)) (fun h0 => ?_) fun h0 => if_pos h0
    have := hrear i
    have := hsize i
    simp [CPUQueue.popFrontUses, h0, Use.Within]
    omega
  have back : ∀ c, Covered n m (s.takeUses CPUQueue.popBack CPUQueue.popBackUses i c) := by
    intro c
    refine takeUses_covered (CPUQueue.popBack_ok (h.queues c)) (fun h0 => ?_) fun h0 => if_pos h0
    have := hrear c
    have := hsize c
    simp [CPUQueue.popBackUses, h0, Use.Within]
    omega
  unfold assignOnUses
  cases hpop : (CPUQueue.popFront (s.queues i)).1 with
  | some p => simp [front]
  | none =>
    -- the queue was empty, and stealing starts from the same state
    have hok := CPUQueue.popFront_ok (h.queues i)
    have h0 : (s.queues i).size = 0 := by
      by_contra hne
      obtain ⟨p, k, hp, _⟩ := hok.one hne
      rw [hp] at hpop
      cases hpop
    rw [take_none s i hok h0]
    cases hq : s.maxQ i <;> simp [front, back, hq]

theorem executeOnUses_covered (ht : s.currentTime < maxTime) (i : Fin m) : Covered n m (executeOnUses s i) := by
  unfold executeOnUses
  cases Sim.findFirst s.processes (s.cores i) <;> simp [ht]

theorem Conserved.foldl {α : Type} {f : WorkSim n m → α → WorkSim n m} (hm : 0 < m) (hw : Sim.Unstarted ps)
    (hf : ∀ a, (∃ i, (fun s => f s a) = fun s => s.loadOn i) ∨ (∃ c, (fun s => f s a) = fun s => s.assignOn c) ∨
      ∃ c, (fun s => f s a) = fun s => s.executeOn c) (h : Conserved ps s) (l : List α) :
    Conserved ps (l.foldl f s) ∧ (l.foldl f s).currentTime = s.currentTime :=
  foldl_keeps (P := fun a : WorkSim n m => Conserved ps a ∧ a.currentTime = s.currentTime) l
    (fun _ a _ hc => by
      obtain ⟨h1, ht, _⟩ := iteration_quiet hm hw hc.1 (hf a)
      exact ⟨h1, ht.trans hc.2⟩) ⟨h, rfl⟩

theorem Conserved.load (hm : 0 < m) (hw : Sim.Unstarted ps) (h : Conserved ps s) :
    Conserved ps (load s) ∧ (load s).currentTime = s.currentTime :=
  h.foldl hm hw (fun i => Or.inl ⟨i, rfl⟩) _

theorem Conserved.assign (hm : 0 < m) (hw : Sim.Unstarted ps) (h : Conserved ps s) :
    Conserved ps (assign s) ∧ (assign s).currentTime = s.currentTime :=
  h.foldl hm hw (fun c => Or.inr (Or.inl ⟨c, rfl⟩)) _

theorem Conserved.execute (hm : 0 < m) (hw : Sim.Unstarted ps) (h : Conserved ps s) :
    Conserved ps (execute s) ∧ (execute s).currentTime = s.currentTime :=
  h.foldl hm hw (fun c => Or.inr (Or.inr ⟨c, rfl⟩)) _

theorem bodyTrace_prog (s : WorkSim n m) : bodyTrace prog s = traced loadOnUses loadOn (List.finRange n) s ++
    (traced assignOnUses WorkSim.assignOn (List.finRange m) (load s) ++
      traced executeOnUses WorkSim.executeOn (List.finRange m) (WorkSim.assign (load s))) := by
  simp [prog, bodyTrace]

theorem tick_covered (hm : 0 < m) (hw : Sim.Unstarted ps) (h : Conserved ps s) (ht : s.currentTime < maxTime) :
    Covered n m (bodyTrace prog s) := by
  obtain ⟨h1, ht1⟩ := h.load hm hw
  obtain ⟨h2, ht2⟩ := h1.assign hm hw
  rw [bodyTrace_prog]
  refine covered_append.mpr ⟨?_, covered_append.mpr ⟨?_, ?_⟩⟩
  · exact traced_keeps (P := Conserved ps) (fun _ i ha => ha.loadOn hm i) (fun _ i ha => loadOnUses_covered ha i) h
  · exact traced_keeps (P := Conserved ps) (fun _ i ha => ha.assignOn hw i) (fun _ i ha => assignOnUses_covered ha i) h1
  · refine traced_keeps (P := fun a => Conserved ps a ∧ a.currentTime < maxTime) (fun a c ha => ?_)
      (fun _ i ha => executeOnUses_covered ha.2 i) ⟨h2, by rw [ht2, ht1]; exact ht⟩
    obtain ⟨hc, htime, _⟩ := iteration_quiet hm hw ha.1 (Or.inr (Or.inr ⟨c, rfl⟩))
    exact ⟨hc, lt_of_eq_of_lt htime ha.2⟩

theorem workStealUses_covered (hm : 0 < m) (hw : Sim.Workload ps) (ha : ∀ i, 0 ≤ (ps i).arrivalTime) :
    Covered n m (workStealUses m ps) := by
  refine covered_append.mpr ⟨covered_append.mpr ⟨covered_append.mpr ⟨by simp, setupUses_covered⟩, ?_⟩,
    printUses_covered (Sim.workSteal_ended hw hm ha).horizon⟩
  intro u hu
  obtain ⟨k, _, hg, hu⟩ := mem_loopTrace.mp hu
  have hat : At guard steps (init ps) [] ((body steps)^[k] (init ps)) := At.of_iterate fun j hj => hg j hj.le
  exact tick_covered hm hw.toUnstarted (conserved_at hm hw.toUnstarted ha hat) (hg k le_rfl).2 u hu

end WorkSim

end OsLab
