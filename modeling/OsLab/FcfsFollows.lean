import Mathlib.Data.List.Sort
import OsLab.ListSchedule
import OsLab.Metrics

/-!
# FCFS step by step

Every step of a tick of `run_fcfs` follows the list schedule of the processes in the
order of arrival and pid: STEP 1 gives cores back, STEP 2 starts what the schedule
starts at the tick, and execution writes its column.
-/

namespace OsLab
namespace Sim
variable {n m : Nat}

/-! ## The specification -/

def InOrder (p q : Process) : Prop := p.arrivalTime < q.arrivalTime ∨ p.arrivalTime = q.arrivalTime ∧ p.pid ≤ q.pid

instance : DecidableRel InOrder := fun p q => by unfold InOrder; infer_instance

def inOrder (ps : Fin n → Process) : List Process := (List.ofFn ps).insertionSort InOrder

def arrivalTick (p : Process) : Nat := p.arrivalTime.toNat
def burstTicks (p : Process) : Nat := p.burstTime.toNat

def fcfsSpec (ps : Fin n → Process) : List (Placement Process m) :=
  listSchedule arrivalTick burstTicks (fun _ => 0) (inOrder ps)

def shownAt (log : List (Placement Process m)) (c : Fin m) (u : Nat) : Int :=
  (cellAt burstTicks log c u).elim 0 (·.pid)

/-! ## The order of the processes -/

def Before (p q : Process) : Prop := p.arrivalTime < q.arrivalTime ∨ p.arrivalTime = q.arrivalTime ∧ p.pid < q.pid

theorem inOrder_perm (ps : Fin n → Process) : (inOrder ps).Perm (List.ofFn ps) := List.perm_insertionSort _ _

theorem mem_inOrder {ps : Fin n → Process} {p : Process} : p ∈ inOrder ps ↔ ∃ i, ps i = p := by
  rw [(inOrder_perm ps).mem_iff, List.mem_ofFn]

instance : IsTrans Process InOrder := ⟨fun p q r hpq hqr => by unfold InOrder at *; omega⟩

instance : Std.Total InOrder := ⟨fun p q => by unfold InOrder; omega⟩

theorem inOrder_sorted (ps : Fin n → Process) : (inOrder ps).Pairwise InOrder := List.pairwise_insertionSort _ _

section
variable {ps : Fin n → Process} (hw : Workload ps)
include hw

theorem inOrder_before : (inOrder ps).Pairwise Before := by
  have hne : (inOrder ps).Pairwise fun p q => p.pid ≠ q.pid := by
    have hnodup : ((List.ofFn ps).map (·.pid)).Nodup := by
      rw [List.map_ofFn, List.nodup_ofFn]
      exact hw.pid_inj
    have hperm := (inOrder_perm ps).map fun p => p.pid
    exact List.pairwise_map.mp (hperm.nodup_iff.mpr hnodup)
  refine (inOrder_sorted ps).imp₂ (fun p q h h' => ?_) hne
  unfold InOrder at h
  unfold Before
  omega

theorem inOrder_comp (e : Equiv.Perm (Fin n)) : inOrder (ps ∘ e) = inOrder ps := by
  have hperm : (inOrder (ps ∘ e)).Perm (inOrder ps) :=
    ((inOrder_perm _).trans (Equiv.Perm.ofFn_comp_perm e ps)).trans (inOrder_perm ps).symm
  refine hperm.eq_of_pairwise (fun p q hp hq h h' => ?_) (inOrder_sorted _) (inOrder_sorted ps)
  obtain ⟨i, rfl⟩ := mem_inOrder.mp (hperm.mem_iff.mp hp)
  obtain ⟨j, rfl⟩ := mem_inOrder.mp hq
  unfold InOrder at h h'
  rw [hw.pid_inj (show (ps i).pid = (ps j).pid by omega)]

theorem fcfsSpec_comp (e : Equiv.Perm (Fin n)) : fcfsSpec (m := m) (ps ∘ e) = fcfsSpec ps := by
  unfold fcfsSpec
  rw [inOrder_comp hw]

end

/-! ## The simulation relation -/

structure Following (qs : Fin n → Process) (s : Sim n m) (free : Fin m → Nat) (rest : List Process)
    (log : List (Placement Process m)) : Prop where
  progress : Progress arrivalTick burstTicks (inOrder qs) s.time free rest log
  order : rest.Pairwise Before
  mem : ∀ p ∈ rest, ∃ i, qs i = p
  waiting : ∀ i, qs i ∈ rest ↔ s.isRunning i = false ∧ 0 < (s.processes i).remainingTime
  fresh : ∀ i, qs i ∈ rest → (s.processes i).remainingTime = (qs i).burstTime
  idle : ∀ c, (s.cpus c).currentPid = -1 → free c ≤ s.time
  busy : ∀ c i, (s.cpus c).currentPid = (s.processes i).pid →
    (s.processes i).remainingTime = (free c : Int) - s.time ∧
      ∃ e ∈ log, e.job = qs i ∧ e.core = c ∧ e.start ≤ s.time ∧ e.start + burstTicks (qs i) = free c
  chart : ∀ c u, u < s.time → s.timeline c u = shownAt log c u

section
variable {qs : Fin n → Process} (hw : Workload qs) (ha : ∀ i, 0 ≤ (qs i).arrivalTime) {s : Sim n m}
  {free : Fin m → Nat} {rest : List Process} {log : List (Placement Process m)}

include hw ha in
theorem following_init : Following qs (init qs : Sim n m) (fun _ => 0) (inOrder qs) [] where
  progress := Progress.init <| (inOrder_before hw).imp_of_mem fun {p q} hp hq h => by
    obtain ⟨i, rfl⟩ := mem_inOrder.mp hp
    obtain ⟨j, rfl⟩ := mem_inOrder.mp hq
    have h1 := ha i
    have h2 := ha j
    unfold Before at h
    unfold arrivalTick
    omega
  order := inOrder_before hw
  mem := fun p hp => mem_inOrder.mp hp
  waiting := fun i => by
    have h1 := hw.fresh i
    have h2 := hw.burst_pos i
    simp only [init, true_and]
    exact ⟨fun _ => by omega, fun _ => mem_inOrder.mpr ⟨i, rfl⟩⟩
  fresh := fun i _ => hw.fresh i
  idle := fun _ _ => Nat.zero_le _
  busy := fun c i hc => by
    have := hw.pid_pos i
    simp only [init] at hc
    omega
  chart := fun c u hu => absurd hu (Nat.not_lt_zero u)

theorem Following.finish (hco : Coherent s) (h : Following qs s free rest log) :
    Following qs (fcfsFinish s) free rest log := by
  have key := foldl_keeps (f := finishOn findLast record keepCpu) (b := s)
    (P := fun a : Sim n m => Coherent a ∧ Following qs a free rest log) (List.finRange m) (by
      intro a c _ ⟨hco, h⟩
      refine ⟨(finishOn_released findLast_finds record_same keepCpu_ok hco c).coherent, ?_⟩
      rcases @finishOn_cases n m findLast record keepCpu findLast_finds a hco c with
        ⟨_, e⟩ | ⟨i, hi, ⟨h0, e⟩ | ⟨_, e⟩⟩
      · rw [e]; exact h
      · rw [e]
        have hs := record_same a i
        have hrem : ∀ j, ((record a i).processes j).remainingTime = (a.processes j).remainingTime :=
          fun j => core_remaining (hs.core j)
        refine ⟨h.progress, h.order, h.mem, fun j => ?_, fun j hj => ?_, fun c' hc' => ?_, fun c' j hj => ?_, h.chart⟩
        · simp only [Sim.free, setCpu, hrem]
          rw [h.waiting j]
          by_cases hji : j = i
          · subst hji
            simp [h0]
          · rw [Function.update_of_ne hji, hs.isRunning]
        · simp only [Sim.free, setCpu, hrem]
          exact h.fresh j hj
        · by_cases hcc : c' = c
          · subst hcc
            have := (h.busy c' i hi).1
            simp only [Sim.free, setCpu, hs.time]
            omega
          · simp only [Sim.free, setCpu, Function.update_of_ne hcc, hs.cpus, hs.time] at hc' ⊢
            exact h.idle c' hc'
        · simp only [Sim.free, setCpu, core_pid (hs.core j), hrem, hs.time] at hj ⊢
          by_cases hcc : c' = c
          · subst hcc
            have := hco.pid_ne j
            simp only [Function.update_self] at hj
            omega
          · rw [Function.update_of_ne hcc, hs.cpus] at hj
            exact h.busy c' j hj
      · rw [e]; exact h) ⟨hco, h⟩
  exact key.2

/-! ## STEP 2 -/

variable (hstat : ∀ i, static (s.processes i) = static (qs i))
include hstat

theorem Following.pick_some (h : Following qs s free rest log) {i : Fin n} (hi : fcfsPick s = some i) :
    ∃ rest', rest = qs i :: rest' := by
  have hpid : ∀ j, (s.processes j).pid = (qs j).pid := fun j => static_pid (hstat j)
  have harr : ∀ j, (s.processes j).arrivalTime = (qs j).arrivalTime := fun j => static_arrival (hstat j)
  obtain ⟨hle, hrem, hoff⟩ := ready_iff.mp (fcfsPick_ready s i hi)
  have hmem := (h.waiting i).mpr ⟨hoff, hrem⟩
  cases hr : rest with
  | nil => rw [hr] at hmem; cases hmem
  | cons p rest' =>
    obtain ⟨j, rfl⟩ := h.mem p (by rw [hr]; exact List.mem_cons_self)
    rw [hr] at hmem
    refine ⟨rest', ?_⟩
    rcases List.mem_cons.mp hmem with he | he
    · rw [he]
    · -- `qs j` comes before `qs i` and is ready as well, so it would have been picked
      exfalso
      have hbef : Before (qs j) (qs i) := by
        have := h.order
        rw [hr] at this
        exact (List.pairwise_cons.mp this).1 _ he
      obtain ⟨hoffj, hremj⟩ := (h.waiting j).mp (by rw [hr]; exact List.mem_cons_self)
      have h1 : (qs j).arrivalTime ≤ (qs i).arrivalTime := by unfold Before at hbef; omega
      have hreadyj : s.ready j = true := ready_iff.mpr ⟨by rw [harr] at hle ⊢; omega, hremj, hoffj⟩
      rw [fcfsPick_eq] at hi
      obtain ⟨_, hci, hleast⟩ := (scanMin_spec _ _ _).2 i hi
      simp only [fcfsCand, Bool.and_eq_true, decide_eq_true_eq] at hci
      have hk := hleast j (List.mem_finRange j) (by
        simp only [fcfsCand, hreadyj, Bool.true_and, decide_eq_true_eq]
        have := hci.2
        rw [harr] at this ⊢
        omega)
      simp only [fcfsKey, Prod.Lex.toLex_le_toLex, harr, hpid] at hk
      unfold Before at hbef
      omega

theorem Following.pick_none (h : Following qs s free rest log) (hn : fcfsPick s = none) (ht : s.time < maxTime) :
    ∀ p ∈ rest, s.time < arrivalTick p := by
  have harr : ∀ j, (s.processes j).arrivalTime = (qs j).arrivalTime := fun j => static_arrival (hstat j)
  intro p hp
  obtain ⟨i, rfl⟩ := h.mem p hp
  obtain ⟨hoff, hrem⟩ := (h.waiting i).mp hp
  by_contra hle
  have h1 : (qs i).arrivalTime ≤ s.time := by unfold arrivalTick at hle; omega
  have h2 := fcfsPick_none s hn i (ready_iff.mpr ⟨by rw [harr]; exact h1, hrem, hoff⟩)
  rw [harr] at h2
  unfold maxTime at ht
  omega

include hw

theorem Following.dispatch {i : Fin n} (h : Following qs s free (qs i :: rest) log) (hco : Coherent s) {c : Fin m}
    (hc : (s.cpus c).currentPid = -1) (hle : (s.processes i).arrivalTime ≤ s.time) (hlow : ∀ c' < c, s.time < free c')
    (q : Int) : Following qs (s.dispatch c i q) (Function.update free c (s.time + burstTicks (qs i))) rest
      (log ++ [⟨qs i, c, s.time⟩]) := by
  have harr : (s.processes i).arrivalTime = (qs i).arrivalTime := static_arrival (hstat i)
  rw [harr] at hle
  obtain ⟨hbefore, horder⟩ := List.pairwise_cons.mp h.order
  have hnot : qs i ∉ rest := by
    intro hi
    have := hbefore _ hi
    unfold Before at this
    omega
  have hother : ∀ j, j ≠ i → qs j ≠ qs i := fun j hj e => hj (hw.pid_inj (congrArg Process.pid e))
  refine ⟨?_, horder, fun p hp => h.mem p (List.mem_cons_of_mem _ hp), fun j => ?_,
    fun j hj => h.fresh j (List.mem_cons_of_mem _ hj), fun c' hc' => ?_, fun c' j hj => ?_, fun c' u hu => ?_⟩
  · exact h.progress.start (by unfold arrivalTick; omega) (h.idle c hc) hlow
  · simp only [Sim.dispatch]
    by_cases hji : j = i
    · subst hji
      simp [hnot]
    · rw [Function.update_of_ne hji]
      have := h.waiting j
      rw [List.mem_cons, or_iff_right (hother j hji)] at this
      exact this
  · by_cases hcc : c' = c
    · subst hcc
      have := hco.pid_ne i
      simp only [Sim.dispatch, setCpu, Function.update_self] at hc'
      exact absurd hc' this
    · simp only [Sim.dispatch, setCpu, Function.update_of_ne hcc] at hc' ⊢
      exact h.idle c' hc'
  · simp only [Sim.dispatch, setCpu] at hj ⊢
    by_cases hcc : c' = c
    · subst hcc
      simp only [Function.update_self] at hj ⊢
      obtain rfl : i = j := hco.pid_inj hj
      have h1 := h.fresh i List.mem_cons_self
      have h2 := hw.burst_pos i
      refine ⟨by rw [h1]; unfold burstTicks; omega, _, List.mem_append_right _ (List.mem_singleton_self _), rfl, rfl,
        Nat.le_refl _, rfl⟩
    · simp only [Function.update_of_ne hcc] at hj ⊢
      obtain ⟨h1, e, he, h2⟩ := h.busy c' j hj
      exact ⟨h1, e, List.mem_append_left _ he, h2⟩
  · rw [show (s.dispatch c i q).timeline = s.timeline from rfl, h.chart c' u hu]
    unfold shownAt
    rw [cellAt_append fun e he => by rw [List.mem_singleton.mp he]; exact hu]

end

def Served (s : Sim n m) (free : Fin m → Nat) (rest : List Process) (l : List (Fin m)) : Prop :=
  (∀ p ∈ rest, s.time < arrivalTick p) ∨ ∀ c ∈ l, s.time < free c

section
variable {qs : Fin n → Process} (hw : Workload qs) {s : Sim n m}

theorem mem_visited {l : List (Fin m)} {c c' : Fin m} (hl : l ++ [c] <+: List.finRange m) (h : c' < c) : c' ∈ l := by
  obtain ⟨r, hr⟩ := hl
  have hmem : c' ∈ (l ++ [c]) ++ r := hr ▸ List.mem_finRange c'
  have hpw := List.pairwise_lt_finRange m
  rw [← hr, List.pairwise_append] at hpw
  rcases List.mem_append.mp hmem with hm | hm
  · rcases List.mem_append.mp hm with hm | hm
    · exact hm
    · rw [List.mem_singleton.mp hm] at h
      exact absurd h (lt_irrefl c)
  · exact absurd (hpw.2.2 c (by simp) c' hm) (lt_asymm h)

include hw

/-- **STEP 2.** Whatever can start at this tick is started. -/
theorem following_assign (hco : Coherent s) (hal : Alive s) (ht : s.time < maxTime)
    (hstat : ∀ i, static (s.processes i) = static (qs i)) {free : Fin m → Nat} {rest : List Process}
    {log : List (Placement Process m)} (h : Following qs s free rest log) : ∃ free' rest' log',
      Following qs (fcfsAssign s) free' rest' log' ∧ Served (fcfsAssign s) free' rest' (List.finRange m) := by
  have key := foldl_range (f := assignOn fcfsPick id fun _ p => p.remainingTime) (b := s)
    (P := fun l a => (Coherent a ∧ Alive a) ∧ (a.processes = s.processes ∧ a.time = s.time) ∧
      ∃ free' rest' log', Following qs a free' rest' log' ∧ Served a free' rest' l)
    (List.finRange m) ⟨⟨hco, hal⟩, ⟨rfl, rfl⟩, free, rest, log, h, Or.inr nofun⟩ (by
      intro l c a hl ⟨⟨hca, hala⟩, ⟨hps, hta⟩, free', rest', log', hF, hserved⟩
      have hstat' : ∀ i, static (a.processes i) = static (qs i) := fun i => by rw [hps]; exact hstat i
      refine ⟨assignOn_coherent fcfsPick_ready SameCore.refl hca hala c, ?_⟩
      rcases @assignOn_cases n m fcfsPick id (fun _ p => p.remainingTime) a c with ⟨hb, e⟩ | ⟨_, hn, e⟩ | ⟨i, hc, hi, e⟩
      · -- a busy CPU
        rw [e]
        refine ⟨⟨hps, hta⟩, free', rest', log', hF, hserved.imp id fun hbusy c' hc' => ?_⟩
        rcases List.mem_append.mp hc' with hc' | hc'
        · exact hbusy c' hc'
        · obtain rfl := List.mem_singleton.mp hc'
          obtain ⟨i, hi⟩ := hca.resolves c' hb
          have h1 := (hF.busy c' i hi).1
          have h2 := hala i ((hca.running i).mpr ⟨c', hi⟩)
          omega
      · -- nothing to start
        rw [e]
        exact ⟨⟨hps, hta⟩, free', rest', log', hF, Or.inl (hF.pick_none hstat' hn (hta.trans_lt ht))⟩
      · -- the next process
        obtain ⟨hle, _, _⟩ := ready_iff.mp (fcfsPick_ready a i hi)
        obtain ⟨rest'', rfl⟩ := hF.pick_some hstat' hi
        have hbusy : ∀ c' ∈ l, a.time < free' c' := by
          rcases hserved with hs | hs
          · exfalso
            have h1 := hs (qs i) List.mem_cons_self
            rw [static_arrival (hstat' i)] at hle
            unfold arrivalTick at h1
            omega
          · exact hs
        have hF' := hF.dispatch hw hstat' hca hc hle (fun c' hlt => hbusy c' (mem_visited hl hlt))
          (a.processes i).remainingTime
        rw [e]
        refine ⟨⟨hps, hta⟩, _, _, _, hF', Or.inr fun c' hc' => ?_⟩
        have hlen : 0 < burstTicks (qs i) := by
          have := hw.burst_pos i
          unfold burstTicks
          omega
        by_cases hcc : c' = c
        · subst hcc
          simp only [id, Sim.dispatch, setCpu, Function.update_self]
          omega
        · rw [Function.update_of_ne hcc]
          rcases List.mem_append.mp hc' with hc' | hc'
          · exact hbusy c' hc'
          · exact absurd (List.mem_singleton.mp hc') hcc)
  exact key.2.2

omit hw in
theorem Following.execute (hco : Coherent s) (hal : Alive s) (hstat : ∀ i, static (s.processes i) = static (qs i))
    {free : Fin m → Nat} {rest : List Process} {log : List (Placement Process m)} (h : Following qs s free rest log)
    (hserved : Served s free rest (List.finRange m)) : Following qs (advance (fcfsExecute s)) free rest log := by
  have he : Executed s (fcfsExecute s) := execute_spec findLast_finds 1 hco
  have htime : (advance (fcfsExecute s)).time = s.time + 1 := by simp only [advance, he.time]
  have hsame : ∀ i, s.isRunning i = false → (fcfsExecute s).processes i = s.processes i := by
    intro i hi
    rw [he.processes i, hi]
    simp
  refine ⟨?_, h.order, h.mem, fun i => ?_, fun i hi => ?_, fun c hc => ?_, fun c i hc => ?_, fun c u hu => ?_⟩
  · rw [htime]
    exact h.progress.next (hserved.imp id fun hb c => hb c (List.mem_finRange c))
  · simp only [advance]
    rw [h.waiting i, he.isRunning]
    exact and_congr_right fun hoff => by rw [hsame i hoff]
  · simp only [advance]
    rw [hsame i ((h.waiting i).mp hi).1]
    exact h.fresh i hi
  · simp only [advance, he.pid c] at hc
    rw [htime]
    exact Nat.le_succ_of_le (h.idle c hc)
  · simp only [advance, he.pid c, he.processes i] at hc
    obtain ⟨h1, e, hmem, h2, h3, h4, h5⟩ := h.busy c i hc
    rw [htime]
    refine ⟨?_, e, hmem, h2, h3, by omega, h5⟩
    simp only [advance, he.processes i, (hco.running i).mpr ⟨c, hc⟩, if_true]
    push_cast
    omega
  · rw [htime] at hu
    simp only [advance]
    by_cases hut : u = s.time
    · subst hut
      rw [he.column c]
      unfold shownAt
      by_cases hc : (s.cpus c).currentPid = -1
      · rw [if_pos hc, cellAt_eq_none fun e hmem hcov => ?_]
        · rfl
        · have h1 := h.progress.ends e hmem
          have h2 := h.idle c hc
          have h3 := hcov.2.2
          rw [hcov.1] at h1
          omega
      · obtain ⟨i, hi⟩ := hco.resolves c hc
        obtain ⟨h1, e, hmem, h2, h3, h4, h5⟩ := h.busy c i hi
        have hrem := hal i ((hco.running i).mpr ⟨c, hi⟩)
        have hcov : Covers burstTicks c s.time e := ⟨h3, h4, by rw [h2]; omega⟩
        rw [if_neg hc, h.progress.apart.cellAt_eq hmem hcov, hi, h2]
        exact static_pid (hstat i)
    · rw [he.past c u hut]
      exact h.chart c u (by omega)

end

end Sim
end OsLab
