import Mathlib.Data.Fintype.Card
import Mathlib.Order.Interval.Finset.Nat
import OsLab.SchedSound

/-!
# Accounting

The Gantt chart, the remaining times, the counter of completed processes and
the recorded completion times of a tick scheduler tell the same story: what a
process has been executed is what the chart shows, and a process is counted
and stamped one tick after its last cell.
-/

namespace OsLab
namespace Sim
variable {n m : Nat}

def cells (s : Sim n m) (pid : Int) (t : Nat) : Finset Nat :=
  (Finset.range t).filter fun u => ∃ c, s.timeline c u = pid

theorem mem_cells {s : Sim n m} {pid : Int} {t u : Nat} : u ∈ s.cells pid t ↔ u < t ∧ ∃ c, s.timeline c u = pid := by
  simp [cells]

def counted (s : Sim n m) : Finset (Fin n) :=
  Finset.univ.filter fun i => (s.processes i).remainingTime = 0 ∧ s.isRunning i = false

theorem mem_counted {s : Sim n m} {i : Fin n} :
    i ∈ s.counted ↔ (s.processes i).remainingTime = 0 ∧ s.isRunning i = false := by
  simp [counted]

theorem mem_of_full {S : Finset (Fin n)} (h : n ≤ S.card) (i : Fin n) : i ∈ S := by
  rw [Finset.eq_univ_of_card S (Nat.le_antisymm (Finset.card_le_univ S) (by rwa [Fintype.card_fin]))]
  exact Finset.mem_univ i

/-- The accounts of a scheduler whose chart is written up to column `t₀`, when
a process with I/O wait `io` that is released at time `t` is stamped
`stamp t io`. -/
structure Ledger (stamp : Nat → Int → Int) (s : Sim n m) (t₀ : Nat) : Prop where
  work : ∀ i, (s.processes i).remainingTime + (s.cells (s.processes i).pid t₀).card = (s.processes i).burstTime
  completed : s.completed = s.counted.card
  last : ∀ i, (s.processes i).remainingTime = 0 → s.isRunning i = true →
    ∃ u, t₀ = u + 1 ∧ ∃ c, s.timeline c u = (s.processes i).pid
  stamped : ∀ i, (s.processes i).remainingTime = 0 → s.isRunning i = false →
    ∃ u, u < t₀ ∧ (∃ c, s.timeline c u = (s.processes i).pid) ∧
      (∀ c v, s.timeline c v = (s.processes i).pid → v ≤ u) ∧
      (s.processes i).completionTime = stamp (u + 1) (s.processes i).ioWaitTime

section
variable {stamp : Nat → Int → Int}

theorem ledger_init {ps : Fin n → Process} (h : Unstarted ps) : Ledger stamp (init ps : Sim n m) 0 where
  work := fun i => by
    have : (init ps : Sim n m).cells (ps i).pid 0 = ∅ := rfl
    simp only [init] at this ⊢
    rw [this]
    simpa using h.fresh i
  completed := by
    have : (init ps : Sim n m).counted = ∅ := by
      ext i
      rw [mem_counted]
      have h1 := h.fresh i
      have h2 := h.burst_pos i
      simp only [init, Finset.notMem_empty, iff_false, not_and]
      omega
    rw [this]
    rfl
  last := fun i h0 hr => by cases hr
  stamped := fun i h0 _ => by
    have h1 := h.fresh i
    have h2 := h.burst_pos i
    simp only [init] at h0
    omega

/-! ## STEP 1 -/

def Clean (s : Sim n m) (t₀ : Nat) : Prop := ∀ c t, t₀ ≤ t → s.timeline c t = 0

structure Stamps (stamp : Nat → Int → Int) (record : Sim n m → Fin n → Sim n m) : Prop where
  same : ∀ s i, SameCore s (record s i)
  stamp : ∀ s i, ((record s i).processes i).completionTime = stamp s.time (s.processes i).ioWaitTime
  others : ∀ s i j, j ≠ i → (record s i).processes j = s.processes j

structure SameLedger (s s' : Sim n m) : Prop where
  core : ∀ i, core (s'.processes i) = core (s.processes i)
  timeline : s'.timeline = s.timeline
  completed : s'.completed = s.completed
  stamp : ∀ i, (s'.processes i).completionTime = (s.processes i).completionTime
  running : ∀ i, (s.processes i).remainingTime = 0 → s'.isRunning i = s.isRunning i

theorem Ledger.same {s s' : Sim n m} {t₀ : Nat} (h : Ledger stamp s t₀) (e : SameLedger s s') :
    Ledger stamp s' t₀ where
  work := fun i => by
    have := h.work i
    simp only [cells, e.timeline, core_pid (e.core i), core_remaining (e.core i), core_burst (e.core i)] at this ⊢
    exact this
  completed := by
    have : s'.counted = s.counted := by
      ext i
      rw [mem_counted, mem_counted, core_remaining (e.core i)]
      exact and_congr_right fun h0 => by rw [e.running i h0]
    rw [this, e.completed]
    exact h.completed
  last := fun i h0 hr => by
    rw [core_remaining (e.core i)] at h0
    rw [e.running i h0] at hr
    rw [e.timeline, core_pid (e.core i)]
    exact h.last i h0 hr
  stamped := fun i h0 hr => by
    rw [core_remaining (e.core i)] at h0
    rw [e.running i h0] at hr
    rw [e.timeline, core_pid (e.core i), e.stamp i, core_io (e.core i)]
    exact h.stamped i h0 hr

theorem counted_release {s s' : Sim n m} (hs : SameCore s s') {i : Fin n} (h0 : (s.processes i).remainingTime = 0)
    (c : Fin m) (k : Nat) : ({ s'.free c i with completed := k } : Sim n m).counted = insert i s.counted := by
  ext j
  rw [Finset.mem_insert, mem_counted, mem_counted]
  simp only [Sim.free, setCpu, core_remaining (hs.core j)]
  by_cases hj : j = i
  · subst hj; simp [h0]
  · rw [Function.update_of_ne hj, hs.isRunning]; simp [hj]

theorem not_mem_counted {s : Sim n m} {i : Fin n} (h : s.isRunning i = true) : i ∉ s.counted := by
  rw [mem_counted, h]
  simp

theorem Alive.idle {s : Sim n m} (h : Alive s) {i : Fin n} (h0 : (s.processes i).remainingTime = 0) :
    s.isRunning i = false := by
  cases hr : s.isRunning i with
  | false => rfl
  | true => have := h i hr; omega

theorem Ledger.release {s : Sim n m} {record : Sim n m → Fin n → Sim n m}
    (hr : Stamps stamp record) (hco : Coherent s) (hcl : Clean s s.time) (h : Ledger stamp s s.time) {c : Fin m} {i : Fin n}
    (hc : (s.cpus c).currentPid = (s.processes i).pid) (h0 : (s.processes i).remainingTime = 0) :
    Ledger stamp { (record s i).free c i with completed := s.completed + 1 } s.time := by
  have hs := hr.same s i
  have hrun : s.isRunning i = true := (hco.running i).mpr ⟨c, hc⟩
  have hoff : ∀ j, j ≠ i → Function.update (record s i).isRunning i false j = s.isRunning j := by
    intro j hj
    rw [Function.update_of_ne hj, hs.isRunning]
  refine ⟨fun j => ?_, ?_, fun j hj hrj => ?_, fun j hj hrj => ?_⟩
  · have := h.work j
    simp only [cells, Sim.free, setCpu, hs.timeline, core_pid (hs.core j), core_remaining (hs.core j),
      core_burst (hs.core j)] at this ⊢
    exact this
  · rw [counted_release hs h0, Finset.card_insert_of_notMem (not_mem_counted hrun), ← h.completed]
  · simp only [Sim.free, setCpu, hs.timeline, core_pid (hs.core j), core_remaining (hs.core j)] at hj hrj ⊢
    have hji : j ≠ i := by
      intro e
      subst e
      simp at hrj
    rw [hoff j hji] at hrj
    exact h.last j hj hrj
  · simp only [Sim.free, setCpu, hs.timeline, core_pid (hs.core j), core_remaining (hs.core j)] at hj hrj ⊢
    by_cases hji : j = i
    · subst hji
      obtain ⟨u, hu, c', hc'⟩ := h.last j h0 hrun
      refine ⟨u, by omega, ⟨c', hc'⟩, fun c'' v hv => ?_, ?_⟩
      · by_contra hlt
        have := hcl c'' v (by omega)
        have := hco.pid_pos j
        omega
      · rw [hr.stamp s j, core_io (hs.core j), hu]
    · rw [hoff j hji] at hrj
      rw [hr.others s i j hji]
      exact h.stamped j hj hrj

def ExpireQuiet (expire : Sim n m → Fin m → Fin n → Sim n m) : Prop :=
  ∀ s c i, (s.processes i).remainingTime ≠ 0 → SameLedger s (expire s c i)

theorem keepCpu_quiet : ExpireQuiet (keepCpu (n := n) (m := m)) :=
  fun _ _ _ _ => ⟨fun _ => rfl, rfl, rfl, fun _ => rfl, fun _ _ => rfl⟩

theorem finish_ledger {find : (Fin n → Process) → Int → Option (Fin n)} {record : Sim n m → Fin n → Sim n m}
    {expire : Sim n m → Fin m → Fin n → Sim n m} (hf : Finds find) (hr : Stamps stamp record) (he : ExpireOk expire)
    (hq : ExpireQuiet expire) {s : Sim n m} (hco : Coherent s) (hcl : Clean s s.time) (h : Ledger stamp s s.time) :
    Ledger stamp (finish find record expire s) s.time := by
  have key := foldl_keeps (f := finishOn find record expire) (b := s)
    (P := fun a : Sim n m => Coherent a ∧ a.time = s.time ∧ a.timeline = s.timeline ∧ Ledger stamp a s.time)
    (List.finRange m) (by
      intro a c _ ⟨hco, ht, htl, ha⟩
      have R := finishOn_released hf hr.same he hco c
      refine ⟨R.coherent, R.time.trans ht, R.timeline.trans htl, ?_⟩
      rcases @finishOn_cases n m find record expire hf a hco c with ⟨_, e⟩ | ⟨i, hi, ⟨h0, e⟩ | ⟨h0, e⟩⟩
      · rw [e]; exact ha
      · rw [e]
        have hcl' : Clean a a.time := by
          intro c' t h'
          rw [htl]
          exact hcl c' t (by omega)
        have := Ledger.release hr hco hcl' (by rw [ht]; exact ha) hi h0
        rwa [ht] at this
      · rw [e]
        exact ha.same (hq a c i h0)) ⟨hco, rfl, rfl, h⟩
  exact key.2.2.2

/-! ## Execution -/

theorem cells_executed {s s' : Sim n m} (he : Executed s s') (hco : Coherent s) (i : Fin n) :
    (s'.cells (s.processes i).pid (s.time + 1)).card =
      (s.cells (s.processes i).pid s.time).card + if s.isRunning i then 1 else 0 := by
  have hpos := hco.pid_pos i
  have hcol : (∃ c, s'.timeline c s.time = (s.processes i).pid) ↔ s.isRunning i = true := by
    rw [hco.running i]
    constructor
    · intro ⟨c, hc⟩
      rw [he.column c] at hc
      split at hc
      · omega
      · exact ⟨c, hc⟩
    · intro ⟨c, hc⟩
      refine ⟨c, ?_⟩
      have := hco.pid_ne i
      rw [he.column c, if_neg (by rw [hc]; exact this), hc]
  have hpast : ∀ u, u < s.time → ((∃ c, s'.timeline c u = (s.processes i).pid) ↔
      ∃ c, s.timeline c u = (s.processes i).pid) := by
    intro u hu
    have : ∀ c, s'.timeline c u = s.timeline c u := fun c => he.past c u (by omega)
    simp only [this]
  have hset : s'.cells (s.processes i).pid (s.time + 1) =
      if s.isRunning i = true then insert s.time (s.cells (s.processes i).pid s.time)
      else s.cells (s.processes i).pid s.time := by
    ext u
    by_cases hu : u = s.time
    · subst hu
      rw [mem_cells, hcol]
      split
      · simp [*]
      · simp [mem_cells, *]
    · have h1 : u < s.time + 1 ↔ u < s.time := by omega
      rw [mem_cells, h1]
      have h2 : (u < s.time ∧ ∃ c, s'.timeline c u = (s.processes i).pid) ↔
          u ∈ s.cells (s.processes i).pid s.time := by
        rw [mem_cells]
        exact and_congr_right fun h => hpast u h
      rw [h2]
      split
      · simp [hu]
      · rfl
  rw [hset]
  split
  · rw [Finset.card_insert_of_notMem (by simp [mem_cells])]
  · rfl

theorem Executed.ledger {s s' : Sim n m} (he : Executed s s') (hco : Coherent s) (h : Ledger stamp s s.time) :
    Ledger stamp s' (s.time + 1) := by
  have hoff : ∀ i, s.isRunning i = false → (s'.processes i).remainingTime = (s.processes i).remainingTime := by
    intro i hi
    simp [he.processes i, hi]
  refine ⟨fun i => ?_, ?_, fun i h0 hr => ?_, fun i h0 hr => ?_⟩
  · have h1 := h.work i
    have h2 := cells_executed he hco i
    rw [he.processes i]
    simp only
    rw [h2]
    by_cases hi : s.isRunning i = true
    · simp only [hi, if_true]; omega
    · simp only [hi, if_false, Bool.false_eq_true]; omega
  · have : s'.counted = s.counted := by
      ext i
      rw [mem_counted, mem_counted, he.isRunning]
      constructor
      · exact fun ⟨h0, hr⟩ => ⟨(hoff i hr).symm.trans h0, hr⟩
      · exact fun ⟨h0, hr⟩ => ⟨(hoff i hr).trans h0, hr⟩
    rw [this, he.completed]
    exact h.completed
  · rw [he.isRunning] at hr
    obtain ⟨c, hc⟩ := (hco.running i).mp hr
    have hne := hco.pid_ne i
    refine ⟨s.time, rfl, c, ?_⟩
    rw [he.column c, if_neg (by rw [hc]; exact hne), hc, he.processes i]
  · rw [he.isRunning] at hr
    obtain ⟨u, hu, ⟨c, hc⟩, hlast, hst⟩ := h.stamped i ((hoff i hr).symm.trans h0) hr
    have hpid : (s'.processes i).pid = (s.processes i).pid := by rw [he.processes i]
    refine ⟨u, by omega, ⟨c, ?_⟩, fun c' v hv => ?_, ?_⟩
    · rw [he.past c u (by omega), hpid]; exact hc
    · rw [hpid] at hv
      by_cases hvt : v = s.time
      · -- the new column shows only processes that are running
        exfalso
        have hpos := hco.pid_pos i
        rw [hvt, he.column c'] at hv
        split at hv
        · omega
        · rw [(hco.running i).mpr ⟨c', hv⟩] at hr; cases hr
      · rw [he.past c' v hvt] at hv
        exact hlast c' v hv
    · rw [he.processes i]; exact hst

/-! ## The accounts along a run -/

structure Accounts (stamp : Nat → Int → Int) (first : Sim n m → Sim n m) (mids : List (Sim n m → Sim n m)) : Prop where
  first : ∀ s, Coherent s → Clean s s.time → Ledger stamp s s.time → Ledger stamp (first s) s.time
  mids : ∀ f ∈ mids, ∀ s, Coherent s → Alive s → (∀ i, core ((f s).processes i) = core (s.processes i)) ∧
    (∀ i, ((f s).processes i).completionTime = (s.processes i).completionTime) ∧ (f s).completed = s.completed

structure Balanced (stamp : Nat → Int → Int) (s : Sim n m) (t : Nat) : Prop where
  coherent : Coherent s
  columns : Columns s t
  ledger : Ledger stamp s t

theorem balanced_init {ps : Fin n → Process} (h : Unstarted ps) : Balanced stamp (init ps : Sim n m) 0 :=
  ⟨coherent_init h, ⟨fun _ _ _ _ hne => absurd rfl hne, fun _ _ _ => rfl⟩, ledger_init h⟩

theorem Balanced.next {s : Sim n m} (h : Balanced stamp s (s.time + 1)) :
    Balanced stamp (advance s) (advance s).time :=
  ⟨⟨h.coherent.pid_inj, h.coherent.pid_pos, h.coherent.running, h.coherent.unique, h.coherent.resolves, h.coherent.bounds⟩,
    ⟨h.columns.once, h.columns.clean⟩, ⟨h.ledger.work, h.ledger.completed, h.ledger.last, h.ledger.stamped⟩⟩

section
variable {first act : Sim n m → Sim n m} {mids : List (Sim n m → Sim n m)} (hA : Accounts stamp first mids)
  (hS : Sound first act mids) {s : Sim n m} (h : Balanced stamp s s.time)
include h hS

theorem Balanced.executed (ha : Alive s) : Balanced stamp (act s) ((act s).time + 1) := by
  have he := hS.act s h.coherent h.columns
  rw [he.time]
  exact ⟨he.coherent h.coherent ha, he.columns h.coherent h.columns, he.ledger h.coherent h.ledger⟩

include hA

theorem Balanced.enter : Balanced stamp (first s) (first s).time ∧ Alive (first s) := by
  obtain ⟨h1, h2, ht, htl⟩ := hS.first s h.coherent
  rw [ht]
  exact ⟨⟨h1, h.columns.quiet htl, hA.first s h.coherent h.columns.clean h.ledger⟩, h2⟩

theorem Balanced.mid (ha : Alive s) {f : Sim n m → Sim n m} (hf : f ∈ mids) :
    Balanced stamp (f s) (f s).time ∧ Alive (f s) := by
  obtain ⟨⟨h1, h2⟩, ht, htl⟩ := hS.mids f hf s h.coherent ha
  obtain ⟨hcore, hst, hcp⟩ := hA.mids f hf s h.coherent ha
  rw [ht]
  refine ⟨⟨h1, h.columns.quiet htl, h.ledger.same ⟨hcore, htl, hcp, hst, fun i h0 => ?_⟩⟩, h2⟩
  -- a finished process is on no CPU, before and after
  rw [ha.idle h0, h2.idle (by rw [core_remaining (hcore i)]; exact h0)]

theorem Balanced.along (ha : Alive s) (l : List (Sim n m → Sim n m)) (hl : ∀ f ∈ l, f ∈ mids) :
    Balanced stamp (body l s) (body l s).time ∧ Alive (body l s) ∧ (body l s).time = s.time := by
  induction l generalizing s with
  | nil => exact ⟨h, ha, rfl⟩
  | cons f l ih =>
    have hf := hl f List.mem_cons_self
    obtain ⟨hb, ha'⟩ := h.mid hA hS ha hf
    obtain ⟨h1, h2, ht⟩ := ih hb ha' fun g hg => hl g (List.mem_cons_of_mem f hg)
    exact ⟨h1, h2, ht.trans (hS.mids f hf s h.coherent ha).2.1⟩

theorem Balanced.iterate (k : Nat) : Balanced stamp ((body (first :: (mids ++ [act, advance])))^[k] s)
    ((body (first :: (mids ++ [act, advance])))^[k] s).time := by
  induction k with
  | zero => exact h
  | succ k ih =>
    rw [Function.iterate_succ_apply']
    generalize (body (first :: (mids ++ [act, advance])))^[k] s = a at ih
    obtain ⟨h1, ha⟩ := ih.enter hA hS
    obtain ⟨h2, ha, _⟩ := h1.along hA hS ha mids fun _ hf => hf
    have e : body (first :: (mids ++ [act, advance])) a = advance (act (body mids (first a))) := by simp [body]
    rw [e]
    exact (h2.executed hS ha).next

end

theorem Accounts.run {first act : Sim n m → Sim n m} {mids : List (Sim n m → Sim n m)}
    (hA : Accounts stamp first mids) (hS : Sound first act mids) {ps : Fin n → Process} (hw : Workload ps)
    {rest : List (Sim n m → Sim n m)} {s : Sim n m}
    (h : At guard (first :: (mids ++ [act, advance])) (init ps) rest s) :
    (rest ≠ [advance] → Ledger stamp s s.time) ∧ (rest = [advance] → Ledger stamp s (s.time + 1)) := by
  have key := At.outline
    (H := fun s : Sim n m => Balanced stamp s s.time)
    (M := fun s => Balanced stamp s s.time ∧ Alive s)
    (D := fun s => Balanced stamp s (s.time + 1)) (balanced_init hw.toUnstarted) (fun s _ hb => hb.enter hA hS)
    (fun f hf s hb => hb.1.mid hA hS hb.2 hf) (fun s hb => hb.1.executed hS hb.2) (fun s hb => hb.next) h
  rcases key with ⟨h0, hb⟩ | ⟨h0, _, hb⟩ | ⟨k, h0, hb, _⟩ | ⟨h0, hb⟩
  · exact ⟨fun _ => hb.ledger, fun h1 => by rw [h0] at h1; cases h1⟩
  · refine ⟨fun _ => hb.ledger, fun h1 => ?_⟩
    have := congrArg List.length (h0.symm.trans h1)
    simp at this
  · refine ⟨fun _ => hb.ledger, fun h1 => ?_⟩
    have := congrArg List.length (h0.symm.trans h1)
    simp at this
  · exact ⟨fun h1 => absurd h0 h1, fun _ => hb.ledger⟩

end

end Sim
end OsLab
