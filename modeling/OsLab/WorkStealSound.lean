import OsLab.SchedSound
import OsLab.WorkSteal

/-!
# Work stealing loses no process

A process that has arrived and is unfinished sits in a queue or on a core, and
a core stays idle after step B only when every queue is empty.
-/

namespace OsLab

namespace CPUQueue
variable {n : Nat}

def Holds (q : CPUQueue n) (k : Nat) (i : Fin n) : Prop := q.front ≤ k ∧ k < q.rear ∧ q.processIndices k = some i

structure Ok (q : CPUQueue n) : Prop where
  order : q.front ≤ q.rear
  size : q.size = q.rear - q.front
  filled : ∀ k, q.front ≤ k → k < q.rear → ∃ i, q.processIndices k = some i

theorem empty_ok : (empty : CPUQueue n).Ok :=
  ⟨Nat.le_refl _, rfl, fun _ _ h => absurd h (Nat.not_lt_zero _)⟩

theorem pushBack_ok {q : CPUQueue n} (h : q.Ok) (i : Fin n) : (q.pushBack i).Ok where
  order := Nat.le_succ_of_le h.order
  size := by
    have := h.order
    simp only [pushBack, h.size]
    omega
  filled := fun k hf hr => by
    simp only [pushBack] at hf hr ⊢
    by_cases hk : k = q.rear
    · subst hk; exact ⟨i, by simp⟩
    · rw [Function.update_of_ne hk]
      exact h.filled k hf (by omega)

theorem pushBack_holds {q : CPUQueue n} (h : q.Ok) (i : Fin n) (k : Nat) (j : Fin n) :
    (q.pushBack i).Holds k j ↔ q.Holds k j ∨ (k = q.rear ∧ j = i) := by
  have := h.order
  simp only [Holds, pushBack]
  by_cases hk : k = q.rear
  · subst hk
    simp only [Function.update_self, Option.some.injEq, Nat.lt_irrefl, false_and, and_false, false_or, true_and]
    exact ⟨fun h => h.2.2.symm, fun h => ⟨this, Nat.lt_succ_self _, h.symm⟩⟩
  · simp only [Function.update_of_ne hk, hk, false_and, or_false]
    exact ⟨fun ⟨a, b, c⟩ => ⟨a, by omega, c⟩, fun ⟨a, b, c⟩ => ⟨a, by omega, c⟩⟩

structure PopOk (pop : CPUQueue n → Option (Fin n) × CPUQueue n) (q : CPUQueue n) : Prop where
  ok : (pop q).2.Ok
  empty : q.size = 0 → pop q = (none, q)
  one : q.size ≠ 0 → ∃ i k₀, (pop q).1 = some i ∧ q.Holds k₀ i ∧
    ∀ k j, (pop q).2.Holds k j ↔ q.Holds k j ∧ k ≠ k₀

theorem popFront_ok {q : CPUQueue n} (h : q.Ok) : PopOk popFront q := by
  by_cases h0 : q.size = 0
  · have e : popFront q = (none, q) := if_pos h0
    exact ⟨by rw [e]; exact h, fun _ => e, fun h' => absurd h0 h'⟩
  · have hs := h.size
    have e : popFront q = (q.processIndices q.front, { q with front := q.front + 1, size := q.size - 1 }) := if_neg h0
    obtain ⟨i, hi⟩ := h.filled q.front (Nat.le_refl _) (by omega)
    refine ⟨?_, fun h' => absurd h' h0, fun _ => ⟨i, q.front, by rw [e]; exact hi, ⟨Nat.le_refl _, by omega, hi⟩, ?_⟩⟩
    · rw [e]
      exact ⟨by simp only; omega, by simp only; omega, fun k hf hr => h.filled k (by simp only at hf; omega) hr⟩
    · intro k j
      rw [e]
      simp only [Holds]
      exact ⟨fun ⟨a, b, c⟩ => ⟨⟨by omega, b, c⟩, by omega⟩, fun ⟨⟨a, b, c⟩, d⟩ => ⟨by omega, b, c⟩⟩

theorem popBack_ok {q : CPUQueue n} (h : q.Ok) : PopOk popBack q := by
  by_cases h0 : q.size = 0
  · have e : popBack q = (none, q) := if_pos h0
    exact ⟨by rw [e]; exact h, fun _ => e, fun h' => absurd h0 h'⟩
  · have hs := h.size
    have e : popBack q = (q.processIndices (q.rear - 1), { q with rear := q.rear - 1, size := q.size - 1 }) := if_neg h0
    obtain ⟨i, hi⟩ := h.filled (q.rear - 1) (by omega) (by omega)
    refine ⟨?_, fun h' => absurd h' h0, fun _ => ⟨i, q.rear - 1, by rw [e]; exact hi, ⟨by omega, by omega, hi⟩, ?_⟩⟩
    · rw [e]
      exact ⟨by simp only; omega, by simp only; omega, fun k hf hr => h.filled k hf (by simp only at hr; omega)⟩
    · intro k j
      rw [e]
      simp only [Holds]
      exact ⟨fun ⟨a, b, c⟩ => ⟨⟨a, by omega, c⟩, by omega⟩, fun ⟨⟨a, b, c⟩, d⟩ => ⟨a, by omega, c⟩⟩

end CPUQueue

namespace WorkSim
variable {n m : Nat}

def Queued (s : WorkSim n m) (i : Fin n) : Prop := ∃ c k, (s.queues c).Holds k i

def OnCore (s : WorkSim n m) (i : Fin n) : Prop := ∃ c, s.cores c = (s.processes i).pid

structure Kept (ps : Fin n → Process) (s : WorkSim n m) : Prop where
  pid : ∀ i, (s.processes i).pid = (ps i).pid
  arrival : ∀ i, (s.processes i).arrivalTime = (ps i).arrivalTime
  queues : ∀ c, (s.queues c).Ok
  kept : ∀ i, s.arrived i = true → 0 < (s.processes i).remainingTime → s.Queued i ∨ s.OnCore i

theorem kept_init (ps : Fin n → Process) : Kept ps (init (m := m) ps) :=
  ⟨fun _ => rfl, fun _ => rfl, fun _ => CPUQueue.empty_ok, fun _ h => by cases h⟩

section
variable {ps : Fin n → Process}

/-! ## Step A -/

theorem minQ_some (s : WorkSim n m) (hm : 0 < m) : ∃ c, s.minQ = some c := by
  cases h : s.minQ with
  | some c => exact ⟨c, rfl⟩
  | none =>
    have := (scanMin_spec _ _ _).1 h ⟨0, hm⟩ (List.mem_finRange _)
    cases this

theorem loadOn_cases (hm : 0 < m) (s : WorkSim n m) (i : Fin n) :
    (loadOn s i = s ∧ ((s.processes i).arrivalTime = s.currentTime → s.arrived i = true)) ∨
    ∃ c, loadOn s i = { s with
      queues := Function.update s.queues c ((s.queues c).pushBack i)
      arrived := Function.update s.arrived i true } := by
  unfold loadOn
  by_cases h : (s.processes i).arrivalTime = s.currentTime ∧ s.arrived i = false
  · obtain ⟨c, hc⟩ := s.minQ_some hm
    rw [if_pos h, hc]
    exact Or.inr ⟨c, rfl⟩
  · rw [if_neg h]
    refine Or.inl ⟨rfl, fun ha => ?_⟩
    cases hb : s.arrived i with
    | true => rfl
    | false => exact absurd ⟨ha, hb⟩ h

def Seen (ps : Fin n → Process) (s : WorkSim n m) (t : Int) : Prop :=
  ∀ i, (ps i).arrivalTime < t → s.arrived i = true

theorem Queued.mono {s s' : WorkSim n m} {i : Fin n} (h : s.Queued i)
    (hq : ∀ c k, (s.queues c).Holds k i → (s'.queues c).Holds k i) : s'.Queued i := by
  obtain ⟨c, k, hk⟩ := h
  exact ⟨c, k, hq c k hk⟩

theorem loadOn_kept (hm : 0 < m) {s : WorkSim n m} (h : Kept ps s) (i : Fin n) : Kept ps (loadOn s i) := by
  rcases loadOn_cases hm s i with ⟨e, _⟩ | ⟨c, e⟩
  · rw [e]; exact h
  have hq : ∀ c' k j, ((loadOn s i).queues c').Holds k j ↔
      (s.queues c').Holds k j ∨ (c' = c ∧ k = (s.queues c).rear ∧ j = i) := by
    intro c' k j
    rw [e]
    by_cases hc : c' = c
    · subst hc
      simp only [Function.update_self, CPUQueue.pushBack_holds (h.queues c'), true_and]
    · simp only [Function.update_of_ne hc, hc, false_and, or_false]
  refine ⟨by rw [e]; exact h.pid, by rw [e]; exact h.arrival, fun c' => ?_, fun j hj hr => ?_⟩
  · rw [e]
    by_cases hc : c' = c
    · subst hc; simp only [Function.update_self]; exact CPUQueue.pushBack_ok (h.queues c') i
    · simp only [Function.update_of_ne hc]; exact h.queues c'
  · by_cases hji : j = i
    · exact Or.inl ⟨c, (s.queues c).rear, (hq _ _ _).mpr (Or.inr ⟨rfl, rfl, hji⟩)⟩
    · rw [e] at hj hr
      simp only [Function.update_of_ne hji] at hj
      rcases h.kept j hj hr with hk | hk
      · exact Or.inl (hk.mono fun c' k hk => (hq c' k j).mpr (Or.inl hk))
      · rw [e]; exact Or.inr hk

theorem loadOn_time (hm : 0 < m) (s : WorkSim n m) (i : Fin n) : (loadOn s i).currentTime = s.currentTime := by
  rcases loadOn_cases hm s i with ⟨e, _⟩ | ⟨c, e⟩ <;> rw [e]

theorem loadOn_arrived (hm : 0 < m) (s : WorkSim n m) (i : Fin n) :
    (∀ j, s.arrived j = true → (loadOn s i).arrived j = true) ∧
      ((s.processes i).arrivalTime = s.currentTime → (loadOn s i).arrived i = true) := by
  rcases loadOn_cases hm s i with ⟨e, ha⟩ | ⟨c, e⟩
  · rw [e]; exact ⟨fun _ h => h, ha⟩
  · rw [e]
    refine ⟨fun j hj => ?_, fun _ => by simp⟩
    by_cases hji : j = i
    · subst hji; simp
    · simpa [hji] using hj

theorem load_kept (hm : 0 < m) {s : WorkSim n m} (h : Kept ps s) (hs : Seen ps s s.currentTime) :
    Kept ps (load s) ∧ (load s).currentTime = s.currentTime ∧ Seen ps (load s) (s.currentTime + 1) := by
  have key := foldl_range (f := loadOn) (b := s)
    (P := fun l a => Kept ps a ∧ a.currentTime = s.currentTime ∧ Seen ps a s.currentTime ∧
      ∀ i ∈ l, (ps i).arrivalTime = s.currentTime → a.arrived i = true)
    (List.finRange n) ⟨h, rfl, hs, fun _ hi => by cases hi⟩ (by
      intro l i a _ ⟨hk, ht, hseen, hnew⟩
      obtain ⟨hmono, hi⟩ := loadOn_arrived hm a i
      refine ⟨loadOn_kept hm hk i, (loadOn_time hm a i).trans ht, fun j hj => hmono j (hseen j hj), fun j hj ha => ?_⟩
      rcases List.mem_append.mp hj with hj | hj
      · exact hmono j (hnew j hj ha)
      · rw [List.mem_singleton] at hj
        subst hj
        exact hi (by rw [hk.arrival j, ht]; exact ha))
  obtain ⟨hk, ht, hseen, hnew⟩ := key
  refine ⟨hk, ht, fun i hi => ?_⟩
  by_cases he : (ps i).arrivalTime = s.currentTime
  · exact hnew i (List.mem_finRange i) he
  · exact hseen i (by omega)

/-! ## Step B -/

theorem maxQ_eq (s : WorkSim n m) (i : Fin m) : s.maxQ i = (List.finRange m).foldl
    (scanMin (fun c => decide (c ≠ i) && decide (0 < (s.queues c).size)) fun c => -((s.queues c).size : Int)) none := by
  refine scan_sentinel _ _ 0 (fun c => (s.queues c).size) (s.maxScan i) ?_ ?_ _
  · intro c
    by_cases hc : c = i <;> by_cases h0 : 0 < (s.queues c).size <;> simp [maxScan, hc, h0]
  · intro b hb c
    simp only [Bool.and_eq_true, decide_eq_true_eq] at hb
    by_cases hc : c = i
    · simp [maxScan, hc]
    · by_cases hlt : (s.queues b).size < (s.queues c).size
      · simp [maxScan, hc, hlt, show 0 < (s.queues c).size by omega]
      · simp [maxScan, hc, hlt]

theorem maxQ_some {s : WorkSim n m} {i c : Fin m} (h : s.maxQ i = some c) : c ≠ i ∧ (s.queues c).size ≠ 0 := by
  rw [maxQ_eq] at h
  have := ((scanMin_spec _ _ _).2 c h).2.1
  simp only [Bool.and_eq_true, decide_eq_true_eq] at this
  exact ⟨this.1, by omega⟩

theorem maxQ_none {s : WorkSim n m} {i : Fin m} (h : s.maxQ i = none) (c : Fin m) (hc : c ≠ i) :
    (s.queues c).size = 0 := by
  rw [maxQ_eq] at h
  have := (scanMin_spec _ _ _).1 h c (List.mem_finRange c)
  simpa [hc] using this

structure Took (s s' : WorkSim n m) (i c : Fin m) (p : Fin n) (k : Nat) : Prop where
  held : (s.queues c).Holds k p
  ok : (s'.queues c).Ok
  queue : ∀ k' j, (s'.queues c).Holds k' j ↔ (s.queues c).Holds k' j ∧ k' ≠ k
  others : ∀ c', c' ≠ c → s'.queues c' = s.queues c'
  cores : s'.cores = Function.update s.cores i (s.processes p).pid
  processes : s'.processes = s.processes
  arrived : s'.arrived = s.arrived
  time : s'.currentTime = s.currentTime

theorem take_none (s : WorkSim n m) {pop : CPUQueue n → Option (Fin n) × CPUQueue n} (i : Fin m) {c : Fin m}
    (hp : CPUQueue.PopOk pop (s.queues c)) (h0 : (s.queues c).size = 0) : s.take pop i c = s := by
  unfold take
  simp only [hp.empty h0, Function.update_eq_self]

theorem take_some (s : WorkSim n m) {pop : CPUQueue n → Option (Fin n) × CPUQueue n} (i : Fin m) {c : Fin m}
    (hp : CPUQueue.PopOk pop (s.queues c)) (h0 : (s.queues c).size ≠ 0) : ∃ p k, Took s (s.take pop i c) i c p k := by
  obtain ⟨p, k, hpop, hk, hq⟩ := hp.one h0
  refine ⟨p, k, ?_⟩
  unfold take
  simp only [hpop]
  refine ⟨hk, ?_, ?_, fun c' hc => Function.update_of_ne hc _ _, rfl, rfl, rfl, rfl⟩
  · simp only [Function.update_self]; exact hp.ok
  · simp only [Function.update_self]; exact hq

theorem assignOn_cases {s : WorkSim n m} (h : ∀ c, (s.queues c).Ok) (i : Fin m) :
    (assignOn s i = s ∧ (s.cores i = -1 → ∀ c, (s.queues c).size = 0)) ∨
    (s.cores i = -1 ∧ ∃ c p k, Took s (assignOn s i) i c p k) := by
  unfold assignOn
  by_cases hi : s.cores i = -1
  · rw [if_pos hi]
    have hpop := CPUQueue.popFront_ok (h i)
    by_cases h0 : (s.queues i).size = 0
    · rw [hpop.empty h0, take_none s i hpop h0]
      simp only
      cases hq : s.maxQ i with
      | none =>
        refine Or.inl ⟨rfl, fun _ c => ?_⟩
        by_cases hc : c = i
        · rw [hc]; exact h0
        · exact maxQ_none hq c hc
      | some c => exact Or.inr ⟨hi, c, take_some s i (CPUQueue.popBack_ok (h c)) (maxQ_some hq).2⟩
    · obtain ⟨p, k, hp, _⟩ := hpop.one h0
      rw [hp]
      exact Or.inr ⟨hi, i, take_some s i hpop h0⟩
  · rw [if_neg hi]
    exact Or.inl ⟨rfl, fun h' => absurd h' hi⟩

theorem Took.kept {s s' : WorkSim n m} {i c : Fin m} {p : Fin n} {k : Nat} (h : Kept ps s)
    (hne : ∀ i, (ps i).pid ≠ -1) (hi : s.cores i = -1) (t : Took s s' i c p k) : Kept ps s' where
  pid := by rw [t.processes]; exact h.pid
  arrival := by rw [t.processes]; exact h.arrival
  queues := fun c' => by
    by_cases hc : c' = c
    · rw [hc]; exact t.ok
    · rw [t.others c' hc]; exact h.queues c'
  kept := fun j hj hr => by
    rw [t.arrived] at hj
    rw [t.processes] at hr
    rcases h.kept j hj hr with ⟨c', k', hk⟩ | ⟨c', hc'⟩
    · by_cases hc : c' = c
      · subst hc
        by_cases hkk : k' = k
        · -- the position that left the queue: its process is on core `i` now
          subst hkk
          have hjp : j = p := Option.some.inj (hk.2.2.symm.trans t.held.2.2)
          exact Or.inr ⟨i, by rw [t.cores, t.processes, hjp, Function.update_self]⟩
        · exact Or.inl ⟨c', k', (t.queue k' j).mpr ⟨hk, hkk⟩⟩
      · exact Or.inl ⟨c', k', by rw [t.others c' hc]; exact hk⟩
    · have hne' : c' ≠ i := by
        intro e
        rw [e, hi, h.pid j] at hc'
        exact hne j hc'.symm
      exact Or.inr ⟨c', by rw [t.cores, t.processes, Function.update_of_ne hne']; exact hc'⟩

theorem assign_kept (hne : ∀ i, (ps i).pid ≠ -1) {s : WorkSim n m} (h : Kept ps s) :
    Kept ps (assign s) ∧ (assign s).currentTime = s.currentTime ∧ (assign s).arrived = s.arrived ∧
      ((∃ c, (assign s).cores c = -1) → ∀ c, ((assign s).queues c).size = 0) := by
  have key := foldl_range (f := assignOn) (b := s)
    (P := fun l a => Kept ps a ∧ a.currentTime = s.currentTime ∧ a.arrived = s.arrived ∧
      ((∃ c ∈ l, a.cores c = -1) → ∀ c, (a.queues c).size = 0))
    (List.finRange m) ⟨h, rfl, rfl, fun ⟨_, hc, _⟩ => by cases hc⟩ (by
      intro l i a hl ⟨hk, ht, har, hid⟩
      have hil := not_mem_visited (List.nodup_finRange m) hl
      rcases assignOn_cases hk.queues i with ⟨e, h0⟩ | ⟨hi, c, p, k, t⟩
      · rw [e]
        refine ⟨hk, ht, har, fun ⟨c, hc, hcc⟩ => ?_⟩
        rcases List.mem_append.mp hc with hc | hc
        · exact hid ⟨c, hc, hcc⟩
        · rw [List.mem_singleton] at hc
          subst hc
          exact h0 hcc
      · refine ⟨t.kept hk hne hi, t.time.trans ht, t.arrived.trans har, fun ⟨c', hc', hcc⟩ => ?_⟩
        exfalso
        have hpid : (a.processes p).pid ≠ -1 := by rw [hk.pid p]; exact hne p
        have hci : c' ≠ i := by
          intro e'
          rw [t.cores, e', Function.update_self] at hcc
          exact hpid hcc
        rw [t.cores, Function.update_of_ne hci] at hcc
        have hc'l : c' ∈ l := by
          rcases List.mem_append.mp hc' with hc' | hc'
          · exact hc'
          · exact absurd (List.mem_singleton.mp hc') hci
        -- an earlier core was idle with a process still queued at `c`
        have h0 := hid ⟨c', hc'l, hcc⟩ c
        have hs := (hk.queues c).size
        have := t.held
        simp only [CPUQueue.Holds] at this
        omega)
  obtain ⟨hk, ht, har, hid⟩ := key
  exact ⟨hk, ht, har, fun ⟨c, hc⟩ => hid ⟨c, List.mem_finRange c, hc⟩⟩

/-! ## Step C -/

theorem executeOn_cases (s : WorkSim n m) (i : Fin m) :
    (∃ v, executeOn s i = s.mark i v) ∨
    ∃ j, s.cores i = (s.processes j).pid ∧
      (((s.processes j).remainingTime - 1 = 0 ∧ ∃ p, p.pid = (s.processes j).pid ∧
          p.arrivalTime = (s.processes j).arrivalTime ∧ p.remainingTime = (s.processes j).remainingTime - 1 ∧
          executeOn s i = { s.mark i (s.cores i) with
            processes := Function.update s.processes j p
            completedProcesses := s.completedProcesses + 1
            cores := Function.update s.cores i (-1) }) ∨
       executeOn s i = { s.mark i (s.cores i) with
          processes := Function.update s.processes j
            { s.processes j with remainingTime := (s.processes j).remainingTime - 1 } }) := by
  unfold executeOn
  by_cases hi : s.cores i = -1
  · exact Or.inl ⟨0, by simp [hi]⟩
  · rw [if_pos hi]
    cases hf : Sim.findFirst s.processes (s.cores i) with
    | none => exact Or.inl ⟨s.cores i, by simp [mark, hf]⟩
    | some j =>
      have hj : (s.processes j).pid = s.cores i := by
        have := List.find?_some hf
        simpa using this
      refine Or.inr ⟨j, hj.symm, ?_⟩
      by_cases h0 : (s.processes j).remainingTime - 1 = 0
      · refine Or.inl ⟨h0, s.record { s.processes j with remainingTime := (s.processes j).remainingTime - 1 },
          rfl, rfl, rfl, ?_⟩
        simp [mark, hf, h0, record]
      · refine Or.inr ?_
        simp [mark, hf, h0]

theorem Kept.execute {s s' : WorkSim n m} (h : Kept ps s) {j : Fin n} {p : Process}
    (hpid : p.pid = (s.processes j).pid) (harr : p.arrivalTime = (s.processes j).arrivalTime)
    (hrem : p.remainingTime = (s.processes j).remainingTime - 1)
    (hps : s'.processes = Function.update s.processes j p) (hq : s'.queues = s.queues)
    (har : s'.arrived = s.arrived)
    (hcores : ∀ i, 0 < (s'.processes i).remainingTime → s.OnCore i → ∃ c, s'.cores c = (s.processes i).pid) :
    Kept ps s' := by
  have hpid' : ∀ i, (s'.processes i).pid = (s.processes i).pid := by
    intro i
    rw [hps]
    by_cases hi : i = j
    · subst hi; simpa using hpid
    · rw [Function.update_of_ne hi]
  refine ⟨fun i => (hpid' i).trans (h.pid i), fun i => ?_, by rw [hq]; exact h.queues, fun i hi hr => ?_⟩
  · rw [hps]
    by_cases hi : i = j
    · subst hi; simpa [harr] using h.arrival i
    · rw [Function.update_of_ne hi]; exact h.arrival i
  · have hr' : 0 < (s.processes i).remainingTime := by
      rw [hps] at hr
      by_cases hij : i = j
      · subst hij
        rw [Function.update_self, hrem] at hr
        omega
      · rwa [Function.update_of_ne hij] at hr
    rw [har] at hi
    rcases h.kept i hi hr' with hk | hk
    · exact Or.inl (hk.mono fun c k hk => by rw [hq]; exact hk)
    · obtain ⟨c, hc⟩ := hcores i hr hk
      exact Or.inr ⟨c, hc.trans (hpid' i).symm⟩

theorem executeOn_kept (hinj : Function.Injective fun i => (ps i).pid) {s : WorkSim n m} (h : Kept ps s) (i : Fin m) :
    Kept ps (executeOn s i) ∧ (executeOn s i).currentTime = s.currentTime ∧ (executeOn s i).arrived = s.arrived := by
  rcases executeOn_cases s i with ⟨v, e⟩ | ⟨j, hj, ⟨h0, p, hpid, harr, hrem, e⟩ | e⟩
  · rw [e]; exact ⟨⟨h.pid, h.arrival, h.queues, h.kept⟩, rfl, rfl⟩
  · rw [e]
    refine ⟨h.execute hpid harr hrem rfl rfl rfl fun i' hr hc => ?_, rfl, rfl⟩
    obtain ⟨c, hc⟩ := hc
    have hne : c ≠ i := by
      intro e'
      rw [e', hj, h.pid, h.pid] at hc
      have : j = i' := hinj hc
      subst this
      simp only [Function.update_self, hrem, h0] at hr
      omega
    exact ⟨c, by simpa [Function.update_of_ne hne] using hc⟩
  · rw [e]
    exact ⟨h.execute (j := j) (p := { s.processes j with remainingTime := (s.processes j).remainingTime - 1 })
      rfl rfl rfl rfl rfl rfl fun _ _ hc => hc, rfl, rfl⟩

theorem execute_kept (hinj : Function.Injective fun i => (ps i).pid) {s : WorkSim n m} (h : Kept ps s) :
    Kept ps (execute s) ∧ (execute s).currentTime = s.currentTime ∧ (execute s).arrived = s.arrived :=
  foldl_keeps (P := fun a : WorkSim n m => Kept ps a ∧ a.currentTime = s.currentTime ∧ a.arrived = s.arrived) _
    (fun a i _ ⟨hk, ht, har⟩ => by
      obtain ⟨h1, h2, h3⟩ := executeOn_kept hinj hk i
      exact ⟨h1, h2.trans ht, h3.trans har⟩) ⟨h, rfl, rfl⟩

/-! ## The invariant along a run -/

variable (hm : 0 < m) (hinj : Function.Injective fun i => (ps i).pid) (hne : ∀ i, (ps i).pid ≠ -1)
  (harr : ∀ i, 0 ≤ (ps i).arrivalTime)
include hm hinj hne harr

/-- **Run lemma.** Between steps A and C every process whose arrival time has
come has been queued, and no unfinished one is lost. -/
theorem kept_run {rest : List (WorkSim n m → WorkSim n m)} {s : WorkSim n m}
    (h : At guard steps (init ps) rest s) :
    (rest = [] ∧ Kept ps s ∧ Seen ps s s.currentTime) ∨
    (rest = steps ∧ guard s ∧ Kept ps s ∧ Seen ps s s.currentTime) ∨
    (∃ k, rest = [assign].drop k ++ [execute, advance] ∧ Kept ps s ∧ Seen ps s (s.currentTime + 1)) ∨
    (rest = [advance] ∧ Kept ps s ∧ Seen ps s (s.currentTime + 1)) := by
  refine At.outline (H := fun s => Kept ps s ∧ Seen ps s s.currentTime)
    (M := fun s => Kept ps s ∧ Seen ps s (s.currentTime + 1))
    (D := fun s => Kept ps s ∧ Seen ps s (s.currentTime + 1)) ?_ ?_ ?_ ?_ ?_ h
  · refine ⟨kept_init ps, fun i hi => ?_⟩
    have := harr i
    have hi : (ps i).arrivalTime < 0 := hi
    omega
  · intro s _ ⟨hk, hs⟩
    obtain ⟨h1, ht, h2⟩ := load_kept hm hk hs
    exact ⟨h1, by rw [ht]; exact h2⟩
  · intro f hf s ⟨hk, hs⟩
    rw [List.mem_singleton] at hf
    subst hf
    obtain ⟨h1, ht, har, _⟩ := assign_kept hne hk
    exact ⟨h1, fun i hi => by rw [har]; exact hs i (by rw [← ht]; exact hi)⟩
  · intro s ⟨hk, hs⟩
    obtain ⟨h1, ht, har⟩ := execute_kept hinj hk
    exact ⟨h1, fun i hi => by rw [har]; exact hs i (by rw [← ht]; exact hi)⟩
  · intro s ⟨hk, hs⟩
    exact ⟨⟨hk.pid, hk.arrival, hk.queues, hk.kept⟩, fun i hi => hs i (by simpa [advance] using hi)⟩

/-- After step B, an idle core means that the queues are empty and that every
process that has arrived and is unfinished is on a core. -/
theorem idle_after_assign {s : WorkSim n m} (h : At guard steps (init ps) [execute, advance] s)
    (hidle : ∃ c, s.cores c = -1) : (∀ c, (s.queues c).size = 0) ∧
      ∀ i, (s.processes i).arrivalTime ≤ s.currentTime → 0 < (s.processes i).remainingTime → s.OnCore i := by
  obtain ⟨s', hs', rfl⟩ := h.back (f := assign) (by simp [steps])
  rcases kept_run hm hinj hne harr hs' with ⟨h0, _⟩ | ⟨h0, _⟩ | ⟨_, _, hk, hseen⟩ | ⟨h0, _⟩
  · cases h0
  · simp [steps] at h0
  · obtain ⟨hk', ht, har, hq⟩ := assign_kept hne hk
    refine ⟨hq hidle, fun i hi hr => ?_⟩
    have hia : (assign s').arrived i = true := by
      rw [har]
      apply hseen
      rw [← hk'.arrival i, ← ht]
      omega
    rcases hk'.kept i hia hr with ⟨c, k, hf, hlt, _⟩ | hc
    · have h1 := hq hidle c
      have h2 := (hk'.queues c).size
      omega
    · exact hc
  · simp at h0

end

end WorkSim

end OsLab
