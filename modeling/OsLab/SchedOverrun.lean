import OsLab.SchedBounds

/-!
# The arrays of fixed size are overrun

A run with more than a hundred processes has one whose index lies beyond `is_running`,
`arrived` and `process_indices`. Work stealing looks at `arrived` for it when it
arrives; the other schedulers look at `is_running` for it when a CPU is idle, and a CPU
that is never idle would have to run one process for longer than any burst lasts.
-/

namespace OsLab
namespace Sim
variable {n m : Nat}

/-! ## The assignment step -/

section
variable {scan : Sim n m → List Use} {pick : Sim n m → Option (Fin n)} {charge : Sim n m → Sim n m}
  {timeLeft : Processor → Process → Int} {s : Sim n m} {z : Fin n} (hz : 100 ≤ z.val)
  (hin : ∀ u ∈ traced (assignOnUses scan pick) (assignOn pick charge timeLeft) (List.finRange m) s, u.InBounds n m)
include hz hin

theorem assign_waits (hch : ∀ s, SameCore s (charge s)) (hs : s.isRunning z = false) :
    (assign pick charge timeLeft s).isRunning z = false := by
  refine foldl_traced (P := fun _ (a : Sim n m) => a.isRunning z = false) hin hs fun l c a _ hu ha => ?_
  rcases @assignOn_cases n m pick charge timeLeft a c with ⟨_, e⟩ | ⟨_, _, e⟩ | ⟨i, hc, hi, e⟩
  · rw [e]; exact ha
  · rw [e, (hch a).isRunning]; exact ha
  · have hlt := hu (.isRunning i.val) (by simp [assignOnUses, hc, hi])
    have hne : z ≠ i := by
      intro e'
      rw [← e'] at hlt
      simp only [Use.InBounds, Use.Within] at hlt
      omega
    rw [e]
    simp only [dispatch, Function.update_of_ne hne, (hch a).isRunning]
    exact ha

theorem assign_full (hscan : ∀ s : Sim n m, (s.processes z).arrivalTime ≤ s.time → 0 < (s.processes z).remainingTime →
      Use.isRunning z.val ∈ scan s) (ha : (s.processes z).arrivalTime ≤ s.time) (hr : 0 < (s.processes z).remainingTime) :
    assign pick charge timeLeft s = s ∧ ∀ c, (s.cpus c).currentPid ≠ -1 := by
  have key := foldl_traced (P := fun l a => a = s ∧ ∀ c ∈ l, (s.cpus c).currentPid ≠ -1) hin
    ⟨rfl, fun _ hc => by cases hc⟩ (by
      rintro l c a - hu ⟨rfl, hl⟩
      have hc : (a.cpus c).currentPid ≠ -1 := by
        intro hc
        have hlt := hu (.isRunning z.val) (by simp [assignOnUses, hc, hscan a ha hr])
        simp only [Use.InBounds, Use.Within] at hlt
        omega
      refine ⟨if_neg hc, fun c' hc' => ?_⟩
      rcases List.mem_append.mp hc' with h | h
      · exact hl c' h
      · rw [List.mem_singleton.mp h]; exact hc)
  exact ⟨key.1, fun c => key.2 c (List.mem_finRange c)⟩

end

/-! ## The process that waits -/

/-- At the head of tick `k` process `z` waits; from tick 5 on all CPUs have been
busy since tick 4, each with the process it had then. -/
structure Waiting (stamp : Nat → Int → Int) (z : Fin n) (k : Nat) (s : Sim n m) : Prop where
  balanced : Balanced stamp s s.time
  time : s.time = k
  arrival : (s.processes z).arrivalTime ≤ 4
  burst : ∀ i, (s.processes i).burstTime ≤ 10
  waits : s.isRunning z = false
  left : 0 < (s.processes z).remainingTime
  busy : 5 ≤ k → (∃ i, s.isRunning i = true) ∧ ∀ i, s.isRunning i = true → (s.processes i).remainingTime + k ≤ 14

theorem waiting_init {stamp : Nat → Int → Int} {ps : Fin n → Process} (h : Unstarted ps) {z : Fin n}
    (harr : (ps z).arrivalTime ≤ 4) (hburst : ∀ i, (ps i).burstTime ≤ 10) : Waiting stamp z 0 (init ps : Sim n m) where
  balanced := balanced_init h
  time := rfl
  arrival := harr
  burst := hburst
  waits := rfl
  left := by
    have h1 := h.fresh z
    have h2 := h.burst_pos z
    simp only [init]
    omega
  busy := fun hk => absurd hk (by decide)

section
variable {stamp : Nat → Int → Int} {z : Fin n} {k : Nat} {s : Sim n m}

theorem Waiting.guard (h : Waiting stamp z k s) (hk : k < maxTime) : s.guard := by
  refine ⟨?_, by rw [h.time]; exact hk⟩
  have hz : z ∉ s.counted := by
    rw [mem_counted]
    have := h.left
    omega
  have := Finset.card_lt_univ_of_notMem hz
  rwa [Fintype.card_fin, ← h.balanced.ledger.completed] at this

theorem Waiting.false_of_fifteen (h : Waiting stamp z 15 s) : False := by
  obtain ⟨⟨i, hi⟩, hle⟩ := h.busy (by decide)
  have h1 := hle i hi
  have h2 := (h.balanced.coherent.bounds i).1
  omega

structure Retires (s s' : Sim n m) : Prop where
  core : ∀ i, core (s'.processes i) = core (s.processes i)
  running : ∀ i, s'.isRunning i = true → s.isRunning i = true

theorem Retires.trans {s s' s'' : Sim n m} (h : Retires s s') (h' : Retires s' s'') : Retires s s'' :=
  ⟨fun i => (h'.core i).trans (h.core i), fun i hi => h.running i (h'.running i hi)⟩

theorem Retires.waits {s s' : Sim n m} (h : Retires s s') (hs : s.isRunning z = false) : s'.isRunning z = false := by
  rw [Bool.eq_false_iff] at hs ⊢
  exact fun hz => hs (h.running z hz)

end

section
variable {stamp : Nat → Int → Int} {first act : (Sim n m → Sim n m) × (Sim n m → List Use)}
  {pre : List ((Sim n m → Sim n m) × (Sim n m → List Use))} {scan : Sim n m → List Use} {pick : Sim n m → Option (Fin n)}
  {charge : Sim n m → Sim n m} {timeLeft : Processor → Process → Int} {mids : List ((Sim n m → Sim n m) × (Sim n m → List Use))}
  (hmids : mids = pre ++ [(assign pick charge timeLeft,
    traced (assignOnUses scan pick) (assignOn pick charge timeLeft) (List.finRange m))])
  (hA : Accounts stamp first.1 (mids.map Prod.fst)) (hS : Sound first.1 act.1 (mids.map Prod.fst))
  (hL : Lawful first.1 (mids.map Prod.fst))
  (hpre : ∀ f ∈ pre.map Prod.fst, ∀ s, Coherent s → Alive s → Retires s (f s)) (hch : ∀ s, SameCore s (charge s))
  (hm : 0 < m) {z : Fin n} (hz : 100 ≤ z.val)
  (hscan : ∀ s : Sim n m, (s.processes z).arrivalTime ≤ s.time → 0 < (s.processes z).remainingTime →
    Use.isRunning z.val ∈ scan s)

include hA hS hL hpre in
theorem Waiting.before {k : Nat} {s : Sim n m} (h : Waiting stamp z k s) (hsub : ∀ p ∈ pre, p ∈ mids) :
    ∃ a, a = body (pre.map Prod.fst) (first.1 s) ∧ Balanced stamp a a.time ∧ Alive a ∧ a.time = k ∧ Retires s a := by
  have along : ∀ l, (∀ f ∈ l, f ∈ pre.map Prod.fst) → ∀ a, Balanced stamp a a.time → Alive a → Retires a (body l a) := by
    intro l
    induction l with
    | nil => exact fun _ a _ _ => ⟨fun _ => rfl, fun _ hi => hi⟩
    | cons f l ih =>
      intro hl a hb ha
      have hf := hl f List.mem_cons_self
      obtain ⟨p, hp, rfl⟩ := List.mem_map.mp hf
      obtain ⟨hb', ha'⟩ := hb.mid hA hS ha (List.mem_map_of_mem (hsub p hp))
      exact (hpre _ hf a hb.coherent ha).trans (ih (fun g hg => hl g (List.mem_cons_of_mem _ hg)) _ hb' ha')
  obtain ⟨hb, ha⟩ := h.balanced.enter hA hS
  have hsub' : ∀ f ∈ pre.map Prod.fst, f ∈ mids.map Prod.fst := by
    intro f hf
    obtain ⟨p, hp, rfl⟩ := List.mem_map.mp hf
    exact List.mem_map_of_mem (hsub p hp)
  obtain ⟨hb', ha', ht⟩ := hb.along hA hS ha _ hsub'
  refine ⟨_, rfl, hb', ha', ?_, ?_⟩
  · rw [ht, (hS.first s h.balanced.coherent).2.2.1, h.time]
  · have hfirst := hL.first s h.balanced.coherent
    exact Retires.trans ⟨hfirst.1, hfirst.2⟩ (along _ (fun _ hf => hf) _ hb ha)

include hmids hA hS hL hpre hch hm hz hscan

theorem Waiting.step {k : Nat} {s : Sim n m} (h : Waiting stamp z k s)
    (hin : ∀ u ∈ bodyTrace (program first mids act) s, u.InBounds n m) :
    Waiting stamp z (k + 1) (body ((program first mids act).map Prod.fst) s) := by
  obtain ⟨a, e, hb, halive, ht, hret⟩ := h.before hA hS hL hpre fun p hp => by rw [hmids]; exact List.mem_append_left _ hp
  have huse : ∀ u ∈ traced (assignOnUses scan pick) (assignOn pick charge timeLeft) (List.finRange m) a, u.InBounds n m := by
    intro u hu
    apply hin
    rw [bodyTrace_program, hmids, bodyTrace_append, ← e]
    simp [bodyTrace, hu]
  have hmem : assign pick charge timeLeft ∈ mids.map Prod.fst := by simp [hmids]
  have hbody : body ((program first mids act).map Prod.fst) s = advance (act.1 (assign pick charge timeLeft a)) := by
    rw [program_steps, hmids, e]
    simp [body]
  have hcore := (hL.mids _ hmem a hb.coherent halive).1
  have htime := (hS.mids _ hmem a hb.coherent halive).2.1
  obtain ⟨hb', halive'⟩ := hb.mid hA hS halive hmem
  have hwaits := assign_waits hz huse hch (hret.waits h.waits)
  have hfull := assign_full hz huse hscan
  have hz1 := hret.core z
  have hexec := hS.act _ hb'.coherent hb'.columns
  have hbal := (hb'.executed hS halive').next
  rw [hbody]
  generalize assign pick charge timeLeft a = b at hb' halive' hwaits hfull hexec hbal hcore htime
  have hproc : ∀ i, (advance (act.1 b)).processes i = { b.processes i with
      remainingTime := (b.processes i).remainingTime - if b.isRunning i then 1 else 0 } := hexec.processes
  have hrun : (advance (act.1 b)).isRunning = b.isRunning := hexec.isRunning
  have hcore' : ∀ i, core (b.processes i) = core (s.processes i) := fun i => (hcore i).trans (hret.core i)
  refine ⟨hbal, ?_, ?_, fun i => ?_, by rw [hrun]; exact hwaits, ?_, fun hk => ?_⟩
  · simp only [advance, hexec.time, htime, ht]
  · rw [hproc, core_arrival (hcore' z)]
    exact h.arrival
  · rw [hproc, core_burst (hcore' i)]
    exact h.burst i
  · rw [hproc, hwaits]
    simp only [Bool.false_eq_true, if_false, core_remaining (hcore' z)]
    have := h.left
    omega
  · -- no CPU was idle, so nothing has been assigned
    obtain ⟨rfl, hbusy⟩ := hfull (by rw [core_arrival hz1, ht]; have := h.arrival; omega)
      (by rw [core_remaining hz1]; exact h.left)
    rw [hrun]
    obtain ⟨i, hi⟩ := hb.coherent.resolves ⟨0, hm⟩ (hbusy _)
    refine ⟨⟨i, (hb.coherent.running i).mpr ⟨_, hi⟩⟩, fun j hj => ?_⟩
    have hjs := hret.running j hj
    have h1 := h.burst j
    have h2 := (h.balanced.coherent.bounds j).2
    rw [hproc, hj]
    simp only [if_true, core_remaining (hcore' j)]
    rcases Nat.lt_or_ge k 5 with hlt | hge
    · omega
    · have := (h.busy hge).2 j hjs
      omega

theorem program_overruns {ps : Fin n → Process} (h : Unstarted ps) (harr : (ps z).arrivalTime ≤ 4)
    (hburst : ∀ i, (ps i).burstTime ≤ 10) :
    ∃ u ∈ loopTrace guard (program first mids act) maxTime (init ps : Sim n m), ¬ u.InBounds n m := by
  by_contra hall
  push Not at hall
  have key : ∀ k ≤ 15, Waiting stamp z k ((body ((program first mids act).map Prod.fst))^[k] (init ps : Sim n m)) ∧
      ∀ j < k, ((body ((program first mids act).map Prod.fst))^[j] (init ps : Sim n m)).guard := by
    intro k
    induction k with
    | zero => exact fun _ => ⟨waiting_init h harr hburst, fun j hj => absurd hj (Nat.not_lt_zero j)⟩
    | succ k ih =>
      intro hk
      obtain ⟨hwait, hg⟩ := ih (by omega)
      have hlt : k < maxTime := by unfold maxTime; omega
      have hg' : ∀ j < k + 1, ((body ((program first mids act).map Prod.fst))^[j] (init ps : Sim n m)).guard := by
        intro j hj
        rcases Nat.lt_succ_iff_lt_or_eq.mp hj with hj | rfl
        · exact hg j hj
        · exact hwait.guard hlt
      rw [Function.iterate_succ_apply']
      refine ⟨hwait.step hmids hA hS hL hpre hch hm hz hscan fun u hu => ?_, hg'⟩
      exact hall u (mem_loopTrace.mpr ⟨k, hlt, fun j hj => hg' j (Nat.lt_succ_of_le hj), hu⟩)
  exact (key 15 le_rfl).1.false_of_fifteen

end

/-! ## The tick schedulers -/

section
variable {s : Sim n m} {z : Fin n} (ha : (s.processes z).arrivalTime ≤ s.time) (hr : 0 < (s.processes z).remainingTime)
include ha hr

theorem mem_readyUses : Use.isRunning z.val ∈ readyUses s z := by simp [readyUses, ha, hr]

theorem mem_scanUses : Use.isRunning z.val ∈ scanUses s :=
  List.mem_flatMap.mpr ⟨z, List.mem_finRange z, mem_readyUses ha hr⟩

theorem mem_fcfsScanUses : Use.isRunning z.val ∈ fcfsScanUses s := by
  obtain ⟨l, hl⟩ := exists_visited (List.mem_finRange z)
  exact mem_traced.mpr ⟨l, z, hl, List.mem_append_left _ (mem_readyUses ha hr)⟩

end

section
variable {ps : Fin n → Process} (h : Unstarted ps) (hr : ∀ i, (ps i).arrivalTime ≤ 4 ∧ (ps i).burstTime ≤ 10) (hm : 0 < m)
  (hn : 100 < n)
include h hr hm hn

theorem fcfsUses_overrun : ∃ u ∈ fcfsUses m ps, ¬ u.InBounds n m := by
  obtain ⟨e, he⟩ := fcfsSort_perm ps
  have run : ∃ u ∈ loopTrace guard fcfsProg maxTime (fcfsInit ps : Sim n m), ¬ u.InBounds n m :=
    program_overruns (List.nil_append _).symm fcfs_accounts fcfs_sound fcfs_lawful (fun _ hf => by cases hf)
      SameCore.refl hm (z := ⟨100, hn⟩) le_rfl (fun s => mem_fcfsScanUses) (fcfsSort_unstarted h)
      (by rw [he]; exact (hr _).1) fun i => by rw [he]; exact (hr _).2
  obtain ⟨u, hu, hout⟩ := run
  exact ⟨u, List.mem_append_left _ (List.mem_append_right _ hu), hout⟩

theorem mlfqUses_overrun : ∃ u ∈ mlfqUses m ps, ¬ u.InBounds n m := by
  have run : ∃ u ∈ loopTrace guard mlfqProg maxTime (mlfqInit ps : Sim n m), ¬ u.InBounds n m :=
    program_overruns (List.nil_append _).symm mlfq_accounts mlfq_sound mlfq_lawful (fun _ hf => by cases hf)
      SameCore.refl hm (z := ⟨100, hn⟩) le_rfl (fun s => mem_scanUses) (mlfqReset_unstarted h) (hr _).1 fun i => (hr i).2
  obtain ⟨u, hu, hout⟩ := run
  exact ⟨u, List.mem_append_left _ (List.mem_append_right _ hu), hout⟩

theorem lotteryUses_overrun (rand : Nat → Nat) : ∃ u ∈ lotteryUses m rand ps, ¬ u.InBounds n m := by
  have run : ∃ u ∈ loopTrace guard (lotteryProg rand) maxTime (init ps : Sim n m), ¬ u.InBounds n m :=
    program_overruns (List.nil_append _).symm (lottery_accounts rand) (lottery_sound rand) (lottery_lawful rand)
      (fun _ hf => by cases hf) lotteryCharge_same hm (z := ⟨100, hn⟩) le_rfl
      (fun s ha hl => List.mem_append_left _ (mem_scanUses ha hl)) h (hr _).1 fun i => (hr i).2
  obtain ⟨u, hu, hout⟩ := run
  exact ⟨u, List.mem_append_left _ (List.mem_append_right _ hu), hout⟩

theorem edfUses_overrun : ∃ u ∈ edfUses m ps, ¬ u.InBounds n m := by
  have pre : ∀ f ∈ [(edfPreempt : Sim n m → Sim n m)], ∀ s, Coherent s → Alive s → Retires s (f s) := by
    intro f hf s hc ha
    rw [List.mem_singleton.mp hf]
    obtain ⟨hps, hrun⟩ := edfPreempt_lawful hc ha
    exact ⟨fun i => by rw [hps], hrun⟩
  have run : ∃ u ∈ loopTrace guard edfProg maxTime (init ps : Sim n m), ¬ u.InBounds n m :=
    program_overruns (List.singleton_append ..).symm edf_accounts edf_sound edf_lawful pre
      SameCore.refl hm (z := ⟨100, hn⟩) le_rfl (fun s => mem_scanUses) h (hr _).1 fun i => (hr i).2
  obtain ⟨u, hu, hout⟩ := run
  exact ⟨u, List.mem_append_left _ (List.mem_append_right _ hu), hout⟩

end

end Sim

/-! ## Work stealing -/

namespace WorkSim
variable {n m : Nat} {ps : Fin n → Process} {s : WorkSim n m} {z : Fin n}

theorem Conserved.left_of_early (h : Conserved ps s) (ht : s.currentTime < (ps z).arrivalTime) :
    (s.processes z).remainingTime ≠ 0 := by
  intro h0
  have harr : s.arrived z = false := by
    cases hb : s.arrived z with
    | false => rfl
    | true => exact absurd (h.punctual z hb) (by omega)
  have heq : Place.completed = Place.unarrived := (h.place z).unique h0 harr
  cases heq

theorem Conserved.guard (h : Conserved ps s) (h0 : (s.processes z).remainingTime ≠ 0) (ht : s.currentTime < maxTime) :
    s.guard := by
  refine ⟨?_, ht⟩
  have := Finset.card_lt_univ_of_notMem (s := s.completed) (x := z) (by rw [mem_completed]; exact h0)
  rwa [Fintype.card_fin, ← h.count] at this

section
variable (hm : 0 < m) (hw : Sim.Unstarted ps) (hr : ∀ i, 0 ≤ (ps i).arrivalTime ∧ (ps i).arrivalTime ≤ 4)
include hm hw hr

theorem reaches_arrival (z : Fin n) : ∀ k : Nat, k ≤ (ps z).arrivalTime →
    At guard steps (init ps) [] ((body steps)^[k] (init ps : WorkSim n m)) ∧
      ((body steps)^[k] (init ps : WorkSim n m)).currentTime = k ∧ ((body steps)^[k] (init ps : WorkSim n m)).guard
  | 0, _ => by
    refine ⟨.start, rfl, (conserved_init hw).guard (z := z) ?_ (Nat.zero_lt_succ _)⟩
    have h1 := hw.fresh z
    have h2 := hw.burst_pos z
    change (ps z).remainingTime ≠ 0
    omega
  | k + 1, hk => by
    obtain ⟨hat, ht, hg⟩ := reaches_arrival z k (by omega)
    rw [Function.iterate_succ_apply']
    have hlast : At guard steps (init ps) [advance] (execute (assign (load ((body steps)^[k] (init ps : WorkSim n m))))) :=
      (hat.enter hg).step.step.step
    have hc := conserved_at hm hw (fun i => (hr i).1) hlast
    have hc' := conserved_at hm hw (fun i => (hr i).1) (hat.iterate hg)
    have htime : (execute (assign (load ((body steps)^[k] (init ps : WorkSim n m))))).currentTime = k := by
      have h0 := conserved_at hm hw (fun i => (hr i).1) hat
      obtain ⟨h1, ht1⟩ := h0.load hm hw
      obtain ⟨h2, ht2⟩ := h1.assign hm hw
      exact (h2.execute hm hw).2.trans (ht2.trans (ht1.trans ht))
    refine ⟨hat.iterate hg, congrArg (· + 1) htime, hc'.guard (z := z) ?_ ?_⟩
    · exact hc.left_of_early (by rw [htime]; omega)
    · have h4 := (hr z).2
      change (execute (assign (load ((body steps)^[k] (init ps : WorkSim n m))))).currentTime + 1 < 1000
      rw [htime]
      omega

theorem workStealUses_overrun (hn : 100 < n) : ∃ u ∈ workStealUses m ps, ¬ u.InBounds n m := by
  obtain ⟨z, hz⟩ : ∃ z : Fin n, z.val = 100 := ⟨⟨100, hn⟩, rfl⟩
  have h0 := (hr z).1
  have h4 := (hr z).2
  have reach := reaches_arrival hm hw hr z (m := m)
  obtain ⟨hat, ht, _⟩ := reach (ps z).arrivalTime.toNat (by omega)
  -- step A looks at `arrived` for `z` in this tick
  obtain ⟨l, hl⟩ := exists_visited (List.mem_finRange z)
  have hload := (conserved_at hm hw (fun i => (hr i).1) hat).foldl hm hw (f := loadOn) (fun i => Or.inl ⟨i, rfl⟩) l
  refine ⟨.arrived z.val, ?_, ?_⟩
  · refine List.mem_append_left _ (List.mem_append_right _ (mem_loopTrace.mpr ⟨(ps z).arrivalTime.toNat, ?_,
      fun j hj => (reach j (by omega)).2.2, ?_⟩))
    · unfold maxTime; omega
    · change _ ∈ bodyTrace prog ((body steps)^[(ps z).arrivalTime.toNat] (init ps : WorkSim n m))
      rw [bodyTrace_prog]
      refine List.mem_append_left _ (mem_traced.mpr ⟨l, z, hl, ?_⟩)
      have harr : ((l.foldl loadOn ((body steps)^[(ps z).arrivalTime.toNat] (init ps : WorkSim n m))).processes z).arrivalTime =
          (l.foldl loadOn ((body steps)^[(ps z).arrivalTime.toNat] (init ps : WorkSim n m))).currentTime := by
        rw [hload.1.arrival, hload.2, ht]
        omega
      simp [loadOnUses, harr]
  · simp only [Use.InBounds, Use.Within]
    omega

end

end WorkSim

/-- **Bounds.** For every workload of `initialize_test_data` on at least one CPU,
each of the five schedulers stays within its arrays exactly when there are at
most a hundred processes. -/
theorem indices_in_bounds_iff {n m : Nat} (hm : 1 ≤ m) (rand draws : Nat → Nat) (p : Fin n → Process) :
    let ps := initializeTestData rand p
    ((∀ u ∈ Sim.fcfsUses m ps, u.InBounds n m) ↔ n ≤ 100) ∧
    ((∀ u ∈ Sim.mlfqUses m ps, u.InBounds n m) ↔ n ≤ 100) ∧
    ((∀ u ∈ Sim.lotteryUses m draws ps, u.InBounds n m) ↔ n ≤ 100) ∧
    ((∀ u ∈ Sim.edfUses m ps, u.InBounds n m) ↔ n ≤ 100) ∧
    ((∀ u ∈ WorkSim.workStealUses m ps, u.InBounds n m) ↔ n ≤ 100) := by
  intro ps
  have hr : ∀ i, Sim.InRange (ps i) := Sim.initializeTestData_inRange rand p
  have h : Sim.Unstarted ps := Sim.initializeTestData_unstarted rand p
  have both : ∀ {l : List Use}, (Sim.Workload ps → Covered n m l) → (100 < n → ∃ u ∈ l, ¬ u.InBounds n m) →
      ((∀ u ∈ l, u.InBounds n m) ↔ n ≤ 100) := by
    intro l hcov hover
    refine ⟨fun hall => ?_, fun hn => (hcov ⟨h, hn⟩).inBounds hn⟩
    by_contra hlt
    obtain ⟨u, hu, hout⟩ := hover (by omega)
    exact hout (hall u hu)
  have hsmall : ∀ i, (ps i).arrivalTime ≤ 4 ∧ (ps i).burstTime ≤ 10 := fun i => ⟨(hr i).arrival.2, (hr i).burst.2⟩
  refine ⟨both Sim.fcfsUses_covered (Sim.fcfsUses_overrun h hsmall hm), both Sim.mlfqUses_covered
    (Sim.mlfqUses_overrun h hsmall hm), both (Sim.lotteryUses_covered · draws)
    (Sim.lotteryUses_overrun h hsmall hm · draws), both Sim.edfUses_covered (Sim.edfUses_overrun h hsmall hm),
    both (fun hw => WorkSim.workStealUses_covered hm hw fun i => (hr i).arrival.1)
      (WorkSim.workStealUses_overrun hm h fun i => (hr i).arrival)⟩

theorem indices_in_bounds_three : 1 ≤ 2 ∧ (∀ u ∈ Sim.fcfsUses 2 (Sim.countedProcesses 3), u.InBounds 3 2) ∧
    ∀ u ∈ WorkSim.workStealUses 2 (Sim.countedProcesses 3), u.InBounds 3 2 := by
  have hm : 1 ≤ 2 := by decide
  obtain ⟨hfcfs, -, -, -, hsteal⟩ :=
    indices_in_bounds_iff hm id id fun _ : Fin 3 => (⟨0, 0, 0, 0, 0, 0, 0, 0, 0, 0, 0, 0⟩ : Process)
  exact ⟨hm, hfcfs.mpr (by decide), hsteal.mpr (by decide)⟩

theorem crowd_overruns : (∃ u ∈ Sim.fcfsUses 1 (Sim.countedProcesses 101), ¬ u.InBounds 101 1) ∧
    (∃ u ∈ Sim.mlfqUses 1 (Sim.countedProcesses 101), ¬ u.InBounds 101 1) ∧
    (∃ u ∈ Sim.lotteryUses 1 id (Sim.countedProcesses 101), ¬ u.InBounds 101 1) ∧
    (∃ u ∈ Sim.edfUses 1 (Sim.countedProcesses 101), ¬ u.InBounds 101 1) ∧
    (∃ u ∈ WorkSim.workStealUses 1 (Sim.countedProcesses 101), ¬ u.InBounds 101 1) := by
  have hr : ∀ i, Sim.InRange (Sim.countedProcesses 101 i) := Sim.initializeTestData_inRange _ _
  have h : Sim.Unstarted (Sim.countedProcesses 101) := Sim.initializeTestData_unstarted _ _
  have hsmall : ∀ i, (Sim.countedProcesses 101 i).arrivalTime ≤ 4 ∧ (Sim.countedProcesses 101 i).burstTime ≤ 10 :=
    fun i => ⟨(hr i).arrival.2, (hr i).burst.2⟩
  have hn : 100 < 101 := by decide
  have hm : 0 < 1 := by decide
  exact ⟨Sim.fcfsUses_overrun h hsmall hm hn, Sim.mlfqUses_overrun h hsmall hm hn, Sim.lotteryUses_overrun h hsmall hm hn id,
    Sim.edfUses_overrun h hsmall hm hn, WorkSim.workStealUses_overrun hm h (fun i => (hr i).arrival) hn⟩

end OsLab
