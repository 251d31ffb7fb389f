import OsLab.MlfqLevels

/-!
# MLFQ as three queues

A process that has executed fewer than 2 ticks is in queue 0 and is given up to 2
ticks, one that has executed fewer than 6 is in queue 1 and is given up to 4, and any
other one runs to its end. `run_mlfq` dispatches by queue, then by arrival, then by
index, and every dispatch is such a slice.
-/

namespace OsLab
namespace Sim
variable {n m : Nat}

/-! ## The model -/

def queueOf (executed : Nat) : Int := if executed < 2 then 0 else if executed < 6 then 1 else 2

def sliceOf (executed remaining : Nat) : Nat :=
  if executed < 2 then min remaining 2 else if executed < 6 then min remaining 4 else remaining

structure Slice (ps : Fin n → Process) (c : Fin m) (i : Fin n) (t q : Nat) : Prop where
  shown : ∀ u, t ≤ u → u < t + q → u < maxTime → (runMlfq ps : Sim n m).timeline c u = (ps i).pid
  kept : ∀ b : Sim n m, At guard mlfqSteps (mlfqInit ps) mlfqSteps b → t < b.time → b.time < t + q →
    ((mlfqFinish b).cpus c).currentPid = (ps i).pid
  ended : ∀ b : Sim n m, At guard mlfqSteps (mlfqInit ps) mlfqSteps b → b.time = t + q →
    (b.cpus c).currentPid = (ps i).pid ∧ ((mlfqFinish b).cpus c).currentPid = -1
  reached : t + q < maxTime → ∃ b : Sim n m, At guard mlfqSteps (mlfqInit ps) mlfqSteps b ∧ b.time = t + q

/-! ## Dispatches -/

def mlfqAssignOn : Sim n m → Fin m → Sim n m := assignOn mlfqPick id fun _ p => mlfqQuantum p

/-- STEP 2 of some tick has served the CPUs before `c`, which has led to `a`, and
now dispatches `i` on `c`. -/
structure MlfqDispatch (ps : Fin n → Process) (a : Sim n m) (c : Fin m) (i : Fin n) : Prop where
  reached : ∃ s l, At guard mlfqSteps (mlfqInit ps) [mlfqAssign, mlfqExecute, advance] s ∧
    l ++ [c] <+: List.finRange m ∧ a = l.foldl mlfqAssignOn s
  idle : (a.cpus c).currentPid = -1
  picked : mlfqPick a = some i

theorem mlfqAssignOn_quiet (s : Sim n m) (c : Fin m) : (mlfqAssignOn s c).processes = s.processes ∧
    (mlfqAssignOn s c).time = s.time ∧ (mlfqAssignOn s c).timeline = s.timeline := by
  unfold mlfqAssignOn
  rcases @assignOn_cases n m mlfqPick id (fun _ p => mlfqQuantum p) s c with ⟨_, e⟩ | ⟨_, _, e⟩ | ⟨i, _, _, e⟩
  · rw [e]; exact ⟨rfl, rfl, rfl⟩
  · rw [e]; exact ⟨rfl, rfl, rfl⟩
  · rw [e]; exact ⟨rfl, rfl, rfl⟩

theorem mlfqAssignOn_busy {s : Sim n m} {c : Fin m} (h : (s.cpus c).currentPid ≠ -1) (c' : Fin m) :
    (mlfqAssignOn s c').cpus c = s.cpus c := by
  rcases @assignOn_cases n m mlfqPick id (fun _ p => mlfqQuantum p) s c' with ⟨_, e⟩ | ⟨_, _, e⟩ | ⟨i, hc, _, e⟩
  · exact congrArg (Sim.cpus · c) e
  · exact congrArg (Sim.cpus · c) e
  · have hne : c ≠ c' := fun e' => h (e' ▸ hc)
    rw [mlfqAssignOn, e]
    simp [dispatch, setCpu, hne]

theorem mlfqAssign_fold_busy {s : Sim n m} {c : Fin m} (h : (s.cpus c).currentPid ≠ -1) (l : List (Fin m)) :
    (l.foldl mlfqAssignOn s).cpus c = s.cpus c := by
  apply foldl_keeps (P := fun a : Sim n m => a.cpus c = s.cpus c) _ _ rfl
  intro a c' _ ha
  rw [mlfqAssignOn_busy (by rw [ha]; exact h), ha]

theorem mlfqAssign_fold_quiet (s : Sim n m) (l : List (Fin m)) : (l.foldl mlfqAssignOn s).processes = s.processes ∧
    (l.foldl mlfqAssignOn s).time = s.time ∧ (l.foldl mlfqAssignOn s).timeline = s.timeline := by
  apply foldl_keeps (P := fun a : Sim n m => a.processes = s.processes ∧ a.time = s.time ∧ a.timeline = s.timeline) _ _
    ⟨rfl, rfl, rfl⟩
  intro a c _ ⟨h1, h2, h3⟩
  obtain ⟨e1, e2, e3⟩ := mlfqAssignOn_quiet a c
  exact ⟨e1.trans h1, e2.trans h2, e3.trans h3⟩

theorem mlfqPick_least {s : Sim n m} (hp : ∀ i, (s.processes i).priority ≤ 2) {i : Fin n} (h : mlfqPick s = some i)
    {j : Fin n} (hj : s.ready j = true) :
    (toLex ((s.processes i).priority, toLex ((s.processes i).arrivalTime, i)) : ℤ ×ₗ ℤ ×ₗ Fin n) ≤
      toLex ((s.processes j).priority, toLex ((s.processes j).arrivalTime, j)) := by
  rw [mlfqPick_eq] at h
  have hc : mlfqCand s j = true := by
    have := hp j
    simp only [mlfqCand, hj, Bool.true_and, decide_eq_true_eq]
    omega
  have hle := ((scanMin_spec _ _ _).2 i h).2.2 j (List.mem_finRange j) hc
  have hfirst := fun hk => scanMin_first _ _ (List.pairwise_lt_finRange n) h (List.mem_finRange j) hc hk
  simp only [mlfqKey, Prod.Lex.toLex_le_toLex] at hle hfirst ⊢
  rcases hle with h1 | ⟨h1, h2⟩
  · exact Or.inl h1
  · refine Or.inr ⟨h1, ?_⟩
    rcases h2.lt_or_eq with h2 | h2
    · exact Or.inl h2
    · exact Or.inr ⟨h2, hfirst (Or.inr ⟨h1.symm, h2.symm.le⟩)⟩

/-! ## One tick of a slice -/

structure Holds (s : Sim n m) (c : Fin m) (i : Fin n) (r τ : Int) : Prop where
  cpu : s.cpus c = ⟨(s.processes i).pid, τ⟩
  remaining : (s.processes i).remainingTime = r

theorem Holds.assign {s : Sim n m} {c : Fin m} {i : Fin n} {r τ : Int} (h : Holds s c i r τ) (hs : Coherent s)
    (l : List (Fin m)) : Holds (l.foldl mlfqAssignOn s) c i r τ := by
  have hb : (s.cpus c).currentPid ≠ -1 := by rw [h.cpu]; exact hs.pid_ne i
  obtain ⟨hps, _⟩ := mlfqAssign_fold_quiet s l
  exact ⟨by rw [mlfqAssign_fold_busy hb, h.cpu, hps], by rw [hps]; exact h.remaining⟩

theorem Holds.execute {s : Sim n m} {c : Fin m} {i : Fin n} {r τ : Int} (h : Holds s c i r τ) (hs : Coherent s) :
    Holds (advance (mlfqExecute s)) c i (r - 1) (τ - 1) ∧
      (advance (mlfqExecute s)).timeline c s.time = (s.processes i).pid := by
  have he : Executed s (mlfqExecute s) := execute_spec findLast_finds 1 hs
  have hc : (s.cpus c).currentPid = (s.processes i).pid := by rw [h.cpu]
  have hb : (s.cpus c).currentPid ≠ -1 := by rw [hc]; exact hs.pid_ne i
  have hrun := (hs.running i).mpr ⟨c, hc⟩
  have ht : ((mlfqExecute s).cpus c).timeLeftOnCore = (s.cpus c).timeLeftOnCore - 1 :=
    execute_timeLeft findLast_finds 1 hs hb
  have hcpu : (mlfqExecute s).cpus c = ⟨((mlfqExecute s).cpus c).currentPid, ((mlfqExecute s).cpus c).timeLeftOnCore⟩ := rfl
  refine ⟨⟨?_, ?_⟩, ?_⟩
  · simp only [advance]
    rw [hcpu, he.pid c, ht, he.processes i, h.cpu]
  · simp only [advance, he.processes i, hrun, if_true, h.remaining]
  · simp only [advance]
    rw [he.column c, if_neg hb, hc]

section
variable {ps : Fin n → Process} (hw : Workload ps)

theorem mlfq_static {rest : List (Sim n m → Sim n m)} {s : Sim n m} (h : At guard mlfqSteps (mlfqInit ps) rest s) :
    Each (fun i p => static p = static (ps i)) s := by
  refine static_run [] (fun s i => (record_same s i).core) (fun s c i j => ?_) (by simp) (fun _ => rfl) (fun _ => rfl) h
  obtain ⟨s₁, h₁, e | e⟩ := mlfqExpire_ok s c i <;> rw [e] <;> exact h₁.core j

include hw

theorem Holds.tick {b : Sim n m} (hb : At guard mlfqSteps (mlfqInit ps) [] b) {c : Fin m} {i : Fin n} {r τ : Int}
    (h : Holds b c i r τ) (hr : r ≠ 0) (hτ : τ ≠ 0) : ((mlfqFinish b).cpus c).currentPid = (ps i).pid ∧
      Holds (body mlfqSteps b) c i (r - 1) (τ - 1) ∧ (body mlfqSteps b).timeline c b.time = (ps i).pid := by
  have hwm := mlfqReset_workload hw
  have hco := (mlfq_sound.head hwm hb).1
  have hpid : (b.processes i).pid = (ps i).pid := static_pid (mlfq_static hb i)
  have F := mlfqFinish_spec hco
  obtain ⟨h1, h2⟩ := F.goesOn c (List.mem_finRange c) i (by rw [h.cpu]) (by rw [h.remaining]; exact hr)
    (by rw [h.cpu]; exact hτ)
  have hf : Holds (mlfqFinish b) c i r τ := ⟨by rw [h1, h2]; exact h.cpu, by rw [h2]; exact h.remaining⟩
  obtain ⟨_, hal, ht, _⟩ := mlfq_sound.first b hco
  have ha : Holds (mlfqAssign (mlfqFinish b)) c i r τ := hf.assign F.coherent (List.finRange m)
  obtain ⟨hps, hta, _⟩ := mlfqAssign_fold_quiet (mlfqFinish b) (List.finRange m)
  obtain ⟨h3, h4⟩ := ha.execute (assign_coherent mlfqPick_ready SameCore.refl F.coherent hal).1
  refine ⟨by rw [h1, h.cpu]; exact hpid, h3, ?_⟩
  rw [show (mlfqAssign (mlfqFinish b)).time = b.time from hta.trans ht,
    show (mlfqAssign (mlfqFinish b)).processes = (mlfqFinish b).processes from hps, h2, hpid] at h4
  exact h4

theorem Holds.goesOn {b : Sim n m} (hb : At guard mlfqSteps (mlfqInit ps) [] b) {c : Fin m} {i : Fin n} {r τ : Int}
    (h : Holds b c i r τ) (ht : b.time < maxTime) : guard b := by
  have hwm := mlfqReset_workload hw
  have hco := (mlfq_sound.head hwm hb).1
  have hL := (mlfq_accounts.run mlfq_sound hwm hb).1 (by simp)
  have hlt := Finset.card_lt_univ_of_notMem (not_mem_counted ((hco.running i).mpr ⟨c, by rw [h.cpu]⟩))
  rw [Fintype.card_fin, ← hL.completed] at hlt
  exact ⟨hlt, ht⟩

theorem Holds.heads {t : Nat} {c : Fin m} {i : Fin n} {r τ : Int} {b₁ : Sim n m}
    (hb₁ : At guard mlfqSteps (mlfqInit ps) [] b₁) (ht₁ : b₁.time = t + 1) (h₁ : Holds b₁ c i (r - 1) (τ - 1))
    (hc₁ : b₁.timeline c t = (ps i).pid) {q : Nat} (hr : (q : Int) ≤ r)
    (hτ : ∀ k : Nat, k < q → t + k < maxTime → (k : Int) < τ) : ∀ k : Nat, k + 1 ≤ q → t + (k + 1) ≤ maxTime →
      ∃ b, At guard mlfqSteps (mlfqInit ps) [] b ∧ b.time = t + (k + 1) ∧
        Holds b c i (r - (k + 1 : Nat)) (τ - (k + 1 : Nat)) ∧
        ∀ u, t ≤ u → u < t + (k + 1) → b.timeline c u = (ps i).pid := by
  intro k
  induction k with
  | zero =>
    intro _ _
    refine ⟨b₁, hb₁, ht₁, h₁, fun u h1 h2 => ?_⟩
    rw [show u = t by omega]
    exact hc₁
  | succ k ih =>
    intro hkq hkt
    obtain ⟨b, hb, htb, hh, hcol⟩ := ih (by omega) (by omega)
    have hg := hh.goesOn hw hb (by omega)
    have hlt := hτ (k + 1) (by omega) (by omega)
    obtain ⟨_, h2, h3⟩ := hh.tick hw hb (by omega) (by omega)
    obtain ⟨a, _, hta, htl, he, e⟩ := mlfq_sound.tick (mlfqReset_workload hw) hb hg
    have e : body mlfqSteps b = advance (mlfqExecute a) := e
    refine ⟨body mlfqSteps b, hb.iterate hg, ?_, ?_, fun u h4 h5 => ?_⟩
    · rw [e]
      simp only [advance, he.time, hta, htb]
      omega
    · have e1 : r - ((k + 1 + 1 : Nat) : Int) = r - ((k + 1 : Nat) : Int) - 1 := by omega
      have e2 : τ - ((k + 1 + 1 : Nat) : Int) = τ - ((k + 1 : Nat) : Int) - 1 := by omega
      rw [e1, e2]
      exact h2
    · by_cases hu : u = b.time
      · rw [hu]; exact h3
      · have hpast : (body mlfqSteps b).timeline c u = b.timeline c u := by
          rw [e]
          simp only [advance]
          rw [he.past c u (by omega), htl]
        rw [hpast]
        exact hcol u h4 (by omega)

theorem Holds.slice {t : Nat} {c : Fin m} {i : Fin n} {r τ : Int} {b₁ : Sim n m}
    (hb₁ : At guard mlfqSteps (mlfqInit ps) [] b₁) (ht₁ : b₁.time = t + 1) (h₁ : Holds b₁ c i (r - 1) (τ - 1))
    (hc₁ : b₁.timeline c t = (ps i).pid) {q : Nat} (hq : 0 < q) (hr : (q : Int) ≤ r)
    (hτ : ∀ k : Nat, k < q → t + k < maxTime → (k : Int) < τ) (hend : t + q < maxTime → r = q ∨ τ = q) :
    Slice ps c i t q := by
  have heads := Holds.heads hw hb₁ ht₁ h₁ hc₁ hr hτ
  have hwm := mlfqReset_workload hw
  have hat : ∀ k : Nat, 0 < k → k ≤ q → ∀ b : Sim n m, At guard mlfqSteps (mlfqInit ps) mlfqSteps b → b.time = t + k →
      At guard mlfqSteps (mlfqInit ps) [] b ∧ b.time < maxTime ∧ Holds b c i (r - (k : Nat)) (τ - (k : Nat)) := by
    intro k hk hkq b hb htb
    obtain ⟨hb, hg⟩ := hb.entered rfl
    obtain ⟨k, rfl⟩ : ∃ j, k = j + 1 := ⟨k - 1, by omega⟩
    have hlt := hg.2
    obtain ⟨b', hb', htb', hh, _⟩ := heads k hkq (by omega)
    rw [mlfq_sound.head_unique hwm hb hb' (by omega)]
    rw [mlfq_sound.head_unique hwm hb hb' (by omega)] at hlt
    exact ⟨hb', hlt, hh⟩
  refine ⟨fun u h1 h2 h3 => ?_, fun b hb h1 h2 => ?_, fun b hb htb => ?_, fun hlt => ?_⟩
  · obtain ⟨b, hb, htb, _, hcol⟩ := heads (u - t) (by omega) (by omega)
    have hpast := mlfq_sound.past hwm hb (At.start.loop maxTime) (mlfq_sound.exit hwm) c (show u < b.time by omega)
    exact hpast.trans (hcol u h1 (by omega))
  · obtain ⟨hb', hlt, hh⟩ := hat (b.time - t) (by omega) (by omega) b hb (by omega)
    have := hτ (b.time - t) (by omega) (by omega)
    exact (hh.tick hw hb' (by omega) (by omega)).1
  · obtain ⟨hb', hlt, hh⟩ := hat q hq (Nat.le_refl q) b hb htb
    have hco := (mlfq_sound.head hwm hb').1
    have F := mlfqFinish_spec hco
    have hpid : (b.processes i).pid = (ps i).pid := static_pid (mlfq_static hb' i)
    have hci : (b.cpus c).currentPid = (b.processes i).pid := by rw [hh.cpu]
    refine ⟨hci.trans hpid, ?_⟩
    by_cases h0 : (b.processes i).remainingTime = 0
    · exact (F.ended c (List.mem_finRange c) i hci h0).1
    · have hτ0 : (b.cpus c).timeLeftOnCore = 0 := by
        rw [hh.remaining] at h0
        have := hend (by omega)
        simp only [hh.cpu]
        omega
      exact (F.expired c (List.mem_finRange c) i hci h0 hτ0).1
  · obtain ⟨k, rfl⟩ : ∃ j, q = j + 1 := ⟨q - 1, by omega⟩
    obtain ⟨b, hb, htb, hh, _⟩ := heads k (Nat.le_refl _) (by omega)
    exact ⟨b, hb.enter (hh.goesOn hw hb (by omega)), htb⟩

/-! ## The dispatch -/

variable {a : Sim n m} {c : Fin m} {i : Fin n} (h : MlfqDispatch ps a c i)
include h

theorem MlfqDispatch.leveled : Coherent a ∧ Leveled a ∧ ∀ j, (a.processes j).pid = (ps j).pid ∧
    done (a.processes j) = (a.cells (ps j).pid a.time).card ∧ done (a.processes j) ≤ a.time := by
  have hwm := mlfqReset_workload hw
  obtain ⟨⟨s, l, hs, _, rfl⟩, _, _⟩ := h
  have hs₀ := hs
  obtain ⟨b, hb, rfl⟩ := hs.back (f := mlfqFinish) ⟨[], rfl⟩
  obtain ⟨hb, hg⟩ := hb.entered rfl
  have hco := (mlfq_sound.head hwm hb).1
  obtain ⟨hcf, hal, _, _⟩ := mlfq_sound.first b hco
  have hlev := mlfqFinish_leveled_of_head hw hb hg (mlfq_leveled hw hb)
  obtain ⟨hca, hla⟩ := mlfqAssign_fold_leveled hcf hal hlev l
  obtain ⟨hps, hta, htl⟩ := mlfqAssign_fold_quiet (mlfqFinish b) l
  refine ⟨hca, hla, fun j => ?_⟩
  have hpid : ((mlfqFinish b).processes j).pid = (ps j).pid := static_pid (mlfq_static hs₀ j)
  have hdone := mlfq_done_le hw hs₀ (by simp) j
  rw [hpid] at hdone
  unfold cells at hdone ⊢
  rw [hps, hta, htl]
  exact ⟨hpid, hdone⟩

theorem MlfqDispatch.begins : ∃ b₁, At guard mlfqSteps (mlfqInit ps) [] b₁ ∧ b₁.time = a.time + 1 ∧
    Holds b₁ c i ((a.processes i).remainingTime - 1) (mlfqQuantum (a.processes i) - 1) ∧
    b₁.timeline c a.time = (ps i).pid := by
  have hwm := mlfqReset_workload hw
  have hst := (h.leveled hw).2.2
  have hca := (h.leveled hw).1
  obtain ⟨⟨s, l, hs, ⟨r, hr⟩, rfl⟩, hidle, hi⟩ := h
  obtain ⟨_, _, hoff⟩ := ready_iff.mp (mlfqPick_ready _ i hi)
  have hsplit : mlfqAssign s = r.foldl mlfqAssignOn (mlfqAssignOn (l.foldl mlfqAssignOn s) c) := by
    unfold mlfqAssign assign
    rw [← hr, List.foldl_append, List.foldl_append]
    rfl
  generalize l.foldl mlfqAssignOn s = a at *
  have hdisp : mlfqAssignOn a c = a.dispatch c i (mlfqQuantum (a.processes i)) := by
    rw [mlfqAssignOn, assignOn, if_pos hidle, hi]
    rfl
  have hheld : Holds (a.dispatch c i (mlfqQuantum (a.processes i))) c i (a.processes i).remainingTime
      (mlfqQuantum (a.processes i)) := ⟨by simp [dispatch, setCpu], rfl⟩
  have he := hheld.assign (hca.dispatch _ hidle hoff) r
  obtain ⟨hps, hta, _⟩ := mlfqAssign_fold_quiet (a.dispatch c i (mlfqQuantum (a.processes i))) r
  rw [← hdisp, ← hsplit] at he hps hta
  obtain ⟨h1, h2⟩ := he.execute (mlfq_sound.beforeAct hwm hs.step).1
  rw [hta, hps, hdisp] at h2
  refine ⟨_, hs.step.step.step, ?_, h1, h2.trans (hst i).1⟩
  have hex : Executed (mlfqAssign s) (mlfqExecute (mlfqAssign s)) :=
    execute_spec findLast_finds 1 (mlfq_sound.beforeAct hwm hs.step).1
  simp only [advance, hex.time, hta]
  rw [hdisp]
  rfl

end

/-- **The three queues.** Every dispatch takes the ready process that is first by
queue, arrival and index; the queue is the one of the ticks executed so far, and
the process keeps the CPU for the slice of that queue. -/
theorem mlfq_three_queues {ps : Fin n → Process} (hw : Workload ps) {a : Sim n m} {c : Fin m} {i : Fin n}
    (h : MlfqDispatch ps a c i) : a.ready i = true ∧
    (∀ j, a.ready j = true →
      (toLex ((a.processes i).priority, toLex ((a.processes i).arrivalTime, i)) : ℤ ×ₗ ℤ ×ₗ Fin n) ≤
        toLex ((a.processes j).priority, toLex ((a.processes j).arrivalTime, j))) ∧
    (a.processes i).priority = queueOf (a.cells (ps i).pid a.time).card ∧
    Slice ps c i a.time (sliceOf (a.cells (ps i).pid a.time).card (a.processes i).remainingTime.toNat) := by
  obtain ⟨_, hlev, hst⟩ := h.leveled hw
  obtain ⟨_, hexec, hle⟩ := hst i
  have hready := mlfqPick_ready a i h.picked
  obtain ⟨_, hrem, hoff⟩ := ready_iff.mp hready
  have hwait := hlev.waiting i hrem hoff
  have hrange := hlev.range i
  obtain ⟨b₁, hb₁, ht₁, hh₁, hc₁⟩ := h.begins hw
  refine ⟨hready, fun j hj => mlfqPick_least (fun k => (hlev.range k).2) h.picked hj, ?_⟩
  have hp : (a.processes i).priority = 0 ∨ (a.processes i).priority = 1 ∨ (a.processes i).priority = 2 := by omega
  -- the level fixes how much has been executed
  rcases hp with hp | hp | hp
  · have hz : (a.cells (ps i).pid a.time).card = 0 := by
      simp [levelStart, hp] at hwait
      omega
    rw [hz, hp]
    refine ⟨rfl, Holds.slice hw hb₁ ht₁ hh₁ hc₁ ?_ ?_ ?_ ?_⟩ <;> simp [sliceOf, mlfqQuantum, hp, q0Quantum] <;> omega
  · have hz : (a.cells (ps i).pid a.time).card = 2 := by
      simp [levelStart, hp] at hwait
      omega
    rw [hz, hp]
    refine ⟨rfl, Holds.slice hw hb₁ ht₁ hh₁ hc₁ ?_ ?_ ?_ ?_⟩ <;> simp [sliceOf, mlfqQuantum, hp, q1Quantum] <;> omega
  · have hz : (a.cells (ps i).pid a.time).card = 6 := by
      simp [levelStart, hp] at hwait
      omega
    rw [hz, hp]
    refine ⟨rfl, Holds.slice hw hb₁ ht₁ hh₁ hc₁ ?_ ?_ ?_ ?_⟩ <;>
      simp [sliceOf, mlfqQuantum, hp, q2Quantum, maxTime] <;> omega

theorem mlfq_three_queues_first : Slice (m := 1) (countedProcesses 2) 0 0 0 2 := by
  have h : MlfqDispatch (countedProcesses 2) (mlfqFinish (mlfqInit (countedProcesses 2)) : Sim 2 1) 0 0 :=
    ⟨⟨_, [], (At.start.enter (by decide)).step, by decide, rfl⟩, by decide, by decide⟩
  exact (mlfq_three_queues (initializeTestData_workload (by decide) _ _) h).2.2.2

end Sim
end OsLab
