import Mathlib
import OsLab.Fcfs

/-!
# The sort of `run_fcfs`

The exchange sort at the start of `run_fcfs` orders the processes by arrival. It
looks at nothing else, and exchanges entries that are far apart, so that
processes with the same arrival come out in an order of their own; that the
lower pid goes first is the business of the scan.
-/

namespace OsLab
namespace Sim
open Exchange
variable {n m : Nat}

theorem fcfsSort_ofFn (ps : Fin n → Process) :
    List.ofFn (fcfsSort ps) = Exchange.sort Process.arrivalTime (List.ofFn ps) :=
  sortArray_ofFn Process.arrivalTime ps

theorem fcfsSort_monotone (ps : Fin n → Process) : Monotone fun i => (fcfsSort ps i).arrivalTime := by
  have h := sort_sorted Process.arrivalTime (List.ofFn ps)
  rw [← fcfsSort_ofFn, List.pairwise_ofFn] at h
  intro i j hij
  rcases lt_or_eq_of_le hij with hlt | rfl
  · exact h hlt
  · exact le_refl _

theorem fcfsSort_strictMono_iff (ps : Fin n → Process) (hpid : StrictMono fun i => (ps i).pid) :
    (StrictMono fun i => toLex ((fcfsSort ps i).arrivalTime, (fcfsSort ps i).pid)) ↔
      ∀ l₁ p l₂, List.ofFn ps = l₁ ++ p :: l₂ →
        ((ties Process.arrivalTime p.arrivalTime l₁).length + 1) ∣ passed Process.arrivalTime p.arrivalTime l₂ := by
  have hl : (List.ofFn ps).Pairwise fun p q => p.pid < q.pid := List.pairwise_ofFn.2 fun i j hij => hpid hij
  rw [← sort_lex_iff hl, ← fcfsSort_ofFn, List.pairwise_ofFn]
  refine forall₂_congr fun i j => forall_congr' fun _ => ?_
  exact Prod.Lex.toLex_lt_toLex

theorem fcfsPick_least {s : Sim n m} {k : Fin n} (h : fcfsPick s = some k) :
    s.ready k = true ∧ ∀ j, s.ready j = true → toLex ((s.processes k).arrivalTime, (s.processes k).pid) ≤
      toLex ((s.processes j).arrivalTime, (s.processes j).pid) := by
  refine ⟨fcfsPick_ready s k h, fun j hj => ?_⟩
  rw [fcfsPick_eq] at h
  obtain ⟨-, hk, hleast⟩ := (scanMin_spec _ _ _).2 k h
  by_cases h9 : (s.processes j).arrivalTime < 9999
  · exact hleast j (List.mem_finRange j) (by simp [fcfsCand, hj, h9])
  · simp only [fcfsCand, Bool.and_eq_true, decide_eq_true_eq] at hk
    exact Prod.Lex.toLex_le_toLex.2 (.inl (by omega))

theorem fcfsPick_isSome_iff (s : Sim n m) :
    (∃ k, fcfsPick s = some k) ↔ ∃ i, s.ready i = true ∧ (s.processes i).arrivalTime < 9999 := by
  constructor
  · rintro ⟨k, h⟩
    rw [fcfsPick_eq] at h
    obtain ⟨-, hk, -⟩ := (scanMin_spec _ _ _).2 k h
    simp only [fcfsCand, Bool.and_eq_true, decide_eq_true_eq] at hk
    exact ⟨k, hk⟩
  · rintro ⟨i, hi, h9⟩
    cases h : fcfsPick s with
    | some k => exact ⟨k, rfl⟩
    | none => exact absurd (fcfsPick_none s h i hi) (not_le.mpr h9)

/-- **The sort of `run_fcfs`** is a permutation ordered by arrival. Processes with
the same arrival keep their order exactly when the `k`-th of them, for each `k`,
is followed by a multiple of `k` earlier arrivals before the next of them. The
scan takes a process whenever one that arrives before 9999 is ready, and breaks
ties by pid whatever the order of the array. -/
theorem fcfsSort_order (ps : Fin n → Process) (hpid : StrictMono fun i => (ps i).pid) :
    (∃ e : Equiv.Perm (Fin n), fcfsSort ps = ps ∘ e) ∧
    (Monotone fun i => (fcfsSort ps i).arrivalTime) ∧
    ((StrictMono fun i => toLex ((fcfsSort ps i).arrivalTime, (fcfsSort ps i).pid)) ↔
      ∀ l₁ p l₂, List.ofFn ps = l₁ ++ p :: l₂ →
        ((ties Process.arrivalTime p.arrivalTime l₁).length + 1) ∣ passed Process.arrivalTime p.arrivalTime l₂) ∧
    ∀ (m : Nat) (s : Sim n m),
      ((∃ k, fcfsPick s = some k) ↔ ∃ i, s.ready i = true ∧ (s.processes i).arrivalTime < 9999) ∧
      ∀ k, fcfsPick s = some k →
        s.ready k = true ∧ ∀ j, s.ready j = true → toLex ((s.processes k).arrivalTime, (s.processes k).pid) ≤
          toLex ((s.processes j).arrivalTime, (s.processes j).pid) :=
  ⟨fcfsSort_perm ps, fcfsSort_monotone ps, fcfsSort_strictMono_iff ps hpid, fun _ s =>
    ⟨fcfsPick_isSome_iff s, fun _ h => fcfsPick_least h⟩⟩

def overtaken : Fin 3 → Process := fun i =>
  { pid := i + 1, arrivalTime := if i = 2 then 1 else 2, burstTime := 1, remainingTime := 1, priority := 0,
    deadline := 9, period := 9, ioWaitTime := 0, completionTime := 0, turnaroundTime := 0, waitingTime := 0,
    deadlineMissed := 0 }

theorem overtaken_pid : StrictMono fun i => (overtaken i).pid := by
  intro i j
  revert i j
  decide

theorem fcfsSort_order_overtaken : ((List.ofFn (fcfsSort overtaken)).map Process.arrivalTime = [1, 2, 2]) ∧
    Monotone fun i => (fcfsSort overtaken i).arrivalTime :=
  ⟨by decide, (fcfsSort_order overtaken overtaken_pid).2.1⟩

/-- The third changes places with the first, which then comes behind the second. -/
theorem fcfsSort_unstable : (StrictMono fun i => (overtaken i).pid) ∧
    (List.ofFn (fcfsSort overtaken)).map Process.pid = [3, 2, 1] ∧
    ¬StrictMono fun i => toLex ((fcfsSort overtaken i).arrivalTime, (fcfsSort overtaken i).pid) := by
  refine ⟨overtaken_pid, by decide, fun h => ?_⟩
  have h12 := h (show (1 : Fin 3) < 2 by decide)
  rw [Prod.Lex.toLex_lt_toLex] at h12
  revert h12
  decide

end Sim
end OsLab
