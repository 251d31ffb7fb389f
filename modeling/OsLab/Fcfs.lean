import OsLab.ExchangeSort
import OsLab.Scan
import OsLab.SchedSound

/-!
# First come, first served

`run_fcfs` sorts the array by arrival time and then, at every tick, gives each
idle CPU the ready process with the earliest arrival, lower pids first.
-/

namespace OsLab
namespace Sim
variable {n m : Nat}

def fcfsSort (ps : Fin n → Process) : Fin n → Process := Exchange.sortArray Process.arrivalTime ps

def fcfsScan (s : Sim n m) (best : Option (Fin n) × Int) (i : Fin n) : Option (Fin n) × Int :=
  let p := s.processes i
  if s.ready i then
    if p.arrivalTime < best.2 then (some i, p.arrivalTime)
    else
      match best.1 with
      | some b => if p.arrivalTime = best.2 ∧ p.pid < (s.processes b).pid then (some i, best.2) else best
      | none => best
  else best

def fcfsPick (s : Sim n m) : Option (Fin n) := ((List.finRange n).foldl (fcfsScan s) (none, 9999)).1

def fcfsFinish : Sim n m → Sim n m := finish findLast record keepCpu

def fcfsAssign : Sim n m → Sim n m := assign fcfsPick id fun _ p => p.remainingTime

def fcfsExecute : Sim n m → Sim n m := execute findLast 1

def fcfsSteps : List (Sim n m → Sim n m) := fcfsFinish :: ([fcfsAssign] ++ [fcfsExecute, advance])

def fcfsInit (ps : Fin n → Process) : Sim n m := init (fcfsSort ps)

def runFcfs (ps : Fin n → Process) : Sim n m := loop guard fcfsSteps maxTime (fcfsInit ps)

/-! ## The sort permutes the array -/

theorem fcfsSort_perm (ps : Fin n → Process) : ∃ e : Equiv.Perm (Fin n), fcfsSort ps = ps ∘ e :=
  Exchange.sortArray_perm Process.arrivalTime ps

theorem Unstarted.comp {ps : Fin n → Process} (h : Unstarted ps) (e : Equiv.Perm (Fin n)) : Unstarted (ps ∘ e) :=
  ⟨h.pid_inj.comp e.injective, fun _ => h.pid_pos _, fun _ => h.fresh _, fun _ => h.burst_pos _⟩

theorem fcfsSort_unstarted {ps : Fin n → Process} (h : Unstarted ps) : Unstarted (fcfsSort ps) := by
  obtain ⟨e, he⟩ := fcfsSort_perm ps
  rw [he]
  exact h.comp e

theorem fcfsSort_workload {ps : Fin n → Process} (h : Workload ps) : Workload (fcfsSort ps) :=
  ⟨fcfsSort_unstarted h.toUnstarted, h.small⟩

/-! ## The scan -/

def fcfsKey (s : Sim n m) (i : Fin n) : ℤ ×ₗ ℤ := toLex ((s.processes i).arrivalTime, (s.processes i).pid)

def fcfsCand (s : Sim n m) (i : Fin n) : Bool := s.ready i && decide ((s.processes i).arrivalTime < 9999)

theorem fcfsPick_eq (s : Sim n m) :
    fcfsPick s = (List.finRange n).foldl (scanMin (fcfsCand s) (fcfsKey s)) none := by
  refine scan_sentinel (fcfsCand s) (fcfsKey s) 9999 (fun i => (s.processes i).arrivalTime) (fcfsScan s) ?_ ?_ _
  · intro i
    unfold fcfsScan fcfsCand
    by_cases hi : s.ready i = true <;> by_cases h9 : (s.processes i).arrivalTime < 9999 <;> simp [hi, h9]
  · intro b hb i
    simp only [fcfsCand, Bool.and_eq_true, decide_eq_true_eq] at hb
    unfold fcfsScan
    simp only [fcfsCand, fcfsKey, Prod.Lex.toLex_lt_toLex, Bool.and_eq_true, decide_eq_true_eq]
    by_cases hi : s.ready i = true
    · by_cases hlt : (s.processes i).arrivalTime < (s.processes b).arrivalTime
      · simp [hi, hlt, show (s.processes i).arrivalTime < 9999 by omega]
      · by_cases heq : (s.processes i).arrivalTime = (s.processes b).arrivalTime
        · by_cases hp : (s.processes i).pid < (s.processes b).pid <;> simp [hi, heq, hp, hb.2]
        · simp [hi, hlt, heq]
    · simp [hi]

theorem fcfsPick_ready (s : Sim n m) (i : Fin n) (h : fcfsPick s = some i) : s.ready i = true := by
  rw [fcfsPick_eq] at h
  have := ((scanMin_spec _ _ _).2 i h).2.1
  simp only [fcfsCand, Bool.and_eq_true] at this
  exact this.1

theorem fcfsPick_none (s : Sim n m) (h : fcfsPick s = none) (i : Fin n) (hi : s.ready i = true) :
    9999 ≤ (s.processes i).arrivalTime := by
  rw [fcfsPick_eq] at h
  have := (scanMin_spec _ _ _).1 h i (List.mem_finRange i)
  simpa [fcfsCand, hi] using this

theorem fcfs_sound : Sound (fcfsFinish (n := n) (m := m)) fcfsExecute [fcfsAssign] where
  first := fun _ h => finish_spec findLast_finds record_same keepCpu_ok h
  mids := fun f hf s h ha => by
    rw [List.mem_singleton] at hf
    subst hf
    exact ⟨assign_coherent fcfsPick_ready SameCore.refl h ha, assign_quiet SameCore.refl s⟩
  act := fun _ h _ => execute_spec findLast_finds 1 h

end Sim
end OsLab
