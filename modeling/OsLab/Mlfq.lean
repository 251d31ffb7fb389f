import OsLab.Scan
import OsLab.SchedSound

/-!
# Multilevel feedback queue

`run_mlfq` starts every process at priority 0 and lowers it by one level when
its quantum expires; idle CPUs take the ready process of best priority, and
among these the earliest arrival.
-/

namespace OsLab
namespace Sim
variable {n m : Nat}

def q0Quantum : Int := 2
def q1Quantum : Int := 4
def q2Quantum : Int := 999

def mlfqReset (ps : Fin n → Process) : Fin n → Process := fun i => { ps i with priority := 0 }

def mlfqQuantum (p : Process) : Int :=
  if p.priority = 0 then q0Quantum else if p.priority = 1 then q1Quantum else q2Quantum

def mlfqDemote (p : Process) : Process := if p.priority < 2 then { p with priority := p.priority + 1 } else p

def mlfqExpire (s : Sim n m) (c : Fin m) (i : Fin n) : Sim n m :=
  if (s.cpus c).timeLeftOnCore = 0 then (s.setProcess i (mlfqDemote (s.processes i))).free c i else s

def mlfqScan (s : Sim n m) (best : Option (Fin n) × (Int × Int)) (i : Fin n) : Option (Fin n) × (Int × Int) :=
  let p := s.processes i
  if s.ready i then
    if p.priority < best.2.1 then (some i, (p.priority, p.arrivalTime))
    else if p.priority = best.2.1 ∧ p.arrivalTime < best.2.2 then (some i, (best.2.1, p.arrivalTime))
    else best
  else best

def mlfqPick (s : Sim n m) : Option (Fin n) := ((List.finRange n).foldl (mlfqScan s) (none, (999, 9999))).1

def mlfqFinish : Sim n m → Sim n m := finish findLast record mlfqExpire

def mlfqAssign : Sim n m → Sim n m := assign mlfqPick id fun _ p => mlfqQuantum p

def mlfqExecute : Sim n m → Sim n m := execute findLast 1

def mlfqSteps : List (Sim n m → Sim n m) := mlfqFinish :: ([mlfqAssign] ++ [mlfqExecute, advance])

def mlfqInit (ps : Fin n → Process) : Sim n m := init (mlfqReset ps)

def runMlfq (ps : Fin n → Process) : Sim n m := loop guard mlfqSteps maxTime (mlfqInit ps)

theorem mlfqReset_unstarted {ps : Fin n → Process} (h : Unstarted ps) : Unstarted (mlfqReset ps) :=
  ⟨h.pid_inj, h.pid_pos, h.fresh, h.burst_pos⟩

theorem mlfqReset_workload {ps : Fin n → Process} (h : Workload ps) : Workload (mlfqReset ps) :=
  ⟨mlfqReset_unstarted h.toUnstarted, h.small⟩

theorem mlfqExpire_ok : ExpireOk (mlfqExpire (n := n) (m := m)) := by
  intro s c i
  unfold mlfqExpire
  split
  · refine ⟨s.setProcess i (mlfqDemote (s.processes i)), ⟨core_update _ _ _ ?_, rfl, rfl, rfl, rfl, rfl⟩, Or.inr rfl⟩
    unfold mlfqDemote
    split <;> rfl
  · exact ⟨s, SameCore.refl s, Or.inl rfl⟩

/-! ## The scan -/

def mlfqKey (s : Sim n m) (i : Fin n) : ℤ ×ₗ ℤ := toLex ((s.processes i).priority, (s.processes i).arrivalTime)

def mlfqCand (s : Sim n m) (i : Fin n) : Bool :=
  s.ready i && decide ((s.processes i).priority < 999 ∨
    (s.processes i).priority = 999 ∧ (s.processes i).arrivalTime < 9999)

theorem mlfqPick_eq (s : Sim n m) :
    mlfqPick s = (List.finRange n).foldl (scanMin (mlfqCand s) (mlfqKey s)) none := by
  refine scan_sentinel (mlfqCand s) (mlfqKey s) (999, 9999)
    (fun i => ((s.processes i).priority, (s.processes i).arrivalTime)) (mlfqScan s) ?_ ?_ _
  · intro i
    unfold mlfqScan mlfqCand
    by_cases hi : s.ready i = true
    · by_cases h9 : (s.processes i).priority < 999
      · simp [hi, h9]
      · by_cases h8 : (s.processes i).priority = 999 <;>
          by_cases ha : (s.processes i).arrivalTime < 9999 <;> simp [hi, h9, h8, ha]
    · simp [hi]
  · intro b hb i
    simp only [mlfqCand, Bool.and_eq_true, decide_eq_true_eq] at hb
    unfold mlfqScan
    simp only [mlfqCand, mlfqKey, Prod.Lex.toLex_lt_toLex, Bool.and_eq_true, decide_eq_true_eq]
    by_cases hi : s.ready i = true
    · by_cases hlt : (s.processes i).priority < (s.processes b).priority
      · simp [hi, hlt, show (s.processes i).priority < 999 by omega]
      · by_cases heq : (s.processes i).priority = (s.processes b).priority
        · by_cases ha : (s.processes i).arrivalTime < (s.processes b).arrivalTime
          · have : (s.processes b).priority < 999 ∨
              (s.processes b).priority = 999 ∧ (s.processes i).arrivalTime < 9999 := by omega
            simp [hi, heq, ha, this]
          · simp [hi, heq, ha]
        · simp [hi, hlt, heq]
    · simp [hi]

theorem mlfqPick_ready (s : Sim n m) (i : Fin n) (h : mlfqPick s = some i) : s.ready i = true := by
  rw [mlfqPick_eq] at h
  have := ((scanMin_spec _ _ _).2 i h).2.1
  simp only [mlfqCand, Bool.and_eq_true] at this
  exact this.1

theorem mlfqPick_none (s : Sim n m) (h : mlfqPick s = none) (i : Fin n) (hi : s.ready i = true) :
    999 ≤ (s.processes i).priority := by
  rw [mlfqPick_eq] at h
  have := (scanMin_spec _ _ _).1 h i (List.mem_finRange i)
  simp only [mlfqCand, hi, Bool.true_and, decide_eq_false_iff_not, not_or, not_lt] at this
  exact this.1

theorem mlfq_sound : Sound (mlfqFinish (n := n) (m := m)) mlfqExecute [mlfqAssign] where
  first := fun _ h => finish_spec findLast_finds record_same mlfqExpire_ok h
  mids := fun f hf s h ha => by
    rw [List.mem_singleton] at hf
    subst hf
    exact ⟨assign_coherent mlfqPick_ready SameCore.refl h ha, assign_quiet SameCore.refl s⟩
  act := fun _ h _ => execute_spec findLast_finds 1 h

end Sim
end OsLab
