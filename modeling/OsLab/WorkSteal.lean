import OsLab.Scan
import OsLab.Sched

/-!
# Work stealing

`run_work_steal` keeps one double-ended queue of process indices per CPU. A
process enters the shortest queue on arrival; an idle CPU takes the front of
its own queue or, if that is empty, the back of the longest other one.
-/

namespace OsLab

/-- `CPUQueue`; a slot of `process_indices` that was never written is `none`. -/
structure CPUQueue (n : Nat) where
  processIndices : Nat → Option (Fin n)
  front : Nat
  rear : Nat
  size : Nat

namespace CPUQueue
variable {n : Nat}

def empty : CPUQueue n := { processIndices := fun _ => none, front := 0, rear := 0, size := 0 }

def pushBack (q : CPUQueue n) (pIdx : Fin n) : CPUQueue n :=
  { q with processIndices := Function.update q.processIndices q.rear (some pIdx), rear := q.rear + 1, size := q.size + 1 }

/-- `none` stands for the `-1` that an empty queue returns. -/
def popFront (q : CPUQueue n) : Option (Fin n) × CPUQueue n :=
  if q.size = 0 then (none, q)
  else (q.processIndices q.front, { q with front := q.front + 1, size := q.size - 1 })

def popBack (q : CPUQueue n) : Option (Fin n) × CPUQueue n :=
  if q.size = 0 then (none, q)
  else (q.processIndices (q.rear - 1), { q with rear := q.rear - 1, size := q.size - 1 })

end CPUQueue

/-- The local variables of `run_work_steal`; of a core only `current_pid` is used. -/
structure WorkSim (n m : Nat) where
  currentTime : Nat
  completedProcesses : Nat
  timeline : Fin m → Nat → Int
  arrived : Fin n → Bool
  queues : Fin m → CPUQueue n
  cores : Fin m → Int
  processes : Fin n → Process

namespace WorkSim
variable {n m : Nat}

def init (processes : Fin n → Process) : WorkSim n m where
  currentTime := 0
  completedProcesses := 0
  timeline := fun _ _ => 0
  arrived := fun _ => false
  queues := fun _ => CPUQueue.empty
  cores := fun _ => -1
  processes := processes

def guard (s : WorkSim n m) : Prop := s.completedProcesses < n ∧ s.currentTime < maxTime

instance : DecidablePred (guard (n := n) (m := m)) := fun s => by unfold guard; infer_instance

def minQ (s : WorkSim n m) : Option (Fin m) :=
  (List.finRange m).foldl (scanMin (fun _ => true) fun c => (s.queues c).size) none

def loadOn (s : WorkSim n m) (i : Fin n) : WorkSim n m :=
  if (s.processes i).arrivalTime = s.currentTime ∧ s.arrived i = false then
    match s.minQ with
    | none => s
    | some c =>
      { s with
        queues := Function.update s.queues c ((s.queues c).pushBack i)
        arrived := Function.update s.arrived i true }
  else s

def load (s : WorkSim n m) : WorkSim n m := (List.finRange n).foldl loadOn s

def maxScan (s : WorkSim n m) (i : Fin m) (best : Option (Fin m) × Nat) (c : Fin m) : Option (Fin m) × Nat :=
  if c ≠ i ∧ (s.queues c).size > best.2 then (some c, (s.queues c).size) else best

def maxQ (s : WorkSim n m) (i : Fin m) : Option (Fin m) := ((List.finRange m).foldl (s.maxScan i) (none, 0)).1

def take (s : WorkSim n m) (pop : CPUQueue n → Option (Fin n) × CPUQueue n) (i c : Fin m) : WorkSim n m :=
  let r := pop (s.queues c)
  let s := { s with queues := Function.update s.queues c r.2 }
  match r.1 with
  | none => s
  | some p => { s with cores := Function.update s.cores i (s.processes p).pid }

def assignOn (s : WorkSim n m) (i : Fin m) : WorkSim n m :=
  if s.cores i = -1 then
    let s' := s.take CPUQueue.popFront i i
    match (CPUQueue.popFront (s.queues i)).1 with
    | some _ => s'
    | none =>
      match s'.maxQ i with
      | none => s'
      | some c => s'.take CPUQueue.popBack i c
  else s

def assign (s : WorkSim n m) : WorkSim n m := (List.finRange m).foldl assignOn s

def mark (s : WorkSim n m) (i : Fin m) (v : Int) : WorkSim n m :=
  { s with timeline := Function.update s.timeline i (Function.update (s.timeline i) s.currentTime v) }

/-- `completion_time = current_time + 1`; I/O wait is left out of the metrics. -/
def record (s : WorkSim n m) (p : Process) : Process :=
  let completionTime := (s.currentTime : Int) + 1
  let turnaroundTime := completionTime - p.arrivalTime
  { p with
    completionTime := completionTime
    turnaroundTime := turnaroundTime
    waitingTime := turnaroundTime - p.burstTime }

def executeOn (s : WorkSim n m) (i : Fin m) : WorkSim n m :=
  if s.cores i ≠ -1 then
    let s := s.mark i (s.cores i)
    match Sim.findFirst s.processes (s.cores i) with
    | none => s
    | some j =>
      let p := { s.processes j with remainingTime := (s.processes j).remainingTime - 1 }
      if p.remainingTime = 0 then
        { s with
          processes := Function.update s.processes j (s.record p)
          completedProcesses := s.completedProcesses + 1
          cores := Function.update s.cores i (-1) }
      else { s with processes := Function.update s.processes j p }
  else s.mark i 0

def execute (s : WorkSim n m) : WorkSim n m := (List.finRange m).foldl executeOn s

def advance (s : WorkSim n m) : WorkSim n m := { s with currentTime := s.currentTime + 1 }

def steps : List (WorkSim n m → WorkSim n m) := load :: ([assign] ++ [execute, advance])

def runWorkSteal (ps : Fin n → Process) : WorkSim n m := loop guard steps maxTime (init ps)

end WorkSim

end OsLab
