import Mathlib.Algebra.GroupWithZero.Nat
import Mathlib.Logic.Function.Basic
import Mathlib.Data.Fintype.Basic
import OsLab.Loop

/-!
# The tick schedulers: common state and steps

`run_fcfs`, `run_mlfq`, `run_lottery` and `run_edf` run the same kind of loop: release
finished processes, assign idle CPUs, execute one tick. The steps are defined once,
with what differs between the four as parameters.
-/

namespace OsLab

structure Process where
  pid : Int
  arrivalTime : Int
  burstTime : Int
  remainingTime : Int
  priority : Int
  deadline : Int
  period : Int
  ioWaitTime : Int
  completionTime : Int
  turnaroundTime : Int
  waitingTime : Int
  deadlineMissed : Int
  deriving DecidableEq, Repr

/-- `struct Processor` of `scheduler.h`; `currentPid = -1` marks an idle CPU. -/
structure Processor where
  currentPid : Int
  timeLeftOnCore : Int
  deriving DecidableEq, Repr

def maxTime : Nat := 1000

-- names for the library's instances, which the literals of small machines then share
instance oneCpu_neZero : NeZero 1 := inferInstance

instance twoCpus_neZero : NeZero 2 := inferInstance

/-- `initialize_test_data`: the `k`-th call of `rand()` returns `rand k`, and
each process takes five of them. The metric fields keep what was on the stack. -/
def initializeTestData {n : Nat} (rand : Nat → Nat) (p : Fin n → Process) : Fin n → Process := fun i =>
  let arrivalTime : Int := (rand (5 * i) % 5 : Nat)
  let burstTime : Int := (rand (5 * i + 1) % 10 : Nat) + 1
  let deadline : Int := arrivalTime + burstTime + (rand (5 * i + 3) % 10 : Nat)
  { p i with
    pid := i + 1
    arrivalTime := arrivalTime
    burstTime := burstTime
    remainingTime := burstTime
    priority := (rand (5 * i + 2) % 5 : Nat)
    deadline := deadline
    period := deadline + 5
    ioWaitTime := (rand (5 * i + 4) % 3 : Nat)
    deadlineMissed := 0 }

/-- The local variables of a scheduler with `n` processes and `m` CPUs.
`deadlineMisses` is `run_edf`'s counter; `draws` counts the calls of `rand()`
made by `run_lottery`. -/
structure Sim (n m : Nat) where
  time : Nat
  completed : Nat
  timeline : Fin m → Nat → Int
  isRunning : Fin n → Bool
  cpus : Fin m → Processor
  processes : Fin n → Process
  deadlineMisses : Nat
  draws : Nat

namespace Sim
variable {n m : Nat}

def init (processes : Fin n → Process) : Sim n m where
  time := 0
  completed := 0
  timeline := fun _ _ => 0
  isRunning := fun _ => false
  cpus := fun _ => { currentPid := -1, timeLeftOnCore := 0 }
  processes := processes
  deadlineMisses := 0
  draws := 0

def guard (s : Sim n m) : Prop := s.completed < n ∧ s.time < maxTime

instance : DecidablePred (guard (n := n) (m := m)) := fun s => by unfold guard; infer_instance

/-- `arrival_time <= time && remaining_time > 0 && !is_running[i]` -/
def ready (s : Sim n m) (i : Fin n) : Bool :=
  decide ((s.processes i).arrivalTime ≤ s.time) && decide (0 < (s.processes i).remainingTime) && !s.isRunning i

def setProcess (s : Sim n m) (i : Fin n) (p : Process) : Sim n m :=
  { s with processes := Function.update s.processes i p }

def setCpu (s : Sim n m) (c : Fin m) (q : Processor) : Sim n m :=
  { s with cpus := Function.update s.cpus c q }

def free (s : Sim n m) (c : Fin m) (i : Fin n) : Sim n m :=
  { s.setCpu c { s.cpus c with currentPid := -1 } with isRunning := Function.update s.isRunning i false }

/-- `cpus[c].current_pid = processes[i].pid; is_running[i] = 1;`, and
`time_left_on_core` as the scheduler sets it. -/
def dispatch (s : Sim n m) (c : Fin m) (i : Fin n) (timeLeft : Int) : Sim n m :=
  { s.setCpu c { currentPid := (s.processes i).pid, timeLeftOnCore := timeLeft } with
    isRunning := Function.update s.isRunning i true }

/-! ## Looking a process up by pid -/

/-- The search loops of `run_edf`, which stop at the first match. -/
def findFirst (ps : Fin n → Process) (pid : Int) : Option (Fin n) :=
  (List.finRange n).find? fun i => (ps i).pid == pid

/-- The search loops of the other schedulers, which run on to the last match. -/
def findLast (ps : Fin n → Process) (pid : Int) : Option (Fin n) :=
  (List.finRange n).foldl (fun pIdx i => if (ps i).pid = pid then some i else pIdx) none

/-! ## The steps of a tick -/

/-- STEP 1 for one CPU. `record` writes the metrics of a finished process and
`expire` is what happens to one that has not finished. With `p_idx = -1` the
C code would read before the array; the model then does nothing, and
`Coherent.resolves` shows that this does not occur. -/
def finishOn (find : (Fin n → Process) → Int → Option (Fin n)) (record : Sim n m → Fin n → Sim n m)
    (expire : Sim n m → Fin m → Fin n → Sim n m) (s : Sim n m) (c : Fin m) : Sim n m :=
  if (s.cpus c).currentPid ≠ -1 then
    match find s.processes (s.cpus c).currentPid with
    | none => s
    | some i =>
      if (s.processes i).remainingTime = 0 then
        { (record s i).free c i with completed := s.completed + 1 }
      else expire s c i
  else s

def finish (find : (Fin n → Process) → Int → Option (Fin n)) (record : Sim n m → Fin n → Sim n m)
    (expire : Sim n m → Fin m → Fin n → Sim n m) (s : Sim n m) : Sim n m :=
  (List.finRange m).foldl (finishOn find record expire) s

def keepCpu (s : Sim n m) (_ : Fin m) (_ : Fin n) : Sim n m := s

/-- `completion_time = time + io_wait_time` and the two metrics derived from it. -/
def record (s : Sim n m) (i : Fin n) : Sim n m :=
  let p := s.processes i
  let completionTime := (s.time : Int) + p.ioWaitTime
  let turnaroundTime := completionTime - p.arrivalTime
  s.setProcess i
    { p with
      completionTime := completionTime
      turnaroundTime := turnaroundTime
      waitingTime := turnaroundTime - p.burstTime - p.ioWaitTime }

/-- The assignment step for one CPU: `pick` is the scheduler's search for a
ready process, `charge` what the search itself changes, and `timeLeft` the new
`time_left_on_core`. -/
def assignOn (pick : Sim n m → Option (Fin n)) (charge : Sim n m → Sim n m)
    (timeLeft : Processor → Process → Int) (s : Sim n m) (c : Fin m) : Sim n m :=
  if (s.cpus c).currentPid = -1 then
    match pick s with
    | none => charge s
    | some i => (charge s).dispatch c i (timeLeft (s.cpus c) (s.processes i))
  else s

def assign (pick : Sim n m → Option (Fin n)) (charge : Sim n m → Sim n m)
    (timeLeft : Processor → Process → Int) (s : Sim n m) : Sim n m :=
  (List.finRange m).foldl (assignOn pick charge timeLeft) s

def mark (s : Sim n m) (c : Fin m) (v : Int) : Sim n m :=
  { s with timeline := Function.update s.timeline c (Function.update (s.timeline c) s.time v) }

def executeOn (find : (Fin n → Process) → Int → Option (Fin n)) (burn : Int) (s : Sim n m) (c : Fin m) :
    Sim n m :=
  if (s.cpus c).currentPid ≠ -1 then
    let s := s.mark c (s.cpus c).currentPid
    match find s.processes (s.cpus c).currentPid with
    | none => s
    | some i =>
      let p := s.processes i
      (s.setProcess i { p with remainingTime := p.remainingTime - 1 }).setCpu c
        { s.cpus c with timeLeftOnCore := (s.cpus c).timeLeftOnCore - burn }
  else s.mark c 0

def execute (find : (Fin n → Process) → Int → Option (Fin n)) (burn : Int) (s : Sim n m) : Sim n m :=
  (List.finRange m).foldl (executeOn find burn) s

def advance (s : Sim n m) : Sim n m := { s with time := s.time + 1 }

end Sim

end OsLab
