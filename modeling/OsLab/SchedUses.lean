import OsLab.Edf
import OsLab.Fcfs
import OsLab.Lottery
import OsLab.Mlfq
import OsLab.Trace
import OsLab.WorkSteal

/-!
# The array accesses of the schedulers

Each step of the models is paired with the accesses to arrays that the C code makes in
it, in the order of the code and with its short circuits and `break`s. Statements that
follow one another and touch the same elements are listed once.
-/

namespace OsLab

/-- An access to an array of a scheduler, with its index. The `cores` of
`run_work_steal` are its `cpus`. -/
inductive Use
  | isRunning (i : Int)
  | arrived (i : Int)
  | processIndices (k : Int)
  | processes (i : Int)
  | cpus (c : Int)
  | queues (c : Int)
  | timeline (c t : Int)
  deriving DecidableEq, Repr

namespace Use

def Within (k n m : Nat) : Use → Prop
  | isRunning i | arrived i | processIndices i => 0 ≤ i ∧ i < k
  | processes i => 0 ≤ i ∧ i < n
  | cpus c | queues c => 0 ≤ c ∧ c < m
  | timeline c t => (0 ≤ c ∧ c < m) ∧ 0 ≤ t ∧ t < maxTime

def InBounds (n m : Nat) : Use → Prop := Within 100 n m

end Use

variable {n m : Nat}

/-! ## What the schedulers have in common -/

/-- The search for the process with the pid of CPU `c`; with `stop` it ends at
the match. -/
def lookupUses (ps : Fin n → Process) (pid : Int) (c : Fin m) (stop : Bool) : List (Fin n) → List Use
  | [] => []
  | i :: l =>
    .processes i.val :: .cpus c.val :: if stop && (ps i).pid == pid then [] else lookupUses ps pid c stop l

def setupUses (m : Nat) : List Use :=
  ((List.finRange m).flatMap fun c => (List.range maxTime).map fun t => .timeline c.val t) ++
    (List.finRange m).map fun c => .cpus c.val

def printUses (n m time : Nat) : List Use :=
  ((List.finRange m).flatMap fun c => (List.range time).map fun t => .timeline c.val t) ++
    (List.finRange n).map fun i => .processes i.val

namespace Sim

def finishOnUses (find : (Fin n → Process) → Int → Option (Fin n)) (stop : Bool)
    (expire : Sim n m → Fin m → Fin n → List Use) (s : Sim n m) (c : Fin m) : List Use :=
  .cpus c.val :: if (s.cpus c).currentPid ≠ -1 then
    lookupUses s.processes (s.cpus c).currentPid c stop (List.finRange n) ++
      match find s.processes (s.cpus c).currentPid with
      | none => [.processes (-1)]
      | some i => .processes i.val ::
        if (s.processes i).remainingTime = 0 then [.isRunning i.val, .cpus c.val] else expire s c i
  else []

def keepCpuUses (_ : Sim n m) (_ : Fin m) (_ : Fin n) : List Use := []

def readyUses (s : Sim n m) (i : Fin n) : List Use :=
  .processes i.val ::
    if (s.processes i).arrivalTime ≤ s.time ∧ 0 < (s.processes i).remainingTime then [.isRunning i.val] else []

def scanUses (s : Sim n m) : List Use := (List.finRange n).flatMap (readyUses s)

def assignOnUses (scan : Sim n m → List Use) (pick : Sim n m → Option (Fin n)) (s : Sim n m) (c : Fin m) : List Use :=
  .cpus c.val :: if (s.cpus c).currentPid = -1 then
    scan s ++ match pick s with
      | none => []
      | some i => [.cpus c.val, .processes i.val, .isRunning i.val]
  else []

/-- The execution step for one CPU; `time_left_on_core` is touched only where
something is taken off it. -/
def executeOnUses (find : (Fin n → Process) → Int → Option (Fin n)) (stop : Bool) (burn : Int) (s : Sim n m) (c : Fin m) :
    List Use :=
  .cpus c.val :: .timeline c.val s.time :: if (s.cpus c).currentPid ≠ -1 then
    lookupUses s.processes (s.cpus c).currentPid c stop (List.finRange n) ++
      match find s.processes (s.cpus c).currentPid with
      | none => [.processes (-1)]
      | some i => .processes i.val :: if burn = 0 then [] else [.cpus c.val]
  else []

def advanceUses (_ : Sim n m) : List Use := []

/-! ## `run_fcfs` -/

def fcfsSortUses (n : Nat) : List Use :=
  (List.finRange n).flatMap fun i => ((List.finRange n).filter (i < ·)).flatMap fun j =>
    [.processes j.val, .processes i.val]

def fcfsScanOnUses (s : Sim n m) (best : Option (Fin n) × Int) (i : Fin n) : List Use :=
  readyUses s i ++ if s.ready i = true ∧ (s.processes i).arrivalTime = best.2 then
    match best.1 with
    | none => []
    | some b => [.processes b.val]
  else []

def fcfsScanUses (s : Sim n m) : List Use := traced (fcfsScanOnUses s) (fcfsScan s) (List.finRange n) (none, 9999)

def fcfsProg : List ((Sim n m → Sim n m) × (Sim n m → List Use)) :=
  (fcfsFinish, traced (finishOnUses findLast false keepCpuUses) (finishOn findLast record keepCpu) (List.finRange m)) ::
    ([(fcfsAssign, traced (assignOnUses fcfsScanUses fcfsPick) (assignOn fcfsPick id fun _ p => p.remainingTime)
        (List.finRange m))] ++
      [(fcfsExecute, traced (executeOnUses findLast false 1) (executeOn findLast 1) (List.finRange m)),
        (advance, advanceUses)])

def fcfsUses (m : Nat) (ps : Fin n → Process) : List Use :=
  setupUses m ++ fcfsSortUses n ++ loopTrace guard fcfsProg maxTime (fcfsInit ps : Sim n m) ++
    printUses n m (runFcfs ps : Sim n m).time

/-! ## `run_mlfq` -/

def mlfqExpireUses (s : Sim n m) (c : Fin m) (i : Fin n) : List Use :=
  .cpus c.val :: if (s.cpus c).timeLeftOnCore = 0 then [.processes i.val, .isRunning i.val, .cpus c.val] else []

def mlfqProg : List ((Sim n m → Sim n m) × (Sim n m → List Use)) :=
  (mlfqFinish, traced (finishOnUses findLast false mlfqExpireUses) (finishOn findLast record mlfqExpire) (List.finRange m)) ::
    ([(mlfqAssign, traced (assignOnUses scanUses mlfqPick) (assignOn mlfqPick id fun _ p => mlfqQuantum p)
        (List.finRange m))] ++
      [(mlfqExecute, traced (executeOnUses findLast false 1) (executeOn findLast 1) (List.finRange m)),
        (advance, advanceUses)])

def mlfqUses (m : Nat) (ps : Fin n → Process) : List Use :=
  setupUses m ++ ((List.finRange n).map fun i => .processes i.val) ++
    loopTrace guard mlfqProg maxTime (mlfqInit ps : Sim n m) ++ printUses n m (runMlfq ps : Sim n m).time

/-! ## `run_lottery` -/

def lotteryDrawUses (s : Sim n m) (winningTicket : Int) : Int → List (Fin n) → List Use
  | _, [] => []
  | currentSum, i :: l => readyUses s i ++
    if s.ready i then
      let currentSum := currentSum + ((s.processes i).priority + 1)
      if currentSum > winningTicket then [] else lotteryDrawUses s winningTicket currentSum l
    else lotteryDrawUses s winningTicket currentSum l

def lotteryScanUses (rand : Nat → Nat) (s : Sim n m) : List Use :=
  scanUses s ++ if s.totalTickets > 0 then
    lotteryDrawUses s (rand s.draws % s.totalTickets) 0 (List.finRange n)
  else []

def lotteryExecuteOnUses (s : Sim n m) (c : Fin m) : List Use :=
  .cpus c.val :: if (s.cpus c).currentPid ≠ -1 then
    .timeline c.val s.time :: lookupUses s.processes (s.cpus c).currentPid c false (List.finRange n)
  else []

def lotteryProg (rand : Nat → Nat) : List ((Sim n m → Sim n m) × (Sim n m → List Use)) :=
  (lotteryFinish, traced (finishOnUses findLast false keepCpuUses) (finishOn findLast lotteryRecord keepCpu)
      (List.finRange m)) ::
    ([(lotteryAssign rand, traced (assignOnUses (lotteryScanUses rand) (lotteryPick rand))
        (assignOn (lotteryPick rand) lotteryCharge fun q _ => q.timeLeftOnCore) (List.finRange m))] ++
      [(lotteryExecute, traced lotteryExecuteOnUses lotteryExecuteOn (List.finRange m)), (advance, advanceUses)])

def lotteryUses (m : Nat) (rand : Nat → Nat) (ps : Fin n → Process) : List Use :=
  setupUses m ++ loopTrace guard (lotteryProg rand) maxTime (init ps : Sim n m) ++
    printUses n m (runLottery rand ps : Sim n m).time

/-! ## `run_edf` -/

def edfWorstOnUses (s : Sim n m) (c : Fin m) : List Use :=
  .cpus c.val :: if (s.cpus c).currentPid ≠ -1 then
    lookupUses s.processes (s.cpus c).currentPid c true (List.finRange n) ++
      match findFirst s.processes (s.cpus c).currentPid with
      | none => [.processes (-1)]
      | some k => [.processes k.val]
  else []

def edfPreemptOnUses (s : Sim n m) (i : Fin n) : List Use :=
  .processes i.val ::
    if (s.processes i).arrivalTime = s.time ∧ 0 < (s.processes i).remainingTime then
      .isRunning i.val :: if s.isRunning i = false then
        (List.finRange m).flatMap (edfWorstOnUses s) ++
          match s.edfWorst with
          | (none, _) => []
          | (some c, worstDeadline) => .processes i.val ::
            if (s.processes i).deadline < worstDeadline then
              lookupUses s.processes (s.cpus c).currentPid c true (List.finRange n) ++
                match findFirst s.processes (s.cpus c).currentPid with
                | none => [.isRunning (-1)]
                | some k => [.isRunning k.val, .cpus c.val]
            else []
      else []
    else []

def edfProg : List ((Sim n m → Sim n m) × (Sim n m → List Use)) :=
  (edfFinish, traced (finishOnUses findFirst true keepCpuUses) (finishOn findFirst edfRecord keepCpu) (List.finRange m)) ::
    ([(edfPreempt, traced edfPreemptOnUses edfPreemptOn (List.finRange n)),
        (edfAssign, traced (assignOnUses scanUses edfPick) (assignOn edfPick id fun q _ => q.timeLeftOnCore)
          (List.finRange m))] ++
      [(edfExecute, traced (executeOnUses findFirst true 0) (executeOn findFirst 0) (List.finRange m)),
        (advance, advanceUses)])

def edfUses (m : Nat) (ps : Fin n → Process) : List Use :=
  setupUses m ++ loopTrace guard edfProg maxTime (init ps : Sim n m) ++ printUses n m (runEdf ps : Sim n m).time

end Sim

/-! ## `run_work_steal` -/

namespace CPUQueue

def pushBackUses (q : CPUQueue n) : List Use := [.processIndices q.rear]

def popFrontUses (q : CPUQueue n) : List Use := if q.size = 0 then [] else [.processIndices q.front]

def popBackUses (q : CPUQueue n) : List Use := if q.size = 0 then [] else [.processIndices ((q.rear : Int) - 1)]

end CPUQueue

namespace WorkSim

def minQUses (s : WorkSim n m) : List Use :=
  traced (fun best c => match best with
      | none => []
      | some b => [.queues c.val, .queues b.val])
    (scanMin (fun _ => true) fun c => (s.queues c).size) (List.finRange m) none

def loadOnUses (s : WorkSim n m) (i : Fin n) : List Use :=
  .processes i.val :: if (s.processes i).arrivalTime = s.currentTime then
    .arrived i.val :: if s.arrived i = false then
      minQUses s ++ match s.minQ with
        | none => []
        | some c => .queues c.val :: (s.queues c).pushBackUses ++ [.arrived i.val]
    else []
  else []

/-- A process taken off queue `c` for core `i`: an empty queue gives none, and a
cell that was never written could hold any index. -/
def takeUses (s : WorkSim n m) (pop : CPUQueue n → Option (Fin n) × CPUQueue n) (uses : CPUQueue n → List Use)
    (i c : Fin m) : List Use :=
  .queues c.val :: uses (s.queues c) ++ if (s.queues c).size = 0 then [] else
    match (pop (s.queues c)).1 with
    | none => [.processes (-1)]
    | some p => [.processes p.val, .cpus i.val]

def assignOnUses (s : WorkSim n m) (i : Fin m) : List Use :=
  .cpus i.val :: if s.cores i = -1 then
    s.takeUses CPUQueue.popFront CPUQueue.popFrontUses i i ++
      match (CPUQueue.popFront (s.queues i)).1 with
      | some _ => []
      | none =>
        let s' := s.take CPUQueue.popFront i i
        (((List.finRange m).filter (· ≠ i)).map fun c => .queues c.val) ++
          match s'.maxQ i with
          | none => []
          | some c => s'.takeUses CPUQueue.popBack CPUQueue.popBackUses i c
  else []

def executeOnUses (s : WorkSim n m) (i : Fin m) : List Use :=
  .cpus i.val :: .timeline i.val s.currentTime :: if s.cores i ≠ -1 then
    lookupUses s.processes (s.cores i) i true (List.finRange n) ++
      match Sim.findFirst s.processes (s.cores i) with
      | none => []
      | some j => .processes j.val :: if (s.processes j).remainingTime - 1 = 0 then [.cpus i.val] else []
  else []

def prog : List ((WorkSim n m → WorkSim n m) × (WorkSim n m → List Use)) :=
  (load, traced loadOnUses loadOn (List.finRange n)) ::
    ([(assign, traced assignOnUses assignOn (List.finRange m))] ++
      [(execute, traced executeOnUses executeOn (List.finRange m)), (advance, fun _ => [])])

def workStealUses (m : Nat) (ps : Fin n → Process) : List Use :=
  ((List.finRange m).map fun c => .queues c.val) ++ setupUses m ++ loopTrace guard prog maxTime (init ps : WorkSim n m) ++
    printUses n m (runWorkSteal ps : WorkSim n m).currentTime

end WorkSim

end OsLab
