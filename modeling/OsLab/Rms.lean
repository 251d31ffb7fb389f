import Mathlib.Algebra.BigOperators.Group.Finset.Basic
import Mathlib.Data.Fintype.Basic
import OsLab.Sched

/-!
# Rate-monotonic scheduling

`run_rms` assigns periodic tasks to CPUs and simulates one capped hyperperiod: at every
tick it releases the tasks whose period divides the tick, counts a miss for a task that
still has work left then, and lets every CPU run the pending task of shortest period.
A timeline cell holds the task number plus one.
-/

namespace OsLab

/-- The task set that `run_rms` accepts: execution times and periods are
positive. `a` is the CPU of each task. -/
structure TaskSet (n m : Nat) where
  e : Fin n → Nat
  p : Fin n → Nat
  a : Fin n → Fin m
  e_pos : ∀ i, 0 < e i
  p_pos : ∀ i, 0 < p i

/-! ## The simulated length -/

def gcdi (a b : Nat) : Nat :=
  if b = 0 then a else gcdi b (a % b)
termination_by b
decreasing_by exact Nat.mod_lt _ (Nat.pos_of_ne_zero ‹_›)

def lcmCap (a b cap : Nat) : Nat :=
  let v := a / gcdi a b * b
  if v > cap then cap else v

def hyperperiod {n m : Nat} (ts : TaskSet n m) : Nat :=
  let h := (List.finRange n).foldl (fun h i => lcmCap h (ts.p i) maxTime) 1
  if h ≤ 0 then 1 else h

/-! ## The simulation loop -/

structure Rms (n m : Nat) where
  r : Fin n → Nat
  miss : Fin n → Nat
  busy : Fin m → Nat
  timeline : Fin m → Nat → Nat

namespace Rms
variable {n m : Nat}

def init : Rms n m where
  r := fun _ => 0
  miss := fun _ => 0
  busy := fun _ => 0
  timeline := fun _ _ => 0

def releaseOn (ts : TaskSet n m) (t : Nat) (s : Rms n m) (i : Fin n) : Rms n m :=
  if t % ts.p i = 0 then
    { s with
      miss := if t > 0 ∧ s.r i > 0 then Function.update s.miss i (s.miss i + 1) else s.miss
      r := Function.update s.r i (s.r i + ts.e i) }
  else s

def releaseAll (ts : TaskSet n m) (t : Nat) (s : Rms n m) : Rms n m := (List.finRange n).foldl (releaseOn ts t) s

def scan (ts : TaskSet n m) (s : Rms n m) (c : Fin m) (k : Option (Fin n)) (i : Fin n) : Option (Fin n) :=
  if ts.a i = c ∧ s.r i > 0 then
    match k with
    | none => some i
    | some k => if ts.p i < ts.p k ∨ (ts.p i = ts.p k ∧ i < k) then some i else some k
  else k

def pick (ts : TaskSet n m) (s : Rms n m) (c : Fin m) : Option (Fin n) := (List.finRange n).foldl (scan ts s c) none

def mark (s : Rms n m) (c : Fin m) (t v : Nat) : Rms n m :=
  { s with timeline := Function.update s.timeline c (Function.update (s.timeline c) t v) }

def runOn (ts : TaskSet n m) (t : Nat) (s : Rms n m) (c : Fin m) : Rms n m :=
  match pick ts s c with
  | none => s.mark c t 0
  | some k =>
    { s.mark c t (k + 1) with
      r := Function.update s.r k (s.r k - 1)
      busy := Function.update s.busy c (s.busy c + 1) }

def runAll (ts : TaskSet n m) (t : Nat) (s : Rms n m) : Rms n m := (List.finRange m).foldl (runOn ts t) s

def tick (ts : TaskSet n m) (s : Rms n m) (t : Nat) : Rms n m := runAll ts t (releaseAll ts t s)

def simulate (ts : TaskSet n m) (h : Nat) : Rms n m := (List.range h).foldl (tick ts) init

def totalMiss (ts : TaskSet n m) : Nat := ∑ i, (simulate ts (hyperperiod ts)).miss i

/-! ## What the timeline shows -/

def given (s : Rms n m) (i : Fin n) (t : Nat) : Nat :=
  ∑ c, ((Finset.range t).filter fun u => s.timeline c u = i + 1).card

/-- The number of pairs of a task `i` and a deadline `k * p i` within the
simulated length `h` by which the timeline gives `i` too little. -/
def missed (ts : TaskSet n m) (h : Nat) : Nat :=
  ∑ i, ((Finset.range (h + 1)).filter fun k =>
    1 ≤ k ∧ k * ts.p i ≤ h ∧ (simulate ts h).given i (k * ts.p i) < k * ts.e i).card

end Rms

end OsLab
