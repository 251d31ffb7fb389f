import Mathlib.Algebra.Order.BigOperators.Group.List
import Mathlib.Data.Int.ConditionallyCompleteOrder
import Mathlib.Data.Int.Interval
import Mathlib.Order.ConditionallyCompleteLattice.Basic
import Mathlib.Tactic.Ring
import OsLab.SchedSound

/-!
# Lottery scheduling

`run_lottery` gives every ready process `priority + 1` tickets and draws one
with `rand()` for each idle CPU. The `k`-th call of `rand()` made by the
scheduler returns `rand k`.
-/

namespace OsLab
namespace Sim
variable {n m : Nat}

/-- Unlike its siblings, `run_lottery` leaves I/O wait out of the metrics. -/
def lotteryRecord (s : Sim n m) (i : Fin n) : Sim n m :=
  let p := s.processes i
  let turnaroundTime := (s.time : Int) - p.arrivalTime
  s.setProcess i
    { p with
      completionTime := s.time
      turnaroundTime := turnaroundTime
      waitingTime := turnaroundTime - p.burstTime }

def totalTickets (s : Sim n m) : Int :=
  (List.finRange n).foldl (fun total i => if s.ready i then total + ((s.processes i).priority + 1) else total) 0

/-- The selection loop: the running sum first exceeds the winning ticket at the
process that is selected. -/
def lotteryDraw (s : Sim n m) (winningTicket : Int) : Int → List (Fin n) → Option (Fin n)
  | _, [] => none
  | currentSum, i :: l =>
    if s.ready i then
      let currentSum := currentSum + ((s.processes i).priority + 1)
      if currentSum > winningTicket then some i else lotteryDraw s winningTicket currentSum l
    else lotteryDraw s winningTicket currentSum l

def lotteryPick (rand : Nat → Nat) (s : Sim n m) : Option (Fin n) :=
  if s.totalTickets > 0 then lotteryDraw s (rand s.draws % s.totalTickets) 0 (List.finRange n) else none

def lotteryCharge (s : Sim n m) : Sim n m := if s.totalTickets > 0 then { s with draws := s.draws + 1 } else s

/-- `run_lottery` decrements in the search loop itself, and does not write the
cell of an idle CPU. -/
def lotteryExecuteOn (s : Sim n m) (c : Fin m) : Sim n m :=
  if (s.cpus c).currentPid ≠ -1 then
    let s := s.mark c (s.cpus c).currentPid
    { s with processes := fun i =>
        let p := s.processes i
        if p.pid = (s.cpus c).currentPid then { p with remainingTime := p.remainingTime - 1 } else p }
  else s

def lotteryFinish : Sim n m → Sim n m := finish findLast lotteryRecord keepCpu

def lotteryAssign (rand : Nat → Nat) : Sim n m → Sim n m :=
  assign (lotteryPick rand) lotteryCharge fun q _ => q.timeLeftOnCore

def lotteryExecute (s : Sim n m) : Sim n m := (List.finRange m).foldl lotteryExecuteOn s

def lotterySteps (rand : Nat → Nat) : List (Sim n m → Sim n m) :=
  lotteryFinish :: ([lotteryAssign rand] ++ [lotteryExecute, advance])

def runLottery (rand : Nat → Nat) (ps : Fin n → Process) : Sim n m :=
  loop guard (lotterySteps rand) maxTime (init ps)

theorem lotteryRecord_same (s : Sim n m) (i : Fin n) : SameCore s (s.lotteryRecord i) where
  core := core_update _ _ _ rfl
  cpus := rfl
  isRunning := rfl
  time := rfl
  timeline := rfl
  completed := rfl

theorem lotteryCharge_same (s : Sim n m) : SameCore s s.lotteryCharge := by
  unfold lotteryCharge
  split
  · exact ⟨fun _ => rfl, rfl, rfl, rfl, rfl, rfl⟩
  · exact SameCore.refl s

/-! ## The draw -/

theorem lotteryDraw_ready (s : Sim n m) (w : Int) : ∀ (l : List (Fin n)) (sum : Int) (i : Fin n),
    lotteryDraw s w sum l = some i → s.ready i = true
  | [], _, _, h => by cases h
  | j :: l, sum, i, h => by
    unfold lotteryDraw at h
    split at h
    · rename_i hj
      simp only at h
      split at h
      · cases h; exact hj
      · exact lotteryDraw_ready s w l _ i h
    · exact lotteryDraw_ready s w l _ i h

theorem lotteryPick_ready (rand : Nat → Nat) (s : Sim n m) (i : Fin n) (h : lotteryPick rand s = some i) :
    s.ready i = true := by
  unfold lotteryPick at h
  split at h
  · exact lotteryDraw_ready s _ _ _ i h
  · cases h

/-! ## The share of a process -/

def tickets (s : Sim n m) (i : Fin n) : Int := if s.ready i then (s.processes i).priority + 1 else 0

theorem totalTickets_eq (s : Sim n m) : s.totalTickets = ((List.finRange n).map s.tickets).sum := by
  have fold : ∀ (l : List (Fin n)) (total : Int), l.foldl (fun total i =>
      if s.ready i then total + ((s.processes i).priority + 1) else total) total = total + (l.map s.tickets).sum := by
    intro l
    induction l with
    | nil => intro total; simp
    | cons i l ih =>
      intro total
      rw [List.foldl_cons, ih, List.map_cons, List.sum_cons, tickets]
      split <;> ring
  rw [totalTickets, fold, zero_add]

section
variable {s : Sim n m} (hp : ∀ i, 0 ≤ (s.processes i).priority)
include hp

theorem tickets_nonneg (i : Fin n) : 0 ≤ s.tickets i := by
  have := hp i
  unfold tickets
  split <;> omega

theorem tickets_sum_nonneg (l : List (Fin n)) : 0 ≤ (l.map s.tickets).sum := by
  apply List.sum_nonneg
  intro x hx
  obtain ⟨i, _, rfl⟩ := List.mem_map.1 hx
  exact tickets_nonneg hp i

theorem totalTickets_pos {i : Fin n} (hr : s.ready i = true) : 0 < s.totalTickets := by
  rw [totalTickets_eq]
  obtain ⟨l₁, l₂, e⟩ := List.append_of_mem (List.mem_finRange i)
  have h₁ := tickets_sum_nonneg hp l₁
  have h₂ := tickets_sum_nonneg hp l₂
  have hi : 0 < s.tickets i := by
    rw [tickets, if_pos hr]
    exact Int.lt_add_one_of_le (hp i)
  rw [e, List.map_append, List.map_cons, List.sum_append, List.sum_cons]
  omega

omit hp in
theorem lotteryDraw_cons {w sum : Int} (hw : sum ≤ w) (j : Fin n) (l : List (Fin n)) :
    lotteryDraw s w sum (j :: l) =
      if w < sum + s.tickets j then some j else lotteryDraw s w (sum + s.tickets j) l := by
  rw [lotteryDraw, tickets]
  split
  · rfl
  · rw [add_zero, if_neg (not_lt.2 hw)]

omit hp in
theorem lotteryDraw_some (w : Int) : ∀ (l : List (Fin n)) (sum : Int), sum ≤ w → w < sum + (l.map s.tickets).sum →
    ∃ i, lotteryDraw s w sum l = some i
  | [], sum, hw, hlt => by simp at hlt; omega
  | j :: l, sum, hw, hlt => by
    rw [lotteryDraw_cons hw]
    split
    · exact ⟨j, rfl⟩
    · rename_i hj
      rw [List.map_cons, List.sum_cons, ← add_assoc] at hlt
      exact lotteryDraw_some w l _ (not_lt.1 hj) hlt

theorem lotteryDraw_share (i : Fin n) : ∀ (l : List (Fin n)) (sum : Int),
    (((Finset.Ico sum (sum + (l.map s.tickets).sum)).filter fun w => lotteryDraw s w sum l = some i).card : Int) =
      l.count i * s.tickets i
  | [], sum => by simp
  | j :: l, sum => by
    have hj := tickets_nonneg hp j
    have hl := tickets_sum_nonneg hp l
    have block : (Finset.Ico sum (sum + s.tickets j)).filter (fun w => lotteryDraw s w sum (j :: l) = some i) =
        if j = i then Finset.Ico sum (sum + s.tickets j) else ∅ := by
      rw [← Finset.filter_const]
      refine Finset.filter_congr fun w hw => ?_
      rw [Finset.mem_Ico] at hw
      rw [lotteryDraw_cons hw.1, if_pos hw.2, Option.some_inj]
    have rest : (Finset.Ico (sum + s.tickets j) (sum + s.tickets j + (l.map s.tickets).sum)).filter
          (fun w => lotteryDraw s w sum (j :: l) = some i) =
        (Finset.Ico (sum + s.tickets j) (sum + s.tickets j + (l.map s.tickets).sum)).filter
          (fun w => lotteryDraw s w (sum + s.tickets j) l = some i) := by
      refine Finset.filter_congr fun w hw => ?_
      rw [Finset.mem_Ico] at hw
      rw [lotteryDraw_cons (le_trans (by omega) hw.1), if_neg (not_lt.2 hw.1)]
    rw [List.map_cons, List.sum_cons, ← add_assoc,
      ← Finset.Ico_union_Ico_eq_Ico (show sum ≤ sum + s.tickets j by omega)
        (show sum + s.tickets j ≤ sum + s.tickets j + (l.map s.tickets).sum by omega),
      Finset.filter_union, Finset.card_union_of_disjoint
        (Finset.disjoint_filter_filter (Finset.Ico_disjoint_Ico_consecutive _ _ _)),
      block, rest, Nat.cast_add, lotteryDraw_share i l, List.count_cons]
    by_cases e : j = i
    · subst e
      rw [if_pos rfl, Int.card_Ico, beq_self_eq_true, if_pos rfl]
      push_cast
      rw [Int.toNat_of_nonneg (by omega)]
      ring
    · rw [if_neg e, beq_false_of_ne e, if_neg Bool.false_ne_true, Finset.card_empty]
      simp

end

/-- The draw is proportional: with the winning ticket anywhere below the total
some ready process is selected, and each process is selected by as many tickets
as it holds. The running sum of the selection loop never exceeds the total, so
that no addition of either loop overflows when the total fits an `int`. -/
theorem lotteryDraw_proportional (s : Sim n m) (hp : ∀ i, 0 ≤ (s.processes i).priority)
    (hr : ∃ i, s.ready i = true) :
    0 < s.totalTickets ∧
    (∀ w, 0 ≤ w → w < s.totalTickets →
      ∃ i, lotteryDraw s w 0 (List.finRange n) = some i ∧ s.ready i = true) ∧
    ∀ i, (((Finset.Ico 0 s.totalTickets).filter fun w => lotteryDraw s w 0 (List.finRange n) = some i).card : Int) =
      if s.ready i then (s.processes i).priority + 1 else 0 := by
  refine ⟨?_, ?_, ?_⟩
  · obtain ⟨i, hi⟩ := hr
    exact totalTickets_pos hp hi
  · intro w h0 hw
    rw [totalTickets_eq, ← zero_add (List.sum _)] at hw
    obtain ⟨i, hi⟩ := lotteryDraw_some w _ 0 h0 hw
    exact ⟨i, hi, lotteryDraw_ready s w _ 0 i hi⟩
  · intro i
    have share := lotteryDraw_share hp i (List.finRange n) 0
    rw [zero_add, ← totalTickets_eq, List.count_eq_one_of_mem (List.nodup_finRange n) (List.mem_finRange i),
      Nat.cast_one, one_mul] at share
    exact share

def raffle : Sim 2 1 :=
  init (initializeTestData (fun k => if k = 2 then 3 else 0) fun _ => ⟨0, 0, 0, 0, 0, 0, 0, 0, 0, 0, 0, 0⟩)

theorem raffle_proportional : raffle.totalTickets = 5 ∧
    ∀ i, (((Finset.Ico 0 raffle.totalTickets).filter fun w =>
      lotteryDraw raffle w 0 (List.finRange 2) = some i).card : Int) = if i = 0 then 4 else 1 := by
  refine ⟨by decide, fun i => ?_⟩
  rw [(lotteryDraw_proportional raffle (by decide) ⟨0, by decide⟩).2.2 i]
  revert i
  decide

/-! ## Execution -/

section
variable {s s' : Sim n m} {l : List (Fin m)} {c : Fin m}

theorem ExecutedOn.skip (h : Coherent s) (he : ExecutedOn s s' l) (hc : c ∉ l) (hi : (s.cpus c).currentPid = -1)
    (h0 : s.timeline c s.time = 0) : ExecutedOn s s' (l ++ [c]) where
  pid := he.pid
  processes := (he.idle h hc hi).processes
  isRunning := he.isRunning
  time := he.time
  completed := he.completed
  deadlineMisses := he.deadlineMisses
  column := fun c' => by
    by_cases e : c' = c
    · subst e
      rw [he.column c', if_neg hc, h0, if_pos (List.mem_append_right _ (List.mem_singleton_self c')), if_pos hi]
    · simp only [he.column c', List.mem_append, List.mem_singleton, e, or_false]
  past := he.past

theorem lotteryExecuteOn_busy (h : Coherent s) (he : ExecutedOn s s' l) {i : Fin n}
    (hi : (s.cpus c).currentPid = (s.processes i).pid) : lotteryExecuteOn s' c =
      ((s'.mark c (s.cpus c).currentPid).setProcess i { s'.processes i with
        remainingTime := (s'.processes i).remainingTime - 1 }).setCpu c
        { currentPid := (s.cpus c).currentPid, timeLeftOnCore := (s'.cpus c).timeLeftOnCore } := by
  have hne : (s.cpus c).currentPid ≠ -1 := by rw [hi]; exact h.pid_ne i
  have hcpu : Function.update s'.cpus c
      { currentPid := (s.cpus c).currentPid, timeLeftOnCore := (s'.cpus c).timeLeftOnCore } = s'.cpus := by
    rw [← he.pid c]; exact Function.update_eq_self c s'.cpus
  have hps : (fun j => if (s'.processes j).pid = (s.cpus c).currentPid then
      { s'.processes j with remainingTime := (s'.processes j).remainingTime - 1 } else s'.processes j) =
      Function.update s'.processes i
        { s'.processes i with remainingTime := (s'.processes i).remainingTime - 1 } := by
    funext j
    by_cases e : j = i
    · subst e; simp [he.pid_eq j, hi]
    · have : (s'.processes j).pid ≠ (s.cpus c).currentPid := by
        rw [he.pid_eq j, hi]; exact fun hp => e (h.pid_inj hp)
      simp [this, e]
  unfold lotteryExecuteOn
  rw [he.pid c, if_pos hne]
  simp only [mark, setProcess, setCpu, he.pid c, hps, hcpu]

end

theorem lotteryExecute_spec {s : Sim n m} (h : Coherent s) (hcol : Columns s s.time) :
    Executed s (lotteryExecute s) := by
  refine ExecutedOn.done h (foldl_range (P := fun l a => ExecutedOn s a l) _ (ExecutedOn.nil s) ?_)
  intro l c a hl he
  have hc := not_mem_visited (List.nodup_finRange m) hl
  by_cases hi : (s.cpus c).currentPid = -1
  · have e : lotteryExecuteOn a c = a := by simp [lotteryExecuteOn, he.pid c, hi]
    rw [e]
    exact he.skip h hc hi (hcol.clean c s.time (Nat.le_refl _))
  · obtain ⟨i, hci⟩ := h.resolves c hi
    rw [lotteryExecuteOn_busy h he hci]
    exact he.busy h hc hci _

theorem lottery_sound (rand : Nat → Nat) : Sound (lotteryFinish (n := n) (m := m)) lotteryExecute [lotteryAssign rand] where
  first := fun _ h => finish_spec findLast_finds lotteryRecord_same keepCpu_ok h
  mids := fun f hf s h ha => by
    rw [List.mem_singleton] at hf
    subst hf
    exact ⟨assign_coherent (lotteryPick_ready rand) lotteryCharge_same h ha, assign_quiet lotteryCharge_same s⟩
  act := fun _ h hcol => lotteryExecute_spec h hcol

end Sim
end OsLab
