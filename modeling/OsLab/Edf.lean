import OsLab.Scan
import OsLab.SchedSound

/-!
# Earliest deadline first

`run_edf` releases finished processes (STEP 1), lets every process that
arrives at the current tick take the CPU of the latest deadline away (STEP 2),
fills idle CPUs by earliest deadline (STEP 3) and executes (STEP 4).
-/

namespace OsLab
namespace Sim
variable {n m : Nat}

def edfRecord (s : Sim n m) (i : Fin n) : Sim n m :=
  let s := s.record i
  let p := s.processes i
  if p.completionTime > p.deadline then
    { s.setProcess i { p with deadlineMissed := 1 } with deadlineMisses := s.deadlineMisses + 1 }
  else s

def edfWorstScan (s : Sim n m) (worst : Option (Fin m) × Int) (c : Fin m) : Option (Fin m) × Int :=
  if (s.cpus c).currentPid ≠ -1 then
    match findFirst s.processes (s.cpus c).currentPid with
    | none => worst
    | some i => if (s.processes i).deadline > worst.2 then (some c, (s.processes i).deadline) else worst
  else worst

def edfWorst (s : Sim n m) : Option (Fin m) × Int := (List.finRange m).foldl (edfWorstScan s) (none, -1)

def edfPreemptOn (s : Sim n m) (i : Fin n) : Sim n m :=
  if (s.processes i).arrivalTime = s.time ∧ 0 < (s.processes i).remainingTime ∧ s.isRunning i = false then
    match s.edfWorst with
    | (none, _) => s
    | (some c, worstDeadline) =>
      if (s.processes i).deadline < worstDeadline then
        match findFirst s.processes (s.cpus c).currentPid with
        | none => s
        | some k => s.free c k
      else s
  else s

def edfScan (s : Sim n m) (best : Option (Fin n) × Int) (i : Fin n) : Option (Fin n) × Int :=
  if s.ready i then
    if (s.processes i).deadline < best.2 then (some i, (s.processes i).deadline) else best
  else best

def edfPick (s : Sim n m) : Option (Fin n) := ((List.finRange n).foldl (edfScan s) (none, 999999)).1

def edfFinish : Sim n m → Sim n m := finish findFirst edfRecord keepCpu

def edfPreempt (s : Sim n m) : Sim n m := (List.finRange n).foldl edfPreemptOn s

def edfAssign : Sim n m → Sim n m := assign edfPick id fun q _ => q.timeLeftOnCore

def edfExecute : Sim n m → Sim n m := execute findFirst 0

def edfSteps : List (Sim n m → Sim n m) := edfFinish :: ([edfPreempt, edfAssign] ++ [edfExecute, advance])

def runEdf (ps : Fin n → Process) : Sim n m := loop guard edfSteps maxTime (init ps)

theorem edfRecord_same (s : Sim n m) (i : Fin n) : SameCore s (s.edfRecord i) := by
  have h := record_same s i
  unfold edfRecord
  simp only
  split
  · refine ⟨fun j => ?_, h.cpus, h.isRunning, h.time, h.timeline, h.completed⟩
    have := core_update (s.record i).processes i { (s.record i).processes i with deadlineMissed := 1 } rfl j
    exact this.trans (h.core j)
  · exact h

/-! ## STEP 2 -/

def edfDeadlineOn (s : Sim n m) (c : Fin m) : Int :=
  match findFirst s.processes (s.cpus c).currentPid with
  | none => -1
  | some i => (s.processes i).deadline

def edfBusy (s : Sim n m) (c : Fin m) : Bool := decide ((s.cpus c).currentPid ≠ -1) && decide (-1 < s.edfDeadlineOn c)

theorem edfWorst_eq (s : Sim n m) :
    s.edfWorst.1 = (List.finRange m).foldl (scanMin s.edfBusy fun c => -s.edfDeadlineOn c) none := by
  refine scan_sentinel s.edfBusy (fun c => -s.edfDeadlineOn c) (-1) s.edfDeadlineOn s.edfWorstScan ?_ ?_ _
  · intro c
    unfold edfWorstScan edfBusy edfDeadlineOn
    by_cases hc : (s.cpus c).currentPid = -1
    · simp [hc]
    · cases hf : findFirst s.processes (s.cpus c).currentPid with
      | none => simp
      | some i => simp [hc]
  · intro b hb c
    simp only [edfBusy, Bool.and_eq_true, decide_eq_true_eq] at hb
    by_cases hc : (s.cpus c).currentPid = -1
    · simp [edfWorstScan, edfBusy, hc]
    · cases hf : findFirst s.processes (s.cpus c).currentPid with
      | none => simp [edfWorstScan, edfBusy, edfDeadlineOn, hc, hf]
      | some i =>
        have he : s.edfDeadlineOn c = (s.processes i).deadline := by simp [edfDeadlineOn, hf]
        by_cases hlt : s.edfDeadlineOn b < (s.processes i).deadline
        · simp [edfWorstScan, edfBusy, hc, hf, he, hlt, show -1 < (s.processes i).deadline by omega]
        · simp [edfWorstScan, edfBusy, hc, hf, he, hlt]

theorem edfWorst_snd (s : Sim n m) {c : Fin m} (h : s.edfWorst.1 = some c) : s.edfWorst.2 = s.edfDeadlineOn c := by
  revert c
  refine foldl_keeps (P := fun w : Option (Fin m) × Int => ∀ {c}, w.1 = some c → w.2 = s.edfDeadlineOn c)
    (f := s.edfWorstScan) (b := (none, -1)) _ ?_ (fun h => by cases h)
  intro w a _ ih c hc
  unfold edfWorstScan at hc ⊢
  by_cases ha : (s.cpus a).currentPid = -1
  · simp only [ha, ne_eq, not_true_eq_false, if_false] at hc ⊢
    exact ih hc
  · simp only [ha, ne_eq, not_false_eq_true, if_true] at hc ⊢
    cases hf : findFirst s.processes (s.cpus a).currentPid with
    | none => rw [hf] at hc; exact ih hc
    | some i =>
      rw [hf] at hc
      simp only at hc ⊢
      split at hc
      · rename_i hlt
        rw [if_pos hlt]
        cases hc
        simp [edfDeadlineOn, hf]
      · rename_i hlt
        rw [if_neg hlt]
        exact ih hc

theorem edfDeadlineOn_eq {s : Sim n m} (h : Coherent s) {c : Fin m} {i : Fin n}
    (hc : (s.cpus c).currentPid = (s.processes i).pid) : s.edfDeadlineOn c = (s.processes i).deadline := by
  unfold edfDeadlineOn
  rw [hc, findFirst_finds _ h.pid_inj i]

def Arriving (s : Sim n m) (i : Fin n) : Prop :=
  (s.processes i).arrivalTime = s.time ∧ 0 < (s.processes i).remainingTime ∧ s.isRunning i = false

/-- What STEP 2 does for one process: nothing, if no running process has a later
deadline; otherwise it frees the CPU of the latest deadline. -/
theorem edfPreemptOn_cases {s : Sim n m} (h : Coherent s) (i : Fin n) :
    (edfPreemptOn s i = s ∧ (Arriving s i → ∀ c r, (s.cpus c).currentPid = (s.processes r).pid →
      -1 < (s.processes r).deadline → (s.processes r).deadline ≤ (s.processes i).deadline)) ∨
    ∃ c k, Arriving s i ∧ (s.cpus c).currentPid = (s.processes k).pid ∧
      (s.processes i).deadline < (s.processes k).deadline ∧
      (∀ c' r, (s.cpus c').currentPid = (s.processes r).pid → -1 < (s.processes r).deadline →
        (s.processes r).deadline ≤ (s.processes k).deadline) ∧ edfPreemptOn s i = s.free c k := by
  by_cases ha : Arriving s i
  swap
  · exact Or.inl ⟨if_neg ha, fun h => absurd h ha⟩
  have spec := scanMin_spec s.edfBusy (fun c => -s.edfDeadlineOn c) (List.finRange m)
  rw [← edfWorst_eq] at spec
  have hbusy : ∀ c r, (s.cpus c).currentPid = (s.processes r).pid → -1 < (s.processes r).deadline →
      s.edfBusy c = true := by
    intro c r hc hr
    have := h.pid_ne r
    simp [edfBusy, edfDeadlineOn_eq h hc, hr, hc, this]
  have e : edfPreemptOn s i = match s.edfWorst with
      | (none, _) => s
      | (some c, worstDeadline) => if (s.processes i).deadline < worstDeadline then
          match findFirst s.processes (s.cpus c).currentPid with
          | none => s
          | some k => s.free c k
        else s := if_pos ha
  have hsnd := @edfWorst_snd _ _ s
  rw [e]
  generalize s.edfWorst = wd at spec hsnd ⊢
  obtain ⟨w, d⟩ := wd
  cases w with
  | none =>
    refine Or.inl ⟨rfl, fun _ c r hc hr => ?_⟩
    have := spec.1 rfl c (List.mem_finRange c)
    rw [hbusy c r hc hr] at this; cases this
  | some c =>
    obtain ⟨_, hcb, hleast⟩ := spec.2 c rfl
    simp only [edfBusy, Bool.and_eq_true, decide_eq_true_eq] at hcb
    obtain ⟨k, hk⟩ := h.resolves c hcb.1
    have hd : d = (s.processes k).deadline := (hsnd rfl).trans (edfDeadlineOn_eq h hk)
    have hworst : ∀ c' r, (s.cpus c').currentPid = (s.processes r).pid → -1 < (s.processes r).deadline →
        (s.processes r).deadline ≤ (s.processes k).deadline := by
      intro c' r hc' hr
      have := hleast c' (List.mem_finRange c') (hbusy c' r hc' hr)
      rw [edfDeadlineOn_eq h hk, edfDeadlineOn_eq h hc'] at this
      omega
    simp only
    by_cases hlt : (s.processes i).deadline < d
    · refine Or.inr ⟨c, k, ha, hk, hd ▸ hlt, hworst, ?_⟩
      rw [if_pos hlt, hk, findFirst_finds _ h.pid_inj k]
    · refine Or.inl ⟨if_neg hlt, fun _ c' r hc' hr => ?_⟩
      have := hworst c' r hc' hr
      omega

theorem edfPreemptOn_coherent {s : Sim n m} (h : Coherent s) (ha : Alive s) (i : Fin n) :
    (Coherent (edfPreemptOn s i) ∧ Alive (edfPreemptOn s i)) ∧ (edfPreemptOn s i).time = s.time ∧
      (edfPreemptOn s i).timeline = s.timeline := by
  rcases edfPreemptOn_cases h i with ⟨e, _⟩ | ⟨c, k, _, hk, _, _, e⟩
  · rw [e]; exact ⟨⟨h, ha⟩, rfl, rfl⟩
  · rw [e]
    refine ⟨⟨h.free hk, fun j hj => ?_⟩, rfl, rfl⟩
    simp only [Sim.free, setCpu] at hj ⊢
    by_cases hjk : j = k
    · subst hjk; simp at hj
    · rw [Function.update_of_ne hjk] at hj; exact ha j hj

theorem edfPreempt_coherent {s : Sim n m} (h : Coherent s) (ha : Alive s) :
    (Coherent (edfPreempt s) ∧ Alive (edfPreempt s)) ∧ (edfPreempt s).time = s.time ∧
      (edfPreempt s).timeline = s.timeline :=
  foldl_keeps (P := fun a : Sim n m => (Coherent a ∧ Alive a) ∧ a.time = s.time ∧ a.timeline = s.timeline) _
    (fun a i _ hi => by
      obtain ⟨h1, ht, htl⟩ := edfPreemptOn_coherent hi.1.1 hi.1.2 i
      exact ⟨h1, ht.trans hi.2.1, htl.trans hi.2.2⟩) ⟨⟨h, ha⟩, rfl, rfl⟩

/-! ## STEP 3 -/

def edfCand (s : Sim n m) (i : Fin n) : Bool := s.ready i && decide ((s.processes i).deadline < 999999)

theorem edfPick_eq (s : Sim n m) :
    edfPick s = (List.finRange n).foldl (scanMin (edfCand s) fun i => (s.processes i).deadline) none := by
  refine scan_sentinel (edfCand s) (fun i => (s.processes i).deadline) 999999
    (fun i => (s.processes i).deadline) (edfScan s) ?_ ?_ _
  · intro i
    unfold edfScan edfCand
    by_cases hi : s.ready i = true <;> by_cases h9 : (s.processes i).deadline < 999999 <;> simp [hi, h9]
  · intro b hb i
    simp only [edfCand, Bool.and_eq_true, decide_eq_true_eq] at hb
    unfold edfScan
    simp only [edfCand, Bool.and_eq_true, decide_eq_true_eq]
    by_cases hi : s.ready i = true
    · by_cases hlt : (s.processes i).deadline < (s.processes b).deadline
      · simp [hi, hlt, show (s.processes i).deadline < 999999 by omega]
      · simp [hi, hlt]
    · simp [hi]

theorem edfPick_ready (s : Sim n m) (i : Fin n) (h : edfPick s = some i) : s.ready i = true := by
  rw [edfPick_eq] at h
  have := ((scanMin_spec _ _ _).2 i h).2.1
  simp only [edfCand, Bool.and_eq_true] at this
  exact this.1

theorem edfPick_none (s : Sim n m) (h : edfPick s = none) (i : Fin n) (hi : s.ready i = true) :
    999999 ≤ (s.processes i).deadline := by
  rw [edfPick_eq] at h
  have := (scanMin_spec _ _ _).1 h i (List.mem_finRange i)
  simpa [edfCand, hi] using this

theorem edfPick_least (s : Sim n m) {i : Fin n} (h : edfPick s = some i) (j : Fin n) (hj : s.ready j = true)
    (hd : (s.processes j).deadline < 999999) : (s.processes i).deadline ≤ (s.processes j).deadline := by
  rw [edfPick_eq] at h
  exact ((scanMin_spec _ _ _).2 i h).2.2 j (List.mem_finRange j) (by simp [edfCand, hj, hd])

theorem edf_sound : Sound (edfFinish (n := n) (m := m)) edfExecute [edfPreempt, edfAssign] where
  first := fun _ h => finish_spec findFirst_finds edfRecord_same keepCpu_ok h
  mids := fun f hf s h ha => by
    simp only [List.mem_cons, List.not_mem_nil, or_false] at hf
    rcases hf with rfl | rfl
    · exact edfPreempt_coherent h ha
    · exact ⟨assign_coherent edfPick_ready SameCore.refl h ha, assign_quiet SameCore.refl s⟩
  act := fun _ h _ => execute_spec findFirst_finds 0 h

end Sim
end OsLab
