import Mathlib.Data.Fintype.Card
import OsLab.Schedulers

/-!
# Global EDF

After STEP 3 of `run_edf` no waiting process has an earlier deadline than a running
one. STEP 2 frees one CPU for every arrival that could overtake a running process;
STEP 3 fills these CPUs with the earliest deadlines.
-/

namespace OsLab
namespace Sim
variable {n m : Nat}

/-- No process that arrived before the current tick and waits has an earlier
deadline than a running one. -/
def Settled (s : Sim n m) : Prop := ∀ r w, s.isRunning r = true → (s.processes w).arrivalTime < s.time →
  0 < (s.processes w).remainingTime → s.isRunning w = false → (s.processes r).deadline ≤ (s.processes w).deadline

/-! ## STEP 1 -/

structure Finished (s s' : Sim n m) : Prop where
  coherent : Coherent s'
  core : ∀ i, core (s'.processes i) = core (s.processes i)
  time : s'.time = s.time
  sub : ∀ i, s'.isRunning i = true → s.isRunning i = true
  kept : ∀ i, 0 < (s.processes i).remainingTime → s.isRunning i = true → s'.isRunning i = true

theorem edfFinish_finished {s : Sim n m} (h : Coherent s) : Finished s (edfFinish s) := by
  apply foldl_keeps (P := Finished s) _ _ ⟨h, fun _ => rfl, rfl, fun _ h => h, fun _ _ h => h⟩
  intro a c _ ha
  have R := finishOn_released findFirst_finds edfRecord_same keepCpu_ok ha.coherent c
  rcases @finishOn_cases n m findFirst edfRecord keepCpu findFirst_finds a ha.coherent c with
    ⟨_, e⟩ | ⟨i, hi, ⟨h0, e⟩ | ⟨_, e⟩⟩
  · rw [e]; exact ha
  · refine ⟨R.coherent, fun j => (R.core j).trans (ha.core j), R.time.trans ha.time, fun j hj => ?_, fun j hr hj => ?_⟩
    · rw [e] at hj
      simp only [Sim.free, (edfRecord_same a i).isRunning] at hj
      by_cases hji : j = i
      · subst hji; simp at hj
      · rw [Function.update_of_ne hji] at hj; exact ha.sub j hj
    · have hji : j ≠ i := by
        intro e'
        rw [core_remaining (ha.core i)] at h0
        rw [e'] at hr
        omega
      rw [e]
      simp only [Sim.free, (edfRecord_same a i).isRunning, Function.update_of_ne hji]
      exact ha.kept j hr hj
  · rw [e]; exact ha

theorem Finished.settled {s s' : Sim n m} (f : Finished s s') (h : Settled s) : Settled s' := by
  intro r w hr ha hrem hw
  rw [core_arrival (f.core w), f.time] at ha
  rw [core_remaining (f.core w)] at hrem
  rw [core_deadline (f.core r), core_deadline (f.core w)]
  apply h r w (f.sub r hr) ha hrem
  cases hb : s.isRunning w with
  | false => rfl
  | true => rw [f.kept w hrem hb] at hw; cases hw

/-! ## STEP 2 -/

def overtaking (s : Sim n m) (l : List (Fin n)) : Finset (Fin n) :=
  Finset.univ.filter fun i => i ∈ l ∧ (s.processes i).arrivalTime = s.time ∧ 0 < (s.processes i).remainingTime ∧
    s.isRunning i = false ∧ ∃ r, s.isRunning r = true ∧ (s.processes i).deadline < (s.processes r).deadline

def idleCpus (s : Sim n m) : Finset (Fin m) := Finset.univ.filter fun c => (s.cpus c).currentPid = -1

theorem mem_overtaking {s : Sim n m} {l : List (Fin n)} {i : Fin n} : i ∈ s.overtaking l ↔
    i ∈ l ∧ (s.processes i).arrivalTime = s.time ∧ 0 < (s.processes i).remainingTime ∧
      s.isRunning i = false ∧ ∃ r, s.isRunning r = true ∧ (s.processes i).deadline < (s.processes r).deadline := by
  simp [overtaking]

theorem mem_idleCpus {s : Sim n m} {c : Fin m} : c ∈ s.idleCpus ↔ (s.cpus c).currentPid = -1 := by
  simp [idleCpus]

theorem idleCpus_free {s : Sim n m} (h : Coherent s) {c : Fin m} {k : Fin n}
    (hk : (s.cpus c).currentPid = (s.processes k).pid) : (s.free c k).idleCpus = insert c s.idleCpus ∧
      c ∉ s.idleCpus := by
  constructor
  · ext c'
    rw [Finset.mem_insert, mem_idleCpus, mem_idleCpus]
    simp only [Sim.free, setCpu]
    by_cases hc : c' = c
    · subst hc; simp
    · simp [hc]
  · rw [mem_idleCpus, hk]
    exact h.pid_ne k

structure PreemptedOn (s a : Sim n m) (l : List (Fin n)) : Prop where
  coherent : Coherent a
  alive : Alive a
  processes : a.processes = s.processes
  time : a.time = s.time
  sub : ∀ i, a.isRunning i = true → s.isRunning i = true
  settled : Settled a
  count : (a.overtaking l).card ≤ a.idleCpus.card

theorem PreemptedOn.step {s a : Sim n m} {l : List (Fin n)} (hd : ∀ i, 0 ≤ (s.processes i).deadline)
    (hold : ∀ i, s.isRunning i = true → (s.processes i).arrivalTime < s.time) (p : PreemptedOn s a l) (i : Fin n) :
    PreemptedOn s (edfPreemptOn a i) (l ++ [i]) := by
  have hbusy : ∀ r, a.isRunning r = true → ∃ c, (a.cpus c).currentPid = (a.processes r).pid ∧
      -1 < (a.processes r).deadline := by
    intro r hr
    obtain ⟨c, hc⟩ := (p.coherent.running r).mp hr
    have := hd r
    exact ⟨c, hc, by rw [p.processes]; omega⟩
  obtain ⟨⟨hco, hal⟩, ht, _⟩ := edfPreemptOn_coherent p.coherent p.alive i
  rcases edfPreemptOn_cases p.coherent i with ⟨e, hle⟩ | ⟨c, k, harr, hk, hlt, hworst, e⟩
  · rw [e]
    refine ⟨p.coherent, p.alive, p.processes, p.time, p.sub, p.settled, le_trans (Finset.card_le_card ?_) p.count⟩
    -- `i` does not overtake anyone
    intro j hj
    rw [mem_overtaking, List.mem_append, List.mem_singleton] at hj
    rw [mem_overtaking]
    obtain ⟨hjl | rfl, h1, h2, h3, r, hr, hlt⟩ := hj
    · exact ⟨hjl, h1, h2, h3, r, hr, hlt⟩
    · obtain ⟨c, hc, hpos⟩ := hbusy r hr
      have := hle ⟨h1, h2, h3⟩ c r hc hpos
      omega
  · have hrunk : a.isRunning k = true := (p.coherent.running k).mpr ⟨c, hk⟩
    have hsub : ∀ j, (a.free c k).isRunning j = true → a.isRunning j = true ∧ j ≠ k := by
      intro j hj
      simp only [Sim.free] at hj
      by_cases hjk : j = k
      · subst hjk; simp at hj
      · rw [Function.update_of_ne hjk] at hj; exact ⟨hj, hjk⟩
    have hoff : ∀ j, (a.free c k).isRunning j = false → j ≠ k → a.isRunning j = false := by
      intro j hj hjk
      simp only [Sim.free, Function.update_of_ne hjk] at hj
      exact hj
    rw [e] at hco hal ht ⊢
    refine ⟨hco, hal, p.processes, ht.trans p.time, fun j hj => p.sub j (hsub j hj).1, ?_, ?_⟩
    · intro r w hr ha hrem hw
      have hra := (hsub r hr).1
      by_cases hwk : w = k
      · obtain ⟨c', hc', hpos⟩ := hbusy r hra
        rw [hwk]
        exact hworst c' r hc' hpos
      · exact p.settled r w hra ha hrem (hoff w hw hwk)
    · obtain ⟨hidle, hnot⟩ := idleCpus_free p.coherent hk
      rw [hidle, Finset.card_insert_of_notMem hnot]
      have hle : (a.free c k).overtaking (l ++ [i]) ⊆ insert i (a.overtaking l) := by
        intro j hj
        rw [mem_overtaking, List.mem_append, List.mem_singleton] at hj
        rw [Finset.mem_insert, mem_overtaking]
        obtain ⟨hjl | rfl, h1, h2, h3, r, hr, hlt⟩ := hj
        · refine Or.inr ⟨hjl, h1, h2, hoff j h3 ?_, r, (hsub r hr).1, hlt⟩
          -- the victim arrived before this tick
          intro hjk
          have h4 := hold k (p.sub k hrunk)
          have h1 : (a.processes j).arrivalTime = a.time := h1
          rw [hjk, p.processes, p.time] at h1
          omega
        · exact Or.inl rfl
      have h1 := Finset.card_le_card hle
      have h2 := Finset.card_insert_le i (a.overtaking l)
      have h3 := p.count
      omega

theorem edfPreempt_preempted {s : Sim n m} (h : Coherent s) (ha : Alive s) (hd : ∀ i, 0 ≤ (s.processes i).deadline)
    (hold : ∀ i, s.isRunning i = true → (s.processes i).arrivalTime < s.time) (hs : Settled s) :
    PreemptedOn s (edfPreempt s) (List.finRange n) := by
  refine foldl_range (P := fun l a => PreemptedOn s a l) _ ⟨h, ha, rfl, rfl, fun _ h => h, hs, ?_⟩
    fun l i a _ p => p.step hd hold i
  have : s.overtaking [] = ∅ := by
    ext i
    simp [mem_overtaking]
  rw [this]
  exact Nat.zero_le _

/-! ## STEP 3 -/

def chosen (s a : Sim n m) : Finset (Fin n) :=
  Finset.univ.filter fun i => a.isRunning i = true ∧ s.isRunning i = false

theorem mem_chosen {s a : Sim n m} {i : Fin n} : i ∈ chosen s a ↔ a.isRunning i = true ∧ s.isRunning i = false := by
  simp [chosen]

/-- The assertion of the loop of STEP 3, entered in state `s`: a dispatched
process has an earlier deadline than all that are still ready, and while there
are ready processes every idle CPU that was visited got one. -/
structure AssignedOn (s a : Sim n m) (l : List (Fin m)) : Prop where
  processes : a.processes = s.processes
  time : a.time = s.time
  others : ∀ c, c ∉ l → a.cpus c = s.cpus c
  sub : ∀ i, s.isRunning i = true → a.isRunning i = true
  least : ∀ r ∈ chosen s a, s.ready r = true ∧ ∀ w, a.ready w = true → (s.processes r).deadline ≤ (s.processes w).deadline
  count : (∃ w, a.ready w = true) → (s.idleCpus.filter (· ∈ l)).card ≤ (chosen s a).card

section
variable {s a : Sim n m} {l : List (Fin m)} {c : Fin m} {i : Fin n} {t : Int}

theorem AssignedOn.ready (p : AssignedOn s a l) (hi : a.ready i = true) : s.ready i = true := by
  rw [ready_iff] at hi ⊢
  rw [p.processes, p.time] at hi
  refine ⟨hi.1, hi.2.1, ?_⟩
  cases hb : s.isRunning i with
  | false => rfl
  | true => rw [p.sub i hb] at hi; exact hi.2.2

theorem AssignedOn.others_concat (p : AssignedOn s a l) (c' : Fin m) (hc' : c' ∉ l ++ [c]) :
    a.cpus c' = s.cpus c' :=
  p.others c' fun h => hc' (List.mem_append_left _ h)

theorem AssignedOn.busy (p : AssignedOn s a l) (hc : c ∉ l) (hb : (a.cpus c).currentPid ≠ -1) :
    AssignedOn s a (l ++ [c]) := by
  refine ⟨p.processes, p.time, p.others_concat, p.sub, p.least, fun hw => ?_⟩
  have : s.idleCpus.filter (· ∈ l ++ [c]) = s.idleCpus.filter (· ∈ l) := by
    ext c'
    simp only [Finset.mem_filter, mem_idleCpus, List.mem_append, List.mem_singleton]
    refine and_congr_right fun h1 => or_iff_left ?_
    rintro rfl
    exact hb (p.others c' hc ▸ h1)
  rw [this]
  exact p.count hw

-- when no ready process is left, there is nothing to count
theorem AssignedOn.none_ready (p : AssignedOn s a l) (hno : ∀ w, a.ready w ≠ true) : AssignedOn s a (l ++ [c]) := by
  refine ⟨p.processes, p.time, p.others_concat, p.sub, p.least, ?_⟩
  rintro ⟨w, hw⟩
  exact absurd hw (hno w)

theorem ready_of_dispatch {w : Fin n} (hi : a.isRunning i = false) (hw : (a.dispatch c i t).ready w = true) :
    a.ready w = true := by
  rw [ready_iff] at hw ⊢
  refine ⟨hw.1, hw.2.1, ?_⟩
  have := hw.2.2
  simp only [dispatch] at this
  by_cases hwi : w = i
  · rw [hwi]; exact hi
  · rw [Function.update_of_ne hwi] at this; exact this

theorem chosen_dispatch (hi : s.isRunning i = false) :
    chosen s (a.dispatch c i t) = insert i (chosen s a) := by
  ext j
  rw [Finset.mem_insert, mem_chosen, mem_chosen]
  simp only [dispatch]
  by_cases hj : j = i
  · subst hj; simp [hi]
  · simp [hj]

theorem AssignedOn.dispatch (p : AssignedOn s a l) (hi : a.ready i = true)
    (hleast : ∀ w, a.ready w = true → (s.processes i).deadline ≤ (s.processes w).deadline) :
    AssignedOn s (a.dispatch c i t) (l ++ [c]) := by
  have hir := (ready_iff.mp hi).2.2
  have hch := chosen_dispatch (a := a) (c := c) (t := t) (ready_iff.mp (p.ready hi)).2.2
  have hnot : i ∉ chosen s a := by
    rw [mem_chosen, hir]
    simp
  refine ⟨p.processes, p.time, fun c' hc' => ?_, fun j hj => ?_, fun r hr => ?_, ?_⟩
  · have hne : c' ≠ c := by
      rintro rfl
      exact hc' (List.mem_append_right _ (List.mem_singleton_self c'))
    simp only [Sim.dispatch, setCpu, Function.update_of_ne hne]
    exact p.others_concat c' hc'
  · simp only [Sim.dispatch]
    by_cases hji : j = i
    · subst hji; simp
    · rw [Function.update_of_ne hji]; exact p.sub j hj
  · rw [hch, Finset.mem_insert] at hr
    rcases hr with rfl | hr
    · exact ⟨p.ready hi, fun w hw => hleast w (ready_of_dispatch hir hw)⟩
    · obtain ⟨h1, h2⟩ := p.least r hr
      exact ⟨h1, fun w hw => h2 w (ready_of_dispatch hir hw)⟩
  · rintro ⟨w, hw⟩
    rw [hch, Finset.card_insert_of_notMem hnot]
    have h1 : s.idleCpus.filter (· ∈ l ++ [c]) ⊆ insert c (s.idleCpus.filter (· ∈ l)) := by
      intro c' hc'
      simp only [Finset.mem_filter, List.mem_append, List.mem_singleton, Finset.mem_insert] at hc' ⊢
      rcases hc'.2 with h | h
      · exact Or.inr ⟨hc'.1, h⟩
      · exact Or.inl h
    have h2 := Finset.card_le_card h1
    have h3 := Finset.card_insert_le c (s.idleCpus.filter (· ∈ l))
    have h4 := p.count ⟨w, ready_of_dispatch hir hw⟩
    omega

theorem AssignedOn.step (hd : ∀ i, (s.processes i).deadline < 999999) (p : AssignedOn s a l) (hc : c ∉ l) :
    AssignedOn s (assignOn edfPick id (fun q _ => q.timeLeftOnCore) a c) (l ++ [c]) := by
  rcases @assignOn_cases n m edfPick id (fun q _ => q.timeLeftOnCore) a c with
    ⟨hb, e⟩ | ⟨_, hn, e⟩ | ⟨i, hidle, hi, e⟩
  · rw [e]
    exact p.busy hc hb
  · rw [e]
    refine p.none_ready fun w hw => ?_
    have h1 := edfPick_none a hn w hw
    have h2 := hd w
    rw [p.processes] at h1
    omega
  · rw [e]
    refine p.dispatch (edfPick_ready a i hi) fun w hw => ?_
    have := edfPick_least a hi w hw (by rw [p.processes]; exact hd w)
    rwa [p.processes] at this

end

theorem edfAssign_assigned (s : Sim n m) (hd : ∀ i, (s.processes i).deadline < 999999) :
    AssignedOn s (edfAssign s) (List.finRange m) := by
  have hnil : chosen s s = ∅ := by
    ext i
    rw [mem_chosen]
    cases s.isRunning i <;> simp
  refine foldl_range (P := fun l a => AssignedOn s a l) _
    ⟨rfl, rfl, fun _ _ => rfl, fun _ h => h, by rw [hnil]; simp, fun _ => by simp⟩ ?_
  intro l c a hl p
  exact p.step hd (not_mem_visited (List.nodup_finRange m) hl)

/-! ## One tick -/

def Ordered (s : Sim n m) : Prop := ∀ r w, s.isRunning r = true → s.ready w = true →
  (s.processes r).deadline ≤ (s.processes w).deadline

/-- STEP 3 after STEP 2. An arrival that could overtake a running process would
come on top of the dispatched ones, which are as many as the idle CPUs. -/
theorem AssignedOn.ordered {s₁ s a : Sim n m} (p : PreemptedOn s₁ s (List.finRange n))
    (q : AssignedOn s a (List.finRange m)) : Ordered a := by
  intro r w hr hw
  rw [q.processes]
  obtain ⟨hwa, hwr, hwo⟩ := ready_iff.mp hw
  rw [q.processes, q.time] at hwa
  rw [q.processes] at hwr
  by_cases hrs : s.isRunning r = true
  swap
  · exact (q.least r (mem_chosen.mpr ⟨hr, by simpa using hrs⟩)).2 w hw
  have hws : s.isRunning w = false := by
    cases hb : s.isRunning w with
    | false => rfl
    | true => rw [q.sub w hb] at hwo; cases hwo
  by_contra hlt
  rw [not_le] at hlt
  have harr : ∀ i, (s.processes i).arrivalTime ≤ s.time → 0 < (s.processes i).remainingTime → s.isRunning i = false →
      (s.processes i).deadline < (s.processes r).deadline → i ∈ s.overtaking (List.finRange n) := by
    intro i h1 h2 h3 h4
    refine mem_overtaking.mpr ⟨List.mem_finRange i, ?_, h2, h3, r, hrs, h4⟩
    by_contra hne
    have := p.settled r i hrs (by omega) h2 h3
    omega
  have hsub : insert w (chosen s a) ⊆ s.overtaking (List.finRange n) := by
    intro i hi
    rcases Finset.mem_insert.mp hi with rfl | hi
    · exact harr i hwa hwr hws hlt
    · obtain ⟨hrd, hleast⟩ := q.least i hi
      obtain ⟨h1, h2, h3⟩ := ready_iff.mp hrd
      have := hleast w hw
      exact harr i h1 h2 h3 (by omega)
  have hnot : w ∉ chosen s a := by
    rw [mem_chosen, hwo]
    simp
  have h1 := Finset.card_le_card hsub
  rw [Finset.card_insert_of_notMem hnot] at h1
  have h2 := p.count
  have h3 := q.count ⟨w, hw⟩
  rw [Finset.filter_true_of_mem fun c _ => List.mem_finRange c] at h3
  omega

structure EdfHead (s : Sim n m) : Prop where
  settled : Settled s
  old : ∀ i, s.isRunning i = true → (s.processes i).arrivalTime < s.time

section
variable {ps : Fin n → Process} (hw : Workload ps) (hd : ∀ i, 0 ≤ (ps i).deadline ∧ (ps i).deadline < 999999)
include hw hd

theorem edfTick_ordered {s : Sim n m} (h : At guard edfSteps (init ps) [] s) (hh : EdfHead s) :
    Ordered (edfAssign (edfPreempt (edfFinish s))) ∧ ∀ i, (edfAssign (edfPreempt (edfFinish s))).isRunning i = true →
      ((edfAssign (edfPreempt (edfFinish s))).processes i).arrivalTime ≤ (edfAssign (edfPreempt (edfFinish s))).time := by
  have hdl : ∀ i, (s.processes i).deadline = (ps i).deadline := fun i => static_deadline (edf_static h i)
  have hc := (edf_sound.head hw h).1
  have f := edfFinish_finished hc
  have hal := (edf_sound.first s hc).2.1
  have hdl₁ : ∀ i, ((edfFinish s).processes i).deadline = (ps i).deadline :=
    fun i => (core_deadline (f.core i)).trans (hdl i)
  have hold : ∀ i, (edfFinish s).isRunning i = true →
      ((edfFinish s).processes i).arrivalTime < (edfFinish s).time := by
    intro i hi
    rw [core_arrival (f.core i), f.time]
    exact hh.old i (f.sub i hi)
  have p := edfPreempt_preempted f.coherent hal (fun i => by rw [hdl₁]; exact (hd i).1) hold (f.settled hh.settled)
  have q := edfAssign_assigned (edfPreempt (edfFinish s)) fun i => by
    rw [p.processes, hdl₁]; exact (hd i).2
  refine ⟨q.ordered p, fun i hi => ?_⟩
  by_cases hi₂ : (edfPreempt (edfFinish s)).isRunning i = true
  · have := hold i (p.sub i hi₂)
    rw [q.processes, q.time, p.processes, p.time]
    omega
  · have := (q.least i (mem_chosen.mpr ⟨hi, by simpa using hi₂⟩)).1
    rw [q.processes, q.time]
    exact (ready_iff.mp this).1

theorem edf_head {s : Sim n m} (h : At guard edfSteps (init ps) [] s) : EdfHead s := by
  have start : EdfHead (init ps : Sim n m) := by
    constructor
    · intro r w hr; cases hr
    · intro i hi; cases hi
  apply At.iteration start _ h
  intro s hs hg hh
  obtain ⟨ho, hold⟩ := edfTick_ordered hw hd hs hh
  have hat : At guard edfSteps (init ps) [edfExecute, advance] (edfAssign (edfPreempt (edfFinish s))) :=
    (hs.enter hg).step.step.step
  have hb : body edfSteps s = advance (edfExecute (edfAssign (edfPreempt (edfFinish s)))) := rfl
  rw [hb]
  generalize edfAssign (edfPreempt (edfFinish s)) = a at ho hold hat ⊢
  obtain ⟨hc, _, hcol⟩ := edf_sound.beforeAct hw hat
  have he := edf_sound.act a hc hcol
  constructor
  · intro r w hr ha hrem hwo
    simp only [advance, he.isRunning, he.time, he.processes] at hr ha hrem hwo ⊢
    apply ho r w hr
    simp only [hwo, Bool.false_eq_true, if_false, Int.sub_zero] at hrem
    exact ready_iff.mpr ⟨by omega, hrem, hwo⟩
  · intro i hi
    simp only [advance, he.isRunning, he.time, he.processes] at hi ⊢
    have := hold i hi
    omega

theorem edf_ordered {s : Sim n m} (h : At guard edfSteps (init ps) [edfExecute, advance] s) :
    Ordered s ∧ ∀ i, s.isRunning i = true → (s.processes i).arrivalTime ≤ s.time := by
  obtain ⟨s₂, h₂, rfl⟩ := h.back (f := edfAssign) ⟨[edfFinish, edfPreempt], rfl⟩
  obtain ⟨s₁, h₁, rfl⟩ := h₂.back (f := edfPreempt) ⟨[edfFinish], rfl⟩
  obtain ⟨s₀, h₀, rfl⟩ := h₁.back (f := edfFinish) ⟨[], rfl⟩
  have hs := (h₀.entered rfl).1
  exact edfTick_ordered hw hd hs (edf_head hw hd hs)

/-- **Global EDF.** After STEP 3 of every tick, when a process that has arrived
and is unfinished is on no CPU, every CPU is busy and holds a process that has
arrived, is unfinished and has no later deadline. -/
theorem edf_global {s : Sim n m} (h : At guard edfSteps (init ps) [edfExecute, advance] s) (w : Fin n)
    (ha : (s.processes w).arrivalTime ≤ s.time) (hr : 0 < (s.processes w).remainingTime)
    (hoff : ∀ c, (s.cpus c).currentPid ≠ (s.processes w).pid) :
    (∀ c, (s.cpus c).currentPid ≠ -1) ∧ ∀ c r, (s.cpus c).currentPid = (s.processes r).pid →
      (s.processes r).arrivalTime ≤ s.time ∧ 0 < (s.processes r).remainingTime ∧
        (s.processes r).deadline ≤ (s.processes w).deadline := by
  have hwo : s.isRunning w = false := ((edf_sound.noDouble hw h).idle_iff w).mpr hoff
  obtain ⟨ho, hold⟩ := edf_ordered hw hd h
  refine ⟨fun c hc => ?_, fun c r hc => ?_⟩
  · obtain ⟨c', hc'⟩ := edf_conserving hw (fun i => (hd i).2) h ⟨c, hc⟩ w ha hr
    exact hoff c' hc'
  · obtain ⟨hco, hal, _⟩ := edf_sound.beforeAct hw h
    have hrun : s.isRunning r = true := (hco.running r).mpr ⟨c, hc⟩
    exact ⟨hold r hrun, hal r hrun, ho r w hrun (ready_iff.mpr ⟨ha, hr, hwo⟩)⟩

end

theorem edf_global_tick : ∃ s : Sim 2 1, At guard edfSteps (init (countedProcesses 2)) [edfExecute, advance] s ∧
    (s.cpus 0).currentPid = (s.processes 0).pid ∧ (∀ c, (s.cpus c).currentPid ≠ (s.processes 1).pid) ∧
    (s.processes 0).deadline ≤ (s.processes 1).deadline := by
  have h : At guard edfSteps (init (countedProcesses 2)) [edfExecute, advance]
      (edfAssign (edfPreempt (edfFinish (init (countedProcesses 2) : Sim 2 1)))) :=
    (At.start.enter (by decide)).step.step.step
  have hg := edf_global (initializeTestData_workload (by decide) _ _) (by decide) h 1
    (by decide) (by decide) (by decide)
  exact ⟨_, h, by decide, by decide, (hg.2 0 0 (by decide)).2.2⟩

end Sim
end OsLab
