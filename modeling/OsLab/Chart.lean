import OsLab.Greedy
import OsLab.Schedulers

/-!
# Gantt charts

Read as the set of processes shown at each tick, the chart of a scheduler is a greedy
schedule, and the remaining times are what it has not shown yet. One tick is described
by the processes that run in it; from then on the five schedulers are treated alike.
-/

namespace OsLab
namespace Sim
variable {n m : Nat}

def release (ps : Fin n → Process) (i : Fin n) : Nat := (ps i).arrivalTime.toNat
def due (ps : Fin n → Process) (i : Fin n) : Nat := (ps i).deadline.toNat
def demand (ps : Fin n → Process) (i : Fin n) : Nat := (ps i).burstTime.toNat

def gantt (ps : Fin n → Process) (timeline : Fin m → Nat → Int) (u : Nat) : Finset (Fin n) :=
  Finset.univ.filter fun i => ∃ c, timeline c u = (ps i).pid

theorem mem_gantt {ps : Fin n → Process} {timeline : Fin m → Nat → Int} {u : Nat} {i : Fin n} :
    i ∈ gantt ps timeline u ↔ ∃ c, timeline c u = (ps i).pid := by
  simp [gantt]

structure Gantt (ps : Fin n → Process) (time : Nat) (timeline : Fin m → Nat → Int) (processes : Fin n → Process) :
    Prop where
  clean : ∀ c t, time ≤ t → timeline c t = 0
  shown : ∀ c t, timeline c t ≠ 0 → ∃ i, timeline c t = (ps i).pid
  once : ∀ t c c', timeline c t = timeline c' t → timeline c t ≠ 0 → c = c'
  greedy : Greedy (release ps) (demand ps) m (gantt ps timeline) time
  same : ∀ i, static (processes i) = static (ps i)
  work : ∀ i, (processes i).remainingTime + executed (gantt ps timeline) i time = (ps i).burstTime

section
variable {ps : Fin n → Process} {timeline : Fin m → Nat → Int} {processes : Fin n → Process} {time : Nat}

theorem gantt_init (hw : Workload ps) : Gantt ps 0 (fun (_ : Fin m) _ => 0) ps where
  clean := fun _ _ _ => rfl
  shown := fun _ _ h => absurd rfl h
  once := fun _ _ _ _ h => absurd rfl h
  greedy := ⟨fun _ h => absurd h (Nat.not_lt_zero _), fun _ h => absurd h (Nat.not_lt_zero _),
    fun _ h => absurd h (Nat.not_lt_zero _)⟩
  same := fun _ => rfl
  work := fun i => by
    rw [executed_zero, hw.fresh i]
    simp

/-! ## The width of a column -/

theorem gantt_card_le (hw : Workload ps) (u : Nat) : (gantt ps timeline u).card ≤ m := by
  have hsub : (gantt ps timeline u).image (fun i => (ps i).pid) ⊆ Finset.univ.image fun c => timeline c u := by
    intro v hv
    obtain ⟨i, hi, rfl⟩ := Finset.mem_image.mp hv
    obtain ⟨c, hc⟩ := mem_gantt.mp hi
    exact Finset.mem_image.mpr ⟨c, Finset.mem_univ c, hc⟩
  calc (gantt ps timeline u).card = ((gantt ps timeline u).image fun i => (ps i).pid).card :=
        (Finset.card_image_of_injective _ hw.pid_inj).symm
    _ ≤ (Finset.univ.image fun c => timeline c u).card := Finset.card_le_card hsub
    _ ≤ (Finset.univ : Finset (Fin m)).card := Finset.card_image_le
    _ = m := Finset.card_fin m

theorem idle_of_card_lt {u : Nat} (hshown : ∀ c, timeline c u ≠ 0 → ∃ i, timeline c u = (ps i).pid)
    (honce : ∀ c c', timeline c u = timeline c' u → timeline c u ≠ 0 → c = c')
    (hlt : (gantt ps timeline u).card < m) : ∃ c, timeline c u = 0 := by
  classical
  by_contra hno
  have hbusy : ∀ c, timeline c u ≠ 0 := fun c h0 => hno ⟨c, h0⟩
  choose g hg using fun c => hshown c (hbusy c)
  have hinj : Function.Injective g := by
    intro c c' hcc
    apply honce c c' _ (hbusy c)
    rw [hg c, hg c', hcc]
  have := Finset.card_le_card_of_injOn (s := Finset.univ) g
    (fun c _ => Finset.mem_coe.mpr (mem_gantt.mpr ⟨c, hg c⟩)) hinj.injOn
  rw [Finset.card_univ, Fintype.card_fin] at this
  omega

/-! ## One tick -/

structure Ticked (ps : Fin n → Process) (time : Nat) (run : Fin n → Bool) (timeline timeline' : Fin m → Nat → Int)
    (processes processes' : Fin n → Process) : Prop where
  column : ∀ c, timeline' c time ≠ 0 → ∃ i, run i = true ∧ timeline' c time = (ps i).pid
  placed : ∀ i, run i = true → ∃ c, timeline' c time = (ps i).pid
  once : ∀ c c', timeline' c time = timeline' c' time → timeline' c time ≠ 0 → c = c'
  past : ∀ c t, t ≠ time → timeline' c t = timeline c t
  pending : ∀ i, run i = true → (ps i).arrivalTime ≤ time ∧ 0 < (processes i).remainingTime
  conserving : (∃ c, timeline' c time = 0) → ∀ i, (ps i).arrivalTime ≤ time → 0 < (processes i).remainingTime →
    run i = true
  same : ∀ i, static (processes' i) = static (processes i)
  remaining : ∀ i, (processes' i).remainingTime = (processes i).remainingTime - if run i then 1 else 0

variable {timeline' : Fin m → Nat → Int} {processes' : Fin n → Process} {run : Fin n → Bool}

theorem Ticked.gantt_now (t : Ticked ps time run timeline timeline' processes processes') (hw : Workload ps) (i : Fin n) :
    i ∈ gantt ps timeline' time ↔ run i = true := by
  rw [mem_gantt]
  refine ⟨fun ⟨c, hc⟩ => ?_, t.placed i⟩
  have hpos := hw.pid_pos i
  obtain ⟨j, hj, e⟩ := t.column c (by omega)
  have : i = j := hw.pid_inj (hc.symm.trans e)
  rw [this]
  exact hj

theorem Ticked.gantt_past (t : Ticked ps time run timeline timeline' processes processes') {u : Nat} (hu : u ≠ time) :
    gantt ps timeline' u = gantt ps timeline u := by
  ext i
  rw [mem_gantt, mem_gantt]
  simp only [t.past _ u hu]

theorem Gantt.tick (hw : Workload ps) (h : Gantt ps time timeline processes)
    (t : Ticked ps time run timeline timeline' processes processes') : Gantt ps (time + 1) timeline' processes' := by
  have hshown : ∀ c u, timeline' c u ≠ 0 → ∃ i, timeline' c u = (ps i).pid := by
    intro c u hu
    by_cases hut : u = time
    · subst hut
      obtain ⟨i, _, hi⟩ := t.column c hu
      exact ⟨i, hi⟩
    · rw [t.past c u hut] at hu ⊢
      exact h.shown c u hu
  have honce : ∀ u c c', timeline' c u = timeline' c' u → timeline' c u ≠ 0 → c = c' := by
    intro u c c' he hne
    by_cases hut : u = time
    · subst hut; exact t.once c c' he hne
    · rw [t.past c u hut] at he hne
      rw [t.past c' u hut] at he
      exact h.once u c c' he hne
  have hex : ∀ i u, u ≤ time → executed (gantt ps timeline') i u = executed (gantt ps timeline) i u := by
    intro i u hu
    apply executed_congr
    intro v hv
    rw [t.gantt_past (by omega)]
  have hleft : ∀ i, 0 < (processes i).remainingTime ↔ executed (gantt ps timeline') i time < demand ps i := by
    intro i
    have h1 := h.work i
    have h2 := hw.burst_pos i
    rw [hex i time (Nat.le_refl _)]
    unfold demand
    omega
  refine ⟨fun c u hu => ?_, hshown, honce, ⟨fun u _ => gantt_card_le hw u, fun u hu i hi => ?_, fun u hu hlt j ha hj => ?_⟩,
    fun i => (t.same i).trans (h.same i), fun i => ?_⟩
  · rw [t.past c u (by omega)]
    exact h.clean c u (by omega)
  · by_cases hut : u = time
    · subst hut
      obtain ⟨h1, h2⟩ := t.pending i ((t.gantt_now hw i).mp hi)
      exact ⟨by unfold release; omega, (hleft i).mp h2⟩
    · rw [t.gantt_past hut] at hi
      rw [hex i u (by omega)]
      exact h.greedy.valid u (by omega) i hi
  · by_cases hut : u = time
    · subst hut
      have hidle := idle_of_card_lt (fun c => hshown c u) (fun c c' => honce u c c') hlt
      rw [t.gantt_now hw]
      exact t.conserving hidle j (by unfold release at ha; omega) ((hleft j).mpr hj)
    · rw [t.gantt_past hut] at hlt ⊢
      rw [hex j u (by omega)] at hj
      exact h.greedy.greedy u (by omega) hlt j ha hj
  · have h1 := h.work i
    rw [executed_succ, hex i time (Nat.le_refl _), t.remaining i]
    by_cases hr : run i = true
    · rw [if_pos hr, if_pos ((t.gantt_now hw i).mpr hr)]
      push_cast
      omega
    · rw [if_neg hr, if_neg fun h' => hr ((t.gantt_now hw i).mp h')]
      omega

end

/-! ## The tick schedulers -/

/-- What the steps before execution must do for the chart to be right: they
change no remaining time, and only a ready process is put on a CPU. -/
structure Lawful (first : Sim n m → Sim n m) (mids : List (Sim n m → Sim n m)) : Prop where
  first : ∀ s, Coherent s → (∀ i, core ((first s).processes i) = core (s.processes i)) ∧
    ∀ i, (first s).isRunning i = true → s.isRunning i = true
  mids : ∀ f ∈ mids, ∀ s, Coherent s → Alive s → (∀ i, core ((f s).processes i) = core (s.processes i)) ∧
    ∀ i, (f s).isRunning i = true → s.isRunning i = true ∨ s.ready i = true

def Arrived (s : Sim n m) : Prop := ∀ i, s.isRunning i = true → (s.processes i).arrivalTime ≤ s.time

section
variable {first act : Sim n m → Sim n m} {mids : List (Sim n m → Sim n m)} (hS : Sound first act mids)
  (hL : Lawful first mids) {ps : Fin n → Process} (hw : Workload ps)
  (hcons : ∀ s, At guard (first :: (mids ++ [act, advance])) (init ps) [act, advance] s → WorkConserving s)
include hS hL hw

theorem Lawful.tick {s : Sim n m} (h : At guard (first :: (mids ++ [act, advance])) (init ps) [] s) (hg : guard s)
    (ha : Arrived s) : ∃ a, At guard (first :: (mids ++ [act, advance])) (init ps) [act, advance] a ∧
      ((∀ i, core (a.processes i) = core (s.processes i)) ∧ Arrived a) ∧ a.time = s.time ∧ a.timeline = s.timeline ∧
      Executed a (act a) ∧ body (first :: (mids ++ [act, advance])) s = advance (act a) := by
  have hc := (hS.head hw h).1
  have hft := (hS.first s hc).2.2.1
  obtain ⟨hf1, hf2⟩ := hL.first s hc
  refine hS.tickWith (P := fun a => (∀ i, core (a.processes i) = core (s.processes i)) ∧ Arrived a) hw h hg
    ⟨hf1, fun i hi => ?_⟩ ?_
  · rw [core_arrival (hf1 i), hft]
    exact ha i (hf2 i hi)
  · intro f hf a hca hal ⟨hcore, harr⟩
    obtain ⟨h1, h2⟩ := hL.mids f hf a hca hal
    refine ⟨fun i => (h1 i).trans (hcore i), fun i hi => ?_⟩
    rw [core_arrival (h1 i), (hS.mids f hf a hca hal).2.1]
    rcases h2 i hi with h2 | h2
    · exact harr i h2
    · exact (ready_iff.mp h2).1

include hcons

theorem Lawful.gantt {s : Sim n m} (h : At guard (first :: (mids ++ [act, advance])) (init ps) [] s) :
    Gantt ps s.time s.timeline s.processes ∧ Arrived s := by
  apply At.iteration (P := fun s : Sim n m => Gantt ps s.time s.timeline s.processes ∧ Arrived s)
    ⟨gantt_init hw, fun i hi => by cases hi⟩ _ h
  intro s hs hg ⟨hG, harr⟩
  obtain ⟨a, hat, ⟨hcore, haa⟩, ht, htl, he, hb⟩ := Lawful.tick hS hL hw hs hg harr
  obtain ⟨hco, hal, _⟩ := hS.beforeAct hw hat
  have hpid : ∀ i, (a.processes i).pid = (ps i).pid :=
    fun i => (core_pid (hcore i)).trans (static_pid (hG.same i))
  have hpa : ∀ i, (a.processes i).arrivalTime = (ps i).arrivalTime :=
    fun i => (core_arrival (hcore i)).trans (static_arrival (hG.same i))
  have hcol : ∀ c i, (a.cpus c).currentPid = (a.processes i).pid → (act a).timeline c a.time = (ps i).pid := by
    intro c i hc
    have := hco.pid_ne i
    rw [he.column c, if_neg (by rw [hc]; exact this), hc, hpid]
  have hbusy : ∀ c, (act a).timeline c a.time ≠ 0 → (a.cpus c).currentPid ≠ -1 := by
    intro c hne hc
    rw [he.column c, if_pos hc] at hne
    exact hne rfl
  have tk : Ticked ps s.time a.isRunning s.timeline (act a).timeline s.processes (act a).processes := by
    rw [← ht, ← htl]
    refine ⟨fun c hne => ?_, fun i hi => ?_, fun c c' heq hne => ?_, he.past, fun i hi => ?_, fun ⟨c, hc⟩ i h1 h2 => ?_,
      fun i => ?_, fun i => ?_⟩
    · obtain ⟨i, hi⟩ := hco.resolves c (hbusy c hne)
      exact ⟨i, (hco.running i).mpr ⟨c, hi⟩, hcol c i hi⟩
    · obtain ⟨c, hc⟩ := (hco.running i).mp hi
      exact ⟨c, hcol c i hc⟩
    · obtain ⟨i, hi⟩ := hco.resolves c (hbusy c hne)
      rw [heq] at hne
      obtain ⟨j, hj⟩ := hco.resolves c' (hbusy c' hne)
      rw [hcol c i hi, hcol c' j hj] at heq
      have : i = j := hw.pid_inj heq
      subst this
      exact hco.unique i c c' hi hj
    · rw [← hpa i, ← core_remaining (hcore i)]
      exact ⟨haa i hi, hal i hi⟩
    · have hidle : (a.cpus c).currentPid = -1 := by
        by_contra hne
        obtain ⟨j, hj⟩ := hco.resolves c hne
        have := hw.pid_pos j
        rw [hcol c j hj] at hc
        omega
      rw [← hpa i] at h1
      rw [← core_remaining (hcore i)] at h2
      exact (hco.running i).mpr (hcons a hat ⟨c, hidle⟩ i h1 h2)
    · have : static ((act a).processes i) = static (a.processes i) := by rw [he.processes i]; rfl
      exact this.trans (static_of_core (hcore i))
    · rw [he.processes i, ← core_remaining (hcore i)]
  rw [hb]
  constructor
  · have := hG.tick hw tk
    rw [← ht, ← he.time] at this
    exact this
  · intro i hi
    simp only [advance, he.isRunning, he.time, he.processes i] at hi ⊢
    have := haa i hi
    omega

end

end Sim
end OsLab
