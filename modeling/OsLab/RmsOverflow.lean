import Mathlib.Algebra.BigOperators.Fin
import Mathlib.Algebra.GCDMonoid.Multiset
import OsLab.CInt
import OsLab.RmsGantt
import OsLab.RmsMiss

/-!
# The arithmetic of `run_rms`

`Rms` computes on numbers without bound. Here are the same computations with
every operation checked in the type that the C code does it in: `int` has 32
bits and `long long` 64. No value is negative, so that only the upper bound can
be exceeded.
-/

namespace OsLab
namespace Rms
namespace Checked
open CInt

/-! ## The simulated length -/

def gcdi (a b : Nat) : Option Nat :=
  if b = 0 then some a else
    match _h : CInt.mod a b with
    | none => none
    | some t => gcdi b t
termination_by b
decreasing_by
  rename_i hb
  rw [CInt.mod, if_neg hb] at _h
  cases _h
  exact Nat.mod_lt _ (Nat.pos_of_ne_zero hb)

def lcmCap (a b cap : Nat) : Option Nat := do
  let g ← gcdi a b
  -- `((long long)a / g) * b`
  let q ← CInt.div a g
  let v ← CInt.mul 64 q b
  if v > cap then some cap else CInt.ret 32 v

def hyperperiodOf (periods : List Nat) : Option Nat := periods.foldlM (fun h p => lcmCap h p maxTime) 1

theorem gcdi_eq_some (a b : Nat) : gcdi a b = some (OsLab.gcdi a b) := by
  induction a, b using OsLab.gcdi.induct with
  | case1 a => rw [gcdi, OsLab.gcdi, if_pos rfl, if_pos rfl]
  | case2 a b hb ih =>
    have hm : CInt.mod a b = some (a % b) := if_neg hb
    rw [gcdi, OsLab.gcdi, if_neg hb, if_neg hb, ← ih]
    split
    · rename_i h; rw [hm] at h; cases h
    · rename_i h; rw [hm] at h; cases h; rfl

theorem lcmCap_eq_some {a b : Nat} (ha : 0 < a) (hle : a ≤ maxTime) (hb : b < 2 ^ 31) :
    lcmCap a b maxTime = some (OsLab.lcmCap a b maxTime) := by
  have hg : Nat.gcd a b ≠ 0 := Nat.gcd_ne_zero_left (Nat.pos_iff_ne_zero.1 ha)
  have hv : a / Nat.gcd a b * b < 2 ^ 63 := by
    have hq : a / Nat.gcd a b ≤ 1000 := le_trans (Nat.div_le_self _ _) hle
    have := Nat.mul_le_mul hq (Nat.le_of_lt hb)
    omega
  unfold lcmCap OsLab.lcmCap
  rw [gcdi_eq_some, gcdi_eq]
  simp only [Option.bind_eq_bind, Option.bind_some, CInt.div, if_neg hg, CInt.mul]
  rw [(guarded_ret 64 _).some_of hv, Option.bind_some]
  split
  · rfl
  · rename_i hc
    exact (guarded_ret 32 _).some_of (lt_of_le_of_lt (not_lt.1 hc) (by decide))

theorem lcm_pos {ps : List Nat} (hp : ∀ p ∈ ps, 0 < p) : 0 < Multiset.lcm (ps : Multiset Nat) := by
  apply Nat.pos_of_ne_zero
  rw [Ne, Multiset.lcm_eq_zero_iff]
  intro h
  exact absurd (hp 0 h) (lt_irrefl 0)

theorem hyperperiodOf_eq {ps : List Nat} (hp : ∀ p ∈ ps, 0 < p ∧ p < 2 ^ 31) :
    hyperperiodOf ps = some (min (Multiset.lcm (ps : Multiset Nat)) maxTime) := by
  -- the loop holds the capped multiple of the periods already read
  induction ps using List.reverseRecOn with
  | nil => rfl
  | append_singleton ps p ih =>
    have hps : ∀ q ∈ ps, 0 < q ∧ q < 2 ^ 31 := fun q hq => hp q (List.mem_append_left _ hq)
    have hlast := hp p (List.mem_append_right _ (List.mem_singleton_self p))
    have hpos := lcm_pos fun q hq => (hps q hq).1
    have hlcm : Multiset.lcm ((ps ++ [p] : List Nat) : Multiset Nat) = Nat.lcm (Multiset.lcm (ps : Multiset Nat)) p := by
      rw [← Multiset.coe_add, Multiset.lcm_add, Multiset.coe_singleton, Multiset.lcm_singleton, normalize_eq]
      rfl
    unfold hyperperiodOf at ih ⊢
    rw [List.foldlM_append, ih hps, hlcm]
    simp only [Option.bind_eq_bind, Option.bind_some, List.foldlM_cons, List.foldlM_nil]
    rw [lcmCap_eq_some (lt_min hpos (by decide)) (min_le_right _ _) hlast.2, lcmCap_min hpos hlast.1]
    rfl

/-- **The capped hyperperiod.** The loop gives the least common multiple of the
periods or `MAX_TIME`, whichever is smaller, for every order of the periods; no
operation of it divides by zero or overflows. -/
theorem hyperperiodOf_capped (ps : List Nat) (hp : ∀ p ∈ ps, 0 < p ∧ p < 2 ^ 31) :
    hyperperiodOf ps = some (min (Multiset.lcm (ps : Multiset Nat)) maxTime) ∧
    ∀ qs, qs.Perm ps → hyperperiodOf qs = hyperperiodOf ps := by
  refine ⟨hyperperiodOf_eq hp, ?_⟩
  intro qs hq
  rw [hyperperiodOf_eq hp, hyperperiodOf_eq fun p h => hp p (hq.mem_iff.1 h), Multiset.coe_eq_coe.2 hq]

theorem hyperperiodOf_capped_largest : hyperperiodOf [6, 2 ^ 31 - 1, 4] = some 1000 ∧
    hyperperiodOf [4, 6] = hyperperiodOf [6, 4] := by
  have big := (hyperperiodOf_capped [6, 2 ^ 31 - 1, 4] (by decide)).1
  refine ⟨?_, (hyperperiodOf_capped [6, 4] (by decide)).2 _ (List.Perm.swap _ _ _)⟩
  rw [big]
  decide

variable {n m : Nat} (ts : TaskSet n m)

/-! ## The simulation loop -/

def releaseOn (t : Nat) (s : Rms n m) (i : Fin n) : Option (Rms n m) := do
  if (← CInt.mod t (ts.p i)) = 0 then
    let k ← if t > 0 ∧ s.r i > 0 then CInt.add 32 (s.miss i) 1 else some (s.miss i)
    let r ← CInt.add 32 (s.r i) (ts.e i)
    some { s with miss := Function.update s.miss i k, r := Function.update s.r i r }
  else some s

def releaseAll (t : Nat) (s : Rms n m) : Option (Rms n m) := (List.finRange n).foldlM (releaseOn ts t) s

def runOn (h t : Nat) (s : Rms n m) (c : Fin m) : Option (Rms n m) := do
  -- the index `c * h + t`
  let row ← CInt.mul 32 c h
  let _ ← CInt.add 32 row t
  match pick ts s c with
  | none => some (s.mark c t 0)
  | some k =>
    let v ← CInt.add 32 k 1
    let b ← CInt.add 32 (s.busy c) 1
    some { s.mark c t v with
      r := Function.update s.r k (s.r k - 1)
      busy := Function.update s.busy c b }

def runAll (h t : Nat) (s : Rms n m) : Option (Rms n m) := (List.finRange m).foldlM (runOn ts h t) s

def tick (h : Nat) (s : Rms n m) (t : Nat) : Option (Rms n m) := releaseAll ts t s >>= runAll ts h t

def simulate (h : Nat) : Option (Rms n m) := (List.range h).foldlM (tick ts h) init

/-! ## The reports -/

def row (s : Rms n m) (c : Fin m) (t : Nat) : Int := s.timeline c t

/-- `print_gantt`: the index of the row, the size of `sv` and `se`, and `sc++` for each segment. -/
def printGantt (h : Nat) (s : Rms n m) (c : Fin m) : Option Nat := do
  let _ ← CInt.mul 32 c h
  let _ ← CInt.add 32 h 1
  (ganttSegments h (row s c)).foldlM (fun sc _ => CInt.add 32 sc 1) 0

def reports (h : Nat) (s : Rms n m) : Option (Nat × Nat × Nat) := do
  let totalMiss ← (List.finRange n).foldlM (fun total i => CInt.add 32 total (s.miss i)) 0
  let _ ← (List.finRange m).foldlM (fun _ (c : Fin m) => CInt.mul 32 c h) 0
  let _ ← (List.finRange m).foldlM (fun _ c => printGantt h s c) 0
  let totalBusy ← (List.finRange m).foldlM (fun total c => CInt.add 32 total (s.busy c)) 0
  let cells ← CInt.mul 32 m h
  some (totalMiss, totalBusy, cells)

def runRms : Option (Rms n m × Nat × Nat × Nat) := do
  let h ← hyperperiodOf ((List.finRange n).map ts.p)
  let h := if h ≤ 0 then 1 else h
  let s ← simulate ts h
  let figures ← reports h s
  some (s, figures)

/-! ## When the loop succeeds -/

theorem guarded_releaseOn (t : Nat) (s : Rms n m) (i : Fin n) : Guarded (releaseOn ts t s i)
    (ts.p i ∣ t → (t > 0 ∧ s.r i > 0 → Fits 32 (s.miss i + 1)) ∧ Fits 32 (s.r i + ts.e i)) (Rms.releaseOn ts t s i) := by
  have hmod : CInt.mod t (ts.p i) = some (t % ts.p i) := if_neg (Nat.pos_iff_ne_zero.1 (ts.p_pos i))
  unfold releaseOn Rms.releaseOn
  rw [hmod]
  dsimp only [Option.bind_eq_bind, Option.bind_some]
  by_cases hd : ts.p i ∣ t
  · have h0 : t % ts.p i = 0 := Nat.mod_eq_zero_of_dvd hd
    rw [if_pos h0, if_pos h0]
    by_cases hm : t > 0 ∧ s.r i > 0
    · simp only [if_pos hm]
      refine ((guarded_ret 32 _).bind fun _ => (guarded_ret 32 _).map _).congr ?_
      simp [hd, hm.1, hm.2]
    · simp only [if_neg hm]
      rw [Function.update_eq_self]
      refine ((guarded_ret 32 _).map _).congr ?_
      simp only [hd, hm, true_imp_iff, false_imp_iff, true_and]
  · have h0 : ¬t % ts.p i = 0 := fun h => hd (Nat.dvd_of_mod_eq_zero h)
    rw [if_neg h0, if_neg h0]
    exact (guarded_some s).congr (iff_of_true trivial fun h => absurd h hd)

theorem guarded_releaseAll (t : Nat) (s : Rms n m) : Guarded (releaseAll ts t s)
    (∀ i ∈ List.finRange n, ts.p i ∣ t →
      (t > 0 ∧ s.r i > 0 → Fits 32 (s.miss i + 1)) ∧ Fits 32 (s.r i + ts.e i))
    (Rms.releaseAll ts t s) := by
  refine Guarded.foldlM_forall (guarded_releaseOn ts t) _ s fun l i hpre => ?_
  have hi := not_mem_visited (List.nodup_finRange n) hpre
  have hrel := releasedOn_foldl ts t s (((List.prefix_append l [i]).trans hpre).sublist.nodup (List.nodup_finRange n))
  rw [hrel.r i, hrel.miss i, if_neg fun h => hi h.1, if_neg fun h => hi h.1, Nat.add_zero, Nat.add_zero]

theorem guarded_runOn (h t : Nat) (s : Rms n m) (c : Fin m) : Guarded (runOn ts h t s c)
    (Fits 32 (c * h + t) ∧ ∀ k, pick ts s c = some k → Fits 32 (k + 1) ∧ Fits 32 (s.busy c + 1))
    (Rms.runOn ts t s c) := by
  have hidx : ∀ {x : Option (Rms n m)} {Q : Prop} {v : Rms n m}, Guarded x Q v →
      Guarded (CInt.mul 32 c h >>= fun row => CInt.add 32 row t >>= fun _ => x) (Fits 32 (c * h + t) ∧ Q) v := by
    intro x Q v hx
    refine ((guarded_ret 32 _).bind fun _ => (guarded_ret 32 _).bind fun _ => hx).congr ?_
    exact ⟨fun h => h.2, fun h => ⟨h.1.mono (Nat.le_add_right _ _), h⟩⟩
  refine hidx ?_
  unfold Rms.runOn
  cases hp : pick ts s c with
  | none => exact (guarded_some _).congr (iff_of_true trivial fun k hk => by cases hk)
  | some k =>
    refine ((guarded_ret 32 _).bind fun _ => (guarded_ret 32 _).map _).congr ?_
    simp

theorem guarded_runAll (h t : Nat) (s : Rms n m) : Guarded (runAll ts h t s)
    (∀ c ∈ List.finRange m, Fits 32 (c * h + t) ∧
      ∀ k, pick ts s c = some k → Fits 32 (k + 1) ∧ Fits 32 (s.busy c + 1))
    (Rms.runAll ts t s) := by
  refine Guarded.foldlM_forall (guarded_runOn ts h t) _ s fun l c hpre => ?_
  have hc := not_mem_visited (List.nodup_finRange m) hpre
  have hran := ranOn_foldl ts t s (((List.prefix_append l [c]).trans hpre).sublist.nodup (List.nodup_finRange m))
  rw [hran.pick_eq hc, hran.busy c, if_neg fun h => hc h.1, Nat.add_zero]

theorem eq_range_of_start {l : List Nat} {t h : Nat} (hpre : (l ++ [t]) <+: List.range h) : l = List.range t := by
  have hlen := hpre.length_le
  rw [List.length_append, List.length_singleton, List.length_range] at hlen
  have e := List.prefix_iff_eq_take.1 hpre
  rw [List.length_append, List.length_singleton, List.take_range, Nat.min_eq_left hlen, List.range_succ] at e
  obtain ⟨h₁, h₂⟩ := List.append_inj' e rfl
  rw [(List.cons.inj h₂).1]
  exact h₁

structure Accepted : Prop where
  tasks : Fits 32 n
  cpus : Fits 32 m
  e : ∀ i, Fits 32 (ts.e i)
  p : ∀ i, Fits 32 (ts.p i)

theorem simulate_miss_le (t : Nat) (i : Fin n) : (Rms.simulate ts t).miss i ≤ t := by
  rw [simulate_miss]
  exact le_trans (Finset.card_filter_le _ _) (le_of_eq (Finset.card_range t))

theorem simulate_busy_le (t : Nat) (c : Fin m) : (Rms.simulate ts t).busy c ≤ t := by
  rw [busy_eq]
  exact le_trans (Finset.card_filter_le _ _) (le_of_eq (Finset.card_range t))

theorem fits_of_le {x : Nat} (h : x ≤ maxTime) : Fits 32 (x + 1) := by
  unfold Fits maxTime at *
  omega

def late (i : Fin n) (t : Nat) : Nat :=
  backlog (arrivals ts (insert i (above ts i))) t - backlog (arrivals ts (above ts i)) t

theorem simulate_r_eq (i : Fin n) (t : Nat) : (Rms.simulate ts t).r i = late ts i t := by
  have hnot : i ∉ above ts i := by simp [mem_above]
  rw [late, ← (insert_above_upper ts i).pending_eq, ← (above_upper ts i).pending_eq, pending, pending,
    Finset.sum_insert hnot, Nat.add_sub_cancel]

variable {ts} in
theorem guarded_simulate (hacc : Accepted ts) {h : Nat} (hh : h ≤ maxTime) : Guarded (simulate ts h)
    (∀ t ∈ List.range h, (∀ i, ts.p i ∣ t → Fits 32 (late ts i t + ts.e i)) ∧ ∀ c : Fin m, Fits 32 (c * h + t))
    (Rms.simulate ts h) := by
  have htick : ∀ s t, Guarded (tick ts h s t) _ (Rms.tick ts s t) := fun s t =>
    (guarded_releaseAll ts t s).bind fun _ => guarded_runAll ts h t _
  refine Guarded.foldlM_forall htick _ init fun l t hpre => ?_
  have ht : t ≤ maxTime := by
    have := List.mem_range.1 (hpre.subset (List.mem_append_right _ (List.mem_singleton_self t)))
    omega
  rw [eq_range_of_start hpre]
  change (∀ i ∈ List.finRange n, ts.p i ∣ t →
      ((t > 0 ∧ (Rms.simulate ts t).r i > 0 → Fits 32 ((Rms.simulate ts t).miss i + 1)) ∧
        Fits 32 ((Rms.simulate ts t).r i + ts.e i))) ∧
    (∀ c ∈ List.finRange m, Fits 32 (c * h + t) ∧ ∀ k, pick ts (Rms.releaseAll ts t (Rms.simulate ts t)) c = some k →
      Fits 32 (k + 1) ∧ Fits 32 ((Rms.releaseAll ts t (Rms.simulate ts t)).busy c + 1)) ↔ _
  have hmiss := fun i => fits_of_le (le_trans (simulate_miss_le ts t i) ht)
  have hbusy : ∀ c, Fits 32 ((Rms.releaseAll ts t (Rms.simulate ts t)).busy c + 1) := fun c => by
    rw [(releaseAll_spec ts t _).busy]
    exact fits_of_le (le_trans (simulate_busy_le ts t c) ht)
  have hk : ∀ k : Fin n, Fits 32 (k + 1) := fun k => hacc.tasks.mono k.isLt
  simp only [List.mem_finRange, true_imp_iff, simulate_r_eq, hmiss, hbusy, hk, imp_true_iff, and_true, true_and]

/-! ## When the reports succeed -/

theorem guarded_printGantt (h : Nat) (hh : h ≤ maxTime) (hpos : 1 ≤ h) (s : Rms n m) (c : Fin m) :
    Guarded (printGantt h s c) (Fits 32 (c * h)) (ganttSegments h (row s c)).length := by
  have hlen : (ganttSegments h (row s c)).length ≤ h := (ganttSegments_encodes (row s c) hpos).length_le
  have hsum := guarded_sum (w := 32) (fun _ => 1) (ganttSegments h (row s c)) (show Fits 32 0 by decide)
  rw [List.map_const', List.sum_replicate, smul_eq_mul, Nat.mul_one, Nat.zero_add] at hsum
  refine ((guarded_ret 32 _).bind fun _ => (guarded_ret 32 _).bind fun _ => hsum).congr ?_
  exact ⟨fun h => h.1, fun h => ⟨h, fits_of_le hh, (fits_of_le hh).mono (by omega)⟩⟩

theorem guarded_reports {h : Nat} (hh : h ≤ maxTime) (hpos : 1 ≤ h) (s : Rms n m) (hbusy : ∀ c, s.busy c ≤ h) :
    Guarded (reports h s) (Fits 32 (∑ i, s.miss i) ∧ Fits 32 (m * h)) (∑ i, s.miss i, ∑ c, s.busy c, m * h) := by
  have hmiss := guarded_sum (w := 32) s.miss (List.finRange n) (show Fits 32 0 by decide)
  have htotal := guarded_sum (w := 32) s.busy (List.finRange m) (show Fits 32 0 by decide)
  rw [Nat.zero_add, ← Fin.sum_univ_def] at hmiss htotal
  have hrows := Guarded.foldlM_forall (Q := fun c : Fin m => Fits 32 (c * h)) (fun _ (c : Fin m) => guarded_ret 32 (c * h))
    (List.finRange m) 0 fun _ _ _ => Iff.rfl
  have hgantt := Guarded.foldlM_forall (Q := fun c : Fin m => Fits 32 (c * h)) (fun _ c => guarded_printGantt h hh hpos s c)
    (List.finRange m) 0 fun _ _ _ => Iff.rfl
  refine (hmiss.bind fun _ => hrows.bind fun _ => hgantt.bind fun _ => htotal.bind fun _ =>
    (guarded_ret 32 (m * h)).map fun cells => (∑ i, s.miss i, ∑ c, s.busy c, cells)).congr ?_
  refine and_congr_right fun _ => ⟨fun h => h.2.2.2, fun hcells => ?_⟩
  have hrow : ∀ c ∈ List.finRange m, Fits 32 (c * h) := fun c _ =>
    hcells.mono (Nat.mul_le_mul_right h (Nat.le_of_lt c.isLt))
  refine ⟨hrow, hrow, hcells.mono ?_, hcells⟩
  calc ∑ c, s.busy c ≤ ∑ _c : Fin m, h := Finset.sum_le_sum fun c _ => hbusy c
    _ = m * h := by simp

theorem hyperperiodOf_tasks {ts : TaskSet n m} (hacc : Accepted ts) :
    hyperperiodOf ((List.finRange n).map ts.p) = some (hyperperiod ts) := by
  rw [hyperperiodOf_eq, hyperperiod_eq]
  · rfl
  · intro q hq
    obtain ⟨i, -, rfl⟩ := List.mem_map.1 hq
    exact ⟨ts.p_pos i, hacc.p i⟩

def lateReleases (h : Nat) (i : Fin n) : Nat :=
  ((Finset.range h).filter fun t => ts.p i ∣ t ∧ 0 < t ∧ 0 < late ts i t).card

variable {ts} in
theorem guarded_runRms (hacc : Accepted ts) : Guarded (runRms ts)
    (Fits 32 (m * hyperperiod ts) ∧
      (∀ i t, t < hyperperiod ts → ts.p i ∣ t → Fits 32 (late ts i t + ts.e i)) ∧
      Fits 32 (∑ i, lateReleases ts (hyperperiod ts) i))
    (Rms.simulate ts (hyperperiod ts), ∑ i, (Rms.simulate ts (hyperperiod ts)).miss i,
      ∑ c, (Rms.simulate ts (hyperperiod ts)).busy c, m * hyperperiod ts) := by
  have hle : hyperperiod ts ≤ maxTime := by rw [hyperperiod_eq]; exact min_le_right _ _
  have hpos := hyperperiod_pos ts
  have hmiss : ∀ i, (Rms.simulate ts (hyperperiod ts)).miss i = lateReleases ts (hyperperiod ts) i := by
    intro i
    rw [simulate_miss, lateReleases]
    simp only [simulate_r_eq]
  unfold runRms
  rw [hyperperiodOf_tasks hacc]
  simp only [Option.bind_eq_bind, Option.bind_some, if_neg (not_le.2 hpos)]
  refine ((guarded_simulate hacc hle).bind fun _ => (guarded_reports hle hpos _ fun c => simulate_busy_le ts _ c).map
    fun figures => (Rms.simulate ts (hyperperiod ts), figures)).congr ?_
  simp only [List.mem_range, hmiss]
  constructor
  · exact fun ⟨hloop, hsum, hcells⟩ => ⟨hcells, fun i t ht hd => (hloop t ht).1 i hd, hsum⟩
  · refine fun ⟨hcells, hr, hsum⟩ => ⟨fun t ht => ⟨fun i hd => hr i t ht hd, fun c => hcells.mono ?_⟩, hsum, hcells⟩
    calc c * hyperperiod ts + t ≤ (c + 1) * hyperperiod ts := by rw [Nat.succ_mul]; omega
      _ ≤ m * hyperperiod ts := Nat.mul_le_mul_right _ c.isLt

/-- **When the arithmetic of `run_rms` stays in range.** With `h` the capped least
common multiple of the periods, the checked run succeeds exactly when the number
of cells fits an `int`, every release finds the backlog of its task small enough
for one more execution time, and the late releases can be counted. -/
theorem no_overflow_iff (ts : TaskSet n m) (hacc : Accepted ts) : (runRms ts).isSome = true ↔
    Fits 32 (m * min (Finset.univ.lcm ts.p) maxTime) ∧
    (∀ i t, t < min (Finset.univ.lcm ts.p) maxTime → ts.p i ∣ t → Fits 32 (late ts i t + ts.e i)) ∧
    Fits 32 (∑ i, lateReleases ts (min (Finset.univ.lcm ts.p) maxTime) i) := by
  have h := (guarded_runRms hacc).isSome
  rwa [hyperperiod_eq] at h

def punctual : TaskSet 1 1 where
  e := fun _ => 1
  p := fun _ => 2
  a := fun _ => 0
  e_pos := fun _ => Nat.one_pos
  p_pos := fun _ => Nat.two_pos

theorem no_overflow_punctual : Accepted punctual ∧ (runRms punctual).isSome = true := by
  have hacc : Accepted punctual := ⟨by decide, by decide, by decide, by decide⟩
  have hlcm : Finset.univ.lcm punctual.p = 2 := by decide
  refine ⟨hacc, (no_overflow_iff punctual hacc).2 ?_⟩
  rw [hlcm]
  refine ⟨by decide, fun i t ht => ?_, by decide⟩
  revert i t
  decide

def heavy : TaskSet 2 1 where
  e := fun i => if i = 0 then 2 ^ 31 - 1 else 1
  p := fun i => if i = 0 then 1 else 2
  a := fun _ => 0
  e_pos := by decide
  p_pos := by decide

/-- At tick 1 the code adds `2 ^ 31 - 1` to what is left of the first release. -/
theorem heavy_overflows : Accepted heavy ∧ runRms heavy = none := by
  have hacc : Accepted heavy := ⟨by decide, by decide, by decide, by decide⟩
  refine ⟨hacc, (guarded_runRms hacc).none_of fun h => ?_⟩
  have hlcm : hyperperiod heavy = 2 := by
    rw [hyperperiod_eq]
    decide
  have hleft : late heavy 0 1 = 2 ^ 31 - 2 := by
    rw [← simulate_r_eq]
    decide
  have := h.2.1 0 1 (by rw [hlcm]; decide) (by decide)
  rw [hleft] at this
  revert this
  decide

end Checked
end Rms
end OsLab
