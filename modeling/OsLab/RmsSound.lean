import Mathlib.Algebra.Order.BigOperators.Group.Finset
import OsLab.Rms
import OsLab.Scan
import OsLab.Slots

/-!
# The simulation loop of RMS

What a CPU runs at a tick, what remains of a task, and how many misses have
been counted, each as a function of the tick. The tasks of one CPU down to a
given priority behave like a unit-rate server.
-/

namespace OsLab
namespace Rms
variable {n m : Nat} (ts : TaskSet n m)

/-! ## Releases -/

structure ReleasedOn (t : Nat) (s a : Rms n m) (l : List (Fin n)) : Prop where
  r : ∀ i, a.r i = s.r i + if i ∈ l ∧ ts.p i ∣ t then ts.e i else 0
  miss : ∀ i, a.miss i = s.miss i + if i ∈ l ∧ ts.p i ∣ t ∧ 0 < t ∧ 0 < s.r i then 1 else 0
  busy : a.busy = s.busy
  timeline : a.timeline = s.timeline

variable {ts} in
theorem ReleasedOn.step {t : Nat} {s a : Rms n m} {l : List (Fin n)} (h : ReleasedOn ts t s a l) {i : Fin n}
    (hi : i ∉ l) : ReleasedOn ts t s (releaseOn ts t a i) (l ++ [i]) := by
  have hri : a.r i = s.r i := by rw [h.r i, if_neg (fun hl => hi hl.1), Nat.add_zero]
  have hmi : a.miss i = s.miss i := by rw [h.miss i, if_neg (fun hl => hi hl.1), Nat.add_zero]
  have hmem : ∀ j, j ≠ i → (j ∈ l ++ [i] ↔ j ∈ l) := fun j hj => by simp [hj]
  by_cases hd : ts.p i ∣ t
  · have hmod : t % ts.p i = 0 := Nat.mod_eq_zero_of_dvd hd
    have e : releaseOn ts t a i = { a with
        miss := if t > 0 ∧ a.r i > 0 then Function.update a.miss i (a.miss i + 1) else a.miss
        r := Function.update a.r i (a.r i + ts.e i) } := if_pos hmod
    rw [e]
    refine ⟨fun j => ?_, fun j => ?_, h.busy, h.timeline⟩
    · by_cases hj : j = i
      · subst hj; simp [hri, hd]
      · simp only [Function.update_of_ne hj, h.r j, hmem j hj]
    · by_cases hj : j = i
      · subst hj
        by_cases hm : t > 0 ∧ a.r j > 0
        · rw [hri] at hm
          simp [hri, hm.1, hm.2, hd, hmi]
        · rw [hri] at hm
          simp only [hri, hm, if_false, hmi, List.mem_append, List.mem_singleton, or_true, hd, true_and]
          rfl
      · simp only [hmem j hj]
        rw [← h.miss j]
        split
        · rw [Function.update_of_ne hj]
        · rfl
  · have e : releaseOn ts t a i = a := if_neg fun h0 => hd (Nat.dvd_of_mod_eq_zero h0)
    rw [e]
    refine ⟨fun j => ?_, fun j => ?_, h.busy, h.timeline⟩
    · by_cases hj : j = i
      · subst hj; simp [hri, hd]
      · rw [h.r j]; simp only [hmem j hj]
    · by_cases hj : j = i
      · subst hj; simp [hmi, hd]
      · rw [h.miss j]; simp only [hmem j hj]

theorem releasedOn_foldl (t : Nat) (s : Rms n m) {l : List (Fin n)} (hl : l.Nodup) :
    ReleasedOn ts t s (l.foldl (releaseOn ts t) s) l := by
  refine foldl_range (P := fun l a => ReleasedOn ts t s a l) _ ⟨by simp, by simp, rfl, rfl⟩ ?_
  intro l' i a hpre h
  exact h.step (not_mem_visited hl hpre)

theorem releaseAll_spec (t : Nat) (s : Rms n m) : ReleasedOn ts t s (releaseAll ts t s) (List.finRange n) :=
  releasedOn_foldl ts t s (List.nodup_finRange n)

/-! ## The choice of a task -/

def rank (i : Fin n) : ℕ ×ₗ Fin n := toLex (ts.p i, i)

theorem pick_eq (s : Rms n m) (c : Fin m) : pick ts s c = (List.finRange n).foldl
    (scanMin (fun i => decide (ts.a i = c) && decide (0 < s.r i)) (rank ts)) none := by
  unfold pick
  congr 1
  funext k i
  unfold scan scanMin
  by_cases hi : ts.a i = c ∧ s.r i > 0
  · have : (decide (ts.a i = c) && decide (0 < s.r i)) = true := by simp [hi.1, hi.2]
    rw [if_pos hi, if_pos this]
    cases k with
    | none => rfl
    | some k => simp only [rank, Prod.Lex.toLex_lt_toLex]
  · have : ¬(decide (ts.a i = c) && decide (0 < s.r i)) = true := by simpa using hi
    rw [if_neg hi, if_neg this]

theorem pick_none {s : Rms n m} {c : Fin m} (h : pick ts s c = none) (i : Fin n) (hi : ts.a i = c) : s.r i = 0 := by
  rw [pick_eq] at h
  have := (scanMin_spec _ _ _).1 h i (List.mem_finRange i)
  simpa [hi] using this

theorem pick_some {s : Rms n m} {c : Fin m} {k : Fin n} (h : pick ts s c = some k) :
    ts.a k = c ∧ 0 < s.r k ∧ ∀ i, ts.a i = c → 0 < s.r i → rank ts k ≤ rank ts i := by
  rw [pick_eq] at h
  obtain ⟨_, hk, hleast⟩ := (scanMin_spec _ _ _).2 k h
  simp only [Bool.and_eq_true, decide_eq_true_eq] at hk
  exact ⟨hk.1, hk.2, fun i hi hr => hleast i (List.mem_finRange i) (by simp [hi, hr])⟩

theorem pick_congr {s s' : Rms n m} {c : Fin m} (h : ∀ i, ts.a i = c → s'.r i = s.r i) :
    pick ts s' c = pick ts s c := by
  unfold pick
  congr 1
  funext k i
  unfold scan
  by_cases hi : ts.a i = c
  · rw [h i hi]
  · rw [if_neg fun h => hi h.1, if_neg fun h => hi h.1]

/-! ## Running one tick -/

def cell : Option (Fin n) → Nat
  | none => 0
  | some k => k + 1

theorem cell_eq_iff {k : Option (Fin n)} {i : Fin n} : cell k = i + 1 ↔ k = some i := by
  cases k with
  | none => simp [cell]
  | some k => simp [cell, Fin.ext_iff]

structure RanOn (t : Nat) (s a : Rms n m) (l : List (Fin m)) : Prop where
  r : ∀ i, a.r i = s.r i - if ts.a i ∈ l ∧ pick ts s (ts.a i) = some i then 1 else 0
  miss : a.miss = s.miss
  busy : ∀ c, a.busy c = s.busy c + if c ∈ l ∧ (pick ts s c).isSome then 1 else 0
  label : ∀ c ∈ l, a.timeline c t = cell (pick ts s c)
  others : ∀ c u, u ≠ t → a.timeline c u = s.timeline c u

variable {ts} in
theorem RanOn.pick_eq {t : Nat} {s a : Rms n m} {l : List (Fin m)} (h : RanOn ts t s a l) {c : Fin m} (hc : c ∉ l) :
    pick ts a c = pick ts s c := by
  apply pick_congr
  intro i hi
  rw [h.r i, hi, if_neg (fun hl => hc hl.1), Nat.sub_zero]

variable {ts} in
theorem RanOn.step {t : Nat} {s a : Rms n m} {l : List (Fin m)} (h : RanOn ts t s a l) {c : Fin m} (hc : c ∉ l) :
    RanOn ts t s (runOn ts t a c) (l ++ [c]) := by
  have hpick := h.pick_eq hc
  have hmem : ∀ c', c' ≠ c → (c' ∈ l ++ [c] ↔ c' ∈ l) := fun c' hc' => by simp [hc']
  have hlabel : ∀ v, v = cell (pick ts s c) → ∀ c' ∈ l ++ [c],
      (a.mark c t v).timeline c' t = cell (pick ts s c') := by
    intro v hv c' hc'
    by_cases e : c' = c
    · subst e; simp [mark, hv]
    · simp only [mark, Function.update_of_ne e]
      exact h.label c' ((hmem c' e).mp hc')
  have hothers : ∀ v c' u, u ≠ t → (a.mark c t v).timeline c' u = s.timeline c' u := by
    intro v c' u hu
    by_cases e : c' = c
    · subst e
      simp only [mark, Function.update_self, Function.update_of_ne hu]
      exact h.others c' u hu
    · simp only [mark, Function.update_of_ne e]
      exact h.others c' u hu
  unfold runOn
  rw [hpick]
  cases hp : pick ts s c with
  | none =>
    refine ⟨fun i => ?_, h.miss, fun c' => ?_, hlabel 0 (by rw [hp]; rfl), hothers 0⟩
    · by_cases e : ts.a i = c
      · simp only [mark, h.r i, e, hc, hp, List.mem_append, List.mem_singleton, reduceCtorEq, and_false]
      · simp only [mark, h.r i, hmem _ e]
    · by_cases e : c' = c
      · subst e; simp [mark, h.busy c', hc, hp]
      · simp only [mark, h.busy c', hmem _ e]
  | some k =>
    have hk := pick_some ts hp
    refine ⟨fun i => ?_, h.miss, fun c' => ?_, hlabel (k + 1) (by rw [hp]; rfl), hothers (k + 1)⟩
    · by_cases e : i = k
      · subst e
        simp only [Function.update_self, h.r i, hk.1, hc, hp, List.mem_append, List.mem_singleton, false_and,
          or_true, true_and, if_false, if_true, Nat.sub_zero]
      · simp only [Function.update_of_ne e, h.r i]
        by_cases ec : ts.a i = c
        · have : some k ≠ some i := fun h => e (Option.some.inj h).symm
          simp only [ec, hp, this, and_false]
        · simp only [hmem _ ec]
    · by_cases e : c' = c
      · subst e; simp [h.busy c', hc, hp]
      · simp only [Function.update_of_ne e, h.busy c', hmem _ e]

theorem ranOn_foldl (t : Nat) (s : Rms n m) {l : List (Fin m)} (hl : l.Nodup) :
    RanOn ts t s (l.foldl (runOn ts t) s) l := by
  refine foldl_range (P := fun l a => RanOn ts t s a l) _ ⟨by simp, rfl, by simp, by simp, fun _ _ _ => rfl⟩ ?_
  intro l' c a hpre h
  exact h.step (not_mem_visited hl hpre)

theorem runAll_spec (t : Nat) (s : Rms n m) : RanOn ts t s (runAll ts t s) (List.finRange m) :=
  ranOn_foldl ts t s (List.nodup_finRange m)

/-! ## The loop -/

def ran (c : Fin m) (t : Nat) : Option (Fin n) := pick ts (releaseAll ts t (simulate ts t)) c

theorem simulate_succ (t : Nat) : simulate ts (t + 1) = runAll ts t (releaseAll ts t (simulate ts t)) := by
  unfold simulate
  rw [List.range_succ, List.foldl_append]
  rfl

theorem release_r (t : Nat) (i : Fin n) :
    (releaseAll ts t (simulate ts t)).r i = (simulate ts t).r i + if ts.p i ∣ t then ts.e i else 0 := by
  rw [(releaseAll_spec ts t _).r i]
  simp only [List.mem_finRange, true_and]

theorem ran_some {c : Fin m} {t : Nat} {k : Fin n} (h : ran ts c t = some k) : ts.a k = c ∧
    0 < (simulate ts t).r k + (if ts.p k ∣ t then ts.e k else 0) := by
  obtain ⟨h1, h2, _⟩ := pick_some ts h
  rw [release_r] at h2
  exact ⟨h1, h2⟩

theorem simulate_r (t : Nat) (i : Fin n) : (simulate ts (t + 1)).r i + (if ran ts (ts.a i) t = some i then 1 else 0) =
    (simulate ts t).r i + if ts.p i ∣ t then ts.e i else 0 := by
  have h := (runAll_spec ts t (releaseAll ts t (simulate ts t))).r i
  rw [← simulate_succ, release_r] at h
  simp only [List.mem_finRange, true_and] at h
  rw [h]
  by_cases hr : ran ts (ts.a i) t = some i
  · have hpos := (ran_some ts hr).2
    have hr' : pick ts (releaseAll ts t (simulate ts t)) (ts.a i) = some i := hr
    rw [if_pos hr, if_pos hr']
    omega
  · have hr' : ¬pick ts (releaseAll ts t (simulate ts t)) (ts.a i) = some i := hr
    rw [if_neg hr, if_neg hr']
    omega

theorem simulate_timeline (c : Fin m) (u : Nat) : ∀ h, u < h → (simulate ts h).timeline c u = cell (ran ts c u)
  | 0, hu => absurd hu (Nat.not_lt_zero u)
  | h + 1, hu => by
    have hs := runAll_spec ts h (releaseAll ts h (simulate ts h))
    rw [simulate_succ]
    by_cases e : u = h
    · subst e; exact hs.label c (List.mem_finRange c)
    · rw [hs.others c u e, (releaseAll_spec ts h _).timeline]
      exact simulate_timeline c u h (by omega)

theorem simulate_miss (i : Fin n) : ∀ h, (simulate ts h).miss i =
    ((Finset.range h).filter fun t => ts.p i ∣ t ∧ 0 < t ∧ 0 < (simulate ts t).r i).card
  | 0 => rfl
  | h + 1 => by
    have h1 := (runAll_spec ts h (releaseAll ts h (simulate ts h))).miss
    have h2 := (releaseAll_spec ts h (simulate ts h)).miss i
    simp only [List.mem_finRange, true_and] at h2
    rw [simulate_succ, h1, h2, simulate_miss i h, Finset.range_add_one, Finset.filter_insert]
    split
    · rw [Finset.card_insert_of_notMem (by simp)]
    · rfl

/-! ## Accounting -/

theorem ceil_succ {p : Nat} (hp : 0 < p) (t : Nat) : (t + 1 + p - 1) / p = (t + p - 1) / p + if p ∣ t then 1 else 0 := by
  have e : t + 1 + p - 1 = (t + p - 1) + 1 := by omega
  rw [e, Nat.succ_div]
  have : t + p - 1 + 1 = t + p := by omega
  simp only [this, Nat.dvd_add_self_right]

theorem served_add_r (i : Fin n) : ∀ t, served (ran ts (ts.a i)) i t + (simulate ts t).r i =
    ts.e i * ((t + ts.p i - 1) / ts.p i)
  | 0 => by
    have : (0 + ts.p i - 1) / ts.p i = 0 := Nat.div_eq_of_lt (by have := ts.p_pos i; omega)
    rw [this]
    rfl
  | t + 1 => by
    have h1 := served_add_r i t
    have h2 := simulate_r ts t i
    rw [served_succ, ceil_succ (ts.p_pos i), Nat.mul_add]
    by_cases hd : ts.p i ∣ t
    · rw [if_pos hd] at h2 ⊢
      omega
    · rw [if_neg hd] at h2 ⊢
      omega

theorem served_add_r_deadline (i : Fin n) (k : Nat) :
    served (ran ts (ts.a i)) i (k * ts.p i) + (simulate ts (k * ts.p i)).r i = k * ts.e i := by
  have hp := ts.p_pos i
  have : (k * ts.p i + ts.p i - 1) / ts.p i = k := by
    rw [Nat.add_sub_assoc hp, Nat.mul_comm k, Nat.mul_add_div hp, Nat.div_eq_of_lt (by omega), Nat.add_zero]
  rw [served_add_r, this, Nat.mul_comm]

theorem labelled_eq {h t : Nat} (ht : t ≤ h) (c : Fin m) (i : Fin n) :
    ((Finset.range t).filter fun u => (simulate ts h).timeline c u = i + 1) = slots (ran ts c) i 0 t := by
  unfold slots
  rw [← Finset.range_eq_Ico]
  refine Finset.filter_congr fun u hu => ?_
  rw [simulate_timeline ts c u h (Nat.lt_of_lt_of_le (Finset.mem_range.1 hu) ht), cell_eq_iff]

theorem given_eq {h : Nat} (i : Fin n) {t : Nat} (ht : t ≤ h) :
    (simulate ts h).given i t = served (ran ts (ts.a i)) i t := by
  unfold given
  rw [Finset.sum_congr rfl fun c _ => congrArg Finset.card (labelled_eq ts ht c i)]
  apply Finset.sum_eq_single (ts.a i)
  · intro c _ hc
    rw [Finset.card_eq_zero, Finset.eq_empty_iff_forall_notMem]
    intro u hu
    exact hc (ran_some ts (mem_slots.mp hu).2).1.symm
  · exact fun h => absurd (Finset.mem_univ _) h

theorem cell_eq_zero {k : Option (Fin n)} : cell k = 0 ↔ k = none := by
  cases k <;> simp [cell]

theorem busy_eq (c : Fin m) : ∀ t, (simulate ts t).busy c = ((Finset.range t).filter fun u => ran ts c u ≠ none).card
  | 0 => rfl
  | t + 1 => by
    have h1 := (runAll_spec ts t (releaseAll ts t (simulate ts t))).busy c
    have h2 := (releaseAll_spec ts t (simulate ts t)).busy
    rw [← simulate_succ, h2, busy_eq c t] at h1
    simp only [List.mem_finRange, true_and, Option.isSome_iff_ne_none] at h1
    rw [h1, Finset.range_add_one, Finset.filter_insert]
    change _ + (if ran ts c t ≠ none then 1 else 0) = _
    split
    · rw [Finset.card_insert_of_notMem (by simp)]
    · rfl

theorem releases_card (i : Fin n) : ∀ t, ((Finset.range t).filter fun u => ts.p i ∣ u).card = (t + ts.p i - 1) / ts.p i
  | 0 => (Nat.div_eq_of_lt (by have := ts.p_pos i; omega)).symm
  | t + 1 => by
    rw [ceil_succ (ts.p_pos i), ← releases_card i t, Finset.range_add_one, Finset.filter_insert]
    split
    · rw [Finset.card_insert_of_notMem (by simp)]
    · rfl

theorem idle_iff {c : Fin m} {t : Nat} :
    ran ts c t = none ↔ ∀ i, ts.a i = c → (releaseAll ts t (simulate ts t)).r i = 0 := by
  constructor
  · exact fun h i hi => pick_none ts h i hi
  · intro h
    cases hk : ran ts c t with
    | none => rfl
    | some k =>
      obtain ⟨hc, hr, _⟩ := pick_some ts hk
      exact absurd (h k hc) (Nat.pos_iff_ne_zero.1 hr)

/-- **The account of a run** after the tick `t`. The ticks that row `a i` gives to
task `i` and what remains of `i` add up to the work that `i` has released, and no
other row has `i` in it; `busy` counts the cells that are not idle; a row is idle
at `t` when no task of its CPU is pending, and otherwise shows the pending task
of least period and index. -/
theorem work_accounting (t : Nat) :
    (∀ i, ((Finset.range (t + 1)).filter fun u => (simulate ts (t + 1)).timeline (ts.a i) u = i + 1).card +
        (simulate ts (t + 1)).r i = ts.e i * ((Finset.range (t + 1)).filter fun u => ts.p i ∣ u).card) ∧
    (∀ i c, c ≠ ts.a i → ∀ u ≤ t, (simulate ts (t + 1)).timeline c u ≠ i + 1) ∧
    (∀ c, (simulate ts (t + 1)).busy c =
        ((Finset.range (t + 1)).filter fun u => (simulate ts (t + 1)).timeline c u ≠ 0).card) ∧
    ∀ c, ((simulate ts (t + 1)).timeline c t = 0 ↔ ∀ i, ts.a i = c → (releaseAll ts t (simulate ts t)).r i = 0) ∧
      ((simulate ts (t + 1)).timeline c t ≠ 0 → ∃ k : Fin n, (simulate ts (t + 1)).timeline c t = k + 1 ∧
        ts.a k = c ∧ 0 < (releaseAll ts t (simulate ts t)).r k ∧
        ∀ j, ts.a j = c → 0 < (releaseAll ts t (simulate ts t)).r j →
          ts.p k < ts.p j ∨ (ts.p k = ts.p j ∧ k ≤ j)) := by
  have hcell : ∀ c u, u < t + 1 → (simulate ts (t + 1)).timeline c u = cell (ran ts c u) :=
    fun c u hu => simulate_timeline ts c u (t + 1) hu
  refine ⟨fun i => ?_, fun i c hc u hu hlabel => ?_, fun c => ?_, fun c => ⟨?_, fun hne => ?_⟩⟩
  · rw [labelled_eq ts (le_refl _), releases_card]
    exact served_add_r ts i (t + 1)
  · rw [hcell c u (Nat.lt_succ_of_le hu), cell_eq_iff] at hlabel
    exact hc (ran_some ts hlabel).1.symm
  · rw [busy_eq]
    refine congrArg Finset.card (Finset.filter_congr fun u hu => ?_)
    rw [hcell c u (Finset.mem_range.1 hu), Ne, Ne, cell_eq_zero]
  · rw [hcell c t (Nat.lt_succ_self t), cell_eq_zero]
    exact idle_iff ts
  · rw [hcell c t (Nat.lt_succ_self t)] at hne ⊢
    cases hk : ran ts c t with
    | none => exact absurd (cell_eq_zero.2 hk) hne
    | some k =>
      obtain ⟨hc, hr, hleast⟩ := pick_some ts hk
      refine ⟨k, rfl, hc, hr, fun j hj hjr => ?_⟩
      have := hleast j hj hjr
      rwa [rank, rank, Prod.Lex.toLex_le_toLex] at this

/-! ## Priority levels -/

def above (i : Fin n) : Finset (Fin n) := Finset.univ.filter fun j => ts.a j = ts.a i ∧ rank ts j < rank ts i

def arrivals (S : Finset (Fin n)) (t : Nat) : Nat := ∑ j ∈ S, if ts.p j ∣ t then ts.e j else 0

def pending (S : Finset (Fin n)) (t : Nat) : Nat := ∑ j ∈ S, (simulate ts t).r j

structure Upper (c : Fin m) (S : Finset (Fin n)) : Prop where
  cpu : ∀ j ∈ S, ts.a j = c
  closed : ∀ j ∈ S, ∀ k, ts.a k = c → rank ts k ≤ rank ts j → k ∈ S

theorem mem_above {i j : Fin n} : j ∈ above ts i ↔ ts.a j = ts.a i ∧ rank ts j < rank ts i := by
  simp [above]

theorem above_upper (i : Fin n) : Upper ts (ts.a i) (above ts i) where
  cpu := fun _ hj => ((mem_above ts).mp hj).1
  closed := fun _ hj _ hk hle => (mem_above ts).mpr ⟨hk, lt_of_le_of_lt hle ((mem_above ts).mp hj).2⟩

theorem rank_inj {i j : Fin n} (h : rank ts i = rank ts j) : i = j :=
  (Prod.ext_iff.mp (toLex.injective h)).2

theorem insert_above_upper (i : Fin n) : Upper ts (ts.a i) (insert i (above ts i)) where
  cpu := fun j hj => by
    rcases Finset.mem_insert.mp hj with rfl | hj
    · rfl
    · exact (above_upper ts i).cpu j hj
  closed := fun j hj k hk hle => by
    rcases Finset.mem_insert.mp hj with rfl | hj
    · rcases lt_or_eq_of_le hle with hlt | he
      · exact Finset.mem_insert_of_mem ((mem_above ts).mpr ⟨hk, hlt⟩)
      · rw [rank_inj ts he]; exact Finset.mem_insert_self _ _
    · exact Finset.mem_insert_of_mem ((above_upper ts i).closed j hj k hk hle)

section
variable {ts} {c : Fin m} {S : Finset (Fin n)} (hS : Upper ts c S)
include hS

theorem Upper.runs {j : Fin n} (hj : j ∈ S) {t : Nat}
    (hr : 0 < (simulate ts t).r j + if ts.p j ∣ t then ts.e j else 0) : ∃ k ∈ S, ran ts c t = some k := by
  rw [← release_r] at hr
  cases hk : ran ts c t with
  | none =>
    have := pick_none ts hk j (hS.cpu j hj)
    omega
  | some k =>
    obtain ⟨h1, _, h3⟩ := pick_some ts hk
    exact ⟨k, hS.closed j hj k h1 (h3 j (hS.cpu j hj) hr), rfl⟩

theorem Upper.pending_add (t : Nat) : pending ts S (t + 1) + (∑ j ∈ S, if ran ts c t = some j then 1 else 0) =
    pending ts S t + arrivals ts S t := by
  unfold pending arrivals
  rw [← Finset.sum_add_distrib, ← Finset.sum_add_distrib]
  apply Finset.sum_congr rfl
  intro j hj
  have := simulate_r ts t j
  rw [hS.cpu j hj] at this
  exact this

theorem Upper.pending_succ (t : Nat) : pending ts S (t + 1) = pending ts S t + arrivals ts S t - 1 := by
  have hadd := hS.pending_add t
  by_cases h0 : pending ts S t + arrivals ts S t = 0
  · omega
  · obtain ⟨j, hj, hpos⟩ : ∃ j ∈ S, 0 < (simulate ts t).r j + if ts.p j ∣ t then ts.e j else 0 := by
      by_contra hno
      apply h0
      unfold pending arrivals
      rw [← Finset.sum_add_distrib]
      apply Finset.sum_eq_zero
      intro j hj
      by_contra hne
      exact hno ⟨j, hj, Nat.pos_of_ne_zero hne⟩
    obtain ⟨k, hk, hran⟩ := hS.runs hj hpos
    have hone : (∑ j ∈ S, if ran ts c t = some j then 1 else 0) = 1 := by
      rw [Finset.sum_eq_single k]
      · rw [if_pos hran]
      · intro j _ hjk
        rw [hran, if_neg fun h => hjk (Option.some.inj h).symm]
      · exact fun h => absurd hk h
    omega

theorem Upper.pending_eq (t : Nat) : pending ts S t = backlog (arrivals ts S) t :=
  eq_backlog _ (by simp [pending, simulate, init]) hS.pending_succ t

end

end Rms
end OsLab
