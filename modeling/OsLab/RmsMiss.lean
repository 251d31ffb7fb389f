import Mathlib.Algebra.GCDMonoid.Finset
import Mathlib.Algebra.GCDMonoid.Nat
import OsLab.RmsSound

/-!
# The miss count of RMS

The loop looks for leftover work when it releases the next job, so it sees every missed
deadline before the simulated length `h` and none at `h`. The reported total is right
exactly when no task whose period divides `h` has work left at `h`.
-/

namespace OsLab
namespace Rms
variable {n m : Nat} (ts : TaskSet n m)

theorem given_lt_iff {h : Nat} (i : Fin n) {k : Nat} (hk : k * ts.p i ≤ h) :
    (simulate ts h).given i (k * ts.p i) < k * ts.e i ↔ 0 < (simulate ts (k * ts.p i)).r i := by
  have := served_add_r_deadline ts i k
  rw [given_eq ts i hk]
  omega

theorem missed_times (h : Nat) (i : Fin n) :
    ((Finset.range (h + 1)).filter fun k =>
      1 ≤ k ∧ k * ts.p i ≤ h ∧ (simulate ts h).given i (k * ts.p i) < k * ts.e i).card =
    ((Finset.range (h + 1)).filter fun t => ts.p i ∣ t ∧ 0 < t ∧ 0 < (simulate ts t).r i).card := by
  have hp := ts.p_pos i
  apply Finset.card_bij fun k _ => k * ts.p i
  · intro k hk
    obtain ⟨_, h1, h2, h3⟩ := Finset.mem_filter.mp hk
    rw [Finset.mem_filter, Finset.mem_range]
    exact ⟨by omega, Nat.dvd_mul_left _ _, Nat.mul_pos h1 hp, (given_lt_iff ts i h2).mp h3⟩
  · intro k _ k' _ e
    exact Nat.eq_of_mul_eq_mul_right hp e
  · intro t ht
    obtain ⟨h1, ⟨k, rfl⟩, h3, h4⟩ := Finset.mem_filter.mp ht
    rw [Finset.mem_range] at h1
    rw [Nat.mul_comm] at h1 h3 h4
    have hk : 1 ≤ k := Nat.pos_of_mul_pos_right h3
    refine ⟨k, ?_, Nat.mul_comm _ _⟩
    rw [Finset.mem_filter, Finset.mem_range]
    have hle : k ≤ k * ts.p i := Nat.le_mul_of_pos_right k hp
    exact ⟨by omega, hk, by omega, (given_lt_iff ts i (by omega)).mpr h4⟩

theorem missed_eq {h : Nat} (hh : 0 < h) : missed ts h =
    ∑ i, ((simulate ts h).miss i + if ts.p i ∣ h ∧ 0 < (simulate ts h).r i then 1 else 0) := by
  unfold missed
  apply Finset.sum_congr rfl
  intro i _
  rw [missed_times, simulate_miss, Finset.range_add_one, Finset.filter_insert]
  by_cases hm : ts.p i ∣ h ∧ 0 < (simulate ts h).r i
  · rw [if_pos ⟨hm.1, hh, hm.2⟩, if_pos hm, Finset.card_insert_of_notMem (by simp)]
  · rw [if_neg fun h' => hm ⟨h'.1, h'.2.2⟩, if_neg hm, Nat.add_zero]

/-- Nothing remains of `i` exactly when `i` adds nothing to the backlog of the
tasks above it. -/
theorem r_eq_zero_iff (h : Nat) (i : Fin n) : (simulate ts h).r i = 0 ↔
    backlog (arrivals ts (insert i (above ts i))) h = backlog (arrivals ts (above ts i)) h := by
  have hnot : i ∉ above ts i := by simp [mem_above]
  rw [← (insert_above_upper ts i).pending_eq, ← (above_upper ts i).pending_eq]
  unfold pending
  rw [Finset.sum_insert hnot]
  omega

theorem gcdi_eq (a b : Nat) : gcdi a b = Nat.gcd a b := by
  induction a, b using gcdi.induct with
  | case1 a => rw [gcdi, if_pos rfl, Nat.gcd_zero_right]
  | case2 a b hb ih => rw [gcdi, if_neg hb, ih, Nat.gcd_comm b, ← Nat.gcd_rec, Nat.gcd_comm]

theorem lcmCap_min {L p cap : Nat} (hL : 0 < L) (hp : 0 < p) :
    lcmCap (min L cap) p cap = min (Nat.lcm L p) cap := by
  have hle : L ≤ Nat.lcm L p := Nat.le_of_dvd (Nat.lcm_pos hL hp) (Nat.dvd_lcm_left L p)
  have hv : ∀ a, a / Nat.gcd a p * p = Nat.lcm a p := fun a =>
    Nat.div_mul_right_comm (Nat.gcd_dvd_left a p) p
  unfold lcmCap
  rw [gcdi_eq, hv]
  by_cases hc : L ≤ cap
  · rw [Nat.min_eq_left hc]
    simp only
    split <;> omega
  · -- once the cap is reached it stays
    rw [Nat.min_eq_right (by omega), Nat.min_eq_right (by omega)]
    rcases Nat.eq_zero_or_pos cap with h0 | h0
    · subst h0; simp
    · have := Nat.le_of_dvd (Nat.lcm_pos h0 hp) (Nat.dvd_lcm_left cap p)
      simp only
      split <;> omega

theorem hyperperiod_eq : hyperperiod ts = min (Finset.univ.lcm ts.p) maxTime := by
  have key := foldl_range (f := fun h i => lcmCap h (ts.p i) maxTime) (b := 1)
    (P := fun l h => h = min (l.toFinset.lcm ts.p) maxTime) (List.finRange n) (by simp [maxTime]) (by
      intro l i h _ ih
      have hpos : 0 < l.toFinset.lcm ts.p :=
        Nat.pos_of_ne_zero fun h0 => by
          obtain ⟨j, _, hj⟩ := Finset.lcm_eq_zero_iff.mp h0
          have := ts.p_pos j
          omega
      simp only [ih]
      rw [lcmCap_min hpos (ts.p_pos i), List.toFinset_append, List.toFinset_cons, List.toFinset_nil,
        Finset.union_insert, Finset.union_empty, Finset.lcm_insert]
      rw [show GCDMonoid.lcm (ts.p i) (l.toFinset.lcm ts.p) = Nat.lcm (ts.p i) (l.toFinset.lcm ts.p) from rfl,
        Nat.lcm_comm])
  have huniv : (List.finRange n).toFinset = Finset.univ := by
    ext i
    simp
  rw [huniv] at key
  have hpos : 0 < min (Finset.univ.lcm ts.p) maxTime := by
    have : Finset.univ.lcm ts.p ≠ 0 := fun h0 => by
      obtain ⟨j, _, hj⟩ := Finset.lcm_eq_zero_iff.mp h0
      have := ts.p_pos j
      omega
    unfold maxTime
    omega
  unfold hyperperiod
  simp only [key]
  rw [if_neg (by omega)]

theorem hyperperiod_pos : 0 < hyperperiod ts := by
  unfold hyperperiod
  simp only
  split
  · exact Nat.one_pos
  · omega

/-- **The miss report.** The reported number is the number of missed deadlines
up to the simulated length `min (lcm of the periods) MAX_TIME` exactly when
each task whose period divides that length adds nothing there to the backlog
of the tasks above it. -/
theorem totalMiss_iff : totalMiss ts = missed ts (hyperperiod ts) ↔
    ∀ i, ts.p i ∣ min (Finset.univ.lcm ts.p) maxTime →
      backlog (arrivals ts (insert i (above ts i))) (min (Finset.univ.lcm ts.p) maxTime) =
        backlog (arrivals ts (above ts i)) (min (Finset.univ.lcm ts.p) maxTime) := by
  rw [← hyperperiod_eq, missed_eq ts (hyperperiod_pos ts), Finset.sum_add_distrib]
  unfold totalMiss
  have key : (∑ i, if ts.p i ∣ hyperperiod ts ∧ 0 < (simulate ts (hyperperiod ts)).r i then 1 else 0) = 0 ↔
      ∀ i, ts.p i ∣ hyperperiod ts → (simulate ts (hyperperiod ts)).r i = 0 := by
    rw [Finset.sum_eq_zero_iff]
    constructor
    · intro h i hd
      have := h i (Finset.mem_univ i)
      by_contra hne
      rw [if_pos ⟨hd, Nat.pos_of_ne_zero hne⟩] at this
      cases this
    · intro h i _
      rw [if_neg fun h' => by have := h i h'.1; omega]
  simp only [← r_eq_zero_iff]
  rw [← key]
  omega

def overload : TaskSet 1 1 where
  e := fun _ => 2
  p := fun _ => 1
  a := fun _ => 0
  e_pos := fun _ => Nat.two_pos
  p_pos := fun _ => Nat.one_pos

theorem totalMiss_overload : totalMiss overload = 0 ∧ missed overload (hyperperiod overload) = 1 := by
  have h : hyperperiod overload = 1 := by
    rw [hyperperiod_eq]
    decide
  unfold totalMiss
  rw [h]
  decide

end Rms
end OsLab
