import OsLab.Hyperbolic
import OsLab.RmsMiss

/-!
# The RMS schedulability test

On a CPU that passes the utilization test of `run_rms` every job is served in full
between its release and the next. If a job were late, look back from its release to
the last time at which the tasks above it had nothing pending: from there on the demand
exceeds every window up to one period, which the hyperbolic bound excludes.
-/

namespace OsLab
namespace Rms
variable {n m : Nat}

noncomputable def rmsBound (k : Nat) : ℝ := if k ≤ 0 then 0 else k * ((2 : ℝ) ^ (1 / (k : ℝ)) - 1)

variable (ts : TaskSet n m)

def onCpu (c : Fin m) : Finset (Fin n) := Finset.univ.filter fun i => ts.a i = c

noncomputable def utilization (c : Fin m) : ℝ := ∑ j ∈ onCpu ts c, (ts.e j : ℝ) / ts.p j

/-! ## Windows -/

theorem ceil_add_le {p : Nat} (hp : 0 < p) (s t : Nat) :
    (s + t + p - 1) / p ≤ (s + p - 1) / p + (t + p - 1) / p := by
  have h1 := Nat.lt_div_mul_add (a := s + p - 1) hp
  have h2 := Nat.lt_div_mul_add (a := t + p - 1) hp
  apply Nat.le_of_lt_succ
  rw [Nat.div_lt_iff_lt_mul hp, Nat.succ_eq_add_one, Nat.add_mul, Nat.add_mul]
  omega

/-- In a window that opens with nothing pending, a task is served no more than
it releases. -/
theorem slots_le {j : Fin n} {s : Nat} (h0 : (simulate ts s).r j = 0) (t : Nat) :
    (slots (ran ts (ts.a j)) j s (s + t)).card ≤ ts.e j * ((t + ts.p j - 1) / ts.p j) := by
  have h1 := served_add_r ts j s
  have h2 := served_add_r ts j (s + t)
  have h3 := served_add (ran ts (ts.a j)) j (Nat.le_add_right s t)
  have h4 := Nat.mul_le_mul_left (ts.e j) (ceil_add_le (ts.p_pos j) s t)
  rw [Nat.mul_add] at h4
  omega

variable {ts} in
theorem Upper.runs_of_pending {c : Fin m} {S : Finset (Fin n)} (hS : Upper ts c S) {t : Nat}
    (h : 0 < pending ts S (t + 1)) : ∃ k ∈ S, ran ts c t = some k := by
  have hadd := hS.pending_succ t
  by_contra hno
  have hzero : pending ts S t + arrivals ts S t = 0 := by
    unfold pending arrivals
    rw [← Finset.sum_add_distrib]
    apply Finset.sum_eq_zero
    intro j hj
    by_contra hne
    exact hno (hS.runs hj (Nat.pos_of_ne_zero hne))
  omega

/-! ## A late job -/

section
variable {ts} {i : Fin n} {k : Nat} (hlate : 0 < (simulate ts ((k + 1) * ts.p i)).r i)
  (hfirst : (simulate ts (k * ts.p i)).r i = 0)
include hlate

theorem late_pending {u : Nat} (h1 : k * ts.p i ≤ u) (h2 : u < (k + 1) * ts.p i) :
    0 < (simulate ts u).r i + if ts.p i ∣ u then ts.e i else 0 := by
  by_cases hu : u = k * ts.p i
  · rw [if_pos (by rw [hu]; exact Nat.dvd_mul_left _ _)]
    have := ts.e_pos i
    omega
  · have hceil : (u + ts.p i - 1) / ts.p i = k + 1 := by
      have hp := ts.p_pos i
      apply Nat.div_eq_of_lt_le
      · rw [Nat.add_mul] at h2 ⊢; omega
      · rw [Nat.add_mul] at h2
        rw [Nat.add_mul, Nat.add_mul]
        omega
    have h3 := served_add_r ts i u
    have h4 := served_add_r_deadline ts i (k + 1)
    have h5 : served (ran ts (ts.a i)) i u ≤ served (ran ts (ts.a i)) i ((k + 1) * ts.p i) := served_mono (by omega)
    rw [hceil, Nat.mul_comm] at h3
    omega

include hfirst

theorem late_slots : (slots (ran ts (ts.a i)) i (k * ts.p i) ((k + 1) * ts.p i)).card < ts.e i := by
  have hle : k * ts.p i ≤ (k + 1) * ts.p i := Nat.mul_le_mul_right _ (Nat.le_succ k)
  have h1 := served_add (ran ts (ts.a i)) i hle
  have h2 := served_add_r_deadline ts i k
  have h3 := served_add_r_deadline ts i (k + 1)
  rw [Nat.add_mul k 1 (ts.e i)] at h3
  omega

/-- The demand of the tasks above a late job, and of the job itself, exceeds
every window of at most one period. -/
theorem late_demand {t : Nat} (ht : t ≤ ts.p i) :
    t < ts.e i + ∑ j ∈ above ts i, ts.e j * ((t + ts.p j - 1) / ts.p j) := by
  have hU := above_upper ts i
  have hp0 : pending ts (above ts i) 0 = 0 := by simp [pending, simulate, init]
  -- the last time up to the release at which nothing above the job was pending
  obtain ⟨s, hsA, hs0, hsmax⟩ : ∃ s ≤ k * ts.p i, pending ts (above ts i) s = 0 ∧
      ∀ u, s < u → u ≤ k * ts.p i → 0 < pending ts (above ts i) u := by
    refine ⟨Nat.findGreatest (fun s => pending ts (above ts i) s = 0) (k * ts.p i), Nat.findGreatest_le _,
      Nat.findGreatest_spec (P := fun s => pending ts (above ts i) s = 0) (Nat.zero_le _) hp0, fun u h1 h2 => ?_⟩
    exact Nat.pos_of_ne_zero (Nat.findGreatest_is_greatest (P := fun s => pending ts (above ts i) s = 0) h1 h2)
  have hD : (k + 1) * ts.p i = k * ts.p i + ts.p i := by rw [Nat.add_mul, Nat.one_mul]
  have hearly : ∀ u, s ≤ u → u < k * ts.p i → ∃ j ∈ above ts i, ran ts (ts.a i) u = some j :=
    fun u h1 h2 => hU.runs_of_pending (hsmax (u + 1) (by omega) (by omega))
  have hbusy : ∀ u, s ≤ u → u < s + t → ∃ j ∈ insert i (above ts i), ran ts (ts.a i) u = some j := by
    intro u h1 h2
    by_cases hu : u < k * ts.p i
    · obtain ⟨j, hj, hr⟩ := hearly u h1 hu
      exact ⟨j, Finset.mem_insert_of_mem hj, hr⟩
    · exact (insert_above_upper ts i).runs (Finset.mem_insert_self i _)
        (late_pending hlate (by omega) (by omega))
  have hnot : i ∉ above ts i := by simp [mem_above]
  have hsup := le_sum_slots (ran ts (ts.a i)) (insert i (above ts i)) s (s + t) hbusy
  rw [Finset.sum_insert hnot] at hsup
  have hown : (slots (ran ts (ts.a i)) i s (s + t)).card < ts.e i := by
    refine lt_of_le_of_lt (Finset.card_le_card ?_) (late_slots hlate hfirst)
    intro u hu
    obtain ⟨⟨h1, h2⟩, h3⟩ := mem_slots.mp hu
    refine mem_slots.mpr ⟨⟨?_, by omega⟩, h3⟩
    by_contra hlt
    obtain ⟨j, hj, hr⟩ := hearly u h1 (by omega)
    rw [h3] at hr
    exact hnot (Option.some.inj hr ▸ hj)
  have habove : ∑ j ∈ above ts i, (slots (ran ts (ts.a i)) j s (s + t)).card ≤
      ∑ j ∈ above ts i, ts.e j * ((t + ts.p j - 1) / ts.p j) := by
    apply Finset.sum_le_sum
    intro j hj
    have hr : (simulate ts s).r j = 0 := Finset.sum_eq_zero_iff.mp hs0 j hj
    rw [← hU.cpu j hj]
    exact slots_le ts hr t
  omega

end

/-! ## The test -/

theorem above_period {i j : Fin n} (h : j ∈ above ts i) : ts.p j ≤ ts.p i := by
  have hlt := ((mem_above ts).mp h).2
  unfold rank at hlt
  rw [Prod.Lex.toLex_lt_toLex] at hlt
  rcases hlt with h | h
  · exact le_of_lt h
  · exact le_of_eq h.1

theorem mem_onCpu {c : Fin m} {i : Fin n} : i ∈ onCpu ts c ↔ ts.a i = c := by simp [onCpu]

theorem utilization_nonneg (c : Fin m) : 0 ≤ utilization ts c :=
  Finset.sum_nonneg fun _ _ => div_nonneg (Nat.cast_nonneg _) (Nat.cast_nonneg _)

theorem rmsBound_iff {c : Fin m} (hk : 0 < (onCpu ts c).card) : utilization ts c ≤ rmsBound (onCpu ts c).card ↔
    (1 + utilization ts c / (onCpu ts c).card) ^ (onCpu ts c).card ≤ 2 := by
  unfold rmsBound
  rw [if_neg (by omega)]
  exact utilization_iff hk (utilization_nonneg ts c)

theorem no_late {c : Fin m} (hU : utilization ts c ≤ rmsBound (onCpu ts c).card) {i : Fin n} (hi : ts.a i = c) :
    ∀ k, (simulate ts (k * ts.p i)).r i = 0
  | 0 => by rw [Nat.zero_mul]; rfl
  | k + 1 => by
    have hk : 0 < (onCpu ts c).card := Finset.card_pos.mpr ⟨i, (mem_onCpu ts).mpr hi⟩
    by_contra hne
    have hlate := Nat.pos_of_ne_zero hne
    have hfirst := no_late hU hi k
    have hnot : i ∉ above ts i := by simp [mem_above]
    have hgt := hyperbolic_bound (fun j hj => ⟨ts.p_pos j, above_period ts hj⟩) (ts.p_pos i) (ts.e_pos i)
      fun t _ ht => late_demand hlate hfirst ht
    rw [← Finset.prod_insert (f := fun j => 1 + (ts.e j : ℝ) / ts.p j) hnot] at hgt
    have hsub : insert i (above ts i) ⊆ onCpu ts c := by
      intro j hj
      rw [mem_onCpu, ← hi]
      exact (insert_above_upper ts i).cpu j hj
    have hu : ∀ j, 0 ≤ (ts.e j : ℝ) / ts.p j := fun j => div_nonneg (Nat.cast_nonneg _) (Nat.cast_nonneg _)
    have hle : ∏ j ∈ insert i (above ts i), (1 + (ts.e j : ℝ) / ts.p j) ≤ ∏ j ∈ onCpu ts c, (1 + (ts.e j : ℝ) / ts.p j) :=
      Finset.prod_le_prod_of_subset_of_one_le hsub (fun j _ => by linarith [hu j]) fun j _ _ => by linarith [hu j]
    have htwo := prod_le_two (onCpu ts c) (fun j => (ts.e j : ℝ) / ts.p j) hu hk ((rmsBound_iff ts hk).mp hU)
    linarith

/-- **Soundness of the schedulability test.** The two forms of the test agree,
and on a CPU that passes it every job whose deadline lies within the simulated
length is served all its ticks between its release and its deadline. -/
theorem rms_schedulable (c : Fin m) (hk : 1 ≤ (onCpu ts c).card) :
    (utilization ts c ≤ rmsBound (onCpu ts c).card ↔
      (1 + utilization ts c / (onCpu ts c).card) ^ (onCpu ts c).card ≤ 2) ∧
    (utilization ts c ≤ rmsBound (onCpu ts c).card → ∀ i, ts.a i = c → ∀ k, (k + 1) * ts.p i ≤ hyperperiod ts →
      (simulate ts (hyperperiod ts)).given i ((k + 1) * ts.p i) = (k + 1) * ts.e i ∧
      ((Finset.Ico (k * ts.p i) ((k + 1) * ts.p i)).filter fun u =>
        (simulate ts (hyperperiod ts)).timeline c u = i + 1).card = ts.e i) := by
  refine ⟨rmsBound_iff ts hk, fun hU i hi k hle => ?_⟩
  have h1 := served_add_r_deadline ts i (k + 1)
  have h2 := served_add_r_deadline ts i k
  rw [no_late ts hU hi (k + 1)] at h1
  rw [no_late ts hU hi k] at h2
  refine ⟨by rw [given_eq ts i hle]; omega, ?_⟩
  have hslots : (Finset.Ico (k * ts.p i) ((k + 1) * ts.p i)).filter (fun u =>
      (simulate ts (hyperperiod ts)).timeline c u = i + 1) =
      slots (ran ts (ts.a i)) i (k * ts.p i) ((k + 1) * ts.p i) := by
    ext u
    rw [Finset.mem_filter, Finset.mem_Ico, mem_slots]
    refine and_congr_right fun hu => ?_
    rw [simulate_timeline ts c u _ (by omega), cell_eq_iff, hi]
  have hmono : k * ts.p i ≤ (k + 1) * ts.p i := Nat.mul_le_mul_right _ (Nat.le_succ k)
  have hadd := served_add (ran ts (ts.a i)) i hmono
  rw [hslots]
  rw [Nat.add_mul k 1 (ts.e i)] at h1
  omega

def lightPair : TaskSet 2 1 where
  e := fun _ => 1
  p := fun i => 2 * (i + 1)
  a := fun _ => 0
  e_pos := by decide
  p_pos := by decide

theorem rms_schedulable_pair :
    ((Finset.Ico 0 4).filter fun u => (simulate lightPair (hyperperiod lightPair)).timeline 0 u = 2).card = 1 := by
  have hcard : (onCpu lightPair 0).card = 2 := by decide
  have hU : utilization lightPair 0 = 3 / 4 := by
    have huniv : onCpu lightPair 0 = Finset.univ := by decide
    rw [utilization, huniv, Fin.sum_univ_two]
    simp only [lightPair]
    norm_num
  have h := rms_schedulable lightPair 0 (by rw [hcard]; decide)
  have hpass : utilization lightPair 0 ≤ rmsBound (onCpu lightPair 0).card := by
    rw [h.1, hcard, hU]
    norm_num
  have hlen : hyperperiod lightPair = 4 := by
    rw [hyperperiod_eq]
    decide
  exact (h.2 hpass 1 rfl 0 (by rw [hlen]; decide)).2

end Rms
end OsLab
