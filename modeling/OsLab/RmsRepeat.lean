import OsLab.RmsBound

/-!
# One hyperperiod of RMS

On a CPU whose utilization is at most one, an uncapped hyperperiod ends with no
work left, so the busy ticks are exactly the released work and the schedule
starts over.
-/

namespace OsLab
namespace Rms
variable {n m : Nat} (ts : TaskSet n m)

theorem onCpu_upper (c : Fin m) : Upper ts c (onCpu ts c) where
  cpu := fun _ hj => (mem_onCpu ts).mp hj
  closed := fun _ _ _ hk _ => (mem_onCpu ts).mpr hk

/-! ## Released work -/

theorem sum_release (i : Fin n) : ∀ t, (∑ u ∈ Finset.range t, if ts.p i ∣ u then ts.e i else 0) =
    ts.e i * ((t + ts.p i - 1) / ts.p i)
  | 0 => by
    have : (0 + ts.p i - 1) / ts.p i = 0 := Nat.div_eq_of_lt (by have := ts.p_pos i; omega)
    rw [this]
    rfl
  | t + 1 => by
    rw [Finset.sum_range_succ, sum_release i t, ceil_succ (ts.p_pos i), Nat.mul_add]
    by_cases hd : ts.p i ∣ t
    · rw [if_pos hd, if_pos hd, Nat.mul_one]
    · rw [if_neg hd, if_neg hd, Nat.mul_zero]

/-- A window that ends at a multiple of the period releases no more than the
task's share of it. -/
theorem window_release (i : Fin n) {s h : Nat} (hd : ts.p i ∣ h) (hs : s ≤ h) :
    ((∑ u ∈ Finset.Ico s h, if ts.p i ∣ u then ts.e i else 0 : Nat) : ℝ) ≤ (ts.e i : ℝ) / ts.p i * (h - s) := by
  obtain ⟨k, rfl⟩ := hd
  have hp := ts.p_pos i
  have hsum := Finset.sum_range_add_sum_Ico (fun u => if ts.p i ∣ u then ts.e i else 0) hs
  have hk : (ts.p i * k + ts.p i - 1) / ts.p i = k := by
    rw [Nat.add_sub_assoc hp, Nat.mul_add_div hp, Nat.div_eq_of_lt (by omega), Nat.add_zero]
  rw [sum_release, sum_release, hk] at hsum
  -- the releases before `s` cover `s`
  have hceil : s ≤ (s + ts.p i - 1) / ts.p i * ts.p i := by
    have := Nat.lt_div_mul_add (a := s + ts.p i - 1) hp
    omega
  generalize (s + ts.p i - 1) / ts.p i = q at hsum hceil
  generalize (∑ u ∈ Finset.Ico s (ts.p i * k), if ts.p i ∣ u then ts.e i else 0) = x at hsum ⊢
  have hp' : (0 : ℝ) < ts.p i := by exact_mod_cast hp
  have hsum' : (ts.e i : ℝ) * q + x = ts.e i * k := by exact_mod_cast hsum
  have hceil' : (s : ℝ) ≤ q * ts.p i := by exact_mod_cast hceil
  rw [div_mul_eq_mul_div, le_div_iff₀ hp']
  push_cast
  nlinarith [mul_le_mul_of_nonneg_left hceil' (Nat.cast_nonneg (α := ℝ) (ts.e i))]

/-! ## The end of a hyperperiod -/

section
variable {c : Fin m} (hU : utilization ts c ≤ 1) {h : Nat} (hd : ∀ i, ts.a i = c → ts.p i ∣ h)
include hU hd

theorem backlog_hyperperiod : backlog (arrivals ts (onCpu ts c)) h = 0 := by
  obtain ⟨s, hs, e⟩ := exists_backlog (arrivals ts (onCpu ts c)) h
  have key : ((∑ u ∈ Finset.Ico s h, arrivals ts (onCpu ts c) u : Nat) : ℝ) ≤ ((h - s : Nat) : ℝ) := by
    unfold arrivals
    rw [Finset.sum_comm, Nat.cast_sum, Nat.cast_sub hs]
    calc ∑ j ∈ onCpu ts c, ((∑ u ∈ Finset.Ico s h, if ts.p j ∣ u then ts.e j else 0 : Nat) : ℝ)
        ≤ ∑ j ∈ onCpu ts c, (ts.e j : ℝ) / ts.p j * (h - s) :=
          Finset.sum_le_sum fun j hj => window_release ts j (hd j ((mem_onCpu ts).mp hj)) hs
      _ = utilization ts c * (h - s) := by rw [utilization, Finset.sum_mul]
      _ ≤ 1 * ((h : ℝ) - s) := by
          have : (s : ℝ) ≤ h := by exact_mod_cast hs
          exact mul_le_mul_of_nonneg_right hU (by linarith)
      _ = (h : ℝ) - s := one_mul _
  have key' : ∑ u ∈ Finset.Ico s h, arrivals ts (onCpu ts c) u ≤ h - s := by exact_mod_cast key
  rw [e]
  omega

theorem hyperperiod_r {i : Fin n} (hi : ts.a i = c) : (simulate ts h).r i = 0 := by
  have hp : pending ts (onCpu ts c) h = 0 := by
    rw [(onCpu_upper ts c).pending_eq]
    exact backlog_hyperperiod ts hU hd
  exact Finset.sum_eq_zero_iff.mp hp i ((mem_onCpu ts).mpr hi)

end

/-! ## Busy ticks -/

theorem simulate_busy (c : Fin m) : ∀ t, (simulate ts t).busy c = ∑ j ∈ onCpu ts c, served (ran ts c) j t
  | 0 => by simp [simulate, init, served, slots]
  | t + 1 => by
    have h1 := (runAll_spec ts t (releaseAll ts t (simulate ts t))).busy c
    have h2 := (releaseAll_spec ts t (simulate ts t)).busy
    rw [← simulate_succ, h2, simulate_busy c t] at h1
    simp only [List.mem_finRange, true_and] at h1
    rw [h1]
    simp only [served_succ, Finset.sum_add_distrib]
    congr 1
    cases hr : ran ts c t with
    | none =>
      have hr' : pick ts (releaseAll ts t (simulate ts t)) c = none := hr
      simp [hr']
    | some k =>
      have hr' : pick ts (releaseAll ts t (simulate ts t)) c = some k := hr
      have hk : k ∈ onCpu ts c := (mem_onCpu ts).mpr (ran_some ts hr).1
      rw [hr', Finset.sum_eq_single k]
      · simp
      · intro j _ hj
        rw [if_neg fun e => hj (Option.some.inj e).symm]
      · exact fun hn => absurd hk hn

/-! ## The next hyperperiod -/

section
variable {ts} {c : Fin m} {h : Nat} (hd : ∀ i, ts.a i = c → ts.p i ∣ h)
include hd

theorem release_repeat {i : Fin n} (hi : ts.a i = c) (t : Nat) :
    (if ts.p i ∣ t + h then ts.e i else 0) = if ts.p i ∣ t then ts.e i else 0 := by
  simp only [Nat.dvd_add_left (hd i hi)]

theorem ran_repeat {t : Nat} (hr : ∀ i, ts.a i = c → (simulate ts (t + h)).r i = (simulate ts t).r i) :
    ran ts c (t + h) = ran ts c t := by
  apply pick_congr
  intro j hj
  rw [release_r, release_r, hr j hj, release_repeat hd hj]

/-- From a time at which the tasks of `c` have nothing left, and which all
their periods divide, they go through the same remaining times again. -/
theorem simulate_repeat (h0 : ∀ i, ts.a i = c → (simulate ts h).r i = 0) :
    ∀ t i, ts.a i = c → (simulate ts (t + h)).r i = (simulate ts t).r i
  | 0, i, hi => by rw [Nat.zero_add, h0 i hi]; rfl
  | t + 1, i, hi => by
    have ih := simulate_repeat h0 t
    have h1 := simulate_r ts (t + h) i
    have h2 := simulate_r ts t i
    rw [hi, ran_repeat hd ih, ih i hi, release_repeat hd hi, ← h2, hi] at h1
    rw [show t + 1 + h = t + h + 1 by omega]
    exact Nat.add_right_cancel h1

end

/-- **One hyperperiod.** When the simulated length is the least common multiple
of the periods and the utilization of CPU `c` is at most one, the simulation
ends with no work left on `c`, the busy ticks of `c` are the work released in
the hyperperiod, and continuing the loop repeats the timeline. -/
theorem rms_hyperperiod (hcap : Finset.univ.lcm ts.p ≤ maxTime) (c : Fin m) (hU : utilization ts c ≤ 1) :
    hyperperiod ts = Finset.univ.lcm ts.p ∧
    (∀ i, ts.a i = c → (simulate ts (hyperperiod ts)).r i = 0) ∧
    (simulate ts (hyperperiod ts)).busy c = ∑ i ∈ onCpu ts c, ts.e i * (hyperperiod ts / ts.p i) ∧
    ((simulate ts (hyperperiod ts)).busy c : ℝ) / hyperperiod ts = utilization ts c ∧
    ∀ t T, t + hyperperiod ts < T →
      (simulate ts T).timeline c (t + hyperperiod ts) = (simulate ts T).timeline c t := by
  have hh : hyperperiod ts = Finset.univ.lcm ts.p := by
    rw [hyperperiod_eq, Nat.min_eq_left hcap]
  have hpos := hyperperiod_pos ts
  have hd : ∀ i, ts.p i ∣ hyperperiod ts := by
    intro i
    rw [hh]
    exact Finset.dvd_lcm (Finset.mem_univ i)
  generalize hyperperiod ts = h at hh hpos hd
  have h0 : ∀ i, ts.a i = c → (simulate ts h).r i = 0 := fun i hi => hyperperiod_r ts hU (fun j _ => hd j) hi
  have hbusy : (simulate ts h).busy c = ∑ i ∈ onCpu ts c, ts.e i * (h / ts.p i) := by
    rw [simulate_busy]
    apply Finset.sum_congr rfl
    intro i hi
    have hi := (mem_onCpu ts).mp hi
    have hs := served_add_r_deadline ts i (h / ts.p i)
    rw [Nat.div_mul_cancel (hd i), h0 i hi, hi, Nat.add_zero] at hs
    rw [hs, Nat.mul_comm]
  refine ⟨hh, h0, hbusy, ?_, fun t T ht => ?_⟩
  · rw [hbusy, Nat.cast_sum, Finset.sum_div, utilization]
    apply Finset.sum_congr rfl
    intro i _
    have hh' : (h : ℝ) ≠ 0 := by exact_mod_cast (Nat.pos_iff_ne_zero.mp hpos)
    have hp' : (ts.p i : ℝ) ≠ 0 := by exact_mod_cast (Nat.pos_iff_ne_zero.mp (ts.p_pos i))
    rw [Nat.cast_mul, Nat.cast_div (hd i) hp']
    field_simp
  · rw [simulate_timeline ts c _ T ht, simulate_timeline ts c t T (by omega),
      ran_repeat (fun j _ => hd j) (simulate_repeat (fun j _ => hd j) h0 t)]

theorem rms_hyperperiod_pair : (simulate lightPair (hyperperiod lightPair)).busy 0 = 3 ∧
    (simulate lightPair 9).timeline 0 8 = (simulate lightPair 9).timeline 0 4 := by
  have hU : utilization lightPair 0 ≤ 1 := by
    have huniv : onCpu lightPair 0 = Finset.univ := by decide
    rw [utilization, huniv, Fin.sum_univ_two]
    simp only [lightPair]
    norm_num
  have hlen : hyperperiod lightPair = 4 := by
    rw [hyperperiod_eq]
    decide
  obtain ⟨_, _, hbusy, _, hrep⟩ := rms_hyperperiod lightPair (by decide) 0 hU
  rw [hlen] at hbusy hrep ⊢
  refine ⟨?_, hrep 4 9 (by decide)⟩
  rw [hbusy]
  decide

end Rms
end OsLab
