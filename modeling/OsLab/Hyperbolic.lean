import Mathlib.Analysis.MeanInequalities
import Mathlib.Data.Finset.Max

/-!
# The hyperbolic utilization bound

Tasks `j ∈ S` ask for `e j` ticks every `p j` ticks, and one more task asks for
`e₀` ticks in `T ≥ p j` ticks. If the demand exceeds every `t ≤ T`, then
`(1 + e₀ / T) * ∏ (1 + e j / p j) > 2`. A utilization of at most
`k (2 ^ (1 / k) - 1)` excludes that.
-/

namespace OsLab

section
variable {ι : Type} {S : Finset ι} {e p : ι → ℕ} {T e₀ : ℕ}

def lastRelease (p : ι → ℕ) (T : ℕ) (j : ι) : ℕ := T / p j * p j

theorem ceil_le {p T t : ℕ} (hp : 0 < p) (ht : t ≤ T) :
    (t + p - 1) / p ≤ T / p + if T / p * p < t then 1 else 0 := by
  apply Nat.le_of_lt_succ
  rw [Nat.div_lt_iff_lt_mul hp]
  have hT := Nat.lt_div_mul_add (a := T) hp
  split
  · rw [Nat.succ_eq_add_one, Nat.add_mul, Nat.add_mul]
    omega
  · rw [Nat.succ_eq_add_one, Nat.add_zero, Nat.add_mul]
    omega

theorem demand_lt (hp : ∀ j ∈ S, 0 < p j ∧ p j ≤ T)
    (h : ∀ t, 0 < t → t ≤ T → t < e₀ + ∑ j ∈ S, e j * ((t + p j - 1) / p j)) {t : ℕ} (h0 : 0 < t) (ht : t ≤ T) :
    t < e₀ + ∑ j ∈ S, e j * (T / p j) + ∑ j ∈ S with lastRelease p T j < t, e j := by
  apply lt_of_lt_of_le (h t h0 ht)
  rw [Nat.add_assoc, Finset.sum_filter, ← Finset.sum_add_distrib]
  apply Nat.add_le_add_left
  apply Finset.sum_le_sum
  intro j hj
  have := Nat.mul_le_mul_left (e j) (ceil_le (hp j hj).1 ht)
  rw [Nat.mul_add, mul_ite, Nat.mul_one, Nat.mul_zero] at this
  exact this

theorem hyperbolic_bound [DecidableEq ι] (hp : ∀ j ∈ S, 0 < p j ∧ p j ≤ T) (hT : 0 < T) (he : 0 < e₀)
    (h : ∀ t, 0 < t → t ≤ T → t < e₀ + ∑ j ∈ S, e j * ((t + p j - 1) / p j)) :
    2 < (1 + (e₀ : ℝ) / T) * ∏ j ∈ S, (1 + (e j : ℝ) / p j) := by
  let u : ι → ℝ := fun j => (e j : ℝ) / p j
  let τ : ι → ℕ := lastRelease p T
  let W : ℝ := ∑ j ∈ S, u j * τ j
  let C : ℝ := e₀ + W
  have hu : ∀ j, 0 ≤ u j := fun j => by positivity
  have huτ : ∀ j ∈ S, u j * τ j = (e j * (T / p j) : ℕ) := by
    intro j hj
    have : (p j : ℝ) ≠ 0 := by have := (hp j hj).1; positivity
    simp only [u, τ, lastRelease]
    push_cast
    field_simp
  have heτ : ∀ j ∈ S, (e j : ℝ) ≤ u j * τ j := by
    intro j hj
    rw [huτ j hj]
    have : 1 ≤ T / p j := Nat.div_pos (hp j hj).2 (hp j hj).1
    exact_mod_cast Nat.le_mul_of_pos_right (e j) this
  have hC : 0 < C := by
    have hW : 0 ≤ W := Finset.sum_nonneg fun j _ => mul_nonneg (hu j) (Nat.cast_nonneg _)
    have : (0 : ℝ) < e₀ := by exact_mod_cast he
    simp only [C]
    linarith
  -- the demand at `t` is below `C` plus the tasks released last before `t`
  have hdem : ∀ t : ℕ, 0 < t → t ≤ T → ∀ J ⊆ S, (∀ j ∈ S, τ j < t → j ∈ J) →
      (t : ℝ) < C + ∑ j ∈ J, u j * τ j := by
    intro t h0 ht J hJ hcl
    have h1 := demand_lt hp h h0 ht
    have h2 : ((∑ j ∈ S with lastRelease p T j < t, e j : ℕ) : ℝ) ≤ ∑ j ∈ J, u j * τ j := by
      push_cast
      refine le_trans (Finset.sum_le_sum fun j hj => heτ j (Finset.mem_filter.mp hj).1) ?_
      apply Finset.sum_le_sum_of_subset_of_nonneg
      · intro j hj
        obtain ⟨hjS, hjt⟩ := Finset.mem_filter.mp hj
        exact hcl j hjS hjt
      · exact fun j _ _ => mul_nonneg (hu j) (Nat.cast_nonneg _)
    have h3 : C = ((e₀ + ∑ j ∈ S, e j * (T / p j) : ℕ) : ℝ) := by
      simp only [C, W]
      rw [Finset.sum_congr rfl huτ]
      push_cast
      ring
    calc (t : ℝ) < ((e₀ + ∑ j ∈ S, e j * (T / p j) + ∑ j ∈ S with lastRelease p T j < t, e j : ℕ) : ℝ) := by
          exact_mod_cast h1
      _ = C + ((∑ j ∈ S with lastRelease p T j < t, e j : ℕ) : ℝ) := by rw [h3]; push_cast; ring
      _ ≤ C + ∑ j ∈ J, u j * τ j := by linarith
  -- by induction over the tasks in the order of their last releases
  have hprod : ∀ J : Finset ι, J ⊆ S → (∀ l ∈ J, ∀ j ∈ S, τ j < τ l → j ∈ J) →
      C + ∑ j ∈ J, u j * τ j ≤ C * ∏ j ∈ J, (1 + u j) := by
    intro J
    induction J using Finset.induction_on_max_value τ with
    | empty => intro _ _; simp
    | insert a s ha hmax ih =>
      intro hJ hcl
      have hs : s ⊆ S := fun j hj => hJ (Finset.mem_insert_of_mem hj)
      have haS : a ∈ S := hJ (Finset.mem_insert_self a s)
      have hbelow : ∀ j ∈ S, τ j < τ a → j ∈ s := by
        intro j hj hlt
        rcases Finset.mem_insert.mp (hcl a (Finset.mem_insert_self a s) j hj hlt) with rfl | hjs
        · omega
        · exact hjs
      have ih := ih hs fun l hl j hj hlt => hbelow j hj (lt_of_lt_of_le hlt (hmax l hl))
      have hτa : 0 < τ a ∧ τ a ≤ T :=
        ⟨Nat.mul_pos (Nat.div_pos (hp a haS).2 (hp a haS).1) (hp a haS).1, Nat.div_mul_le_self T (p a)⟩
      have hlt := hdem (τ a) hτa.1 hτa.2 s hs hbelow
      rw [Finset.sum_insert ha, Finset.prod_insert ha]
      calc C + (u a * τ a + ∑ j ∈ s, u j * τ j)
          ≤ (1 + u a) * (C + ∑ j ∈ s, u j * τ j) := by nlinarith [hu a]
        _ ≤ (1 + u a) * (C * ∏ j ∈ s, (1 + u j)) :=
            mul_le_mul_of_nonneg_left ih (by linarith [hu a])
        _ = C * ((1 + u a) * ∏ j ∈ s, (1 + u j)) := by ring
  have hall : C + W ≤ C * ∏ j ∈ S, (1 + u j) := hprod S (Finset.Subset.refl S) fun _ _ j hj _ => hj
  have hTlt : (T : ℝ) < C + W := hdem T hT (Nat.le_refl T) S (Finset.Subset.refl S) fun j hj _ => hj
  have hTpos : (0 : ℝ) < T := by exact_mod_cast hT
  have hu0 : 0 < (e₀ : ℝ) / T := div_pos (by exact_mod_cast he) hTpos
  have he0 : (e₀ : ℝ) = e₀ / T * T := by field_simp
  have key : C * 2 < C * ((1 + (e₀ : ℝ) / T) * ∏ j ∈ S, (1 + u j)) := by
    calc C * 2 = (C + W) + e₀ / T * T := by rw [← he0]; simp only [C]; ring
      _ < (C + W) + e₀ / T * (C + W) := by nlinarith
      _ = (1 + (e₀ : ℝ) / T) * (C + W) := by ring
      _ ≤ (1 + (e₀ : ℝ) / T) * (C * ∏ j ∈ S, (1 + u j)) := mul_le_mul_of_nonneg_left hall (by linarith)
      _ = C * ((1 + (e₀ : ℝ) / T) * ∏ j ∈ S, (1 + u j)) := by ring
  exact lt_of_mul_lt_mul_left key hC.le

end

/-! ## The utilization bound -/

/-- `1 + U / k` to the power `k` is at most 2 exactly when `U` is at most the
utilization bound. -/
theorem utilization_iff {k : ℕ} (hk : 0 < k) {U : ℝ} (hU : 0 ≤ U) :
    U ≤ k * ((2 : ℝ) ^ (1 / (k : ℝ)) - 1) ↔ (1 + U / k) ^ k ≤ 2 := by
  have hk' : (0 : ℝ) < k := by exact_mod_cast hk
  have hpos : 0 ≤ 1 + U / k := by positivity
  have h1 : U ≤ k * ((2 : ℝ) ^ (1 / (k : ℝ)) - 1) ↔ 1 + U / k ≤ (2 : ℝ) ^ (1 / (k : ℝ)) := by
    rw [← le_sub_iff_add_le', div_le_iff₀ hk', mul_comm]
  rw [h1, one_div, Real.le_rpow_inv_iff_of_pos hpos (by norm_num) hk', Real.rpow_natCast]

theorem prod_le_two {ι : Type} (S : Finset ι) (u : ι → ℝ) (hu : ∀ j, 0 ≤ u j) (hS : 0 < S.card)
    (h : (1 + (∑ j ∈ S, u j) / S.card) ^ S.card ≤ 2) : ∏ j ∈ S, (1 + u j) ≤ 2 := by
  have hc : (0 : ℝ) < S.card := by exact_mod_cast hS
  have hnn : ∀ j ∈ S, 0 ≤ 1 + u j := fun j _ => by linarith [hu j]
  have amgm := Real.geom_mean_le_arith_mean S (fun _ => (1 : ℝ)) (fun j => 1 + u j) (fun _ _ => zero_le_one)
    (by simpa using hc) hnn
  simp only [Real.rpow_one, one_mul, Finset.sum_const, nsmul_eq_mul, mul_one, Finset.sum_add_distrib] at amgm
  have hprod : 0 ≤ ∏ j ∈ S, (1 + u j) := Finset.prod_nonneg hnn
  have hmean : (S.card + ∑ j ∈ S, u j) / S.card = 1 + (∑ j ∈ S, u j) / S.card := by field_simp
  rw [hmean] at amgm
  calc ∏ j ∈ S, (1 + u j) = ((∏ j ∈ S, (1 + u j)) ^ ((S.card : ℝ)⁻¹)) ^ S.card := by
        rw [← Real.rpow_natCast, ← Real.rpow_mul hprod, inv_mul_cancel₀ hc.ne', Real.rpow_one]
    _ ≤ (1 + (∑ j ∈ S, u j) / S.card) ^ S.card :=
        pow_le_pow_left₀ (Real.rpow_nonneg hprod _) amgm _
    _ ≤ 2 := h

end OsLab
