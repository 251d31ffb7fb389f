import Mathlib.Data.Fintype.Basic
import OsLab.Slots

/-!
# Optimality of EDF on one processor

A schedule that serves an earliest deadline among the pending jobs meets every
deadline up to its horizon, as soon as some schedule meets them all. If it left `i`
unfinished at its deadline, look back to the last tick that did not serve a deadline
up to that of `i`: the jobs served since then were released since then, and they ask
for more ticks than there are.
-/

namespace OsLab

section
variable {ι : Type} [DecidableEq ι] (arr dl burst : ι → ℕ)

structure EdfSchedule (σ : ℕ → Option ι) (H : ℕ) : Prop where
  valid : ∀ u < H, ∀ i, σ u = some i → arr i ≤ u ∧ served σ i u < burst i
  edf : ∀ u < H, ∀ j, arr j ≤ u → served σ j u < burst j → ∃ i, σ u = some i ∧ dl i ≤ dl j

def Feasible (φ : ℕ → Option ι) : Prop := ∀ i, burst i ≤ (slots φ i (arr i) (dl i)).card

variable {arr dl burst} {σ φ : ℕ → Option ι} {H : ℕ}

theorem EdfSchedule.served_le (h : EdfSchedule arr dl burst σ H) (i : ι) : ∀ t ≤ H, served σ i t ≤ burst i
  | 0, _ => by simp [served, slots]
  | t + 1, ht => by
    rw [served_succ]
    split
    · rename_i hs
      exact (h.valid t (by omega) i hs).2
    · exact h.served_le i t (by omega)

/-- Look back from `d` to the last tick that did not serve a deadline up to
`d`: what has been served since was also released since. -/
theorem EdfSchedule.busy_since (h : EdfSchedule arr dl burst σ H) {d : ℕ} (hd : d ≤ H) :
    ∃ t₀, (∀ u, t₀ ≤ u → u < d → ∃ j, σ u = some j ∧ t₀ ≤ arr j ∧ dl j ≤ d) ∧
      ∀ t, (∀ u, t ≤ u → u < d → ∃ j, σ u = some j ∧ dl j ≤ d) → t₀ ≤ t := by
  classical
  have hex : ∃ t, ∀ u, t ≤ u → u < d → ∃ j, σ u = some j ∧ dl j ≤ d :=
    ⟨d, fun u h1 h2 => absurd h2 (by omega)⟩
  refine ⟨Nat.find hex, fun u hu hud => ?_, fun t ht => Nat.find_min' hex ht⟩
  obtain ⟨j, hj, hjd⟩ := Nat.find_spec hex u hu hud
  refine ⟨j, hj, ?_, hjd⟩
  -- otherwise `j` was pending at the tick before, which then served such a deadline too
  by_contra hlt
  rw [not_le] at hlt
  apply Nat.find_min hex (m := Nat.find hex - 1) (by omega)
  intro v hv hvd
  by_cases hvf : v = Nat.find hex - 1
  · have hju := (h.valid u (by omega) j hj).2
    have hmono : served σ j v ≤ served σ j u := served_mono (by omega)
    obtain ⟨k, hk, hkj⟩ := h.edf v (by omega) j (by omega) (by omega)
    exact ⟨k, hk, by omega⟩
  · exact Nat.find_spec hex v (by omega) hvd

variable [Fintype ι]

theorem EdfSchedule.meets (h : EdfSchedule arr dl burst σ H) (hφ : Feasible arr dl burst φ) {i : ι} (hi : dl i ≤ H) :
    burst i ≤ served σ i (dl i) := by
  by_contra hlt
  rw [not_le] at hlt
  obtain ⟨t₀, hbusy, hleast⟩ := h.busy_since hi
  have hrel : t₀ ≤ arr i := by
    apply hleast
    intro u h1 h2
    have : served σ i u ≤ served σ i (dl i) := served_mono (by omega)
    exact h.edf u (by omega) i h1 (by omega)
  let S : Finset ι := Finset.univ.filter fun j => t₀ ≤ arr j ∧ dl j ≤ dl i
  have hS : ∀ j, j ∈ S ↔ t₀ ≤ arr j ∧ dl j ≤ dl i := fun j => by simp [S]
  have supply : dl i - t₀ ≤ ∑ j ∈ S, (slots σ j t₀ (dl i)).card := by
    apply le_sum_slots
    intro u h1 h2
    obtain ⟨j, hj, ha, hd⟩ := hbusy u h1 h2
    exact ⟨j, (hS j).mpr ⟨ha, hd⟩, hj⟩
  have used : ∑ j ∈ S, (slots σ j t₀ (dl i)).card < ∑ j ∈ S, burst j := by
    have hslot : ∀ j, (slots σ j t₀ (dl i)).card ≤ served σ j (dl i) :=
      fun j => Finset.card_le_card (slots_mono (Nat.zero_le _) (Nat.le_refl _))
    apply Finset.sum_lt_sum
    · exact fun j _ => le_trans (hslot j) (h.served_le j _ hi)
    · exact ⟨i, (hS i).mpr ⟨hrel, Nat.le_refl _⟩, lt_of_le_of_lt (hslot i) hlt⟩
  have demand : ∑ j ∈ S, burst j ≤ dl i - t₀ := by
    refine le_trans (Finset.sum_le_sum fun j hj => ?_) (sum_slots_le φ S t₀ (dl i))
    obtain ⟨ha, hd⟩ := (hS j).mp hj
    exact le_trans (hφ j) (Finset.card_le_card (slots_mono ha hd))
  omega

theorem EdfSchedule.before_deadline (h : EdfSchedule arr dl burst σ H) (hφ : Feasible arr dl burst φ) {i : ι} {u : ℕ}
    (hu : u < H) (hs : σ u = some i) : u < dl i := by
  by_contra hle
  rw [not_lt] at hle
  have h1 := h.meets hφ (i := i) (by omega)
  have h2 := (h.valid u hu i hs).2
  have h3 : served σ i (dl i) ≤ served σ i u := served_mono hle
  omega

end

end OsLab
