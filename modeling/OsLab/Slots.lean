import Mathlib.Algebra.BigOperators.Intervals
import Mathlib.Algebra.Order.BigOperators.Group.Finset
import Mathlib.Data.Finset.Lattice.Fold
import Mathlib.Order.Interval.Finset.Nat
import Mathlib.Order.Lattice.Nat

/-!
# Slots and backlog of a processor

A schedule of one processor says which job each tick serves. The slots of jobs in a
window are counted and compared with its length. When work arrives in units, `A t` of
them at tick `t`, and the processor is never idle while there is work, what is left at
time `t` is the largest excess of the arrivals of a window `[s, t)` over its length.
-/

namespace OsLab

section
variable {ι : Type} [DecidableEq ι]

def slots (σ : ℕ → Option ι) (i : ι) (a b : ℕ) : Finset ℕ := (Finset.Ico a b).filter fun u => σ u = some i

def served (σ : ℕ → Option ι) (i : ι) (t : ℕ) : ℕ := (slots σ i 0 t).card

theorem mem_slots {σ : ℕ → Option ι} {i : ι} {a b u : ℕ} : u ∈ slots σ i a b ↔ (a ≤ u ∧ u < b) ∧ σ u = some i := by
  simp [slots]

theorem slots_mono {σ : ℕ → Option ι} {i : ι} {a a' b b' : ℕ} (ha : a' ≤ a) (hb : b ≤ b') :
    slots σ i a b ⊆ slots σ i a' b' := by
  intro u hu
  rw [mem_slots] at hu ⊢
  exact ⟨⟨by omega, by omega⟩, hu.2⟩

theorem served_mono {σ : ℕ → Option ι} {i : ι} {t t' : ℕ} (h : t ≤ t') : served σ i t ≤ served σ i t' :=
  Finset.card_le_card (slots_mono (Nat.le_refl 0) h)

theorem slots_succ (σ : ℕ → Option ι) (i : ι) (t : ℕ) :
    slots σ i 0 (t + 1) = if σ t = some i then insert t (slots σ i 0 t) else slots σ i 0 t := by
  ext u
  split
  · rename_i ht
    rw [Finset.mem_insert, mem_slots, mem_slots]
    by_cases hu : u = t
    · subst hu; simp [ht]
    · simp only [hu, false_or]
      constructor <;> exact fun h => ⟨⟨h.1.1, by omega⟩, h.2⟩
  · rename_i ht
    rw [mem_slots, mem_slots]
    constructor
    · intro h
      have : u ≠ t := fun e => ht (e ▸ h.2)
      exact ⟨⟨h.1.1, by omega⟩, h.2⟩
    · exact fun h => ⟨⟨h.1.1, by omega⟩, h.2⟩

theorem served_succ (σ : ℕ → Option ι) (i : ι) (t : ℕ) :
    served σ i (t + 1) = served σ i t + if σ t = some i then 1 else 0 := by
  unfold served
  rw [slots_succ]
  split
  · rw [Finset.card_insert_of_notMem (by simp [mem_slots])]
  · rfl

theorem served_congr {σ σ' : ℕ → Option ι} {t : ℕ} (h : ∀ u < t, σ u = σ' u) (i : ι) : served σ i t = served σ' i t := by
  unfold served
  congr 1
  ext u
  rw [mem_slots, mem_slots]
  exact and_congr_right fun hu => by rw [h u hu.2]

theorem served_add (σ : ℕ → Option ι) (i : ι) {a b : ℕ} (h : a ≤ b) :
    served σ i a + (slots σ i a b).card = served σ i b := by
  unfold served
  rw [← Finset.card_union_of_disjoint]
  · congr 1
    ext u
    rw [Finset.mem_union, mem_slots, mem_slots, mem_slots, ← or_and_right]
    exact and_congr_left fun _ => by omega
  · rw [Finset.disjoint_left]
    intro u h1 h2
    have := (mem_slots.mp h1).1
    have := (mem_slots.mp h2).1
    omega

/-! ## Supply -/

theorem slots_disjoint (σ : ℕ → Option ι) (a b : ℕ) {i j : ι} (h : i ≠ j) :
    Disjoint (slots σ i a b) (slots σ j a b) := by
  rw [Finset.disjoint_left]
  intro u hi hj
  exact h (Option.some.inj ((mem_slots.mp hi).2.symm.trans (mem_slots.mp hj).2))

theorem sum_slots_le (σ : ℕ → Option ι) (S : Finset ι) (a b : ℕ) : ∑ j ∈ S, (slots σ j a b).card ≤ b - a := by
  rw [← Finset.card_biUnion fun i _ j _ h => slots_disjoint σ a b h, ← Nat.card_Ico a b]
  apply Finset.card_le_card
  intro u hu
  obtain ⟨j, _, hj⟩ := Finset.mem_biUnion.mp hu
  exact Finset.mem_Ico.mpr (mem_slots.mp hj).1

theorem le_sum_slots (σ : ℕ → Option ι) (S : Finset ι) (a b : ℕ)
    (h : ∀ u, a ≤ u → u < b → ∃ j ∈ S, σ u = some j) : b - a ≤ ∑ j ∈ S, (slots σ j a b).card := by
  rw [← Nat.card_Ico a b]
  refine le_trans (Finset.card_le_card ?_) Finset.card_biUnion_le
  intro u hu
  have hu := Finset.mem_Ico.mp hu
  obtain ⟨j, hjS, hj⟩ := h u hu.1 hu.2
  exact Finset.mem_biUnion.mpr ⟨j, hjS, mem_slots.mpr ⟨hu, hj⟩⟩

end

/-! ## Backlog -/

/-- The largest excess of arrivals over ticks in a window that ends at `t`. -/
def backlog (A : ℕ → ℕ) (t : ℕ) : ℕ := (Finset.range (t + 1)).sup fun s => (∑ u ∈ Finset.Ico s t, A u) - (t - s)

section
variable (A : ℕ → ℕ)

theorem le_backlog {s t : ℕ} (h : s ≤ t) : (∑ u ∈ Finset.Ico s t, A u) - (t - s) ≤ backlog A t :=
  Finset.le_sup (f := fun s => (∑ u ∈ Finset.Ico s t, A u) - (t - s)) (Finset.mem_range.mpr (by omega))

theorem exists_backlog (t : ℕ) : ∃ s ≤ t, backlog A t = (∑ u ∈ Finset.Ico s t, A u) - (t - s) := by
  obtain ⟨s, hs, e⟩ := Finset.exists_mem_eq_sup (Finset.range (t + 1)) ⟨0, by simp⟩
    fun s => (∑ u ∈ Finset.Ico s t, A u) - (t - s)
  exact ⟨s, by have := Finset.mem_range.mp hs; omega, e⟩

theorem backlog_zero : backlog A 0 = 0 := by simp [backlog]

theorem backlog_succ (t : ℕ) : backlog A (t + 1) = backlog A t + A t - 1 := by
  apply le_antisymm
  · obtain ⟨s, hs, e⟩ := exists_backlog A (t + 1)
    rw [e]
    by_cases hst : s ≤ t
    · have h := le_backlog A hst
      rw [Finset.sum_Ico_succ_top hst]
      omega
    · have : s = t + 1 := by omega
      subst this
      simp
  · obtain ⟨s, hs, e⟩ := exists_backlog A t
    by_cases h0 : backlog A t = 0
    · -- an empty server: the window that starts at `t`
      have h := le_backlog A (Nat.le_succ t)
      rw [Nat.succ_eq_add_one, Finset.sum_Ico_succ_top (Nat.le_refl t)] at h
      simp only [Finset.Ico_self, Finset.sum_empty] at h
      omega
    · have h := le_backlog A (Nat.le_succ_of_le hs)
      rw [Nat.succ_eq_add_one, Finset.sum_Ico_succ_top hs] at h
      omega

theorem eq_backlog {X : ℕ → ℕ} (h0 : X 0 = 0) (hs : ∀ t, X (t + 1) = X t + A t - 1) : ∀ t, X t = backlog A t
  | 0 => by rw [h0, backlog_zero]
  | t + 1 => by rw [hs, backlog_succ, eq_backlog h0 hs t]

end

end OsLab
