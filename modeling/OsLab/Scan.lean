import Mathlib.Order.Basic
import Mathlib.Data.Prod.Lex
import OsLab.Loop

/-!
# Minimum scans

The loop `best = -1; for each i: if candidate and better than best, best = i`
as a left fold. Schedulers keep the best key in a second variable that starts
at a sentinel; `scanMin` is the fold without it.
-/

namespace OsLab

section
variable {α κ : Type} [LinearOrder κ] (cand : α → Bool) (key : α → κ)

def scanMin (best : Option α) (i : α) : Option α :=
  if cand i then
    match best with
    | none => some i
    | some b => if key i < key b then some i else some b
  else best

/-- What the scan has found after `l`: nothing, if `l` has no candidate, or
else a candidate of least key. -/
theorem scanMin_spec (l : List α) :
    (l.foldl (scanMin cand key) none = none → ∀ i ∈ l, cand i = false) ∧
    ∀ b, l.foldl (scanMin cand key) none = some b →
      b ∈ l ∧ cand b = true ∧ ∀ i ∈ l, cand i = true → key b ≤ key i := by
  refine foldl_range (f := scanMin cand key)
    (P := fun l r => (r = none → ∀ i ∈ l, cand i = false) ∧
      ∀ b, r = some b → b ∈ l ∧ cand b = true ∧ ∀ i ∈ l, cand i = true → key b ≤ key i) l
    ⟨fun _ _ hi => (by cases hi), fun _ h => by cases h⟩ ?_
  intro l i r _ ⟨hnone, hsome⟩
  by_cases hi : cand i = true
  · cases r with
    | none =>
      simp only [scanMin, hi, if_true]
      refine ⟨nofun, fun b hb => ?_⟩
      obtain rfl := Option.some.inj hb
      refine ⟨by simp, hi, fun j hj hc => ?_⟩
      rcases List.mem_append.mp hj with hj | hj
      · rw [hnone rfl j hj] at hc; cases hc
      · rw [List.mem_singleton.mp hj]
    | some b₀ =>
      obtain ⟨hm, hc₀, hle⟩ := hsome b₀ rfl
      simp only [scanMin, hi, if_true]
      by_cases hlt : key i < key b₀
      · rw [if_pos hlt]
        refine ⟨nofun, fun b hb => ?_⟩
        obtain rfl := Option.some.inj hb
        refine ⟨by simp, hi, fun j hj hc => ?_⟩
        rcases List.mem_append.mp hj with hj | hj
        · exact le_trans (le_of_lt hlt) (hle j hj hc)
        · rw [List.mem_singleton.mp hj]
      · rw [if_neg hlt]
        refine ⟨nofun, fun b hb => ?_⟩
        obtain rfl := Option.some.inj hb
        refine ⟨List.mem_append_left _ hm, hc₀, fun j hj hc => ?_⟩
        rcases List.mem_append.mp hj with hj | hj
        · exact hle j hj hc
        · rw [List.mem_singleton.mp hj]; exact not_lt.mp hlt
  · -- a non-candidate leaves the scan as it was
    have e : scanMin cand key r i = r := by simp [scanMin, hi]
    rw [e]
    have hj' : ∀ j ∈ l ++ [i], cand j = true → j ∈ l := by
      intro j hj hc
      rcases List.mem_append.mp hj with hj | hj
      · exact hj
      · rw [List.mem_singleton.mp hj] at hc; exact absurd hc hi
    refine ⟨fun hb j hj => ?_, fun b hb => ?_⟩
    · rcases List.mem_append.mp hj with hj | hj
      · exact hnone hb j hj
      · rw [List.mem_singleton.mp hj]; simpa using hi
    · obtain ⟨hm, hc, hle⟩ := hsome b hb
      exact ⟨List.mem_append_left _ hm, hc, fun j hj hc' => hle j (hj' j hj hc') hc'⟩

/-- Over an increasing range the scan finds the first candidate of least key. -/
theorem scanMin_first [Preorder α] {l : List α} (hl : l.Pairwise (· < ·)) {b : α}
    (h : l.foldl (scanMin cand key) none = some b) {i : α} (hi : i ∈ l) (hc : cand i = true) (hk : key i ≤ key b) :
    b ≤ i := by
  have key : l.foldl (scanMin cand key) none = l.foldl (scanMin cand key) none ∧
      ∀ b, l.foldl (scanMin cand key) none = some b → ∀ i ∈ l, cand i = true → key i ≤ key b → b ≤ i := by
    refine foldl_range (f := scanMin cand key)
      (P := fun l r => r = l.foldl (scanMin cand key) none ∧
        ∀ b, r = some b → ∀ i ∈ l, cand i = true → key i ≤ key b → b ≤ i) l ⟨rfl, fun _ h => by cases h⟩ ?_
    intro l i r hpre ⟨hr, ih⟩
    refine ⟨by rw [List.foldl_append, ← hr]; rfl, ?_⟩
    have hlt : ∀ j ∈ l, j < i := fun j hj =>
      (List.pairwise_append.mp (hl.sublist hpre.sublist)).2.2 j hj i (List.mem_singleton_self i)
    obtain ⟨hnone, hsome⟩ := scanMin_spec cand key l
    rw [← hr] at hnone hsome
    by_cases hci : cand i = true
    · cases r with
      | none =>
        simp only [scanMin, hci, if_true]
        intro b hb j hj hcj _
        obtain rfl := Option.some.inj hb
        rcases List.mem_append.mp hj with hj | hj
        · rw [hnone rfl j hj] at hcj; cases hcj
        · rw [List.mem_singleton.mp hj]
      | some b₀ =>
        obtain ⟨hm, _, hle⟩ := hsome b₀ rfl
        simp only [scanMin, hci, if_true]
        by_cases hlt' : key i < key b₀
        · rw [if_pos hlt']
          intro b hb j hj hcj hkj
          obtain rfl := Option.some.inj hb
          rcases List.mem_append.mp hj with hj | hj
          · exact absurd (lt_of_le_of_lt hkj hlt') (not_lt.mpr (hle j hj hcj))
          · rw [List.mem_singleton.mp hj]
        · rw [if_neg hlt']
          intro b hb j hj hcj hkj
          obtain rfl := Option.some.inj hb
          rcases List.mem_append.mp hj with hj | hj
          · exact ih b₀ rfl j hj hcj hkj
          · rw [List.mem_singleton.mp hj]; exact le_of_lt (hlt b₀ hm)
    · have e : scanMin cand key r i = r := by simp [scanMin, hci]
      rw [e]
      intro b hb j hj hcj hkj
      rcases List.mem_append.mp hj with hj | hj
      · exact ih b hb j hj hcj hkj
      · rw [List.mem_singleton.mp hj] at hcj; exact absurd hcj hci
  exact key.2 b h i hi hc hk

/-- The scan with its best key in a second variable that starts at a sentinel:
it is `scanMin` over the candidates below the sentinel. -/
theorem scan_sentinel {τ : Type} (top : τ) (snd : α → τ) (f : Option α × τ → α → Option α × τ)
    (hnone : ∀ i, f (none, top) i = if cand i then (some i, snd i) else (none, top))
    (hsome : ∀ b, cand b = true → ∀ i, f (some b, snd b) i =
      if cand i ∧ key i < key b then (some i, snd i) else (some b, snd b)) (l : List α) :
    (l.foldl f (none, top)).1 = l.foldl (scanMin cand key) none := by
  have key : l.foldl f (none, top) =
      ((l.foldl (scanMin cand key) none), (l.foldl (scanMin cand key) none).elim top snd) ∧
      ∀ b, l.foldl (scanMin cand key) none = some b → cand b = true := by
    refine ⟨?_, fun b hb => ((scanMin_spec cand key l).2 b hb).2.1⟩
    induction l using List.reverseRecOn with
    | nil => rfl
    | append_singleton l i ih =>
      rw [List.foldl_append, List.foldl_append, ih]
      cases hr : l.foldl (scanMin cand key) none with
      | none =>
        by_cases hi : cand i = true <;> simp [scanMin, hnone, hi]
      | some b =>
        have hb := ((scanMin_spec cand key l).2 b hr).2.1
        by_cases hi : cand i = true
        · by_cases hlt : key i < key b <;> simp [scanMin, hsome b hb, hi, hlt]
        · simp [scanMin, hsome b hb, hi]
  rw [key.1]

end

end OsLab
