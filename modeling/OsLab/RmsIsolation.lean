import Mathlib.Data.Fin.VecNotation
import OsLab.RmsSound

/-!
# Isolation between priorities

Two runs of the RMS simulation whose inputs agree on the tasks of one CPU down to the
priority of task `i`, and may differ in everything else. Paired tasks of the two upper
parts have the same work left before every tick.
-/

namespace OsLab
namespace Rms
variable {n m n' m' : Nat}

def AtLeast (ts : TaskSet n m) (c : Fin m) (i : Fin n) (j e p : Nat) : Prop :=
  ∃ k : Fin n, k.val = j ∧ ts.a k = c ∧ rank ts k ≤ rank ts i ∧ ts.e k = e ∧ ts.p k = p

theorem ran_iff (ts : TaskSet n m) {c : Fin m} {t : Nat} {k : Fin n} : ran ts c t = some k ↔
    ts.a k = c ∧ 0 < (releaseAll ts t (simulate ts t)).r k ∧
      ∀ j, ts.a j = c → 0 < (releaseAll ts t (simulate ts t)).r j → rank ts k ≤ rank ts j := by
  constructor
  · exact pick_some ts
  · rintro ⟨hc, hr, hleast⟩
    cases hk : ran ts c t with
    | none =>
      have := pick_none ts hk k hc
      omega
    | some k' =>
      obtain ⟨hc', hr', hleast'⟩ := pick_some ts hk
      rw [rank_inj ts (le_antisymm (hleast' k hc hr) (hleast k' hc' hr'))]

structure Twin (ts : TaskSet n m) (c : Fin m) (i : Fin n) (ts' : TaskSet n' m') (c' : Fin m') (i' : Fin n')
    (k : Fin n) (k' : Fin n') : Prop where
  val : k.val = k'.val
  cpu : ts.a k = c
  cpu' : ts'.a k' = c'
  le : rank ts k ≤ rank ts i
  le' : rank ts' k' ≤ rank ts' i'
  e : ts.e k = ts'.e k'
  p : ts.p k = ts'.p k'

theorem rank_le_iff {ts : TaskSet n m} {j k : Fin n} :
    rank ts j ≤ rank ts k ↔ ts.p j < ts.p k ∨ (ts.p j = ts.p k ∧ j.val ≤ k.val) := by
  simp only [rank, Prod.Lex.toLex_le_toLex, Fin.le_def]

section
variable {ts : TaskSet n m} {c : Fin m} {i : Fin n} {ts' : TaskSet n' m'} {c' : Fin m'} {i' : Fin n'}

theorem Twin.symm {k : Fin n} {k' : Fin n'} (h : Twin ts c i ts' c' i' k k') : Twin ts' c' i' ts c i k' k :=
  ⟨h.val.symm, h.cpu', h.cpu, h.le', h.le, h.e.symm, h.p.symm⟩

theorem Twin.rank_le {j k : Fin n} {j' k' : Fin n'} (hj : Twin ts c i ts' c' i' j j')
    (hk : Twin ts c i ts' c' i' k k') (h : rank ts j ≤ rank ts k) : rank ts' j' ≤ rank ts' k' := by
  rw [rank_le_iff] at h ⊢
  rw [← hj.p, ← hk.p, ← hj.val, ← hk.val]
  exact h

theorem exists_twin (hsame : ∀ j e p, AtLeast ts c i j e p → AtLeast ts' c' i' j e p) {k : Fin n}
    (hk : ts.a k = c) (hle : rank ts k ≤ rank ts i) : ∃ k', Twin ts c i ts' c' i' k k' := by
  obtain ⟨k', hv, hc, hle', he, hp⟩ := hsame k (ts.e k) (ts.p k) ⟨k, rfl, hk, hle, rfl, rfl⟩
  exact ⟨k', hv.symm, hk, hc, hle, hle', he.symm, hp.symm⟩

def Level (ts : TaskSet n m) (c : Fin m) (i : Fin n) (ts' : TaskSet n' m') (c' : Fin m') (i' : Fin n')
    (t : Nat) : Prop :=
  ∀ k k', Twin ts c i ts' c' i' k k' → (simulate ts t).r k = (simulate ts' t).r k'

theorem Level.symm {t : Nat} (h : Level ts c i ts' c' i' t) : Level ts' c' i' ts c i t :=
  fun k k' hk => (h k' k hk.symm).symm

theorem Level.released {t : Nat} (h : Level ts c i ts' c' i' t) {k : Fin n} {k' : Fin n'}
    (hk : Twin ts c i ts' c' i' k k') :
    (releaseAll ts t (simulate ts t)).r k = (releaseAll ts' t (simulate ts' t)).r k' := by
  rw [release_r, release_r, h k k' hk, hk.e, hk.p]

theorem Level.ran {t : Nat} (h : Level ts c i ts' c' i' t)
    (hsame : ∀ j e p, AtLeast ts' c' i' j e p → AtLeast ts c i j e p) {k : Fin n} {k' : Fin n'}
    (hk : Twin ts c i ts' c' i' k k') (hran : ran ts c t = some k) : ran ts' c' t = some k' := by
  obtain ⟨_, hr, hleast⟩ := (ran_iff ts).mp hran
  refine (ran_iff ts').mpr ⟨hk.cpu', h.released hk ▸ hr, fun j' hj' hpos => ?_⟩
  -- A task that beat `k'` would be in the upper part, and its twin would beat `k`.
  by_contra hlt
  have hle : rank ts' j' ≤ rank ts' i' := le_trans (le_of_not_ge hlt) hk.le'
  obtain ⟨j, hj⟩ := exists_twin hsame hj' hle
  apply hlt
  apply hk.rank_le hj.symm
  exact hleast j hj.cpu' (h.symm.released hj ▸ hpos)

variable (hsame : ∀ j e p, AtLeast ts c i j e p ↔ AtLeast ts' c' i' j e p)
include hsame

theorem Level.ran_iff {t : Nat} (h : Level ts c i ts' c' i' t) {k : Fin n} {k' : Fin n'}
    (hk : Twin ts c i ts' c' i' k k') : Rms.ran ts c t = some k ↔ Rms.ran ts' c' t = some k' :=
  ⟨h.ran (fun j e p => (hsame j e p).mpr) hk, h.symm.ran (fun j e p => (hsame j e p).mp) hk.symm⟩

theorem Level.step {t : Nat} (h : Level ts c i ts' c' i' t) : Level ts c i ts' c' i' (t + 1) := by
  intro k k' hk
  have h1 := simulate_r ts t k
  have h2 := simulate_r ts' t k'
  simp only [hk.cpu, h.ran_iff hsame hk, h k k' hk, hk.e, hk.p] at h1
  simp only [hk.cpu'] at h2
  omega

theorem level : ∀ t, Level ts c i ts' c' i' t
  | 0 => fun _ _ _ => rfl
  | t + 1 => (level t).step hsame

theorem ran_agree (hi : i.val = i'.val) (t : Nat) : ran ts c t = some i ↔ ran ts' c' t = some i' := by
  constructor
  · intro hran
    obtain ⟨k', hk⟩ := exists_twin (fun j e p => (hsame j e p).mp) (ran_some ts hran).1 le_rfl
    obtain rfl : k' = i' := Fin.ext (by rw [← hk.val, hi])
    exact ((level hsame t).ran_iff hsame hk).mp hran
  · intro hran
    obtain ⟨k, hk⟩ := exists_twin (fun j e p => (hsame j e p).mpr) (ran_some ts' hran).1 le_rfl
    obtain rfl : k = i := Fin.ext (by rw [← hk.val, hi])
    exact ((level hsame t).ran_iff hsame hk.symm).mpr hran

theorem miss_agree (hi : i.val = i'.val) (hc : ts.a i = c) (t : Nat) :
    (simulate ts t).miss i = (simulate ts' t).miss i' := by
  obtain ⟨k', hk⟩ := exists_twin (fun j e p => (hsame j e p).mp) hc le_rfl
  obtain rfl : k' = i' := Fin.ext (by rw [← hk.val, hi])
  rw [simulate_miss, simulate_miss]
  congr 1
  apply Finset.filter_congr
  intro u _
  rw [level hsame u i k' hk, hk.p]

end

/-- Two inputs that agree on the tasks of a CPU down to the priority of task
number `i` give task `i` the same ticks of that CPU and the same misses, for any
lengths `h` and `h'` that are simulated. -/
theorem priority_isolation (ts : TaskSet n m) (ts' : TaskSet n' m') {c : Fin m} {c' : Fin m'} {i : Fin n}
    {i' : Fin n'} (hi : i.val = i'.val) (hsame : ∀ j e p, AtLeast ts c i j e p ↔ AtLeast ts' c' i' j e p)
    (h h' : Nat) :
    (∀ t < min h h', ((simulate ts h).timeline c t = i + 1 ↔ (simulate ts' h').timeline c' t = i' + 1)) ∧
      (ts.a i = c → ∀ t ≤ min h h', (simulate ts t).miss i = (simulate ts' t).miss i') := by
  constructor
  · intro t ht
    rw [simulate_timeline ts c t h (by omega), simulate_timeline ts' c' t h' (by omega), cell_eq_iff, cell_eq_iff]
    exact ran_agree hsame hi t
  · intro hc t _
    exact miss_agree hsame hi hc t

def pair : TaskSet 2 1 where
  e := ![1, 2]
  p := ![3, 5]
  a := ![0, 0]
  e_pos := by decide
  p_pos := by decide

def crowd : TaskSet 3 2 where
  e := ![1, 4, 1]
  p := ![3, 4, 2]
  a := ![0, 0, 1]
  e_pos := by decide
  p_pos := by decide

theorem priority_isolation_pair : (∀ j e p, AtLeast pair 0 0 j e p ↔ AtLeast crowd 0 0 j e p) ∧
    ∀ t < min (hyperperiod pair) (hyperperiod crowd),
      ((simulate pair (hyperperiod pair)).timeline 0 t = 1 ↔
        (simulate crowd (hyperperiod crowd)).timeline 0 t = 1) := by
  have hsame : ∀ j e p, AtLeast pair 0 0 j e p ↔ AtLeast crowd 0 0 j e p := by
    intro j e p
    simp [AtLeast, rank_le_iff, pair, crowd, Fin.exists_fin_succ]
  exact ⟨hsame, (priority_isolation pair crowd rfl hsame _ _).1⟩

end Rms
end OsLab
