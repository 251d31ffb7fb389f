import Mathlib.Data.Nat.ModEq
import Mathlib.Logic.Function.Basic

/-!
# Ring buffers

A buffer of `N` cells with two counters of 32 bits that only count up. The
counters wrap around; the cells in use are the same as without, since `N` divides
`2 ^ 32`.
-/

namespace OsLab

structure Ring (α : Type) where
  buf : Nat → α
  r : BitVec 32
  w : BitVec 32

namespace Ring
variable {α : Type} (N : Nat)

def push (q : Ring α) (x : α) : Ring α :=
  { q with buf := Function.update q.buf (q.w.toNat % N) x, w := q.w + 1 }

def head (q : Ring α) : α := q.buf (q.r.toNat % N)

def pop (q : Ring α) : Ring α := { q with r := q.r + 1 }

structure Holds (q : Ring α) (l : List α) : Prop where
  length : (q.w - q.r).toNat = l.length
  le : l.length ≤ N
  get : ∀ k x, l[k]? = some x → q.buf ((q.r.toNat + k) % N) = x

variable {N} {q : Ring α} {l : List α} {x : α}

namespace Holds

theorem empty_iff (h : Holds N q l) : q.r = q.w ↔ l = [] := by
  have hlen := h.length
  constructor
  · intro heq
    rw [heq, BitVec.sub_self] at hlen
    exact List.eq_nil_of_length_eq_zero hlen.symm
  · rintro rfl
    have : q.w - q.r = 0 := BitVec.eq_of_toNat_eq hlen
    bv_omega

theorem full_iff (h : Holds N q l) (hN : N < 2 ^ 32) :
    q.w = q.r + BitVec.ofNat 32 N ↔ l.length = N := by
  have hlen := h.length
  have hmod : (BitVec.ofNat 32 N).toNat = N := by
    rw [BitVec.toNat_ofNat, Nat.mod_eq_of_lt hN]
  constructor
  · intro heq
    rw [heq, BitVec.add_comm, BitVec.add_sub_cancel, hmod] at hlen
    exact hlen.symm
  · intro heq
    have : q.w - q.r = BitVec.ofNat 32 N := BitVec.eq_of_toNat_eq (by rw [hlen, heq, hmod])
    bv_omega

theorem mod_w (h : Holds N q l) (hN : N ∣ 2 ^ 32) : q.w.toNat % N = (q.r.toNat + l.length) % N := by
  have hw : q.w.toNat = (q.r.toNat + l.length) % 2 ^ 32 := by
    have := h.length
    bv_omega
  rw [hw, Nat.mod_mod_of_dvd _ hN]

theorem mod_ne {a i j : Nat} (hi : i < N) (hj : j < N) (h : i ≠ j) : (a + i) % N ≠ (a + j) % N := by
  intro heq
  have hmod : i ≡ j [MOD N] := Nat.ModEq.add_left_cancel' a heq
  exact h (by rwa [Nat.ModEq, Nat.mod_eq_of_lt hi, Nat.mod_eq_of_lt hj] at hmod)

theorem push (h : Holds N q l) (hN : N ∣ 2 ^ 32) (hsmall : N < 2 ^ 32) (hlt : l.length < N) (x : α) :
    Holds N (q.push N x) (l ++ [x]) where
  length := by
    have := h.length
    simp only [Ring.push, List.length_append, List.length_singleton]
    bv_omega
  le := by rw [List.length_append]; exact hlt
  get := by
    intro k y hk
    simp only [Ring.push]
    rw [h.mod_w hN]
    by_cases hkl : k = l.length
    · subst hkl
      rw [Function.update_self]
      simpa using hk
    · have hk' : l[k]? = some y := by
        rw [List.getElem?_append] at hk
        split at hk
        · exact hk
        · rw [List.getElem?_singleton, if_neg (by omega)] at hk
          cases hk
      have hlt' := (List.getElem?_eq_some_iff.mp hk').1
      rw [Function.update_of_ne (mod_ne (by omega) hlt hkl)]
      exact h.get k y hk'

theorem head (h : Holds N q (x :: l)) : q.head N = x := by
  simpa [Ring.head] using h.get 0 x rfl

theorem pop (h : Holds N q (x :: l)) (hN : N ∣ 2 ^ 32) : Holds N q.pop l where
  length := by
    have := h.length
    simp only [Ring.pop, List.length_cons] at *
    bv_omega
  le := by
    have := h.le
    simp only [List.length_cons] at this
    omega
  get := by
    intro k y hk
    have hr : (q.r + 1).toNat = (q.r.toNat + 1) % 2 ^ 32 := by simp
    have hstep : ((q.r + 1).toNat + k) % N = (q.r.toNat + (k + 1)) % N := by
      rw [hr, Nat.add_mod, Nat.mod_mod_of_dvd _ hN, ← Nat.add_mod]
      congr 1
      omega
    change q.buf (((q.r + 1).toNat + k) % N) = y
    rw [hstep]
    exact h.get (k + 1) y (by simpa using hk)

theorem nil (h : q.r = q.w) : Holds N q [] where
  length := by simp [h]
  le := Nat.zero_le _
  get := by simp

end Holds

end Ring

end OsLab
