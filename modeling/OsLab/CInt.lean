import Mathlib.Algebra.Group.Int.Defs
import Mathlib.Algebra.GroupWithZero.Nat
import Mathlib.Data.Nat.Notation
import Mathlib.Logic.Basic

/-!
# Checked arithmetic

Arithmetic of a signed type of `w` bits on values that are not negative: an
operation whose result does not fit, or that divides by zero, has no result.
`Guarded x P v` says that `x` has the result `v` under the condition `P` and none
otherwise.
-/

namespace OsLab
namespace CInt

def Fits (w x : ℕ) : Prop := x < 2 ^ (w - 1)

instance (w x : ℕ) : Decidable (Fits w x) := inferInstanceAs (Decidable (_ < _))

theorem Fits.mono {w x y : ℕ} (h : Fits w y) (hxy : x ≤ y) : Fits w x := Nat.lt_of_le_of_lt hxy h

def ret (w x : ℕ) : Option ℕ := if Fits w x then some x else none

def add (w x y : ℕ) : Option ℕ := ret w (x + y)

def mul (w x y : ℕ) : Option ℕ := ret w (x * y)

def div (x y : ℕ) : Option ℕ := if y = 0 then none else some (x / y)

def mod (x y : ℕ) : Option ℕ := if y = 0 then none else some (x % y)

structure Guarded {α : Type} (x : Option α) (P : Prop) (v : α) : Prop where
  some_of : P → x = some v
  none_of : ¬P → x = none

section
variable {α β σ : Type}

theorem Guarded.isSome {x : Option α} {P : Prop} {v : α} (h : Guarded x P v) : x.isSome = true ↔ P := by
  by_cases hP : P
  · simp [h.some_of hP, hP]
  · simp [h.none_of hP, hP]

theorem Guarded.congr {x : Option α} {P Q : Prop} {v : α} (h : Guarded x P v) (hPQ : P ↔ Q) : Guarded x Q v :=
  ⟨fun hQ => h.some_of (hPQ.2 hQ), fun hQ => h.none_of (mt hPQ.1 hQ)⟩

theorem guarded_some (v : α) : Guarded (some v) True v := ⟨fun _ => rfl, fun h => absurd trivial h⟩

theorem guarded_ret (w x : ℕ) : Guarded (ret w x) (Fits w x) x :=
  ⟨fun h => if_pos h, fun h => if_neg h⟩

theorem Guarded.bind {x : Option α} {f : α → Option β} {P Q : Prop} {v : α} {u : β} (h : Guarded x P v)
    (hf : P → Guarded (f v) Q u) : Guarded (x >>= f) (P ∧ Q) u := by
  by_cases hP : P
  · rw [h.some_of hP]
    exact (hf hP).congr (by simp [hP])
  · rw [h.none_of hP]
    exact ⟨fun hPQ => absurd hPQ.1 hP, fun _ => rfl⟩

theorem Guarded.map {x : Option α} {P : Prop} {v : α} (h : Guarded x P v) (f : α → β) :
    Guarded (x >>= fun a => some (f a)) P (f v) :=
  (h.bind fun _ => guarded_some (f v)).congr (by simp)

/-- A loop succeeds when every step of it does, each at the state that the loop
without checks has reached there. -/
theorem Guarded.foldlM {g : σ → α → Option σ} {f : σ → α → σ} {ok : σ → α → Prop}
    (h : ∀ s a, Guarded (g s a) (ok s a) (f s a)) : ∀ (l : List α) (s : σ),
    Guarded (l.foldlM g s) (∀ l₁ a, (l₁ ++ [a]) <+: l → ok (l₁.foldl f s) a) (l.foldl f s)
  | [], s => (guarded_some s).congr ⟨fun _ l₁ a hl => by simp at hl, fun _ => trivial⟩
  | b :: l, s => by
    rw [List.foldlM_cons, List.foldl_cons]
    refine ((h s b).bind fun _ => Guarded.foldlM h l (f s b)).congr ⟨?_, ?_⟩
    · intro ⟨hb, hl⟩ l₁ a hpre
      cases l₁ with
      | nil =>
        rw [List.nil_append, List.cons_prefix_cons] at hpre
        exact hpre.1 ▸ hb
      | cons c l₁ =>
        rw [List.cons_append, List.cons_prefix_cons] at hpre
        obtain ⟨rfl, hpre⟩ := hpre
        exact hl l₁ a hpre
    · intro hall
      exact ⟨hall [] b (by simp), fun l₁ a hpre => hall (b :: l₁) a (List.cons_prefix_cons.2 ⟨rfl, hpre⟩)⟩

theorem Guarded.foldlM_forall {g : σ → α → Option σ} {f : σ → α → σ} {ok : σ → α → Prop} {Q : α → Prop}
    (h : ∀ s a, Guarded (g s a) (ok s a) (f s a)) (L : List α) (s : σ)
    (hQ : ∀ l a, (l ++ [a]) <+: L → (ok (l.foldl f s) a ↔ Q a)) :
    Guarded (L.foldlM g s) (∀ a ∈ L, Q a) (L.foldl f s) := by
  refine (Guarded.foldlM h L s).congr ⟨fun hall a ha => ?_, fun hall l a hpre => ?_⟩
  · obtain ⟨l₁, l₂, rfl⟩ := List.append_of_mem ha
    have hpre : (l₁ ++ [a]) <+: l₁ ++ a :: l₂ := ⟨l₂, by simp⟩
    exact (hQ l₁ a hpre).1 (hall l₁ a hpre)
  · exact (hQ l a hpre).2 (hall a (hpre.subset (by simp)))

theorem guarded_sum {w : ℕ} (f : α → ℕ) : ∀ (l : List α) {s : ℕ}, Fits w s →
    Guarded (l.foldlM (fun total x => add w total (f x)) s) (Fits w (s + (l.map f).sum)) (s + (l.map f).sum)
  | [], s, hs => (guarded_some s).congr (iff_of_true trivial hs)
  | x :: l, s, _ => by
    rw [List.foldlM_cons, List.map_cons, List.sum_cons, ← Nat.add_assoc]
    refine ((guarded_ret w (s + f x)).bind fun h => guarded_sum f l h).congr ?_
    exact ⟨fun h => h.2, fun h => ⟨h.mono (Nat.le_add_right _ _), h⟩⟩

end
end CInt
end OsLab
