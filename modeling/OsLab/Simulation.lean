import OsLab.Machine

/-!
# Simulation between machines

A machine `x` that works on another state than `y` and does what `y` does: it
fails where `y` fails, and where `y` succeeds the outcomes are related. `Refines`
is the half of it that lets `x` fail on its own.
-/

namespace OsLab

namespace Mach
variable {ε ε' σ τ α β α' β' : Type}

theorem bind_assoc {γ : Type} (x : Mach ε σ α) (f : α → Mach ε σ β) (g : β → Mach ε σ γ) :
    (x >>= f) >>= g = x >>= fun a => f a >>= g := by
  funext s
  cases hx : x s with
  | error e => rw [bind_error hx, bind_error (bind_error hx)]
  | ok r =>
    have hl : ((x >>= f) >>= g) s = (f r.1 >>= g) r.2 := by
      have hb : (x >>= f) s = f r.1 r.2 := bind_ok hx
      cases hf : f r.1 r.2 with
      | error e => rw [bind_error hf, bind_error (hb.trans hf)]
      | ok r' => rw [bind_ok hf, bind_ok (hb.trans hf)]
    rw [hl, bind_ok hx]

/-- What `y` does from `t`, `x` does from `s`. `E` translates the failures and `R` relates the values
and the states that the two end with. -/
structure Simulates (E : ε' → ε) (x : Mach ε σ α) (s : σ) (y : Mach ε' τ β) (t : τ)
    (R : α → σ → β → τ → Prop) : Prop where
  fails : ∀ e, y t = .error e → x s = .error (E e)
  succeeds : ∀ b t', y t = .ok (b, t') → ∃ a s', x s = .ok (a, s') ∧ R a s' b t'

namespace Simulates
variable {E : ε' → ε} {x : Mach ε σ α} {s : σ} {y : Mach ε' τ β} {t : τ} {R : α → σ → β → τ → Prop}

theorem pure {a : α} {b : β} (h : R a s b t) :
    Simulates E (Pure.pure a) s (Pure.pure b) t R := by
  refine ⟨nofun, fun b' t' hb => ?_⟩
  cases hb
  exact ⟨a, s, rfl, h⟩

theorem fail {e : ε'} : Simulates E (Mach.fail (E e)) s (Mach.fail e) t R := by
  refine ⟨fun e' he => ?_, nofun⟩
  cases he
  rfl

theorem modify {f : σ → σ} {g : τ → τ} {R : Unit → σ → Unit → τ → Prop} (h : R () (f s) () (g t)) :
    Simulates E (Mach.modify f) s (Mach.modify g) t R := by
  refine ⟨nofun, fun b t' hb => ?_⟩
  cases hb
  exact ⟨(), f s, rfl, h⟩

theorem deref {e : ε'} {o : Option α} {o' : Option β} (f : β → α) (h : o = o'.map f) :
    Simulates E (Mach.deref (E e) o) s (Mach.deref e o') t fun a s' b t' =>
      s = s' ∧ t = t' ∧ o' = some b ∧ a = f b := by
  subst h
  cases o' with
  | none => exact fail
  | some b => exact pure ⟨rfl, rfl, rfl, rfl⟩

theorem mono {R' : α → σ → β → τ → Prop} (h : Simulates E x s y t R)
    (hR : ∀ a s' b t', R a s' b t' → R' a s' b t') : Simulates E x s y t R' := by
  refine ⟨h.fails, fun b t' hb => ?_⟩
  obtain ⟨a, s', hx, hr⟩ := h.succeeds b t' hb
  exact ⟨a, s', hx, hR a s' b t' hr⟩

theorem and {Q : β → τ → Prop} (h : Simulates E x s y t R) (hQ : Ensures y t Q) :
    Simulates E x s y t fun a s' b t' => R a s' b t' ∧ Q b t' := by
  refine ⟨h.fails, fun b t' hb => ?_⟩
  obtain ⟨a, s', hx, hr⟩ := h.succeeds b t' hb
  exact ⟨a, s', hx, hr, hQ b t' hb⟩

theorem bind {f : α → Mach ε σ α'} {g : β → Mach ε' τ β'} {R' : α' → σ → β' → τ → Prop}
    (h : Simulates E x s y t R)
    (hf : ∀ a s' b t', R a s' b t' → Simulates E (f a) s' (g b) t' R') :
    Simulates E (x >>= f) s (y >>= g) t R' := by
  cases hy : y t with
  | error e =>
    have hx := h.fails e hy
    refine ⟨fun e' he => ?_, fun b t' hb => ?_⟩
    · rw [bind_error hy] at he
      cases he
      exact bind_error hx
    · rw [bind_error hy] at hb
      cases hb
  | ok r =>
    obtain ⟨a, s', hx, hr⟩ := h.succeeds r.1 r.2 hy
    have h' := hf a s' r.1 r.2 hr
    refine ⟨fun e he => ?_, fun b t' hb => ?_⟩
    · rw [bind_ok hy] at he
      rw [bind_ok hx]
      exact h'.fails e he
    · rw [bind_ok hy] at hb
      rw [bind_ok hx]
      exact h'.succeeds b t' hb

theorem left {x : Mach ε σ α'} {a : α'} {s' : σ} {f : α' → Mach ε σ α} (hx : x s = .ok (a, s'))
    (h : Simulates E (f a) s' y t R) : Simulates E (x >>= f) s y t R := by
  have hb : (x >>= f) s = f a s' := bind_ok hx
  exact ⟨fun e he => hb.trans (h.fails e he), fun b t' hy => by rw [hb]; exact h.succeeds b t' hy⟩

theorem after {f : α → Mach ε σ α'} {R' : α' → σ → β → τ → Prop} (h : Simulates E x s y t R)
    (hf : ∀ a s' b t', R a s' b t' → ∃ a' s'', f a s' = .ok (a', s'') ∧ R' a' s'' b t') :
    Simulates E (x >>= f) s y t R' := by
  refine ⟨fun e he => bind_error (h.fails e he), fun b t' hb => ?_⟩
  obtain ⟨a, s', hx, hr⟩ := h.succeeds b t' hb
  obtain ⟨a', s'', hf', hr'⟩ := hf a s' b t' hr
  exact ⟨a', s'', (bind_ok hx).trans hf', hr'⟩

theorem right {y : Mach ε' τ β'} {b : β'} {t' : τ} {g : β' → Mach ε' τ β} (hy : y t = .ok (b, t'))
    (h : Simulates E x s (g b) t' R) : Simulates E x s (y >>= g) t R := by
  have hb : (y >>= g) t = g b t' := bind_ok hy
  exact ⟨fun e he => h.fails e (hb ▸ he), fun b' t'' hg => h.succeeds b' t'' (hb ▸ hg)⟩

theorem rightAfter {g : β → Mach ε' τ β'} {R' : α → σ → β' → τ → Prop} (h : Simulates E x s y t R)
    (hg : ∀ a s' b t', R a s' b t' → ∃ b' t'', g b t' = .ok (b', t'') ∧ R' a s' b' t'') :
    Simulates E x s (y >>= g) t R' := by
  cases hy : y t with
  | error e =>
    have hb : (y >>= g) t = .error e := bind_error hy
    refine ⟨fun e' he => ?_, fun b t' hok => ?_⟩
    · cases hb.symm.trans he
      exact h.fails e hy
    · cases hb.symm.trans hok
  | ok r =>
    obtain ⟨a, s', hx, hr⟩ := h.succeeds r.1 r.2 hy
    obtain ⟨b, t', hg', hr'⟩ := hg a s' r.1 r.2 hr
    have hb : (y >>= g) t = .ok (b, t') := (bind_ok hy).trans hg'
    refine ⟨fun e he => ?_, fun b' t'' hok => ?_⟩
    · cases hb.symm.trans he
    · cases hb.symm.trans hok
      exact ⟨a, s', hx, hr'⟩

theorem ite {c d : Prop} [Decidable c] [Decidable d] {x' : Mach ε σ α} {y' : Mach ε' τ β} (hcd : c ↔ d)
    (h : d → Simulates E x s y t R) (h' : ¬ d → Simulates E x' s y' t R) :
    Simulates E (if c then x else x') s (if d then y else y') t R := by
  by_cases hd : d
  · rw [if_pos hd, if_pos (hcd.mpr hd)]
    exact h hd
  · rw [if_neg hd, if_neg (mt hcd.mp hd)]
    exact h' hd

theorem upTo {n : Nat} {f : Nat → Mach ε σ Unit} {g : Nat → Mach ε' τ Unit} {I : Nat → σ → τ → Prop}
    (h₀ : I 0 s t) (hf : ∀ i < n, ∀ s t, I i s t →
      Simulates E (f i) s (g i) t fun _ s' _ t' => I (i + 1) s' t') :
    Simulates E (Mach.upTo n f) s (Mach.upTo n g) t fun _ s' _ t' => I n s' t' := by
  -- the rounds from `j` on
  have tail : ∀ m j, j + m = n → ∀ s t, I j s t → Simulates E ((List.range' j m).forM f) s
      ((List.range' j m).forM g) t fun _ s' _ t' => I n s' t' := by
    intro m
    induction m with
    | zero =>
      intro j hj s t hI
      obtain rfl : j = n := by omega
      exact pure hI
    | succ m ih =>
      intro j hj s t hI
      rw [List.range'_succ]
      exact bind (hf j (by omega) s t hI) fun _ s' _ t' hI' => ih (j + 1) (by omega) s' t' hI'
  unfold Mach.upTo
  rw [List.range_eq_range']
  exact tail n 0 (by omega) s t h₀

end Simulates

def Refines (x : Mach ε σ α) (s : σ) (y : Mach ε' τ β) (t : τ) (R : α → σ → β → τ → Prop) : Prop :=
  Ensures x s fun a s' => ∃ b t', y t = .ok (b, t') ∧ R a s' b t'

section
variable {x : Mach ε σ α} {s : σ} {y : Mach ε' τ β} {t : τ} {R : α → σ → β → τ → Prop}

theorem Simulates.refines {E : ε' → ε} (h : Simulates E x s y t R) : Refines x s y t R := by
  intro a s' hx
  cases hy : y t with
  | error e =>
    rw [h.fails e hy] at hx
    cases hx
  | ok r =>
    obtain ⟨a₁, s₁, hx₁, hr⟩ := h.succeeds r.1 r.2 hy
    cases hx.symm.trans hx₁
    exact ⟨r.1, r.2, rfl, hr⟩

end

end Mach

end OsLab
