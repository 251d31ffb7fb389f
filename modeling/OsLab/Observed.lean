import OsLab.Machine

/-!
# Runs and what is seen of them

A step of a machine may show an event. `Observed` are the runs with the events they
have shown so far; the steps that are allowed may depend on these. A machine
refines another one if whatever it shows, the other can do.
-/

namespace OsLab

section
variable {σ α ε τ : Type} {step : σ → α → Option σ} {ok : List ε → σ → α → Prop}
  {see : σ → α → Option ε} {s₀ s : σ} {l : List ε}

inductive Observed (step : σ → α → Option σ) (ok : List ε → σ → α → Prop) (see : σ → α → Option ε)
    (s₀ : σ) : List ε → σ → Prop
  | start : Observed step ok see s₀ [] s₀
  | next {l : List ε} {s s' : σ} {a : α} : Observed step ok see s₀ l s → ok l s a →
    step s a = some s' → Observed step ok see s₀ (l ++ (see s a).toList) s'

namespace Observed

theorem invariant {I : List ε → σ → Prop} (h₀ : I [] s₀)
    (hstep : ∀ l s a s', I l s → ok l s a → step s a = some s' → I (l ++ (see s a).toList) s')
    (h : Observed step ok see s₀ l s) : I l s := by
  induction h with
  | start => exact h₀
  | next _ hok hs ih => exact hstep _ _ _ _ ih hok hs

end Observed

def observe (step : σ → α → Option σ) (see : σ → α → Option ε) (s : σ) :
    List α → Option (List ε × σ)
  | [] => some ([], s)
  | a :: as => (step s a).bind fun s' =>
    (observe step see s' as).map fun r => ((see s a).toList ++ r.1, r.2)

theorem Observed.of_observe {as : List α} {r : List ε × σ} (h : Observed step ok see s₀ l s)
    (hok : ∀ l₁ s, ∀ a ∈ as, (l₁ ++ (see s a).toList) <+: l ++ r.1 → ok l₁ s a)
    (hs : observe step see s as = some r) : Observed step ok see s₀ (l ++ r.1) r.2 := by
  induction as generalizing l s r with
  | nil => cases hs; rwa [List.append_nil]
  | cons a as ih =>
    obtain ⟨s₁, h₁, hs⟩ := Option.bind_eq_some_iff.mp hs
    obtain ⟨r₁, hr, rfl⟩ := Option.map_eq_some_iff.mp hs
    rw [← List.append_assoc] at hok ⊢
    have hnext := h.next (hok l s a List.mem_cons_self (List.prefix_append ..)) h₁
    exact ih hnext (fun l s a ha => hok l s a (List.mem_cons_of_mem _ ha)) hr

theorem exists_of_any {o : Option α} {test : α → Bool} (h : o.any test = true) :
    ∃ x, o = some x ∧ test x = true := by
  cases o with
  | none => cases h
  | some x => exact ⟨x, rfl, h⟩

theorem Observed.of_run {as : List α} {r : List ε × σ}
    (hok : ∀ l₁ s, ∀ a ∈ as, (l₁ ++ (see s a).toList) <+: r.1 → ok l₁ s a)
    (hs : observe step see s₀ as = some r) : Observed step ok see s₀ r.1 r.2 :=
  Observed.of_observe (l := []) .start hok hs

theorem steps_append (step : σ → α → Option σ) (s : σ) (as bs : List α) :
    steps step s (as ++ bs) = (steps step s as).bind fun t => steps step t bs := by
  induction as generalizing s with
  | nil => rfl
  | cons a as ih =>
    rw [List.cons_append, steps, steps]
    cases step s a with
    | none => rfl
    | some t => exact ih t

def stepSeen (astep : τ → ε → Option τ) (t : τ) : Option ε → Option τ
  | none => some t
  | some e => astep t e

/-- **Refinement rule**: a relation that every step keeps, with the abstract step for the event
that the step shows. -/
theorem Observed.refines {astep : τ → ε → Option τ} {R : σ → τ → Prop} {t₀ : τ} (h₀ : R s₀ t₀)
    (hstep : ∀ l s a s' t, ok l s a → step s a = some s' → R s t →
      ∃ t', stepSeen astep t (see s a) = some t' ∧ R s' t')
    (h : Observed step ok see s₀ l s) : ∃ t, steps astep t₀ l = some t ∧ R s t := by
  refine h.invariant (I := fun l s => ∃ t, steps astep t₀ l = some t ∧ R s t) ⟨t₀, rfl, h₀⟩ ?_
  rintro l s a s' ⟨t, ht, hR⟩ hok hs
  obtain ⟨t', ht', hR'⟩ := hstep l s a s' t hok hs hR
  refine ⟨t', ?_, hR'⟩
  rw [steps_append, ht]
  cases hsee : see s a with
  | none => rw [hsee] at ht'; exact ht'
  | some e =>
    rw [hsee] at ht'
    change (astep t e).bind _ = _
    rw [show astep t e = some t' from ht']
    rfl

end

end OsLab
