import Mathlib.Data.List.Induction
import Mathlib.Logic.Function.Iterate

/-!
# Tick loops

A simulator is a `while` loop whose body is a fixed list of steps. `At` puts a
program point on every state it passes through: the steps still to run before
control is back at the loop head. `loop` is the executable loop, with fuel.
-/

namespace OsLab

section
variable {σ : Type} (guard : σ → Prop) (steps : List (σ → σ)) (s₀ : σ)

/-- The states of the loop `while (guard) steps`, each with the steps that the
current iteration still has to run; at the loop head there are none. -/
inductive At : List (σ → σ) → σ → Prop
  | start : At [] s₀
  | enter {s : σ} : At [] s → guard s → At steps s
  | step {f : σ → σ} {rest : List (σ → σ)} {s : σ} : At (f :: rest) s → At rest (f s)

variable {guard steps s₀}

theorem At.suffix {rest : List (σ → σ)} {s : σ} (h : At guard steps s₀ rest s) : rest <:+ steps := by
  induction h with
  | start => exact List.nil_suffix
  | enter _ _ _ => exact List.suffix_rfl
  | step _ ih => exact (List.suffix_cons _ _).trans ih

/-- **Invariant rule.** An assertion for every program point holds along the
run when it holds at the start, is carried into the body by the guard, and is
carried over every step of the body. -/
theorem At.invariant {P : List (σ → σ) → σ → Prop} (start : P [] s₀)
    (enter : ∀ s, guard s → P [] s → P steps s)
    (step : ∀ f rest s, (f :: rest) <:+ steps → P (f :: rest) s → P rest (f s)) :
    ∀ {rest s}, At guard steps s₀ rest s → P rest s := by
  intro rest s h
  induction h with
  | start => exact start
  | enter _ hg ih => exact enter _ hg ih
  | step hprev ih => exact step _ _ _ hprev.suffix ih

/-- **Outline rule** for a body that opens with `first` and ends with `act`
and `last`: `H` holds at the loop head, `M` from `first` up to `act`, and
`D` between `act` and `last`. -/
theorem At.outline {first act last : σ → σ} {mids : List (σ → σ)} {H M D : σ → Prop}
    (start : H s₀) (hfirst : ∀ s, guard s → H s → M (first s))
    (hmids : ∀ f ∈ mids, ∀ s, M s → M (f s)) (hact : ∀ s, M s → D (act s))
    (hlast : ∀ s, D s → H (last s)) {rest : List (σ → σ)} {s : σ}
    (h : At guard (first :: (mids ++ [act, last])) s₀ rest s) :
    (rest = [] ∧ H s) ∨ (rest = first :: (mids ++ [act, last]) ∧ guard s ∧ H s) ∨
      (∃ k, rest = mids.drop k ++ [act, last] ∧ M s) ∨ (rest = [last] ∧ D s) := by
  induction h with
  | start => exact Or.inl ⟨rfl, start⟩
  | enter _ hg ih =>
    rcases ih with ⟨_, hs⟩ | ⟨h0, _⟩ | ⟨k, h0, _⟩ | ⟨h0, _⟩
    · exact Or.inr (Or.inl ⟨rfl, hg, hs⟩)
    · cases h0
    · simp at h0
    · cases h0
  | @step f rest s _ ih =>
    rcases ih with ⟨h0, _⟩ | ⟨h0, hg, hs⟩ | ⟨k, h0, hs⟩ | ⟨h0, hs⟩
    · cases h0
    · obtain ⟨rfl, rfl⟩ := List.cons.inj h0
      exact Or.inr (Or.inr (Or.inl ⟨0, rfl, hfirst s hg hs⟩))
    · cases hd : mids.drop k with
      | nil =>
        rw [hd] at h0
        obtain ⟨rfl, rfl⟩ := List.cons.inj h0
        exact Or.inr (Or.inr (Or.inr ⟨rfl, hact s hs⟩))
      | cons g gs =>
        rw [hd, List.cons_append] at h0
        obtain ⟨rfl, rfl⟩ := List.cons.inj h0
        have hf : f ∈ mids := List.mem_of_mem_drop (i := k) (by rw [hd]; exact List.mem_cons_self)
        refine Or.inr (Or.inr (Or.inl ⟨k + 1, ?_, hmids f hf s hs⟩))
        rw [← List.tail_drop, hd, List.tail_cons]
    · obtain ⟨rfl, rfl⟩ := List.cons.inj h0
      exact Or.inl ⟨rfl, hlast s hs⟩

/-- A point inside the body is reached only through the step before it. -/
theorem At.back {f g : σ → σ} {rest : List (σ → σ)} {s : σ} (hf : (f :: g :: rest) <:+ steps)
    (h : At guard steps s₀ (g :: rest) s) : ∃ s', At guard steps s₀ (f :: g :: rest) s' ∧ s = f s' := by
  generalize hr : g :: rest = r at h
  cases h with
  | start => cases hr
  | enter _ _ =>
    have := hf.length_le
    rw [← hr] at this
    simp only [List.length_cons] at this
    omega
  | @step f' _ s' hs =>
    subst hr
    have he : f' :: g :: rest = f :: g :: rest :=
      (List.suffix_of_suffix_length_le hs.suffix hf (by simp)).eq_of_length (by simp)
    obtain ⟨rfl, _⟩ := List.cons.inj he
    exact ⟨s', hs, rfl⟩

theorem At.entered {f : σ → σ} {rest : List (σ → σ)} {s : σ} (hf : steps = f :: rest)
    (h : At guard steps s₀ (f :: rest) s) : At guard steps s₀ [] s ∧ guard s := by
  generalize hr : f :: rest = r at h
  cases h with
  | start => cases hr
  | enter h hg => exact ⟨h, hg⟩
  | @step f' _ s' hs =>
    have := hs.suffix.length_le
    rw [hf, ← hr] at this
    simp only [List.length_cons] at this
    omega

theorem At.finish {rest : List (σ → σ)} : ∀ {s : σ}, At guard steps s₀ rest s →
    At guard steps s₀ [] (rest.foldl (fun s f => f s) s) := by
  induction rest with
  | nil => intro s h; exact h
  | cons f rest ih => intro s h; exact ih h.step

def body (steps : List (σ → σ)) (s : σ) : σ := steps.foldl (fun s f => f s) s

theorem At.runs {l rest : List (σ → σ)} : ∀ {s : σ}, At guard steps s₀ (l ++ rest) s →
    At guard steps s₀ rest (body l s) := by
  induction l with
  | nil => intro s h; exact h
  | cons f l ih => intro s h; exact ih h.step

/-- A body whose steps are themselves lists of smaller steps passes through the
same states as the body of the smaller steps. -/
theorem At.fine {parts : List (List (σ → σ))} {rest : List (σ → σ)} {s : σ}
    (h : At guard (parts.map body) s₀ rest s) :
    ∃ r : List (List (σ → σ)), rest = r.map body ∧ At guard parts.flatten s₀ r.flatten s := by
  induction h with
  | start => exact ⟨[], rfl, .start⟩
  | enter _ hg ih =>
    obtain ⟨r, hr, hat⟩ := ih
    rw [List.map_eq_nil_iff.mp hr.symm] at hat
    exact ⟨parts, rfl, hat.enter hg⟩
  | step _ ih =>
    obtain ⟨r, hr, hat⟩ := ih
    cases r with
    | nil => cases hr
    | cons l r =>
      obtain ⟨rfl, rfl⟩ := List.cons.inj hr
      exact ⟨r, rfl, hat.runs⟩

theorem At.iterate {s : σ} (h : At guard steps s₀ [] s) (hg : guard s) :
    At guard steps s₀ [] (body steps s) := (h.enter hg).finish

/-- **Iteration rule.** What one iteration of the body carries over holds
whenever control is at the loop head. -/
theorem At.iteration {P : σ → Prop} (start : P s₀)
    (iter : ∀ s, At guard steps s₀ [] s → guard s → P s → P (body steps s)) {s : σ}
    (h : At guard steps s₀ [] s) : P s := by
  have key : ∀ {rest s}, At guard steps s₀ rest s → P (rest.foldl (fun s f => f s) s) := by
    intro rest s h
    induction h with
    | start => exact start
    | enter hs hg ih => exact iter _ hs hg ih
    | step _ ih => exact ih
  exact key h

/-- A state at the loop head is the start after some number of iterations, all
of them entered. -/
theorem At.iterate_eq {s : σ} (h : At guard steps s₀ [] s) :
    ∃ k, s = (body steps)^[k] s₀ ∧ ∀ j < k, guard ((body steps)^[j] s₀) := by
  apply At.iteration (P := fun s => ∃ k, s = (body steps)^[k] s₀ ∧ ∀ j < k, guard ((body steps)^[j] s₀)) _ _ h
  · exact ⟨0, rfl, fun j hj => absurd hj (Nat.not_lt_zero j)⟩
  · intro s _ hg ⟨k, hk, hj⟩
    refine ⟨k + 1, by rw [Function.iterate_succ_apply', hk], fun j hjk => ?_⟩
    rcases Nat.lt_succ_iff_lt_or_eq.mp hjk with hlt | rfl
    · exact hj j hlt
    · rw [← hk]; exact hg

theorem At.of_iterate {k : Nat} (h : ∀ j < k, guard ((body steps)^[j] s₀)) : At guard steps s₀ [] ((body steps)^[k] s₀) := by
  induction k with
  | zero => exact .start
  | succ k ih =>
    rw [Function.iterate_succ_apply']
    exact (ih fun j hj => h j (Nat.lt_succ_of_lt hj)).iterate (h k (Nat.lt_succ_self k))

theorem At.exit_unique {s s' : σ} (h : At guard steps s₀ [] s) (hg : ¬ guard s) (h' : At guard steps s₀ [] s')
    (hg' : ¬ guard s') : s = s' := by
  obtain ⟨k, rfl, hk⟩ := h.iterate_eq
  obtain ⟨k', rfl, hk'⟩ := h'.iterate_eq
  rcases Nat.lt_trichotomy k k' with hlt | rfl | hlt
  · exact absurd (hk' k hlt) hg
  · rfl
  · exact absurd (hk k' hlt) hg'

theorem At.trans {b s : σ} {rest : List (σ → σ)} (hb : At guard steps s₀ [] b) (h : At guard steps b rest s) :
    At guard steps s₀ rest s := by
  induction h with
  | start => exact hb
  | enter _ hg ih => exact ih.enter hg
  | step _ ih => exact ih.step

/-- Whatever state the loop is left in, it is reached from every state at the
loop head. -/
theorem At.to_exit {b s : σ} (hb : At guard steps s₀ [] b) (h : At guard steps s₀ [] s) (hg : ¬ guard s) :
    At guard steps b [] s := by
  have later : ∀ {b}, At guard steps b [] s → guard b → At guard steps (body steps b) [] s := by
    intro b hbs hgb
    have key : s = b ∨ At guard steps (body steps b) [] s := by
      apply At.iteration (P := fun s => s = b ∨ At guard steps (body steps b) [] s) (Or.inl rfl) _ hbs
      intro s _ hs ih
      rcases ih with rfl | ih
      · exact Or.inr .start
      · exact Or.inr (ih.iterate hs)
    rcases key with rfl | key
    · exact absurd hgb hg
    · exact key
  exact At.iteration (P := fun b => At guard steps b [] s) h (fun _ _ hgb ih => later ih hgb) hb

def loop (guard : σ → Prop) [DecidablePred guard] (steps : List (σ → σ)) : Nat → σ → σ
  | 0, s => s
  | fuel + 1, s => if guard s then loop guard steps fuel (body steps s) else s

theorem At.loop [DecidablePred guard] : ∀ (fuel : Nat) {s : σ}, At guard steps s₀ [] s →
    At guard steps s₀ [] (loop guard steps fuel s)
  | 0, _, h => h
  | fuel + 1, s, h => by
    unfold OsLab.loop
    split
    · rename_i hg; exact At.loop fuel (h.iterate hg)
    · exact h

/-- A variant that every iteration decreases is enough fuel: the loop stops
because its guard is false. -/
theorem At.loop_exit [DecidablePred guard] (v : σ → Nat)
    (hv : ∀ s, At guard steps s₀ [] s → guard s → v (body steps s) < v s) :
    ∀ (fuel : Nat) {s : σ}, At guard steps s₀ [] s → v s ≤ fuel → ¬ guard (OsLab.loop guard steps fuel s)
  | 0, s, h, hle => fun hg => by
    have := hv s h hg
    omega
  | fuel + 1, s, h, hle => by
    unfold OsLab.loop
    split
    · rename_i hg
      have := hv s h hg
      exact At.loop_exit v hv fuel (h.iterate hg) (by omega)
    · assumption

end

/-! ## Loops over an index range -/

section
variable {α β : Type} {f : β → α → β} {b : β}

/-- **Prefix rule.** A `for` loop is a left fold; what holds of the empty
prefix and is carried over each further element holds of the whole range. -/
theorem foldl_range {P : List α → β → Prop} (L : List α) (nil : P [] b)
    (snoc : ∀ l a acc, (l ++ [a]) <+: L → P l acc → P (l ++ [a]) (f acc a)) : P L (L.foldl f b) := by
  have key : ∀ l, l <+: L → P l (l.foldl f b) := by
    intro l
    induction l using List.reverseRecOn with
    | nil => intro _; exact nil
    | append_singleton l a ih =>
      intro hl
      rw [List.foldl_append]
      exact snoc l a _ hl (ih ((List.prefix_append l [a]).trans hl))
  exact key L List.prefix_rfl

theorem not_mem_visited {L l : List α} {a : α} (hL : L.Nodup) (h : (l ++ [a]) <+: L) : a ∉ l := by
  have hn := h.sublist.nodup hL
  rw [List.nodup_append] at hn
  exact fun ha => hn.2.2 a ha a (List.mem_singleton_self a) rfl

theorem foldl_keeps {P : β → Prop} (l : List α) (step : ∀ acc, ∀ a ∈ l, P acc → P (f acc a)) (h : P b) :
    P (l.foldl f b) := by
  induction l generalizing b with
  | nil => exact h
  | cons a l ih =>
    exact ih (fun acc a' ha' => step acc a' (List.mem_cons_of_mem _ ha')) (step b a List.mem_cons_self h)

end

end OsLab
