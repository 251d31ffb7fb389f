/-!
# State machines that can fail

Computations over a state that return a value or fail. `Ensures x s Q`: when `x`
succeeds from `s`, its value and the state it leaves satisfy `Q`. `Fails x s E`: when
it fails, the failure is in `E`. `Total x s Q`: it succeeds, with a value and a state
in `Q`. `Runs` are the runs of a machine whose steps are chosen from outside.
-/

namespace OsLab

def Mach (ε σ α : Type) : Type := σ → Except ε (α × σ)

namespace Mach
variable {ε σ α β : Type}

instance : Monad (Mach ε σ) where
  pure a := fun s => .ok (a, s)
  bind x f := fun s =>
    match x s with
    | .error e => .error e
    | .ok (a, s') => f a s'

def fail (e : ε) : Mach ε σ α := fun _ => .error e

def get : Mach ε σ σ := fun s => .ok (s, s)

def modify (f : σ → σ) : Mach ε σ Unit := fun s => .ok ((), f s)

def deref (e : ε) : Option α → Mach ε σ α
  | none => fail e
  | some a => pure a

def upTo (n : Nat) (f : Nat → Mach ε σ Unit) : Mach ε σ Unit :=
  (List.range n).forM f

theorem bind_ok {x : Mach ε σ α} {f : α → Mach ε σ β} {s s' : σ} {a : α}
    (h : x s = .ok (a, s')) : (x >>= f) s = f a s' := by
  change (match x s with | .error e => Except.error e | .ok (a, s₁) => f a s₁) = _
  rw [h]

theorem bind_error {x : Mach ε σ α} {f : α → Mach ε σ β} {s : σ} {e : ε}
    (h : x s = .error e) : (x >>= f) s = .error e := by
  change (match x s with | .error e => Except.error e | .ok (a, s₁) => f a s₁) = _
  rw [h]

theorem upTo_skip {n : Nat} {f : Nat → Mach ε σ Unit} {s : σ} (hf : ∀ i, f i s = .ok ((), s)) :
    upTo n f s = .ok ((), s) := by
  unfold upTo
  induction List.range n with
  | nil => rfl
  | cons i l ih => exact (bind_ok (hf i)).trans ih

def returns (x : Mach ε σ α) (s : σ) (test : α → σ → Bool) : Bool :=
  match x s with
  | .ok (a, s') => test a s'
  | .error _ => false

theorem of_returns {x : Mach ε σ α} {s : σ} {test : α → σ → Bool} (h : returns x s test = true) :
    ∃ a s', x s = .ok (a, s') ∧ test a s' = true := by
  unfold returns at h
  split at h
  · rename_i a s' hx
    exact ⟨a, s', hx, h⟩
  · cases h

/-! ## Partial correctness -/

def Ensures (x : Mach ε σ α) (s : σ) (Q : α → σ → Prop) : Prop :=
  ∀ a s', x s = .ok (a, s') → Q a s'

namespace Ensures
variable {x : Mach ε σ α} {s : σ} {Q : α → σ → Prop}

theorem mono {R : α → σ → Prop} (h : Ensures x s Q) (hQ : ∀ a s', Q a s' → R a s') :
    Ensures x s R :=
  fun a s' hx => hQ a s' (h a s' hx)

theorem and {R : α → σ → Prop} (h : Ensures x s Q) (h' : Ensures x s R) :
    Ensures x s fun a s' => Q a s' ∧ R a s' :=
  fun a s' hx => ⟨h a s' hx, h' a s' hx⟩

theorem pure {a : α} (h : Q a s) : Ensures (Pure.pure a : Mach ε σ α) s Q := by
  intro b s' hb
  cases hb
  exact h

theorem bind {f : α → Mach ε σ β} {R : β → σ → Prop}
    (h : Ensures x s fun a s' => Ensures (f a) s' R) : Ensures (x >>= f) s R := by
  intro b s' hb
  change (match x s with | .error e => Except.error e | .ok (a, s₁) => f a s₁) = _ at hb
  cases hx : x s with
  | error e => rw [hx] at hb; cases hb
  | ok r => rw [hx] at hb; exact h r.1 r.2 hx b s' hb

theorem congr {y : Mach ε σ α} (h : x s = y s) (hy : Ensures y s Q) : Ensures x s Q := by
  unfold Ensures
  rw [h]
  exact hy

theorem fail {e : ε} : Ensures (Mach.fail e : Mach ε σ α) s Q := by
  intro a s' h
  cases h

theorem get {Q : σ → σ → Prop} (h : Q s s) : Ensures (Mach.get : Mach ε σ σ) s Q := by
  intro a s' ha
  cases ha
  exact h

theorem modify {f : σ → σ} {Q : Unit → σ → Prop} (h : Q () (f s)) :
    Ensures (Mach.modify f : Mach ε σ Unit) s Q := by
  intro a s' ha
  cases ha
  exact h

theorem deref {e : ε} {o : Option α} (h : ∀ a, o = some a → Q a s) :
    Ensures (Mach.deref e o) s Q := by
  cases o with
  | none => exact fail
  | some a => exact pure (h a rfl)

theorem ite {c : Prop} [Decidable c] {y : Mach ε σ α}
    (hx : c → Ensures x s Q) (hy : ¬ c → Ensures y s Q) : Ensures (if c then x else y) s Q := by
  split
  · exact hx ‹_›
  · exact hy ‹_›

theorem upTo {n : Nat} {f : Nat → Mach ε σ Unit} {I : Nat → σ → Prop} (h0 : I 0 s)
    (hf : ∀ i < n, ∀ s, I i s → Ensures (f i) s fun _ s' => I (i + 1) s') :
    Ensures (Mach.upTo n f) s fun _ s' => I n s' := by
  -- the rounds from `j` on
  have tail : ∀ m j, j + m = n → ∀ s, I j s →
      Ensures ((List.range' j m).forM f) s fun _ s' => I n s' := by
    intro m
    induction m with
    | zero =>
      intro j hj s hs
      obtain rfl : j = n := by omega
      exact pure hs
    | succ m ih =>
      intro j hj s hs
      rw [List.range'_succ]
      change Ensures (f j >>= fun _ => (List.range' (j + 1) m).forM f) s _
      refine bind ((hf j (by omega) s hs).mono ?_)
      intro _ s' hs'
      exact ih (j + 1) (by omega) s' hs'
  unfold Mach.upTo
  rw [List.range_eq_range']
  exact tail n 0 (by omega) s h0

end Ensures

/-! ## Failures -/

def Fails (x : Mach ε σ α) (s : σ) (E : ε → Prop) : Prop := ∀ e, x s = .error e → E e

namespace Fails
variable {x : Mach ε σ α} {s : σ} {E : ε → Prop}

theorem pure {a : α} : Fails (Pure.pure a : Mach ε σ α) s E := nofun

theorem get : Fails (Mach.get : Mach ε σ σ) s E := nofun

theorem modify {f : σ → σ} : Fails (Mach.modify f : Mach ε σ Unit) s E := nofun

theorem congr {y : Mach ε σ α} (h : x s = y s) (hy : Fails y s E) : Fails x s E := by
  unfold Fails
  rw [h]
  exact hy

theorem fail {e : ε} (h : E e) : Fails (Mach.fail e : Mach ε σ α) s E := by
  intro e' he
  cases he
  exact h

theorem deref {e : ε} {o : Option α} (h : o = none → E e) : Fails (Mach.deref e o) s E := by
  cases o with
  | none => exact fail (h rfl)
  | some a => exact pure

theorem bind {f : α → Mach ε σ β} (hx : Fails x s E)
    (hf : Ensures x s fun a s' => Fails (f a) s' E) : Fails (x >>= f) s E := by
  intro e he
  change (match x s with | .error e => Except.error e | .ok (a, s₁) => f a s₁) = _ at he
  cases hr : x s with
  | error e' => rw [hr] at he; cases he; exact hx e hr
  | ok r => rw [hr] at he; exact hf r.1 r.2 hr e he

theorem ite {c : Prop} [Decidable c] {y : Mach ε σ α}
    (hx : c → Fails x s E) (hy : ¬ c → Fails y s E) : Fails (if c then x else y) s E := by
  split
  · exact hx ‹_›
  · exact hy ‹_›

theorem upTo {n : Nat} {f : Nat → Mach ε σ Unit} (hf : ∀ i < n, ∀ s, Fails (f i) s E) :
    Fails (Mach.upTo n f) s E := by
  have all : ∀ l : List Nat, (∀ i ∈ l, i < n) → ∀ s, Fails (l.forM f) s E := by
    intro l
    induction l with
    | nil => exact fun _ s => pure
    | cons i l ih =>
      intro hl s
      refine bind (hf i (hl i (List.mem_cons_self ..)) s) fun _ s' _ => ?_
      exact ih (fun j hj => hl j (List.mem_cons_of_mem i hj)) s'
  exact all _ (fun i hi => List.mem_range.mp hi) s

end Fails

def Total (x : Mach ε σ α) (s : σ) (Q : α → σ → Prop) : Prop :=
  ∃ a s', x s = .ok (a, s') ∧ Q a s'

namespace Total
variable {x : Mach ε σ α} {s : σ} {Q : α → σ → Prop}

theorem mono {R : α → σ → Prop} (h : Total x s Q) (hQ : ∀ a s', Q a s' → R a s') : Total x s R := by
  obtain ⟨a, s', hx, hq⟩ := h
  exact ⟨a, s', hx, hQ a s' hq⟩

theorem pure {a : α} (h : Q a s) : Total (Pure.pure a : Mach ε σ α) s Q := ⟨a, s, rfl, h⟩

theorem bind {f : α → Mach ε σ β} {R : β → σ → Prop}
    (h : Total x s fun a s' => Total (f a) s' R) : Total (x >>= f) s R := by
  obtain ⟨a, s', hx, b, s'', hf, hr⟩ := h
  exact ⟨b, s'', (bind_ok hx).trans hf, hr⟩

/-- The rule for a bind whose first part is known by a specification. -/
theorem andThen {f : α → Mach ε σ β} {R : β → σ → Prop} (h : Total x s Q)
    (hf : ∀ a s', Q a s' → Total (f a) s' R) : Total (x >>= f) s R :=
  bind (h.mono hf)

theorem get {Q : σ → σ → Prop} (h : Q s s) : Total (Mach.get : Mach ε σ σ) s Q := ⟨s, s, rfl, h⟩

theorem modify {f : σ → σ} {Q : Unit → σ → Prop} (h : Q () (f s)) :
    Total (Mach.modify f : Mach ε σ Unit) s Q := ⟨(), f s, rfl, h⟩

theorem getThen {f : σ → Mach ε σ β} {R : β → σ → Prop} (h : Total (f s) s R) :
    Total (Mach.get >>= f) s R :=
  bind (get h)

theorem modifyThen {g : σ → σ} {f : Unit → Mach ε σ β} {R : β → σ → Prop} (h : Total (f ()) (g s) R) :
    Total (Mach.modify g >>= f) s R :=
  bind (modify h)

theorem ite {c : Prop} [Decidable c] {y : Mach ε σ α}
    (hx : c → Total x s Q) (hy : ¬ c → Total y s Q) : Total (if c then x else y) s Q := by
  split
  · exact hx ‹_›
  · exact hy ‹_›

theorem upTo {n : Nat} {f : Nat → Mach ε σ Unit} {I : Nat → σ → Prop} (h0 : I 0 s)
    (hf : ∀ i < n, ∀ s, I i s → Total (f i) s fun _ s' => I (i + 1) s') :
    Total (Mach.upTo n f) s fun _ s' => I n s' := by
  -- the rounds from `j` on
  have tail : ∀ m j, j + m = n → ∀ s, I j s →
      Total ((List.range' j m).forM f) s fun _ s' => I n s' := by
    intro m
    induction m with
    | zero =>
      intro j hj s hs
      obtain rfl : j = n := by omega
      exact pure hs
    | succ m ih =>
      intro j hj s hs
      rw [List.range'_succ]
      change Total (f j >>= fun _ => (List.range' (j + 1) m).forM f) s _
      exact andThen (hf j (by omega) s hs) fun _ s' hs' => ih (j + 1) (by omega) s' hs'
  unfold Mach.upTo
  rw [List.range_eq_range']
  exact tail n 0 (by omega) s h0

end Total

end Mach

/-! ## Runs -/

section
variable {σ α : Type} {step : σ → α → Option σ} {ok : σ → α → Prop} {s₀ s : σ}

inductive Runs (step : σ → α → Option σ) (ok : σ → α → Prop) (s₀ : σ) : σ → Prop
  | start : Runs step ok s₀ s₀
  | next {s s' : σ} {a : α} : Runs step ok s₀ s → ok s a → step s a = some s' → Runs step ok s₀ s'

theorem Runs.invariant {I : σ → Prop} (h₀ : I s₀)
    (hstep : ∀ s a s', I s → ok s a → step s a = some s' → I s') (h : Runs step ok s₀ s) : I s := by
  induction h with
  | start => exact h₀
  | next _ hok hs ih => exact hstep _ _ _ ih hok hs

def steps (step : σ → α → Option σ) (s : σ) : List α → Option σ
  | [] => some s
  | a :: as => (step s a).bind fun s => steps step s as

theorem Runs.of_steps {as : List α} {s' : σ} (h : Runs step ok s₀ s)
    (hok : ∀ s, ∀ a ∈ as, ok s a) (hs : steps step s as = some s') : Runs step ok s₀ s' := by
  induction as generalizing s with
  | nil => cases hs; exact h
  | cons a as ih =>
    obtain ⟨s₁, h₁, hs⟩ := Option.bind_eq_some_iff.mp hs
    exact ih (h.next (hok s a List.mem_cons_self) h₁) (fun s a ha => hok s a (List.mem_cons_of_mem _ ha)) hs

end

end OsLab
