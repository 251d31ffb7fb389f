import OsLab.Loop

/-!
# What a loop uses on its way

A step that uses something outside its state (an array cell, a file) is paired with the
list of what it uses, as a function of the state it starts from. `traced`, `bodyTrace`
and `loopTrace` collect the uses of a `for` loop, of a sequence of steps and of a
`while` loop in the order in which they are made.
-/

namespace OsLab

/-! ## Loops over an index range -/

section
variable {α β τ : Type} (use : β → α → List τ) (f : β → α → β)

def traced : List α → β → List τ
  | [], _ => []
  | a :: L, b => use b a ++ traced L (f b a)

variable {use f}

theorem mem_traced {L : List α} {b : β} {x : τ} :
    x ∈ traced use f L b ↔ ∃ l a, (l ++ [a]) <+: L ∧ x ∈ use (l.foldl f b) a := by
  induction L generalizing b with
  | nil => simp [traced]
  | cons c L ih =>
    simp only [traced, List.mem_append, ih]
    constructor
    · rintro (h | ⟨l, a, hl, h⟩)
      · exact ⟨[], c, by simp, h⟩
      · exact ⟨c :: l, a, by simpa using hl, h⟩
    · rintro ⟨l, a, hl, h⟩
      cases l with
      | nil =>
        obtain ⟨rfl, -⟩ := List.cons_prefix_cons.mp hl
        exact Or.inl h
      | cons c' l =>
        obtain ⟨rfl, hl'⟩ := List.cons_prefix_cons.mp hl
        exact Or.inr ⟨l, a, hl', h⟩

theorem exists_visited {L : List α} {a : α} (h : a ∈ L) : ∃ l, (l ++ [a]) <+: L := by
  obtain ⟨l, r, rfl⟩ := List.append_of_mem h
  exact ⟨l, r, by simp⟩

theorem traced_range {P : List α → β → Prop} {Q : τ → Prop} {L : List α} {b : β} (nil : P [] b)
    (snoc : ∀ l a acc, (l ++ [a]) <+: L → P l acc → P (l ++ [a]) (f acc a))
    (uses : ∀ l a acc, (l ++ [a]) <+: L → P l acc → ∀ x ∈ use acc a, Q x) : ∀ x ∈ traced use f L b, Q x := by
  intro x hx
  obtain ⟨l, a, hl, hx⟩ := mem_traced.mp hx
  have hlL := (List.prefix_append l [a]).trans hl
  exact uses l a _ hl (foldl_range l nil fun l' a' acc hl' => snoc l' a' acc (hl'.trans hlL)) x hx

theorem foldl_traced {P : List α → β → Prop} {Q : τ → Prop} {L : List α} {b : β} (hQ : ∀ x ∈ traced use f L b, Q x)
    (nil : P [] b) (snoc : ∀ l a acc, (l ++ [a]) <+: L → (∀ x ∈ use acc a, Q x) → P l acc → P (l ++ [a]) (f acc a)) :
    P L (L.foldl f b) := by
  have key := foldl_range (f := f) (P := fun l acc => acc = l.foldl f b ∧ P l acc) L ⟨rfl, nil⟩ (by
    rintro l a acc hl ⟨rfl, hP⟩
    exact ⟨by simp, snoc l a _ hl (fun x hx => hQ x (mem_traced.mpr ⟨l, a, hl, hx⟩)) hP⟩)
  exact key.2

theorem traced_keeps {P : β → Prop} {Q : τ → Prop} {L : List α} {b : β} (step : ∀ acc a, P acc → P (f acc a))
    (uses : ∀ acc a, P acc → ∀ x ∈ use acc a, Q x) (h : P b) : ∀ x ∈ traced use f L b, Q x :=
  traced_range (P := fun _ => P) h (fun _ a acc _ => step acc a) fun _ a acc _ => uses acc a

end

/-! ## `while` loops -/

section
variable {σ τ : Type}

def bodyTrace : List ((σ → σ) × (σ → List τ)) → σ → List τ
  | [], _ => []
  | p :: prog, s => p.2 s ++ bodyTrace prog (p.1 s)

theorem bodyTrace_append (prog prog' : List ((σ → σ) × (σ → List τ))) (s : σ) :
    bodyTrace (prog ++ prog') s = bodyTrace prog s ++ bodyTrace prog' (body (prog.map Prod.fst) s) := by
  induction prog generalizing s with
  | nil => rfl
  | cons p prog ih => simp [bodyTrace, ih, body]

def loopTrace (guard : σ → Prop) [DecidablePred guard] (prog : List ((σ → σ) × (σ → List τ))) : Nat → σ → List τ
  | 0, _ => []
  | fuel + 1, s =>
    if guard s then bodyTrace prog s ++ loopTrace guard prog fuel (body (prog.map Prod.fst) s) else []

theorem mem_loopTrace {guard : σ → Prop} [DecidablePred guard] {prog : List ((σ → σ) × (σ → List τ))} {fuel : Nat}
    {s : σ} {x : τ} : x ∈ loopTrace guard prog fuel s ↔
      ∃ k < fuel, (∀ j ≤ k, guard ((body (prog.map Prod.fst))^[j] s)) ∧
        x ∈ bodyTrace prog ((body (prog.map Prod.fst))^[k] s) := by
  induction fuel generalizing s with
  | zero => simp [loopTrace]
  | succ fuel ih =>
    rw [loopTrace]
    split
    · rename_i hg
      rw [List.mem_append, ih]
      constructor
      · rintro (h | ⟨k, hk, hj, h⟩)
        · exact ⟨0, Nat.succ_pos _, fun j hj => by rw [Nat.le_zero.mp hj]; exact hg, h⟩
        · refine ⟨k + 1, Nat.succ_lt_succ hk, fun j hjk => ?_, h⟩
          cases j with
          | zero => exact hg
          | succ j => exact hj j (Nat.le_of_succ_le_succ hjk)
      · rintro ⟨k, hk, hj, h⟩
        cases k with
        | zero => exact Or.inl h
        | succ k => exact Or.inr ⟨k, Nat.lt_of_succ_lt_succ hk, fun j hjk => hj (j + 1) (Nat.succ_le_succ hjk), h⟩
    · rename_i hg
      simp only [List.not_mem_nil, false_iff]
      rintro ⟨k, _, hj, _⟩
      exact hg (hj 0 (Nat.zero_le k))

end

end OsLab
