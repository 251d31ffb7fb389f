import Mathlib.Data.Set.Insert
import Mathlib.Logic.Function.Basic

/-!
# References that own what they point to

References `r : ρ` point to resources, or to nothing. The resources in use are
those that a reference points to, each by one reference only, and those in
`held`, which somebody has taken and not yet linked, or unlinked and not yet
given back.
-/

namespace OsLab

structure Refs {ρ β : Type} (ptr : ρ → Option β) (used held : Set β) : Prop where
  ref_used : ∀ {r b}, ptr r = some b → b ∈ used
  ref_held : ∀ {r b}, ptr r = some b → b ∉ held
  held_used : held ⊆ used
  inj : ∀ {r r' b}, ptr r = some b → ptr r' = some b → r = r'
  owner : ∀ {b}, b ∈ used → b ∈ held ∨ ∃ r, ptr r = some b

namespace Refs
variable {ρ β : Type} {ptr : ρ → Option β} {used held : Set β} {r : ρ} {b : β}

theorem alloc (h : Refs ptr used held) (hb : b ∉ used) :
    Refs ptr (insert b used) (insert b held) where
  ref_used hr := Set.mem_insert_of_mem b (h.ref_used hr)
  ref_held := by
    intro r c hr hc
    obtain rfl | hc := Set.mem_insert_iff.mp hc
    · exact hb (h.ref_used hr)
    · exact h.ref_held hr hc
  held_used := Set.insert_subset_insert h.held_used
  inj := h.inj
  owner := by
    intro c hc
    obtain rfl | hc := Set.mem_insert_iff.mp hc
    · exact .inl (Set.mem_insert c held)
    · exact (h.owner hc).imp_left (Set.mem_insert_of_mem b)

theorem free (h : Refs ptr used held) (hb : b ∈ held) : Refs ptr (used \ {b}) (held \ {b}) where
  ref_used := by
    intro r c hr
    refine ⟨h.ref_used hr, ?_⟩
    rintro rfl
    exact h.ref_held hr hb
  ref_held hr hc := h.ref_held hr hc.1
  held_used _ hc := ⟨h.held_used hc.1, hc.2⟩
  inj := h.inj
  owner hc := (h.owner hc.1).imp_left fun hheld => ⟨hheld, hc.2⟩

variable [DecidableEq ρ]

theorem attach (h : Refs ptr used held) (hb : b ∈ held) (hr : ptr r = none) :
    Refs (Function.update ptr r (some b)) used (held \ {b}) := by
  have split {r' : ρ} {c : β} (hc : Function.update ptr r (some b) r' = some c) :
      r' = r ∧ c = b ∨ r' ≠ r ∧ ptr r' = some c := by
    by_cases heq : r' = r
    · rw [heq, Function.update_self] at hc
      exact .inl ⟨heq, (Option.some.inj hc).symm⟩
    · rw [Function.update_of_ne heq] at hc
      exact .inr ⟨heq, hc⟩
  constructor
  case ref_used =>
    intro r' c hc
    obtain ⟨-, rfl⟩ | ⟨-, hc⟩ := split hc
    · exact h.held_used hb
    · exact h.ref_used hc
  case ref_held =>
    intro r' c hc hheld
    obtain ⟨-, rfl⟩ | ⟨-, hc⟩ := split hc
    · exact hheld.2 rfl
    · exact h.ref_held hc hheld.1
  case held_used => exact fun c hc => h.held_used hc.1
  case inj =>
    intro r₁ r₂ c h₁ h₂
    obtain ⟨h₁, hcb⟩ | ⟨-, h₁⟩ := split h₁ <;> obtain ⟨h₂, hcb'⟩ | ⟨-, h₂⟩ := split h₂
    · exact h₁.trans h₂.symm
    · rw [hcb] at h₂
      exact absurd hb (h.ref_held h₂)
    · rw [hcb'] at h₁
      exact absurd hb (h.ref_held h₁)
    · exact h.inj h₁ h₂
  case owner =>
    intro c hc
    by_cases hcb : c = b
    · exact .inr ⟨r, by rw [Function.update_self, hcb]⟩
    · obtain hheld | ⟨r', hr'⟩ := h.owner hc
      · exact .inl ⟨hheld, hcb⟩
      · refine .inr ⟨r', ?_⟩
        rw [Function.update_of_ne ?_, hr']
        intro heq
        rw [heq, hr] at hr'
        cases hr'

theorem link (h : Refs ptr used ∅) (hb : b ∉ used) (hr : ptr r = none) :
    Refs (Function.update ptr r (some b)) (insert b used) ∅ := by
  have hlink := (h.alloc hb).attach (Set.mem_insert b ∅) hr
  have hheld : insert b ∅ \ {b} = (∅ : Set β) := by ext c; simp
  rwa [hheld] at hlink

omit [DecidableEq ρ] in
theorem cut (S : ρ → Prop) [DecidablePred S] (h : Refs ptr used ∅) :
    Refs (fun r => if S r then none else ptr r) used {b | ∃ r, S r ∧ ptr r = some b} := by
  have split {r : ρ} {c : β} (hc : (if S r then none else ptr r) = some c) : ¬ S r ∧ ptr r = some c :=
    Option.ite_none_left_eq_some.mp hc
  constructor
  case ref_used => exact fun hc => h.ref_used (split hc).2
  case ref_held =>
    rintro r c hc ⟨r', hS, hr'⟩
    obtain ⟨hn, hr⟩ := split hc
    rw [h.inj hr hr'] at hn
    exact hn hS
  case held_used =>
    rintro c ⟨r, -, hr⟩
    exact h.ref_used hr
  case inj => exact fun h₁ h₂ => h.inj (split h₁).2 (split h₂).2
  case owner =>
    intro c hc
    obtain hheld | ⟨r, hr⟩ := h.owner hc
    · exact absurd hheld (Set.notMem_empty c)
    · by_cases hS : S r
      · exact .inl ⟨r, hS, hr⟩
      · exact .inr ⟨r, by rw [if_neg hS, hr]⟩

end Refs

end OsLab
