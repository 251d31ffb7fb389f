import OsLab.VmGrow

/-!
# Where user pages are

The user entries of a page table stay below the size of its process, through
growing, shrinking, copying, mirroring and page faults, and on the error paths
of all of them.
-/

namespace OsLab

open Mach Finset

def PageTable.Within (pt : PageTable) (n : Nat) : Prop :=
  ∀ v, n ≤ v → v ≠ trapframeVa → v ≠ trampoline → pt.leaf v = none

section
variable {pt pt' : PageTable} {free : List Page} {a₀ a n m : Nat}

theorem PageTable.Within.mono (h : pt.Within n) (hnm : n ≤ m) : pt.Within m :=
  fun v hv => h v (hnm.trans hv)

theorem PageTable.Within.congr (h : pt.Within n) (hl : pt'.leaf = pt.leaf) : pt'.Within n := by
  unfold PageTable.Within
  rw [hl]
  exact h

theorem PageTable.Within.bare (h : pt.Within 0) : pt.Bare := fun u hu =>
  h u (Nat.zero_le u) hu.ne (by unfold trapframeVa at hu; omega)

theorem PageTable.Within.update {v : Nat} {e : Option Pte} (h : pt.Within n)
    (hl : pt'.leaf = Function.update pt.leaf v e)
    (hv : v < n ∨ v = trapframeVa ∨ v = trampoline) : pt'.Within n := by
  intro u hu htf htr
  rw [hl, Function.update_of_ne]
  · exact h u hu htf htr
  · rintro rfl
    rcases hv with hv | hv | hv
    · omega
    · exact htf hv
    · exact htr hv

theorem Cleared.within {S : Finset Nat} (h : Cleared pt pt' S) (hn : pt.Within n)
    (hS : ∀ u, m ≤ u → u < n → u ∈ S) : pt'.Within m := by
  intro u hu htf htr
  rw [h u]
  split
  · rfl
  · rename_i hu'
    refine hn u ?_ htf htr
    by_contra hlt
    exact hu' (hS u hu (by omega))

/-! ## Mapping and unmapping -/

theorem mappages_within {v : Nat} {e : Pte} (h : pt.Within n)
    (hv : v < n ∨ v = trapframeVa ∨ v = trampoline) :
    Ensures (mappages pt v e) free fun r _ => r.2.Within n := by
  refine (mappages_spec pt v free e).mono ?_
  rintro ⟨ok, pt'⟩ free' ⟨-, -, hok, hno⟩
  cases ok with
  | true => exact h.update (hok rfl).2 hv
  | false => exact h.congr (hno rfl)

theorem mapNext_within {e : Pte} (h : pt.Within a) :
    Ensures (mappages pt a e) free fun r _ =>
      (r.1 = true → r.2.Within (a + 1)) ∧ (r.1 = false → r.2.Within a) := by
  refine (mappages_spec pt a free e).mono ?_
  rintro ⟨ok, pt'⟩ free' ⟨-, -, hok, hno⟩
  exact ⟨fun hr => (h.mono (Nat.le_succ a)).update (hok hr).2 (Or.inl (Nat.lt_succ_self a)),
    fun hr => h.congr (hno hr)⟩

theorem rollback_within (doFree : Bool) (h : pt.Within a) (ha : a₀ ≤ a) :
    Ensures (uvmunmap pt a₀ (a - a₀) doFree) free fun pt' _ => pt'.Within a₀ :=
  (uvmunmap_spec _ doFree pt a₀ free).mono fun _ _ hc =>
    hc.1.within h fun u hu hu' => mem_Ico.mpr ⟨hu, by omega⟩

theorem uvmallocLoop_within (w x : Bool) (h : pt.Within a) (ha : a₀ ≤ a) :
    Ensures (uvmallocLoop a₀ w x pt a n) free fun r _ =>
      (r.1 = true → r.2.Within (a + n)) ∧ (r.1 = false → r.2.Within a₀) := by
  induction n generalizing pt free a with
  | zero => exact Ensures.pure ⟨fun _ => h, nofun⟩
  | succ n ih =>
    refine Ensures.bind ((kalloc_spec free).mono fun r free₀ _ => ?_)
    cases r with
    | none =>
      exact Ensures.bind ((rollback_within true h ha).mono fun pt' _ h' =>
        Ensures.pure ⟨nofun, fun _ => h'⟩)
    | some mem =>
      refine Ensures.bind ((mapNext_within h).mono ?_)
      rintro ⟨ok, pt₁⟩ free₁ ⟨hok, hno⟩
      refine Ensures.ite (fun hr => ?_) fun hr => ?_
      · refine (ih (hok hr) (Nat.le_succ_of_le ha)).mono fun r _ hr => ?_
        rw [Nat.add_right_comm, Nat.add_assoc] at hr
        exact hr
      · have h₁ := hno (by simpa using hr)
        refine Ensures.bind ((kfree_spec mem free₁).mono fun _ free₂ _ => ?_)
        exact Ensures.bind ((rollback_within true h₁ ha).mono fun pt' _ h' =>
          Ensures.pure ⟨nofun, fun _ => h'⟩)

theorem uvmalloc_within (w x : Bool) {oldsz newsz : Nat} (h : pt.Within (pgRoundUp oldsz)) :
    Ensures (uvmalloc pt oldsz newsz w x) free fun r _ =>
      r.2.Within (pgRoundUp (if r.1 = 0 then oldsz else r.1)) := by
  refine Ensures.ite (fun _ => Ensures.pure ?_) fun hle => ?_
  · dsimp only
    split <;> exact h
  · refine Ensures.bind ((uvmallocLoop_within w x h le_rfl).mono ?_)
    rintro ⟨ok, pt'⟩ free' ⟨hok, hno⟩
    have hmono : pgRoundUp oldsz ≤ pgRoundUp newsz := by unfold pgRoundUp; omega
    cases ok with
    | false => exact Ensures.pure (hno rfl)
    | true =>
      have h' := hok rfl
      rw [Nat.add_sub_cancel' hmono] at h'
      refine Ensures.pure ?_
      dsimp only
      rw [if_pos rfl]
      split
      · rename_i hz
        rw [hz] at hmono h'
        exact h'.mono (by rw [show pgRoundUp 0 = 0 from rfl]; exact Nat.zero_le _)
      · exact h'

theorem uvmdealloc_within {oldsz newsz : Nat} (h : pt.Within (pgRoundUp oldsz)) :
    Ensures (uvmdealloc pt oldsz newsz) free fun r _ => r.2.Within (pgRoundUp r.1) := by
  refine Ensures.ite (fun _ => Ensures.pure h) fun hlt => ?_
  refine Ensures.ite (fun hp => ?_) fun hp => Ensures.bind (Ensures.pure (Ensures.pure ?_))
  · exact Ensures.bind ((rollback_within true h hp.le).mono fun pt' _ h' => Ensures.pure h')
  · exact h.mono (Nat.le_of_not_lt hp)

/-! ## Copying and mirroring -/

theorem uvmcopyLoop_within (old : PageTable) (h : pt.Within a) :
    Ensures (uvmcopyLoop old pt a n) free fun r _ =>
      (r.1 = true → r.2.Within (a + n)) ∧ (r.1 = false → r.2.Within 0) := by
  induction n generalizing pt free a with
  | zero => exact Ensures.pure ⟨fun _ => h, nofun⟩
  | succ n ih =>
    have next {pt₁ : PageTable} {free₁ : List Page} (h₁ : pt₁.Within (a + 1)) :
        Ensures (uvmcopyLoop old pt₁ (a + 1) n) free₁ fun r _ =>
          (r.1 = true → r.2.Within (a + (n + 1))) ∧ (r.1 = false → r.2.Within 0) := by
      refine (ih h₁).mono fun r _ hr => ?_
      rw [Nat.add_right_comm, Nat.add_assoc] at hr
      exact hr
    refine Ensures.bind ((present_spec old a free).mono ?_)
    rintro r _ ⟨rfl, rfl, -⟩
    cases old.leaf a with
    | none => exact next (h.mono (Nat.le_succ a))
    | some e =>
      refine Ensures.bind ((kalloc_spec _).mono fun r free₀ _ => ?_)
      cases r with
      | none =>
        exact Ensures.bind ((rollback_within true h (Nat.zero_le a)).mono fun pt' _ h' =>
          Ensures.pure ⟨nofun, fun _ => h'⟩)
      | some mem =>
        refine Ensures.bind ((mapNext_within h).mono ?_)
        rintro ⟨ok, pt₁⟩ free₁ ⟨hok, hno⟩
        refine Ensures.ite (fun hr => next (hok hr)) fun hr => ?_
        have h₁ := hno (by simpa using hr)
        refine Ensures.bind ((kfree_spec mem free₁).mono fun _ free₂ _ => ?_)
        exact Ensures.bind ((rollback_within true h₁ (Nat.zero_le a)).mono fun pt' _ h' =>
          Ensures.pure ⟨nofun, fun _ => h'⟩)

theorem uvmmirrorLoop_within (old : PageTable) (h : pt.Within a) :
    Ensures (uvmmirrorLoop old pt a n) free fun r _ =>
      (r.1 = true → r.2.Within (a + n)) ∧ (r.1 = false → r.2.Within 0) := by
  refine (uvmmirrorLoop_spec old n).mono ?_
  rintro r free' ⟨-, hok, hno⟩
  refine ⟨fun hr u hu htf htr => ?_, fun hr => ?_⟩
  · rw [hok hr u, if_neg fun hm => absurd (mem_Ico.mp hm).2 (by omega)]
    exact h u (by omega) htf htr
  · exact (hno hr).within h fun u _ hu => mem_Ico.mpr ⟨Nat.zero_le u, hu⟩

/-! ## Faults and copies -/

theorem uvmclear_within (v : Nat) (h : pt.Within n) :
    Ensures (uvmclear pt v) free fun pt' _ => pt'.Within n := by
  refine Ensures.bind ((walk_spec pt v free).mono ?_)
  rintro _ _ ⟨rfl, rfl, -⟩
  refine Ensures.ite (fun ht => Ensures.pure fun u hu htf htr => ?_) fun _ => Ensures.fail
  rw [pt.setLeaf_leaf _ (Option.isSome_iff_ne_none.mp ht)]
  by_cases huv : u = v
  · subst huv
    rw [Function.update_self, h u hu htf htr]
    rfl
  · rw [Function.update_of_ne huv]
    exact h u hu htf htr

theorem vmfault_within {sz : Nat} (va : Nat) (h : pt.Within n) (hn : pgRoundUp sz ≤ n) :
    Ensures (vmfault pt sz va) free fun r _ => r.2.Within n := by
  refine Ensures.ite (fun _ => Ensures.pure h) fun hlt => ?_
  have hv : va / pgSize < n := by unfold pgSize; unfold pgRoundUp at hn; omega
  refine Ensures.bind ((present_spec pt _ free).mono ?_)
  rintro r _ ⟨rfl, rfl, -⟩
  cases pt.leaf (va / pgSize) with
  | some _ => exact Ensures.pure h
  | none =>
    refine Ensures.bind ((kalloc_spec _).mono fun r free₀ _ => ?_)
    cases r with
    | none => exact Ensures.pure h
    | some mem =>
      refine Ensures.bind ((mappages_within h (Or.inl hv)).mono ?_)
      rintro ⟨ok, pt₁⟩ free₁ h₁
      refine Ensures.ite (fun _ => Ensures.pure h₁) fun _ => ?_
      exact Ensures.bind ((kfree_spec mem free₁).mono fun _ _ _ => Ensures.pure h₁)

theorem copyoutPage_within {sz : Nat} (v : Nat) (h : pt.Within n) (hn : pgRoundUp sz ≤ n) :
    Ensures (copyoutPage pt sz v) free fun r _ => r.2.Within n :=
  copyoutPage_table (Q := fun pt' _ => pt'.Within n) h (vmfault_within _ h hn)

theorem copyout_within {sz : Nat} (dstva len : Nat) (h : pt.Within n) (hn : pgRoundUp sz ≤ n) :
    Ensures (copyout pt sz dstva len) free fun r _ => r.2.Within n := by
  have loop : ∀ m v (pt : PageTable) (free : List Page), pt.Within n →
      Ensures (copyoutLoop pt sz v m) free fun r _ => r.2.Within n := by
    intro m
    induction m with
    | zero => exact fun v pt free h => Ensures.pure h
    | succ m ih =>
      intro v pt free h
      refine Ensures.bind ((copyoutPage_within v h hn).mono ?_)
      rintro ⟨ok, pt'⟩ free' h'
      exact Ensures.ite (fun _ => ih (v + 1) pt' free' h') fun _ => Ensures.pure h'
  exact Ensures.ite (fun _ => Ensures.pure h) fun _ => loop _ _ pt free h

end

end OsLab
