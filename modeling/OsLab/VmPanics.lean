import OsLab.VmBounds

/-!
# The panics of the page-table functions

Which panics a function can end in, and when: `walk` panics beyond `MAXVA`,
`mappages` at an entry that is in use, `freewalk` at a leaf entry, `uvmmirror` at
a page that is not there. `E` is the set of panics that do not matter, so each
lemma asks for what keeps the others away.
-/

namespace OsLab

open Mach Finset

variable {E : Panic → Prop} {pt : PageTable} {free : List Page} {v n a a₀ : Nat}

theorem kalloc_fails : Fails kalloc free E := by
  intro e he
  cases free <;> cases he

theorem kfree_fails {pa : Page} : Fails (kfree pa) free E := nofun

theorem kalloc_length (free : List Page) :
    Ensures kalloc free fun r free' => free'.length ≤ free.length ∧
      (r ≠ none → free'.length + 1 ≤ free.length) := by
  intro r free' h
  cases free with
  | nil => cases h; exact ⟨le_rfl, fun h => absurd rfl h⟩
  | cons pa free => cases h; exact ⟨Nat.le_succ _, fun _ => le_rfl⟩

/-! ## Walking -/

theorem walk_fails (h : maxVa ≤ v → E .walk) : Fails (walk pt v) free E :=
  Fails.ite (fun hv => Fails.fail (h hv)) fun _ => Fails.pure

theorem present_fails (h : maxVa ≤ v → E .walk) : Fails (present pt v) free E :=
  Fails.bind (walk_fails h) fun _ _ _ => Fails.ite (fun _ => Fails.pure) fun _ => Fails.pure

theorem walkaddr_fails : Fails (walkaddr pt v) free E := by
  refine Fails.ite (fun _ => Fails.pure) fun hv => ?_
  refine Fails.bind (present_fails fun h => absurd h hv) fun r _ _ => ?_
  cases r with
  | none => exact Fails.pure
  | some e => exact Fails.pure

theorem walkRound_fails {there : Bool} {add : Page → PageTable} : Fails (walkRound there pt add) free E := by
  refine Fails.ite (fun _ => Fails.pure) fun _ => Fails.bind kalloc_fails fun r _ _ => ?_
  cases r with
  | none => exact Fails.pure
  | some pa => exact Fails.pure

theorem walkAlloc_fails (h : maxVa ≤ v → E .walk) : Fails (walkAlloc pt v) free E := by
  refine Fails.ite (fun hv => Fails.fail (h hv)) fun _ => ?_
  refine Fails.bind (by rw [walkDir_eq]; exact walkRound_fails) fun r _ _ => ?_
  exact Fails.ite (fun _ => by rw [walkTab_eq]; exact walkRound_fails) fun _ => Fails.pure

theorem kalloc_suffix (free : List Page) :
    Ensures kalloc free fun r free' => free' <:+ free ∧ ∀ pa, r = some pa → free = pa :: free' := by
  intro r free' h
  cases free with
  | nil => cases h; exact ⟨List.suffix_rfl, nofun⟩
  | cons pa _ =>
    cases h
    exact ⟨List.suffix_cons pa _, fun _ h => Option.some.inj h ▸ rfl⟩

theorem walkRound_suffix {there : Bool} {add : Page → PageTable} :
    Ensures (walkRound there pt add) free fun _ free' => free' <:+ free := by
  refine Ensures.ite (fun _ => Ensures.pure List.suffix_rfl) fun _ => ?_
  refine Ensures.bind ((kalloc_suffix free).mono fun r _ hl => ?_)
  cases r with
  | none => exact Ensures.pure hl.1
  | some pa => exact Ensures.pure hl.1

/-! ## Mapping and unmapping -/

theorem mappages_fails {e : Pte} (hw : maxVa ≤ v → E .walk) (hr : pt.leaf v ≠ none → E .remap) :
    Fails (mappages pt v e) free E := by
  refine Fails.bind (walkAlloc_fails hw) ((walkAlloc_spec pt v free).mono ?_)
  rintro ⟨ok, pt'⟩ free' ⟨-, w, -⟩
  refine Fails.ite (fun _ => ?_) fun _ => Fails.pure
  refine Fails.ite (fun h => Fails.fail (hr ?_)) fun _ => Fails.pure
  rw [← w.leaf]
  exact Option.isSome_iff_ne_none.mp h

theorem mappages_suffix {e : Pte} :
    Ensures (mappages pt v e) free fun _ free' => free' <:+ free := by
  have walked : Ensures (walkAlloc pt v) free fun _ free' => free' <:+ free := by
    refine Ensures.ite (fun _ => Ensures.fail) fun _ => ?_
    rw [walkDir_eq]
    refine Ensures.bind (walkRound_suffix.mono fun r free₁ h₁ => ?_)
    refine Ensures.ite (fun _ => ?_) fun _ => Ensures.pure h₁
    rw [walkTab_eq]
    exact walkRound_suffix.mono fun _ _ h₂ => h₂.trans h₁
  refine Ensures.bind (walked.mono fun r free₁ h₁ => ?_)
  refine Ensures.ite (fun _ => ?_) fun _ => Ensures.pure h₁
  exact Ensures.ite (fun _ => Ensures.fail) fun _ => Ensures.pure h₁

theorem mappages_length {e : Pte} :
    Ensures (mappages pt v e) free fun _ free' => free'.length ≤ free.length :=
  mappages_suffix.mono fun _ _ h => h.length_le

theorem vmfault_length {sz va : Nat} :
    Ensures (vmfault pt sz va) free fun _ free' => free'.length ≤ free.length := by
  refine Ensures.ite (fun _ => Ensures.pure le_rfl) fun _ => Ensures.bind ((present_spec pt _ free).mono ?_)
  rintro r _ ⟨rfl, -⟩
  cases r with
  | some e => exact Ensures.pure le_rfl
  | none =>
    refine Ensures.bind ((kalloc_length _).mono fun mem free₁ h₁ => ?_)
    cases mem with
    | none => exact Ensures.pure h₁.1
    | some mem =>
      refine Ensures.bind (mappages_length.mono fun r free₂ h₂ => ?_)
      refine Ensures.ite (fun _ => Ensures.pure (h₂.trans h₁.1)) fun _ => ?_
      -- the page goes back
      exact Ensures.bind fun _ free₃ h₃ => by
        cases h₃
        exact Ensures.pure ((Nat.succ_le_succ h₂).trans (h₁.2 (Option.some_ne_none mem)))


theorem uvmunmap_fails {doFree : Bool} (h : maxVa < v + n → E .walk) :
    Fails (uvmunmap pt v n doFree) free E := by
  induction n generalizing pt v free with
  | zero => exact Fails.pure
  | succ n ih =>
    refine Fails.bind (present_fails fun hv => h (by omega)) fun r _ _ => ?_
    have next {pt' : PageTable} {free' : List Page} : Fails (uvmunmap pt' (v + 1) n doFree) free' E :=
      ih fun hv => h (by omega)
    cases r with
    | none => exact next
    | some e =>
      cases doFree with
      | true => exact Fails.bind kfree_fails fun _ _ _ => next
      | false => exact next

theorem rollback_fails (a₀ : Nat) {doFree : Bool} (h : maxVa < a → E .walk) :
    Fails (do let pt ← uvmunmap pt a₀ (a - a₀) doFree; pure (false, pt)) free E := by
  by_cases ha : a₀ ≤ a
  · refine Fails.bind (uvmunmap_fails fun hv => h (by omega)) fun _ _ _ => Fails.pure
  · rw [Nat.sub_eq_zero_of_le (by omega)]
    exact Fails.bind Fails.pure fun _ _ _ => Fails.pure

theorem uvmallocLoop_fails {w x : Bool} (hw : E .walk)
    (hr : ∀ u, a ≤ u → u < a + n → u < a + free.length → pt.leaf u = none) :
    Fails (uvmallocLoop a₀ w x pt a n) free E := by
  induction n generalizing pt free a with
  | zero => exact Fails.pure
  | succ n ih =>
    refine Fails.bind kalloc_fails ((kalloc_length free).mono fun r free₁ h₁ => ?_)
    cases r with
    | none => exact rollback_fails a₀ fun _ => hw
    | some mem =>
      have hlen := h₁.2 (Option.some_ne_none mem)
      have ha : pt.leaf a = none := hr a le_rfl (by omega) (by omega)
      refine Fails.bind (mappages_fails (fun _ => hw) fun h => absurd ha h)
        (((mappages_spec pt a free₁ _).and mappages_length).mono ?_)
      rintro ⟨ok, pt₁⟩ free₂ ⟨⟨-, -, hok, -⟩, hl⟩
      refine Fails.ite (fun h => ih fun u hu hu' hlen' => ?_) fun _ => ?_
      · rw [(hok h).2, Function.update_of_ne (by omega)]
        exact hr u (by omega) (by omega) (by omega)
      · exact Fails.bind kfree_fails fun _ _ _ => rollback_fails a₀ fun _ => hw

theorem uvmalloc_fails {w x : Bool} {oldsz newsz : Nat} (hw : E .walk)
    (hr : ∀ u, pgRoundUp oldsz ≤ u → u < pgRoundUp newsz → u < pgRoundUp oldsz + free.length →
      pt.leaf u = none) : Fails (uvmalloc pt oldsz newsz w x) free E := by
  refine Fails.ite (fun _ => Fails.pure) fun hle => ?_
  refine Fails.bind (uvmallocLoop_fails hw fun u hu hu' => ?_) fun _ _ _ => Fails.pure
  exact hr u hu (by omega)

theorem uvmdealloc_fails {oldsz newsz : Nat} (hw : E .walk) :
    Fails (uvmdealloc pt oldsz newsz) free E := by
  refine Fails.ite (fun _ => Fails.pure) fun _ => ?_
  refine Fails.ite (fun _ => ?_) fun _ => Fails.bind Fails.pure fun _ _ _ => Fails.pure
  exact Fails.bind (uvmunmap_fails fun _ => hw) fun _ _ _ => Fails.pure

/-! ## Freeing -/

theorem freewalk_fails (h : (∃ v, pt.leaf v ≠ none) → E .leaf) : Fails (freewalk pt) free E := by
  have tab (j : Nat) (pa : Page) (free : List Page) : Fails (freeTab pt j pa) free E := by
    refine Fails.bind (Fails.upTo fun k _ s => ?_) fun _ _ _ => kfree_fails
    refine Fails.ite (fun hs => Fails.fail (h ⟨512 * j + k, ?_⟩)) fun _ => Fails.pure
    exact Option.isSome_iff_ne_none.mp hs
  have dir (i : Nat) (pa : Page) (free : List Page) : Fails (freeDir pt i pa) free E := by
    refine Fails.bind (Fails.upTo fun k _ s => ?_) fun _ _ _ => kfree_fails
    cases pt.tab (512 * i + k) with
    | none => exact Fails.pure
    | some child => exact tab _ child s
  refine Fails.bind (Fails.upTo fun i _ s => ?_) fun _ _ _ => kfree_fails
  cases pt.dir i with
  | none => exact Fails.pure
  | some child => exact dir i child s

theorem uvmfree_fails {sz : Nat} (hw : maxVa < pgRoundUp sz → E .walk)
    (h : ∀ v, pgRoundUp sz ≤ v → pt.leaf v = none) : Fails (uvmfree pt sz) free E := by
  refine Fails.ite (fun _ => ?_) fun hz => ?_
  · refine Fails.bind (uvmunmap_fails fun hv => hw (by omega)) ((uvmunmap_spec _ true pt 0 free).mono ?_)
    rintro pt' free' ⟨hc, -, -⟩
    refine freewalk_fails ?_
    rintro ⟨v, hv⟩
    refine absurd ?_ hv
    rw [hc v, Nat.zero_add]
    split
    · rfl
    · rename_i hm
      exact h v (by rw [mem_Ico] at hm; omega)
  · refine Fails.bind Fails.pure (Ensures.pure (freewalk_fails ?_))
    rintro ⟨v, hv⟩
    obtain rfl : sz = 0 := by omega
    exact absurd (h v (Nat.zero_le v)) hv

/-! ## Copying and mirroring -/

theorem uvmcopyLoop_fails (old : PageTable) (hw : E .walk)
    (hr : ∀ u, a ≤ u → u < a + n → pt.leaf u = none) : Fails (uvmcopyLoop old pt a n) free E := by
  induction n generalizing pt free a with
  | zero => exact Fails.pure
  | succ n ih =>
    refine Fails.bind (present_fails fun _ => hw) fun r free₁ _ => ?_
    cases r with
    | none => exact ih fun u hu hu' => hr u (by omega) (by omega)
    | some e =>
      refine Fails.bind kalloc_fails fun r free₂ _ => ?_
      cases r with
      | none => exact rollback_fails 0 fun _ => hw
      | some mem =>
        have ha := hr a le_rfl (by omega)
        refine Fails.bind (mappages_fails (fun _ => hw) fun h => absurd ha h)
          ((mappages_spec pt a free₂ _).mono ?_)
        rintro ⟨ok, pt₁⟩ free₃ ⟨-, -, hok, -⟩
        refine Fails.ite (fun h => ih fun u hu hu' => ?_) fun _ => ?_
        · rw [(hok h).2, Function.update_of_ne (by omega)]
          exact hr u (by omega) (by omega)
        · exact Fails.bind kfree_fails fun _ _ _ => rollback_fails 0 fun _ => hw

theorem uvmmirrorLoop_fails (old : PageTable) (hw : maxVa < a + n → E .walk)
    (ht : ∀ u, a ≤ u → u < a + n → old.tab (u / 512) = none → E .noPte)
    (hp : ∀ u, a ≤ u → u < a + n → old.leaf u = none → E .notPresent)
    (hr : ∀ u, a ≤ u → u < a + n → pt.leaf u = none) : Fails (uvmmirrorLoop old pt a n) free E := by
  induction n generalizing pt free a with
  | zero => exact Fails.pure
  | succ n ih =>
    refine Fails.bind (walk_fails fun h => hw (by omega)) ((walk_spec old a free).mono ?_)
    rintro _ _ ⟨rfl, rfl, -⟩
    refine Fails.ite (fun _ => ?_) fun h => Fails.fail (ht a le_rfl (by omega) (by simpa using h))
    cases hl : old.leaf a with
    | none => exact Fails.fail (hp a le_rfl (by omega) hl)
    | some e =>
      have ha := hr a le_rfl (by omega)
      refine Fails.bind (mappages_fails (fun h => hw (by omega)) fun h => absurd ha h)
        ((mappages_spec pt a _ _).mono ?_)
      rintro ⟨ok, pt₁⟩ free₃ ⟨-, -, hok, -⟩
      refine Fails.ite (fun h => ih (fun h => hw (by omega)) (fun u hu hu' => ht u (by omega) (by omega))
        (fun u hu hu' => hp u (by omega) (by omega)) fun u hu hu' => ?_) fun _ => ?_
      · rw [(hok h).2, Function.update_of_ne (by omega)]
        exact hr u (by omega) (by omega)
      · exact rollback_fails 0 fun h => hw (by omega)

/-! ## Faults and copies -/

theorem vmfault_fails {sz va : Nat} (hw : maxVa ≤ va / pgSize → E .walk) :
    Fails (vmfault pt sz va) free E := by
  refine Fails.ite (fun _ => Fails.pure) fun _ => ?_
  refine Fails.bind (present_fails hw) ((present_spec pt _ free).mono ?_)
  rintro r _ ⟨rfl, hr, -⟩
  cases r with
  | some e => exact Fails.pure
  | none =>
    refine Fails.bind kalloc_fails fun r free₁ _ => ?_
    cases r with
    | none => exact Fails.pure
    | some mem =>
      refine Fails.bind (mappages_fails hw fun h => absurd hr.symm h) fun r _ _ => ?_
      exact Fails.ite (fun _ => Fails.pure) fun _ => Fails.bind kfree_fails fun _ _ _ => Fails.pure

theorem copyoutPage_fails {sz : Nat} : Fails (copyoutPage pt sz v) free E := by
  refine Fails.ite (fun _ => Fails.pure) fun hv => ?_
  have writable {found : Bool} {pt' : PageTable} {free' : List Page} {test : Option Pte → Vm (Bool × PageTable)}
      (htest : ∀ r free, Fails (test r) free E) :
      Fails (if found then do test (← present pt' v) else pure (false, pt')) free' E :=
    Fails.ite (fun _ => Fails.bind (present_fails fun h => absurd h hv) fun r free _ => htest r free)
      fun _ => Fails.pure
  refine Fails.bind walkaddr_fails fun r _ _ => ?_
  cases r with
  | some pa => exact Fails.bind Fails.pure (Ensures.pure (writable fun r _ => by cases r <;> exact Fails.pure))
  | none =>
    have hpage : v * pgSize / pgSize = v := Nat.mul_div_cancel v (by decide)
    refine Fails.bind (vmfault_fails fun h => absurd (hpage ▸ h) hv) fun r free' _ => ?_
    exact Fails.bind Fails.pure (Ensures.pure (writable fun r _ => by cases r <;> exact Fails.pure))

theorem copyout_fails {sz dstva len : Nat} : Fails (copyout pt sz dstva len) free E := by
  have loop : ∀ m v (pt : PageTable) (free : List Page), Fails (copyoutLoop pt sz v m) free E := by
    intro m
    induction m with
    | zero => exact fun v pt free => Fails.pure
    | succ m ih =>
      intro v pt free
      refine Fails.bind copyoutPage_fails fun r _ _ => ?_
      exact Fails.ite (fun _ => ih _ _ _) fun _ => Fails.pure
  exact Fails.ite (fun _ => Fails.pure) fun _ => loop _ _ _ _

theorem uvmclear_fails (hw : E .walk) (hc : E .uvmclear) : Fails (uvmclear pt v) free E :=
  Fails.bind (walk_fails fun _ => hw) fun _ _ _ =>
    Fails.ite (fun _ => Fails.pure) fun _ => Fails.fail hc

end OsLab
