import OsLab.VmSound

/-!
# Growing, copying and mirroring page tables

`Extends` is what every growing function does to a page table: the mappings
stay, and each new page comes from the free list. A loop that runs out of
memory half way clears what it has mapped and returns the pages.
-/

namespace OsLab

open Mach Finset

structure Extends (free : List Page) (pt : PageTable) (free' : List Page) (pt' : PageTable) :
    Prop where
  keep : ∀ v e, pt.leaf v = some e →
    ∃ e', pt'.leaf v = some e' ∧ e'.pa = e.pa ∧ e'.mirrored = e.mirrored
  mir : pt'.mir = pt.mir
  pages : (free' : Multiset Page) + pt'.tables + pt'.own = free + pt.tables + pt.own

namespace Extends
variable {free free' free'' : List Page} {pt pt' pt'' : PageTable}

theorem refl (free : List Page) (pt : PageTable) : Extends free pt free pt :=
  ⟨fun _ e h => ⟨e, h, rfl, rfl⟩, rfl, rfl⟩

theorem trans (h : Extends free pt free' pt') (h' : Extends free' pt' free'' pt'') :
    Extends free pt free'' pt'' := by
  refine ⟨fun v e he => ?_, h'.mir.trans h.mir, h'.pages.trans h.pages⟩
  obtain ⟨e₁, h₁, hp₁, hm₁⟩ := h.keep v e he
  obtain ⟨e₂, h₂, hp₂, hm₂⟩ := h'.keep v e₁ h₁
  exact ⟨e₂, h₂, hp₂.trans hp₁, hm₂.trans hm₁⟩

theorem framed (h : Extends free pt free' pt') (hf : pt.Framed) : pt'.Framed := by
  have used : ∀ v, pt.leaf v ≠ none → pt'.leaf v ≠ none := by
    intro v hv
    obtain ⟨e, he⟩ := Option.ne_none_iff_exists'.mp hv
    obtain ⟨e', he', -⟩ := h.keep v e he
    rw [he']; exact Option.some_ne_none e'
  exact ⟨used _ hf.1, used _ hf.2⟩

theorem user (h : Extends free pt free' pt') : pt.own + pt.mir ≤ pt'.own + pt'.mir := by
  rw [pt.own_add_mir, pt'.own_add_mir]
  unfold PageTable.mapped
  refine sum_le_sum fun v _ => ?_
  cases hv : pt.leaf v with
  | none => exact Multiset.zero_le _
  | some e =>
    obtain ⟨e', he', hp, -⟩ := h.keep v e hv
    rw [he']
    change pageAt (some e.pa) ≤ pageAt (some e'.pa)
    rw [hp]

theorem of_walked (h : Walked pt free pt' free') : Extends free pt free' pt' := by
  refine ⟨fun v e he => ⟨e, h.leaf ▸ he, rfl, rfl⟩, ?_, ?_⟩
  · unfold PageTable.mir; rw [h.leaf]
  · unfold PageTable.own; rw [h.leaf, h.pages]

theorem of_same (h : ∀ u, (pt'.leaf u).map (fun e => (e.pa, e.mirrored)) =
    (pt.leaf u).map fun e => (e.pa, e.mirrored)) (ht : pt'.tables = pt.tables) :
    Extends free pt free pt' := by
  have pair {u : Nat} : ownAt (pt'.leaf u) = ownAt (pt.leaf u) ∧
      mirAt (pt'.leaf u) = mirAt (pt.leaf u) := by
    have hu := h u
    cases h' : pt'.leaf u <;> cases h₀ : pt.leaf u <;> simp_all [ownAt, mirAt]
  refine ⟨fun v e he => ?_, PageTable.mir_congr fun u _ => pair.2, ?_⟩
  · have hv := h v
    rw [he] at hv
    cases h' : pt'.leaf v with
    | none => rw [h'] at hv; cases hv
    | some e' =>
      rw [h'] at hv
      have hv := Prod.mk.inj (Option.some.inj hv)
      exact ⟨e', rfl, hv.1, hv.2⟩
  · have hown : pt'.own = pt.own := PageTable.own_congr fun u _ => pair.1
    rw [ht, hown]

theorem of_mapped {e : Pte} {v : Nat} (hv : v < trapframeVa) (he : e.mirrored = false)
    (hn : pt.leaf v = none) (hl : pt'.leaf = Function.update pt.leaf v (some e))
    (hp : (free' : Multiset Page) + pt'.tables + {e.pa} = free + pt.tables) :
    Extends free pt free' pt' := by
  have hS := mem_range.mpr hv
  refine ⟨fun u f hu => ⟨f, ?_, rfl, rfl⟩, ?_, ?_⟩
  · rw [hl, Function.update_of_ne]
    · exact hu
    · rintro rfl; rw [hn] at hu; cases hu
  · have := sum_update_mem mirAt pt.leaf hS (some e)
    unfold PageTable.mir
    rw [hl]
    simpa [hn, mirAt, he] using this
  · have := sum_update_mem ownAt pt.leaf hS (some e)
    have hown : pt'.own = pt.own + {e.pa} := by
      unfold PageTable.own
      rw [hl]
      simpa [hn, ownAt, he] using this
    rw [hown, ← hp]
    abel

end Extends

/-! ## Mapping a fresh page -/

/-- What a growing loop leaves behind: success, or everything from page `a₀`
on cleared and returned. -/
def Grown (a₀ a : Nat) (pt : PageTable) (free : List Page) (r : Bool × PageTable)
    (free' : List Page) : Prop :=
  (r.1 = true → Extends free pt free' r.2) ∧
  (r.1 = false → Cleared pt r.2 (Ico a₀ a) ∧
    (free' : Multiset Page) + r.2.tables = free + pt.tables + pt.mapped (Ico a₀ a))

section
variable {pt : PageTable} {free : List Page} {a₀ a : Nat}

theorem Grown.walked {r : Bool × PageTable} {free' : List Page} (h : Grown a a pt free r free')
    (hr : r.1 = false) : Walked pt free r.2 free' := by
  obtain ⟨hc, hp⟩ := h.2 hr
  rw [Ico_self] at hc hp
  refine ⟨funext fun u => ?_, ?_⟩
  · rw [hc u, if_neg (notMem_empty u)]
  · rw [hp, PageTable.mapped, sum_empty, add_zero]

theorem Grown.extends {r : Bool × PageTable} {free' : List Page} (h : Grown a a pt free r free') :
    Extends free pt free' r.2 := by
  cases hr : r.1 with
  | true => exact h.1 hr
  | false => exact Extends.of_walked (h.walked hr)

theorem rollback_spec {pt' : PageTable} {free' : List Page} (ha : a₀ ≤ a)
    (w : Walked pt free pt' free') :
    Ensures (do let pt ← uvmunmap pt' a₀ (a - a₀) true; pure (false, pt)) free'
      fun r free' => r.1 = false ∧ Grown a₀ a pt free r free' := by
  refine Ensures.bind ((uvmunmap_spec (a - a₀) true pt' a₀ free').mono ?_)
  rintro pt'' free'' ⟨hc, ht, hf⟩
  rw [Nat.add_sub_cancel' ha] at hc hf
  refine Ensures.pure ⟨rfl, nofun, fun _ => ⟨fun u => ?_, ?_⟩⟩
  · rw [hc u, w.leaf]
  · change (free'' : Multiset Page) + pt''.tables = _
    have hm : pt'.mapped (Ico a₀ a) = pt.mapped (Ico a₀ a) := by
      unfold PageTable.mapped; rw [w.leaf]
    rw [hf, ht, if_pos rfl, hm, ← w.pages]
    abel

theorem abandon_spec {pt' : PageTable} {free' : List Page} {mem : Page} (ha : a₀ ≤ a)
    (w : Walked pt free pt' (mem :: free')) :
    Ensures (do kfree mem; let pt ← uvmunmap pt' a₀ (a - a₀) true; pure (false, pt)) free'
      fun r free' => r.1 = false ∧ Grown a₀ a pt free r free' := by
  refine Ensures.bind ((kfree_spec mem free').mono fun _ free₂ h₂ => ?_)
  have w' : Walked pt free pt' free₂ := by
    refine ⟨w.leaf, ?_⟩
    rw [h₂, ← w.pages, ← Multiset.cons_coe, ← Multiset.singleton_add]
    abel
  exact rollback_spec ha w'

theorem Grown.next {e : Pte} {pt₁ : PageTable} {free₁ free' : List Page} {r : Bool × PageTable}
    (hF : pt.Framed) (ha : a₀ ≤ a) (hlt : a < maxVa) (he : e.mirrored = false)
    (hn : pt.leaf a = none) (hl : pt₁.leaf = Function.update pt.leaf a (some e))
    (hp : (free₁ : Multiset Page) + pt₁.tables + {e.pa} = free + pt.tables)
    (h : Grown a₀ (a + 1) pt₁ free₁ r free') : Grown a₀ a pt free r free' := by
  have ext : Extends free pt free₁ pt₁ := Extends.of_mapped (hF.lt hlt hn) he hn hl hp
  refine ⟨fun hok => ext.trans (h.1 hok), fun hok => ?_⟩
  obtain ⟨hc, hf⟩ := h.2 hok
  have split : Ico a₀ (a + 1) = insert a (Ico a₀ a) := by
    ext u; simp only [mem_Ico, mem_insert]; omega
  have hnot : a ∉ Ico a₀ a := by simp
  refine ⟨fun u => ?_, ?_⟩
  · rw [hc u, hl, split]
    by_cases hu : u = a
    · subst hu; simp [hn]
    · simp [hu]
  · have hm : pt₁.mapped (Ico a₀ (a + 1)) = {e.pa} + pt.mapped (Ico a₀ a) := by
      unfold PageTable.mapped
      rw [split, sum_insert hnot, hl, Function.update_self, Option.map_some, pageAt_some]
      refine congrArg (({e.pa} : Multiset Page) + ·) (sum_congr rfl fun u hu => ?_)
      rw [Function.update_of_ne]
      rintro rfl; exact hnot hu
    rw [hf, hm, ← hp]
    abel

theorem Grown.skip {free' : List Page} {r : Bool × PageTable}
    (h : Grown 0 (a + 1) pt free r free') (hn : pt.leaf a = none) : Grown 0 a pt free r free' := by
  refine ⟨h.1, fun hok => ?_⟩
  obtain ⟨hc, hf⟩ := h.2 hok
  refine ⟨fun u => ?_, ?_⟩
  · rw [hc u]
    by_cases hu : u = a
    · subst hu; simp [hn]
    · have : u < a + 1 ↔ u < a := by omega
      simp [this]
  · rw [hf]
    unfold PageTable.mapped
    rw [sum_Ico_succ_top (Nat.zero_le a), hn, Option.map_none, pageAt_none, add_zero]

theorem mapFresh_spec {e : Pte} {v : Nat} {free₀ : List Page}
    (h₀ : (free : Multiset Page) + {e.pa} = free₀) :
    Ensures (mappages pt v e) free fun r free' =>
      v < maxVa ∧
      (r.1 = true → pt.leaf v = none ∧ r.2.leaf = Function.update pt.leaf v (some e) ∧
        (free' : Multiset Page) + r.2.tables + {e.pa} = free₀ + pt.tables) ∧
      (r.1 = false → Walked pt free₀ r.2 (e.pa :: free')) := by
  refine (mappages_spec pt v free e).mono ?_
  rintro ⟨ok, pt'⟩ free' ⟨hp, hlt, hok, hno⟩
  have hp' : (free' : Multiset Page) + pt'.tables + {e.pa} = free₀ + pt.tables := by
    rw [hp, ← h₀]; abel
  refine ⟨hlt, fun h => ⟨(hok h).1, (hok h).2, hp'⟩, fun h => ⟨hno h, ?_⟩⟩
  rw [← hp', ← Multiset.cons_coe, ← Multiset.singleton_add]
  abel

theorem uvmallocLoop_spec (w x : Bool) (n : Nat) (hF : pt.Framed) (ha : a₀ ≤ a) :
    Ensures (uvmallocLoop a₀ w x pt a n) free fun r free' =>
      Grown a₀ a pt free r free' ∧ (r.1 = true → ∀ u, a ≤ u → u < a + n → pt.leaf u = none) := by
  induction n generalizing pt free a with
  | zero => exact Ensures.pure ⟨⟨fun _ => Extends.refl free pt, nofun⟩, fun _ u _ _ => by omega⟩
  | succ n ih =>
    refine Ensures.bind ((kalloc_spec free).mono ?_)
    rintro r free₀ hr
    cases r with
    | none =>
      refine (rollback_spec ha ⟨rfl, by rw [← hr, pageAt_none, add_zero]⟩).mono ?_
      intro r _ h
      exact ⟨h.2, fun hok => absurd (h.1.symm.trans hok) Bool.false_ne_true⟩
    | some mem =>
      refine Ensures.bind ((mapFresh_spec hr).mono ?_)
      rintro ⟨ok, pt₁⟩ free₁ ⟨hlt, hok, hno⟩
      refine Ensures.ite (fun h => ?_) fun h => ?_
      · obtain ⟨hn, hl, hp⟩ := hok h
        have ext := Extends.of_mapped (hF.lt hlt hn) rfl hn hl hp
        refine (ih (ext.framed hF) (Nat.le_succ_of_le ha)).mono ?_
        rintro r free' ⟨hg, hfree⟩
        refine ⟨Grown.next hF ha hlt rfl hn hl hp hg, fun hr u hau hu => ?_⟩
        rcases Nat.eq_or_lt_of_le hau with rfl | hau
        · exact hn
        · have := hfree hr u hau (by omega)
          rwa [hl, Function.update_of_ne (by omega)] at this
      · refine (abandon_spec ha (hno (by simpa using h))).mono ?_
        intro r _ h
        exact ⟨h.2, fun hok => absurd (h.1.symm.trans hok) Bool.false_ne_true⟩

theorem uvmalloc_spec (w x : Bool) {oldsz newsz : Nat} (hF : pt.Framed)
    (hsz : pgRoundUp oldsz ≤ trapframeVa) :
    Ensures (uvmalloc pt oldsz newsz w x) free fun r free' =>
      Extends free pt free' r.2 ∧ (r.1 ≠ 0 → pgRoundUp r.1 ≤ trapframeVa) := by
  refine Ensures.ite (fun _ => Ensures.pure ⟨Extends.refl free pt, fun _ => hsz⟩) fun hle => ?_
  refine Ensures.bind ((uvmallocLoop_spec w x _ hF le_rfl).mono ?_)
  rintro ⟨ok, pt'⟩ free' ⟨hg, hfree⟩
  cases ok with
  | true =>
    refine Ensures.pure ⟨hg.1 rfl, fun _ => ?_⟩
    -- the loop would have met the entry of the trapframe
    by_contra hlt
    change ¬ pgRoundUp newsz ≤ trapframeVa at hlt
    exact hF.1 (hfree rfl _ hsz (by omega))
  | false => exact Ensures.pure ⟨hg.extends, fun h => absurd rfl h⟩

/-! ## Shrinking -/

theorem uvmdealloc_spec (oldsz newsz : Nat) :
    Ensures (uvmdealloc pt oldsz newsz) free fun r free' =>
      r.1 ≤ oldsz ∧ Cleared pt r.2 (Ico (pgRoundUp newsz) (pgRoundUp oldsz)) ∧
      (free' : Multiset Page) + r.2.tables =
        free + pt.tables + pt.mapped (Ico (pgRoundUp newsz) (pgRoundUp oldsz)) := by
  -- nothing to unmap
  have none {hi lo : Nat} (h : hi ≤ lo) : Cleared pt pt (Ico lo hi) ∧
      (free : Multiset Page) + pt.tables = free + pt.tables + pt.mapped (Ico lo hi) := by
    rw [Ico_eq_empty_of_le h]
    exact ⟨fun u => by simp, by simp [PageTable.mapped]⟩
  refine Ensures.ite (fun hle => Ensures.pure ⟨le_rfl, none ?_⟩) fun hlt => ?_
  · unfold pgRoundUp; omega
  · refine Ensures.ite (fun h => ?_) fun h =>
      Ensures.bind (Ensures.pure (Ensures.pure ⟨by omega, none (by omega)⟩))
    refine Ensures.bind ((uvmunmap_spec _ true pt _ free).mono ?_)
    rintro pt' free' ⟨hc, ht, hf⟩
    rw [Nat.add_sub_cancel' h.le] at hc hf
    refine Ensures.pure ⟨by omega, hc, ?_⟩
    rw [hf, ht, if_pos rfl]
    abel

/-! ## Copying and mirroring -/

theorem uvmcopyLoop_spec (old : PageTable) (n : Nat) (hF : pt.Framed)
    (hnew : ∀ u, a ≤ u → u < a + n → pt.leaf u = none) :
    Ensures (uvmcopyLoop old pt a n) free (Grown 0 a pt free) := by
  induction n generalizing pt free a with
  | zero => exact Ensures.pure ⟨fun _ => Extends.refl free pt, nofun⟩
  | succ n ih =>
    refine Ensures.bind ((present_spec old a free).mono ?_)
    rintro r _ ⟨rfl, rfl, -⟩
    cases ho : old.leaf a with
    | none =>
      refine (ih hF fun u hu hu' => hnew u (by omega) (by omega)).mono fun r free' h => ?_
      exact h.skip (hnew a le_rfl (by omega))
    | some e =>
      refine Ensures.bind ((kalloc_spec _).mono ?_)
      rintro r free₀ hr
      cases r with
      | none =>
        exact (rollback_spec (Nat.zero_le a) ⟨rfl, by rw [← hr, pageAt_none, add_zero]⟩).mono
          fun r _ h => h.2
      | some mem =>
        refine Ensures.bind ((mapFresh_spec hr).mono ?_)
        rintro ⟨ok, pt₁⟩ free₁ ⟨hlt, hok, hno⟩
        refine Ensures.ite (fun h => ?_) fun h => ?_
        · obtain ⟨hn, hl, hp⟩ := hok h
          have ext := Extends.of_mapped (hF.lt hlt hn) rfl hn hl hp
          refine (ih (ext.framed hF) fun u hu hu' => ?_).mono fun r free' hg =>
            Grown.next hF (Nat.zero_le a) hlt rfl hn hl hp hg
          rw [hl, Function.update_of_ne (by omega)]
          exact hnew u (by omega) (by omega)
        · exact (abandon_spec (Nat.zero_le a) (hno (by simpa using h))).mono fun r _ h => h.2

def PageTable.Bare (pt : PageTable) : Prop := ∀ u < trapframeVa, pt.leaf u = none

theorem PageTable.Bare.own (h : pt.Bare) : pt.own = 0 :=
  PageTable.own_eq_zero fun u hu => by rw [h u hu, ownAt_none]

theorem PageTable.Bare.mir (h : pt.Bare) : pt.mir = 0 :=
  PageTable.mir_eq_zero fun u hu => by rw [h u hu, mirAt_none]

theorem uvmcopy_spec (old : PageTable) {sz : Nat} (hF : pt.Framed) (hb : pt.Bare)
    (hsz : pgRoundUp sz ≤ trapframeVa) :
    Ensures (uvmcopy old pt sz) free fun r free' =>
      Extends free pt free' r.2 ∧ (r.1 = false → Walked pt free r.2 free') :=
  (uvmcopyLoop_spec old _ hF fun u _ hu => hb u (by omega)).mono fun _ _ hg =>
    ⟨hg.extends, hg.walked⟩

theorem uvmmirrorLoop_spec (old : PageTable) (n : Nat) :
    Ensures (uvmmirrorLoop old pt a n) free fun r free' =>
      (free' : Multiset Page) + r.2.tables = free + pt.tables ∧
      (r.1 = true → ∀ u, r.2.leaf u = if u ∈ Ico a (a + n) then
        (old.leaf u).map fun e => { e with mirrored := true } else pt.leaf u) ∧
      (r.1 = false → Cleared pt r.2 (Ico 0 a)) := by
  induction n generalizing pt free a with
  | zero => exact Ensures.pure ⟨rfl, fun _ u => by simp, nofun⟩
  | succ n ih =>
    refine Ensures.bind ((walk_spec old a free).mono ?_)
    rintro r _ ⟨rfl, rfl, -⟩
    refine Ensures.ite (fun _ => ?_) fun _ => Ensures.fail
    cases ho : old.leaf a with
    | none => exact Ensures.fail
    | some e =>
      refine Ensures.bind ((mappages_spec pt a _ _).mono ?_)
      rintro ⟨ok, pt₁⟩ free₁ ⟨hp, -, hok, hno⟩
      refine Ensures.ite (fun h => ?_) fun h => ?_
      · obtain ⟨hn, hl⟩ := hok h
        refine Ensures.mono ih ?_
        rintro ⟨ok', pt₂⟩ free₂ ⟨hp₂, hok₂, hno₂⟩
        refine ⟨hp₂.trans hp, fun h₂ u => ?_, fun h₂ u => ?_⟩
        · rw [hok₂ h₂ u, hl]
          by_cases hu : u = a
          · subst hu; simp [ho]
          · have : a + 1 ≤ u ∧ u < a + 1 + n ↔ a ≤ u ∧ u < a + (n + 1) := by omega
            simp only [mem_Ico, this, Function.update_of_ne hu]
        · rw [hno₂ h₂ u, hl]
          by_cases hu : u = a
          · subst hu; simp [hn]
          · have : u < a + 1 ↔ u < a := by omega
            simp [this, Function.update_of_ne hu]
      · refine Ensures.bind ((uvmunmap_spec a false pt₁ 0 free₁).mono ?_)
        rintro pt₂ free₂ ⟨hc, ht, hf⟩
        rw [Nat.zero_add] at hc
        refine Ensures.pure ⟨?_, nofun, fun _ u => ?_⟩
        · rw [ht, hf, if_neg Bool.false_ne_true, add_zero, hp]
        · rw [hc u, hno (by simpa using h)]

theorem uvmmirror_spec (old : PageTable) {sz : Nat} (hF : pt.Framed) (hb : pt.Bare)
    (hsz : pgRoundUp sz ≤ trapframeVa) :
    Ensures (uvmmirror old pt sz) free fun r free' =>
      (free' : Multiset Page) + r.2.tables = free + pt.tables ∧ r.2.Framed ∧ r.2.own = 0 ∧
      r.2.mir ≤ old.own + old.mir ∧ (r.1 = false → Walked pt free r.2 free') := by
  refine (uvmmirrorLoop_spec old _).mono ?_
  rintro ⟨ok, pt'⟩ free' ⟨hp, hok, hno⟩
  refine ⟨hp, ?_⟩
  cases ok with
  | false =>
    have hl : pt'.leaf = pt.leaf := funext fun u => by rw [hno rfl u]; simp
    have hb' : pt'.Bare := fun u hu => by rw [hl]; exact hb u hu
    have hF' : pt'.Framed := by unfold PageTable.Framed; rw [hl]; exact hF
    exact ⟨hF', hb'.own, hb'.mir ▸ Multiset.zero_le _, fun _ => ⟨hl, hp⟩⟩
  | true =>
    have hl := hok rfl
    have above : ∀ u, trapframeVa ≤ u → pt'.leaf u = pt.leaf u := fun u hu => by
      rw [hl u, if_neg (by rw [mem_Ico]; omega)]
    have below : ∀ u < trapframeVa, ownAt (pt'.leaf u) = 0 ∧
        mirAt (pt'.leaf u) ≤ pageAt ((old.leaf u).map Pte.pa) := by
      intro u hu
      rw [hl u]
      split
      · cases old.leaf u with
        | none => exact ⟨rfl, Multiset.zero_le _⟩
        | some e => exact ⟨rfl, le_rfl⟩
      · rw [hb u hu]; exact ⟨rfl, Multiset.zero_le _⟩
    refine ⟨?_, PageTable.own_eq_zero fun u hu => (below u hu).1, ?_, nofun⟩
    · unfold PageTable.Framed
      rw [above _ le_rfl, above trampoline (by unfold trapframeVa; omega)]
      exact hF
    · rw [old.own_add_mir]
      unfold PageTable.mir PageTable.mapped
      exact sum_le_sum fun u hu => (below u (mem_range.mp hu)).2

/-! ## Faults and copies -/

theorem uvmclear_spec (v : Nat) :
    Ensures (uvmclear pt v) free fun pt' free' => Extends free pt free' pt' := by
  refine Ensures.bind ((walk_spec pt v free).mono ?_)
  rintro _ _ ⟨rfl, rfl, -⟩
  refine Ensures.ite (fun h => Ensures.pure ?_) fun _ => Ensures.fail
  have hl := pt.setLeaf_leaf ((pt.leaf v).map fun pte => { pte with u := false })
    (Option.isSome_iff_ne_none.mp h)
  -- the page and the ghost flag of each entry are as before
  have same : ∀ u, ((pt.setLeaf v ((pt.leaf v).map fun pte => { pte with u := false })).leaf u).map
      (fun e => (e.pa, e.mirrored)) = (pt.leaf u).map fun e => (e.pa, e.mirrored) := by
    intro u
    rw [hl]
    by_cases hu : u = v
    · subst hu
      rw [Function.update_self, Option.map_map]
      rfl
    · rw [Function.update_of_ne hu]
  exact Extends.of_same same (PageTable.setLeaf_tables ..)

theorem vmfault_spec (sz va : Nat) (hF : pt.Framed) :
    Ensures (vmfault pt sz va) free fun r free' => Extends free pt free' r.2 := by
  refine Ensures.ite (fun _ => Ensures.pure (Extends.refl free pt)) fun _ => ?_
  refine Ensures.bind ((present_spec pt _ free).mono ?_)
  rintro r _ ⟨rfl, rfl, -⟩
  cases pt.leaf (va / pgSize) with
  | some _ => exact Ensures.pure (Extends.refl _ pt)
  | none =>
    refine Ensures.bind ((kalloc_spec _).mono ?_)
    rintro r free₀ hr
    cases r with
    | none => exact Ensures.pure (Extends.of_walked ⟨rfl, by rw [← hr, pageAt_none, add_zero]⟩)
    | some mem =>
      refine Ensures.bind ((mapFresh_spec hr).mono ?_)
      rintro ⟨ok, pt₁⟩ free₁ ⟨hlt, hok, hno⟩
      refine Ensures.ite (fun h => ?_) fun h => ?_
      · obtain ⟨hn, hl, hp⟩ := hok h
        exact Ensures.pure (Extends.of_mapped (hF.lt hlt hn) rfl hn hl hp)
      · have w := hno (by simpa using h)
        refine Ensures.bind ((kfree_spec mem free₁).mono fun _ free₂ h₂ => ?_)
        refine Ensures.pure (Extends.of_walked ⟨w.leaf, ?_⟩)
        rw [← w.pages, h₂, ← Multiset.cons_coe, ← Multiset.singleton_add]
        abel

theorem walkaddr_spec (v : Nat) :
    Ensures (walkaddr pt v) free fun _ free' => free' = free := by
  refine Ensures.ite (fun _ => Ensures.pure rfl) fun _ => ?_
  refine Ensures.bind ((present_spec pt v free).mono ?_)
  rintro r _ ⟨rfl, -, -⟩
  cases r with
  | none => exact Ensures.pure rfl
  | some e => exact Ensures.pure rfl

theorem copyoutPage_table {sz v : Nat} {Q : PageTable → List Page → Prop} (h : Q pt free)
    (hfault : Ensures (vmfault pt sz (v * pgSize)) free fun r free' => Q r.2 free') :
    Ensures (copyoutPage pt sz v) free fun r free' => Q r.2 free' := by
  -- the test of `PTE_W` changes nothing
  have writable {found : Bool} {pt' : PageTable} {free' : List Page} {test : Option Pte → Vm (Bool × PageTable)}
      (htest : ∀ r free, Q pt' free → Ensures (test r) free fun r free' => Q r.2 free') (h : Q pt' free') :
      Ensures (if found then do test (← present pt' v) else pure (false, pt')) free' fun r free' => Q r.2 free' := by
    refine Ensures.ite (fun _ => ?_) fun _ => Ensures.pure h
    refine Ensures.bind ((present_spec pt' v free').mono ?_)
    rintro r _ ⟨rfl, -, -⟩
    exact htest r _ h
  refine Ensures.ite (fun _ => Ensures.pure h) fun _ => ?_
  refine Ensures.bind ((walkaddr_spec v).mono ?_)
  rintro r _ rfl
  cases r with
  | some pa => exact Ensures.bind (Ensures.pure (writable (fun r _ h => by cases r <;> exact Ensures.pure h) h))
  | none =>
    refine Ensures.bind (hfault.mono fun _ _ h' => Ensures.bind (Ensures.pure ?_))
    exact writable (fun r _ h => by cases r <;> exact Ensures.pure h) h'

theorem copyoutPage_spec (sz v : Nat) (hF : pt.Framed) :
    Ensures (copyoutPage pt sz v) free fun r free' => Extends free pt free' r.2 :=
  copyoutPage_table (Q := fun pt' free' => Extends free pt free' pt') (Extends.refl free pt) (vmfault_spec sz _ hF)

theorem copyout_spec (sz dstva len : Nat) (hF : pt.Framed) :
    Ensures (copyout pt sz dstva len) free fun r free' => Extends free pt free' r.2 := by
  have loop : ∀ n v (pt : PageTable) (free : List Page), pt.Framed →
      Ensures (copyoutLoop pt sz v n) free fun r free' => Extends free pt free' r.2 := by
    intro n
    induction n with
    | zero => exact fun v pt free _ => Ensures.pure (Extends.refl free pt)
    | succ n ih =>
      intro v pt free hF
      refine Ensures.bind ((copyoutPage_spec sz v hF).mono ?_)
      rintro ⟨ok, pt'⟩ free' h
      refine Ensures.ite (fun _ => ?_) fun _ => Ensures.pure h
      exact (ih (v + 1) pt' free' (h.framed hF)).mono fun _ _ h' => h.trans h'
  refine Ensures.ite (fun _ => Ensures.pure (Extends.refl free pt)) fun _ => ?_
  exact loop _ _ pt free hF

end

end OsLab
