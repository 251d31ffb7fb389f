import Mathlib.Algebra.BigOperators.Intervals
import Mathlib.Algebra.Order.BigOperators.Group.Finset
import Mathlib.Algebra.Order.Group.Multiset
import Mathlib.Tactic.Abel
import OsLab.Vm

/-!
# Where the pages of a page table go

Each function of `vm.c` moves pages between the free list and a page table, which has
the page-table pages (`tables`) and maps user pages: its own (`own`) and those it only
mirrors (`mir`).
-/

namespace OsLab

open Mach Finset

/-! ## Sums over entries -/

section
variable {α : Type} (g : Option α → Multiset Page) (f : Nat → Option α) {S T : Finset Nat}

theorem sum_update_mem {u : Nat} (hu : u ∈ S) (x : Option α) :
    ∑ v ∈ S, g (Function.update f u x v) + g (f u) = ∑ v ∈ S, g (f v) + g x := by
  rw [← add_sum_erase S _ hu, ← add_sum_erase S (fun v => g (f v)) hu, Function.update_self]
  have : ∑ v ∈ S.erase u, g (Function.update f u x v) = ∑ v ∈ S.erase u, g (f v) :=
    sum_congr rfl fun v hv => by rw [Function.update_of_ne (ne_of_mem_erase hv)]
  rw [this]
  abel

theorem sum_cleared (h0 : g none = 0) (hS : S ⊆ T) :
    ∑ v ∈ T, g (if v ∈ S then none else f v) + ∑ v ∈ S, g (f v) = ∑ v ∈ T, g (f v) := by
  rw [← sum_sdiff hS, ← sum_sdiff hS]
  have h1 : ∑ v ∈ T \ S, g (if v ∈ S then none else f v) = ∑ v ∈ T \ S, g (f v) :=
    sum_congr rfl fun v hv => by rw [if_neg (mem_sdiff.mp hv).2]
  have h2 : ∑ v ∈ S, g (if v ∈ S then none else f v) = 0 :=
    sum_eq_zero fun v hv => by rw [if_pos hv, h0]
  rw [h1, h2, add_zero]

end

theorem sum_range_mul (f : Nat → Multiset Page) (m n : Nat) :
    ∑ j ∈ range (m * n), f j = ∑ i ∈ range n, ∑ k ∈ range m, f (m * i + k) := by
  induction n with
  | zero => simp
  | succ n ih => rw [Nat.mul_succ, sum_range_add, sum_range_succ, ih]

/-! ## The pages of a page table -/

def pageAt (o : Option Page) : Multiset Page := o.elim 0 fun pa => {pa}

def ownAt (o : Option Pte) : Multiset Page := o.elim 0 fun e => if e.mirrored then 0 else {e.pa}

def mirAt (o : Option Pte) : Multiset Page := o.elim 0 fun e => if e.mirrored then {e.pa} else 0

@[simp] theorem pageAt_none : pageAt none = 0 := rfl
@[simp] theorem pageAt_some (pa : Page) : pageAt (some pa) = {pa} := rfl
@[simp] theorem ownAt_none : ownAt none = 0 := rfl
@[simp] theorem mirAt_none : mirAt none = 0 := rfl

theorem ownAt_add_mirAt (o : Option Pte) : ownAt o + mirAt o = pageAt (o.map Pte.pa) := by
  cases o with
  | none => rfl
  | some e => by_cases h : e.mirrored <;> simp [ownAt, mirAt, pageAt, h]

namespace PageTable

@[irreducible] def tables (pt : PageTable) : Multiset Page :=
  {pt.root} + ∑ i ∈ range 512, pageAt (pt.dir i) + ∑ j ∈ range (512 * 512), pageAt (pt.tab j)

@[irreducible] def own (pt : PageTable) : Multiset Page := ∑ v ∈ range trapframeVa, ownAt (pt.leaf v)

@[irreducible] def mir (pt : PageTable) : Multiset Page := ∑ v ∈ range trapframeVa, mirAt (pt.leaf v)

@[irreducible] def mapped (pt : PageTable) (S : Finset Nat) : Multiset Page :=
  ∑ v ∈ S, pageAt ((pt.leaf v).map Pte.pa)

theorem own_add_mir (pt : PageTable) : pt.own + pt.mir = pt.mapped (range trapframeVa) := by
  unfold own mir mapped
  rw [← sum_add_distrib]
  exact sum_congr rfl fun v _ => ownAt_add_mirAt (pt.leaf v)

theorem own_congr {pt pt' : PageTable}
    (h : ∀ u < trapframeVa, ownAt (pt'.leaf u) = ownAt (pt.leaf u)) : pt'.own = pt.own := by
  unfold own
  exact sum_congr rfl fun u hu => h u (mem_range.mp hu)

theorem mir_congr {pt pt' : PageTable}
    (h : ∀ u < trapframeVa, mirAt (pt'.leaf u) = mirAt (pt.leaf u)) : pt'.mir = pt.mir := by
  unfold mir
  exact sum_congr rfl fun u hu => h u (mem_range.mp hu)

theorem own_eq_zero {pt : PageTable} (h : ∀ u < trapframeVa, ownAt (pt.leaf u) = 0) :
    pt.own = 0 := by
  unfold own
  exact sum_eq_zero fun u hu => h u (mem_range.mp hu)

theorem mir_eq_zero {pt : PageTable} (h : ∀ u < trapframeVa, mirAt (pt.leaf u) = 0) :
    pt.mir = 0 := by
  unfold mir
  exact sum_eq_zero fun u hu => h u (mem_range.mp hu)

def Framed (pt : PageTable) : Prop := pt.leaf trapframeVa ≠ none ∧ pt.leaf trampoline ≠ none

theorem Framed.lt {pt : PageTable} (h : pt.Framed) {v : Nat} (hv : v < maxVa)
    (hn : pt.leaf v = none) : v < trapframeVa := by
  have h1 : v ≠ trapframeVa := fun e => h.1 (e ▸ hn)
  have h2 : v ≠ trampoline := fun e => h.2 (e ▸ hn)
  unfold trapframeVa trampoline maxVa at *
  omega

theorem empty_tables (pa : Page) : (empty pa).tables = {pa} := by
  have hz (n : Nat) : ∑ i ∈ range n, pageAt (none : Option Page) = 0 :=
    sum_eq_zero fun _ _ => pageAt_none
  unfold tables empty
  rw [hz, hz, add_zero, add_zero]

@[simp] theorem setLeaf_tables (pt : PageTable) (v : Nat) (e : Option Pte) :
    (pt.setLeaf v e).tables = pt.tables := by
  unfold setLeaf tables
  split <;> rfl

theorem setLeaf_leaf (pt : PageTable) {v : Nat} (e : Option Pte) (h : pt.tab (v / 512) ≠ none) :
    (pt.setLeaf v e).leaf = Function.update pt.leaf v e := by
  unfold setLeaf
  rw [dif_neg h]

@[simp] theorem addDir_leaf (pt : PageTable) (i : Nat) (pa : Page) :
    (pt.addDir i pa).leaf = pt.leaf := by
  unfold addDir
  split <;> rfl

@[simp] theorem addTab_leaf (pt : PageTable) (j : Nat) (pa : Page) :
    (pt.addTab j pa).leaf = pt.leaf := by
  unfold addTab
  split <;> rfl

theorem addDir_tables (pt : PageTable) {i : Nat} (pa : Page) (hi : i < 512)
    (hn : pt.dir i = none) : (pt.addDir i pa).tables = pt.tables + {pa} := by
  have h := sum_update_mem pageAt pt.dir (mem_range.mpr hi) (some pa)
  rw [hn, pageAt_none, add_zero, pageAt_some] at h
  unfold addDir tables
  rw [dif_pos hi]
  simp only
  rw [h]
  abel

theorem addTab_tables (pt : PageTable) {j : Nat} (pa : Page) (hd : pt.dir (j / 512) ≠ none)
    (hn : pt.tab j = none) : (pt.addTab j pa).tables = pt.tables + {pa} := by
  have hj : j < 512 * 512 := by
    by_contra hj
    exact hd (pt.dir_lt _ (by omega))
  have h := sum_update_mem pageAt pt.tab (mem_range.mpr hj) (some pa)
  rw [hn, pageAt_none, add_zero, pageAt_some] at h
  unfold addTab tables
  rw [dif_neg hd]
  simp only
  rw [h]
  abel

theorem addTab_tab (pt : PageTable) {j : Nat} (pa : Page) (hd : pt.dir (j / 512) ≠ none) :
    (pt.addTab j pa).tab j = some pa := by
  unfold addTab
  rw [dif_neg hd]
  exact Function.update_self ..

theorem addDir_dir (pt : PageTable) {i : Nat} (pa : Page) (hi : i < 512) :
    (pt.addDir i pa).dir i = some pa := by
  unfold addDir
  rw [dif_pos hi]
  exact Function.update_self ..

end PageTable

/-! ## Allocating, walking, mapping -/

theorem kalloc_spec (free : List Page) :
    Ensures kalloc free fun r free' =>
      (free' : Multiset Page) + pageAt r = free := by
  intro r free' h
  cases free with
  | nil => cases h; rfl
  | cons p free =>
    cases h
    rw [← Multiset.cons_coe, ← Multiset.singleton_add, add_comm, pageAt_some]

theorem kfree_spec (pa : Page) (free : List Page) :
    Ensures (kfree pa) free fun _ free' => (free' : Multiset Page) = free + {pa} := by
  intro r free' h
  cases h
  rw [← Multiset.cons_coe, ← Multiset.singleton_add, add_comm]

section
variable (pt : PageTable) (v : Nat) (free : List Page)

theorem walk_eq (hv : v < maxVa) :
    walk pt v free = .ok ((pt.tab (v / 512)).isSome, free) := by
  unfold walk
  rw [if_neg (by omega)]
  cases hd : pt.dir (v / 512 / 512) with
  | none => rw [pt.tab_dir _ hd]; rfl
  | some pa => rfl

theorem walk_spec :
    Ensures (walk pt v) free fun r free' =>
      free' = free ∧ r = (pt.tab (v / 512)).isSome ∧ v < maxVa := by
  by_cases hv : v < maxVa
  · intro r free' h
    rw [walk_eq pt v free hv] at h
    cases h
    exact ⟨rfl, rfl, hv⟩
  · exact Ensures.ite (fun _ => Ensures.fail) fun h => absurd h (by omega)

theorem present_spec :
    Ensures (present pt v) free fun r free' => free' = free ∧ r = pt.leaf v ∧ v < maxVa := by
  refine Ensures.bind ((walk_spec pt v free).mono ?_)
  rintro _ _ ⟨rfl, rfl, hv⟩
  refine Ensures.ite (fun _ => Ensures.pure ⟨rfl, rfl, hv⟩) fun h => Ensures.pure ⟨rfl, ?_, hv⟩
  -- without a table there is no entry
  rw [Bool.not_eq_true, Option.isSome_eq_false_iff, Option.isNone_iff_eq_none] at h
  exact (pt.leaf_tab v h).symm

structure Walked (pt : PageTable) (free : List Page) (pt' : PageTable) (free' : List Page) :
    Prop where
  leaf : pt'.leaf = pt.leaf
  pages : (free' : Multiset Page) + pt'.tables = free + pt.tables

theorem Walked.refl : Walked pt free pt free := ⟨rfl, rfl⟩

/-- Both rounds of `walk` with `alloc = 1`: an entry that is not there is made
from a free page. -/
def walkRound (there : Bool) (pt : PageTable) (add : Page → PageTable) : Vm (Bool × PageTable) :=
  if there then pure (true, pt)
  else do
    match ← kalloc with
    | none => pure (false, pt)
    | some pa => pure (true, add pa)

theorem walkDir_eq : walkDir pt v = walkRound (pt.dir (v / 512 / 512)).isSome pt (pt.addDir (v / 512 / 512)) := rfl

theorem walkTab_eq : walkTab pt v = walkRound (pt.tab (v / 512)).isSome pt (pt.addTab (v / 512)) := rfl

theorem walkRound_spec {there : Bool} {add : Page → PageTable} {P : PageTable → Prop} (ht : there = true → P pt)
    (ha : there = false → ∀ pa, (add pa).leaf = pt.leaf ∧ (add pa).tables = pt.tables + {pa} ∧ P (add pa)) :
    Ensures (walkRound there pt add) free fun r free' => Walked pt free r.2 free' ∧ (r.1 = true → P r.2) := by
  refine Ensures.ite (fun h => Ensures.pure ⟨Walked.refl pt free, fun _ => ht h⟩) fun h => ?_
  refine Ensures.bind ((kalloc_spec free).mono ?_)
  intro r free' hr
  cases r with
  | none => exact Ensures.pure ⟨⟨rfl, by rw [← hr, pageAt_none, add_zero]⟩, nofun⟩
  | some pa =>
    obtain ⟨hl, hp, hP⟩ := ha (by simpa using h) pa
    refine Ensures.pure ⟨⟨hl, ?_⟩, fun _ => hP⟩
    rw [hp, ← hr, pageAt_some]
    abel

theorem walkDir_spec (hv : v < maxVa) :
    Ensures (walkDir pt v) free fun r free' =>
      Walked pt free r.2 free' ∧ (r.1 = true → r.2.dir (v / 512 / 512) ≠ none) := by
  have hi : v / 512 / 512 < 512 := by unfold maxVa at hv; omega
  rw [walkDir_eq]
  refine walkRound_spec pt free (P := fun pt' => pt'.dir (v / 512 / 512) ≠ none)
    (fun h => Option.isSome_iff_ne_none.mp h) fun h pa => ⟨pt.addDir_leaf _ pa, ?_, ?_⟩
  · exact pt.addDir_tables pa hi (by simpa using h)
  · rw [pt.addDir_dir pa hi]
    exact Option.some_ne_none pa

theorem walkTab_spec (hd : pt.dir (v / 512 / 512) ≠ none) :
    Ensures (walkTab pt v) free fun r free' =>
      Walked pt free r.2 free' ∧ (r.1 = true → r.2.tab (v / 512) ≠ none) := by
  rw [walkTab_eq]
  refine walkRound_spec pt free (P := fun pt' => pt'.tab (v / 512) ≠ none)
    (fun h => Option.isSome_iff_ne_none.mp h) fun h pa => ⟨pt.addTab_leaf _ pa, ?_, ?_⟩
  · exact pt.addTab_tables pa hd (by simpa using h)
  · rw [pt.addTab_tab pa hd]
    exact Option.some_ne_none pa

theorem walkAlloc_spec :
    Ensures (walkAlloc pt v) free fun r free' =>
      v < maxVa ∧ Walked pt free r.2 free' ∧ (r.1 = true → r.2.tab (v / 512) ≠ none) := by
  refine Ensures.ite (fun _ => Ensures.fail) fun hv => ?_
  have hlt : v < maxVa := by omega
  refine Ensures.bind ((walkDir_spec pt v free hlt).mono ?_)
  rintro ⟨ok, pt₁⟩ free₁ ⟨w, hd⟩
  refine Ensures.ite (fun hok => ?_) fun _ => Ensures.pure ⟨hlt, w, nofun⟩
  refine (walkTab_spec pt₁ v free₁ (hd hok)).mono ?_
  rintro ⟨ok', pt₂⟩ free₂ ⟨w', ht⟩
  exact ⟨hlt, ⟨w'.leaf.trans w.leaf, w'.pages.trans w.pages⟩, ht⟩

theorem mappages_spec (e : Pte) :
    Ensures (mappages pt v e) free fun r free' =>
      (free' : Multiset Page) + r.2.tables = free + pt.tables ∧ v < maxVa ∧
      (r.1 = true → pt.leaf v = none ∧ r.2.leaf = Function.update pt.leaf v (some e)) ∧
      (r.1 = false → r.2.leaf = pt.leaf) := by
  refine Ensures.bind ((walkAlloc_spec pt v free).mono ?_)
  rintro ⟨ok, pt₁⟩ free₁ ⟨hlt, w, ht⟩
  refine Ensures.ite (fun hok => ?_) fun _ => Ensures.pure ⟨w.pages, hlt, nofun, fun _ => w.leaf⟩
  refine Ensures.ite (fun _ => Ensures.fail) fun hn => Ensures.pure ?_
  have hn : pt₁.leaf v = none := by simpa using hn
  refine ⟨?_, hlt, fun _ => ⟨w.leaf ▸ hn, ?_⟩, nofun⟩
  · rw [PageTable.setLeaf_tables]; exact w.pages
  · rw [pt₁.setLeaf_leaf (some e) (ht hok), w.leaf]

end

/-! ## Unmapping -/

def Cleared (pt pt' : PageTable) (S : Finset Nat) : Prop :=
  ∀ u, pt'.leaf u = if u ∈ S then none else pt.leaf u

theorem Cleared.own {pt pt' : PageTable} {S : Finset Nat} (h : Cleared pt pt' S)
    (hS : S ⊆ range trapframeVa) : pt'.own + ∑ u ∈ S, ownAt (pt.leaf u) = pt.own := by
  unfold PageTable.own
  rw [sum_congr rfl fun u _ => congrArg ownAt (h u)]
  exact sum_cleared ownAt pt.leaf ownAt_none hS

theorem Cleared.mir {pt pt' : PageTable} {S : Finset Nat} (h : Cleared pt pt' S)
    (hS : S ⊆ range trapframeVa) : pt'.mir + ∑ u ∈ S, mirAt (pt.leaf u) = pt.mir := by
  unfold PageTable.mir
  rw [sum_congr rfl fun u _ => congrArg mirAt (h u)]
  exact sum_cleared mirAt pt.leaf mirAt_none hS

theorem Cleared.user {pt pt' : PageTable} {S : Finset Nat} (h : Cleared pt pt' S)
    (hS : S ⊆ range trapframeVa) :
    pt'.own + pt'.mir + pt.mapped S = pt.own + pt.mir := by
  have hm : pt.mapped S = ∑ u ∈ S, ownAt (pt.leaf u) + ∑ u ∈ S, mirAt (pt.leaf u) := by
    unfold PageTable.mapped
    rw [← sum_add_distrib]
    exact sum_congr rfl fun u _ => (ownAt_add_mirAt (pt.leaf u)).symm
  rw [hm, ← h.own hS, ← h.mir hS]
  abel

section
variable {pt : PageTable} {v : Nat} (n : Nat)

theorem Ico_step (v : Nat) : Ico v (v + (n + 1)) = insert v (Ico (v + 1) (v + 1 + n)) := by
  ext u
  simp only [mem_Ico, mem_insert]
  omega

theorem not_mem_Ico_succ (v : Nat) : v ∉ Ico (v + 1) (v + 1 + n) := by simp

theorem PageTable.mapped_none (h : pt.leaf v = none) :
    pt.mapped (Ico v (v + (n + 1))) = pt.mapped (Ico (v + 1) (v + 1 + n)) := by
  unfold mapped
  rw [Ico_step, sum_insert (not_mem_Ico_succ n v), h, Option.map_none, pageAt_none, zero_add]

theorem PageTable.mapped_some {e : Pte} (h : pt.leaf v = some e) :
    pt.mapped (Ico v (v + (n + 1))) = {e.pa} + pt.mapped (Ico (v + 1) (v + 1 + n)) := by
  unfold mapped
  rw [Ico_step, sum_insert (not_mem_Ico_succ n v), h, Option.map_some, pageAt_some]

theorem PageTable.mapped_setLeaf (e : Option Pte) {S : Finset Nat} (hv : v ∉ S)
    (htab : pt.tab (v / 512) ≠ none) : (pt.setLeaf v e).mapped S = pt.mapped S := by
  unfold mapped
  refine sum_congr rfl fun u hu => ?_
  rw [pt.setLeaf_leaf e htab, Function.update_of_ne]
  rintro rfl
  exact hv hu

end

theorem uvmunmap_spec (n : Nat) (doFree : Bool) (pt : PageTable) (v : Nat) (free : List Page) :
    Ensures (uvmunmap pt v n doFree) free fun pt' free' =>
      Cleared pt pt' (Ico v (v + n)) ∧ pt'.tables = pt.tables ∧
      (free' : Multiset Page) = free + if doFree then pt.mapped (Ico v (v + n)) else 0 := by
  induction n generalizing pt v free with
  | zero =>
    refine Ensures.pure ⟨fun u => by simp, rfl, ?_⟩
    cases doFree <;> simp [PageTable.mapped]
  | succ n ih =>
    refine Ensures.bind ((present_spec pt v free).mono ?_)
    rintro r _ ⟨rfl, rfl, hlt⟩
    cases hv : pt.leaf v with
    | none =>
      refine (ih pt (v + 1) _).mono ?_
      rintro pt' free' ⟨hc, ht, hf⟩
      refine ⟨fun u => ?_, ht, ?_⟩
      · rw [hc u, Ico_step]
        by_cases hu : u = v
        · subst hu; simp [hv]
        · simp [hu]
      · rw [hf, PageTable.mapped_none n hv]
    | some e =>
      have htab : pt.tab (v / 512) ≠ none := fun ht => by
        rw [pt.leaf_tab v ht] at hv; cases hv
      have hclear : ∀ u, (if u ∈ Ico (v + 1) (v + 1 + n) then none
          else (pt.setLeaf v none).leaf u) = if u ∈ Ico v (v + (n + 1)) then none else pt.leaf u := by
        intro u
        rw [pt.setLeaf_leaf none htab, Ico_step]
        by_cases hu : u = v
        · subst hu; simp
        · simp [hu]
      cases doFree with
      | false =>
        refine Ensures.bind (Ensures.pure ((ih (pt.setLeaf v none) (v + 1) _).mono ?_))
        rintro pt' free' ⟨hc, ht, hf⟩
        exact ⟨fun u => (hc u).trans (hclear u), by rw [ht, PageTable.setLeaf_tables], hf⟩
      | true =>
        refine Ensures.bind ((kfree_spec e.pa _).mono fun _ free₁ h₁ => ?_)
        refine (ih (pt.setLeaf v none) (v + 1) free₁).mono ?_
        rintro pt' free' ⟨hc, ht, hf⟩
        refine ⟨fun u => (hc u).trans (hclear u), by rw [ht, PageTable.setLeaf_tables], ?_⟩
        rw [hf, h₁, if_pos rfl, if_pos rfl, PageTable.mapped_setLeaf none (not_mem_Ico_succ n v) htab,
          PageTable.mapped_some n hv, add_assoc]

/-! ## Freeing a table -/

theorem freeTab_spec (pt : PageTable) (j : Nat) (pa : Page) (free : List Page) :
    Ensures (freeTab pt j pa) free fun _ free' =>
      (∀ v, v / 512 = j → pt.leaf v = none) ∧ (free' : Multiset Page) = free + {pa} := by
  have loop : Ensures (upTo 512 fun k =>
      if (pt.leaf (512 * j + k)).isSome then Mach.fail Panic.leaf else pure ()) free
      fun _ free' => (∀ k < 512, pt.leaf (512 * j + k) = none) ∧ free' = free := by
    refine Ensures.upTo (I := fun i s => (∀ k < i, pt.leaf (512 * j + k) = none) ∧ s = free)
      ⟨fun k hk => absurd hk (Nat.not_lt_zero k), rfl⟩ ?_
    rintro i _ s ⟨hI, rfl⟩
    refine Ensures.ite (fun _ => Ensures.fail) fun hn => Ensures.pure ⟨fun k hk => ?_, rfl⟩
    rcases Nat.lt_succ_iff_lt_or_eq.mp hk with h | rfl
    · exact hI k h
    · simpa using hn
  refine Ensures.bind (loop.mono ?_)
  rintro _ _ ⟨hn, rfl⟩
  refine (kfree_spec pa _).mono fun _ free' hf => ⟨fun v hv => ?_, hf⟩
  have := hn (v % 512) (Nat.mod_lt v (by omega))
  rwa [← hv, Nat.div_add_mod] at this

theorem freeDir_spec (pt : PageTable) (i : Nat) (pa : Page) (free : List Page) :
    Ensures (freeDir pt i pa) free fun _ free' =>
      (∀ v, v / 512 / 512 = i → pt.leaf v = none) ∧
      (free' : Multiset Page) = free + ({pa} + ∑ k ∈ range 512, pageAt (pt.tab (512 * i + k))) := by
  have loop (N : Nat) : Ensures (upTo N fun k =>
      match pt.tab (512 * i + k) with
      | none => pure ()
      | some child => freeTab pt (512 * i + k) child) free
      fun _ free' => (∀ k < N, ∀ v, v / 512 = 512 * i + k → pt.leaf v = none) ∧
        (free' : Multiset Page) = free + ∑ k ∈ range N, pageAt (pt.tab (512 * i + k)) := by
    refine Ensures.upTo (I := fun n (s : List Page) =>
      (∀ k < n, ∀ v, v / 512 = 512 * i + k → pt.leaf v = none) ∧
      (s : Multiset Page) = free + ∑ k ∈ range n, pageAt (pt.tab (512 * i + k)))
      ⟨fun k hk => absurd hk (Nat.not_lt_zero k), by rw [sum_range_zero, add_zero]⟩ ?_
    rintro n _ s ⟨hI, hs⟩
    rw [sum_range_succ]
    cases ht : pt.tab (512 * i + n) with
    | none =>
      refine Ensures.pure ⟨fun k hk v hv => ?_, by rw [hs, pageAt_none, add_zero]⟩
      rcases Nat.lt_succ_iff_lt_or_eq.mp hk with h | rfl
      · exact hI k h v hv
      · exact pt.leaf_tab v (hv ▸ ht)
    | some child =>
      refine (freeTab_spec pt (512 * i + n) child s).mono ?_
      rintro _ s' ⟨hn, hs'⟩
      refine ⟨fun k hk v hv => ?_, by rw [hs', hs, pageAt_some, add_assoc]⟩
      rcases Nat.lt_succ_iff_lt_or_eq.mp hk with h | rfl
      · exact hI k h v hv
      · exact hn v hv
  refine Ensures.bind ((loop 512).mono ?_)
  rintro _ s ⟨hn, hs⟩
  refine (kfree_spec pa s).mono fun _ free' hf => ⟨fun v hv => ?_, ?_⟩
  · exact hn (v / 512 % 512) (Nat.mod_lt _ (by omega)) v (by omega)
  · rw [hf, hs]
    abel

theorem freewalk_spec (pt : PageTable) (free : List Page) :
    Ensures (freewalk pt) free fun _ free' =>
      (∀ v, pt.leaf v = none) ∧ (free' : Multiset Page) = free + pt.tables := by
  have loop (N : Nat) : Ensures (upTo N fun i =>
      match pt.dir i with
      | none => pure ()
      | some child => freeDir pt i child) free
      fun _ free' => (∀ i < N, ∀ v, v / 512 / 512 = i → pt.leaf v = none) ∧
        (free' : Multiset Page) = free + ∑ i ∈ range N,
          (pageAt (pt.dir i) + ∑ k ∈ range 512, pageAt (pt.tab (512 * i + k))) := by
    refine Ensures.upTo (I := fun n (s : List Page) =>
      (∀ i < n, ∀ v, v / 512 / 512 = i → pt.leaf v = none) ∧
      (s : Multiset Page) = free + ∑ i ∈ range n,
        (pageAt (pt.dir i) + ∑ k ∈ range 512, pageAt (pt.tab (512 * i + k))))
      ⟨fun k hk => absurd hk (Nat.not_lt_zero k), by rw [sum_range_zero, add_zero]⟩ ?_
    rintro n _ s ⟨hI, hs⟩
    rw [sum_range_succ _ n]
    cases hd : pt.dir n with
    | none =>
      have htab : ∀ j, j / 512 = n → pt.tab j = none := fun j hj => pt.tab_dir j (hj ▸ hd)
      have hz : ∑ k ∈ range 512, pageAt (pt.tab (512 * n + k)) = 0 :=
        sum_eq_zero fun k hk => by
          rw [htab _ (by have := mem_range.mp hk; omega), pageAt_none]
      refine Ensures.pure ⟨fun i hi v hv => ?_, by rw [hs, hz, pageAt_none, add_zero, add_zero]⟩
      rcases Nat.lt_succ_iff_lt_or_eq.mp hi with h | rfl
      · exact hI i h v hv
      · exact pt.leaf_tab v (htab _ hv)
    | some child =>
      refine (freeDir_spec pt n child s).mono ?_
      rintro _ s' ⟨hn, hs'⟩
      refine ⟨fun i hi v hv => ?_, by rw [hs', hs, pageAt_some, add_assoc]⟩
      rcases Nat.lt_succ_iff_lt_or_eq.mp hi with h | rfl
      · exact hI i h v hv
      · exact hn v hv
  refine Ensures.bind ((loop 512).mono ?_)
  rintro _ s ⟨hn, hs⟩
  refine (kfree_spec pt.root s).mono fun _ free' hf => ⟨fun v => ?_, ?_⟩
  · by_cases hv : v / 512 / 512 < 512
    · exact hn _ hv v rfl
    · exact pt.leaf_tab v (pt.tab_dir _ (pt.dir_lt _ (by omega)))
  · unfold PageTable.tables
    rw [hf, hs, sum_range_mul, sum_add_distrib]
    abel

end OsLab
