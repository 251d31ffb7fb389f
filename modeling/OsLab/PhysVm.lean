import OsLab.PhysTable

/-!
# The functions of `vm.c` in memory

Each function on the words of memory does what its counterpart in `Vm.lean` does
on a page table and a list of free pages: it panics where the other one does,
ends with a memory that stands for the other's result, and leaves all pages
alone but the free ones and those of the table it works on.
-/

namespace OsLab

open Mach

namespace Phys

section
variable {m m₁ : Phys} {free free₁ : List Page} {used rest : Multiset Page} {pt : PageTable}
  {W : Nat → Option Word} {v : Nat} {pa d : Page}

/-! ## Looking up -/

theorem walk_eq (h : Tree m.ram pt W) (hv : v < maxVa) :
    walk pt.root v false m = .ok ((pt.tab (v / 512)).map fun t => (t, v % 512), m) := by
  have hi : v / 512 / 512 < 512 := by unfold maxVa at hv; omega
  have hdir := h.dir _ hi
  have hload (x : Page) (i : Nat) : load x i m = .ok (m.ram x i, m) := rfl
  unfold walk
  rw [if_neg (Nat.not_le.mpr hv)]
  unfold walkFrom
  rw [bind_ok (hload ..), px_two hv]
  cases hd : pt.dir (v / 512 / 512) with
  | none =>
    rw [hd] at hdir
    rw [if_neg hdir, pt.tab_dir _ hd]
    rfl
  | some d =>
    rw [hd] at hdir
    obtain ⟨hvalid, -, rfl⟩ := hdir
    have htab := h.tab _ _ hd
    rw [if_pos hvalid]
    unfold walkFrom
    rw [bind_ok (hload ..), px_one]
    cases ht : pt.tab (v / 512) with
    | none =>
      rw [ht] at htab
      rw [if_neg htab]
      rfl
    | some t =>
      rw [ht] at htab
      obtain ⟨hvalid', -, rfl⟩ := htab
      rw [if_pos hvalid']
      unfold walkFrom
      rw [px_zero]
      rfl

def entryAt (pt : PageTable) (W : Nat → Option Word) (v : Nat) : Option (Page × Nat × Word) :=
  (pt.tab (v / 512)).bind fun t => (W v).map fun w => (t, v % 512, w)

theorem entryAt_none (h : W v = none) : entryAt pt W v = none := by
  unfold entryAt
  rw [h]
  cases pt.tab (v / 512) <;> rfl

theorem Tree.entryAt_some (h : Tree m.ram pt W) {w : Word} (hw : W v = some w) :
    ∃ t, pt.tab (v / 512) = some t ∧ entryAt pt W v = some (t, v % 512, w) := by
  cases ht : pt.tab (v / 512) with
  | none =>
    rw [h.none_of_tab ht] at hw
    cases hw
  | some t =>
    refine ⟨t, rfl, ?_⟩
    unfold entryAt
    rw [ht, hw]
    rfl

theorem present_sim (h : Tree m.ram pt W) :
    Simulates Halt.panic (present pt.root v) m (OsLab.present pt v) free fun r m' o free' =>
      m = m' ∧ free = free' ∧ v < maxVa ∧ o = pt.leaf v ∧ r = entryAt pt W v := by
  by_cases hv : v < maxVa
  · refine .left (walk_eq h hv) (.right (OsLab.walk_eq pt v free hv) ?_)
    unfold entryAt
    cases ht : pt.tab (v / 512) with
    | none => exact .pure ⟨rfl, rfl, hv, (pt.leaf_tab v ht).symm, rfl⟩
    | some t =>
      have hleaf := h.leaf v t ht
      refine .left rfl ?_
      dsimp only [Option.map_some, Option.isSome_some]
      rw [if_pos rfl]
      by_cases hvalid : Valid (m.ram t (v % 512))
      · rw [if_pos hvalid] at hleaf ⊢
        exact .pure ⟨rfl, rfl, hv, rfl, by rw [hleaf]; rfl⟩
      · rw [if_neg hvalid] at hleaf ⊢
        exact .pure ⟨rfl, rfl, hv, rfl, by rw [hleaf]; rfl⟩
  · have hpanic : OsLab.present pt v free = .error .walk := by
      refine bind_error ?_
      unfold OsLab.walk
      rw [if_pos (Nat.not_lt.mp hv)]
      rfl
    refine ⟨fun e he => ?_, fun o t' ho => ?_⟩
    · cases hpanic.symm.trans he
      refine bind_error ?_
      unfold walk
      rw [if_pos (Nat.not_lt.mp hv)]
      rfl
    · cases hpanic.symm.trans ho

theorem Tree.leaf_none (h : Tree m.ram pt W) : W v = none ↔ pt.leaf v = none := by
  have hr := h.reads v
  generalize W v = o at hr
  generalize pt.leaf v = o' at hr
  cases hr with
  | none => exact ⟨fun _ => rfl, fun _ => rfl⟩
  | some => exact ⟨nofun, nofun⟩

theorem Tree.leaf_some (h : Tree m.ram pt W) {w : Word} (hw : W v = some w) :
    ∃ e, pt.leaf v = some e ∧ Reads w e := by
  have hr := h.reads v
  rw [hw] at hr
  generalize pt.leaf v = o' at hr
  cases hr with
  | some hr => exact ⟨_, rfl, hr⟩

/-! ## Walking with allocation -/

structure Walks (m : Phys) (free : List Page) (pt : PageTable) (W : Nat → Option Word) (v : Nat)
    (r : Option (Page × Nat)) (m' : Phys) (b : Bool × PageTable) (free' : List Page) : Prop where
  moves : Moves m free pt.tables m' free' b.2.tables
  tree : Tree m'.ram b.2 W
  root : b.2.root = pt.root
  leaf : b.2.leaf = pt.leaf
  failed : b.1 = false → r = none
  found : b.1 = true → ∃ t, b.2.tab (v / 512) = some t ∧ r = some (t, v % 512)

theorem Walks.trans {m₁ m₂ : Phys} {free₁ free₂ : List Page} {pt₁ : PageTable} {r : Option (Page × Nat)}
    {b : Bool × PageTable} (hm : Moves m free pt.tables m₁ free₁ pt₁.tables) (hroot : pt₁.root = pt.root)
    (hleaf : pt₁.leaf = pt.leaf) (h : Walks m₁ free₁ pt₁ W v r m₂ b free₂) :
    Walks m free pt W v r m₂ b free₂ :=
  ⟨hm.trans h.moves, h.tree, h.root.trans hroot, h.leaf.trans hleaf, h.failed, h.found⟩

/-- A page from the allocator is zeroed, and its address is written into a page at work. -/
theorem Arena.newTable (h : Arena m free used) (ht : Tree m.ram pt W) (hpt : pt.tables = used)
    (hk : Moves m free used m₁ free₁ (used + {pa})) (hsame : ∀ x, x ∉ ({pa} : Multiset Page) → m₁.ram x = m.ram x) :
    pa ∉ pt.tables ∧ pa < 2 ^ 52 ∧ Tree (Function.update m₁.ram pa fun _ => 0) pt W ∧
    ∀ x ∈ used, ∀ i w, Moves m free used
      { m₁ with ram := setWord (Function.update m₁.ram pa fun _ => 0) x i w } free₁ (used + {pa}) := by
  have h₁ := h.moves hk
  have hmem : pa ∈ used + {pa} := Multiset.mem_add.mpr (.inr (Multiset.mem_singleton_self pa))
  have hpa : pa ∉ used := fun hx =>
    h₁.not_mem_rest (Multiset.mem_singleton_self pa) (Multiset.mem_add.mpr (.inr hx))
  refine ⟨hpt ▸ hpa, h₁.lt hmem, ht.frame fun x hx => ?_, fun x hx i w => ?_⟩
  · have hne : x ≠ pa := fun heq => hpa (by rw [← hpt, ← heq]; exact hx)
    rw [Function.update_of_ne hne, hsame x fun hx' => hne (Multiset.mem_singleton.mp hx')]
  · have hz := h₁.write hmem fun _ => 0
    have hw := (h₁.moves hz).write (Multiset.mem_add.mpr (.inl hx)) (Function.update
      (Function.update m₁.ram pa (fun _ => 0) x) i w)
    exact hk.trans (hz.trans hw)

theorem walkTab_sim (h : Arena m free pt.tables) (ht : Tree m.ram pt W)
    (hd : pt.dir (v / 512 / 512) = some d) :
    Simulates Halt.panic (walkFrom v true 1 d) m (walkTab pt v) free (Walks m free pt W v) := by
  have hpoint := ht.tab _ _ hd
  have hdist := PageTable.distinct (Multiset.nodup_add.mp h.nodup).2.1
  refine .left rfl ?_
  rw [px_one]
  unfold walkTab
  cases htab : pt.tab (v / 512) with
  | some t =>
    rw [htab] at hpoint
    obtain ⟨hvalid, -, rfl⟩ := hpoint
    rw [if_pos hvalid, Option.isSome_some, if_pos rfl]
    refine .pure ⟨h.refl, ht, rfl, rfl, nofun, fun _ => ⟨_, htab, ?_⟩⟩
    rw [px_zero]
  | none =>
    rw [htab] at hpoint
    rw [if_neg hpoint, if_pos rfl, Option.isSome_none, if_neg Bool.false_ne_true]
    refine .bind (kalloc_sim h) fun r m₁ r' free₁ ⟨hr, hk, hsame, _⟩ => ?_
    subst hr
    cases r with
    | none =>
      rw [pageAt_none, add_zero] at hk
      exact .pure ⟨hk, ht.frame fun x _ => hsame x (Multiset.notMem_zero x), rfl, rfl, fun _ => rfl, nofun⟩
    | some pa =>
      rw [pageAt_some] at hk hsame
      obtain ⟨hpa, hlt, hz, hmoves⟩ := h.newTable ht rfl hk hsame
      have hsome : pt.dir (v / 512 / 512) ≠ none := by rw [hd]; exact Option.some_ne_none d
      refine .left rfl (.left rfl (.pure ⟨?_, ?_, ?_, PageTable.addTab_leaf .., nofun, fun _ => ⟨pa, ?_, ?_⟩⟩))
      · rw [PageTable.addTab_tables pt pa hsome htab]
        exact hmoves d (PageTable.dir_mem hd) _ _
      · exact hz.addTab hdist hd htab hpa hlt (Function.update_self ..)
      · unfold PageTable.addTab
        split <;> rfl
      · exact PageTable.addTab_tab pt pa hsome
      · rw [px_zero]

theorem walkAlloc_sim (h : Arena m free pt.tables) (ht : Tree m.ram pt W) :
    Simulates Halt.panic (walk pt.root v true) m (walkAlloc pt v) free fun r m' b free' =>
      v < maxVa ∧ Walks m free pt W v r m' b free' := by
  refine .ite Iff.rfl (fun _ => .fail) fun hlt => ?_
  have hv : v < maxVa := Nat.not_le.mp hlt
  have hi : v / 512 / 512 < 512 := by unfold maxVa at hv; omega
  have hpoint := ht.dir _ hi
  have hdist := PageTable.distinct (Multiset.nodup_add.mp h.nodup).2.1
  refine .left rfl ?_
  rw [px_two hv]
  cases hd : pt.dir (v / 512 / 512) with
  | some d =>
    rw [hd] at hpoint
    obtain ⟨hvalid, -, rfl⟩ := hpoint
    rw [if_pos hvalid]
    have hdir : walkDir pt v free = .ok ((true, pt), free) := by
      unfold walkDir
      rw [hd]
      rfl
    refine .right hdir ?_
    dsimp only
    rw [if_pos rfl]
    exact (walkTab_sim h ht hd).mono fun _ _ _ _ hw => ⟨hv, hw⟩
  | none =>
    rw [hd] at hpoint
    rw [if_neg hpoint, if_pos rfl, walkDir_eq, hd]
    unfold walkRound
    rw [Option.isSome_none, if_neg Bool.false_ne_true, Mach.bind_assoc]
    refine .bind (kalloc_sim h) fun r m₁ r' free₁ ⟨hr, hk, hsame, _⟩ => ?_
    subst hr
    cases r with
    | none =>
      rw [pageAt_none, add_zero] at hk
      have ht₁ := ht.frame fun x _ => hsame x (Multiset.notMem_zero x)
      exact .right rfl (.pure ⟨hv, hk, ht₁, rfl, rfl, fun _ => rfl, nofun⟩)
    | some pa =>
      rw [pageAt_some] at hk hsame
      obtain ⟨hpa, hlt, hz, hmoves⟩ := h.newTable ht rfl hk hsame
      have hroot : (pt.addDir (v / 512 / 512) pa).root = pt.root := by
        unfold PageTable.addDir
        split <;> rfl
      refine .left rfl (.left rfl (.right rfl ?_))
      have hm : Moves m free pt.tables { m₁ with
          ram := setWord (Function.update m₁.ram pa fun _ => 0) pt.root (v / 512 / 512)
            (pa2pte pa ||| pteV) } free₁ (pt.addDir (v / 512 / 512) pa).tables := by
        rw [PageTable.addDir_tables pt pa hi hd]
        exact hmoves _ pt.root_mem _ _
      have ht₁ := hz.addDir hdist hi hd hpa hlt (Function.update_self ..)
      refine (walkTab_sim (h.moves hm) ht₁ (PageTable.addDir_dir pt pa hi)).mono fun r m' b free' hw => ?_
      exact ⟨hv, hw.trans hm hroot (PageTable.addDir_leaf ..)⟩

/-! ## Mapping -/

structure Maps (m : Phys) (free : List Page) (pt : PageTable) (W : Nat → Option Word) (v : Nat) (w : Word)
    (e : Pte) (ok : Bool) (m' : Phys) (b : Bool × PageTable) (free' : List Page) : Prop where
  ok : ok = b.1
  moves : Moves m free pt.tables m' free' b.2.tables
  root : b.2.root = pt.root
  lt : v < maxVa
  fresh : b.1 = true → pt.leaf v = none
  leaf : b.2.leaf = if b.1 then Function.update pt.leaf v (some e) else pt.leaf
  tree : Tree m'.ram b.2 (if b.1 then Function.update W v (some w) else W)

theorem mappages_sim (h : Arena m free pt.tables) (ht : Tree m.ram pt W) {perm : Word} {e : Pte}
    (hpa : pa < 2 ^ 52) (hperm : pteFlags perm = perm)
    (he : Reads (pa2pte pa ||| perm ||| pteV) e) :
    Simulates Halt.panic (mappages pt.root v pa perm) m (OsLab.mappages pt v e) free
      (Maps m free pt W v (pa2pte pa ||| perm ||| pteV) e) := by
  have hvalid := (encodes hpa hperm).valid
  refine .bind (walkAlloc_sim h ht) fun r m₁ b free₁ ⟨hv, hw⟩ => ?_
  obtain ⟨ok, pt₁⟩ := b
  cases ok with
  | false =>
    rw [hw.failed rfl]
    exact .pure ⟨rfl, hw.moves, hw.root, hv, nofun, hw.leaf, hw.tree⟩
  | true =>
    obtain ⟨t, htab, hr⟩ := hw.found rfl
    dsimp only at htab
    have hleaf := hw.tree.leaf v t htab
    have hsome : pt₁.tab (v / 512) ≠ none := by rw [htab]; exact Option.some_ne_none t
    have hnone : Valid (m₁.ram t (v % 512)) ↔ (pt₁.leaf v).isSome = true := by
      have hiff := hw.tree.leaf_none (v := v)
      rw [hleaf] at hiff
      rw [← not_iff_not, Bool.not_eq_true, Option.isSome_eq_false_iff, Option.isNone_iff_eq_none, ← hiff]
      split <;> simp_all
    rw [hr]
    refine .left rfl ?_
    dsimp only
    rw [if_pos rfl]
    refine .ite hnone (fun _ => .fail) fun hn => .left rfl (.pure ?_)
    have h₁ := h.moves hw.moves
    have hdist := PageTable.distinct (Multiset.nodup_add.mp h₁.nodup).2.1
    have hrel : Option.Rel Reads (if Valid (pa2pte pa ||| perm ||| pteV) then
        some (pa2pte pa ||| perm ||| pteV) else none) (some e) := by
      rw [if_pos hvalid]
      exact .some he
    have htree := hw.tree.setLeaf hdist htab hrel
    rw [if_pos hvalid] at htree
    refine ⟨rfl, ?_, ?_, hv, fun _ => ?_, ?_, htree⟩
    · rw [PageTable.setLeaf_tables]
      exact hw.moves.trans (h₁.write (PageTable.tab_mem htab) _)
    · rw [← hw.root]
      unfold PageTable.setLeaf
      split <;> rfl
    · rw [← hw.leaf]
      simpa using hn
    · rw [if_pos rfl, pt₁.setLeaf_leaf (some e) hsome, hw.leaf]

/-! ## Unmapping -/

def cleared (W : Nat → Option Word) (v n : Nat) : Nat → Option Word :=
  fun u => if v ≤ u ∧ u < v + n then none else W u

theorem cleared_zero (W : Nat → Option Word) (v : Nat) : cleared W v 0 = W := by
  funext u
  exact if_neg (by omega)

theorem cleared_update (W : Nat → Option Word) (v n : Nat) :
    cleared (Function.update W v none) (v + 1) n = cleared W v (n + 1) := by
  funext u
  unfold cleared
  by_cases hu : u = v
  · subst hu
    rw [if_neg (by omega), if_pos (by omega), Function.update_self]
  · rw [Function.update_of_ne hu]
    exact if_congr (by omega) rfl rfl

def unmapped (pt : PageTable) (v n : Nat) (doFree : Bool) : Multiset Page :=
  pt.tables + if doFree then pt.mapped (Finset.Ico v (v + n)) else 0

theorem unmapped_zero (pt : PageTable) (v : Nat) (doFree : Bool) : unmapped pt v 0 doFree = pt.tables := by
  unfold unmapped PageTable.mapped
  simp

theorem Arena.ne_of_table {n : Nat} {doFree : Bool} (h : Arena m free (unmapped pt v n doFree + {pa}))
    (hx : x ∈ pt.tables) : x ≠ pa := by
  rintro rfl
  exact h.not_mem_rest (Multiset.mem_singleton_self x) (Multiset.mem_add.mpr (.inr (Multiset.mem_add.mpr (.inl hx))))

theorem uvmunmap_sim (n : Nat) (doFree : Bool) (h : Arena m free (unmapped pt v n doFree))
    (ht : Tree m.ram pt W) :
    Simulates Halt.panic (uvmunmap pt.root v n doFree) m (OsLab.uvmunmap pt v n doFree) free
      fun _ m' pt' free' => Moves m free (unmapped pt v n doFree) m' free' pt'.tables ∧
        pt'.root = pt.root ∧ Tree m'.ram pt' (cleared W v n) := by
  induction n generalizing m free pt W v with
  | zero =>
    rw [unmapped_zero] at h ⊢
    rw [cleared_zero]
    exact .pure ⟨h.refl, rfl, ht⟩
  | succ n ih =>
    refine .bind (present_sim ht) ?_
    rintro _ _ _ _ ⟨rfl, rfl, -, rfl, rfl⟩
    cases hw : W v with
    | none =>
      have hleaf := ht.leaf_none.mp hw
      have hpages : unmapped pt v (n + 1) doFree = unmapped pt (v + 1) n doFree := by
        unfold unmapped
        rw [PageTable.mapped_none n hleaf]
      rw [entryAt_none hw, hleaf]
      rw [hpages] at h ⊢
      rw [← cleared_update, ← hw, Function.update_eq_self]
      exact ih h ht
    | some w =>
      obtain ⟨t, htab, hentry⟩ := ht.entryAt_some hw
      obtain ⟨e, hleaf, hreads⟩ := ht.leaf_some hw
      have hsome : pt.tab (v / 512) ≠ none := by rw [htab]; exact Option.some_ne_none t
      have hroot : (pt.setLeaf v none).root = pt.root := by
        unfold PageTable.setLeaf
        split <;> rfl
      -- the pages of the table without the entry
      have hpages : unmapped (pt.setLeaf v none) (v + 1) n doFree =
          pt.tables + if doFree then pt.mapped (Finset.Ico (v + 1) (v + 1 + n)) else 0 := by
        unfold unmapped
        rw [PageTable.setLeaf_tables, PageTable.mapped_setLeaf none (not_mem_Ico_succ n v) hsome]
      -- the entry is written, and the loop goes on
      have rest {m₁ : Phys} {free₁ : List Page}
          (hk : Moves m free (unmapped pt v (n + 1) doFree) m₁ free₁ (unmapped (pt.setLeaf v none) (v + 1) n doFree))
          (ht₁ : Tree m₁.ram pt W) :
          Simulates Halt.panic (do store t (v % 512) 0; uvmunmap pt.root (v + 1) n doFree) m₁
            (OsLab.uvmunmap (pt.setLeaf v none) (v + 1) n doFree) free₁ fun _ m' pt' free' =>
              Moves m free (unmapped pt v (n + 1) doFree) m' free' pt'.tables ∧ pt'.root = pt.root ∧
                Tree m'.ram pt' (cleared W v (n + 1)) := by
        have h₁ := h.moves hk
        have hmem : t ∈ unmapped (pt.setLeaf v none) (v + 1) n doFree := by
          rw [hpages]
          exact Multiset.mem_add.mpr (.inl (PageTable.tab_mem htab))
        have hdist : pt.Distinct := by
          refine PageTable.distinct (Multiset.nodup_of_le ?_ (Multiset.nodup_add.mp h.nodup).2.1)
          exact Multiset.le_add_right _ _
        have hw₁ := h₁.write hmem (Function.update (m₁.ram t) (v % 512) 0)
        have ht₂ := ht₁.setLeaf hdist htab (w := 0) (o := none) .none
        have hih := ih (h₁.moves hw₁) ht₂
        rw [hroot] at hih
        refine .left rfl (hih.mono ?_)
        rintro _ m' pt' free' ⟨hm, hr, ht'⟩
        refine ⟨hk.trans (hw₁.trans hm), hr, ?_⟩
        rw [← cleared_update]
        exact ht'
      rw [hentry, hleaf]
      dsimp only
      cases doFree with
      | false =>
        rw [if_neg Bool.false_ne_true, if_neg Bool.false_ne_true]
        refine rest ?_ ht
        rw [hpages]
        exact h.refl
      | true =>
        have hfree : unmapped pt v (n + 1) true = unmapped (pt.setLeaf v none) (v + 1) n true + {e.pa} := by
          rw [hpages]
          unfold unmapped
          rw [if_pos rfl, if_pos rfl, PageTable.mapped_some n hleaf]
          abel
        rw [hfree] at h rest ⊢
        rw [hreads.page, if_pos rfl, if_pos rfl]
        refine .bind (kfree_sim h) ?_
        rintro _ m₁ _ free₁ ⟨hk, hsame⟩
        refine rest hk (ht.frame fun x hx => hsame x (h.ne_of_table ?_))
        rwa [PageTable.setLeaf_tables]

/-! ## Freeing a table -/

theorem freeTab_sim {j : Nat} (h : Arena m free {pa})
    (hleaf : ∀ k < 512, Valid (m.ram pa k) → IsLeaf (m.ram pa k))
    (hsome : ∀ k < 512, Valid (m.ram pa k) ↔ (pt.leaf (512 * j + k)).isSome = true) :
    Simulates Halt.panic (freewalk 0 pa) m (freeTab pt j pa) free fun _ m' _ free' =>
      Moves m free {pa} m' free' 0 := by
  have hloop : Simulates Halt.panic (Mach.upTo 512 fun i => do
        let pte ← load pa i
        if Valid pte ∧ ¬ IsLeaf pte then do
          Mach.fail Halt.deep
          store pa i 0
        else if Valid pte then Mach.fail (.panic .leaf)
        else pure ()) m
      (Mach.upTo 512 fun k => if (pt.leaf (512 * j + k)).isSome then Mach.fail .leaf else pure ()) free
      fun _ m' _ free' => m = m' ∧ free = free' := by
    refine .upTo (I := fun _ m' free' => m = m' ∧ free = free') ⟨rfl, rfl⟩ fun k hk m' free' ⟨hm, hf⟩ => ?_
    subst hm hf
    refine .left rfl ?_
    rw [if_neg fun hbad => hbad.2 (hleaf k hk hbad.1)]
    exact .ite (hsome k hk) (fun _ => .fail) fun _ => .pure ⟨rfl, rfl⟩
  refine .bind hloop fun _ m' _ free' ⟨hm, hf⟩ => ?_
  subst hm hf
  rw [← zero_add ({pa} : Multiset Page)] at h ⊢
  exact (kfree_sim h).mono fun _ _ _ _ hk => hk.1

@[irreducible] def all (size : Nat → Multiset Page) : Multiset Page := ∑ k ∈ Finset.range 512, size k

theorem mem_all {size : Nat → Multiset Page} {k : Nat} {x : Page} (hk : k < 512) (hx : x ∈ size k) :
    x ∈ all size := by
  unfold all
  rw [Multiset.mem_sum]
  exact ⟨k, Finset.mem_range.mpr hk, hx⟩

/-- `freewalk` on a page of the upper levels, whose entries lead to `kids`. `size` has the pages
below an entry. -/
theorem freePage_sim (child : Page → Pm Unit) (kids : Nat → Option Page) {round : Nat → Vm Unit}
    {size : Nat → Multiset Page} (h : Arena m free ({pa} + all size))
    (hp : ∀ k < 512, Points (m.ram pa k) (kids k))
    (hnone : ∀ k < 512, kids k = none → size k = 0 ∧ round k = pure ())
    (hkid : ∀ k < 512, ∀ c, kids k = some c → ∀ m' free', (∀ x ∈ size k, m'.ram x = m.ram x) →
      Arena m' free' (size k) → Simulates Halt.panic (child c) m' (round k) free' fun _ m'' _ free'' =>
        Moves m' free' (size k) m'' free'' 0) :
    Simulates Halt.panic (freePage child pa) m (do Mach.upTo 512 round; OsLab.kfree pa) free
      fun _ m' _ free' => Moves m free ({pa} + all size) m' free' 0 := by
  -- before round `k`, the subtrees from `k` on are as they were
  let left (k : Nat) : Multiset Page := ∑ l ∈ Finset.Ico k 512, size l
  have hstep {k : Nat} (hk : k < 512) : left k = size k + left (k + 1) :=
    Finset.sum_eq_sum_Ico_succ_bot hk size
  have hbegin : all size = left 0 := by unfold all; rw [Finset.range_eq_Ico]
  have hend : left 512 = 0 := by
    change ∑ l ∈ Finset.Ico 512 512, size l = 0
    rw [Finset.Ico_self, Finset.sum_empty]
  rw [hbegin] at h ⊢
  refine .bind (.upTo (I := fun k m' free' => Moves m free ({pa} + left 0) m' free' ({pa} + left k) ∧
    (∀ l, k ≤ l → m'.ram pa l = m.ram pa l) ∧ ∀ x ∈ left k, m'.ram x = m.ram x)
    ⟨h.refl, fun _ _ => rfl, fun _ _ => rfl⟩ fun k hk m' free' ⟨hm, hpa, hrest⟩ => ?_)
    fun _ m' _ free' ⟨hm, _, _⟩ => ?_
  · have h' := h.moves hm
    have hpoint := hp k hk
    rw [hstep hk] at h' hm hrest
    refine .left rfl ?_
    rw [hpa k (le_refl k)]
    cases hc : kids k with
    | none =>
      rw [hc] at hpoint
      obtain ⟨hsize, hround⟩ := hnone k hk hc
      rw [if_neg fun hbad => hpoint hbad.1, if_neg hpoint, hround]
      rw [hsize, zero_add] at hm hrest
      exact .pure ⟨hm, fun l hl => hpa l (Nat.le_of_succ_le hl), hrest⟩
    | some c =>
      rw [hc] at hpoint
      obtain ⟨hvalid, hleaf, rfl⟩ := hpoint
      rw [if_pos ⟨hvalid, hleaf⟩]
      have harena : Arena m' free' (size k + ({pa} + left (k + 1))) := by
        rw [add_left_comm]
        exact h'
      rw [add_left_comm] at hm
      have hsim := hkid k hk _ hc m' free' (fun x hx => hrest x (Multiset.mem_add.mpr (.inl hx)))
        harena.of_add
      refine hsim.after fun _ m₁ _ free₁ hk₁ => ⟨(), _, rfl, ?_, fun l hl => ?_, fun x hx => ?_⟩
      · have hmove := hk₁.add ({pa} + left (k + 1))
        rw [zero_add] at hmove
        have hw := (harena.moves hmove).write (Multiset.mem_add.mpr (.inl (Multiset.mem_singleton_self pa)))
          (Function.update (m₁.ram pa) k 0)
        exact hm.trans (hmove.trans hw)
      · have hkeep : m₁.ram pa = m'.ram pa := hk₁.frame pa
          (harena.not_mem_rest (Multiset.mem_add.mpr (.inl (Multiset.mem_singleton_self pa))))
        change setWord m₁.ram pa k 0 pa l = _
        rw [setWord_index _ _ (by omega), hkeep, hpa l (by omega)]
      · have hkeep : m₁.ram x = m'.ram x := hk₁.frame x
          (harena.not_mem_rest (Multiset.mem_add.mpr (.inr hx)))
        have hne : x ≠ pa := by
          rintro rfl
          have hn := (Multiset.nodup_add.mp (Multiset.nodup_add.mp harena.nodup).2.1).2.1
          exact Multiset.disjoint_left.mp (Multiset.nodup_add.mp hn).2.2 (Multiset.mem_singleton_self x) hx
        change setWord m₁.ram pa k 0 x = _
        rw [setWord_other _ hne, hkeep, hrest x (Multiset.mem_add.mpr (.inr hx))]
  · have hlast : {pa} + left 512 = 0 + {pa} := by rw [hend, add_comm]
    rw [hlast] at hm
    exact (kfree_sim (h.moves hm)).mono fun _ _ _ _ hk => hm.trans hk.1

def below (pt : PageTable) (i : Nat) : Multiset Page :=
  pageAt (pt.dir i) + all fun k => pageAt (pt.tab (512 * i + k))

theorem tables_below (pt : PageTable) : pt.tables = {pt.root} + all (below pt) := by
  unfold PageTable.tables below all
  rw [Finset.sum_add_distrib, sum_range_mul, add_assoc]

theorem below_some {i : Nat} (h : pt.dir i = some d) :
    below pt i = {d} + all fun k => pageAt (pt.tab (512 * i + k)) := by
  unfold below
  rw [h, pageAt_some]

theorem below_none {i : Nat} (h : pt.dir i = none) : below pt i = 0 := by
  unfold below all
  rw [h, pageAt_none, zero_add]
  refine Finset.sum_eq_zero fun k hk => ?_
  have hk' := Finset.mem_range.mp hk
  rw [pt.tab_dir _ (by rw [show (512 * i + k) / 512 = i by omega]; exact h), pageAt_none]

theorem freeDir_sim {i : Nat} (hd : pt.dir i = some d) (ht : Tree m.ram pt W)
    (hsame : ∀ x ∈ below pt i, m₁.ram x = m.ram x) (h : Arena m₁ free (below pt i)) :
    Simulates Halt.panic (freewalk 1 d) m₁ (freeDir pt i d) free fun _ m' _ free' =>
      Moves m₁ free (below pt i) m' free' 0 := by
  have hdiv {k : Nat} (hk : k < 512) : (512 * i + k) / 512 = i := by omega
  have hmod {k : Nat} (hk : k < 512) : (512 * i + k) % 512 = k := by omega
  have hmemd : d ∈ below pt i := by
    rw [below_some hd]
    exact Multiset.mem_add.mpr (.inl (Multiset.mem_singleton_self d))
  have hmemt {k : Nat} {t : Page} (hk : k < 512) (htab : pt.tab (512 * i + k) = some t) :
      t ∈ below pt i := by
    rw [below_some hd]
    refine Multiset.mem_add.mpr (.inr (mem_all hk ?_))
    rw [htab, pageAt_some]
    exact Multiset.mem_singleton_self t
  rw [below_some hd] at h ⊢
  unfold freeDir
  refine freePage_sim (freewalk 0) (fun k => pt.tab (512 * i + k)) h (fun k hk => ?_)
    (fun k _ hn => ?_) fun k hk c hc m' free' hm' h' => ?_
  · have hpoint := ht.tab (512 * i + k) d (by rw [hdiv hk]; exact hd)
    rw [hmod hk] at hpoint
    rw [hsame d hmemd]
    exact hpoint
  · rw [hn, pageAt_none]
    exact ⟨rfl, rfl⟩
  · have hram : m'.ram c = m.ram c := by
      rw [hm' c (by rw [hc, pageAt_some]; exact Multiset.mem_singleton_self c)]
      exact hsame c (hmemt hk hc)
    rw [hc, pageAt_some] at h'
    rw [hc, pageAt_some]
    have hentry {l : Nat} (hl : l < 512) : W (512 * (512 * i + k) + l) =
        if Valid (m'.ram c l) then some (m'.ram c l) else none := by
      have hw := ht.leaf (512 * (512 * i + k) + l) c (by
        rw [show (512 * (512 * i + k) + l) / 512 = 512 * i + k by omega]
        exact hc)
      rw [show (512 * (512 * i + k) + l) % 512 = l by omega] at hw
      rw [hram]
      exact hw
    refine freeTab_sim h' (fun l hl hvalid => ?_) fun l hl => ?_
    · obtain ⟨e, -, hr⟩ := ht.leaf_some ((hentry hl).trans (if_pos hvalid))
      exact hr.leaf
    · have hiff := ht.leaf_none (v := 512 * (512 * i + k) + l)
      rw [hentry hl] at hiff
      rw [← not_iff_not, Bool.not_eq_true, Option.isSome_eq_false_iff, Option.isNone_iff_eq_none, ← hiff]
      split <;> simp_all

theorem freewalk_sim (h : Arena m free pt.tables) (ht : Tree m.ram pt W) :
    Simulates Halt.panic (freewalk 2 pt.root) m (OsLab.freewalk pt) free fun _ m' _ free' =>
      Moves m free pt.tables m' free' 0 := by
  rw [tables_below] at h ⊢
  unfold OsLab.freewalk
  refine freePage_sim (freewalk 1) pt.dir h ht.dir (fun i _ hn => ⟨below_none hn, ?_⟩)
    fun i _ d hd m' free' hsame h' => ?_
  · rw [hn]
  · rw [hd]
    exact freeDir_sim hd ht hsame h'

end

end Phys

end OsLab
