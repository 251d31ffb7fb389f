import OsLab.PhysVm
import OsLab.VmBounds

/-!
# Copying, mirroring and the page tables of processes in memory

`uvmcopy`, `uvmmirror`, `proc_pagetable` and the functions that free a whole
address space, on the words of memory. What `uvmmirror` writes is known exactly:
for each page the parent's entry, with the same page and the same flags.
-/

namespace OsLab

open Mach

namespace Phys

section
variable {m m' : Phys} {free free' : List Page} {used used' rest : Multiset Page} {pt old new : PageTable}
  {W Wo : Nat → Option Word} {v i : Nat} {pa tf : Page}

/-! ## Freeing an address space -/

theorem unmapped_eq (pt : PageTable) (i : Nat) :
    unmapped pt 0 i true = pt.tables + pt.mapped (Finset.Ico 0 i) := by
  unfold unmapped
  rw [if_pos rfl, Nat.zero_add]

theorem uvmfree_sim (sz : Nat) (h : Arena m free (unmapped pt 0 (pgRoundUp sz) true))
    (ht : Tree m.ram pt W) :
    Simulates Halt.panic (uvmfree pt.root sz) m (OsLab.uvmfree pt sz) free fun _ m' _ free' =>
      Moves m free (unmapped pt 0 (pgRoundUp sz) true) m' free' 0 := by
  unfold uvmfree OsLab.uvmfree
  by_cases hsz : sz > 0
  · rw [if_pos hsz, if_pos hsz]
    refine .bind (uvmunmap_sim _ true h ht) fun _ m₁ pt₁ free₁ ⟨hm, hroot, ht₁⟩ => ?_
    rw [← hroot]
    exact (freewalk_sim (h.moves hm) ht₁).mono fun _ _ _ _ hk => hm.trans hk
  · have hz : pgRoundUp sz = 0 := by unfold pgRoundUp; omega
    rw [hz, unmapped_zero] at h ⊢
    rw [if_neg hsz, if_neg hsz]
    exact .right rfl (freewalk_sim h ht)

theorem uvmunmap_one (h : Arena m free (pt.tables + rest)) (ht : Tree m.ram pt W) {n : Nat} (hn : n ≤ v) :
    Simulates Halt.panic (uvmunmap pt.root v 1 false) m (OsLab.uvmunmap pt v 1 false) free
      fun _ m' pt' free' => Moves m free (pt.tables + rest) m' free' (pt'.tables + rest) ∧
        pt'.root = pt.root ∧ Tree m'.ram pt' (cleared W v 1) ∧
        pt'.mapped (Finset.Ico 0 n) = pt.mapped (Finset.Ico 0 n) := by
  have hz : unmapped pt v 1 false = pt.tables := add_zero _
  have hs := uvmunmap_sim 1 false (v := v) (by rw [hz]; exact h.of_add) ht
  rw [hz] at hs
  refine (hs.and (uvmunmap_spec 1 false pt v free)).mono fun _ m' pt' free' ⟨⟨hm, hroot, ht'⟩, hc, _⟩ => ?_
  refine ⟨hm.add rest, hroot, ht', ?_⟩
  unfold PageTable.mapped
  refine Finset.sum_congr rfl fun u hu => ?_
  have hu' := Finset.mem_Ico.mp hu
  rw [hc u, if_neg (by rw [Finset.mem_Ico]; omega)]

theorem procFreepagetable_sim (sz : Nat) (hsz : pgRoundUp sz ≤ trapframeVa)
    (h : Arena m free (unmapped pt 0 (pgRoundUp sz) true)) (ht : Tree m.ram pt W) :
    Simulates Halt.panic (procFreepagetable pt.root sz) m (OsLab.procFreepagetable pt sz) free
      fun _ m' _ free' => Moves m free (unmapped pt 0 (pgRoundUp sz) true) m' free' 0 := by
  have hle : trapframeVa ≤ trampoline := Nat.sub_le _ _
  rw [unmapped_eq] at h ⊢
  refine .bind (uvmunmap_one h ht (hsz.trans hle)) fun _ m₁ pt₁ free₁ ⟨hm₁, hroot₁, ht₁, hmap₁⟩ => ?_
  rw [← hroot₁]
  have h₁ := h.moves hm₁
  refine .bind (uvmunmap_one h₁ ht₁ hsz) fun _ m₂ pt₂ free₂ ⟨hm₂, hroot₂, ht₂, hmap₂⟩ => ?_
  rw [← hroot₂]
  have h₂ := h₁.moves hm₂
  rw [← hmap₁, ← hmap₂, ← unmapped_eq] at h₂
  refine (uvmfree_sim sz h₂ ht₂).mono fun _ m' _ free' hm => hm₁.trans (hm₂.trans ?_)
  rw [← hmap₁, ← hmap₂, ← unmapped_eq]
  exact hm

theorem threadFreepagetable_sim (sz : Nat) (h : Arena m free pt.tables) (ht : Tree m.ram pt W) :
    Simulates Halt.panic (threadFreepagetable pt.root sz) m (OsLab.threadFreepagetable pt sz) free
      fun _ m' _ free' => Moves m free pt.tables m' free' 0 := by
  have hz : unmapped pt 0 (pgRoundUp sz) false = pt.tables := add_zero _
  rw [← hz] at h ⊢
  refine .bind (uvmunmap_sim _ false h ht) fun _ m₁ pt₁ free₁ ⟨hm₁, hroot₁, ht₁⟩ => ?_
  rw [← hroot₁]
  -- what is left is `proc_freepagetable` for a process of size 0
  have h₁ := h.moves hm₁
  have hzero : unmapped pt₁ 0 (pgRoundUp 0) true = pt₁.tables := unmapped_zero pt₁ 0 true
  rw [← hzero] at h₁ hm₁
  exact (procFreepagetable_sim 0 (Nat.zero_le _) h₁ ht₁).mono fun _ m' _ free' hm => hm₁.trans hm

/-! ## New entries -/

theorem getLsbD_new (pa : Page) (perm : Word) (h0 : 0 < i) (hi : i < 10) :
    (pa2pte pa ||| perm ||| pteV).getLsbD i = perm.getLsbD i := by
  have hlow : ¬ (10 ≤ i ∧ i < 62) := by omega
  have hone : i ≠ 0 := by omega
  rw [BitVec.getLsbD_or, BitVec.getLsbD_or, getLsbD_pa2pte, getLsbD_pteV, decide_eq_false hlow,
    decide_eq_false hone, Bool.false_and, Bool.false_or, Bool.or_false]

def remap (pa : Page) (w : Word) : Word := pa2pte pa ||| pteFlags w ||| pteV

theorem Reads.remap {w : Word} {e e' : Pte} (h : Reads w e) (hpa : pa < 2 ^ 52) (hp : e'.pa = pa)
    (hr : e'.r = e.r) (hw : e'.w = e.w) (hx : e'.x = e.x) (hu : e'.u = e.u) :
    Reads (remap pa w) e' := by
  have hbit {k : Nat} (h0 : 0 < k) (hk : k < 10) : (Phys.remap pa w).getLsbD k = w.getLsbD k := by
    unfold Phys.remap
    rw [getLsbD_new pa _ h0 hk, getLsbD_flags, decide_eq_true hk, Bool.true_and]
  have hleaf := h.leaf
  rw [isLeaf_iff, ← hbit (by omega) (by omega), ← hbit (by omega) (by omega),
    ← hbit (by omega) (by omega), ← isLeaf_iff] at hleaf
  refine ⟨hleaf, ?_, ?_, ?_, ?_, ?_⟩
  · rw [hp]
    exact (encodes hpa (flags_flags w)).page
  · rw [hbit (by omega) (by omega), h.r, hr]
  · rw [hbit (by omega) (by omega), h.w, hw]
  · rw [hbit (by omega) (by omega), h.x, hx]
  · rw [hbit (by omega) (by omega), h.u, hu]

theorem remap_same {w : Word} (h : Valid w) :
    Valid (remap (pte2pa w) w) ∧ pte2pa (remap (pte2pa w) w) = pte2pa w ∧
      pteFlags (remap (pte2pa w) w) = pteFlags w := by
  have henc : Encodes (remap (pte2pa w) w) (pte2pa w) (pteFlags w) :=
    encodes (pageOf_lt _) (flags_flags w)
  refine ⟨henc.valid, henc.page, henc.flags.trans ?_⟩
  apply BitVec.eq_of_getLsbD_eq
  intro k _
  rw [BitVec.getLsbD_or, getLsbD_pteV, getLsbD_flags]
  by_cases hk : k = 0
  · subst hk
    rw [(valid_iff w).mp h]
    rfl
  · rw [decide_eq_false hk, Bool.or_false]

/-! ## Copying -/

theorem Tree.moves (ho : Tree m.ram old Wo) (hd : ∀ x ∈ old.tables, x ∉ (free : Multiset Page) + used)
    (hm : Moves m free used m' free' used') :
    Tree m'.ram old Wo ∧ ∀ x ∈ old.tables, x ∉ (free' : Multiset Page) + used' := by
  refine ⟨ho.frame fun x hx => hm.frame x (hd x hx), fun x hx => ?_⟩
  rw [hm.pages]
  exact hd x hx

theorem mapped_top (pt : PageTable) (i : Nat) : pt.mapped (Finset.Ico 0 (i + 1)) =
    pt.mapped (Finset.Ico 0 i) + pageAt ((pt.leaf i).map Pte.pa) := by
  unfold PageTable.mapped
  exact Finset.sum_Ico_succ_top (Nat.zero_le i) _

theorem mapped_congr {pt' : PageTable} (h : ∀ u < i, pt'.leaf u = pt.leaf u) :
    pt'.mapped (Finset.Ico 0 i) = pt.mapped (Finset.Ico 0 i) := by
  unfold PageTable.mapped
  exact Finset.sum_congr rfl fun u hu => by rw [h u (Finset.mem_Ico.mp hu).2]

structure Copies (m : Phys) (free : List Page) (new : PageTable) (i n : Nat) (ok : Bool) (m' : Phys)
    (b : Bool × PageTable) (free' : List Page) : Prop where
  ok : ok = b.1
  root : b.2.root = new.root
  moves : Moves m free (unmapped new 0 i true) m' free'
    (if b.1 then unmapped b.2 0 (i + n) true else b.2.tables)
  tree : ∃ W, Tree m'.ram b.2 W

theorem Copies.trans {m₁ : Phys} {free₁ : List Page} {new₁ : PageTable} {n : Nat} {ok : Bool}
    {b : Bool × PageTable} (hm : Moves m free (unmapped new 0 i true) m₁ free₁ (unmapped new₁ 0 (i + 1) true))
    (hroot : new₁.root = new.root) (h : Copies m₁ free₁ new₁ (i + 1) n ok m' b free') :
    Copies m free new i (n + 1) ok m' b free' := by
  refine ⟨h.ok, h.root.trans hroot, hm.trans ?_, h.tree⟩
  have hi : i + (n + 1) = i + 1 + n := by omega
  rw [hi]
  exact h.moves

/-- `uvmcopy` gives up at page `i`: the pages mapped so far are taken back. -/
theorem copyUndo_sim {m₁ : Phys} {free₁ : List Page} {new₁ : PageTable} {W₁ : Nat → Option Word} (n : Nat)
    (h : Arena m free (unmapped new 0 i true))
    (hm : Moves m free (unmapped new 0 i true) m₁ free₁ (unmapped new₁ 0 i true)) (hroot : new₁.root = new.root)
    (ht : Tree m₁.ram new₁ W₁) :
    Simulates Halt.panic (do uvmunmap new.root 0 i true; pure false) m₁
      (do let new ← OsLab.uvmunmap new₁ 0 i true; pure (false, new)) free₁ (Copies m free new i (n + 1)) := by
  rw [← hroot]
  refine .bind (uvmunmap_sim i true (h.moves hm) ht) fun _ m₂ new₂ free₂ ⟨hm₂, hroot₂, ht₂⟩ => ?_
  refine .pure ⟨rfl, hroot₂.trans hroot, ?_, _, ht₂⟩
  rw [if_neg Bool.false_ne_true]
  exact hm.trans hm₂

theorem uvmcopyLoop_sim (n : Nat) (ho : Tree m.ram old Wo)
    (hd : ∀ x ∈ old.tables, x ∉ (free : Multiset Page) + unmapped new 0 i true)
    (h : Arena m free (unmapped new 0 i true)) (ht : Tree m.ram new W)
    (hfresh : ∀ u, i ≤ u → u < i + n → new.leaf u = none) :
    Simulates Halt.panic (uvmcopyLoop old.root new.root i n) m (OsLab.uvmcopyLoop old new i n) free
      (Copies m free new i n) := by
  induction n generalizing m free new W i with
  | zero => exact .pure ⟨rfl, rfl, h.refl, W, ht⟩
  | succ n ih =>
    have hnone : new.leaf i = none := hfresh i le_rfl (by omega)
    refine .bind (present_sim ho) fun r m₀ o free₀ ⟨hm, hfree, _, hleaf, hr⟩ => ?_
    subst hm hfree hleaf hr
    cases hw : Wo i with
    | none =>
      rw [entryAt_none hw, ho.leaf_none.mp hw]
      have hpages : unmapped new 0 (i + 1) true = unmapped new 0 i true := by
        rw [unmapped_eq, unmapped_eq, mapped_top, hnone, Option.map_none, pageAt_none, add_zero]
      have hih : Simulates _ (uvmcopyLoop old.root new.root (i + 1) n) _ (OsLab.uvmcopyLoop old new (i + 1) n) _ _ :=
        ih ho (by rw [hpages]; exact hd) (by rw [hpages]; exact h) ht fun u hu hu' => hfresh u (by omega) (by omega)
      refine hih.mono fun _ _ _ _ hc => hc.trans ?_ rfl
      rw [hpages]
      exact h.refl
    | some w =>
      obtain ⟨t, htab, hentry⟩ := ho.entryAt_some hw
      obtain ⟨e, hleaf, hreads⟩ := ho.leaf_some hw
      rw [hentry, hleaf]
      refine .bind (kalloc_sim h) fun r m₁ r' free₁ ⟨hr, hk, hsame, _⟩ => ?_
      subst hr
      cases r with
      | none =>
        rw [pageAt_none, add_zero] at hk
        exact copyUndo_sim n h hk rfl (ht.frame fun x _ => hsame x (Multiset.notMem_zero x))
      | some mem =>
        rw [pageAt_some] at hk hsame
        have h₁ := h.moves hk
        have hmem : mem ∈ unmapped new 0 i true + {mem} :=
          Multiset.mem_add.mpr (.inr (Multiset.mem_singleton_self mem))
        have hnew : ∀ x ∈ new.tables, x ≠ mem := fun x hx => h₁.ne_of_table hx
        have hcopy := h₁.write hmem (m₁.ram (pte2pa w))
        have hk₂ := hk.trans hcopy
        have h₂ := h.moves hk₂
        have ht₂ : Tree (Function.update m₁.ram mem (m₁.ram (pte2pa w))) new W :=
          ht.frame fun x hx => by
            rw [Function.update_of_ne (hnew x hx),
              hsame x fun hx' => hnew x hx (Multiset.mem_singleton.mp hx')]
        have hpages : unmapped new 0 i true + {mem} =
            new.tables + (new.mapped (Finset.Ico 0 i) + {mem}) := by
          rw [unmapped_eq, add_assoc]
        rw [hpages] at h₂ hk₂
        refine .left rfl (.bind (mappages_sim h₂.of_add ht₂ (h₁.lt hmem) (flags_flags w)
          (hreads.remap (h₁.lt hmem) rfl rfl rfl rfl rfl)) fun ok m₃ b free₃ hmap => ?_)
        obtain ⟨ok', new₃⟩ := b
        obtain ⟨hok, hm₃, hroot, hi, -, hleaf₃, ht₃⟩ := hmap
        dsimp only at hok hm₃ hroot hleaf₃ ht₃ ⊢
        subst hok
        have hk₃ := hk₂.trans (hm₃.add (new.mapped (Finset.Ico 0 i) + {mem}))
        cases ok with
        | false =>
          rw [if_neg Bool.false_ne_true] at hleaf₃
          have hpages₃ : new₃.tables + (new.mapped (Finset.Ico 0 i) + {mem}) =
              unmapped new₃ 0 i true + {mem} := by
            rw [unmapped_eq, ← mapped_congr fun u _ => congrFun hleaf₃ u, add_assoc]
          rw [hpages₃] at hk₃
          rw [if_neg Bool.false_ne_true, if_neg Bool.false_ne_true]
          refine .bind (kfree_sim (h.moves hk₃)) fun _ m₄ _ free₄ ⟨hm₄, hsame₄⟩ => ?_
          exact copyUndo_sim n h (hk₃.trans hm₄) hroot
            (ht₃.frame fun x hx => hsame₄ x ((h.moves hk₃).ne_of_table hx))
        | true =>
          rw [if_pos rfl] at hleaf₃
          have hbelow : ∀ u < i, new₃.leaf u = new.leaf u := fun u hu => by
            rw [hleaf₃, Function.update_of_ne (by omega)]
          have hpages₃ : new₃.tables + (new.mapped (Finset.Ico 0 i) + {mem}) =
              unmapped new₃ 0 (i + 1) true := by
            rw [unmapped_eq, mapped_top, mapped_congr hbelow, hleaf₃, Function.update_self]
            rfl
          rw [hpages₃] at hk₃
          obtain ⟨ho₃, hd₃⟩ := ho.moves hd hk₃
          rw [if_pos rfl, if_pos rfl, ← hroot]
          refine (ih ho₃ hd₃ (h.moves hk₃) ht₃ fun u hu hu' => ?_).mono fun _ _ _ _ hc => hc.trans hk₃ hroot
          rw [hleaf₃, Function.update_of_ne (by omega)]
          exact hfresh u (by omega) (by omega)

/-! ## Mirroring -/

def mirrored (Wo W : Nat → Option Word) (i n : Nat) : Nat → Option Word :=
  fun u => if i ≤ u ∧ u < i + n then (Wo u).map fun w => remap (pte2pa w) w else W u

theorem mirrored_zero (Wo W : Nat → Option Word) (i : Nat) : mirrored Wo W i 0 = W := by
  funext u
  exact if_neg (by omega)

theorem mirrored_update {w : Word} (n : Nat) (hw : Wo i = some w) :
    mirrored Wo (Function.update W i (some (remap (pte2pa w) w))) (i + 1) n = mirrored Wo W i (n + 1) := by
  funext u
  unfold mirrored
  by_cases hu : u = i
  · subst hu
    rw [if_neg (by omega), if_pos (by omega), Function.update_self, hw]
    rfl
  · rw [Function.update_of_ne hu]
    exact if_congr (by omega) rfl rfl

structure Mirrors (m : Phys) (free : List Page) (Wo : Nat → Option Word) (new : PageTable)
    (W : Nat → Option Word) (i n : Nat) (ok : Bool) (m' : Phys) (b : Bool × PageTable)
    (free' : List Page) : Prop where
  ok : ok = b.1
  root : b.2.root = new.root
  moves : Moves m free new.tables m' free' b.2.tables
  tree : ∃ W', Tree m'.ram b.2 W' ∧ (b.1 = true → W' = mirrored Wo W i n)

theorem uvmmirrorLoop_sim (n : Nat) (ho : Tree m.ram old Wo)
    (hd : ∀ x ∈ old.tables, x ∉ (free : Multiset Page) + new.tables)
    (h : Arena m free new.tables) (ht : Tree m.ram new W) :
    Simulates Halt.panic (uvmmirrorLoop old.root new.root i n) m (OsLab.uvmmirrorLoop old new i n) free
      (Mirrors m free Wo new W i n) := by
  induction n generalizing m free new W i with
  | zero => exact .pure ⟨rfl, rfl, h.refl, W, ht, fun _ => (mirrored_zero Wo W i).symm⟩
  | succ n ih =>
    by_cases hv : i < maxVa
    case neg =>
      have hge := Nat.not_lt.mp hv
      have hl : walk old.root i false = Mach.fail (.panic .walk) := if_pos hge
      have hr : OsLab.walk old i = Mach.fail .walk := if_pos hge
      unfold uvmmirrorLoop OsLab.uvmmirrorLoop
      rw [hl, hr]
      exact .bind (.fail : Simulates _ _ _ _ _ fun _ _ _ _ => False) fun _ _ _ _ hf => hf.elim
    refine .left (walk_eq ho hv) (.right (OsLab.walk_eq old i free hv) ?_)
    cases htab : old.tab (i / 512) with
    | none => exact .fail
    | some t =>
      refine .left rfl ?_
      dsimp only [Option.map_some, Option.isSome_some]
      rw [if_pos rfl]
      have hword := ho.leaf i t htab
      cases hw : Wo i with
      | none =>
        rw [hw] at hword
        have hnot : ¬ Valid (m.ram t (i % 512)) := fun hval => by
          rw [if_pos hval] at hword
          cases hword
        rw [if_neg hnot, ho.leaf_none.mp hw]
        exact .fail
      | some w =>
        obtain ⟨e, hleaf, hreads⟩ := ho.leaf_some hw
        have hval : Valid (m.ram t (i % 512)) := by
          by_contra hnot
          rw [hw, if_neg hnot] at hword
          cases hword
        rw [hw, if_pos hval] at hword
        rw [if_pos hval, ← Option.some.inj hword, hleaf]
        have hlt : pte2pa w < 2 ^ 52 := pageOf_lt _
        refine .bind (mappages_sim h ht hlt (flags_flags w)
          (hreads.remap hlt hreads.page.symm rfl rfl rfl rfl)) fun ok m₁ b free₁ hmap => ?_
        obtain ⟨ok', new₁⟩ := b
        obtain ⟨hok, hm₁, hroot, -, -, hleaf₁, ht₁⟩ := hmap
        dsimp only at hok hm₁ hroot hleaf₁ ht₁ ⊢
        subst hok
        have h₁ := h.moves hm₁
        cases ok with
        | false =>
          have hz : unmapped new₁ 0 i false = new₁.tables := add_zero _
          rw [if_neg Bool.false_ne_true, if_neg Bool.false_ne_true, ← hroot]
          refine .bind (uvmunmap_sim i false (by rw [hz]; exact h₁) ht₁) fun _ m₂ new₂ free₂ hu => ?_
          obtain ⟨hm₂, hroot₂, ht₂⟩ := hu
          rw [hz] at hm₂
          exact .pure ⟨rfl, hroot₂.trans hroot, hm₁.trans hm₂, _, ht₂, nofun⟩
        | true =>
          obtain ⟨ho₁, hd₁⟩ := ho.moves hd hm₁
          rw [if_pos rfl, if_pos rfl, ← hroot]
          refine (ih ho₁ hd₁ h₁ ht₁).mono fun _ m₂ b₂ free₂ hmir => ?_
          obtain ⟨W₂, ht₂, hW₂⟩ := hmir.tree
          refine ⟨hmir.ok, hmir.root.trans hroot, hm₁.trans hmir.moves, W₂, ht₂, fun hb => ?_⟩
          rw [hW₂ hb, if_pos rfl, ← mirrored_update n hw]
          rfl

/-! ## The table of a new process -/

def trapEntries (tf : Page) : Nat → Option Word :=
  Function.update (Function.update (fun _ => none) trampoline
    (some (pa2pte trampolinePa ||| (pteR ||| pteX) ||| pteV))) trapframeVa
      (some (pa2pte tf ||| (pteR ||| pteW) ||| pteV))

theorem reads_trampoline : Reads (pa2pte trampolinePa ||| (pteR ||| pteX) ||| pteV)
    ⟨trampolinePa, true, false, true, false, false⟩ := by
  refine ⟨?_, ?_, ?_, ?_, ?_, ?_⟩ <;> decide

theorem reads_trapframe (htf : tf < 2 ^ 52) : Reads (pa2pte tf ||| (pteR ||| pteW) ||| pteV)
    ⟨tf, true, true, false, false, false⟩ := by
  have hbit (k : Nat) (h0 : 0 < k) (hk : k < 10) := getLsbD_new tf (pteR ||| pteW) h0 hk
  refine ⟨?_, (encodes htf (by decide)).page, ?_, ?_, ?_, ?_⟩
  · rw [isLeaf_iff, hbit 1 (by omega) (by omega)]
    exact .inl (by decide)
  · exact (hbit 1 (by omega) (by omega)).trans rfl
  · exact (hbit 2 (by omega) (by omega)).trans rfl
  · exact (hbit 3 (by omega) (by omega)).trans rfl
  · exact (hbit 4 (by omega) (by omega)).trans rfl

structure NewTable (m : Phys) (free : List Page) (tf : Page) (r : Option Page) (m' : Phys)
    (o : Option PageTable) (free' : List Page) : Prop where
  root : r = o.map PageTable.root
  moves : Moves m free 0 m' free' (o.elim 0 PageTable.tables)
  tree : ∀ pt, o = some pt → Tree m'.ram pt (trapEntries tf)

theorem procPagetable_sim (h : Arena m free 0) (htf : tf < 2 ^ 52) :
    Simulates Halt.panic (procPagetable tf) m (OsLab.procPagetable tf) free (NewTable m free tf) := by
  unfold procPagetable OsLab.procPagetable uvmcreate OsLab.uvmcreate
  rw [Mach.bind_assoc, Mach.bind_assoc]
  refine .bind (kalloc_sim h) fun r m₁ r' free₁ ⟨hr, hk, hsame, _⟩ => ?_
  subst hr
  cases r with
  | none => exact .left rfl (.right rfl (.pure ⟨rfl, hk, nofun⟩))
  | some pa =>
    rw [pageAt_some, zero_add] at hk
    have hmem : pa ∈ ({pa} : Multiset Page) := Multiset.mem_singleton_self pa
    have hz := hk.trans ((h.moves hk).write hmem fun _ => 0)
    rw [← PageTable.empty_tables] at hz
    have h₁ := h.moves hz
    have ht₁ : Tree (Function.update m₁.ram pa fun _ => 0) (PageTable.empty pa) fun _ => none :=
      Tree.empty (Function.update_self ..)
    -- a table without entries is given back
    have undo {m₂ : Phys} {free₂ : List Page} {pt : PageTable} {W : Nat → Option Word}
        (hm : Moves m free 0 m₂ free₂ pt.tables) (hroot : pt.root = pa) (ht : Tree m₂.ram pt W) :
        Simulates Halt.panic (do uvmfree pa 0; pure none : Pm (Option Page)) m₂
          (do OsLab.uvmfree pt 0; pure none : Vm (Option PageTable)) free₂ (NewTable m free tf) := by
      have hz : unmapped pt 0 (pgRoundUp 0) true = pt.tables := unmapped_zero pt 0 true
      have hs := uvmfree_sim 0 (by rw [hz]; exact h.moves hm) ht
      rw [hz, hroot] at hs
      exact .bind hs fun _ m₃ _ free₃ hm₃ => .pure ⟨rfl, hm.trans hm₃, nofun⟩
    refine .left rfl (.right rfl ?_)
    refine .bind (mappages_sim h₁ ht₁ (by decide) (by decide) reads_trampoline) fun ok m₂ b free₂ hmap => ?_
    obtain ⟨ok', pt₂⟩ := b
    obtain ⟨hok, hm₂, hroot₂, -, -, -, ht₂⟩ := hmap
    dsimp only at hok hm₂ hroot₂ ht₂ ⊢
    subst hok
    have hk₂ := hz.trans hm₂
    have hpa : pa = pt₂.root := hroot₂.symm
    cases ok with
    | false =>
      rw [if_neg Bool.false_ne_true, if_neg Bool.false_ne_true]
      exact undo hk₂ hroot₂ ht₂
    | true =>
      rw [if_pos rfl, if_pos rfl]
      have h₂ := h.moves hk₂
      nth_rewrite 1 [hpa]
      refine .bind (mappages_sim h₂ ht₂ htf (by decide) (reads_trapframe htf)) fun ok m₃ b free₃ hmap => ?_
      obtain ⟨ok', pt₃⟩ := b
      obtain ⟨hok, hm₃, hroot₃, -, -, -, ht₃⟩ := hmap
      dsimp only at hok hm₃ hroot₃ ht₃ ⊢
      subst hok
      have hk₃ := hk₂.trans hm₃
      have hpa₃ : pa = pt₃.root := hpa.trans hroot₃.symm
      cases ok with
      | false =>
        have hz : unmapped pt₃ trampoline 1 false = pt₃.tables := add_zero _
        rw [if_neg Bool.false_ne_true, if_neg Bool.false_ne_true]
        have hs := uvmunmap_sim 1 false (v := trampoline) (by rw [hz]; exact h.moves hk₃) ht₃
        rw [hz, ← hpa₃] at hs
        refine .bind hs fun _ m₄ pt₄ free₄ ⟨hm₄, hroot₄, ht₄⟩ => ?_
        exact undo (hk₃.trans hm₄) hroot₄ ht₄
      | true =>
        refine .pure ⟨congrArg some hpa₃, hk₃, fun pt hpt => ?_⟩
        cases hpt
        exact ht₃

end

end Phys

end OsLab
