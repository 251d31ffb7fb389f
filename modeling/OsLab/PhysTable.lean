import OsLab.Phys
import OsLab.Simulation
import OsLab.VmGrow

/-!
# The free list and page tables in memory

How the words of physical memory stand for a free list (`Chain`) and for a page
table (`Tree`). The functions of `vm.c` work on the pages of one table and on
the free ones (`Arena`) and change no other page (`Moves`).
-/

namespace OsLab

open Mach

namespace Phys

/-! ## Page-table entries -/

theorem and_ne_zero_iff (w m : Word) :
    w &&& m ≠ 0 ↔ ∃ i : Fin 64, m.getLsbD i = true ∧ w.getLsbD i = true := by
  constructor
  · intro h
    by_contra hbits
    apply h
    apply BitVec.eq_of_getLsbD_eq
    intro i hi
    have hi' : ¬ (m.getLsbD i = true ∧ w.getLsbD i = true) := fun hb => hbits ⟨⟨i, hi⟩, hb⟩
    change (w &&& m).getLsbD i = (0#64).getLsbD i
    rw [BitVec.getLsbD_and, BitVec.getLsbD_zero]
    grind
  · rintro ⟨i, hm, hw⟩ h
    have hi : (w &&& m).getLsbD i = (0#64).getLsbD i := by rw [h]; rfl
    rw [BitVec.getLsbD_and, hm, hw, BitVec.getLsbD_zero] at hi
    cases hi

theorem valid_iff (w : Word) : Valid w ↔ w.getLsbD 0 = true := by
  have hmask : ∀ i : Fin 64, pteV.getLsbD i = true ↔ i = 0 := by decide
  unfold Valid
  rw [and_ne_zero_iff]
  constructor
  · intro ⟨i, hi, hw⟩
    rw [(hmask i).mp hi] at hw
    exact hw
  · exact fun h => ⟨0, rfl, h⟩

theorem isLeaf_iff (w : Word) :
    IsLeaf w ↔ w.getLsbD 1 = true ∨ w.getLsbD 2 = true ∨ w.getLsbD 3 = true := by
  have hmask : ∀ i : Fin 64, (pteR ||| pteW ||| pteX).getLsbD i = true ↔ i = 1 ∨ i = 2 ∨ i = 3 := by
    decide
  unfold IsLeaf
  rw [and_ne_zero_iff]
  constructor
  · intro ⟨i, hi, hw⟩
    obtain rfl | rfl | rfl := (hmask i).mp hi
    · exact .inl hw
    · exact .inr (.inl hw)
    · exact .inr (.inr hw)
  · intro h
    obtain h | h | h := h
    · exact ⟨1, rfl, h⟩
    · exact ⟨2, rfl, h⟩
    · exact ⟨3, rfl, h⟩

theorem not_valid_zero : ¬ Valid 0 := by decide

theorem getLsbD_pa2pte (pa : Page) (i : Nat) : (pa2pte pa).getLsbD i =
    (decide (10 ≤ i ∧ i < 62) && pa.testBit (i - 10)) := by
  unfold pa2pte addr
  simp only [BitVec.getLsbD_shiftLeft, BitVec.getLsbD_ushiftRight, BitVec.getLsbD_ofNat]
  grind

theorem getLsbD_pteV (i : Nat) : pteV.getLsbD i = decide (i = 0) := by
  have h : pteV = 1#64 := rfl
  rw [h, BitVec.getLsbD_one]
  simp

theorem getLsbD_flags (w : Word) (i : Nat) :
    (pteFlags w).getLsbD i = (decide (i < 10) && w.getLsbD i) := by
  have hmask : ∀ j : Fin 64, (0x3FF : Word).getLsbD j = decide (j.val < 10) := by decide
  unfold pteFlags
  rw [BitVec.getLsbD_and, Bool.and_comm]
  by_cases hi : i < 64
  · rw [hmask ⟨i, hi⟩]
  · rw [BitVec.getLsbD_of_ge w i (by omega), Bool.and_false, Bool.and_false]

theorem flags_flags (w : Word) : pteFlags (pteFlags w) = pteFlags w := by
  apply BitVec.eq_of_getLsbD_eq
  intro i _
  rw [getLsbD_flags, getLsbD_flags, ← Bool.and_assoc, Bool.and_self]

theorem pageOf_lt (a : Word) : pageOf a < 2 ^ 52 := by
  have h : (a >>> 12).toNat < (2 ^ 52 : Nat) := by
    rw [BitVec.toNat_ushiftRight, Nat.shiftRight_eq_div_pow]
    have := a.isLt
    omega
  exact h

theorem pageOf_addr {pa : Nat} (h : pa < 2 ^ 52) : pageOf (addr pa) = pa := by
  have heq : (BitVec.ofNat 64 pa <<< 12 >>> 12).toNat = pa := by
    rw [BitVec.toNat_ushiftRight, BitVec.toNat_shiftLeft, BitVec.toNat_ofNat,
      Nat.shiftRight_eq_div_pow, Nat.shiftLeft_eq]
    omega
  exact heq

theorem addr_ne_zero {pa : Nat} (h : pa < 2 ^ 52) (h0 : 0 < pa) : addr pa ≠ 0 := by
  intro hz
  have hpa := pageOf_addr h
  rw [hz] at hpa
  exact Nat.ne_of_lt h0 hpa

structure Encodes (pte : Word) (pa : Page) (perm : Word) : Prop where
  valid : Valid pte
  page : pte2pa pte = pa
  flags : pteFlags pte = perm ||| pteV

theorem encodes {pa : Nat} {perm : Word} (hpa : pa < 2 ^ 52) (hperm : pteFlags perm = perm) :
    Encodes (pa2pte pa ||| perm ||| pteV) pa perm := by
  have hlow : ∀ i, 10 ≤ i → perm.getLsbD i = false := by
    intro i hi
    rw [← hperm, getLsbD_flags, decide_eq_false (by omega), Bool.false_and]
  refine ⟨?_, ?_, ?_⟩
  · rw [valid_iff, BitVec.getLsbD_or, getLsbD_pteV]
    simp
  · have heq : ((pa2pte pa ||| perm ||| pteV) >>> 10 <<< 12) >>> 12 = BitVec.ofNat 64 pa := by
      apply BitVec.eq_of_getLsbD_eq
      intro i hi
      have hbit : ((pa2pte pa ||| perm ||| pteV) >>> 10 <<< 12 >>> 12).getLsbD i =
          (decide (i < 52) && (pa2pte pa ||| perm ||| pteV).getLsbD (i + 10)) := by
        simp only [BitVec.getLsbD_shiftLeft, BitVec.getLsbD_ushiftRight]
        grind
      rw [hbit, BitVec.getLsbD_or, BitVec.getLsbD_or, getLsbD_pa2pte, hlow _ (by omega),
        getLsbD_pteV, BitVec.getLsbD_ofNat]
      by_cases h : i < 52
      · have h' : i + 10 < 62 := by omega
        simp [h, hi, h']
      · have hpow : 2 ^ 52 ≤ 2 ^ i := Nat.pow_le_pow_right (by omega) (by omega)
        simp [h, Nat.testBit_lt_two_pow (hpa.trans_le hpow)]
    unfold pte2pa pageOf
    rw [heq, BitVec.toNat_ofNat]
    exact Nat.mod_eq_of_lt (hpa.trans_le (by decide))
  · apply BitVec.eq_of_getLsbD_eq
    intro i hi
    rw [getLsbD_flags, BitVec.getLsbD_or, BitVec.getLsbD_or, getLsbD_pa2pte, BitVec.getLsbD_or]
    by_cases h : i < 10
    · have h' : ¬ 10 ≤ i := by omega
      simp [h, h']
    · rw [hlow i (by omega), getLsbD_pteV]
      simp [h]
      omega

theorem getLsbD_of_flags {w w' : Word} (h : pteFlags w = pteFlags w') {i : Nat} (hi : i < 10) :
    w.getLsbD i = w'.getLsbD i := by
  have hbit := congrArg (fun x : Word => x.getLsbD i) h
  simp only [getLsbD_flags, hi, decide_true, Bool.true_and] at hbit
  exact hbit

/-! ## The free list -/

def Chain (ram : Ram) : Word → List Page → Prop
  | a, [] => a = 0
  | a, p :: l => a = addr p ∧ Chain ram (ram p 0) l

theorem Chain.frame {ram ram' : Ram} {a : Word} {l : List Page} (h : Chain ram a l)
    (hram : ∀ x ∈ l, ram' x = ram x) : Chain ram' a l := by
  induction l generalizing a with
  | nil => exact h
  | cons p l ih =>
    refine ⟨h.1, ?_⟩
    rw [hram p List.mem_cons_self]
    exact ih h.2 fun x hx => hram x (List.mem_cons_of_mem p hx)

theorem Chain.link {ram : Ram} {a : Word} {l : List Page} {n : Nat} {x y : Page} (h : Chain ram a l)
    (hx : l[n]? = some x) (hy : l[n + 1]? = some y) : ram x 0 = addr y := by
  induction l generalizing a n with
  | nil => cases hx
  | cons p l ih =>
    cases n with
    | zero =>
      cases hx
      cases l with
      | nil => cases hy
      | cons q l =>
        cases hy
        exact h.2.1
    | succ n => exact ih h.2 hx hy

/-- The free pages, and the pages `used` that are at work: all different, and from the range that
the allocator is given. -/
structure Arena (m : Phys) (free : List Page) (used : Multiset Page) : Prop where
  chain : Chain m.ram m.freelist free
  nodup : ((free : Multiset Page) + used).Nodup
  range : ∀ x ∈ (free : Multiset Page) + used, m.kend ≤ x ∧ x < phystop
  kend : 0 < m.kend

/-- Pages have moved between the free list and those at work. Only these have changed. -/
structure Moves (m : Phys) (free : List Page) (used : Multiset Page) (m' : Phys) (free' : List Page)
    (used' : Multiset Page) : Prop where
  chain : Chain m'.ram m'.freelist free'
  pages : (free' : Multiset Page) + used' = free + used
  frame : ∀ x, x ∉ (free : Multiset Page) + used → m'.ram x = m.ram x
  kend : m'.kend = m.kend

section
variable {m m' m'' : Phys} {free free' free'' : List Page} {used used' used'' rest : Multiset Page}
  {pa x : Page}

theorem Arena.moves (h : Arena m free used) (hm : Moves m free used m' free' used') :
    Arena m' free' used' where
  chain := hm.chain
  nodup := by rw [hm.pages]; exact h.nodup
  range := by rw [hm.pages, hm.kend]; exact h.range
  kend := by rw [hm.kend]; exact h.kend

theorem Arena.refl (h : Arena m free used) : Moves m free used m free used :=
  ⟨h.chain, rfl, fun _ _ => rfl, rfl⟩

theorem Moves.trans (h : Moves m free used m' free' used') (h' : Moves m' free' used' m'' free'' used'') :
    Moves m free used m'' free'' used'' where
  chain := h'.chain
  pages := h'.pages.trans h.pages
  frame := fun x hx => (h'.frame x (by rw [h.pages]; exact hx)).trans (h.frame x hx)
  kend := h'.kend.trans h.kend

/-- **Frame rule**: pages that are at work elsewhere stay as they are. -/
theorem Moves.add (h : Moves m free used m' free' used') (rest : Multiset Page) :
    Moves m free (used + rest) m' free' (used' + rest) where
  chain := h.chain
  pages := by rw [← add_assoc, h.pages, add_assoc]
  frame := fun x hx => h.frame x fun hx' => hx (by rw [← add_assoc]; exact Multiset.mem_add.mpr (.inl hx'))
  kend := h.kend

theorem Arena.of_add (h : Arena m free (used + rest)) : Arena m free used where
  chain := h.chain
  nodup := Multiset.nodup_of_le (add_le_add le_rfl (Multiset.le_add_right _ _)) h.nodup
  range := fun x hx => h.range x (Multiset.mem_of_le (add_le_add le_rfl (Multiset.le_add_right _ _)) hx)
  kend := h.kend

theorem Arena.not_mem_rest (h : Arena m free (used + rest)) (hx : x ∈ rest) :
    x ∉ (free : Multiset Page) + used := by
  have hn := h.nodup
  rw [← add_assoc] at hn
  exact fun hx' => Multiset.disjoint_left.mp (Multiset.nodup_add.mp hn).2.2 hx' hx

theorem Arena.not_free (h : Arena m free used) (hx : x ∈ used) : x ∉ free :=
  fun hf => Multiset.disjoint_left.mp (Multiset.nodup_add.mp h.nodup).2.2 (Multiset.mem_coe.mpr hf) hx

theorem Arena.lt (h : Arena m free used) (hx : x ∈ used) : x < 2 ^ 52 :=
  (h.range x (Multiset.mem_add.mpr (.inr hx))).2.trans (by decide)

theorem Arena.write (h : Arena m free used) (hx : x ∈ used) (c : Nat → Word) :
    Moves m free used { m with ram := Function.update m.ram x c } free used where
  chain := h.chain.frame fun y hy =>
    Function.update_of_ne (fun heq : y = x => h.not_free hx (heq ▸ hy)) c m.ram
  pages := rfl
  frame := fun y hy => Function.update_of_ne
    (fun heq : y = x => hy (heq ▸ Multiset.mem_add.mpr (.inr hx))) c m.ram
  kend := rfl

theorem kalloc_sim (h : Arena m free used) :
    Simulates Halt.panic kalloc m OsLab.kalloc free fun r m' r' free' =>
      r = r' ∧ Moves m free used m' free' (used + pageAt r) ∧
      (∀ x, x ∉ pageAt r → m'.ram x = m.ram x) ∧
      ∀ pa, r = some pa → m'.ram pa = fun _ => 0x0505050505050505 := by
  cases free with
  | nil =>
    have hz : m.freelist = 0 := h.chain
    refine ⟨nofun, fun b t' hb => ?_⟩
    cases hb
    refine ⟨none, m, if_pos hz, rfl, ?_, fun _ _ => rfl, nofun⟩
    rw [pageAt_none, add_zero]
    exact h.refl
  | cons p l =>
    obtain ⟨hp, hl⟩ := h.chain
    have hmem : p ∈ ((p :: l : List Page) : Multiset Page) + used :=
      Multiset.mem_add.mpr (.inl (Multiset.mem_coe.mpr List.mem_cons_self))
    have hr := h.range p hmem
    have hlt : p < 2 ^ 52 := hr.2.trans (by decide)
    have hpage : pageOf m.freelist = p := hp ▸ pageOf_addr hlt
    have hne : m.freelist ≠ 0 := hp ▸ addr_ne_zero hlt (h.kend.trans_le hr.1)
    have hnotin : p ∉ l :=
      (List.nodup_cons.mp (Multiset.coe_nodup.mp (Multiset.nodup_add.mp h.nodup).1)).1
    refine ⟨nofun, fun b t' hb => ?_⟩
    cases hb
    refine ⟨some p, { m with
      freelist := m.ram p 0, ram := Function.update m.ram p fun _ => 0x0505050505050505 }, ?_, rfl,
      ⟨?_, ?_, fun x hx => ?_, rfl⟩, fun x hx => ?_, fun pa hpa => ?_⟩
    · unfold kalloc
      rw [if_neg hne, hpage]
    · exact hl.frame fun x hx => Function.update_of_ne (fun heq : x = p => hnotin (heq ▸ hx)) _ _
    · rw [pageAt_some, ← Multiset.cons_coe, ← Multiset.singleton_add]
      abel
    · exact Function.update_of_ne (fun heq : x = p => hx (heq ▸ hmem)) _ _
    · exact Function.update_of_ne (fun heq : x = p => hx (heq ▸ Multiset.mem_singleton_self p)) _ _
    · cases hpa
      exact Function.update_self ..

theorem kfree_sim (h : Arena m free (used + {pa})) :
    Simulates Halt.panic (kfree pa) m (OsLab.kfree pa) free fun _ m' _ free' =>
      Moves m free (used + {pa}) m' free' used ∧ ∀ x, x ≠ pa → m'.ram x = m.ram x := by
  have hmem : pa ∈ used + {pa} := Multiset.mem_add.mpr (.inr (Multiset.mem_singleton_self pa))
  have hr := h.range pa (Multiset.mem_add.mpr (.inr hmem))
  have hok : ¬ (pa < m.kend ∨ pa ≥ phystop) := by
    intro hbad
    obtain hbad | hbad := hbad
    · exact absurd hr.1 (Nat.not_le.mpr hbad)
    · exact absurd hr.2 (Nat.not_lt.mpr hbad)
  have hother (x : Page) (hx : x ≠ pa) : setWord (Function.update m.ram pa fun _ => 0x0101010101010101)
      pa 0 m.freelist x = m.ram x := by
    unfold setWord
    rw [Function.update_of_ne hx, Function.update_of_ne hx]
  refine ⟨nofun, fun b t' hb => ?_⟩
  cases hb
  refine ⟨(), _, if_neg hok, ⟨⟨rfl, ?_⟩, ?_, fun x hx => ?_, rfl⟩, hother⟩
  · have hlink : setWord (Function.update m.ram pa fun _ => 0x0101010101010101) pa 0 m.freelist pa 0 =
        m.freelist := by
      unfold setWord
      rw [Function.update_self, Function.update_self]
    dsimp only
    rw [hlink]
    exact h.chain.frame fun x hx => hother x fun heq => h.not_free hmem (heq ▸ hx)
  · rw [← Multiset.cons_coe, ← Multiset.singleton_add]
    abel
  · exact hother x fun heq => hx (Multiset.mem_add.mpr (.inr (heq ▸ hmem)))

end

/-! ## The pages of a table -/

end Phys

namespace PageTable
variable {pt : PageTable} {i j : Nat} {d t : Page}

theorem mem_sum_pageAt {f : Nat → Option Page} {n : Nat} (hi : i < n) (hd : f i = some d) :
    d ∈ ∑ k ∈ Finset.range n, pageAt (f k) := by
  rw [Multiset.mem_sum]
  exact ⟨i, Finset.mem_range.mpr hi, by rw [hd, pageAt_some]; exact Multiset.mem_singleton_self d⟩

theorem inj_of_nodup {f : Nat → Option Page} {n : Nat}
    (h : (∑ k ∈ Finset.range n, pageAt (f k)).Nodup) (hi : i < n) (hj : j < n) (hd : f i = some d)
    (hd' : f j = some d) : i = j := by
  by_contra hne
  rw [← Finset.add_sum_erase _ _ (Finset.mem_range.mpr hi), hd, pageAt_some] at h
  refine Multiset.disjoint_left.mp (Multiset.nodup_add.mp h).2.2 (Multiset.mem_singleton_self d) ?_
  rw [Multiset.mem_sum]
  refine ⟨j, Finset.mem_erase.mpr ⟨Ne.symm hne, Finset.mem_range.mpr hj⟩, ?_⟩
  rw [hd', pageAt_some]
  exact Multiset.mem_singleton_self d

theorem lt_of_dir (h : pt.dir i = some d) : i < 512 := by
  by_contra hi
  rw [pt.dir_lt i (by omega)] at h
  cases h

theorem dir_of_tab (h : pt.tab j = some t) : ∃ d, pt.dir (j / 512) = some d := by
  cases hd : pt.dir (j / 512) with
  | none =>
    rw [pt.tab_dir j hd] at h
    cases h
  | some d => exact ⟨d, rfl⟩

theorem lt_of_tab (h : pt.tab j = some t) : j < 512 * 512 := by
  obtain ⟨d, hd⟩ := dir_of_tab h
  have := lt_of_dir hd
  omega

structure Split (pt : PageTable) (D T : Multiset Page) : Prop where
  dir : ∀ i d, pt.dir i = some d → d ∈ D
  tab : ∀ j t, pt.tab j = some t → t ∈ T
  dir_inj : D.Nodup → ∀ {i j d}, pt.dir i = some d → pt.dir j = some d → i = j
  tab_inj : T.Nodup → ∀ {i j t}, pt.tab i = some t → pt.tab j = some t → i = j

theorem split_of_lt {m n : Nat} (hm : ∀ i d, pt.dir i = some d → i < m)
    (hn : ∀ j t, pt.tab j = some t → j < n) : Split pt (∑ i ∈ Finset.range m, pageAt (pt.dir i))
      (∑ j ∈ Finset.range n, pageAt (pt.tab j)) where
  dir := fun i d hi => mem_sum_pageAt (hm i d hi) hi
  tab := fun j t hj => mem_sum_pageAt (hn j t hj) hj
  dir_inj := fun h _ _ _ hi hj => inj_of_nodup h (hm _ _ hi) (hm _ _ hj) hi hj
  tab_inj := fun h _ _ _ hi hj => inj_of_nodup h (hn _ _ hi) (hn _ _ hj) hi hj

theorem tables_split (pt : PageTable) : ∃ D T, pt.tables = {pt.root} + D + T ∧ Split pt D T := by
  have h : Split pt _ _ := split_of_lt (fun _ _ => lt_of_dir) (fun _ _ => lt_of_tab)
  unfold tables
  exact ⟨_, _, rfl, h⟩

theorem root_mem (pt : PageTable) : pt.root ∈ pt.tables := by
  obtain ⟨D, T, h, -⟩ := pt.tables_split
  simp [h]

theorem dir_mem (hd : pt.dir i = some d) : d ∈ pt.tables := by
  obtain ⟨D, T, h, hs⟩ := pt.tables_split
  simp [h, hs.dir i d hd]

theorem tab_mem (ht : pt.tab j = some t) : t ∈ pt.tables := by
  obtain ⟨D, T, h, hs⟩ := pt.tables_split
  simp [h, hs.tab j t ht]

structure Distinct (pt : PageTable) : Prop where
  root_dir : ∀ i, pt.dir i ≠ some pt.root
  root_tab : ∀ j, pt.tab j ≠ some pt.root
  dir_tab : ∀ {i j d}, pt.dir i = some d → pt.tab j ≠ some d
  dir_inj : ∀ {i j d}, pt.dir i = some d → pt.dir j = some d → i = j
  tab_inj : ∀ {i j t}, pt.tab i = some t → pt.tab j = some t → i = j

theorem distinct (h : pt.tables.Nodup) : pt.Distinct := by
  obtain ⟨D, T, hpt, hs⟩ := pt.tables_split
  rw [hpt] at h
  obtain ⟨h₁, hnT, hdt⟩ := Multiset.nodup_add.mp h
  obtain ⟨-, hnD, hrd⟩ := Multiset.nodup_add.mp h₁
  refine ⟨fun i hi => ?_, fun j hj => ?_, fun {i j d} hi hj => ?_, hs.dir_inj hnD, hs.tab_inj hnT⟩
  · exact Multiset.disjoint_left.mp hrd (Multiset.mem_singleton_self _) (hs.dir i _ hi)
  · exact Multiset.disjoint_left.mp hdt (by simp) (hs.tab j _ hj)
  · exact Multiset.disjoint_left.mp hdt (by simp [hs.dir i d hi]) (hs.tab j d hj)

end PageTable

namespace Phys

/-! ## Page tables in memory -/

def Points (pte : Word) : Option Page → Prop
  | none => ¬ Valid pte
  | some pa => Valid pte ∧ ¬ IsLeaf pte ∧ pte2pa pte = pa

structure Reads (pte : Word) (e : Pte) : Prop where
  leaf : IsLeaf pte
  page : pte2pa pte = e.pa
  r : pte.getLsbD 1 = e.r
  w : pte.getLsbD 2 = e.w
  x : pte.getLsbD 3 = e.x
  u : pte.getLsbD 4 = e.u

/-- The table `pt` is in memory. `W` has the words of its valid last-level entries. -/
structure Tree (ram : Ram) (pt : PageTable) (W : Nat → Option Word) : Prop where
  dir : ∀ i < 512, Points (ram pt.root i) (pt.dir i)
  tab : ∀ j d, pt.dir (j / 512) = some d → Points (ram d (j % 512)) (pt.tab j)
  leaf : ∀ v t, pt.tab (v / 512) = some t →
    W v = if Valid (ram t (v % 512)) then some (ram t (v % 512)) else none
  reads : ∀ v, Option.Rel Reads (W v) (pt.leaf v)

def lookup (ram : Ram) (root : Page) (v : Nat) : Option Word :=
  let pde := ram root (px 2 v)
  if Valid pde then
    let pde := ram (pte2pa pde) (px 1 v)
    if Valid pde then
      let pte := ram (pte2pa pde) (px 0 v)
      if Valid pte then some pte else none
    else none
  else none

theorem lookup_valid {ram : Ram} {root : Page} {v : Nat} {pte : Word} (h : lookup ram root v = some pte) :
    Valid pte := by
  unfold lookup at h
  dsimp only at h
  split at h
  · split at h
    · split at h
      · cases h
        assumption
      · cases h
    · cases h
  · cases h

theorem points_new {pa : Nat} (h : pa < 2 ^ 52) : Points (pa2pte pa ||| pteV) (some pa) := by
  have hzero : pa2pte pa ||| pteV = pa2pte pa ||| 0#64 ||| pteV := by rw [BitVec.or_zero]
  rw [hzero]
  have henc : Encodes (pa2pte pa ||| 0#64 ||| pteV) pa 0#64 := encodes h rfl
  refine ⟨henc.valid, ?_, henc.page⟩
  have hflags : pteFlags (pa2pte pa ||| 0#64 ||| pteV) = pteFlags pteV := henc.flags
  rw [isLeaf_iff, getLsbD_of_flags hflags (by omega), getLsbD_of_flags hflags (by omega),
    getLsbD_of_flags hflags (by omega)]
  decide

section
variable {ram ram' : Ram} {pt : PageTable} {W : Nat → Option Word} {v : Nat} {pa : Page}

theorem Tree.none_of_tab (h : Tree ram pt W) (hv : pt.tab (v / 512) = none) : W v = none := by
  have hr := h.reads v
  rw [pt.leaf_tab v hv] at hr
  generalize W v = o at hr
  cases hr
  rfl

theorem Tree.frame (h : Tree ram pt W) (hram : ∀ x ∈ pt.tables, ram' x = ram x) : Tree ram' pt W where
  dir := by rw [hram _ pt.root_mem]; exact h.dir
  tab := fun j d hd => by rw [hram d (PageTable.dir_mem hd)]; exact h.tab j d hd
  leaf := fun v t ht => by rw [hram t (PageTable.tab_mem ht)]; exact h.leaf v t ht
  reads := h.reads

theorem Tree.empty (h : ram pa = fun _ => 0) : Tree ram (PageTable.empty pa) fun _ => none where
  dir := fun i _ => by
    change ¬ Valid (ram pa i)
    rw [h]
    exact not_valid_zero
  tab := nofun
  leaf := nofun
  reads := fun _ => .none

theorem setWord_other (ram : Ram) {x y : Page} (h : y ≠ x) (i : Nat) (w : Word) :
    setWord ram x i w y = ram y := Function.update_of_ne h ..

theorem setWord_same (ram : Ram) (x : Page) (i : Nat) (w : Word) : setWord ram x i w x i = w := by
  unfold setWord
  rw [Function.update_self, Function.update_self]

theorem setWord_index (ram : Ram) (x : Page) {i k : Nat} (h : k ≠ i) (w : Word) :
    setWord ram x i w x k = ram x k := by
  unfold setWord
  rw [Function.update_self, Function.update_of_ne h]

theorem Tree.addDir (h : Tree ram pt W) (hd : pt.Distinct) {i : Nat} (hi : i < 512)
    (hn : pt.dir i = none) (hpa : pa ∉ pt.tables) (hlt : pa < 2 ^ 52) (hz : ram pa = fun _ => 0) :
    Tree (setWord ram pt.root i (pa2pte pa ||| pteV)) (pt.addDir i pa) W := by
  have hroot : (pt.addDir i pa).root = pt.root := by unfold PageTable.addDir; split <;> rfl
  have hdir : (pt.addDir i pa).dir = Function.update pt.dir i (some pa) := by
    unfold PageTable.addDir
    rw [dif_pos hi]
  have htab : (pt.addDir i pa).tab = pt.tab := by unfold PageTable.addDir; split <;> rfl
  refine ⟨fun k hk => ?_, fun j d hj => ?_, fun v t ht => ?_, fun v => ?_⟩
  · rw [hroot, hdir]
    by_cases hki : k = i
    · subst hki
      rw [setWord_same, Function.update_self]
      exact points_new hlt
    · rw [setWord_index _ _ hki, Function.update_of_ne hki]
      exact h.dir k hk
  · rw [hdir] at hj
    rw [htab]
    by_cases hji : j / 512 = i
    · -- the new page is zeroed
      rw [hji, Function.update_self] at hj
      obtain rfl : pa = d := Option.some.inj hj
      have hne : pa ≠ pt.root := fun heq => hpa (heq ▸ pt.root_mem)
      rw [setWord_other _ hne, hz, pt.tab_dir j (hji ▸ hn)]
      exact not_valid_zero
    · rw [Function.update_of_ne hji] at hj
      have hne : d ≠ pt.root := fun heq => hd.root_dir _ (heq ▸ hj)
      rw [setWord_other _ hne]
      exact h.tab j d hj
  · rw [htab] at ht
    have hne : t ≠ pt.root := fun heq => hd.root_tab _ (heq ▸ ht)
    rw [setWord_other _ hne]
    exact h.leaf v t ht
  · rw [PageTable.addDir_leaf]
    exact h.reads v

theorem Tree.addTab (h : Tree ram pt W) (hd : pt.Distinct) {j : Nat} {d : Page}
    (hj : pt.dir (j / 512) = some d) (hn : pt.tab j = none) (hpa : pa ∉ pt.tables) (hlt : pa < 2 ^ 52)
    (hz : ram pa = fun _ => 0) :
    Tree (setWord ram d (j % 512) (pa2pte pa ||| pteV)) (pt.addTab j pa) W := by
  have hsome : pt.dir (j / 512) ≠ none := by rw [hj]; exact Option.some_ne_none d
  have hroot : (pt.addTab j pa).root = pt.root := by unfold PageTable.addTab; split <;> rfl
  have hdir : (pt.addTab j pa).dir = pt.dir := by unfold PageTable.addTab; split <;> rfl
  have htab : (pt.addTab j pa).tab = Function.update pt.tab j (some pa) := by
    unfold PageTable.addTab
    rw [dif_neg hsome]
  have hne : pa ≠ d := fun heq => hpa (heq ▸ PageTable.dir_mem hj)
  refine ⟨fun k hk => ?_, fun k e hk => ?_, fun v t ht => ?_, fun v => ?_⟩
  · rw [hroot, hdir, setWord_other _ fun heq => hd.root_dir _ (heq ▸ hj)]
    exact h.dir k hk
  · rw [hdir] at hk
    rw [htab]
    by_cases hkj : k = j
    · subst hkj
      obtain rfl : d = e := Option.some.inj (hj.symm.trans hk)
      rw [setWord_same, Function.update_self]
      exact points_new hlt
    · rw [Function.update_of_ne hkj]
      by_cases hed : e = d
      · subst hed
        have hdiv := hd.dir_inj hk hj
        rw [setWord_index _ _ (by omega)]
        exact h.tab k e hk
      · rw [setWord_other _ hed]
        exact h.tab k e hk
  · rw [htab] at ht
    by_cases hvj : v / 512 = j
    · rw [hvj, Function.update_self] at ht
      obtain rfl : pa = t := Option.some.inj ht
      rw [setWord_other _ hne, hz, if_neg not_valid_zero]
      exact h.none_of_tab (hvj ▸ hn)
    · rw [Function.update_of_ne hvj] at ht
      rw [setWord_other _ fun heq => hd.dir_tab hj (heq ▸ ht)]
      exact h.leaf v t ht
  · rw [PageTable.addTab_leaf]
    exact h.reads v

theorem Tree.setLeaf (h : Tree ram pt W) (hd : pt.Distinct) {t : Page} {w : Word} {o : Option Pte}
    (ht : pt.tab (v / 512) = some t)
    (ho : Option.Rel Reads (if Valid w then some w else none) o) :
    Tree (setWord ram t (v % 512) w) (pt.setLeaf v o)
      (Function.update W v (if Valid w then some w else none)) := by
  have hsome : pt.tab (v / 512) ≠ none := by rw [ht]; exact Option.some_ne_none t
  have hroot : (pt.setLeaf v o).root = pt.root := by unfold PageTable.setLeaf; split <;> rfl
  have hdir : (pt.setLeaf v o).dir = pt.dir := by unfold PageTable.setLeaf; split <;> rfl
  have htab : (pt.setLeaf v o).tab = pt.tab := by unfold PageTable.setLeaf; split <;> rfl
  refine ⟨fun k hk => ?_, fun k e hk => ?_, fun u t' ht' => ?_, fun u => ?_⟩
  · rw [hroot, hdir, setWord_other _ fun heq => hd.root_tab _ (heq ▸ ht)]
    exact h.dir k hk
  · rw [hdir] at hk
    rw [htab, setWord_other _ fun heq => hd.dir_tab hk (heq ▸ ht)]
    exact h.tab k e hk
  · rw [htab] at ht'
    by_cases huv : u = v
    · subst huv
      obtain rfl : t = t' := Option.some.inj (ht.symm.trans ht')
      rw [setWord_same, Function.update_self]
    · rw [Function.update_of_ne huv]
      by_cases htt : t' = t
      · subst htt
        have hdiv := hd.tab_inj ht' ht
        rw [setWord_index _ _ (by omega)]
        exact h.leaf u t' ht'
      · rw [setWord_other _ htt]
        exact h.leaf u t' ht'
  · rw [pt.setLeaf_leaf o hsome]
    by_cases huv : u = v
    · subst huv
      rw [Function.update_self, Function.update_self]
      exact ho
    · rw [Function.update_of_ne huv, Function.update_of_ne huv]
      exact h.reads u

theorem px_zero (v : Nat) : px 0 v = v % 512 := by
  unfold px
  rw [pow_zero, Nat.div_one]

theorem px_one (v : Nat) : px 1 v = v / 512 % 512 := by
  unfold px
  rw [pow_one]

theorem px_two (hv : v < maxVa) : px 2 v = v / 512 / 512 := by
  unfold px
  unfold maxVa at hv
  rw [Nat.div_div_eq_div_mul]
  omega

theorem Tree.lookup (h : Tree ram pt W) (hv : v < maxVa) : Phys.lookup ram pt.root v = W v := by
  have hi : v / 512 / 512 < 512 := by unfold maxVa at hv; omega
  have hdir := h.dir _ hi
  unfold Phys.lookup
  rw [px_two hv, px_one, px_zero]
  dsimp only
  cases hd : pt.dir (v / 512 / 512) with
  | none =>
    rw [hd] at hdir
    rw [if_neg hdir]
    exact (h.none_of_tab (pt.tab_dir _ hd)).symm
  | some d =>
    rw [hd] at hdir
    obtain ⟨hvalid, -, rfl⟩ := hdir
    rw [if_pos hvalid]
    have htab := h.tab _ _ hd
    cases ht : pt.tab (v / 512) with
    | none =>
      rw [ht] at htab
      rw [if_neg htab]
      exact (h.none_of_tab ht).symm
    | some t =>
      rw [ht] at htab
      obtain ⟨hvalid', -, rfl⟩ := htab
      rw [if_pos hvalid', h.leaf v _ ht]

end

end Phys

end OsLab
