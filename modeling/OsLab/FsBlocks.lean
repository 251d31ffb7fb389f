import OsLab.FsDisk

/-!
# Who owns the blocks

Every data block that is marked in the bitmap has one place of one inode that
points to it. `balloc` hands out blocks that no inode points to, and `bmap` links
them, so that no two files share a block.
-/

namespace OsLab

namespace Fs

open Mach

/-- The bitmap marks the blocks that the inodes point to, each once, and the blocks before the data. -/
structure Sound (sb : SuperBlock) (s : FsState) : Prop where
  refs : Refs (s.ptr sb) (used sb s) ∅
  low : ∀ b < dataStart sb, b < sb.size → inUse sb s b = true

section
variable {sb : SuperBlock} {s s' s₁ s₂ : FsState} {i j b bn x : Nat} {p : Place}

theorem dataStart_pos (sb : SuperBlock) : 0 < dataStart sb :=
  Nat.lt_of_le_of_lt (Nat.zero_le _) (bmapstart_lt sb)

theorem Sound.ptr_data (h : Sound sb s) (hp : s.ptr sb (j, p) = some x) : dataStart sb ≤ x ∧ x < sb.size :=
  ⟨(h.refs.ref_used hp).1, (h.refs.ref_used hp).2.1⟩

theorem used_congr (h : ∀ x < sb.size, inUse sb s' x = inUse sb s x) : used sb s' = used sb s := by
  ext x
  constructor
  · rintro ⟨hd, hlt, hx⟩
    exact ⟨hd, hlt, (h x hlt).symm.trans hx⟩
  · rintro ⟨hd, hlt, hx⟩
    exact ⟨hd, hlt, (h x hlt).trans hx⟩

theorem Sound.congr (hs : Sound sb s) (hptr : s'.ptr sb = s.ptr sb)
    (huse : ∀ x < sb.size, inUse sb s' x = inUse sb s x) : Sound sb s' where
  refs := by
    rw [hptr, used_congr huse]
    exact hs.refs
  low x hx hlt := (huse x hlt).trans (hs.low x hx hlt)

/-! ## Allocation -/

theorem findFree_some {disk : Disk} (h : findFree sb disk = some b) :
    b < sb.size ∧ bit (disk (bblock sb b)) (b % bpb) = false := by
  obtain ⟨k, -, hk⟩ := List.exists_of_findSome?_eq_some h
  obtain ⟨bi, hbi, hb⟩ := List.exists_of_findSome?_eq_some hk
  obtain ⟨⟨hlt, hbit⟩, heq⟩ := Option.ite_none_right_eq_some.mp hb
  obtain rfl := Option.some.inj heq
  have hbi : bi < bpb := List.mem_range.mp hbi
  have hmod : (k * bpb + bi) % bpb = bi := by
    rw [bpb] at *
    omega
  have hblock : bblock sb (k * bpb + bi) = bblock sb (k * bpb) := by
    rw [bblock, bblock, bpb] at *
    omega
  rw [hmod, hblock]
  exact ⟨hlt, hbit⟩

theorem findFree_none {disk : Disk} (h : findFree sb disk = none) (hx : x < sb.size) :
    bit (disk (bblock sb x)) (x % bpb) = true := by
  have hk := List.findSome?_eq_none_iff.mp h (x / bpb) (List.mem_range.mpr (by rw [bpb] at *; omega))
  have hbi := List.findSome?_eq_none_iff.mp hk (x % bpb) (List.mem_range.mpr (Nat.mod_lt _ (by decide)))
  by_contra hbit
  rw [if_pos] at hbi
  · cases hbi
  · have hsum : x / bpb * bpb + x % bpb = x := Nat.div_add_mod' ..
    have hblock : bblock sb (x / bpb * bpb) = bblock sb x := by
      rw [bblock, bblock, bpb] at *
      omega
    rw [hsum, hblock]
    exact ⟨hx, by simpa using hbit⟩

/-! ## What is logged -/

structure Logs (s s' : FsState) : Prop where
  saved : s'.saved = s.saved
  logged : s.logged ⊆ s'.logged
  disk : ∀ x ∉ s'.logged, s'.disk x = s.disk x

theorem Logs.refl (s : FsState) : Logs s s := ⟨rfl, fun _ h => h, fun _ _ => rfl⟩

theorem Logs.trans (h : Logs s s₁) (h' : Logs s₁ s₂) : Logs s s₂ where
  saved := h'.saved.trans h.saved
  logged := h.logged.trans h'.logged
  disk x hx := (h'.disk x hx).trans (h.disk x fun hin => hx (h'.logged hin))

theorem Logs.putBlock (s : FsState) (b : Nat) (d : Block) : Logs s (s.putBlock b d) where
  saved := rfl
  logged := Finset.subset_insert b s.logged
  disk _ hx := putBlock_of_ne fun heq => hx (heq ▸ Finset.mem_insert_self b s.logged)

theorem Logs.putInode (s : FsState) (i : Nat) (ip : Inode) : Logs s (s.putInode i ip) :=
  ⟨rfl, fun _ h => h, fun _ _ => rfl⟩

theorem Logs.forget (s : FsState) (i : Nat) : Logs s (s.forget i) := ⟨rfl, fun _ h => h, fun _ _ => rfl⟩

/-- No block was changed without being logged, except for data blocks of files; and what the inodes have
come to point to was logged. -/
structure Tracks (sb : SuperBlock) (s s' : FsState) : Prop where
  saved : s'.saved = s.saved
  logged : s.logged ⊆ s'.logged
  ptr : ∀ r b, s'.ptr sb r = some b → b ∉ s'.logged → s.ptr sb r = some b
  disk : ∀ b ∉ s'.logged, b < dataStart sb ∨ (∃ j, s'.ptr sb (j, .indirect) = some b) → s'.disk b = s.disk b

theorem Logs.tracks (h : Logs s s')
    (hptr : ∀ r b, s'.ptr sb r = some b → b ∉ s'.logged → s.ptr sb r = some b) : Tracks sb s s' :=
  ⟨h.saved, h.logged, hptr, fun b hb _ => h.disk b hb⟩

theorem Logs.tracks_of_ptr (h : Logs s s') (hptr : s'.ptr sb = s.ptr sb) : Tracks sb s s' :=
  h.tracks fun r b hr _ => by rw [← hptr, hr]

theorem Tracks.trans (h : Tracks sb s s₁) (h' : Tracks sb s₁ s₂) : Tracks sb s s₂ where
  saved := h'.saved.trans h.saved
  logged := h.logged.trans h'.logged
  ptr r b hr hb := h.ptr r b (h'.ptr r b hr hb) fun hin => hb (h'.logged hin)
  disk b hb hmeta := by
    have hb₁ : b ∉ s₁.logged := fun hin => hb (h'.logged hin)
    have hmeta₁ : b < dataStart sb ∨ ∃ j, s₁.ptr sb (j, .indirect) = some b :=
      hmeta.imp_right fun ⟨j, hj⟩ => ⟨j, h'.ptr _ b hj hb⟩
    exact (h'.disk b hb hmeta).trans (h.disk b hb₁ hmeta₁)

/-! ## Allocation of a block -/

structure Fresh (sb : SuperBlock) (s : FsState) (b : Nat) (s' : FsState) : Prop where
  data : dataStart sb ≤ b
  lt : b < sb.size
  free : b ∉ used sb s
  inUse : ∀ x < sb.size, inUse sb s' x = (inUse sb s x || decide (b = x))
  icache : s'.icache = s.icache
  zero : s'.disk b = fun _ => 0
  logs : Logs s s'
  new : b ∈ s'.logged
  disk : ∀ x, x ≠ b → x < sb.bmapstart ∨ dataStart sb ≤ x → s'.disk x = s.disk x

theorem balloc_total (h : Sound sb s) :
    Total (balloc sb) s fun b s' =>
      (b = 0 ∧ s' = s ∧ ∀ x < sb.size, inUse sb s x = true) ∨ b ≠ 0 ∧ Fresh sb s b s' := by
  unfold balloc
  apply Total.getThen
  split
  · rename_i b hb
    obtain ⟨hlt, hbit⟩ := findFree_some hb
    have hdata : dataStart sb ≤ b := by
      by_contra hlow
      have := h.low b (by omega) hlt
      rw [inUse, hbit] at this
      cases this
    have hpos : b ≠ 0 := by
      have := dataStart_pos sb
      omega
    apply Total.modifyThen
    apply Total.modifyThen
    refine Total.pure (.inr ⟨hpos, hdata, hlt, ?_, ?_, rfl, ?_, (Logs.putBlock ..).trans (Logs.putBlock ..),
      Finset.mem_insert_self .., ?_⟩)
    · rintro ⟨-, -, huse⟩
      rw [inUse, hbit] at huse
      cases huse
    · intro x hx
      rw [inUse_putBlock hx hdata, inUse_setBit]
    · rw [putBlock_disk, if_pos rfl]
    · intro x hxb hx
      have hle := le_bblock sb b
      have hbb := bblock_lt hlt
      rw [putBlock_of_ne hxb, putBlock_of_ne (by omega)]
  · exact Total.pure (.inl ⟨rfl, rfl, fun x hx => findFree_none ‹_› hx⟩)

namespace Fresh

theorem pos (h : Fresh sb s b s') : b ≠ 0 := by
  have := h.data
  have := dataStart_pos sb
  omega

theorem toNat (h : Fresh sb s b s') : (BitVec.ofNat 32 b).toNat = b := by
  have := h.lt
  have := sb.size_lt
  rw [BitVec.toNat_ofNat, Nat.mod_eq_of_lt (by omega)]

theorem ne_ptr (h : Fresh sb s b s') (hs : Sound sb s) (hx : s.ptr sb (j, p) = some x) : x ≠ b := by
  rintro rfl
  exact h.free (hs.refs.ref_used hx)

theorem keeps (h : Fresh sb s b s') (hs : Sound sb s) (hx : s.ptr sb (j, p) = some x) :
    s'.disk x = s.disk x :=
  h.disk x (h.ne_ptr hs hx) (.inr (hs.ptr_data hx).1)

theorem inode (h : Fresh sb s b s') (hj : j < sb.ninodes) : s'.inode sb j = s.inode sb j := by
  have hlt := iblock_lt hj
  have hdata := h.data
  have := bmapstart_lt sb
  exact inode_congr (congrFun h.icache j) (h.disk _ (by omega) (.inl hlt))

theorem ptr (h : Fresh sb s b s') (hs : Sound sb s) : s'.ptr sb = s.ptr sb := by
  funext r
  exact ptr_congr h.inode fun x hx => h.keeps hs hx

theorem used (h : Fresh sb s b s') : used sb s' = insert b (used sb s) := by
  ext x
  constructor
  · rintro ⟨hd, hlt, huse⟩
    rw [h.inUse x hlt, Bool.or_eq_true, decide_eq_true_eq] at huse
    obtain huse | rfl := huse
    · exact .inr ⟨hd, hlt, huse⟩
    · exact .inl rfl
  · rintro (rfl | ⟨hd, hlt, huse⟩)
    · exact ⟨h.data, h.lt, by rw [h.inUse x h.lt]; simp⟩
    · exact ⟨hd, hlt, by rw [h.inUse x hlt, huse]; rfl⟩

end Fresh

/-! ## What an allocation keeps -/

def Inode.attrs (ip : Inode) : BitVec 16 × BitVec 16 × BitVec 16 × BitVec 16 × BitVec 32 :=
  (ip.type, ip.major, ip.minor, ip.nlink, ip.size)

structure Others (sb : SuperBlock) (i : Nat) (s s' : FsState) : Prop where
  sound : Sound sb s'
  icache : ∀ j ≠ i, s'.icache j = s.icache j
  dinode : ∀ j ≠ i, j < sb.ninodes → dinode sb s'.disk j = dinode sb s.disk j
  ptr : ∀ j ≠ i, ∀ p, s'.ptr sb (j, p) = s.ptr sb (j, p)
  other : ∀ j ≠ i, s'.content sb j = s.content sb j
  tracks : Tracks sb s s'

theorem Others.refl (h : Sound sb s) : Others sb i s s :=
  ⟨h, fun _ _ => rfl, fun _ _ _ => rfl, fun _ _ _ => rfl, fun _ _ => rfl, (Logs.refl s).tracks_of_ptr rfl⟩

theorem Others.trans (h : Others sb i s s₁) (h' : Others sb i s₁ s₂) : Others sb i s s₂ where
  sound := h'.sound
  icache j hj := (h'.icache j hj).trans (h.icache j hj)
  dinode j hj hlt := (h'.dinode j hj hlt).trans (h.dinode j hj hlt)
  ptr j hj p := (h'.ptr j hj p).trans (h.ptr j hj p)
  other j hj := (h'.other j hj).trans (h.other j hj)
  tracks := h.tracks.trans h'.tracks

structure Kept (sb : SuperBlock) (i : Nat) (s s' : FsState) : Prop extends Others sb i s s' where
  attrs : (s'.inode sb i).attrs = (s.inode sb i).attrs
  own : ∀ k v, s.content sb i k = some v → s'.content sb i k = some v

namespace Kept

theorem refl (h : Sound sb s) : Kept sb i s s := ⟨.refl h, rfl, fun _ _ hv => hv⟩

theorem trans (h : Kept sb i s s₁) (h' : Kept sb i s₁ s₂) : Kept sb i s s₂ where
  toOthers := h.toOthers.trans h'.toOthers
  attrs := h'.attrs.trans h.attrs
  own k v hv := h'.own k v (h.own k v hv)

theorem link (hs : Sound sb s) (hf : Fresh sb s b s₁) (hlogs : Logs s₁ s₂) (hr : s.ptr sb (i, p) = none)
    (hptr : s₂.ptr sb = Function.update (s.ptr sb) (i, p) (some b))
    (huse : ∀ x < sb.size, inUse sb s₂ x = inUse sb s₁ x)
    (hdata : ∀ j q x, q ≠ .indirect → s.ptr sb (j, q) = some x → s₂.disk x = s₁.disk x)
    (hlow : ∀ x < sb.bmapstart, s₂.disk x = s₁.disk x)
    (hcache : ∀ j ≠ i, s₂.icache j = s₁.icache j)
    (hattrs : (s₂.inode sb i).attrs = (s.inode sb i).attrs) : Kept sb i s s₂ := by
  have hused : used sb s₂ = insert b (used sb s) := (used_congr huse).trans hf.used
  have keeps {j : Nat} {q : Place} {x : Nat} (hq : q ≠ .indirect) (hx : s.ptr sb (j, q) = some x) :
      s₂.disk x = s.disk x := (hdata j q x hq hx).trans (hf.keeps hs hx)
  have hothers (j : Nat) (hj : j ≠ i) (q : Place) : s₂.ptr sb (j, q) = s.ptr sb (j, q) := by
    rw [hptr, Function.update_of_ne]
    intro heq
    exact hj (congrArg Prod.fst heq)
  refine ⟨?_, hattrs, ?_⟩
  · constructor
    case sound =>
      constructor
      · rw [hptr, hused]
        exact hs.refs.link hf.free hr
      · intro x hx hlt
        rw [huse x hlt, hf.inUse x hlt, hs.low x hx hlt]
        rfl
    case icache => exact fun j hj => (hcache j hj).trans (congrFun hf.icache j)
    case dinode =>
      intro j _ hj
      have hlt := iblock_lt hj
      have := hf.data
      have := bmapstart_lt sb
      exact dinode_congr ((hlow _ hlt).trans (hf.disk _ (by omega) (.inl hlt)))
    case ptr => exact hothers
    case other => exact fun j hj => content_congr (hothers j hj) fun q x => keeps
    case tracks =>
      refine (hf.logs.trans hlogs).tracks fun r x hx hn => ?_
      rw [hptr] at hx
      by_cases hrp : r = (i, p)
      · rw [hrp, Function.update_self] at hx
        exact absurd (hlogs.logged (Option.some.inj hx ▸ hf.new)) hn
      · rwa [Function.update_of_ne hrp] at hx
  · intro k v hv
    obtain ⟨hk, x, hx, hbyte⟩ := content_eq_some.mp hv
    have hne : (i, place (k / bsize)) ≠ (i, p) := by
      intro heq
      rw [heq, hr] at hx
      cases hx
    refine content_eq_some.mpr ⟨hk, x, ?_, ?_⟩
    · rw [hptr, Function.update_of_ne hne, hx]
    · rw [keeps (place_ne_indirect _) hx, hbyte]

end Kept

/-! ## `bmap` -/

theorem ptr_update (hi : i < sb.ninodes) (hother : ∀ j ≠ i, ∀ q, s'.ptr sb (j, q) = s.ptr sb (j, q))
    (hrest : ∀ q ≠ p, blockNo s'.disk (s'.inode sb i) q = blockNo s.disk (s.inode sb i) q)
    (hp : blockNo s'.disk (s'.inode sb i) p = b) (hb : b ≠ 0) :
    s'.ptr sb = Function.update (s.ptr sb) (i, p) (some b) := by
  funext r
  obtain ⟨j, q⟩ := r
  by_cases hj : j = i
  · subst hj
    by_cases hq : q = p
    · subst hq
      rw [Function.update_self, ptr_eq hi, nonzero_eq_some]
      exact ⟨hb, hp⟩
    · rw [Function.update_of_ne (by simpa using hq), ptr_eq hi, ptr_eq hi, hrest q hq]
  · rw [Function.update_of_ne fun heq => hj (congrArg Prod.fst heq), hother j hj]

theorem indirect_ne_zero (h : s.ptr sb (i, .indirect) = some x) :
    (s.inode sb i).indirect ≠ 0#32 ∧ (s.inode sb i).indirect.toNat = x := by
  obtain ⟨-, hx0, hno⟩ := ptr_eq_some.mp h
  have hno : (s.inode sb i).indirect.toNat = x := hno
  refine ⟨fun h0 => ?_, hno⟩
  rw [h0] at hno
  exact hx0 hno.symm

theorem ptr_putEntry (hi : i < sb.ninodes) (hind : s.ptr sb (i, .indirect) = some x)
    (hdata : dataStart sb ≤ x) (honly : ∀ j, s.ptr sb (j, .indirect) = some x → j = i)
    (e : Fin 256) {v : BitVec 32} (hv : v.toNat = b) (hb : b ≠ 0) :
    (s.putBlock x ((s.disk x).setWord e v)).ptr sb =
      Function.update (s.ptr sb) (i, .entry e) (some b) := by
  have hnode {j : Nat} (hj : j < sb.ninodes) :
      (s.putBlock x ((s.disk x).setWord e v)).inode sb j = s.inode sb j :=
    inode_putBlock hj (Nat.le_trans (Nat.le_of_lt (bmapstart_lt sb)) hdata)
  obtain ⟨hne, hno⟩ := indirect_ne_zero hind
  refine ptr_update hi (fun j hj q => ptr_congr hnode fun y hy => putBlock_of_ne ?_) (fun q hq => ?_) ?_ hb
  · rintro rfl
    exact hj (honly j hy)
  · rw [hnode hi]
    cases q with
    | direct k => rfl
    | indirect => rfl
    | entry e' =>
      have he : e' ≠ e := fun heq => hq (congrArg Place.entry heq)
      have hword : ((s.disk x).setWord e v).word e' = (s.disk x).word e' :=
        Block.word_setWord_ne (fun h => he (Fin.ext h))
      simp [blockNo, hno, putBlock_disk, hword]
  · rw [hnode hi]
    simp [blockNo, hne, hno, putBlock_disk, Block.word_setWord_self, hv]

/-- What `bmap` returns: the block at the place `p`, which is allocated if there is none, or `0` if
the disk is full. -/
structure Mapped (sb : SuperBlock) (i : Nat) (p : Place) (s : FsState) (a : Nat) (s' : FsState) : Prop where
  kept : Kept sb i s s'
  found : a ≠ 0 → s'.ptr sb (i, p) = some a
  full : a = 0 → ∀ x < sb.size, inUse sb s' x = true
  same : s.ptr sb (i, p) ≠ none → s' = s ∧ a ≠ 0

theorem Mapped.there (hs : Sound sb s) (h : s.ptr sb (i, p) = some x) : Mapped sb i p s x s :=
  ⟨.refl hs, fun _ => h, fun h0 => absurd h0 (ptr_eq_some.mp h).2.1,
    fun _ => ⟨rfl, (ptr_eq_some.mp h).2.1⟩⟩

theorem Mapped.outOfBlocks (hs : Sound sb s) (h : s.ptr sb (i, p) = none)
    (hfull : ∀ x < sb.size, inUse sb s x = true) : Mapped sb i p s 0 s :=
  ⟨.refl hs, fun h0 => absurd rfl h0, fun _ => hfull, fun hn => absurd h hn⟩

theorem Mapped.fresh {ip : Inode} (hs : Sound sb s) (hi : i < sb.ninodes) (hf : Fresh sb s b s₁)
    (hnone : s.ptr sb (i, p) = none) (hattrs : ip.attrs = (s.inode sb i).attrs)
    (hp : blockNo s₁.disk ip p = (BitVec.ofNat 32 b).toNat)
    (hrest : ∀ q ≠ p, blockNo s₁.disk ip q = blockNo s₁.disk (s.inode sb i) q) :
    Mapped sb i p s b (s₁.putInode i ip) := by
  have hptr : (s₁.putInode i ip).ptr sb = Function.update (s.ptr sb) (i, p) (some b) := by
    rw [← hf.ptr hs]
    refine ptr_update hi (fun j hj q => ?_) (fun q hq => ?_) ?_ hf.pos
    · exact ptr_congr (fun _ => inode_putInode_ne hj) fun _ _ => rfl
    · rw [inode_putInode, hf.inode hi]
      exact hrest q hq
    · rw [inode_putInode]
      exact hp.trans hf.toNat
  refine ⟨?_, fun _ => by rw [hptr, Function.update_self], fun h => absurd h hf.pos, fun h => absurd hnone h⟩
  refine .link hs hf (.putInode ..) hnone hptr (fun _ _ => rfl) (fun _ _ _ _ _ => rfl) (fun _ _ => rfl)
    (fun j hj => Function.update_of_ne hj ..) ?_
  rw [inode_putInode, hattrs]

theorem ne_zero_of_ptr {w : BitVec 32} (h : w ≠ 0) : w.toNat ≠ 0 := by
  simpa [BitVec.toNat_eq] using h

theorem bmapDirect_total (hs : Sound sb s) (hi : i < sb.ninodes) (k : Fin 12) :
    Total (bmapDirect sb i k) s (Mapped sb i (.direct k) s) := by
  unfold bmapDirect
  apply Total.getThen
  apply Total.ite
  · intro h0
    have hnone : s.ptr sb (i, .direct k) = none := (ptr_eq_none hi).mpr (by rw [blockNo, h0]; rfl)
    apply (balloc_total hs).andThen
    rintro b s₁ (⟨rfl, rfl, hfull⟩ | ⟨hb0, hf⟩)
    · exact Total.pure (.outOfBlocks hs hnone hfull)
    · rw [if_neg hb0]
      apply Total.modifyThen
      refine Total.pure (.fresh hs hi hf hnone rfl (by simp [blockNo]) fun q hq => ?_)
      cases q with
      | direct k' =>
        have hk : k' ≠ k := fun heq => hq (congrArg Place.direct heq)
        simp [blockNo, hk]
      | indirect => rfl
      | entry e => rfl
  · intro hne
    exact Total.pure (.there hs (ptr_eq_some (p := .direct k) |>.mpr ⟨hi, ne_zero_of_ptr hne, rfl⟩))

theorem loadIndirect_total (hs : Sound sb s) (hi : i < sb.ninodes) :
    Total (loadIndirect sb i) s (Mapped sb i .indirect s) := by
  unfold loadIndirect
  apply Total.getThen
  apply Total.ite
  · intro h0
    have hnone : s.ptr sb (i, .indirect) = none := (ptr_eq_none hi).mpr (by rw [blockNo, h0]; rfl)
    apply (balloc_total hs).andThen
    rintro b s₁ (⟨rfl, rfl, hfull⟩ | ⟨hb0, hf⟩)
    · exact Total.pure (.outOfBlocks hs hnone hfull)
    · rw [if_neg hb0]
      apply Total.modifyThen
      refine Total.pure (.fresh hs hi hf hnone rfl rfl fun q hq => ?_)
      cases q with
      | direct k => rfl
      | indirect => exact absurd rfl hq
      | entry e =>
        -- the new indirect block is all zeros
        have hword : ((s₁.disk (BitVec.ofNat 32 b).toNat).word e).toNat = 0 := by
          rw [hf.toNat, hf.zero]
          rfl
        simp only [blockNo, h0, hword, ite_self]
        rfl
  · intro hne
    exact Total.pure (.there hs (ptr_eq_some (p := .indirect) |>.mpr ⟨hi, ne_zero_of_ptr hne, rfl⟩))

theorem ptr_entry (hind : s.ptr sb (i, .indirect) = some x) (e : Fin 256) :
    s.ptr sb (i, .entry e) = nonzero ((s.disk x).word e).toNat := by
  obtain ⟨hne, hno⟩ := indirect_ne_zero hind
  rw [ptr_eq (ptr_eq_some.mp hind).1]
  simp [blockNo, hne, hno]

theorem indirect_of_entry {e : Fin 256} (h : s.ptr sb (i, .entry e) ≠ none) :
    s.ptr sb (i, .indirect) ≠ none := by
  obtain ⟨y, hy⟩ := Option.ne_none_iff_exists'.mp h
  obtain ⟨hi, hy0, hno⟩ := ptr_eq_some.mp hy
  intro hnone
  have h0 : (s.inode sb i).indirect.toNat = 0 := (ptr_eq_none hi).mp hnone
  have h0 : (s.inode sb i).indirect = 0#32 := BitVec.eq_of_toNat_eq h0
  simp [blockNo, h0] at hno
  exact hy0 hno.symm

theorem bmapIndirect_total (hs : Sound sb s) (hi : i < sb.ninodes) (e : Fin 256) :
    Total (bmapIndirect sb i e) s (Mapped sb i (.entry e) s) := by
  unfold bmapIndirect
  apply (loadIndirect_total hs hi).andThen
  intro x s₁ hm
  have hs₁ := hm.kept.sound
  have hsame : s.ptr sb (i, .entry e) ≠ none → s₁ = s ∧ x ≠ 0 := fun h => hm.same (indirect_of_entry h)
  apply Total.ite
  · intro h0
    exact Total.pure ⟨hm.kept, fun h => absurd rfl h, fun _ => hm.full h0, fun h => absurd h0 (hsame h).2⟩
  · intro hx0
    have hind := hm.found hx0
    apply Total.getThen
    apply Total.ite
    · intro h0
      have hnone : s₁.ptr sb (i, .entry e) = none := by rw [ptr_entry hind, h0]; rfl
      have hnew : s.ptr sb (i, .entry e) = none := by
        by_contra hne
        rw [(hsame hne).1] at hnone
        exact hne hnone
      apply (balloc_total hs₁).andThen
      rintro b s₂ (⟨rfl, rfl, hfull⟩ | ⟨hb0, hf⟩)
      · exact Total.pure ⟨hm.kept, fun h => absurd rfl h, fun _ => hfull, fun h => absurd hnew h⟩
      · rw [if_neg hb0]
        apply Total.modifyThen
        apply Total.pure
        have hdata := (hs₁.ptr_data hind).1
        have hind₂ : s₂.ptr sb (i, .indirect) = some x := by rw [hf.ptr hs₁, hind]
        have honly : ∀ j, s₂.ptr sb (j, .indirect) = some x → j = i := by
          intro j hj
          rw [hf.ptr hs₁] at hj
          exact congrArg Prod.fst (hs₁.refs.inj hj hind)
        have hptr : (s₂.putBlock x ((s₁.disk x).setWord e (.ofNat 32 b))).ptr sb =
            Function.update (s₁.ptr sb) (i, .entry e) (some b) := by
          rw [← hf.keeps hs₁ hind, ptr_putEntry hi hind₂ hdata honly e hf.toNat hb0, hf.ptr hs₁]
        refine ⟨hm.kept.trans ?_, fun _ => by rw [hptr, Function.update_self], fun h => absurd h hb0,
          fun h => absurd hnew h⟩
        have := bmapstart_lt sb
        refine .link hs₁ hf (.putBlock ..) hnone hptr (fun y hy => inUse_putBlock hy hdata) (fun j q y hq hy => ?_)
          (fun y hy => putBlock_of_ne (by omega)) (fun _ _ => rfl) ?_
        · apply putBlock_of_ne
          rintro rfl
          exact hq (congrArg Prod.snd (hs₁.refs.inj hy hind))
        · rw [inode_putBlock hi (by omega), hf.inode hi]
    · intro hne
      refine Total.pure ⟨hm.kept, fun _ => ?_, fun h => absurd h (ne_zero_of_ptr hne),
        fun h => ⟨(hsame h).1, ne_zero_of_ptr hne⟩⟩
      rw [ptr_entry hind]
      exact if_neg (ne_zero_of_ptr hne)

theorem bmap_total (hs : Sound sb s) (hi : i < sb.ninodes) (hbn : bn < maxFile) :
    Total (bmap sb i bn) s (Mapped sb i (place bn) s) := by
  unfold bmap place
  unfold maxFile at hbn
  by_cases h : bn < 12
  · rw [dif_pos h, dif_pos h]
    exact bmapDirect_total hs hi ⟨bn, h⟩
  · have hlt : bn - ndirect < nindirect := by rw [ndirect] at *; omega
    have hmod : (bn - ndirect) % 256 = bn - ndirect := Nat.mod_eq_of_lt hlt
    rw [dif_neg h, dif_neg h, if_pos hlt]
    have htotal := bmapIndirect_total hs hi ⟨(bn - ndirect) % 256, Nat.mod_lt _ (by decide)⟩
    simpa only [hmod] using htotal

end

end Fs

end OsLab
