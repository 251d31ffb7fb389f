import OsLab.FsBlocks

/-!
# Freeing the blocks of a file

`itrunc` frees every block of the inode once: `bfree` never finds the bit of its
block clear.
-/

namespace OsLab

namespace Fs

open Mach

section
variable {sb : SuperBlock} {s s' : FsState} {i j b : Nat} {p : Place}

/-! ## Writing an inode back -/

theorem inode_putDinode : (s.putDinode sb i (s.inode sb i)).inode sb j = s.inode sb j := by
  by_cases hj : j = i
  · subst hj
    rw [FsState.inode, dinode_putDinode]
    change (s.icache j).getD (s.inode sb j) = s.inode sb j
    unfold FsState.inode
    cases s.icache j <;> rfl
  · rw [FsState.inode, dinode_putDinode_ne hj]
    rfl

theorem iupdate_total (sb : SuperBlock) (s : FsState) (i : Nat) :
    Total (iupdate sb i) s fun _ s' => s' = s.putDinode sb i (s.inode sb i) := ⟨(), _, rfl, rfl⟩

theorem ptr_putDinode (hi : i < sb.ninodes) (hs : Sound sb s) :
    (s.putDinode sb i (s.inode sb i)).ptr sb = s.ptr sb := by
  funext ⟨j, p⟩
  refine ptr_congr (fun _ => inode_putDinode) fun x hx => ?_
  have := (hs.ptr_data hx).1
  have := bmapstart_lt sb
  exact putDinode_disk hi (by omega)

theorem inUse_putDinode (hi : i < sb.ninodes) {ip : Inode} :
    inUse sb (s.putDinode sb i ip) b = inUse sb s b :=
  inUse_congr (putDinode_disk hi (le_bblock ..))

theorem Sound.putDinode (hs : Sound sb s) (hi : i < sb.ninodes) :
    Sound sb (s.putDinode sb i (s.inode sb i)) :=
  hs.congr (ptr_putDinode hi hs) fun _ _ => inUse_putDinode hi

theorem content_putDinode (hs : Sound sb s) (hi : i < sb.ninodes) :
    (s.putDinode sb i (s.inode sb i)).content sb j = s.content sb j := by
  refine content_congr (fun p => by rw [ptr_putDinode hi hs]) fun p x _ hx => ?_
  have := (hs.ptr_data hx).1
  have := bmapstart_lt sb
  exact putDinode_disk hi (by omega)

def FsState.save (sb : SuperBlock) (s : FsState) (i : Nat) (ip : Inode) : FsState :=
  (s.putInode i ip).putDinode sb i ((s.putInode i ip).inode sb i)

section
variable {ip : Inode}

theorem save_inode : (s.save sb i ip).inode sb i = ip := by
  rw [FsState.save, inode_putDinode, inode_putInode]

theorem save_dinode : dinode sb (s.save sb i ip).disk i = ip := by
  rw [FsState.save, dinode_putDinode, inode_putInode]

theorem save_icache : (s.save sb i ip).icache i = some ip := Function.update_self ..

theorem ptr_putInode (hd : ip.direct = (s.inode sb i).direct)
    (hind : ip.indirect = (s.inode sb i).indirect) : (s.putInode i ip).ptr sb = s.ptr sb := by
  funext ⟨j, p⟩
  unfold FsState.ptr
  by_cases hj : j = i
  · subst hj
    dsimp only
    rw [inode_putInode]
    cases p <;> simp [blockNo, hd, hind, FsState.putInode]
  · dsimp only
    rw [inode_putInode_ne hj]
    rfl

theorem Others.save (h : Others sb i s s') (hi : i < sb.ninodes) (ip : Inode)
    (hd : ip.direct = (s'.inode sb i).direct) (hind : ip.indirect = (s'.inode sb i).indirect) :
    Others sb i s (s'.save sb i ip) ∧ (s'.save sb i ip).ptr sb = s'.ptr sb ∧
      ∀ j, (s'.save sb i ip).content sb j = s'.content sb j := by
  have hptr := ptr_putInode hd hind
  have hs : Sound sb (s'.putInode i ip) := h.sound.congr hptr fun _ _ => rfl
  have hsave : (s'.save sb i ip).ptr sb = s'.ptr sb := (ptr_putDinode hi hs).trans hptr
  have hcontent (j : Nat) : (s'.save sb i ip).content sb j = s'.content sb j :=
    (content_putDinode hs hi).trans (content_congr (fun p => congrFun hptr (j, p)) fun _ _ _ _ => rfl)
  have hlogs : Logs s' (s'.save sb i ip) := (Logs.putInode ..).trans (Logs.putBlock ..)
  refine ⟨⟨hs.putDinode hi, ?_, ?_, ?_, ?_, h.tracks.trans (hlogs.tracks_of_ptr hsave)⟩, hsave, hcontent⟩
  · exact fun j hj => (Function.update_of_ne hj ..).trans (h.icache j hj)
  · exact fun j hj hlt => (dinode_putDinode_ne hj).trans (h.dinode j hj hlt)
  · exact fun j hj p => (congrFun hsave (j, p)).trans (h.ptr j hj p)
  · exact fun j hj => (hcontent j).trans (h.other j hj)

end

/-! ## `itrunc` -/

theorem bfree_total (hb : inUse sb s b = true) : Total (bfree sb b) s fun _ s' =>
    s' = s.putBlock (bblock sb b) (clearBit (s.disk (bblock sb b)) (b % bpb)) := by
  unfold bfree
  apply Total.getThen
  apply Total.ite
  · intro hclear
    rw [inUse, hclear] at hb
    cases hb
  · intro _
    exact Total.modify rfl

def rank : Place → Nat
  | .direct k => k
  | .entry e => 12 + e
  | .indirect => 268

theorem rank_inj {p q : Place} (h : rank p = rank q) : p = q := by
  cases p <;> cases q <;> simp [rank] at h ⊢ <;> omega

theorem rank_lt (p : Place) : rank p < 269 := by
  cases p <;> simp [rank] <;> omega

/-- The state `t` of `itrunc` on the inode `i`, begun in `s`, when the blocks from the `n`-th place on
are still to be freed. -/
structure Freeing (sb : SuperBlock) (i : Nat) (s t : FsState) (n : Nat) : Prop where
  refs : Refs (fun r => if r.1 = i then none else s.ptr sb r) (used sb t)
    {b | ∃ p, n ≤ rank p ∧ s.ptr sb (i, p) = some b}
  low : ∀ b < dataStart sb, b < sb.size → inUse sb t b = true
  disk : ∀ x, x < sb.bmapstart ∨ dataStart sb ≤ x → t.disk x = s.disk x
  icache : ∀ j ≠ i, t.icache j = s.icache j
  logs : Logs s t

namespace Freeing
variable {t : FsState} {m n : Nat}

theorem start (hs : Sound sb s) : Freeing sb i s s 0 := by
  refine ⟨?_, hs.low, fun _ _ => rfl, fun _ _ => rfl, .refl s⟩
  have hcut := hs.refs.cut (fun r => r.1 = i)
  convert hcut using 3
  constructor
  · rintro ⟨p, -, hp⟩
    exact ⟨(i, p), rfl, hp⟩
  · rintro ⟨⟨j, p⟩, hj, hp⟩
    obtain rfl : j = i := hj
    exact ⟨p, Nat.zero_le _, hp⟩

theorem skip (h : Freeing sb i s t n) (hle : n ≤ m)
    (hnone : ∀ p, n ≤ rank p → rank p < m → s.ptr sb (i, p) = none) : Freeing sb i s t m := by
  refine ⟨?_, h.low, h.disk, h.icache, h.logs⟩
  convert h.refs using 3 with x
  refine exists_congr fun p => and_congr_left fun hp => ⟨fun hm => by omega, fun hn => ?_⟩
  by_contra hlt
  rw [hnone p hn (by omega)] at hp
  cases hp

theorem putInode (h : Freeing sb i s t n) (ip : Inode) : Freeing sb i s (t.putInode i ip) n :=
  ⟨h.refs, h.low, h.disk, fun j hj => (icache_putInode_ne hj).trans (h.icache j hj),
    h.logs.trans (.putInode ..)⟩

theorem bfree (hs : Sound sb s) (h : Freeing sb i s t (rank p)) (hp : s.ptr sb (i, p) = some b) :
    Total (bfree sb b) t fun _ t' => Freeing sb i s t' (rank p + 1) ∧ t'.icache = t.icache := by
  obtain ⟨hdata, hlt⟩ := hs.ptr_data hp
  have hheld := h.refs.held_used ⟨p, Nat.le_refl _, hp⟩
  apply (bfree_total hheld.2.2).mono
  rintro _ t' rfl
  refine ⟨⟨?_, ?_, ?_, h.icache, h.logs.trans (.putBlock ..)⟩, rfl⟩
  · have hfree := h.refs.free (b := b) ⟨p, Nat.le_refl _, hp⟩
    convert hfree using 1
    · ext x
      constructor
      · rintro ⟨hd, hx, huse⟩
        rw [inUse_clearBit, Bool.and_eq_true, decide_eq_true_eq] at huse
        exact ⟨⟨hd, hx, huse.1⟩, fun heq => huse.2 heq.symm⟩
      · rintro ⟨⟨hd, hx, huse⟩, hne⟩
        have hbx : b ≠ x := fun heq => hne heq.symm
        exact ⟨hd, hx, by rw [inUse_clearBit, huse]; simp [hbx]⟩
    · ext x
      constructor
      · rintro ⟨q, hq, hx⟩
        refine ⟨⟨q, by omega, hx⟩, ?_⟩
        rintro rfl
        obtain rfl : q = p := congrArg Prod.snd (hs.refs.inj hx hp)
        omega
      · rintro ⟨⟨q, hq, hx⟩, hne⟩
        refine ⟨q, Nat.lt_of_le_of_ne hq fun heq => hne ?_, hx⟩
        obtain rfl := rank_inj heq
        exact Option.some.inj (hx.symm.trans hp)
  · intro x hx hlow
    have hbx : b ≠ x := by omega
    rw [inUse_clearBit, h.low x hx hlow]
    simp [hbx]
  · intro x hx
    have hle := le_bblock sb b
    have hbb := bblock_lt hlt
    rw [putBlock_of_ne (by omega), h.disk x hx]

def cutDirect (ip : Inode) (k : Nat) : Inode :=
  { ip with direct := fun j => if j.val < k then 0 else ip.direct j }

theorem cutDirect_succ (ip : Inode) (k : Fin 12) :
    { cutDirect ip k with direct := Function.update (cutDirect ip k).direct k 0 } = cutDirect ip (k + 1) := by
  have hdirect : Function.update (cutDirect ip k).direct k 0 = (cutDirect ip (k + 1)).direct := by
    funext j
    by_cases hj : j = k
    · subst hj
      simp [cutDirect]
    · have hne : j.val ≠ k.val := fun h => hj (Fin.ext h)
      rw [Function.update_of_ne hj]
      exact if_congr (by omega) rfl rfl
  rw [hdirect]
  rfl

theorem truncDirect_total (hs : Sound sb s) (hi : i < sb.ninodes) (k : Fin 12)
    (h : Freeing sb i s t k) (hip : t.inode sb i = cutDirect (s.inode sb i) k) :
    Total (truncDirect sb i k) t fun _ t' =>
      Freeing sb i s t' (k + 1) ∧ t'.inode sb i = cutDirect (s.inode sb i) (k + 1) := by
  have hk : (t.inode sb i).direct k = (s.inode sb i).direct k := by
    rw [hip]
    simp [cutDirect]
  unfold truncDirect
  apply Total.getThen
  apply Total.ite
  · intro h0
    refine Total.pure ⟨h.skip (Nat.le_succ _) fun p hn hm => ?_, ?_⟩
    · obtain rfl : p = .direct k := rank_inj (Nat.le_antisymm (Nat.le_of_lt_succ hm) hn)
      rw [ptr_eq_none hi, blockNo, ← hk, h0]
      rfl
    · rw [← cutDirect_succ, ← hip, ← h0, Function.update_eq_self]
  · intro hne
    have hptr : s.ptr sb (i, .direct k) = some ((t.inode sb i).direct k).toNat := by
      rw [hk] at hne ⊢
      exact ptr_eq_some.mpr ⟨hi, ne_zero_of_ptr hne, rfl⟩
    apply (h.bfree (p := .direct k) hs hptr).andThen
    rintro _ t' ⟨hfree, hcache⟩
    refine Total.modify ⟨hfree.putInode _, ?_⟩
    rw [inode_putInode, hip, cutDirect_succ]

theorem truncIndirect_total (hs : Sound sb s) (hi : i < sb.ninodes) (h : Freeing sb i s t 12)
    (hip : t.inode sb i = cutDirect (s.inode sb i) 12) :
    Total (truncIndirect sb i) t fun _ t' =>
      Freeing sb i s t' 269 ∧ t'.inode sb i = { cutDirect (s.inode sb i) 12 with indirect := 0 } := by
  have hind : (t.inode sb i).indirect = (s.inode sb i).indirect := by rw [hip]; rfl
  unfold truncIndirect
  apply Total.getThen
  apply Total.ite
  · intro h0
    rw [hind] at h0
    refine Total.pure ⟨h.skip (by decide) fun p hn _ => ?_, ?_⟩
    · rw [ptr_eq_none hi]
      cases p with
      | direct j => exact absurd j.isLt (Nat.not_lt_of_le hn)
      | indirect => rw [blockNo, h0]; rfl
      | entry e => rw [blockNo, if_pos h0]
    · rw [hip, ← h0]
      rfl
  · intro hne
    have hptr : s.ptr sb (i, .indirect) = some (t.inode sb i).indirect.toNat := by
      rw [hind] at hne ⊢
      exact ptr_eq_some.mpr ⟨hi, ne_zero_of_ptr hne, rfl⟩
    have hblock : t.disk (t.inode sb i).indirect.toNat = s.disk (t.inode sb i).indirect.toNat :=
      h.disk _ (.inr (hs.ptr_data hptr).1)
    apply Total.bind
    refine Total.mono (Total.upTo (I := fun e t' => Freeing sb i s t' (12 + e) ∧
      t'.icache = t.icache) ⟨h, rfl⟩ ?_) ?_
    · rintro e he t' ⟨h', hcache⟩
      have hentry : s.ptr sb (i, .entry ⟨e, he⟩) = nonzero ((t.disk (t.inode sb i).indirect.toNat).word e).toNat := by
        rw [hblock]
        exact ptr_entry hptr ⟨e, he⟩
      apply Total.ite
      · intro h0
        rw [h0] at hentry
        refine Total.pure ⟨h'.skip (Nat.le_succ _) fun p hn hm => ?_, hcache⟩
        obtain rfl : p = .entry ⟨e, he⟩ := rank_inj (Nat.le_antisymm (Nat.le_of_lt_succ hm) hn)
        exact hentry
      · intro hw
        apply (h'.bfree (p := .entry ⟨e, he⟩) hs (hentry.trans (if_neg (ne_zero_of_ptr hw)))).mono
        rintro _ t'' ⟨hfree, hcache'⟩
        exact ⟨hfree, hcache'.trans hcache⟩
    · rintro _ t' ⟨h', hcache⟩
      apply (h'.bfree (p := .indirect) hs hptr).andThen
      rintro _ t'' ⟨hfree, hcache'⟩
      refine Total.modify ⟨hfree.putInode _, ?_⟩
      rw [inode_putInode, hip]

theorem others (hs : Sound sb s) (h : Freeing sb i s t 269)
    (hblank : ∀ p, blockNo t.disk (t.inode sb i) p = 0) :
    Others sb i s t ∧ ∀ p, t.ptr sb (i, p) = none := by
  have hnone (p : Place) : t.ptr sb (i, p) = none := by
    unfold FsState.ptr
    simp [hblank, nonzero]
  have hdinode {j : Nat} (hlt : j < sb.ninodes) : t.disk (iblock sb j) = s.disk (iblock sb j) :=
    h.disk _ (.inl (iblock_lt hlt))
  have hother (j : Nat) (hj : j ≠ i) (p : Place) : t.ptr sb (j, p) = s.ptr sb (j, p) :=
    ptr_congr (fun hlt => inode_congr (h.icache j hj) (hdinode hlt)) fun x hx =>
      h.disk x (.inr (hs.ptr_data hx).1)
  have hptr : t.ptr sb = fun r => if r.1 = i then none else s.ptr sb r := by
    funext r
    obtain ⟨j, p⟩ := r
    by_cases hj : j = i
    · subst hj
      simp [hnone]
    · simp [hj, hother j hj]
  refine ⟨⟨⟨?_, h.low⟩, h.icache, fun j _ hlt => dinode_congr (hdinode hlt), hother, fun j hj => ?_,
    h.logs.tracks fun r b hr _ => ?_⟩, hnone⟩
  · rw [hptr]
    have hheld : {b | ∃ p, 269 ≤ rank p ∧ s.ptr sb (i, p) = some b} = (∅ : Set Nat) := by
      ext x
      simp [rank_lt]
    rw [← hheld]
    exact h.refs
  · exact content_congr (hother j hj) fun p x _ hx => h.disk x (.inr (hs.ptr_data hx).1)
  · rw [hptr] at hr
    exact (Option.ite_none_left_eq_some.mp hr).2

end Freeing

structure Truncated (sb : SuperBlock) (i : Nat) (s s' : FsState) : Prop extends Others sb i s s' where
  inode : s'.inode sb i = { s.inode sb i with size := 0, direct := fun _ => 0, indirect := 0 }
  saved : Fs.dinode sb s'.disk i = s'.inode sb i
  cached : s'.icache i = some (s'.inode sb i)
  empty : ∀ p, s'.ptr sb (i, p) = none

theorem itrunc_total (hs : Sound sb s) (hi : i < sb.ninodes) :
    Total (itrunc sb i) s fun _ s' => Truncated sb i s s' := by
  unfold itrunc
  have hcut : s.inode sb i = Freeing.cutDirect (s.inode sb i) 0 := by simp [Freeing.cutDirect]
  apply Total.bind
  refine Total.mono (Total.upTo (I := fun k t => Freeing sb i s t k ∧
    t.inode sb i = Freeing.cutDirect (s.inode sb i) k) ⟨Freeing.start hs, hcut⟩ ?_) ?_
  · rintro k hk t ⟨h, hip⟩
    have hk : k < 12 := hk
    rw [dif_pos hk]
    exact Freeing.truncDirect_total hs hi ⟨k, hk⟩ h hip
  · rintro _ t₁ ⟨h₁, hip₁⟩
    apply (Freeing.truncIndirect_total hs hi h₁ hip₁).andThen
    rintro _ t₂ ⟨h₂, hip₂⟩
    apply Total.getThen
    apply Total.modifyThen
    apply (iupdate_total ..).mono
    rintro _ s' rfl
    change Truncated sb i s (t₂.save sb i { t₂.inode sb i with size := 0 })
    obtain ⟨hothers, hnone⟩ := h₂.others hs fun p => by
      rw [hip₂]
      cases p <;> simp [blockNo, Freeing.cutDirect]
    obtain ⟨hsave, hptr, -⟩ := hothers.save hi { t₂.inode sb i with size := 0 } rfl rfl
    constructor
    case toOthers => exact hsave
    case inode =>
      rw [save_inode, hip₂]
      simp [Freeing.cutDirect]
    case saved => rw [save_dinode, save_inode]
    case cached => rw [save_icache, save_inode]
    case empty => exact fun p => by rw [hptr, hnone]

end

end Fs

end OsLab
