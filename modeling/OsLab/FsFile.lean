import OsLab.FsBlocks

/-!
# Reading and writing files

The loop of `writei` goes over the blocks of a file. It may stop early, at a full
disk or at a fault of `either_copyin`; a fault can leave bytes behind that it
neither counts nor logs.
-/

namespace OsLab

namespace Fs

open Mach

section
variable {sb : SuperBlock} {s s' s₀ s₁ : FsState} {i j a b bn x m n off tot e : Nat}
  {src : Nat → Option Byte} {d : Block}

theorem bsize_pos : 0 < bsize := by decide

/-! ## Copying -/

theorem readable_le (src : Nat → Option Byte) (tot m : Nat) : readable src tot m ≤ m := by
  induction m generalizing tot with
  | zero => exact Nat.le_refl 0
  | succ m ih =>
    unfold readable
    split
    · exact Nat.succ_le_succ (ih _)
    · exact Nat.zero_le _

theorem readable_some {k : Nat} (h : k < readable src tot m) : ∃ v, src (tot + k) = some v := by
  induction m generalizing tot k with
  | zero => cases h
  | succ m ih =>
    unfold readable at h
    split at h
    · rename_i hv
      cases k with
      | zero => exact Option.isSome_iff_exists.mp hv
      | succ k =>
        rw [show tot + (k + 1) = tot + 1 + k by omega]
        exact ih (by omega)
    · cases h

theorem readable_fault (h : readable src tot m ≠ m) : src (tot + readable src tot m) = none := by
  induction m generalizing tot with
  | zero => exact absurd rfl h
  | succ m ih =>
    unfold readable at h ⊢
    split
    · rename_i hv
      rw [if_pos hv] at h
      rw [show tot + (readable src (tot + 1) m + 1) = tot + 1 + readable src (tot + 1) m by omega]
      exact ih (by omega)
    · exact Option.not_isSome_iff_eq_none.mp ‹_›

/-! ## Writing a block of a file -/

structure Changed (s : FsState) (a : Nat) (d : Block) (s' : FsState) : Prop where
  disk : s'.disk = Function.update s.disk a d
  icache : s'.icache = s.icache
  saved : s'.saved = s.saved
  logged : s.logged ⊆ s'.logged

theorem Changed.putBlock : Changed s a d (s.putBlock a d) := ⟨rfl, rfl, rfl, Finset.subset_insert ..⟩

theorem Changed.putBuf : Changed s a d (s.putBuf a d) := ⟨rfl, rfl, rfl, fun _ h => h⟩

theorem Changed.data (h : Changed s a d s') (hs : Sound sb s) (hbn : bn < maxFile)
    (ha : s.ptr sb (i, place bn) = some a) :
    Others sb i s s' ∧ s'.inode sb i = s.inode sb i ∧
      ∀ k, s'.content sb i k = if k / bsize = bn then some (d (k % bsize)) else s.content sb i k := by
  have hi := (ptr_eq_some.mp ha).1
  have hdata := (hs.ptr_data ha).1
  have hlt := bmapstart_lt sb
  have hne {x : Nat} (hx : x ≠ a) : s'.disk x = s.disk x := by rw [h.disk, Function.update_of_ne hx]
  have hnode {j : Nat} (hj : j < sb.ninodes) : s'.inode sb j = s.inode sb j := by
    have := iblock_lt hj
    exact inode_congr (congrFun h.icache j) (hne (by omega))
  have hind {j x : Nat} (hx : s.ptr sb (j, .indirect) = some x) : x ≠ a := by
    rintro rfl
    exact place_ne_indirect bn (congrArg Prod.snd (hs.refs.inj ha hx))
  have hptr (j : Nat) (p : Place) : s'.ptr sb (j, p) = s.ptr sb (j, p) :=
    ptr_congr hnode fun x hx => hne (hind hx)
  refine ⟨⟨?_, fun j _ => congrFun h.icache j, fun j _ hj => ?_, fun j _ => hptr j, ?_,
    h.saved, h.logged, fun r x hr _ => (hptr r.1 r.2).symm.trans hr, fun x _ hx => hne ?_⟩, hnode hi, ?_⟩
  · exact hs.congr (funext fun r => hptr r.1 r.2) fun x hx => inUse_congr (hne (bblock_ne hx hdata))
  · have := iblock_lt hj
    exact dinode_congr (hne (by omega))
  · intro j hj
    refine content_congr (hptr j) fun p x _ hx => hne ?_
    rintro rfl
    exact hj (congrArg Prod.fst (hs.refs.inj hx ha))
  · obtain hx | ⟨j, hj⟩ := hx
    · omega
    · rw [hptr] at hj
      exact hind hj
  · intro k
    split
    · rename_i hk
      refine content_eq_some.mpr ⟨by omega, a, ?_, ?_⟩
      · rw [hptr, hk, ha]
      · rw [h.disk, Function.update_self]
    · rename_i hk
      rw [FsState.content, FsState.content, hptr]
      split
      · rename_i hlt
        cases hx : s.ptr sb (i, place (k / bsize)) with
        | none => rfl
        | some x =>
          have hxa : x ≠ a := by
            rintro rfl
            exact hk (place_inj hlt hbn (congrArg Prod.snd (hs.refs.inj hx ha)))
          rw [Option.map_some, Option.map_some, hne hxa]
      · rfl

structure Wrote (sb : SuperBlock) (i off : Nat) (src : Nat → Option Byte) (e : Nat) (s s' : FsState) : Prop
    extends Others sb i s s' where
  attrs : (s'.inode sb i).attrs = (s.inode sb i).attrs
  new : ∀ k < e, ∃ v, src k = some v ∧ s'.content sb i (off + k) = some v
  old : ∀ k v, k < off ∨ off + e ≤ k → s.content sb i k = some v → s'.content sb i k = some v

namespace Wrote

theorem refl (hs : Sound sb s) : Wrote sb i off src 0 s s where
  toOthers := .refl hs
  attrs := rfl
  new k hk := absurd hk (Nat.not_lt_zero k)
  old _ _ _ hv := hv

theorem kept (h : Wrote sb i off src e s₀ s) (hk : Kept sb i s s') : Wrote sb i off src e s₀ s' where
  toOthers := h.toOthers.trans hk.toOthers
  attrs := hk.attrs.trans h.attrs
  new k hlt := by
    obtain ⟨v, hv, hc⟩ := h.new k hlt
    exact ⟨v, hv, hk.own _ v hc⟩
  old k v ho hv := hk.own k v (h.old k v ho hv)

theorem chunk (h : Wrote sb i off src tot s₀ s) (hbn : (off + tot) / bsize < maxFile)
    (ha : s.ptr sb (i, place ((off + tot) / bsize)) = some a) (hm : m ≤ bsize - (off + tot) % bsize)
    (hc : Changed s a (copyin (s.disk a) ((off + tot) % bsize) src tot m) s') :
    Wrote sb i off src (tot + readable src tot m) s₀ s' := by
  obtain ⟨hothers, hnode, hcontent⟩ := hc.data h.sound hbn ha
  have hr := readable_le src tot m
  have hpos := bsize_pos
  have hdiv := Nat.div_add_mod (off + tot) bsize
  have hmod := Nat.mod_lt (off + tot) hpos
  -- the bytes of the block that are copied
  have hin {k : Nat} (hk : k / bsize = (off + tot) / bsize) :
      (off + tot) % bsize ≤ k % bsize ∧ k % bsize < (off + tot) % bsize + readable src tot m ↔
        off + tot ≤ k ∧ k < off + tot + readable src tot m := by
    have hdk := Nat.div_add_mod k bsize
    rw [hk] at hdk
    omega
  -- the others stay
  have hkeep {k : Nat} {v : Byte} (hout : ¬ (off + tot ≤ k ∧ k < off + tot + readable src tot m))
      (hv : s.content sb i k = some v) : s'.content sb i k = some v := by
    rw [hcontent]
    split
    · rename_i hblock
      rw [copyin, if_neg (by rwa [hin hblock])]
      obtain ⟨-, x, hx, hbyte⟩ := content_eq_some.mp hv
      rw [hblock, ha] at hx
      obtain rfl := Option.some.inj hx
      rw [hbyte]
    · exact hv
  constructor
  case toOthers => exact h.toOthers.trans hothers
  case attrs => rw [hnode, h.attrs]
  case new =>
    intro k hk
    by_cases hlt : k < tot
    · obtain ⟨v, hv, hc⟩ := h.new k hlt
      exact ⟨v, hv, hkeep (by omega) hc⟩
    · obtain ⟨v, hv⟩ := readable_some (show k - tot < readable src tot m by omega)
      rw [show tot + (k - tot) = k by omega] at hv
      have hblock : (off + k) / bsize = (off + tot) / bsize := by
        rw [Nat.div_eq_iff hpos, Nat.mul_comm]
        omega
      refine ⟨v, hv, ?_⟩
      rw [hcontent, if_pos hblock, copyin, if_pos ((hin hblock).mpr (by omega))]
      have hdk := Nat.div_add_mod (off + k) bsize
      rw [hblock] at hdk
      rw [show tot + ((off + k) % bsize - (off + tot) % bsize) = k by omega, hv]
      rfl
  case old => exact fun k v ho hv => hkeep (by omega) (h.old k v (by omega) hv)

end Wrote

def Settled (sb : SuperBlock) (i off n : Nat) (s : FsState) : Prop :=
  ∀ k < n, ∀ b, s.ptr sb (i, place ((off + k) / bsize)) = some b → b ∈ s.logged

theorem Settled.tracks (h : Settled sb i off n s) (ht : Tracks sb s s') : Settled sb i off n s' := by
  intro k hk b hb
  by_contra hn
  exact hn (ht.logged (h k hk b (ht.ptr _ b hb hn)))

theorem Settled.chunk (h : Settled sb i off tot s) (ht : Tracks sb s s')
    (ha : s.ptr sb (i, place ((off + tot) / bsize)) = some a) (hlog : a ∈ s'.logged)
    (hm : m ≤ bsize - (off + tot) % bsize) : Settled sb i off (tot + m) s' := by
  intro k hk b hb
  by_contra hn
  have hold := ht.ptr _ b hb hn
  by_cases hlt : k < tot
  · exact hn (ht.logged (h k hlt b hold))
  · have hpos := bsize_pos
    have hdiv := Nat.div_add_mod (off + tot) bsize
    have hmod := Nat.mod_lt (off + tot) hpos
    have hblock : (off + k) / bsize = (off + tot) / bsize := by
      rw [Nat.div_eq_iff hpos, Nat.mul_comm]
      omega
    rw [hblock, ha] at hold
    exact hn (Option.some.inj hold ▸ hlog)

def Full (sb : SuperBlock) (s : FsState) : Prop := ∀ x < sb.size, inUse sb s x = true

/-- How the loop of `writei` ends: with all `n` bytes, at a block that the file did not have and for which
the disk has no room, or at a fault. -/
def Ends (sb : SuperBlock) (i : Nat) (src : Nat → Option Byte) (off n : Nat) (s₀ : FsState) (tot e : Nat)
    (s : FsState) : Prop :=
  (tot = n ∧ e = n) ∨
    (tot < n ∧ e = tot ∧ (tot = 0 ∨ (off + tot) % bsize = 0) ∧ s₀.content sb i (off + tot) = none ∧
      Full sb s) ∨
    (tot ≤ e ∧ e < n ∧ src e = none)

theorem writeLoop_total (hi : i < sb.ninodes) (hfit : off + n ≤ maxFile * bsize) {fuel : Nat}
    (hfuel : n ≤ tot + fuel) (htot : tot ≤ n) (hedge : tot = 0 ∨ tot = n ∨ (off + tot) % bsize = 0)
    (h : Wrote sb i off src tot s₀ s) (hset : Settled sb i off tot s) :
    Total (writeLoop sb i src off n fuel tot) s fun tot' s' =>
      ∃ e, Wrote sb i off src e s₀ s' ∧ Ends sb i src off n s₀ tot' e s' ∧ Settled sb i off tot' s' := by
  induction fuel generalizing tot s with
  | zero => exact Total.pure ⟨tot, h, .inl ⟨by omega, by omega⟩, hset⟩
  | succ fuel ih =>
    unfold writeLoop
    apply Total.ite
    · intro hlt
      have hbn : (off + tot) / bsize < maxFile := by
        rw [Nat.div_lt_iff_lt_mul bsize_pos]
        omega
      apply (bmap_total h.sound hi hbn).andThen
      intro a s₁ hm
      have h₁ := h.kept hm.kept
      have hset₁ := hset.tracks hm.kept.tracks
      apply Total.ite
      · intro h0
        refine Total.pure ⟨tot, h₁, .inr (.inl ⟨hlt, rfl, by omega, ?_, hm.full h0⟩), hset₁⟩
        by_contra hne
        obtain ⟨v, hv⟩ := Option.ne_none_iff_exists'.mp hne
        obtain ⟨-, x, hx, -⟩ := content_eq_some.mp (h.old _ v (.inr (Nat.le_refl _)) hv)
        exact (hm.same (by simp [hx])).2 h0
      · intro ha0
        apply Total.getThen
        have hmod := Nat.mod_lt (off + tot) bsize_pos
        have ha := hm.found ha0
        have hle := Nat.min_le_right (n - tot) (bsize - (off + tot) % bsize)
        apply Total.ite
        · intro hall
          apply Total.modifyThen
          have h₂ := h₁.chunk hbn ha hle .putBlock
          rw [hall] at h₂
          refine ih (by omega) (by omega) (.inr ?_) h₂ (hset₁.chunk ?_ ha (Finset.mem_insert_self ..) hle)
          · rw [bsize]
            omega
          · exact (Changed.putBlock.data h₁.sound hbn ha).1.tracks
        · intro hpart
          apply Total.modifyThen
          have h₂ := h₁.chunk hbn ha hle .putBuf
          refine Total.pure ⟨_, h₂, .inr (.inr ⟨by omega, ?_, readable_fault hpart⟩), ?_⟩
          · have := readable_le src tot (min (n - tot) (bsize - (off + tot) % bsize))
            omega
          · exact hset₁.tracks (Changed.putBuf.data h₁.sound hbn ha).1.tracks
    · intro hge
      exact Total.pure ⟨tot, h, .inl ⟨by omega, by omega⟩, hset⟩

end

end Fs

end OsLab
