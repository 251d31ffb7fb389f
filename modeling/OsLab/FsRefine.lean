import OsLab.FsStore

/-!
# The calls on inodes refine the file store
-/

namespace OsLab

namespace Fs

open Mach

section
variable {sb : SuperBlock} {s s' : FsState} {i j k : Nat} {ip : Inode}

/-! ## The invariant -/

theorem FsInv.inode_eq (h : FsInv sb s) (j : Nat) : s.inode sb j = dinode sb s.disk j := by
  unfold FsState.inode
  cases hc : s.icache j with
  | none => rfl
  | some ip => exact (h.cached j ip hc).1

theorem Others.inode (ho : Others sb i s s') (hj : j ≠ i) (hlt : j < sb.ninodes) :
    s'.inode sb j = s.inode sb j := by
  rw [FsState.inode, FsState.inode, ho.icache j hj, ho.dinode j hj hlt]

theorem FsInv.others (h : FsInv sb s) (ho : Others sb i s s')
    (hcached : ∀ ip, s'.icache i = some ip → ip = dinode sb s'.disk i ∧ ip.type ≠ 0 ∧ i < sb.ninodes)
    (hblank : (s'.inode sb i).type = 0 → ∀ p, s'.ptr sb (i, p) = none)
    (hsize : (s'.inode sb i).size.toNat ≤ maxFile * bsize)
    (hfilled : ∀ k < (s'.inode sb i).size.toNat, s'.content sb i k ≠ none) : FsInv sb s' := by
  constructor
  case sound => exact ho.sound
  case cached =>
    intro j ip hc
    by_cases hj : j = i
    · subst hj
      exact hcached ip hc
    · rw [ho.icache j hj] at hc
      obtain ⟨heq, htype, hlt⟩ := h.cached j ip hc
      exact ⟨heq.trans (ho.dinode j hj hlt).symm, htype, hlt⟩
  case blank =>
    intro j hlt ht p
    by_cases hj : j = i
    · subst hj
      exact hblank ht p
    · rw [ho.ptr j hj]
      rw [ho.inode hj hlt] at ht
      exact h.blank j hlt ht p
  case size =>
    intro j hlt
    by_cases hj : j = i
    · subst hj
      exact hsize
    · rw [ho.inode hj hlt]
      exact h.size j hlt
  case filled =>
    intro j hlt
    by_cases hj : j = i
    · subst hj
      exact hfilled
    · rw [ho.inode hj hlt, ho.other j hj]
      exact h.filled j hlt

theorem Others.files (ho : Others sb i s s') :
    s'.files sb = Function.update (s.files sb) i (s'.files sb i) := by
  funext j
  by_cases hj : j = i
  · subst hj
    rw [Function.update_self]
  · rw [Function.update_of_ne hj]
    unfold FsState.files
    by_cases hlt : j < sb.ninodes
    · simp only [ho.inode hj hlt, FsState.fileOf, FsState.bytes, ho.other j hj]
    · simp [hlt]

theorem files_eq (hi : i < sb.ninodes) (ht : (s.inode sb i).type ≠ 0) : s.files sb i = some (s.fileOf sb i) :=
  if_pos ⟨hi, ht⟩

theorem of_files_ne (h : s.files sb i ≠ none) : i < sb.ninodes ∧ (s.inode sb i).type ≠ 0 := by
  by_contra hno
  exact h (if_neg hno)

theorem FsInv.congr (h : FsInv sb s) (hnode : ∀ j, s'.inode sb j = s.inode sb j) (hdisk : s'.disk = s.disk)
    (hcached : ∀ j ip, s'.icache j = some ip → ip = dinode sb s.disk j ∧ ip.type ≠ 0 ∧ j < sb.ninodes) :
    FsInv sb s' ∧ s'.files sb = s.files sb := by
  have hptr (j : Nat) (p : Place) : s'.ptr sb (j, p) = s.ptr sb (j, p) :=
    ptr_congr (fun _ => hnode j) fun x _ => by rw [hdisk]
  have hcontent (j : Nat) : s'.content sb j = s.content sb j :=
    content_congr (hptr j) fun _ _ _ _ => by rw [hdisk]
  refine ⟨⟨?_, ?_, fun j hlt ht p => ?_, fun j hlt => ?_, fun j hlt => ?_⟩, ?_⟩
  · exact h.sound.congr (funext fun r => hptr r.1 r.2) fun x _ => inUse_congr (by rw [hdisk])
  · rw [hdisk]; exact hcached
  · rw [hnode] at ht
    rw [hptr]
    exact h.blank j hlt ht p
  · rw [hnode]; exact h.size j hlt
  · rw [hnode, hcontent]; exact h.filled j hlt
  · funext j
    simp only [FsState.files, FsState.fileOf, FsState.bytes, hnode, hcontent]

/-! ## Locking -/

structure Loaded (sb : SuperBlock) (i : Nat) (s s' : FsState) : Prop where
  inv : FsInv sb s'
  tracks : Tracks sb s s'
  icache : ∀ j ≠ i, s'.icache j = s.icache j
  files : s'.files sb = s.files sb
  cached : s'.icache i = some (s'.inode sb i)
  lt : i < sb.ninodes
  type : (s'.inode sb i).type ≠ 0

theorem ilock_total (h : FsInv sb s) (hi : s.files sb i ≠ none) :
    Total (ilock sb i) s fun _ s' => Loaded sb i s s' := by
  obtain ⟨hlt, ht⟩ := of_files_ne hi
  unfold ilock
  apply Total.getThen
  split
  · rename_i ip hc
    refine Total.pure ⟨h, (Logs.refl s).tracks_of_ptr rfl, fun _ _ => rfl, rfl, ?_, hlt, ht⟩
    rw [FsState.inode, hc]
    rfl
  · rename_i hc
    have hdi : dinode sb s.disk i = s.inode sb i := (h.inode_eq i).symm
    have hnode (j : Nat) : (s.putInode i (dinode sb s.disk i)).inode sb j = s.inode sb j := by
      by_cases hj : j = i
      · subst hj
        rw [inode_putInode, hdi]
      · exact inode_putInode_ne hj
    apply Total.modifyThen
    apply Total.ite
    · intro h0
      rw [hdi] at h0
      exact absurd h0 ht
    · intro _
      obtain ⟨hinv, hfiles⟩ := h.congr hnode rfl fun j ip hj => by
        by_cases heq : j = i
        · subst heq
          rw [icache_putInode] at hj
          obtain rfl := Option.some.inj hj
          exact ⟨rfl, by rw [hdi]; exact ht, hlt⟩
        · rw [icache_putInode_ne heq] at hj
          exact h.cached j ip hj
      have hptr : (s.putInode i (dinode sb s.disk i)).ptr sb = s.ptr sb :=
        funext fun r => ptr_congr (fun _ => hnode r.1) fun _ _ => rfl
      refine Total.pure ⟨hinv, (Logs.putInode ..).tracks_of_ptr hptr, fun _ => icache_putInode_ne, hfiles, ?_, hlt, ?_⟩
      · rw [hnode, icache_putInode, hdi]
      · rw [hnode]
        exact ht

theorem Loaded.file {s₀ : FsState} (hl : Loaded sb i s₀ s) : s₀.files sb i = some (s.fileOf sb i) := by
  rw [← hl.files, files_eq hl.lt hl.type]

structure Called (sb : SuperBlock) (i : Nat) (s s' : FsState) : Prop extends Others sb i s s' where
  inv : FsInv sb s'
  cached : s'.icache i ≠ none

theorem Loaded.called {s₀ : FsState} (hl : Loaded sb i s₀ s) : Called sb i s s :=
  ⟨.refl hl.inv.sound, hl.inv, by rw [hl.cached]; simp⟩

theorem Loaded.save {s₀ t : FsState} (hl : Loaded sb i s₀ s) (ho : Others sb i s t) (ip : Inode)
    (hd : ip.direct = (t.inode sb i).direct) (hind : ip.indirect = (t.inode sb i).indirect)
    (htype : ip.type = (s.inode sb i).type) (hsize : ip.size.toNat ≤ maxFile * bsize)
    (hfilled : ∀ k < ip.size.toNat, t.content sb i k ≠ none) :
    Called sb i s (t.save sb i ip) ∧ (t.save sb i ip).content sb i = t.content sb i ∧
      (t.save sb i ip).files sb = Function.update (s.files sb) i
        (some ⟨ip.type, ip.major, ip.minor, ip.nlink, (t.save sb i ip).bytes sb i⟩) := by
  obtain ⟨hsave, -, hcontent⟩ := ho.save hl.lt ip hd hind
  have hne : ((t.save sb i ip).inode sb i).type ≠ 0 := by
    rw [save_inode, htype]
    exact hl.type
  refine ⟨⟨hsave, hl.inv.others hsave ?_ (fun h0 => absurd h0 hne) ?_ ?_, by rw [save_icache]; simp⟩, hcontent i, ?_⟩
  · intro ip' hc
    rw [save_icache] at hc
    obtain rfl := Option.some.inj hc
    exact ⟨save_dinode.symm, by rw [htype]; exact hl.type, hl.lt⟩
  · rw [save_inode]
    exact hsize
  · rw [save_inode, hcontent]
    exact hfilled
  · rw [hsave.files, files_eq hl.lt hne, FsState.fileOf, save_inode]

/-! ## Bytes of a file -/

theorem length_bytes : (s.bytes sb i).length = (s.inode sb i).size.toNat := by
  simp [FsState.bytes]

theorem getElem?_bytes (h : FsInv sb s) (hi : i < sb.ninodes) :
    (s.bytes sb i)[k]? = if k < (s.inode sb i).size.toNat then s.content sb i k else none := by
  rw [FsState.bytes, List.getElem?_map]
  split
  · rename_i hk
    obtain ⟨v, hv⟩ := Option.ne_none_iff_exists'.mp (h.filled i hi k hk)
    simp [List.getElem?_range hk, hv]
  · rename_i hk
    rw [List.getElem?_eq_none (by simpa using hk)]
    rfl

theorem getElem?_overwrite {l new : List Byte} {off : Nat} (hoff : off ≤ l.length) :
    (overwrite l off new)[k]? = if off ≤ k ∧ k < off + new.length then new[k - off]? else l[k]? := by
  have htake : (l.take off).length = off := by simp [hoff]
  unfold overwrite
  by_cases h1 : k < off
  · rw [if_neg (by omega), List.append_assoc, List.getElem?_append_left (by omega), List.getElem?_take_of_lt h1]
  · by_cases h2 : k < off + new.length
    · rw [if_pos (by omega), List.getElem?_append_left (by rw [List.length_append]; omega),
        List.getElem?_append_right (by omega), htake]
    · rw [if_neg (by omega), List.getElem?_append_right (by rw [List.length_append]; omega),
        List.getElem?_drop, List.length_append, htake]
      congr 1
      omega

/-! ## `writei` -/

theorem toNat_add_of_le {off n : BitVec 32} (h : ¬ off + n < off) : (off + n).toNat = off.toNat + n.toNat := by
  rw [BitVec.lt_def, BitVec.toNat_add] at h
  rw [BitVec.toNat_add]
  have := off.isLt
  have := n.isLt
  omega

theorem Wrote.bytes {off tot e : Nat} {src : Nat → Option Byte} {t : FsState} (h : FsInv sb s)
    (hi : i < sb.ninodes) (hoff : off ≤ (s.inode sb i).size.toNat) (hw : Wrote sb i off src e s t)
    (hte : tot ≤ e) (ht : FsInv sb s') (hcontent : s'.content sb i = t.content sb i)
    (hsize : (s'.inode sb i).size.toNat = max (s.inode sb i).size.toNat (off + tot)) :
    s'.bytes sb i =
      (overwrite (s.bytes sb i) off (bytesAt src e)).take (max (s.bytes sb i).length (off + tot)) := by
  apply List.ext_getElem?
  intro k
  have hlen : (bytesAt src e).length = e := by simp [bytesAt]
  rw [getElem?_bytes ht hi, hcontent, hsize, List.getElem?_take, length_bytes,
    getElem?_overwrite (by rw [length_bytes]; exact hoff), hlen]
  split
  · rename_i hk
    by_cases hin : off ≤ k ∧ k < off + e
    · obtain ⟨v, hv, hc⟩ := hw.new (k - off) (by omega)
      rw [show off + (k - off) = k by omega] at hc
      rw [hc, if_pos hin, bytesAt, List.getElem?_map, List.getElem?_range (by omega)]
      simp [hv]
    · rw [if_neg hin, getElem?_bytes h hi, if_pos (by omega)]
      obtain ⟨v, hv⟩ := Option.ne_none_iff_exists'.mp (h.filled i hi k (by omega))
      rw [hv, hw.old k v (by omega) hv]
  · rfl

theorem Ends.bounds {src : Nat → Option Byte} {off n tot e : Nat} {s₀ : FsState} (h₀ : FsInv sb s₀)
    (hi : i < sb.ninodes) (h : Ends sb i src off n s₀ tot e s) :
    tot ≤ e ∧ e ≤ n ∧
      (tot < n → (e = tot ∧ (tot = 0 ∨ (off + tot) % bsize = 0) ∧
        (s₀.inode sb i).size.toNat ≤ off + tot ∧ Full sb s) ∨ (e < n ∧ src e = none)) := by
  obtain ⟨rfl, rfl⟩ | ⟨hlt, rfl, hedge, hnone, hfull⟩ | ⟨hte, hen, hnone⟩ := h
  · exact ⟨Nat.le_refl _, Nat.le_refl _, fun hlt => absurd hlt (Nat.lt_irrefl _)⟩
  · refine ⟨Nat.le_refl _, Nat.le_of_lt hlt, fun _ => .inl ⟨rfl, hedge, ?_, hfull⟩⟩
    exact Nat.le_of_not_lt fun hin => h₀.filled i hi _ hin hnone
  · exact ⟨hte, Nat.le_of_lt hen, fun _ => .inr ⟨hen, hnone⟩⟩

def newSize (ip : Inode) (len : Nat) : BitVec 32 := if ip.size.toNat < len then .ofNat 32 len else ip.size

theorem newSize_toNat {len : Nat} (hlen : len ≤ maxFile * bsize) :
    (newSize ip len).toNat = max ip.size.toNat len := by
  have hmax : maxFile * bsize < 2 ^ 32 := by decide
  unfold newSize
  split
  · rw [BitVec.toNat_ofNat, Nat.mod_eq_of_lt (by omega)]
    omega
  · omega

theorem Wrote.finish {s₀ t : FsState} {off tot e : Nat} {src : Nat → Option Byte} (hl : Loaded sb i s₀ s)
    (hw : Wrote sb i off src e s t) (hoff : off ≤ (s.inode sb i).size.toNat) (hte : tot ≤ e)
    (hfit : off + e ≤ maxFile * bsize) (hip : ip = { t.inode sb i with size := newSize (t.inode sb i) (off + tot) }) :
    Called sb i s (t.save sb i ip) ∧ (t.save sb i ip).files sb =
      Function.update (s.files sb) i (some ((s.fileOf sb i).patch off (bytesAt src e)
        (max (s.inode sb i).size.toNat (off + tot)))) := by
  have hattrs := hw.attrs
  simp only [Inode.attrs, Prod.mk.injEq] at hattrs
  obtain ⟨htype, hmajor, hminor, hnlink, hsize⟩ := hattrs
  have hnew : ip.size.toNat = max (s.inode sb i).size.toNat (off + tot) := by
    rw [hip, newSize_toNat (by omega), hsize]
  have hle := hl.inv.size i hl.lt
  obtain ⟨hcall, hcontent, hfiles⟩ := hl.save hw.toOthers ip (by rw [hip]) (by rw [hip]) (by rw [hip, htype])
    (by omega) fun k hk => by
      by_cases hin : off ≤ k ∧ k < off + e
      · obtain ⟨v, -, hc⟩ := hw.new (k - off) (by omega)
        rw [show off + (k - off) = k by omega] at hc
        simp [hc]
      · obtain ⟨v, hv⟩ := Option.ne_none_iff_exists'.mp (hl.inv.filled i hl.lt k (by omega))
        simp [hw.old k v (by omega) hv]
  have hbytes := Wrote.bytes hl.inv hl.lt hoff hw hte hcall.inv hcontent (by rw [save_inode, hnew])
  rw [length_bytes] at hbytes
  refine ⟨hcall, ?_⟩
  rw [hfiles, hbytes, hip, htype, hmajor, hminor, hnlink]
  rfl

theorem writei_total {s₀ : FsState} (hl : Loaded sb i s₀ s) (src : Nat → Option Byte) (off n : BitVec 32) :
    Total (writei sb i src off n) s fun r s' => Called sb i s s' ∧
      (∃ tot : Nat, (r = tot ∨ r = -1 ∧ tot = 0) ∧ Settled sb i off.toNat tot s') ∧
      ∃ f', (s.fileOf sb i).Writes (Full sb s') src off n r f' ∧
        s'.files sb = Function.update (s.files sb) i (some f') := by
  have h := hl.inv
  have hi := hl.lt
  have hsame : s.files sb = Function.update (s.files sb) i (some (s.fileOf sb i)) := by
    rw [← files_eq hi hl.type, Function.update_eq_self]
  have hlen : (s.fileOf sb i).bytes.length = (s.inode sb i).size.toNat := length_bytes
  unfold writei File.Writes
  apply Total.getThen
  rw [hlen]
  apply Total.ite
  · intro hbad
    rw [BitVec.lt_def] at hbad
    refine Total.pure ⟨hl.called, ⟨0, .inr ⟨rfl, rfl⟩, nofun⟩, s.fileOf sb i, ?_, hsame⟩
    rw [if_pos (hbad.imp_right .inl)]
    exact ⟨rfl, rfl⟩
  · intro hok
    have hoff : off.toNat ≤ (s.inode sb i).size.toNat :=
      Nat.le_of_not_lt fun hlt => hok (.inl (BitVec.lt_def.mpr hlt))
    have hwrap : ¬ off + n < off := fun hlt => hok (.inr hlt)
    have hsum := toNat_add_of_le hwrap
    apply Total.ite
    · intro hbig
      refine Total.pure ⟨hl.called, ⟨0, .inr ⟨rfl, rfl⟩, nofun⟩, s.fileOf sb i, ?_, hsame⟩
      rw [if_pos (.inr (.inr hbig))]
      exact ⟨rfl, rfl⟩
    · intro hfit
      rw [hsum] at hfit
      have hcond : ¬ ((s.inode sb i).size.toNat < off.toNat ∨ off + n < off ∨
          maxFile * bsize < (off + n).toNat) := by
        rw [hsum]
        rintro (h1 | h1 | h1)
        · omega
        · exact hwrap h1
        · exact hfit h1
      apply (writeLoop_total hi (by omega) (by omega) (Nat.zero_le _) (.inl rfl) (.refl h.sound) nofun).andThen
      rintro tot t ⟨e, hw, hends, hset⟩
      obtain ⟨hte, hen, hend⟩ := hends.bounds h hi
      apply Total.getThen
      apply Total.modifyThen
      apply (iupdate_total ..).andThen
      rintro _ s' rfl
      obtain ⟨hcall, hfile⟩ := hw.finish hl hoff hte (by omega) rfl
      have htracks := ((Others.refl hw.sound).save hi { t.inode sb i with size := newSize (t.inode sb i) (off.toNat + tot) }
        rfl rfl).1.tracks
      refine Total.pure ⟨hcall, ⟨tot, .inl rfl, hset.tracks htracks⟩, _, ?_, hfile⟩
      rw [if_neg hcond]
      refine ⟨tot, e, rfl, hte, hen, fun hlt => ?_, rfl⟩
      exact (hend hlt).imp_left fun hpart =>
        ⟨hpart.1, hpart.2.1, hpart.2.2.1, fun x hx => (inUse_putDinode hi).trans (hpart.2.2.2 x hx)⟩

/-! ## `readi` -/

theorem block_bytes (h : FsInv sb s) (hi : i < sb.ninodes) {o m a : Nat}
    (ha : s.ptr sb (i, place (o / bsize)) = some a) (hm : m ≤ bsize - o % bsize)
    (hfit : o + m ≤ (s.inode sb i).size.toNat) :
    ((List.range m).map fun k => s.disk a (o % bsize + k)) = ((s.bytes sb i).drop o).take m := by
  apply List.ext_getElem?
  intro k
  rw [List.getElem?_take, List.getElem?_drop, getElem?_bytes h hi, List.getElem?_map]
  by_cases hk : k < m
  · have hpos := bsize_pos
    have hmod := Nat.mod_lt o hpos
    have hdiv := Nat.div_add_mod o bsize
    have hblock : (o + k) / bsize = o / bsize := by
      rw [Nat.div_eq_iff hpos, Nat.mul_comm]
      omega
    have hdk := Nat.div_add_mod (o + k) bsize
    rw [hblock] at hdk
    have hbyte : s.content sb i (o + k) = some (s.disk a (o % bsize + k)) := by
      have hle := h.size i hi
      refine content_eq_some.mpr ⟨?_, a, ?_, ?_⟩
      · rw [Nat.div_lt_iff_lt_mul hpos]
        omega
      · rw [hblock, ha]
      · rw [show (o + k) % bsize = o % bsize + k by omega]
    rw [if_pos hk, if_pos (by omega), hbyte, List.getElem?_range hk]
    rfl
  · rw [if_neg hk, List.getElem?_eq_none (by simpa using hk)]
    rfl

theorem readLoop_total (h : FsInv sb s) (hi : i < sb.ninodes) {ok : Nat → Nat → Bool} {off n fuel tot : Nat}
    (hfit : off + n ≤ (s.inode sb i).size.toNat) (hfuel : n ≤ tot + fuel) (htot : tot ≤ n) {out : List Byte}
    (hout : out = ((s.bytes sb i).drop off).take tot) :
    Total (readLoop sb i ok off n fuel tot out) s fun r s' => s' = s ∧
      ((r.1 = n ∧ r.2 = ((s.bytes sb i).drop off).take n) ∨
        (r.1 = -1 ∧ r.2 <+: ((s.bytes sb i).drop off).take n ∧ ∃ tot m, ok tot m = false)) := by
  induction fuel generalizing tot out with
  | zero =>
    obtain rfl : tot = n := by omega
    exact Total.pure ⟨rfl, .inl ⟨rfl, hout⟩⟩
  | succ fuel ih =>
    unfold readLoop
    apply Total.ite
    · intro hlt
      have hle := h.size i hi
      have hbn : (off + tot) / bsize < maxFile := by
        rw [Nat.div_lt_iff_lt_mul bsize_pos]
        omega
      -- there is a block for every byte of the file, so `bmap` allocates nothing
      obtain ⟨v, hv⟩ := Option.ne_none_iff_exists'.mp (h.filled i hi (off + tot) (by omega))
      obtain ⟨-, x, hx, -⟩ := content_eq_some.mp hv
      apply (bmap_total h.sound hi hbn).andThen
      intro a s₁ hm
      obtain ⟨rfl, ha0⟩ := hm.same (by simp [hx])
      have ha := hm.found ha0
      have hmod := Nat.mod_lt (off + tot) bsize_pos
      rw [if_neg ha0]
      apply Total.getThen
      apply Total.ite
      · intro _
        refine ih (by omega) (by omega) ?_
        rw [block_bytes h hi ha (Nat.min_le_right ..) (by omega), hout, ← List.drop_drop, List.take_add]
      · intro hfault
        refine Total.pure ⟨rfl, .inr ⟨rfl, ?_, _, _, by simpa using hfault⟩⟩
        rw [hout]
        exact List.take_prefix_take_left htot
    · intro hge
      obtain rfl : tot = n := by omega
      exact Total.pure ⟨rfl, .inl ⟨rfl, hout⟩⟩

theorem readi_total {s₀ : FsState} (hl : Loaded sb i s₀ s) (ok : Nat → Nat → Bool) (off n : BitVec 32) :
    Total (readi sb i ok off n) s fun r s' => s' = s ∧ (s.fileOf sb i).Reads ok off n r.1 r.2 := by
  have hbytes : (s.fileOf sb i).bytes = s.bytes sb i := rfl
  have hlen : (s.bytes sb i).length = (s.inode sb i).size.toNat := length_bytes
  unfold readi File.Reads
  rw [hbytes]
  apply Total.getThen
  by_cases hwrap : off + n < off
  · rw [if_pos (.inr hwrap)]
    simp only [if_pos hwrap]
    exact Total.pure ⟨rfl, rfl, rfl⟩
  · simp only [if_neg hwrap]
    apply Total.ite
    · intro hoff
      have hoff := BitVec.lt_def.mp (hoff.resolve_right hwrap)
      refine Total.pure ⟨rfl, .inl ⟨rfl, ?_⟩⟩
      rw [List.drop_of_length_le (by omega), List.take_nil]
    · intro hok
      have hoff : off.toNat ≤ (s.inode sb i).size.toNat :=
        Nat.le_of_not_lt fun hlt => hok (.inl (BitVec.lt_def.mpr hlt))
      have hsum := toNat_add_of_le hwrap
      -- the number of bytes up to the end of the file
      have hn : (if (s.inode sb i).size < off + n then (s.inode sb i).size - off else n).toNat =
          min n.toNat ((s.inode sb i).size.toNat - off.toNat) := by
        split
        · rename_i hlt
          rw [BitVec.lt_def, hsum] at hlt
          rw [BitVec.toNat_sub_of_le (BitVec.le_def.mpr hoff)]
          omega
        · rename_i hge
          rw [BitVec.lt_def, hsum] at hge
          omega
      rw [hn]
      have htake : ((s.bytes sb i).drop off.toNat).take (min n.toNat ((s.inode sb i).size.toNat - off.toNat)) =
          ((s.bytes sb i).drop off.toNat).take n.toNat := by
        have hall : ((s.bytes sb i).drop off.toNat).take ((s.inode sb i).size.toNat - off.toNat) =
            (s.bytes sb i).drop off.toNat := List.take_of_length_le (by rw [List.length_drop, hlen])
        rw [← List.take_take, hall]
      refine (readLoop_total hl.inv hl.lt (by omega) (by omega) (Nat.zero_le _) (by simp)).mono ?_
      rintro r s' ⟨rfl, ⟨hr, hout⟩ | ⟨hr, hout, hfault⟩⟩
      · rw [htake] at hout
        refine ⟨rfl, .inl ⟨?_, hout⟩⟩
        rw [hr, hout, List.length_take, List.length_drop, hlen]
      · rw [htake] at hout
        exact ⟨rfl, .inr ⟨hr, hout, hfault⟩⟩

/-! ## The other calls -/

theorem bytes_nil (h : (s.inode sb i).size = 0) : s.bytes sb i = [] := by
  rw [FsState.bytes, h]
  rfl

theorem itrunc_files {s₀ : FsState} (hl : Loaded sb i s₀ s) : Total (itrunc sb i) s fun _ s' =>
    Called sb i s s' ∧ s'.files sb = Function.update (s.files sb) i (some { s.fileOf sb i with bytes := [] }) := by
  apply (itrunc_total hl.inv.sound hl.lt).mono
  intro _ s' ht
  have htype : (s'.inode sb i).type ≠ 0 := by
    rw [ht.inode]
    exact hl.type
  have hsize : (s'.inode sb i).size = 0 := by rw [ht.inode]
  refine ⟨⟨ht.toOthers, hl.inv.others ht.toOthers ?_ (fun h0 => absurd h0 htype) ?_ ?_, by rw [ht.cached]; simp⟩, ?_⟩
  · intro ip hc
    rw [ht.cached] at hc
    obtain rfl := Option.some.inj hc
    exact ⟨ht.saved.symm, htype, hl.lt⟩
  · simp [hsize]
  · simp [hsize]
  · rw [ht.files, files_eq hl.lt htype, FsState.fileOf, bytes_nil hsize, ht.inode]
    rfl

theorem setAttrs_files {s₀ : FsState} (hl : Loaded sb i s₀ s) (major minor nlink : BitVec 16)
    (hip : ip = { s.inode sb i with major := major, minor := minor, nlink := nlink }) :
    Called sb i s (s.save sb i ip) ∧ (s.save sb i ip).files sb = Function.update (s.files sb) i
      (some { s.fileOf sb i with major := major, minor := minor, nlink := nlink }) := by
  obtain ⟨hcall, hcontent, hfiles⟩ := hl.save (.refl hl.inv.sound) ip (by rw [hip]) (by rw [hip]) (by rw [hip])
    (by rw [hip]; exact hl.inv.size i hl.lt) (by rw [hip]; exact hl.inv.filled i hl.lt)
  refine ⟨hcall, ?_⟩
  rw [hfiles, FsState.bytes, hcontent, save_inode, hip]
  rfl

theorem ialloc_files (h : FsInv sb s) (hi : i < sb.ninodes) (h0 : (dinode sb s.disk i).type = 0)
    {type : BitVec 16} (ht : type ≠ 0) :
    FsInv sb (s.putDinode sb i (blankInode type)) ∧ Tracks sb s (s.putDinode sb i (blankInode type)) ∧
      s.files sb i = none ∧
      (s.putDinode sb i (blankInode type)).files sb =
        Function.update (s.files sb) i (some ⟨type, 0, 0, 0, []⟩) := by
  have h0' : (s.inode sb i).type = 0 := by rw [h.inode_eq, h0]
  have hcache : s.icache i = none := by
    cases hc : s.icache i with
    | none => rfl
    | some ip =>
      obtain ⟨rfl, hne, -⟩ := h.cached i ip hc
      exact absurd h0 hne
  have hnode : (s.putDinode sb i (blankInode type)).inode sb i = blankInode type := by
    rw [FsState.inode, dinode_putDinode]
    change (s.icache i).getD _ = _
    rw [hcache]
    rfl
  have hnodes {j : Nat} (hj : j ≠ i) : (s.putDinode sb i (blankInode type)).inode sb j = s.inode sb j := by
    rw [FsState.inode, dinode_putDinode_ne hj]
    rfl
  have hdisk {x : Nat} (hx : dataStart sb ≤ x) : (s.putDinode sb i (blankInode type)).disk x = s.disk x :=
    putDinode_disk hi (Nat.le_trans (Nat.le_of_lt (bmapstart_lt sb)) hx)
  have hptr (j : Nat) (p : Place) : (s.putDinode sb i (blankInode type)).ptr sb (j, p) = s.ptr sb (j, p) := by
    by_cases hj : j = i
    · subst hj
      rw [h.blank j hi h0' p, ptr_eq_none hi, hnode]
      cases p <;> rfl
    · exact ptr_congr (fun _ => hnodes hj) fun x hx => hdisk (h.sound.ptr_data hx).1
  have ho : Others sb i s (s.putDinode sb i (blankInode type)) :=
    ⟨h.sound.congr (funext fun r => hptr r.1 r.2) fun x _ => inUse_putDinode hi, fun _ _ => rfl,
      fun j hj _ => dinode_putDinode_ne hj, fun j _ => hptr j,
      fun j _ => content_congr (hptr j) fun p x _ hx => hdisk (h.sound.ptr_data hx).1,
      (Logs.putBlock ..).tracks_of_ptr (funext fun r => hptr r.1 r.2)⟩
  have hsize : ((s.putDinode sb i (blankInode type)).inode sb i).size = 0 := by rw [hnode]; rfl
  refine ⟨h.others ho ?_ ?_ ?_ ?_, ho.tracks, if_neg fun hno => hno.2 h0', ?_⟩
  · intro ip hc
    rw [show (s.putDinode sb i (blankInode type)).icache i = s.icache i from rfl, hcache] at hc
    cases hc
  · intro hzero
    rw [hnode] at hzero
    exact absurd hzero ht
  · simp [hsize]
  · simp [hsize]
  · rw [ho.files, files_eq hi (by rw [hnode]; exact ht), FsState.fileOf, bytes_nil hsize, hnode]
    rfl

theorem icache_forget : (s.forget i).icache i = none := Function.update_self ..

theorem icache_forget_ne (hj : j ≠ i) : (s.forget i).icache j = s.icache j := Function.update_of_ne hj ..

theorem inode_forget (h : dinode sb s.disk i = s.inode sb i) : (s.forget i).inode sb j = s.inode sb j := by
  by_cases hj : j = i
  · subst hj
    rw [← h, FsState.inode, icache_forget]
    rfl
  · exact inode_congr (icache_forget_ne hj) rfl

theorem forget_files (h : FsInv sb s) : FsInv sb (s.forget i) ∧ (s.forget i).files sb = s.files sb := by
  have hnode (j : Nat) : (s.forget i).inode sb j = s.inode sb j := inode_forget (h.inode_eq i).symm
  refine h.congr hnode rfl fun j ip hc => ?_
  by_cases hj : j = i
  · subst hj
    rw [icache_forget] at hc
    cases hc
  · rw [icache_forget_ne hj] at hc
    exact h.cached j ip hc

theorem Others.forget (ho : Others sb i s s') (h : Fs.dinode sb s'.disk i = s'.inode sb i) :
    Others sb i s (s'.forget i) ∧ (s'.forget i).ptr sb = s'.ptr sb := by
  have hptr : (s'.forget i).ptr sb = s'.ptr sb :=
    funext fun r => ptr_congr (fun _ => inode_forget h) fun _ _ => rfl
  have htracks : Tracks sb s' (s'.forget i) := (Logs.forget ..).tracks_of_ptr hptr
  refine ⟨⟨ho.sound.congr hptr fun _ _ => rfl, ?_, ho.dinode, ?_, ?_, ho.tracks.trans htracks⟩, hptr⟩
  · exact fun j hj => (icache_forget_ne hj).trans (ho.icache j hj)
  · exact fun j hj p => (congrFun hptr (j, p)).trans (ho.ptr j hj p)
  · exact fun j hj => (content_congr (fun p => congrFun hptr (j, p)) fun _ _ _ _ => rfl).trans (ho.other j hj)

structure Freed (sb : SuperBlock) (i : Nat) (s s' : FsState) : Prop extends Others sb i s s' where
  inv : FsInv sb s'
  files : s'.files sb = Function.update (s.files sb) i none

theorem ifree_files {s₀ : FsState} (hl : Loaded sb i s₀ s) : Total (ifree sb i) s fun _ s' =>
    Freed sb i s s' := by
  unfold ifree
  apply (itrunc_total hl.inv.sound hl.lt).andThen
  intro _ t ht
  apply Total.getThen
  apply Total.modifyThen
  apply (iupdate_total ..).andThen
  rintro _ s' rfl
  apply Total.modify
  change Freed sb i s ((t.save sb i { t.inode sb i with type := 0 }).forget i)
  obtain ⟨ho, hptr, -⟩ := ht.toOthers.save hl.lt { t.inode sb i with type := 0 } rfl rfl
  have hnode : ((t.save sb i { t.inode sb i with type := 0 }).forget i).inode sb i =
      { t.inode sb i with type := 0 } := by
    rw [inode_forget (by rw [save_dinode, save_inode]), save_inode]
  obtain ⟨ho', hptr'⟩ := ho.forget (by rw [save_dinode, save_inode])
  have hsize : (((t.save sb i { t.inode sb i with type := 0 }).forget i).inode sb i).size = 0 := by
    rw [hnode, ht.inode]
  refine ⟨ho', ?_, ?_⟩
  · refine hl.inv.others ho' (fun ip hc => ?_) (fun _ p => ?_) ?_ ?_
    · rw [icache_forget] at hc
      cases hc
    · rw [hptr', hptr, ht.empty]
    · rw [hsize]
      exact Nat.zero_le _
    · rw [hsize]
      exact fun k hk => absurd hk (Nat.not_lt_zero k)
  · rw [ho'.files]
    congr 1
    refine if_neg fun hno => hno.2 ?_
    rw [hnode]

theorem iput_orphan {s₀ : FsState} (hl : Loaded sb i s₀ s) (h0 : (s.inode sb i).nlink = 0) :
    Total (iput sb i true) s fun _ s' => Freed sb i s s' := by
  unfold iput
  apply Total.getThen
  rw [hl.cached]
  dsimp only
  rw [if_pos ⟨rfl, h0⟩]
  exact ifree_files hl

theorem iput_files (h : FsInv sb s) (last : Bool) : Total (iput sb i last) s fun _ s' =>
    if last = true ∧ s.valid i = true ∧ (s.files sb i).any (·.nlink = 0) then Freed sb i s s' else s' = s := by
  cases hc : s.icache i with
  | none =>
    have hno : s.valid i = false := by rw [FsState.valid, hc]; rfl
    unfold iput
    apply Total.getThen
    rw [hc]
    exact Total.pure (by simp [hno])
  | some ip =>
    obtain ⟨hip, ht, hi⟩ := h.cached i ip hc
    have hvalid : s.valid i = true := by rw [FsState.valid, hc]; rfl
    have hnode : s.inode sb i = ip := by rw [h.inode_eq, hip]
    have htype : (s.inode sb i).type ≠ 0 := by rw [hnode]; exact ht
    have hlink : (s.files sb i).any (·.nlink = 0) ↔ ip.nlink = 0 := by
      rw [files_eq hi htype, Option.any_some, decide_eq_true_eq, FsState.fileOf, hnode]
    simp only [hvalid, true_and, hlink]
    by_cases hfree : last = true ∧ ip.nlink = 0
    · obtain ⟨rfl, hzero⟩ := hfree
      have hl : Loaded sb i s s :=
        ⟨h, (Logs.refl s).tracks_of_ptr rfl, fun _ _ => rfl, rfl, by rw [hc, hnode], hi, htype⟩
      apply (iput_orphan hl (by rw [hnode, hzero])).mono
      intro _ s' hf
      rw [if_pos ⟨rfl, hzero⟩]
      exact hf
    · unfold iput
      apply Total.getThen
      rw [hc]
      dsimp only
      rw [if_neg hfree]
      exact Total.pure (by rw [if_neg hfree])

/-! ## Bytes that are not logged -/

theorem diff_eq_some {d : Disk} {v : Byte} : s.diff sb d i k = some v ↔ k / bsize < maxFile ∧
    ∃ b, s.ptr sb (i, place (k / bsize)) = some b ∧ d b (k % bsize) = v ∧ s.disk b (k % bsize) ≠ v := by
  rw [FsState.diff, Option.ite_none_right_eq_some, Option.bind_eq_some_iff]
  refine and_congr_right fun _ => exists_congr fun b => and_congr_right fun _ => ?_
  rw [Option.ite_none_left_eq_some, Option.some.injEq]
  exact ⟨fun ⟨hne, hv⟩ => ⟨hv, fun h => hne (hv.trans h.symm)⟩, fun ⟨hv, hne⟩ => ⟨fun h => hne (h ▸ hv), hv⟩⟩

theorem pending_eq_some {v : Byte} : s.diff sb s.kept i k = some v ↔ k / bsize < maxFile ∧
    ∃ b, s.ptr sb (i, place (k / bsize)) = some b ∧ b ∉ s.logged ∧ s.saved b (k % bsize) = v ∧
      s.disk b (k % bsize) ≠ v := by
  rw [diff_eq_some]
  refine and_congr_right fun _ => exists_congr fun b => and_congr_right fun _ => ?_
  unfold FsState.kept
  split
  · rename_i hin
    exact ⟨fun ⟨hv, hne⟩ => absurd hv hne, fun ⟨hn, _⟩ => absurd hin hn⟩
  · rename_i hn
    exact ⟨fun hv => ⟨hn, hv⟩, fun hv => hv.2⟩

theorem Tracks.pending {v : Byte} (h : Tracks sb s s') (hv : s'.diff sb s'.kept i k = some v) :
    s.diff sb s.kept i k = some v ∨ s.content sb i k = some v ∧ s'.content sb i k ≠ some v := by
  obtain ⟨hk, b, hb, hn, hsaved, hne⟩ := pending_eq_some.mp hv
  have hold := h.ptr _ b hb hn
  rw [h.saved] at hsaved
  by_cases hsame : s.disk b (k % bsize) = v
  · refine .inr ⟨content_eq_some.mpr ⟨hk, b, hold, hsame⟩, fun hc => ?_⟩
    obtain ⟨-, x, hx, hbyte⟩ := content_eq_some.mp hc
    rw [hb] at hx
    exact hne (Option.some.inj hx ▸ hbyte)
  · exact .inl (pending_eq_some.mpr ⟨hk, b, hold, fun hin => hn (h.logged hin), hsaved, hsame⟩)

theorem Settled.pending {off n : Nat} (h : Settled sb i off n s) (hk : off ≤ k) (hlt : k < off + n) :
    s.diff sb s.kept i k = none := by
  by_contra hne
  obtain ⟨v, hv⟩ := Option.ne_none_iff_exists'.mp hne
  obtain ⟨-, b, hb, hn, -⟩ := pending_eq_some.mp hv
  refine hn (h (k - off) (by omega) b ?_)
  rw [show off + (k - off) = k by omega, hb]

theorem files_byte (h : FsInv sb s) : (s.files sb).byte i k =
    if i < sb.ninodes ∧ (s.inode sb i).type ≠ 0 then
      if k < (s.inode sb i).size.toNat then s.content sb i k else none
    else none := by
  unfold Files.byte FsState.files
  split
  · rename_i hi
    exact getElem?_bytes h hi.1
  · rfl

theorem byte_eq_some {v : Byte} (h : FsInv sb s) (hv : (s.files sb).byte i k = some v) : s.content sb i k = some v := by
  rw [files_byte h, Option.ite_none_right_eq_some, Option.ite_none_right_eq_some] at hv
  exact hv.2.2

theorem FsInv.redisk {d : Disk} (h : FsInv sb s)
    (hd : ∀ b, b < dataStart sb ∨ (∃ j, s.ptr sb (j, .indirect) = some b) → d b = s.disk b) :
    FsInv sb { s with disk := d } ∧ FsState.ptr sb { s with disk := d } = s.ptr sb ∧
      FsState.files sb { s with disk := d } = (s.files sb).revert (s.diff sb d) := by
  have hlow {x : Nat} (hx : x < sb.bmapstart) : d x = s.disk x := hd x (.inl (hx.trans (bmapstart_lt sb)))
  have hnode {j : Nat} (hj : j < sb.ninodes) : FsState.inode sb { s with disk := d } j = s.inode sb j :=
    inode_congr rfl (hlow (iblock_lt hj))
  have hptr (j : Nat) (p : Place) : FsState.ptr sb { s with disk := d } (j, p) = s.ptr sb (j, p) :=
    ptr_congr hnode fun x hx => hd x (.inr ⟨j, hx⟩)
  have hcontent (j k : Nat) : FsState.content sb { s with disk := d } j k =
      (s.content sb j k).map fun v => (s.diff sb d j k).getD v := by
    unfold FsState.content FsState.diff
    rw [hptr]
    split
    · cases s.ptr sb (j, place (k / bsize)) with
      | none => rfl
      | some b =>
        simp only [Option.map_some, Option.bind_some]
        split
        · rename_i heq
          rw [Option.getD_none, heq]
        · rfl
    · rfl
  have hinv : FsInv sb { s with disk := d } := by
    refine ⟨?_, fun j ip hc => ?_, fun j hj ht p => ?_, fun j hj => ?_, fun j hj k hk => ?_⟩
    · exact h.sound.congr (funext fun r => hptr r.1 r.2) fun x hx => inUse_congr (hd _ (.inl (bblock_lt hx)))
    · obtain ⟨hip, ht, hj⟩ := h.cached j ip hc
      exact ⟨hip.trans (dinode_congr (hlow (iblock_lt hj))).symm, ht, hj⟩
    · rw [hnode hj] at ht
      rw [hptr]
      exact h.blank j hj ht p
    · rw [hnode hj]
      exact h.size j hj
    · rw [hnode hj] at hk
      rw [hcontent]
      simpa using h.filled j hj k hk
  refine ⟨hinv, funext fun r => hptr r.1 r.2, funext fun j => ?_⟩
  change _ = (s.files sb j).map _
  by_cases hj : j < sb.ninodes ∧ (s.inode sb j).type ≠ 0
  · have hbytes : FsState.bytes sb { s with disk := d } j =
        (s.bytes sb j).mapIdx fun k v => (s.diff sb d j k).getD v := by
      apply List.ext_getElem?
      intro k
      rw [List.getElem?_mapIdx, getElem?_bytes hinv hj.1, getElem?_bytes h hj.1, hnode hj.1, hcontent]
      split <;> rfl
    rw [files_eq hj.1 hj.2, files_eq hj.1 (by rw [hnode hj.1]; exact hj.2), Option.map_some, FsState.fileOf,
      FsState.fileOf, hnode hj.1, hbytes]
  · have hnone : s.files sb j = none := if_neg hj
    rw [hnone, Option.map_none]
    refine if_neg fun hno => hj ⟨hno.1, ?_⟩
    rw [← hnode hno.1]
    exact hno.2

/-! ## Calls -/

structure Call (sb : SuperBlock) (op : FsOp) (s : FsState) (r : Int × List Byte) (s' : FsState) : Prop where
  inv : FsInv sb s'
  tracks : Tracks sb s s'
  allows : op.Allows sb.ninodes (Full sb s') s.valid (s.files sb) r (s'.files sb)
  valid : s'.valid = op.loads (s'.files sb) s.valid
  settled : ∀ i src off n, op = .writei i src off n → ∃ tot : Nat, r.1 ≤ tot ∧ Settled sb i off.toNat tot s'

theorem Called.valid {s₀ : FsState} (hc : Called sb i s s') (hl : Loaded sb i s₀ s) :
    s'.valid = Function.update s₀.valid i true := by
  funext j
  by_cases hj : j = i
  · subst hj
    rw [Function.update_self]
    exact Option.isSome_iff_ne_none.mpr hc.cached
  · rw [Function.update_of_ne hj, FsState.valid, hc.icache j hj, hl.icache j hj]
    rfl

theorem FsInv.valid (h : FsInv sb s') (hcache : ∀ j, s'.icache j = s.icache j ∨ s'.files sb j = none) :
    s'.valid = fun j => s.valid j && (s'.files sb j).isSome := by
  funext j
  unfold FsState.valid
  cases hc : s'.icache j with
  | none =>
    obtain heq | hnone := hcache j
    · rw [← heq, hc]
      rfl
    · simp [hnone]
  | some ip =>
    obtain ⟨hip, ht, hj⟩ := h.cached j ip hc
    have hfile : s'.files sb j = some (s'.fileOf sb j) := files_eq hj (by rw [h.inode_eq, ← hip]; exact ht)
    obtain heq | hnone := hcache j
    · rw [← heq, hc, hfile]
      rfl
    · rw [hfile] at hnone
      cases hnone

theorem ialloc_call (h : FsInv sb s) {type : BitVec 16} (ht : type ≠ 0) :
    Total ((FsOp.ialloc type).run sb) s (Call sb (.ialloc type) s) := by
  unfold FsOp.run Fs.ialloc
  apply Total.bind
  apply Total.getThen
  split
  · rename_i i hfind
    have hpred := List.find?_some hfind
    have hi := List.mem_range.mp (List.mem_of_find?_eq_some hfind)
    obtain ⟨hpos, h0⟩ : 0 < i ∧ (dinode sb s.disk i).type = 0 := by simpa using hpred
    obtain ⟨hinv, htracks, hnone, hfiles⟩ := ialloc_files h hi h0 ht
    apply Total.modifyThen
    apply Total.pure
    exact Total.pure ⟨hinv, htracks, .inr ⟨i, rfl, hpos, hi, hnone, hfiles⟩, hinv.valid fun _ => .inl rfl, nofun⟩
  · rename_i hfind
    apply Total.pure
    refine Total.pure ⟨h, (Logs.refl s).tracks_of_ptr rfl, .inl ⟨rfl, rfl, fun i hpos hi => ?_⟩,
      h.valid fun _ => .inl rfl, nofun⟩
    have hused := List.find?_eq_none.mp hfind i (List.mem_range.mpr hi)
    have hne : (s.inode sb i).type ≠ 0 := by
      intro h0
      rw [h.inode_eq] at h0
      exact hused (by simpa using ⟨hpos, h0⟩)
    rw [files_eq hi hne]
    simp

theorem iput_call (h : FsInv sb s) (i : Nat) (last : Bool) :
    Total ((FsOp.iput i last).run sb) s (Call sb (.iput i last) s) := by
  apply (iput_files h last).andThen
  intro _ s' hput
  split at hput
  · rename_i hfree
    refine Total.pure ⟨hput.inv, hput.tracks, ?_, hput.inv.valid fun j => ?_, nofun⟩
    · rw [FsOp.Allows, if_pos hfree]
      exact hput.files
    · by_cases hj : j = i
      · subst hj
        exact .inr (by rw [hput.files, Function.update_self])
      · exact .inl (hput.icache j hj)
  · rename_i hkeep
    subst hput
    refine Total.pure ⟨h, (Logs.refl s').tracks_of_ptr rfl, ?_, h.valid fun _ => .inl rfl, nofun⟩
    rw [FsOp.Allows, if_neg hkeep]

theorem recycle_call (h : FsInv sb s) (i : Nat) : Total ((FsOp.recycle i).run sb) s (Call sb (.recycle i) s) := by
  obtain ⟨hinv, hfiles⟩ := forget_files (i := i) h
  have hptr : (s.forget i).ptr sb = s.ptr sb :=
    funext fun r => ptr_congr (fun _ => inode_forget (h.inode_eq i).symm) fun _ _ => rfl
  apply Total.modifyThen
  refine Total.pure ⟨hinv, (Logs.forget ..).tracks_of_ptr hptr, hfiles, ?_, nofun⟩
  funext j
  by_cases hj : j = i
  · subst hj
    rw [FsState.valid, icache_forget, FsOp.loads, Function.update_self]
    rfl
  · rw [FsState.valid, icache_forget_ne hj, FsOp.loads, Function.update_of_ne hj]
    rfl

/-- Every call on allocated inodes returns and does what the file store allows. -/
theorem call_total (h : FsInv sb s) (op : FsOp) (hop : op.Valid (s.files sb)) :
    Total (op.run sb) s (Call sb op s) := by
  cases op with
  | ialloc type => exact ialloc_call h hop
  | readi i ok off n =>
    apply (ilock_total h hop).andThen
    intro _ t hl
    apply (readi_total hl ok off n).mono
    rintro r s' ⟨rfl, hr⟩
    exact ⟨hl.inv, hl.tracks, ⟨hl.files, _, hl.file, hr⟩, hl.called.valid hl, nofun⟩
  | writei i src off n =>
    apply (ilock_total h hop).andThen
    intro _ t hl
    apply (writei_total hl src off n).andThen
    rintro r s' ⟨hcall, ⟨tot, htot, hset⟩, f', hw, hfiles⟩
    rw [hl.files] at hfiles
    refine Total.pure ⟨hcall.inv, hl.tracks.trans hcall.tracks, ⟨_, f', hl.file, hw, hfiles⟩, hcall.valid hl, ?_⟩
    rintro _ _ _ _ ⟨⟩
    exact ⟨tot, by omega, hset⟩
  | itrunc i =>
    apply (ilock_total h hop).andThen
    intro _ t hl
    apply (itrunc_files hl).andThen
    rintro _ s' ⟨hcall, hfiles⟩
    rw [hl.files] at hfiles
    exact Total.pure ⟨hcall.inv, hl.tracks.trans hcall.tracks, ⟨_, hl.file, hfiles⟩, hcall.valid hl, nofun⟩
  | setAttrs i major minor nlink =>
    apply (ilock_total h hop).andThen
    intro _ t hl
    obtain ⟨hcall, hfiles⟩ := setAttrs_files hl major minor nlink rfl
    rw [hl.files] at hfiles
    apply Total.getThen
    apply Total.modifyThen
    apply (iupdate_total ..).andThen
    rintro _ s' rfl
    exact Total.pure ⟨hcall.inv, hl.tracks.trans hcall.tracks, ⟨_, hl.file, hfiles⟩, hcall.valid hl, nofun⟩
  | iput i last => exact iput_call h i last
  | recycle i => exact recycle_call h i

end

end Fs

end OsLab
