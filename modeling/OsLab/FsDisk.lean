import OsLab.Fs
import OsLab.Refs

/-!
# The layout of the disk

Bits of the bitmap, inodes in their blocks, and the blocks that the inodes point
to. A block that is in use lies behind the bitmap, so writing it changes neither a
bit nor an inode.
-/

namespace OsLab

namespace Fs

/-! ## Bits -/

section
variable {d : Block} {x y : Nat}

theorem mask_bit : (1#8 <<< (x % 8)).getLsbD (y % 8) = decide (x % 8 = y % 8) := by
  have hmask : (1#8 <<< (x % 8)).getLsbD (y % 8) = (decide (x % 8 < 8) && decide (x % 8 = y % 8)) :=
    BitVec.getLsbD_twoPow ..
  rw [hmask, decide_eq_true (Nat.mod_lt _ (by decide)), Bool.true_and]

theorem bit_eq : bit d x = (d (x / 8)).getLsbD (x % 8) := by
  have hand : d (x / 8) &&& (1#8 <<< (x % 8)) = if (d (x / 8)).getLsbD (x % 8) then 1#8 <<< (x % 8) else 0 :=
    BitVec.and_twoPow ..
  have hne : (1#8 <<< (x % 8)) ≠ 0#8 := by
    intro h0
    have hbit := mask_bit (x := x) (y := x)
    rw [h0] at hbit
    simp at hbit
  rw [bit, hand]
  cases (d (x / 8)).getLsbD (x % 8) <;> simp [hne]

theorem bit_update {v : Byte} : bit (Function.update d (x / 8) v) y =
    if y / 8 = x / 8 then v.getLsbD (y % 8) else bit d y := by
  rw [bit_eq, bit_eq, Function.update_apply]
  split <;> rfl

theorem bit_setBit : bit (setBit d x) y = (bit d y || decide (x = y)) := by
  rw [setBit, bit_update]
  split
  · rename_i hdiv
    rw [BitVec.getLsbD_or, mask_bit, bit_eq, hdiv]
    congr 2
    exact propext ⟨fun hmod => by omega, fun heq => by rw [heq]⟩
  · have hne : x ≠ y := by
      rintro rfl
      contradiction
    simp [hne]

theorem bit_clearBit : bit (clearBit d x) y = (bit d y && decide (x ≠ y)) := by
  rw [clearBit, bit_update]
  split
  · rename_i hdiv
    have hlt : y % 8 < 8 := Nat.mod_lt _ (by decide)
    rw [BitVec.getLsbD_and, BitVec.getLsbD_not, mask_bit, bit_eq, hdiv, decide_eq_true hlt, Bool.true_and,
      ← decide_not]
    congr 2
    exact propext ⟨fun hmod heq => hmod (by rw [heq]), fun hne hmod => by omega⟩
  · have hne : x ≠ y := by
      rintro rfl
      contradiction
    simp [hne]

end

/-! ## Inodes in their blocks -/

section
variable {ip : Inode} {d : Block} {w v : Nat}

theorem lo_pair (l h : BitVec 16) : lo (pair l h) = l := by
  apply BitVec.eq_of_getLsbD_eq
  intro k hk
  simp [lo, pair, hk]

theorem hi_pair (l h : BitVec 16) : hi (pair l h) = h := by
  apply BitVec.eq_of_getLsbD_eq
  intro k hk
  have h1 : 16 + k < 32 := by omega
  have h2 : k < 32 := by omega
  simp [hi, pair, hk, h1, h2]

theorem length_encode : (encode ip).length = 16 := by simp [encode]

theorem encode_direct (k : Fin 12) : (encode ip)[3 + k.val]? = some (ip.direct k) := by
  have hk := k.isLt
  have hlen : (List.ofFn ip.direct).length = 12 := List.length_ofFn
  rw [encode, List.getElem?_append_left (by simp only [List.length_append, hlen, List.length_cons]; omega),
    List.getElem?_append_right (by simp), List.getElem?_ofFn]
  simp

theorem decode_encode : decode (d.setWords w (encode ip)) w = ip := by
  have h0 : (d.setWords w (encode ip)).word w = pair ip.type ip.major :=
    Block.word_setWords (k := 0) rfl
  have h1 : (d.setWords w (encode ip)).word (w + 1) = pair ip.minor ip.nlink := Block.word_setWords rfl
  have h2 : (d.setWords w (encode ip)).word (w + 2) = ip.size := Block.word_setWords rfl
  have h15 : (d.setWords w (encode ip)).word (w + 15) = ip.indirect := by
    apply Block.word_setWords
    simp [encode]
  have hdirect : (fun k : Fin 12 => (d.setWords w (encode ip)).word (w + (3 + k))) = ip.direct := by
    funext k
    exact Block.word_setWords (encode_direct k)
  rw [decode, h0, h1, h2, h15, hdirect, lo_pair, hi_pair, lo_pair, hi_pair]

theorem decode_other (h : v + 16 ≤ w ∨ w + 16 ≤ v) :
    decode (d.setWords w (encode ip)) v = decode d v := by
  have hword (k : Nat) (hk : k < 16) : (d.setWords w (encode ip)).word (v + k) = d.word (v + k) := by
    obtain h | h := h
    · exact Block.word_setWords_before (by omega)
    · exact Block.word_setWords_after (by rw [length_encode]; omega)
  have h0 : (d.setWords w (encode ip)).word v = d.word v := hword 0 (by decide)
  have hdirect : (fun k : Fin 12 => (d.setWords w (encode ip)).word (v + (3 + k))) =
      fun k : Fin 12 => d.word (v + (3 + k)) := by
    funext k
    exact hword _ (by omega)
  rw [decode, decode, h0, hword 1 (by decide), hword 2 (by decide), hword 15 (by decide), hdirect]

end

/-! ## The regions of the disk -/

section
variable (sb : SuperBlock)

def dataStart : Nat := sb.bmapstart + sb.size / bpb + 1

def inUse (s : FsState) (b : Nat) : Bool := bit (s.disk (bblock sb b)) (b % bpb)

def used (s : FsState) : Set Nat := {b | dataStart sb ≤ b ∧ b < sb.size ∧ inUse sb s b = true}

variable {sb} {s : FsState} {d : Block} {ip : Inode} {i j b x : Nat}

theorem iblock_lt (hi : i < sb.ninodes) : iblock sb i < sb.bmapstart := by
  have hdiv : i / ipb ≤ sb.ninodes / ipb := Nat.div_le_div_right (by omega)
  have := sb.inodes_before_bitmap
  rw [iblock]
  omega

theorem le_bblock (sb : SuperBlock) (b : Nat) : sb.bmapstart ≤ bblock sb b := Nat.le_add_left ..

theorem bblock_lt (hb : b < sb.size) : bblock sb b < dataStart sb := by
  have hdiv : b / bpb ≤ sb.size / bpb := Nat.div_le_div_right (by omega)
  rw [bblock, dataStart]
  omega

theorem bmapstart_lt (sb : SuperBlock) : sb.bmapstart < dataStart sb :=
  Nat.lt_succ_of_le (Nat.le_add_right ..)

theorem bblock_ne (hb : b < sb.size) (hx : dataStart sb ≤ x) : bblock sb b ≠ x := by
  have := bblock_lt hb
  omega

theorem putBlock_disk : (s.putBlock b d).disk x = if x = b then d else s.disk x :=
  Function.update_apply ..

theorem putBlock_of_ne (h : x ≠ b) : (s.putBlock b d).disk x = s.disk x := by
  rw [putBlock_disk, if_neg h]

theorem dinode_congr {disk disk' : Disk} (h : disk' (iblock sb i) = disk (iblock sb i)) :
    dinode sb disk' i = dinode sb disk i := by
  rw [dinode, dinode, h]

theorem inode_congr {s' : FsState} (hc : s'.icache i = s.icache i)
    (hd : s'.disk (iblock sb i) = s.disk (iblock sb i)) : s'.inode sb i = s.inode sb i := by
  rw [FsState.inode, FsState.inode, hc, dinode_congr hd]

theorem inode_putBlock (hi : i < sb.ninodes) (hb : sb.bmapstart ≤ b) :
    (s.putBlock b d).inode sb i = s.inode sb i := by
  have := iblock_lt hi
  exact inode_congr rfl (putBlock_of_ne (by omega))

theorem inode_putInode : (s.putInode i ip).inode sb i = ip := by
  simp [FsState.inode, FsState.putInode]

theorem inode_putInode_ne (h : j ≠ i) : (s.putInode i ip).inode sb j = s.inode sb j := by
  refine inode_congr ?_ rfl
  exact Function.update_of_ne h ..

theorem icache_putInode : (s.putInode i ip).icache i = some ip := Function.update_self ..

theorem icache_putInode_ne (h : j ≠ i) : (s.putInode i ip).icache j = s.icache j :=
  Function.update_of_ne h ..

def FsState.putDinode (sb : SuperBlock) (s : FsState) (i : Nat) (ip : Inode) : FsState :=
  s.putBlock (iblock sb i) ((s.disk (iblock sb i)).setWords (16 * (i % ipb)) (encode ip))

theorem dinode_putDinode : dinode sb (s.putDinode sb i ip).disk i = ip := by
  rw [dinode, FsState.putDinode, putBlock_disk, if_pos rfl, decode_encode]

theorem dinode_putDinode_ne (h : j ≠ i) :
    dinode sb (s.putDinode sb i ip).disk j = dinode sb s.disk j := by
  rw [dinode, FsState.putDinode, putBlock_disk]
  split
  · rename_i hblock
    have hdiv : j / 16 = i / 16 := Nat.add_right_cancel hblock
    rw [dinode, hblock]
    have hmod : j % ipb ≠ i % ipb := by rw [ipb]; omega
    exact decode_other (by omega)
  · rfl

theorem putDinode_disk (hi : i < sb.ninodes) (hx : sb.bmapstart ≤ x) :
    (s.putDinode sb i ip).disk x = s.disk x := by
  have := iblock_lt hi
  exact putBlock_of_ne (by omega)

theorem inUse_congr {s' : FsState} (h : s'.disk (bblock sb b) = s.disk (bblock sb b)) :
    inUse sb s' b = inUse sb s b := by
  rw [inUse, inUse, h]

theorem inUse_putBlock (hb : b < sb.size) (hx : dataStart sb ≤ x) :
    inUse sb (s.putBlock x d) b = inUse sb s b :=
  inUse_congr (putBlock_of_ne (bblock_ne hb hx))

theorem bit_index (h : bblock sb x = bblock sb b) : x % bpb = b % bpb ↔ x = b := by
  have hdiv : x / bpb = b / bpb := Nat.add_right_cancel h
  rw [bpb] at *
  omega

theorem inUse_setBit :
    inUse sb (s.putBlock (bblock sb b) (setBit (s.disk (bblock sb b)) (b % bpb))) x =
      (inUse sb s x || decide (b = x)) := by
  rw [inUse, putBlock_disk]
  split
  · rename_i hblock
    rw [bit_setBit, inUse, hblock]
    congr 2
    exact propext (eq_comm.trans ((bit_index hblock).trans eq_comm))
  · have hne : b ≠ x := by
      rintro rfl
      contradiction
    simp [hne, inUse]

theorem inUse_clearBit :
    inUse sb (s.putBlock (bblock sb b) (clearBit (s.disk (bblock sb b)) (b % bpb))) x =
      (inUse sb s x && decide (b ≠ x)) := by
  rw [inUse, putBlock_disk]
  split
  · rename_i hblock
    rw [bit_clearBit, inUse, hblock]
    congr 2
    exact propext (not_congr (eq_comm.trans ((bit_index hblock).trans eq_comm)))
  · have hne : b ≠ x := by
      rintro rfl
      contradiction
    simp [hne, inUse]

end

/-! ## The blocks of an inode -/

inductive Place where
  | direct (k : Fin 12)
  | indirect
  | entry (k : Fin 256)
  deriving DecidableEq

def blockNo (disk : Disk) (ip : Inode) : Place → Nat
  | .direct k => (ip.direct k).toNat
  | .indirect => ip.indirect.toNat
  | .entry k => if ip.indirect = 0 then 0 else ((disk ip.indirect.toNat).word k).toNat

def place (bn : Nat) : Place :=
  if h : bn < 12 then .direct ⟨bn, h⟩ else .entry ⟨(bn - ndirect) % 256, Nat.mod_lt _ (by decide)⟩

theorem place_ne_indirect (bn : Nat) : place bn ≠ .indirect := by
  unfold place
  split <;> simp

theorem place_inj {m n : Nat} (hm : m < maxFile) (hn : n < maxFile) (h : place m = place n) : m = n := by
  unfold place at h
  unfold maxFile ndirect nindirect at hm hn
  split at h <;> split at h <;> simp [ndirect] at h <;> omega

def nonzero (b : Nat) : Option Nat := if b = 0 then none else some b

section
variable (sb : SuperBlock)

def FsState.ptr (s : FsState) (r : Nat × Place) : Option Nat :=
  if r.1 < sb.ninodes then nonzero (blockNo s.disk (s.inode sb r.1) r.2) else none

def FsState.content (s : FsState) (j k : Nat) : Option Byte :=
  if k / bsize < maxFile then (s.ptr sb (j, place (k / bsize))).map fun b => s.disk b (k % bsize)
  else none

variable {sb} {s s' : FsState} {i j b : Nat} {p : Place}

theorem nonzero_eq_some {n : Nat} : nonzero n = some b ↔ b ≠ 0 ∧ n = b := by
  unfold nonzero
  split
  · simp_all
    intro hb h0
    exact hb h0.symm
  · simp_all
    rintro rfl
    assumption

theorem nonzero_eq_none {n : Nat} : nonzero n = none ↔ n = 0 := by simp [nonzero]

theorem ptr_eq (hj : j < sb.ninodes) : s.ptr sb (j, p) = nonzero (blockNo s.disk (s.inode sb j) p) :=
  if_pos hj

theorem ptr_eq_some : s.ptr sb (j, p) = some b ↔
    j < sb.ninodes ∧ b ≠ 0 ∧ blockNo s.disk (s.inode sb j) p = b := by
  rw [FsState.ptr, Option.ite_none_right_eq_some, nonzero_eq_some]

theorem ptr_eq_none (hj : j < sb.ninodes) :
    s.ptr sb (j, p) = none ↔ blockNo s.disk (s.inode sb j) p = 0 := by
  rw [ptr_eq hj, nonzero_eq_none]

theorem ptr_congr (hnode : j < sb.ninodes → s'.inode sb j = s.inode sb j)
    (hdisk : ∀ x, s.ptr sb (j, .indirect) = some x → s'.disk x = s.disk x) :
    s'.ptr sb (j, p) = s.ptr sb (j, p) := by
  by_cases hj : j < sb.ninodes
  · have hno : blockNo s'.disk (s'.inode sb j) p = blockNo s.disk (s.inode sb j) p := by
      rw [hnode hj]
      cases p with
      | direct k => rfl
      | indirect => rfl
      | entry k =>
        by_cases hind : (s.inode sb j).indirect = 0
        · simp [blockNo, hind]
        · have hne : (s.inode sb j).indirect.toNat ≠ 0 := by simpa [BitVec.toNat_eq] using hind
          have hblock := hdisk (s.inode sb j).indirect.toNat (ptr_eq_some.mpr ⟨hj, hne, rfl⟩)
          simp [blockNo, hblock]
    rw [FsState.ptr, FsState.ptr, hno]
  · rw [FsState.ptr, FsState.ptr, if_neg hj, if_neg hj]

theorem content_congr (hptr : ∀ p, s'.ptr sb (j, p) = s.ptr sb (j, p))
    (hdisk : ∀ p x, p ≠ .indirect → s.ptr sb (j, p) = some x → s'.disk x = s.disk x) :
    s'.content sb j = s.content sb j := by
  funext k
  rw [FsState.content, FsState.content, hptr]
  cases hx : s.ptr sb (j, place (k / bsize)) with
  | none => rfl
  | some x => rw [Option.map_some, Option.map_some, hdisk _ x (place_ne_indirect _) hx]

theorem content_eq_some {k : Nat} {v : Byte} : s.content sb j k = some v ↔
    k / bsize < maxFile ∧ ∃ b, s.ptr sb (j, place (k / bsize)) = some b ∧ s.disk b (k % bsize) = v := by
  rw [FsState.content, Option.ite_none_right_eq_some, Option.map_eq_some_iff]

end

end Fs

end OsLab
