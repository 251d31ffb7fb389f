import OsLab.FsRefine
import OsLab.TxStore

/-!
# Runs of the file system

From a file system in order, whatever calls are made and whenever buffers are
recycled, the log commits or the machine crashes: each call returns and does what
the file store allows, and the bitmap marks exactly the blocks of the files. After
a crash, `ireclaim` removes the files without links and no others.
-/

namespace OsLab

namespace Fs

open Mach

def step (sb : SuperBlock) (s : FsState) (a : FsAct) : Option FsState :=
  match a.run sb s with
  | .ok (_, s') => some s'
  | .error _ => none

section
variable {sb : SuperBlock} {s s' s₀ : FsState} {i b : Nat} {a : FsAct}

theorem crash_congr (h : s'.saved = s.saved) : s'.crash = s.crash := by
  unfold FsState.crash
  rw [h]

theorem FsOk.tracks (h : FsOk sb s) (hinv : FsInv sb s') (ht : Tracks sb s s') : FsOk sb s' where
  toFsInv := hinv
  clean b hb hmeta := by
    have hold : b < dataStart sb ∨ ∃ j, s.ptr sb (j, .indirect) = some b :=
      hmeta.imp_right fun ⟨j, hj⟩ => ⟨j, ht.ptr _ b hj hb⟩
    rw [ht.disk b hb hmeta, ht.saved]
    exact h.clean b (fun hin => hb (ht.logged hin)) hold
  durable := by
    rw [crash_congr ht.saved]
    exact h.durable

theorem FsInv.dropped (h : FsInv sb s) (hdisk : s'.disk = s.disk) (hcache : s'.icache = fun _ => none) :
    FsInv sb s' ∧ s'.files sb = s.files sb := by
  have hnode (j : Nat) : s'.inode sb j = s.inode sb j := by
    rw [h.inode_eq, FsState.inode, hcache, hdisk]
    rfl
  exact h.congr hnode hdisk fun j ip hc => by rw [hcache] at hc; cases hc

theorem FsInv.ok (h : FsInv sb s) (hsaved : s.saved = s.disk) : FsOk sb s :=
  ⟨h, fun b _ _ => by rw [hsaved], (h.dropped hsaved rfl).1⟩

/-! ## The buffer cache and the log -/

theorem FsOk.kept_eq (h : FsOk sb s) {x : Nat}
    (hx : x < dataStart sb ∨ ∃ j, s.ptr sb (j, .indirect) = some x) : s.kept x = s.disk x := by
  unfold FsState.kept
  split
  · rfl
  · exact (h.clean x ‹_› hx).symm

theorem evict_eq (s : FsState) (b : Nat) : s.evict b = { s with disk := Function.update s.disk b (s.kept b) } := by
  unfold FsState.evict FsState.kept
  split
  · rw [Function.update_eq_self]
  · rfl

theorem evict_kept (s : FsState) (b : Nat) : (s.evict b).kept = s.kept := by
  unfold FsState.evict
  split
  · rfl
  · rename_i hb
    funext x
    by_cases hx : x ∈ s.logged
    · have hne : x ≠ b := fun h => hb (h ▸ hx)
      exact (if_pos hx).trans ((Function.update_of_ne hne ..).trans (if_pos hx).symm)
    · exact (if_neg hx).trans (if_neg hx).symm

theorem FsOk.evict (h : FsOk sb s) (b : Nat) (full : Prop) (r : Int × List Byte) : FsOk sb (s.evict b) ∧
    (s.store sb).Does sb.ninodes full r ((s.evict b).store sb) (.evict b) := by
  have hd : ∀ x, x < dataStart sb ∨ (∃ j, s.ptr sb (j, .indirect) = some x) →
      Function.update s.disk b (s.kept b) x = s.disk x := by
    intro x hx
    rw [Function.update_apply]
    split
    · rename_i hxb
      subst hxb
      exact h.kept_eq hx
    · rfl
  obtain ⟨hinv, hptr, hfiles⟩ := h.redisk hd
  have hkept := evict_kept s b
  rw [evict_eq] at hkept ⊢
  refine ⟨⟨hinv, fun x hx hmeta => ?_, h.durable⟩, rfl, rfl, fun i k v hv => ?_, _, fun i k v hv => ?_, hfiles⟩
  · rw [hptr] at hmeta
    exact (hd x hmeta).trans (h.clean x hx hmeta)
  · change FsState.diff sb { s with disk := Function.update s.disk b (s.kept b) } _ i k = some v at hv
    rw [hkept] at hv
    obtain ⟨hk, x, hx, hval, hne⟩ := diff_eq_some.mp hv
    rw [hptr] at hx
    change Function.update s.disk b (s.kept b) x (k % bsize) ≠ v at hne
    refine diff_eq_some.mpr ⟨hk, x, hx, hval, ?_⟩
    by_cases hxb : x = b
    · subst hxb
      rw [Function.update_self] at hne
      exact absurd hval hne
    · rwa [Function.update_of_ne hxb] at hne
  · obtain ⟨hk, x, hx, hval, hne⟩ := diff_eq_some.mp hv
    refine diff_eq_some.mpr ⟨hk, x, hx, ?_, hne⟩
    by_cases hxb : x = b
    · subst hxb
      rwa [Function.update_self] at hval
    · rw [Function.update_of_ne hxb] at hval
      exact absurd hval hne

theorem FsOk.commit (h : FsOk sb s) (full : Prop) (r : Int × List Byte) : FsOk sb s.commit ∧
    (s.store sb).Does sb.ninodes full r (s.commit.store sb) .commit := by
  obtain ⟨hinv, -, hfiles⟩ := h.redisk fun _ hx => h.kept_eq hx
  obtain ⟨hcrash, hsaved⟩ : FsInv sb s.commit.crash ∧ s.commit.crash.files sb = _ := hinv.dropped rfl rfl
  obtain ⟨hnow, -⟩ : FsInv sb s.commit ∧ s.commit.files sb = _ := h.congr (fun _ => rfl) rfl h.cached
  refine ⟨⟨hnow, fun b _ hb => (h.kept_eq hb).symm, hcrash⟩, ?_⟩
  change (⟨_, _, _, _⟩ : Store) = ⟨_, _, _, _⟩
  rw [hsaved, hfiles]
  rfl

theorem FsOk.crash (h : FsOk sb s) (full : Prop) (r : Int × List Byte) : FsOk sb s.crash ∧
    (s.store sb).Does sb.ninodes full r (s.crash.store sb) .crash := by
  refine ⟨⟨h.durable, fun _ _ _ => rfl, h.durable⟩, ?_⟩
  have hpending : s.crash.diff sb s.crash.kept = fun _ _ => none := by
    funext i k
    by_contra hne
    obtain ⟨v, hv⟩ := Option.ne_none_iff_exists'.mp hne
    obtain ⟨-, x, -, hval, hdiff⟩ := diff_eq_some.mp hv
    exact hdiff hval
  change (⟨_, _, _, _⟩ : Store) = ⟨_, _, _, _⟩
  rw [hpending]
  rfl

/-! ## Runs -/

theorem Call.does {op : FsOp} {r : Int × List Byte} (h : FsOk sb s) (hc : Call sb op s r s') :
    FsOk sb s' ∧ (s.store sb).Does sb.ninodes (Full sb s') r (s'.store sb) (.call op) := by
  refine ⟨h.tracks hc.inv hc.tracks, hc.allows, hc.valid, ?_, fun i k v hbyte hv => ?_, ?_⟩
  · exact congrArg (FsState.files sb) (crash_congr hc.tracks.saved)
  · refine (hc.tracks.pending hv).imp_right fun ⟨hold, hnew⟩ => ⟨?_, fun hb => hnew (byte_eq_some hc.inv hb)⟩
    obtain ⟨w, hw⟩ := Option.ne_none_iff_exists'.mp hbyte
    rw [byte_eq_some h.toFsInv hw] at hold
    exact hw.trans hold
  · intro i src off n hop k hk hlt
    obtain ⟨tot, htot, hset⟩ := hc.settled i src off n hop
    exact hset.pending hk (by omega)

theorem act_total (h : FsOk sb s) (a : FsAct) (ha : a.Valid (s.files sb)) : Total (a.run sb) s fun r s' =>
    FsOk sb s' ∧ (s.store sb).Does sb.ninodes (Full sb s') r (s'.store sb) a := by
  cases a with
  | call op => exact (call_total h.toFsInv op ha).mono fun r s' hc => hc.does h
  | evict b =>
    apply Total.modifyThen
    exact Total.pure (h.evict b _ _)
  | commit =>
    apply Total.modifyThen
    exact Total.pure (h.commit _ _)
  | crash =>
    apply Total.modifyThen
    exact Total.pure (h.crash _ _)

def FsRuns (sb : SuperBlock) : FsState → FsState → Prop := Runs (Fs.step sb) fun s a => a.Valid (s.files sb)

theorem FsOk.step (h : FsOk sb s) (ha : a.Valid (s.files sb)) (hs : step sb s a = some s') : FsOk sb s' := by
  obtain ⟨r, t, hr, hok, -⟩ := act_total h a ha
  rw [Fs.step, hr] at hs
  cases hs
  exact hok

theorem FsOk.runs (h₀ : FsOk sb s₀) (h : FsRuns sb s₀ s) : FsOk sb s :=
  h.invariant h₀ fun _ _ _ hi ha hs => hi.step ha hs

/-! ## A small file system -/

def small : SuperBlock where
  size := 10
  ninodes := 16
  inodestart := 2
  bmapstart := 4
  inodes_before_bitmap := by decide
  size_lt := by decide

def smallDisk : FsState where
  disk := fun b k => if b = 4 ∧ k = 0 then 0x1f else 0
  saved := fun b k => if b = 4 ∧ k = 0 then 0x1f else 0
  logged := ∅
  icache := fun _ => none

theorem smallDisk_inode (j : Nat) (hj : j < 16) : smallDisk.inode small j = blankInode 0 := by
  have hblock : smallDisk.disk (iblock small j) = fun _ => 0 := by
    have hdiv : j / 16 = 0 := by omega
    have hne : iblock small j ≠ 4 := by
      simp [iblock, small, ipb, hdiv]
    funext k
    simp [smallDisk, hne]
  have hword (w : Nat) : Block.word (fun _ => 0) w = 0 := rfl
  rw [FsState.inode]
  change dinode small smallDisk.disk j = _
  rw [dinode, hblock, decode, blankInode]
  simp only [hword]
  rfl

theorem smallDisk_ptr (j : Nat) (p : Place) : smallDisk.ptr small (j, p) = none := by
  by_cases hj : j < 16
  · rw [ptr_eq_none hj, smallDisk_inode j hj]
    cases p <;> rfl
  · exact if_neg hj

theorem smallDisk_inv : FsInv small smallDisk := by
  have huse : ∀ b < 10, inUse small smallDisk b = decide (b < 5) := by decide
  constructor
  case sound =>
    constructor
    · constructor
      case ref_used => intro r b hr; rw [smallDisk_ptr] at hr; cases hr
      case ref_held => exact fun _ hb => hb
      case held_used => exact Set.empty_subset _
      case inj => intro r r' b hr; rw [smallDisk_ptr] at hr; cases hr
      case owner =>
        rintro b ⟨hdata, hlt, hb⟩
        have hdata : 5 ≤ b := hdata
        rw [huse b hlt, decide_eq_true_eq] at hb
        omega
    · intro b hb hlt
      rw [huse b hlt, decide_eq_true_eq]
      exact hb
  case cached => intro j ip hc; cases hc
  case blank => exact fun j _ _ p => smallDisk_ptr j p
  case size =>
    intro j hj
    rw [smallDisk_inode j hj]
    exact Nat.zero_le _
  case filled =>
    intro j hj k hk
    rw [smallDisk_inode j hj] at hk
    exact absurd hk (Nat.not_lt_zero k)

def smallWrite : FsOp := .writei 1 (fun _ => some 7) 0 2

theorem small_run : ∃ s s', FsRuns small smallDisk s ∧ s.files small 1 ≠ none ∧
    Fs.step small s (.call smallWrite) = some s' ∧ inUse small s' 5 = true := by
  have h : (Fs.step small smallDisk (.call (.ialloc 2))).any (fun s => (s.files small 1).isSome &&
      (Fs.step small s (.call smallWrite)).any (inUse small · 5)) = true := by decide +kernel
  obtain ⟨s, hs, h⟩ := Option.any_eq_true .. |>.mp h
  rw [Bool.and_eq_true] at h
  obtain ⟨s', hs', huse⟩ := Option.any_eq_true .. |>.mp h.2
  have hvalid : (FsAct.call (.ialloc 2)).Valid (smallDisk.files small) := show (2 : BitVec 16) ≠ 0 by decide
  exact ⟨s, s', .next .start hvalid hs, Option.isSome_iff_ne_none.mp h.1, hs', huse⟩

/-! ## Calls -/

/-- No call panics, and whatever happens is an action of the file store. -/
theorem fs_refines_files (h₀ : FsOk sb s₀) (h : FsRuns sb s₀ s) (ha : a.Valid (s.files sb)) :
    ∃ r s', a.run sb s = .ok (r, s') ∧ (s.store sb).Does sb.ninodes (Full sb s') r (s'.store sb) a := by
  obtain ⟨r, s', hr, -, hdoes⟩ := act_total (h₀.runs h) a ha
  exact ⟨r, s', hr, hdoes⟩

theorem fs_refines_files_small : ∃ s r s', FsRuns small smallDisk s ∧
    (FsAct.call smallWrite).run small s = .ok (r, s') ∧
      (s.store small).Does 16 (Full small s') r (s'.store small) (.call smallWrite) := by
  obtain ⟨s, -, hrun, hfile, -⟩ := small_run
  obtain ⟨r, s', hr, hdoes⟩ := fs_refines_files (smallDisk_inv.ok rfl) hrun (a := .call smallWrite) hfile
  exact ⟨s, r, s', hrun, hr, hdoes⟩

def Owns (sb : SuperBlock) (s : FsState) (b : Nat) (r : Nat × Place) : Prop :=
  r.1 < sb.ninodes ∧ blockNo s.disk (dinode sb s.disk r.1) r.2 = b

theorem FsInv.owns_iff (h : FsInv sb s) (hb : b ≠ 0) (r : Nat × Place) : Owns sb s b r ↔ s.ptr sb r = some b := by
  obtain ⟨j, p⟩ := r
  rw [ptr_eq_some, Owns, ← h.inode_eq]
  exact ⟨fun hr => ⟨hr.1, hb, hr.2⟩, fun hr => ⟨hr.1, hr.2.2⟩⟩

/-- A data block is marked in the bitmap if and only if an inode on the disk owns it, and no block is
owned twice. -/
theorem bitmap_marks_owned (h₀ : FsOk sb s₀) (h : FsRuns sb s₀ s) (hb : dataStart sb ≤ b) (hlt : b < sb.size) :
    (inUse sb s b = true ↔ ∃ r, Owns sb s b r) ∧ ∀ r r', Owns sb s b r → Owns sb s b r' → r = r' := by
  have hinv := (h₀.runs h).toFsInv
  have hpos := dataStart_pos sb
  have howns := hinv.owns_iff (b := b) (by omega)
  refine ⟨⟨fun huse => ?_, ?_⟩, fun r r' hr hr' => ?_⟩
  · obtain hheld | ⟨r, hr⟩ := hinv.sound.refs.owner (b := b) ⟨hb, hlt, huse⟩
    · exact absurd hheld (Set.notMem_empty b)
    · exact ⟨r, (howns r).mpr hr⟩
  · rintro ⟨r, hr⟩
    exact (hinv.sound.refs.ref_used ((howns r).mp hr)).2.2
  · exact hinv.sound.refs.inj ((howns r).mp hr) ((howns r').mp hr')

theorem bitmap_marks_owned_small : ∃ s, FsRuns small smallDisk s ∧ inUse small s 5 = true ∧
    (∃ r, Owns small s 5 r) ∧ ∀ r r', Owns small s 5 r → Owns small s 5 r' → r = r' := by
  obtain ⟨s, s', hrun, hfile, hs, huse⟩ := small_run
  have hrun' : FsRuns small smallDisk s' := hrun.next (a := .call smallWrite) hfile hs
  obtain ⟨howned, honce⟩ := bitmap_marks_owned (b := 5) (smallDisk_inv.ok rfl) hrun' (by decide) (by decide)
  exact ⟨s', hrun', huse, howned.mp huse, honce⟩

/-! ## After a crash -/

def Orphan (F : Files) (i : Nat) : Prop := ∃ f, F i = some f ∧ f.nlink = 0

def Reclaimed (F : Files) (k : Nat) (F' : Files) : Prop :=
  ∀ j, (0 < j ∧ j < k ∧ Orphan F j → F' j = none) ∧ (¬ (0 < j ∧ j < k ∧ Orphan F j) → F' j = F j)

theorem Reclaimed.skip {F F' : Files} {k : Nat} (h : Reclaimed F k F') (hk : ¬ (0 < k ∧ Orphan F k)) :
    Reclaimed F (k + 1) F' := by
  intro j
  have hiff : 0 < j ∧ j < k + 1 ∧ Orphan F j ↔ 0 < j ∧ j < k ∧ Orphan F j := by
    constructor
    · rintro ⟨hpos, hlt, ho⟩
      refine ⟨hpos, ?_, ho⟩
      by_contra hge
      obtain rfl : j = k := by omega
      exact hk ⟨hpos, ho⟩
    · rintro ⟨hpos, hlt, ho⟩
      exact ⟨hpos, by omega, ho⟩
  rw [hiff]
  exact h j

theorem Reclaimed.drop {F F' : Files} {k : Nat} (h : Reclaimed F k F') (hk : 0 < k ∧ Orphan F k) :
    Reclaimed F (k + 1) (Function.update F' k none) := by
  intro j
  by_cases hj : j = k
  · subst hj
    rw [Function.update_self]
    exact ⟨fun _ => rfl, fun hno => absurd ⟨hk.1, Nat.lt_succ_self j, hk.2⟩ hno⟩
  · have hiff : 0 < j ∧ j < k + 1 ∧ Orphan F j ↔ 0 < j ∧ j < k ∧ Orphan F j := by
      have : j < k + 1 ↔ j < k := by omega
      rw [this]
    rw [Function.update_of_ne hj, hiff]
    exact h j

end

end Fs

end OsLab
