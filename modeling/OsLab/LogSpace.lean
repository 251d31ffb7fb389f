import OsLab.LogCrash
import Mathlib.Algebra.Order.BigOperators.Group.Finset

/-!
# The log has room

`begin_op` lets an operation in if the log has room for `MAXOPBLOCKS` blocks of each.
Whatever the interleaving, an operation that writes fewer different blocks finds room,
and none of the panics of `log.c` happens.
-/

namespace OsLab

namespace Log

open Sys

def written (i : Slot) (l : List TxAct) : Finset Nat :=
  l.foldl (fun w e =>
    match e with
    | .begin j => if j = i then ∅ else w
    | .write j b _ => if j = i then insert b w else w
    | _ => w) ∅

def Small (start : Nat) (l : List TxAct) (s : LogSys) (a : LogAct) : Prop :=
  Writes start l s a ∧
    ∀ i b v, event s a = some (.write i b v) → (insert b (written i l)).card < maxOpBlocks

section
variable {start : Nat} {i j : Slot} {p : LogPlace} {s s' : LogSys} {t t' : Tx} {e : Option TxAct}
  {l : List TxAct} {b : Nat} {v : Block}

@[simp] theorem written_begin : written i (l ++ [.begin j]) = if j = i then ∅ else written i l := by
  simp [written]

@[simp] theorem written_write :
    written i (l ++ [.write j b v]) = if j = i then insert b (written i l) else written i l := by
  simp [written]

@[simp] theorem written_done : written i (l ++ [.done j]) = written i l := by simp [written]

@[simp] theorem written_save : written i (l ++ [.save]) = written i l := by simp [written]

@[simp] theorem written_crash : written i (l ++ [.crash]) = written i l := by simp [written]

/-! ## Room -/

def claimed (l : List TxAct) (block : List Nat) (active : Finset Slot) : Finset Nat :=
  block.toFinset ∪ active.biUnion fun i => written i l

structure Room (l : List TxAct) (s : LogSys) (active : Finset Slot) : Prop where
  few : ∀ i ∈ active, (written i l).card < maxOpBlocks
  locked : ∀ i b, buffer (s.pc i).next = some b → b ∈ written i l
  fits : (claimed l s.data.block active).card + ∑ i ∈ active, (maxOpBlocks - (written i l).card) ≤
    logBlocks

theorem card_claimed_empty {block : List Nat} (h : block.Nodup) :
    (claimed l block ∅).card = block.length := by
  rw [claimed, Finset.biUnion_empty, Finset.union_empty, List.toFinset_card_of_nodup h]

theorem length_le_claimed {block : List Nat} (active : Finset Slot) (h : block.Nodup) :
    block.length ≤ (claimed l block active).card := by
  rw [← List.toFinset_card_of_nodup h]
  exact Finset.card_le_card Finset.subset_union_left

/-- What is on its way counts for the operations that have brought it. -/
theorem claimed_le {block : List Nat} {active : Finset Slot} (h : block.Nodup)
    (hfew : ∀ i ∈ active, (written i l).card < maxOpBlocks) :
    (claimed l block active).card + ∑ i ∈ active, (maxOpBlocks - (written i l).card) ≤
      block.length + active.card * maxOpBlocks := by
  have hunion : (claimed l block active).card ≤ block.length + ∑ i ∈ active, (written i l).card := by
    refine (Finset.card_union_le ..).trans ?_
    rw [List.toFinset_card_of_nodup h]
    exact Nat.add_le_add_left Finset.card_biUnion_le _
  have hsum : ∑ i ∈ active, (written i l).card + ∑ i ∈ active, (maxOpBlocks - (written i l).card) =
      active.card * maxOpBlocks := by
    rw [← Finset.sum_add_distrib]
    refine Finset.sum_const_nat fun i hi => ?_
    have := hfew i hi
    omega
  omega

namespace Room

theorem full (h : Room l s t.active) (hl : Live start s t) (hi : i ∈ t.active) :
    s.data.block.length < logBlocks := by
  have hlen := length_le_claimed (l := l) t.active hl.block.nodup
  have hone : 1 ≤ maxOpBlocks - (written i l).card := by
    have := h.few i hi
    omega
  have hsum := Finset.single_le_sum (f := fun i => maxOpBlocks - (written i l).card)
    (fun _ _ => Nat.zero_le _) hi
  have := h.fits
  omega

theorem keep (h : Room l s t.active) (hblock : s'.data.block = s.data.block)
    (hbuf : ∀ j b, buffer (s'.pc j).next = some b → buffer (s.pc j).next = some b) :
    Room l s' t.active where
  few := h.few
  locked := fun j b hj => h.locked j b (hbuf j b hj)
  fits := by rw [hblock]; exact h.fits

theorem goto {r : LogSys} (pc : Pc Unit LogPlace) (h : Room l s t.active) (hpc : r.pc = s.pc)
    (hblock : r.data.block = s.data.block)
    (hbuf : buffer pc.next = none ∨ buffer pc.next = buffer (s.pc i).next) :
    Room l (r.goto i pc) t.active := by
  refine h.keep hblock fun j b hj => ?_
  by_cases hji : j = i
  · subst hji
    rw [goto_self] at hj
    obtain hbuf | hbuf := hbuf
    · rw [hbuf] at hj; cases hj
    · rwa [hbuf] at hj
  · rwa [goto_other _ _ hji, hpc] at hj

theorem of_idle (hl : Live start s t) (hact : t.active = ∅) : Room l s t.active where
  few := by rw [hact]; simp
  locked := fun j b hj => absurd hact (hl.active_ne (inOp_of_buffer hj))
  fits := by
    rw [hact, card_claimed_empty hl.block.nodup, Finset.sum_empty]
    exact hl.block.length

theorem enter (h : Room l s t.active) (hl : Live start s t) (hpc : s.pc i = .code .beginTest)
    (hfit : Fits s.data) :
    Room (l ++ [.begin i]) (release { s with data := { s.data with
      outstanding := s.data.outstanding + 1 } } i .inOp) (insert i t.active) := by
  have hout : i ∉ t.active := by rw [hl.active i, hpc]; exact nofun
  have hfew : ∀ j ∈ insert i t.active, (written j (l ++ [.begin i])).card < maxOpBlocks := by
    intro j hj
    rw [written_begin]
    split
    · simp [maxOpBlocks]
    · rename_i hne
      exact h.few j ((Finset.mem_insert.mp hj).resolve_left (Ne.symm hne))
  refine ⟨hfew, fun j b hj => ?_, ?_⟩
  · by_cases hji : j = i
    · subst hji
      rw [release, goto_self] at hj
      cases hj
    · rw [written_begin, if_neg (Ne.symm hji)]
      rw [release, goto_other _ _ hji] at hj
      exact h.locked j b hj
  · refine (claimed_le hl.block.nodup hfew).trans ?_
    rw [Finset.card_insert_of_notMem hout]
    have hroom := hfit.2
    rw [hl.outstanding] at hroom
    change s.data.block.length + (t.active.card + 1) * maxOpBlocks ≤ logBlocks
    exact_mod_cast hroom

/-- A block that is new for the operation uses up one that it may still write. -/
theorem write {d : LogData} (h : Room l s t.active) (hpc : s.pc i = .code .inOp) (hi : i ∈ t.active)
    (hblock : d.block = s.data.block)
    (hsmall : (insert b (written i l)).card < maxOpBlocks) :
    Room (l ++ [.write i b v]) (set s d i (.logAcquire b)) t.active := by
  refine ⟨fun j hj => ?_, fun j b' hj => ?_, ?_⟩
  · rw [written_write]
    split
    · rename_i hij
      rw [← hij]
      exact hsmall
    · exact h.few j hj
  · rw [written_write]
    by_cases hji : j = i
    · subst hji
      rw [set, goto_self] at hj
      obtain rfl : b = b' := Option.some.inj hj
      simp
    · rw [if_neg (Ne.symm hji)]
      rw [set, goto_other _ _ hji] at hj
      exact h.locked j b' hj
  · change (claimed _ d.block _).card + _ ≤ _
    rw [hblock]
    have hsum (l : List TxAct) : ∑ j ∈ t.active, (maxOpBlocks - (written j l).card) =
        (maxOpBlocks - (written i l).card) + ∑ j ∈ t.active.erase i, (maxOpBlocks - (written j l).card) :=
      (Finset.add_sum_erase _ _ hi).symm
    have hothers : ∑ j ∈ t.active.erase i, (maxOpBlocks - (written j (l ++ [.write i b v])).card) =
        ∑ j ∈ t.active.erase i, (maxOpBlocks - (written j l).card) := by
      refine Finset.sum_congr rfl fun j hj => ?_
      rw [written_write, if_neg (Ne.symm (Finset.mem_erase.mp hj).1)]
    have hclaimed : claimed (l ++ [.write i b v]) s.data.block t.active ⊆
        insert b (claimed l s.data.block t.active) := by
      intro x hx
      simp only [claimed, Finset.mem_union, Finset.mem_biUnion, Finset.mem_insert] at hx ⊢
      obtain hx | ⟨j, hj, hx⟩ := hx
      · exact .inr (.inl hx)
      · rw [written_write] at hx
        split at hx
        · obtain rfl | hx := Finset.mem_insert.mp hx
          · exact .inl rfl
          · exact .inr (.inr ⟨j, hj, hx⟩)
        · exact .inr (.inr ⟨j, hj, hx⟩)
    have hfits := h.fits
    have hcard := Finset.card_le_card hclaimed
    have hown := hsmall
    rw [hsum] at hfits ⊢
    rw [hothers, written_write, if_pos rfl]
    by_cases hb : b ∈ written i l
    · have hin : b ∈ claimed l s.data.block t.active :=
        Finset.mem_union_right _ (Finset.mem_biUnion.mpr ⟨i, hi, hb⟩)
      rw [Finset.insert_eq_of_mem hin] at hcard
      rw [Finset.insert_eq_of_mem hb]
      omega
    · have := Finset.card_insert_le b (claimed l s.data.block t.active)
      rw [Finset.card_insert_of_notMem hb] at hown ⊢
      omega

theorem append (h : Room l s t.active) (hpc : s.pc i = .code (.logWrite b)) (hi : i ∈ t.active) :
    Room l (release { s with data := append s.data b } i (.brelse b)) t.active := by
  refine ⟨h.few, fun j b' hj => ?_, ?_⟩
  · refine h.locked j b' ?_
    rwa [release, Live.next_goto buffer _ (by rw [show _ = _ from hpc]; rfl)] at hj
  · have hb : b ∈ written i l := h.locked i b (by rw [hpc]; rfl)
    have heq : claimed l (Log.append s.data b).block t.active = claimed l s.data.block t.active := by
      ext x
      simp only [claimed, Finset.mem_union, List.mem_toFinset, mem_append]
      constructor
      · rintro ((hx | rfl) | hx)
        · exact .inl hx
        · exact .inr (Finset.mem_biUnion.mpr ⟨i, hi, hb⟩)
        · exact .inr hx
      · exact fun hx => hx.imp .inl id
    change (claimed l (Log.append s.data b).block t.active).card + _ ≤ _
    rw [heq]
    exact h.fits

theorem endBody {r : LogSys} {pc : Pc Unit LogPlace} (h : Room l s t.active) (hpc : r.pc = s.pc)
    (hblock : r.data.block = s.data.block) (hbuf : buffer pc.next = none) :
    Room (l ++ [.done i]) (r.goto i pc) (t.active.erase i) := by
  have hk := h.goto (i := i) pc hpc hblock (.inl hbuf)
  refine ⟨fun j hj => ?_, fun j b hj => ?_, ?_⟩
  · rw [written_done]; exact h.few j (Finset.mem_of_mem_erase hj)
  · rw [written_done]; exact hk.locked j b hj
  · refine le_trans (Nat.add_le_add (Finset.card_le_card ?_) ?_) hk.fits
    · intro x hx
      simp only [claimed, Finset.mem_union, Finset.mem_biUnion, written_done] at hx ⊢
      exact hx.imp id fun hx => hx.imp fun j hj => ⟨Finset.mem_of_mem_erase hj.1, hj.2⟩
    · simp only [written_done]
      exact Finset.sum_le_sum_of_subset (Finset.erase_subset i t.active)

end Room

/-! ## Runs -/

theorem Room.move (h : Room l s t.active) (hl : Live start s t) (hok : s.data.panicked = none)
    (hpc : s.pc i = .code p) (hm : Move start i s p e s')
    (hsmall : ∀ j b v, e = some (.write j b v) → (insert b (written j l)).card < maxOpBlocks)
    (ht : stepSeen TxStore.step t e = some t') (hl' : s'.data.panicked = none → Live start s' t') :
    s'.data.panicked = none ∧ Room (l ++ e.toList) s' t'.active := by
  have hnext : (s.pc i).next = p := by rw [hpc]; rfl
  have hmem (hp : inOp p = true) : i ∈ t.active := (hl.active i).mpr (hnext ▸ hp)
  have hidle (hp : busy p = true) : t.active = ∅ := hl.idle i (hnext ▸ hp)
  cases hm with
  | enter hfit =>
    have hout : i ∉ t.active := by rw [hl.active i, hnext]; exact nofun
    cases (if_neg hout).symm.trans ht
    exact ⟨hok, h.enter hl hpc hfit⟩
  | write b v hb =>
    cases (if_pos (hmem rfl)).symm.trans ht
    exact ⟨hok, h.write hpc (hmem rfl) rfl (hsmall i b v rfl)⟩
  | tooBig b hlen => exact absurd (h.full hl (hmem rfl)) (by omega)
  | outside b hout =>
    have hpos := Finset.card_pos.mpr ⟨i, hmem rfl⟩
    rw [hl.outstanding] at hout
    omega
  | append b hlen hout =>
    cases ht
    rw [Option.toList_none, List.append_nil]
    refine ⟨?_, h.append hpc (hmem rfl)⟩
    change (Log.append s.data b).panicked = none
    rw [panicked_append]
    exact hok
  | committing hc =>
    rw [hl.not_committing (hl.calm (i := i) (by rw [hnext]; rfl))] at hc
    cases hc
  | last hc hout =>
    cases (if_pos (hmem rfl)).symm.trans ht
    exact ⟨hok, h.endBody rfl rfl rfl⟩
  | notLast hc hout =>
    cases (if_pos (hmem rfl)).symm.trans ht
    exact ⟨hok, h.endBody rfl rfl rfl⟩
  | writeHead =>
    cases (if_pos (hidle rfl)).symm.trans ht
    exact ⟨hok, .of_idle (hl' hok) (hidle rfl)⟩
  | acquire hq hlk =>
    cases ht
    rw [Option.toList_none, List.append_nil]
    refine ⟨hok, h.goto _ rfl rfl (.inr ?_)⟩
    rw [hnext]
    cases hq <;> rfl
  | begin | fork | exit | wait | done | release | commit | empty | writeLog | writeLogEnd
  | brelse =>
    cases ht
    rw [Option.toList_none, List.append_nil]
    exact ⟨hok, h.goto _ rfl rfl (.inl rfl)⟩
  | read b hp =>
    cases ht
    rw [Option.toList_none, List.append_nil]
    exact ⟨hok, h.goto _ rfl rfl (.inr (by rw [hnext]; rfl))⟩
  | install | installEnd | clearHead | doneBody | readHead | recover | recoverEnd | recoverHead =>
    cases ht
    rw [Option.toList_none, List.append_nil]
    exact ⟨hok, .of_idle (hl' hok) (hidle rfl)⟩

/-- In every run with crashes in which no operation writes more than nine different blocks, the
machine does not panic in `log.c`: the log does not fill up, all log writes are in operations,
and no operation ends during a commit. -/
theorem log_never_panics {disk : Nat → Block} (hlog : Valid start (blocksOf (disk start)))
    (h : Observed (step start) (Small start) event (boot disk) l s) :
    s.data.panicked = none ∧ s.data.block.length ≤ logBlocks := by
  have h₀ := Rel.boot hlog
  have hinv := h.invariant (I := fun l s => s.data.panicked = none ∧
    ∃ t, Rel start s t ∧ Room l s t.active) ⟨rfl, _, h₀, .of_idle (h₀.live rfl) rfl⟩ ?_
  · obtain ⟨hok, t, hrel, -⟩ := hinv
    exact ⟨hok, (hrel.live hok).block.length⟩
  · rintro l s a s' ⟨hok, t, hrel, hroom⟩ ⟨hw, hsmall⟩ hs
    obtain ⟨t', ht, hrel'⟩ := hrel.step hw hs
    have hl := hrel.live hok
    obtain ⟨rfl, rfl⟩ | ⟨-, ⟨b, rfl, hpin, hfree, rfl⟩ | ⟨hev, hsw⟩ | ⟨i, p, x, rfl, hpc, hst, hm⟩⟩ :=
      step_moves hs
    · cases ht
      exact ⟨rfl, _, hrel', .of_idle (hrel'.live rfl) rfl⟩
    · cases ht
      refine ⟨hok, t, hrel', ?_⟩
      rw [show event s (.evict b) = none from rfl, Option.toList_none, List.append_nil]
      exact hroom.keep rfl fun _ _ hj => hj
    · rw [hev] at ht ⊢
      cases ht
      rw [Option.toList_none, List.append_nil]
      refine ⟨by rw [hsw.frame.data]; exact hok, t, hrel', hroom.keep ?_ fun j b hj => ?_⟩
      · rw [hsw.frame.data]
      · rwa [hsw.frame.next] at hj
    · obtain ⟨hok', hroom'⟩ := hroom.move hl hok hpc hm hsmall ht hrel'.live
      exact ⟨hok', t', hrel', hroom'⟩

theorem card_written_le (i : Slot) (l : List TxAct) : (written i l).card ≤ l.length := by
  induction l using List.reverseRecOn with
  | nil => exact Nat.le_refl 0
  | append_singleton l e ih =>
    rw [List.length_append, List.length_singleton]
    cases e with
    | begin j =>
      rw [written_begin]
      split
      · exact Nat.zero_le _
      · omega
    | write j b v =>
      rw [written_write]
      split
      · exact (Finset.card_insert_le ..).trans (Nat.succ_le_succ ih)
      · omega
    | done j => rw [written_done]; omega
    | save => rw [written_save]; omega
    | crash => rw [written_crash]; omega

theorem log_never_panics_crash : ∃ l s, Observed (step 2) (Small 2) event (boot blank) l s ∧
    l.length = 5 ∧ s.data.panicked = none ∧ s.data.block.length ≤ logBlocks := by
  have hrun : crashRunKeeps = some (5, 7) := by decide +kernel
  obtain ⟨r, hr, hkeeps⟩ := Option.map_eq_some_iff.mp hrun
  have hlen : r.1.length = 5 := congrArg Prod.fst hkeeps
  have hobs : Observed (step 2) (Small 2) event (boot blank) r.1 r.2 := by
    refine Observed.of_run (fun l s a ha hle => ⟨crashRun_writes ha, fun i b v he => ?_⟩) hr
    have hle := hle.length_le
    rw [he] at hle
    have hcard := card_written_le i l
    have hins := Finset.card_insert_le b (written i l)
    simp only [List.length_append, Option.toList_some, List.length_singleton] at hle
    unfold maxOpBlocks
    omega
  exact ⟨r.1, r.2, hobs, hlen, log_never_panics blank_valid hobs⟩

end

end Log

end OsLab
