import OsLab.Log

/-!
# The steps of the log

What the buffer operations do to the blocks, and what a step of a process in
`log.c` can do.
-/

namespace OsLab

namespace Log

open Sys

/-! ## Buffers and blocks -/

section
variable {d : LogData} {b dst src : Nat} {v : Block}

@[simp] theorem block_bread (d : LogData) (b : Nat) : (bread d b).block = d.block := rfl

@[simp] theorem content_bread (d : LogData) (b : Nat) : content (bread d b) = content d := by
  funext b'
  by_cases hb : b' = b
  · subst hb; simp [content, bread]
  · simp [content, bread, hb]

@[simp] theorem content_setBuf (d : LogData) (b : Nat) (v : Block) :
    content (setBuf d b v) = Function.update (content d) b v := by
  funext b'
  by_cases hb : b' = b
  · subst hb; simp [content, setBuf]
  · simp [content, setBuf, hb]

@[simp] theorem content_bwrite (d : LogData) (b : Nat) : content (bwrite d b) = content d := by
  funext b'
  by_cases hb : b' = b
  · subst hb
    cases hc : d.cache b' <;> simp [content, bwrite, hc]
  · simp [content, bwrite, hb]

theorem content_evict (h : content d b = d.disk b) : content (evict d b) = content d := by
  funext b'
  by_cases hb : b' = b
  · subst hb; rw [h]; simp [content, evict]
  · simp [content, evict, hb]

@[simp] theorem content_bunpin (d : LogData) (b : Nat) : content (bunpin d b) = content d := rfl

@[simp] theorem content_append (d : LogData) (b : Nat) : content (append d b) = content d := by
  unfold append
  split <;> rfl

@[simp] theorem disk_append (d : LogData) (b : Nat) : (append d b).disk = d.disk := by
  unfold append
  split <;> rfl

@[simp] theorem holder_append (d : LogData) (b : Nat) : (append d b).holder = d.holder := by
  unfold append
  split <;> rfl

@[simp] theorem outstanding_append (d : LogData) (b : Nat) :
    (append d b).outstanding = d.outstanding := by
  unfold append
  split <;> rfl

@[simp] theorem committing_append (d : LogData) (b : Nat) :
    (append d b).committing = d.committing := by
  unfold append
  split <;> rfl

@[simp] theorem panicked_append (d : LogData) (b : Nat) : (append d b).panicked = d.panicked := by
  unfold append
  split <;> rfl

theorem mem_append {d : LogData} {b b' : Nat} : b' ∈ (append d b).block ↔ b' ∈ d.block ∨ b' = b := by
  unfold append
  split
  · exact ⟨.inl, fun hb => hb.elim id fun hb => hb ▸ ‹_›⟩
  · simp

theorem pins_append {d : LogData} (h : ∀ b, d.pins b = if b ∈ d.block then 1 else 0) (b b' : Nat) :
    (append d b).pins b' = if b' ∈ (append d b).block then 1 else 0 := by
  simp only [mem_append]
  unfold append
  split
  · rename_i hb
    rw [h]
    by_cases hbb : b' = b
    · subst hbb; simp [hb]
    · simp [hbb]
  · rename_i hb
    by_cases hbb : b' = b
    · subst hbb; simp [bpin, h, hb]
    · simp [bpin, hbb, h]

@[simp] theorem content_copyBlock (d : LogData) (dst src : Nat) :
    content (copyBlock d dst src) = Function.update (content d) dst (content d src) := by
  simp [copyBlock]

@[simp] theorem disk_copyBlock (d : LogData) (dst src : Nat) :
    (copyBlock d dst src).disk = Function.update d.disk dst (content d src) := by
  change Function.update d.disk dst _ = _
  simp

@[simp] theorem pins_copyBlock (d : LogData) (dst src : Nat) : (copyBlock d dst src).pins = d.pins := rfl

@[simp] theorem block_copyBlock (d : LogData) (dst src : Nat) : (copyBlock d dst src).block = d.block :=
  rfl

@[simp] theorem content_writeHead (start : Nat) (d : LogData) : content (writeHead start d) =
    Function.update (content d) start (headBlock (content d start) d.block) := by
  simp [writeHead]

@[simp] theorem disk_writeHead (start : Nat) (d : LogData) : (writeHead start d).disk =
    Function.update d.disk start (headBlock (content d start) d.block) := by
  change Function.update d.disk start _ = _
  simp

@[simp] theorem content_readHead (start : Nat) (d : LogData) :
    content (readHead start d) = content d :=
  content_bread d start

@[simp] theorem block_readHead (start : Nat) (d : LogData) :
    (readHead start d).block = blocksOf (content d start) := by
  simp [readHead]

end

@[simp] theorem boot_disk (disk : Nat → Block) : (boot disk).data.disk = disk := rfl

/-! ## Headers -/

section
variable {start tail b : Nat} {block : List Nat} {disk : Nat → Block}

theorem blocksOf_headBlock (old : Block) (h : Valid start block) :
    blocksOf (headBlock old block) = block := by
  have hlen : block.length ≤ 30 := h.length
  have hn : ((headBlock old block).word 0).toInt.toNat = block.length := by
    rw [headBlock, Block.word_setWords_before (by decide), Block.word_setWord_self]
    rw [BitVec.toInt_eq_toNat_cond, BitVec.toNat_ofNat]
    omega
  rw [blocksOf, hn]
  apply List.ext_getElem
  · simp
  · intro k hk hk'
    have hget : (block.map (BitVec.ofNat 32))[k]? = some (.ofNat 32 block[k]) := by
      simp [List.getElem?_eq_getElem hk']
    have hlt := (h.home _ (List.getElem_mem hk')).1
    simp only [List.getElem_map, List.getElem_range]
    rw [headBlock, Block.word_setWords hget, BitVec.toNat_ofNat, Nat.mod_eq_of_lt hlt]

theorem Valid.nil : Valid start [] := ⟨List.nodup_nil, by simp, by simp⟩

theorem Valid.append {d : LogData} (h : Valid start d.block) (hb : Home start b)
    (hlen : d.block.length < logBlocks) : Valid start (append d b).block := by
  refine ⟨?_, fun b' hb' => ?_, ?_⟩
  · unfold Log.append
    split
    · exact h.nodup
    · rename_i hnot
      exact List.Nodup.append h.nodup (by simp) (by simpa using hnot)
  · obtain hb' | rfl := mem_append.mp hb'
    · exact h.home b' hb'
    · exact hb
  · unfold Log.append
    split
    · exact h.length
    · rw [List.length_append]
      exact hlen

theorem recovered_of_mem (h : (blocksOf (disk start)).Nodup)
    (hb : (blocksOf (disk start))[tail]? = some b) : recovered start disk b = disk (start + tail + 1) := by
  obtain ⟨hlt, hget⟩ := List.getElem?_eq_some_iff.mp hb
  have hidx : (blocksOf (disk start)).idxOf? b = some tail := by
    rw [← hget, List.idxOf?_eq_some_iff]
    refine ⟨hlt, rfl, fun k hk heq => ?_⟩
    have := (List.Nodup.getElem_inj_iff h).mp heq
    omega
  rw [recovered, hidx]

theorem recovered_of_not_mem (h : b ∉ blocksOf (disk start)) : recovered start disk b = disk b := by
  rw [recovered, List.idxOf?_eq_none_iff.mpr h]

end

/-! ## Steps -/

inductive Acquires : LogPlace → LogPlace → Prop
  | begin : Acquires .beginAcquire .beginTest
  | log (b : Nat) : Acquires (.logAcquire b) (.logWrite b)
  | end : Acquires .endAcquire .endBody
  | done : Acquires .doneAcquire .doneBody

inductive Move (start : Nat) (i : Slot) (s : LogSys) : LogPlace → Option TxAct → LogSys → Prop
  | begin : Move start i s .user none (s.goto i (.code .beginAcquire))
  | read {p : LogPlace} (b : Nat) (hp : p = .user ∨ p = .inOp) :
    Move start i s p none (set s (bread s.data b) i p)
  | fork (np : Slot) (hnp : s.state np = .unused) : Move start i s .user none
    ({ s with state := Function.update s.state np .runnable }.goto i (.code .user))
  | exit : Move start i s .user none ({ s with
      state := Function.update s.state i .unused
      killed := Function.update s.killed i false }.goto i (.code .user))
  | acquire {p q : LogPlace} (h : Acquires p q) (hlk : s.lk = none) :
    Move start i s p none ({ s with lk := some i }.goto i (.code q))
  | enter (h : Fits s.data) : Move start i s .beginTest (some (.begin i))
    (release { s with data := { s.data with outstanding := s.data.outstanding + 1 } } i .inOp)
  | wait (h : ¬ Fits s.data) :
    Move start i s .beginTest none (s.goto i (.sleepLock () .beginTest))
  | write (b : Nat) (v : Block) (h : s.data.holder b = none) :
    Move start i s .inOp (some (.write i b v)) (set s { setBuf s.data b v with
      holder := Function.update s.data.holder b (some i) } i (.logAcquire b))
  | done : Move start i s .inOp none (s.goto i (.code .endAcquire))
  | tooBig (b : Nat) (h : logBlocks ≤ s.data.block.length) :
    Move start i s (.logWrite b) none (panic s .tooBig)
  | outside (b : Nat) (h : s.data.outstanding < 1) :
    Move start i s (.logWrite b) none (panic s .outside)
  | append (b : Nat) (h : s.data.block.length < logBlocks) (hout : 1 ≤ s.data.outstanding) :
    Move start i s (.logWrite b) none (release { s with data := append s.data b } i (.brelse b))
  | brelse (b : Nat) : Move start i s (.brelse b) none
    (set s { s.data with holder := Function.update s.data.holder b none } i .inOp)
  | committing (h : s.data.committing = true) : Move start i s .endBody none
    (panic { s with data := { s.data with outstanding := s.data.outstanding - 1 } } .committing)
  | last (h : s.data.committing = false) (hout : s.data.outstanding - 1 = 0) :
    Move start i s .endBody (some (.done i)) (release { s with
      data := { s.data with outstanding := s.data.outstanding - 1, committing := true } } i .commit)
  | notLast (h : s.data.committing = false) (hout : s.data.outstanding - 1 ≠ 0) :
    Move start i s .endBody (some (.done i))
      ({ s with data := { s.data with outstanding := s.data.outstanding - 1 } }.goto i
        (.wakeup () 0 .endRelease))
  | release {p : LogPlace} (hp : p = .endRelease ∨ p = .doneRelease) :
    Move start i s p none (release s i .user)
  | commit (h : 0 < s.data.block.length) :
    Move start i s .commit none (s.goto i (.code (.writeLog 0)))
  | empty (h : s.data.block = []) : Move start i s .commit none (s.goto i (.code .doneAcquire))
  | writeLog (tail b : Nat) (h : s.data.block[tail]? = some b) : Move start i s (.writeLog tail) none
    (set s (copyBlock s.data (start + tail + 1) b) i (.writeLog (tail + 1)))
  | writeLogEnd (tail : Nat) (h : s.data.block[tail]? = none) :
    Move start i s (.writeLog tail) none (s.goto i (.code .writeHead))
  | writeHead : Move start i s .writeHead (some .save) (set s (writeHead start s.data) i (.install 0))
  | install (tail b : Nat) (h : s.data.block[tail]? = some b) : Move start i s (.install tail) none
    (set s (bunpin (copyBlock s.data b (start + tail + 1)) b) i (.install (tail + 1)))
  | installEnd (tail : Nat) (h : s.data.block[tail]? = none) :
    Move start i s (.install tail) none (set s { s.data with block := [] } i .clearHead)
  | clearHead : Move start i s .clearHead none (set s (writeHead start s.data) i .doneAcquire)
  | doneBody : Move start i s .doneBody none
    ({ s with data := { s.data with committing := false } }.goto i (.wakeup () 0 .doneRelease))
  | readHead : Move start i s .readHead none (set s (readHead start s.data) i (.recover 0))
  | recover (tail b : Nat) (h : s.data.block[tail]? = some b) : Move start i s (.recover tail) none
    (set s (copyBlock s.data b (start + tail + 1)) i (.recover (tail + 1)))
  | recoverEnd (tail : Nat) (h : s.data.block[tail]? = none) :
    Move start i s (.recover tail) none (set s { s.data with block := [] } i .recoverHead)
  | recoverHead : Move start i s .recoverHead none (set s (writeHead start s.data) i .user)

section
variable {start : Nat} {i : Slot} {p : LogPlace} {x : LogCall} {e : Option TxAct} {s s' : LogSys}

theorem acquire_some {q : LogPlace} (h : acquire s i q = some s') :
    s.lk = none ∧ s' = { s with lk := some i }.goto i (.code q) := by
  unfold acquire at h
  split at h
  · cases h; exact ⟨‹_›, rfl⟩
  · cases h

theorem code_move (hpc : s.pc i = .code p) (h : code start i p x s = some s') :
    Move start i s p (event s (.sys (.run i x))) s' := by
  rw [event, hpc]
  cases p with
  | user =>
    cases x with
    | begin => cases h; exact .begin
    | read b => cases h; exact .read b (.inl rfl)
    | fork np =>
      obtain ⟨hnp, h⟩ := Option.ite_none_right_eq_some.mp h
      cases h
      exact .fork np hnp
    | exit => cases h; exact .exit
    | write b v => cases h
    | done => cases h
  | beginAcquire =>
    obtain ⟨hlk, rfl⟩ := acquire_some h
    exact .acquire .begin hlk
  | beginTest =>
    unfold code at h
    dsimp only at h ⊢
    split at h
    · rename_i hfit
      cases h
      rw [codeEvent, if_pos hfit]
      exact .enter hfit
    · rename_i hfit
      cases h
      rw [codeEvent, if_neg hfit]
      exact .wait hfit
  | inOp =>
    cases x with
    | begin => cases h
    | read b => cases h; exact .read b (.inr rfl)
    | fork np => cases h
    | exit => cases h
    | write b v =>
      obtain ⟨hfree, h⟩ := Option.ite_none_right_eq_some.mp h
      cases h
      exact .write b v hfree
    | done => cases h; exact .done
  | logAcquire b =>
    obtain ⟨hlk, rfl⟩ := acquire_some h
    exact .acquire (.log b) hlk
  | logWrite b =>
    unfold code at h
    dsimp only at h ⊢
    split at h
    · cases h; exact .tooBig b ‹_›
    · split at h
      · cases h; exact .outside b ‹_›
      · cases h; exact .append b (by omega) (by omega)
  | brelse b => cases h; exact .brelse b
  | endAcquire =>
    obtain ⟨hlk, rfl⟩ := acquire_some h
    exact .acquire .end hlk
  | endBody =>
    unfold code at h
    dsimp only at h ⊢
    split at h
    · rename_i hc
      cases h
      rw [codeEvent, if_pos hc]
      exact .committing hc
    · rename_i hc
      rw [codeEvent, if_neg hc]
      split at h
      · cases h; exact .last (by simpa using hc) ‹_›
      · cases h; exact .notLast (by simpa using hc) ‹_›
  | endRelease => cases h; exact .release (.inl rfl)
  | commit =>
    unfold code at h
    dsimp only at h ⊢
    split at h
    · cases h; exact .commit ‹_›
    · rename_i hlen
      cases h
      exact .empty (List.eq_nil_of_length_eq_zero (by omega))
  | writeLog tail =>
    unfold code at h
    dsimp only at h ⊢
    split at h
    · cases h; exact .writeLog tail _ ‹_›
    · cases h; exact .writeLogEnd tail ‹_›
  | writeHead => cases h; exact .writeHead
  | install tail =>
    unfold code at h
    dsimp only at h ⊢
    split at h
    · cases h; exact .install tail _ ‹_›
    · cases h; exact .installEnd tail ‹_›
  | clearHead => cases h; exact .clearHead
  | doneAcquire =>
    obtain ⟨hlk, rfl⟩ := acquire_some h
    exact .acquire .done hlk
  | doneBody => cases h; exact .doneBody
  | doneRelease => cases h; exact .release (.inr rfl)
  | readHead => cases h; exact .readHead
  | recover tail =>
    unfold code at h
    dsimp only at h ⊢
    split at h
    · cases h; exact .recover tail _ ‹_›
    · cases h; exact .recoverEnd tail ‹_›
  | recoverHead => cases h; exact .recoverHead

theorem codeEvent_write {d : LogData} {pc : Pc Unit LogPlace} {j : Slot} {b : Nat} {v : Block}
    (h : codeEvent d i pc x = some (.write j b v)) : x = .write b v := by
  unfold codeEvent at h
  split at h
  · split at h <;> cases h
  · cases h; rfl
  · split at h <;> cases h
  · cases h
  · cases h

theorem step_moves {a : LogAct} (h : step start s a = some s') :
    a = .crash ∧ s' = boot s.data.disk ∨
    s.data.panicked = none ∧
      ((∃ b, a = .evict b ∧ s.data.pins b = 0 ∧ s.data.holder b = none ∧
          s' = { s with data := evict s.data b }) ∨
        (event s a = none ∧ Switch s s') ∨
        ∃ i p x, a = .sys (.run i x) ∧ s.pc i = .code p ∧
          (s.state i = .running ∨ s.state i = .zombie) ∧ Move start i s p (event s a) s') := by
  cases a with
  | crash => cases h; exact .inl ⟨rfl, rfl⟩
  | evict b =>
    obtain ⟨⟨hok, hpins, hfree⟩, h⟩ := Option.ite_none_right_eq_some.mp h
    cases h
    exact .inr ⟨hok, .inl ⟨b, rfl, hpins, hfree, rfl⟩⟩
  | sys a =>
    obtain ⟨hok, h⟩ := Option.ite_none_right_eq_some.mp h
    refine .inr ⟨hok, .inr ?_⟩
    by_cases hcode : ∃ i p x, a = .run i x ∧ s.pc i = .code p
    · obtain ⟨i, p, x, rfl, hpc⟩ := hcode
      refine .inr ⟨i, p, x, rfl, hpc, ?_⟩
      simp only [Sys.step, hpc] at h
      obtain ⟨hst, h⟩ := Option.ite_none_right_eq_some.mp h
      exact ⟨hst, code_move hpc h⟩
    · refine .inl ⟨?_, ?_⟩
      · cases a with
        | run i x =>
          rw [event]
          cases hpc : s.pc i with
          | code p => exact absurd ⟨i, p, x, rfl, hpc⟩ hcode
          | _ => rfl
        | _ => rfl
      · obtain ⟨i, p, x, rfl, hpc, -⟩ | hsw := step_cases _ h
        · exact absurd ⟨i, p, x, rfl, hpc⟩ hcode
        · exact hsw

end

end Log

end OsLab
