import OsLab.Pipe

/-!
# A pipe is a queue

In every interleaving, what goes into a pipe comes out in the same order, and at most
`PIPESIZE` bytes are under way. The counters may wrap around. Calls fail or move fewer
bytes than asked for as `Channel.step` says.
-/

namespace OsLab

namespace Pipe

open Sys

/-! ## Steps -/

inductive Acquires : PipePlace → PipePlace → Prop
  | write (n : Int) : Acquires (.writeAcquire n) (.writeLoop 0 n)
  | read (n : Int) : Acquires (.readAcquire n) (.readTest n)
  | close (writable : Bool) : Acquires (.closeAcquire writable) (.closeBody writable)

inductive Move (i : Slot) (s : PipeSys) : PipePlace → Option Event → PipeSys → Prop
  | write (n : Int) : Move i s .user (some (.call i true n)) (s.goto i (.code (.writeAcquire n)))
  | read (n : Int) : Move i s .user (some (.call i false n)) (s.goto i (.code (.readAcquire n)))
  | close (writable : Bool) : Move i s .user none (s.goto i (.code (.closeAcquire writable)))
  | renew : Move i s .user (some (.renew i))
    ({ s with killed := Function.update s.killed i false }.goto i (.code .user))
  | acquire {p q : PipePlace} (h : Acquires p q) (hlk : s.lk = none) :
    Move i s p none ({ s with lk := some i }.goto i (.code q))
  | writeGone (k : Nat) (n : Int) (hk : k < n) (h : s.data.readopen = false ∨ s.killed i = true) :
    Move i s (.writeLoop k n) (some (.ret i (-1))) (leave s i)
  | writeFull (k : Nat) (n : Int) (hopen : s.data.readopen = true) (hfull : Full s.data) :
    Move i s (.writeLoop k n) none (wakeReaders s i (.writeSleep k n))
  | put (k : Nat) (n : Int) (ch : Byte) (hk : k < n) (hopen : s.data.readopen = true)
    (hlive : s.killed i = false) (hroom : ¬ Full s.data) :
    Move i s (.writeLoop k n) (some (.put i ch)) ((put s ch).goto i (.code (.writeLoop (k + 1) n)))
  | writeFault (k : Nat) (n : Int) (hk : k < n) :
    Move i s (.writeLoop k n) (some (.fault i)) (wakeReaders s i (.writeEnd k))
  | writeEnd (k : Nat) (n : Int) (hk : ¬ k < n) :
    Move i s (.writeLoop k n) none (wakeReaders s i (.writeEnd k))
  | writeSleep (k : Nat) (n : Int) :
    Move i s (.writeSleep k n) none (s.goto i (.sleepLock .nwrite (.writeLoop k n)))
  | ret {p : PipePlace} (r : Int) (hp : p = .writeEnd r ∨ p = .readEnd r) :
    Move i s p (some (.ret i r)) (leave s i)
  | readKilled (n : Int) (hempty : Empty s.data) (hopen : s.data.writeopen = true) (hk : s.killed i = true) :
    Move i s (.readTest n) (some (.ret i (-1))) (leave s i)
  | readWait (n : Int) (hempty : Empty s.data) (hopen : s.data.writeopen = true) :
    Move i s (.readTest n) none (s.goto i (.sleepLock .nread (.readTest n)))
  | readGo (n : Int) (h : ¬ (Empty s.data ∧ s.data.writeopen = true)) :
    Move i s (.readTest n) none (s.goto i (.code (.readLoop 0 n)))
  | drained (k : Nat) (n : Int) (hempty : Empty s.data) :
    Move i s (.readLoop k n) (some (.drained i)) (wakeWriters s i (.readEnd k))
  | take (k : Nat) (n : Int) (hk : k < n) (hsome : ¬ Empty s.data) :
    Move i s (.readLoop k n) (some (.take i (s.data.ring.head pipeSize)))
      ((take s).goto i (.code (.readLoop (k + 1) n)))
  | readFault (k : Nat) (n : Int) (hk : k < n) :
    Move i s (.readLoop k n) (some (.fault i)) (wakeWriters s i (.readEnd (if k = 0 then -1 else k)))
  | readEnd (k : Nat) (n : Int) (hk : ¬ k < n) :
    Move i s (.readLoop k n) none (wakeWriters s i (.readEnd k))
  | closeWrite : Move i s (.closeBody true) (some (.close true))
    (wakeReaders { s with data := { s.data with writeopen := false } } i .closeEnd)
  | closeRead : Move i s (.closeBody false) (some (.close false))
    (wakeWriters { s with data := { s.data with readopen := false } } i .closeEnd)
  | closeEnd : Move i s .closeEnd none (leave s i)
  | free (hr : s.data.readopen = false) (hw : s.data.writeopen = false) : Move i s .closeEnd (some .free)
    (leave { s with data := { s.data with freed := true } } i)

section
variable {i j : Slot} {p : PipePlace} {x : PipeCall} {e : Option Event} {s s' : PipeSys}

theorem acquire_some {q : PipePlace} (h : acquire s i q = some s') :
    s.lk = none ∧ s' = { s with lk := some i }.goto i (.code q) := by
  unfold acquire at h
  split at h
  · cases h; exact ⟨‹_›, rfl⟩
  · cases h

theorem writeLoop_move {k : Nat} {n : Int} (h : code i (.writeLoop k n) x s = some s') :
    Move i s (.writeLoop k n) (codeEvent s.data (s.killed i) i (.code (.writeLoop k n)) x) s' := by
  unfold code at h
  unfold codeEvent
  dsimp only at h ⊢
  by_cases hk : k < n
  · rw [if_pos hk] at h ⊢
    by_cases hgone : s.data.readopen = false ∨ s.killed i = true
    · rw [if_pos hgone] at h ⊢
      cases h
      exact .writeGone k n hk hgone
    · rw [if_neg hgone] at h ⊢
      obtain ⟨hopen, hlive⟩ := not_or.mp hgone
      by_cases hfull : Full s.data
      · rw [if_pos hfull] at h ⊢
        cases h
        exact .writeFull k n (by simpa using hopen) hfull
      · rw [if_neg hfull] at h ⊢
        cases x with
        | copyin ch =>
          cases ch with
          | none => cases h; exact .writeFault k n hk
          | some ch =>
            cases h
            exact .put k n ch hk (by simpa using hopen) (by simpa using hlive) hfull
        | _ => cases h
  · rw [if_neg hk] at h ⊢
    cases h
    exact .writeEnd k n hk

theorem readLoop_move {k : Nat} {n : Int} (h : code i (.readLoop k n) x s = some s') :
    Move i s (.readLoop k n) (codeEvent s.data (s.killed i) i (.code (.readLoop k n)) x) s' := by
  unfold code at h
  unfold codeEvent
  dsimp only at h ⊢
  by_cases hk : k < n
  · rw [if_pos hk] at h ⊢
    by_cases hempty : Empty s.data
    · rw [if_pos hempty] at h ⊢
      cases h
      exact .drained k n hempty
    · rw [if_neg hempty] at h ⊢
      cases x with
      | copyout ok =>
        cases ok with
        | true => cases h; exact .take k n hk hempty
        | false => cases h; exact .readFault k n hk
      | _ => cases h
  · rw [if_neg hk] at h ⊢
    cases h
    exact .readEnd k n hk

theorem readTest_move {n : Int} (h : code i (.readTest n) x s = some s') :
    Move i s (.readTest n) (codeEvent s.data (s.killed i) i (.code (.readTest n)) x) s' := by
  unfold code at h
  unfold codeEvent
  dsimp only at h ⊢
  by_cases hwait : Empty s.data ∧ s.data.writeopen = true
  · rw [if_pos hwait] at h
    by_cases hk : s.killed i = true
    · rw [if_pos hk] at h
      rw [if_pos ⟨hwait.1, hwait.2, hk⟩]
      cases h
      exact .readKilled n hwait.1 hwait.2 hk
    · rw [if_neg hk] at h
      rw [if_neg fun hall => hk hall.2.2]
      cases h
      exact .readWait n hwait.1 hwait.2
  · rw [if_neg hwait] at h
    rw [if_neg fun hall => hwait ⟨hall.1, hall.2.1⟩]
    cases h
    exact .readGo n hwait

theorem code_move (hpc : s.pc i = .code p) (h : code i p x s = some s') :
    Move i s p (event s (.run i x)) s' := by
  rw [event, hpc]
  cases p with
  | user =>
    cases x with
    | write n => cases h; exact .write n
    | read n => cases h; exact .read n
    | close writable => cases h; exact .close writable
    | renew => cases h; exact .renew
    | copyin ch => cases h
    | copyout ok => cases h
  | writeAcquire n =>
    obtain ⟨hlk, rfl⟩ := acquire_some h
    exact .acquire (.write n) hlk
  | writeLoop k n => exact writeLoop_move h
  | writeSleep k n => cases h; exact .writeSleep k n
  | writeEnd r => cases h; exact .ret r (.inl rfl)
  | readAcquire n =>
    obtain ⟨hlk, rfl⟩ := acquire_some h
    exact .acquire (.read n) hlk
  | readTest n => exact readTest_move h
  | readLoop k n => exact readLoop_move h
  | readEnd r => cases h; exact .ret r (.inr rfl)
  | closeAcquire writable =>
    obtain ⟨hlk, rfl⟩ := acquire_some h
    exact .acquire (.close writable) hlk
  | closeBody writable =>
    cases writable with
    | true => cases h; exact .closeWrite
    | false => cases h; exact .closeRead
  | closeEnd =>
    cases h
    dsimp only [codeEvent]
    by_cases hboth : s.data.readopen = false ∧ s.data.writeopen = false
    · rw [if_pos hboth, if_pos hboth]
      exact .free hboth.1 hboth.2
    · rw [if_neg hboth, if_neg hboth]
      exact .closeEnd

theorem Move.other (h : Move i s p e s') (hj : j ≠ i) : s'.pc j = s.pc j := by
  cases h <;> exact goto_other _ _ hj

theorem Move.state (h : Move i s p e s') : s'.state = s.state ∧ s'.chan = s.chan ∧ s'.plock = s.plock := by
  cases h <;> exact ⟨rfl, rfl, rfl⟩

theorem Move.data (h : Move i s p e s') (hp : held p = false) : s'.data = s.data := by
  cases h with
  | ret r hp' => obtain rfl | rfl := hp' <;> cases hp
  | _ => first | rfl | cases hp

theorem Move.own (h : Move i s p e s') : (s'.pc i).IsCode ∨
    (∃ n, s'.pc i = .sleepLock .nread (.readTest n) ∧ Empty s'.data ∧ s'.data.writeopen = true) ∨
    (∃ k n, p = .writeSleep k n ∧ s'.data = s.data ∧ s'.pc i = .sleepLock .nwrite (.writeLoop k n)) ∨
    ∃ c q, s'.pc i = .wakeup c 0 q ∧ held q = true := by
  cases h with
  | readWait n hempty hopen => exact .inr (.inl ⟨n, goto_self .., hempty, hopen⟩)
  | writeSleep k n => exact .inr (.inr (.inl ⟨k, n, rfl, rfl, goto_self ..⟩))
  | writeFull | writeFault | writeEnd | drained | readFault | readEnd | closeWrite | closeRead =>
    exact .inr (.inr (.inr ⟨_, _, goto_self .., rfl⟩))
  | _ => exact .inl ⟨_, goto_self ..⟩

theorem Move.codeStep (h : Move i s p e s') : CodeStep held i p s s' where
  other := fun j hj => .inl (h.other hj)
  own := by
    obtain hcode | ⟨n, hq, -⟩ | ⟨k, n, -, -, hq⟩ | ⟨c, q, hq, hheld⟩ := h.own
    · exact .inl hcode
    · exact .inr ⟨by rw [hq]; rfl, .inr ⟨_, _, hq⟩⟩
    · exact .inr ⟨by rw [hq]; rfl, .inr ⟨_, _, hq⟩⟩
    · exact .inr ⟨by rw [hq]; exact hheld, .inl ⟨_, _, hq⟩⟩
  lk := by
    cases h with
    | acquire hq => cases hq <;> simp [Pc.holds, held]
    | ret r hp => obtain rfl | rfl := hp <;> simp [leave, Pc.holds, held]
    | _ => simp [leave, wakeReaders, wakeWriters, Pipe.put, Pipe.take, Pc.holds, held]
  free := by
    cases h with
    | acquire hq hlk => exact fun _ _ => hlk
    | ret r hp => obtain rfl | rfl := hp <;> simp [held]
    | _ => simp [Pc.holds, held]
  plock := fun j _ hj => by rw [h.state.2.2]; exact hj

/-! ## What a process in a call knows -/

def Fact (d : PipeData) : PipePlace → Prop
  | .writeSleep _ _ => Full d ∧ d.readopen = true
  | .readLoop 0 _ => ¬ (Empty d ∧ d.writeopen = true)
  | _ => True

def Sleeps : PipeChan → PipePlace → Prop
  | .nread, .readTest _ => True
  | .nwrite, .writeLoop _ _ => True
  | _, _ => False

structure Knows (s : PipeSys) : Prop where
  fact : ∀ i, Fact s.data (s.pc i).next
  chan : ∀ i c q, (s.pc i).Waits c q → Sleeps c q
  back : ∀ i q, s.pc i = .reacquire q → ∃ c, Sleeps c q

theorem Knows.switch (h : Knows s) (hs : Switch s s') : Knows s' where
  fact := fun j => by rw [hs.frame.data, hs.frame.next]; exact h.fact j
  chan := fun j c q hj => h.chan j c q (hs.waits hj)
  back := fun j q hj => by
    obtain hj | ⟨c, hj⟩ := hs.reacquire_of hj
    · exact h.back j q hj
    · exact ⟨c, h.chan j c q hj⟩

theorem fact_of_sleeps {c : PipeChan} {q : PipePlace} (d : PipeData) (h : Sleeps c q) : Fact d q := by
  cases c <;> cases q <;> trivial

theorem Knows.holds {d : PipeData} (h : Knows s) (hno : ¬ Fact d (s.pc j).next) :
    (s.pc j).holds held = true := by
  have hchan := h.chan j
  have hback := h.back j
  generalize s.pc j = pc at *
  cases pc with
  | code q => cases q <;> first | rfl | exact absurd trivial hno
  | wakeup c k q => rfl
  | sleepLock c q => rfl
  | sleepRelease c q => rfl
  | sleepState c q => exact absurd (fact_of_sleeps d (hchan c q (.inr (.inr (.inl rfl))))) hno
  | sched c q => exact absurd (fact_of_sleeps d (hchan c q (.inr (.inr (.inr rfl))))) hno
  | reacquire q =>
    obtain ⟨c, hc⟩ := hback q rfl
    exact absurd (fact_of_sleeps d hc) hno

theorem Knows.move (hl : Locked held s) (h : Knows s) (hpc : s.pc i = .code p) (hm : Move i s p e s') :
    Knows s' where
  fact := fun j => by
    by_cases hj : j = i
    · subst hj
      cases hm with
      | writeFull k n hopen hfull => simpa [wakeReaders, Fact, Pc.next] using ⟨hfull, hopen⟩
      | readGo n hgo => rw [goto_self]; exact hgo
      | acquire hq => rw [goto_self]; cases hq <;> trivial
      | take k n => rw [goto_self]; trivial
      | _ => simp [leave, wakeReaders, wakeWriters, Fact, Pc.next]
    · rw [hm.other hj]
      cases hp : held p with
      | false => rw [hm.data hp]; exact h.fact j
      | true =>
        by_contra hno
        exact hj (hl.holder (by rw [hpc]; exact hp) (h.holds hno))
  chan := fun j c q hj => by
    by_cases hji : j = i
    · subst hji
      obtain ⟨q', hq⟩ | ⟨n, hq, -⟩ | ⟨k, n, -, -, hq⟩ | ⟨c', q', hq, -⟩ := hm.own
      · simp [hq, Pc.Waits] at hj
      · obtain ⟨rfl, rfl⟩ : PipeChan.nread = c ∧ PipePlace.readTest n = q := by
          simpa [hq, Pc.Waits] using hj
        trivial
      · obtain ⟨rfl, rfl⟩ : PipeChan.nwrite = c ∧ PipePlace.writeLoop k n = q := by
          simpa [hq, Pc.Waits] using hj
        trivial
      · simp [hq, Pc.Waits] at hj
    · rw [hm.other hji] at hj
      exact h.chan j c q hj
  back := fun j q hj => by
    by_cases hji : j = i
    · subst hji
      obtain ⟨q', hq⟩ | ⟨n, hq, -⟩ | ⟨k, n, -, -, hq⟩ | ⟨c', q', hq, -⟩ := hm.own <;>
        rw [hq] at hj <;> cases hj
    · rw [hm.other hji] at hj
      exact h.back j q hj

theorem Knows.start (h : Start s) : Knows s := by
  refine ⟨fun i => ?_, fun i c q hi => ?_, fun i q hi => ?_⟩
  · rw [h.pc]; trivial
  · rw [h.pc] at hi; simp [Pc.Waits] at hi
  · rw [h.pc] at hi; cases hi

theorem locked_start (h : Start s) : Locked held s := by
  refine ⟨fun i => ?_, fun i hi => absurd ⟨_, h.pc i⟩ hi, fun i c p hi => ?_⟩
  · rw [h.pc, h.lk]
    exact iff_of_false (by simp [Pc.holds, held]) (by simp)
  · rw [h.pc] at hi; simp at hi

/-! ## The queue -/

def Transfer.Done (t : Transfer) (r : Int) : Prop :=
  t.ended = some r ∨ t.ended = none ∧ t.asked ≤ t.moved ∧ r = t.moved

def Calls (t : Transfer) : PipePlace → Prop
  | .writeAcquire n => t = ⟨true, n, 0, none⟩
  | .readAcquire n | .readTest n => t = ⟨false, n, 0, none⟩
  | .writeLoop k n | .writeSleep k n => t = ⟨true, n, k, none⟩
  | .readLoop k n => t = ⟨false, n, k, none⟩
  | .writeEnd r | .readEnd r => Transfer.Done t r
  | _ => True

structure Rel (s : PipeSys) (c : Channel) : Prop where
  locked : Locked held s
  knows : Knows s
  ring : s.data.ring.Holds pipeSize c.queue
  readopen : c.readopen = s.data.readopen
  writeopen : c.writeopen = s.data.writeopen
  freed : c.freed = s.data.freed
  killed : c.killed = s.killed
  call : ∀ i, Calls (c.call i) (s.pc i).next

theorem pipeSize_dvd : pipeSize ∣ 2 ^ 32 := by decide

theorem pipeSize_lt : pipeSize < 2 ^ 32 := by decide

variable {c c' : Channel}

theorem Rel.start (h : Start s) (hf : s.data.freed = false) : Rel s (.start s.killed) where
  locked := locked_start h
  knows := Knows.start h
  ring := by
    refine .nil ?_
    rw [h.ring.1, h.ring.2]
  readopen := h.readopen.symm
  writeopen := h.writeopen.symm
  freed := hf.symm
  killed := rfl
  call := fun i => by rw [h.pc]; trivial

theorem Rel.switch (h : Rel s c) (hs : Switch s s') : Rel s' { c with killed := s'.killed } where
  locked := h.locked.switch hs
  knows := h.knows.switch hs
  ring := by rw [hs.frame.data]; exact h.ring
  readopen := by rw [hs.frame.data]; exact h.readopen
  writeopen := by rw [hs.frame.data]; exact h.writeopen
  freed := by rw [hs.frame.data]; exact h.freed
  killed := rfl
  call := fun j => by rw [hs.frame.next]; exact h.call j

structure Shows (ring : Ring Byte) (ends : Bool × Bool) (freed : Bool) (killed : Slot → Bool) (c : Channel) :
    Prop where
  ring : ring.Holds pipeSize c.queue
  ends : (c.readopen, c.writeopen) = ends
  freed : c.freed = freed
  killed : c.killed = killed

theorem Rel.shows (h : Rel s c) :
    Shows s.data.ring (s.data.readopen, s.data.writeopen) s.data.freed s.killed c :=
  ⟨h.ring, by rw [h.readopen, h.writeopen], h.freed, h.killed⟩

theorem Rel.of_move (h : Rel s c) (hpc : s.pc i = .code p) (hm : Move i s p e s')
    (hd : Shows s'.data.ring (s'.data.readopen, s'.data.writeopen) s'.data.freed s'.killed c')
    (hother : ∀ j, j ≠ i → c'.call j = c.call j) (hown : Calls (c'.call i) (s'.pc i).next) :
    Rel s' c' where
  locked := h.locked.code hpc hm.codeStep
  knows := h.knows.move h.locked hpc hm
  ring := hd.ring
  readopen := congrArg Prod.fst hd.ends
  writeopen := congrArg Prod.snd hd.ends
  freed := hd.freed
  killed := hd.killed
  call := fun j => by
    by_cases hj : j = i
    · subst hj; exact hown
    · rw [hother j hj, hm.other hj]; exact h.call j

theorem Rel.keep (h : Rel s c) (hpc : s.pc i = .code p) (hm : Move i s p e s')
    (hd : Shows s'.data.ring (s'.data.readopen, s'.data.writeopen) s'.data.freed s'.killed c)
    (hown : Calls (c.call i) (s'.pc i).next) : Rel s' c :=
  h.of_move hpc hm hd (fun _ _ => rfl) hown

theorem Rel.setCall (h : Rel s c) (hpc : s.pc i = .code p) (hm : Move i s p e s')
    (hd : Shows s'.data.ring (s'.data.readopen, s'.data.writeopen) s'.data.freed s'.killed c)
    {t : Transfer} (hown : Calls t (s'.pc i).next) : Rel s' (c.setCall i t) := by
  refine h.of_move hpc hm ⟨hd.ring, hd.ends, hd.freed, hd.killed⟩ (fun j hj => Function.update_of_ne hj ..) ?_
  rw [show (c.setCall i t).call i = t from Function.update_self ..]
  exact hown

theorem Rel.room (h : Rel s c) (hroom : ¬ Full s.data) : c.queue.length < pipeSize := by
  refine lt_of_le_of_ne h.ring.le fun heq => hroom ?_
  exact (h.ring.full_iff pipeSize_lt).mpr heq

theorem Rel.move (h : Rel s c) (hpc : s.pc i = .code p) (hm : Move i s p e s') :
    ∃ c', stepSeen Channel.step c e = some c' ∧ Rel s' c' := by
  have hown := h.call i
  have hfact := h.knows.fact i
  rw [hpc] at hown hfact
  have keep := h.keep hpc hm
  have set {t : Transfer} := h.setCall hpc hm (t := t)
  have hs := h.shows
  cases hm with
  | write n | read n => exact ⟨_, rfl, set hs (by rw [goto_self]; rfl)⟩
  | close => exact ⟨c, rfl, keep hs (by rw [goto_self]; trivial)⟩
  | renew =>
    refine ⟨_, rfl, h.of_move hpc .renew ⟨hs.ring, hs.ends, hs.freed, ?_⟩ (fun _ _ => rfl)
      (by rw [goto_self]; trivial)⟩
    change Function.update c.killed i false = Function.update s.killed i false
    rw [h.killed]
  | acquire hq =>
    refine ⟨c, rfl, keep hs ?_⟩
    rw [goto_self]
    cases hq with
    | write n => exact hown
    | read n => exact hown
    | close writable => trivial
  | writeGone k n hk hgone =>
    refine ⟨c, if_pos (.inr ?_), keep hs (by rw [leave, goto_self]; trivial)⟩
    have hcall : c.call i = ⟨true, n, k, none⟩ := hown
    refine ⟨by rw [hcall], .inr ⟨rfl, ?_⟩⟩
    unfold Channel.Refuses
    rw [hcall, h.readopen, h.killed]
    exact ⟨hk, hgone⟩
  | writeFull k n hopen hfull => exact ⟨c, rfl, keep hs (by rw [wakeReaders, goto_self]; exact hown)⟩
  | put k n ch hk hopen hlive hroom =>
    have hcall : c.call i = ⟨true, n, k, none⟩ := hown
    have hlen := h.room hroom
    refine ⟨_, if_pos ⟨hlen, h.readopen.trans hopen, (congrFun h.killed i).trans hlive, ?_, ?_⟩,
      h.of_move hpc (.put k n ch hk hopen hlive hroom)
        ⟨h.ring.push pipeSize_dvd pipeSize_lt hlen ch, hs.ends, hs.freed, hs.killed⟩
        (fun j hj => Function.update_of_ne hj ..) ?_⟩
    · rw [goto_self]
      exact (Function.update_self ..).trans (by rw [hcall])
    · rw [hcall]
    · rw [hcall]; exact hk
  | writeFault k n hk =>
    have hcall : c.call i = ⟨true, n, k, none⟩ := hown
    refine ⟨_, if_pos (by rw [hcall]; exact hk), set hs ?_⟩
    rw [wakeReaders, goto_self, hcall]
    exact .inl rfl
  | writeEnd k n hk =>
    refine ⟨c, rfl, keep hs ?_⟩
    rw [wakeReaders, goto_self, show c.call i = ⟨true, n, k, none⟩ from hown]
    exact .inr ⟨rfl, not_lt.mp hk, rfl⟩
  | writeSleep | readWait | readGo => exact ⟨c, rfl, keep hs (by rw [goto_self]; exact hown)⟩
  | ret r hp =>
    have hdone : Transfer.Done (c.call i) r := by obtain rfl | rfl := hp <;> exact hown
    refine ⟨c, if_pos (hdone.imp id fun hd => ⟨hd.1, .inl hd.2⟩), keep hs (by rw [leave, goto_self]; trivial)⟩
  | readKilled n hempty hopen hk =>
    refine ⟨c, if_pos (.inr ?_), keep hs (by rw [leave, goto_self]; trivial)⟩
    have hcall : c.call i = ⟨false, n, 0, none⟩ := hown
    refine ⟨by rw [hcall], .inr ⟨rfl, ?_⟩⟩
    unfold Channel.Refuses
    rw [hcall, h.writeopen, h.killed]
    exact ⟨rfl, h.ring.empty_iff.mp hempty, hopen, hk⟩
  | drained k n hempty =>
    have hcall : c.call i = ⟨false, n, k, none⟩ := hown
    have hclosed : k = 0 → c.writeopen = false := by
      rintro rfl
      rw [h.writeopen]
      by_contra hopen
      exact hfact ⟨hempty, by simpa using hopen⟩
    refine ⟨_, if_pos ⟨h.ring.empty_iff.mp hempty, by rw [hcall], by rw [hcall]; exact hclosed⟩, set hs ?_⟩
    rw [wakeWriters, goto_self, hcall]
    exact .inl rfl
  | take k n hk hsome =>
    have hcall : c.call i = ⟨false, n, k, none⟩ := hown
    have hring := h.ring
    cases hq : c.queue with
    | nil => exact absurd (h.ring.empty_iff.mpr hq) hsome
    | cons b queue =>
      rw [hq] at hring
      refine ⟨{ c with queue := queue }.moved i, ?_, ?_⟩
      · change Channel.step c (.take i _) = _
        rw [Channel.step, hq]
        exact if_pos ⟨hring.head.symm, by rw [hcall], by rw [hcall]; exact hk⟩
      · refine h.of_move hpc (.take k n hk hsome) ⟨hring.pop pipeSize_dvd, hs.ends, hs.freed, hs.killed⟩
          (fun j hj => Function.update_of_ne hj ..) ?_
        rw [goto_self]
        exact (Function.update_self ..).trans (by rw [hcall])
  | readFault k n hk =>
    have hcall : c.call i = ⟨false, n, k, none⟩ := hown
    refine ⟨_, if_pos (by rw [hcall]; exact hk), set hs ?_⟩
    rw [wakeWriters, goto_self, hcall]
    exact .inl (by simp)
  | readEnd k n hk =>
    refine ⟨c, rfl, keep hs ?_⟩
    rw [wakeWriters, goto_self, show c.call i = ⟨false, n, k, none⟩ from hown]
    exact .inr ⟨rfl, not_lt.mp hk, rfl⟩
  | closeWrite =>
    have hends := congrArg (fun b => (b, false)) h.readopen
    exact ⟨_, rfl, h.of_move hpc .closeWrite ⟨hs.ring, hends, hs.freed, hs.killed⟩ (fun _ _ => rfl)
      (by rw [wakeReaders, goto_self]; trivial)⟩
  | closeRead =>
    have hends := congrArg (Prod.mk false) h.writeopen
    exact ⟨_, rfl, h.of_move hpc .closeRead ⟨hs.ring, hends, hs.freed, hs.killed⟩ (fun _ _ => rfl)
      (by rw [wakeWriters, goto_self]; trivial)⟩
  | closeEnd => exact ⟨c, rfl, keep hs (by rw [leave, goto_self]; trivial)⟩
  | free hr hw =>
    exact ⟨_, if_pos ⟨h.readopen.trans hr, h.writeopen.trans hw⟩, h.of_move hpc (.free hr hw)
      ⟨hs.ring, hs.ends, rfl, hs.killed⟩ (fun _ _ => rfl) (by rw [leave, goto_self]; trivial)⟩

theorem step_moves {a : Act PipeCall} (h : step s a = some s') :
    ((event s a = none ∧ s'.killed = s.killed ∨
        ∃ i, event s a = some (.kkill i) ∧ s'.killed = Function.update s.killed i true) ∧ Switch s s') ∨
      ∃ i p x, a = .run i x ∧ s.pc i = .code p ∧ Move i s p (event s a) s' := by
  obtain ⟨i, p, x, rfl, hpc, hcode⟩ | ⟨hsw, hkilled⟩ := step_killed h
  · exact .inr ⟨i, p, x, rfl, hpc, code_move hpc hcode⟩
  · cases a with
    | run i x =>
      cases hpc : s.pc i with
      | code p =>
        simp only [step, Sys.step, hpc] at h
        exact .inr ⟨i, p, x, rfl, hpc, code_move hpc (Option.ite_none_right_eq_some.mp h).2⟩
      | _ =>
        refine .inl ⟨.inl ⟨by rw [event, hpc]; rfl, hkilled.resolve_right ?_⟩, hsw⟩
        rintro ⟨k, hk, -⟩
        cases hk
    | kkill i =>
      obtain ⟨-, h⟩ := Option.ite_none_left_eq_some.mp h
      cases h
      exact .inl ⟨.inr ⟨i, rfl, rouse_killed ..⟩, hsw⟩
    | _ =>
      refine .inl ⟨.inl ⟨rfl, hkilled.resolve_right ?_⟩, hsw⟩
      rintro ⟨k, hk, -⟩
      cases hk

theorem Rel.step {a : Act PipeCall} (h : Rel s c) (hs : step s a = some s') :
    ∃ c', stepSeen Channel.step c (event s a) = some c' ∧ Rel s' c' := by
  obtain ⟨hev, hsw⟩ | ⟨i, p, x, -, hpc, hm⟩ := step_moves hs
  · have hrel := h.switch hsw
    obtain ⟨hev, hk⟩ | ⟨i, hev, hk⟩ := hev <;> rw [hk, ← h.killed] at hrel <;> rw [hev]
    · exact ⟨c, rfl, hrel⟩
    · exact ⟨_, rfl, hrel⟩
  · exact h.move hpc hm

def fresh : PipeSys where
  lk := none
  plock := fun _ => false
  state := fun _ => .running
  chan := fun _ => none
  killed := fun _ => false
  pc := fun _ => .code .user
  data :=
    { ring := ⟨fun _ => 0, 0, 0⟩
      readopen := true
      writeopen := true
      freed := false
      fresh := false
      taken := false }

theorem fresh_start : Start fresh where
  lk := rfl
  pc := fun _ => rfl
  ring := ⟨rfl, rfl⟩
  readopen := rfl
  writeopen := rfl
  fresh := rfl
  taken := rfl

end

end Pipe

end OsLab
