import OsLab.PipeSound

/-!
# Nobody waits at a pipe in vain

While the lock is free, a reader sleeps only at an empty pipe and a writer only at a
full one, unless a writer was killed in the middle of `pipewrite`: that one returns
without `wakeup`, whatever it has written.
-/

namespace OsLab

namespace Pipe

open Sys

/-- Who sleeps has a reason to go on. Bytes that a process is just writing or reading do not count
before it wakes the others. -/
def Due (s : PipeSys) (_ : Slot) : PipePlace → Prop
  | .readTest _ => ¬ (Empty s.data ∧ s.data.writeopen = true) ∧ s.data.fresh = false
  | .writeLoop _ _ => ¬ (Full s.data ∧ s.data.readopen = true) ∧ s.data.taken = false
  | _ => False

section
variable {i j : Slot} {p : PipePlace} {x : PipeCall} {e : Option Event} {s s' : PipeSys}

theorem due_frame (s s' : PipeSys) (hf : Sys.Frame s s') (i : Slot) (p : PipePlace) (h : Due s' i p) :
    Due s i p := by
  cases p <;> first | (simp only [Due, hf.data] at h; exact h) | exact h.elim

theorem Move.due_reader {n : Int} (hm : Move i s p e s') (hdue : Due s' j (.readTest n)) :
    Due s j (.readTest n) ∨ held p = true ∧ ∃ q, s'.pc i = .wakeup .nread 0 q := by
  obtain ⟨hgo, hfresh⟩ := hdue
  cases hm with
  | put => cases hfresh
  | take k n hk hsome => exact .inl ⟨fun hwait => hsome hwait.1, hfresh⟩
  | writeFull | writeFault | writeEnd | closeWrite => exact .inr ⟨rfl, _, goto_self ..⟩
  | _ => exact .inl ⟨hgo, hfresh⟩

theorem Move.due_writer {k : Nat} {n : Int} (hm : Move i s p e s') (hdue : Due s' j (.writeLoop k n)) :
    Due s j (.writeLoop k n) ∨ held p = true ∧ ∃ q, s'.pc i = .wakeup .nwrite 0 q := by
  obtain ⟨hgo, htaken⟩ := hdue
  cases hm with
  | take => cases htaken
  | put k n ch hk hopen hlive hroom => exact .inl ⟨fun hwait => hroom hwait.1, htaken⟩
  | drained | readFault | readEnd | closeRead => exact .inr ⟨rfl, _, goto_self ..⟩
  | _ => exact .inl ⟨hgo, htaken⟩

theorem Move.wakeStep (hk : Knows s) (hpc : s.pc i = .code p) (hm : Move i s p e s') :
    WakeStep held (fun _ => none) Due i p s s' where
  toCodeStep := hm.codeStep
  sleepers := fun j _ hj => by
    obtain ⟨hst, hch, -⟩ := hm.state
    rw [hst] at hj
    exact ⟨hj, by rw [hch]⟩
  sleep := fun c q hq => by
    obtain ⟨q', hq'⟩ | ⟨n, hq', hwait⟩ | ⟨k, n, rfl, hd, hq'⟩ | ⟨c', q', hq', -⟩ := hm.own
    · cases hq'.symm.trans hq
    · cases hq'.symm.trans hq
      exact ⟨fun hdue => hdue.1 hwait, rfl⟩
    · cases hq'.symm.trans hq
      have hfact := hk.fact i
      rw [hpc] at hfact
      exact ⟨fun hdue => hdue.1 (by rw [hd]; exact hfact), rfl⟩
    · cases hq'.symm.trans hq
  calmed := nofun
  due := fun j c q hj hw hdue => by
    have hsleeps := hk.chan j c q hw
    cases c with
    | nread =>
      cases q with
      | readTest n => exact (hm.due_reader hdue).imp id fun hwake => ⟨hwake.1, .inl hwake.2⟩
      | _ => exact hsleeps.elim
    | nwrite =>
      cases q with
      | writeLoop k n => exact (hm.due_writer hdue).imp id fun hwake => ⟨hwake.1, .inl hwake.2⟩
      | _ => exact hsleeps.elim

/-! ## Bytes under way -/

structure Pending (s : PipeSys) : Prop where
  fresh : s.data.fresh = true → s.data.readopen = true ∧ ∃ e k n, s.pc e = .code (.writeLoop k n)
  taken : s.data.taken = true → ∃ e k n, s.pc e = .code (.readLoop k n)

/-- No process is killed in `pipewrite` between a byte and the `wakeup` for it. -/
def Spares (s : PipeSys) (_ : Act PipeCall) : Prop :=
  s.data.fresh = true → ∀ i k n, s.pc i = .code (.writeLoop k n) → s.killed i = false

theorem Acquires.not_loop {q : PipePlace} (h : Acquires p q) :
    (∀ k n, p ≠ .writeLoop k n) ∧ ∀ k n, p ≠ .readLoop k n := by
  cases h <;> simp

/-- The loops of `pipewrite` and `piperead` wake the others before they release the lock. -/
theorem Pending.move {a : Act PipeCall} (h : Pending s) (hl : Locked held s) (hok : Spares s a)
    (hpc : s.pc i = .code p) (hm : Move i s p e s') : Pending s' := by
  -- a process that is at another place than the one that takes the step stays there
  have stays {q : PipePlace} (hex : ∃ e, s.pc e = .code q) (hq : p ≠ q) : ∃ e, s'.pc e = .code q := by
    obtain ⟨e, he⟩ := hex
    have hne : e ≠ i := by
      rintro rfl
      rw [hpc] at he
      exact hq (Pc.code.inj he)
    exact ⟨e, (hm.other hne).trans he⟩
  constructor
  · intro hfresh
    have keep (hp : ∀ k n, p ≠ .writeLoop k n) (hf : s'.data.fresh = s.data.fresh)
        (ho : s'.data.readopen = s.data.readopen) :
        s'.data.readopen = true ∧ ∃ e k n, s'.pc e = .code (.writeLoop k n) := by
      obtain ⟨hopen, e, k, n, he⟩ := h.fresh (hf.symm.trans hfresh)
      obtain ⟨e', he'⟩ := stays ⟨e, he⟩ (hp k n)
      exact ⟨ho.trans hopen, e', k, n, he'⟩
    cases hm with
    | put k n ch hk hopen => exact ⟨hopen, i, k + 1, n, goto_self ..⟩
    | writeGone k n hk hgone =>
      rw [(h.fresh hfresh).1, hok hfresh i k n hpc] at hgone
      simp at hgone
    | writeFull | writeFault | writeEnd | closeWrite => cases hfresh
    | closeRead =>
      -- a writer holds the lock
      obtain ⟨-, e, k, n, he⟩ := h.fresh hfresh
      obtain rfl : e = i := hl.holder (by rw [hpc]; rfl) (by rw [he]; rfl)
      rw [hpc] at he
      cases he
    | acquire hq => exact keep hq.not_loop.1 rfl rfl
    | ret r hp => exact keep (by obtain rfl | rfl := hp <;> simp) rfl rfl
    | _ => exact keep (by simp) rfl rfl
  · intro htaken
    have keep (hp : ∀ k n, p ≠ .readLoop k n) (hf : s'.data.taken = s.data.taken) :
        ∃ e k n, s'.pc e = .code (.readLoop k n) := by
      obtain ⟨e, k, n, he⟩ := h.taken (hf.symm.trans htaken)
      obtain ⟨e', he'⟩ := stays ⟨e, he⟩ (hp k n)
      exact ⟨e', k, n, he'⟩
    cases hm with
    | take k n => exact ⟨i, k + 1, n, goto_self ..⟩
    | drained | readFault | readEnd | closeRead => cases htaken
    | acquire hq => exact keep hq.not_loop.2 rfl
    | ret r hp => exact keep (by obtain rfl | rfl := hp <;> simp) rfl
    | _ => exact keep (by simp) rfl

theorem Pending.switch (h : Pending s) (hs : Switch s s') : Pending s' := by
  -- a process at a place of the code stays there
  have stays {e : Slot} {q : PipePlace} (he : s.pc e = .code q) : s'.pc e = .code q := by
    obtain heq | hgoes := hs.goes e
    · exact heq.trans he
    · rw [he] at hgoes; cases hgoes
  constructor <;> rw [hs.frame.data]
  · intro hfresh
    obtain ⟨hopen, e, k, n, he⟩ := h.fresh hfresh
    exact ⟨hopen, e, k, n, stays he⟩
  · intro htaken
    obtain ⟨e, k, n, he⟩ := h.taken htaken
    exact ⟨e, k, n, stays he⟩

/-! ## Runs -/

structure Inv (s : PipeSys) : Prop where
  locked : Locked held s
  knows : Knows s
  none : NoneLost (fun _ => none) Due s
  pending : Pending s

theorem Inv.start (h : Start s) : Inv s where
  locked := locked_start h
  knows := Knows.start h
  none := by
    constructor
    case back => rintro _ _ ⟨⟩
    case quiet => rintro _ _ _ _ ⟨⟩
    case owed =>
      intro j c p hj
      simp [DozesAt, h.pc] at hj
    all_goals simp [h.pc]
  pending := by
    constructor
    · rw [h.fresh]; simp
    · rw [h.taken]; simp

theorem Inv.step {a : Act PipeCall} (h : Inv s) (hok : Spares s a) (hs : step s a = some s') : Inv s' := by
  obtain ⟨-, hsw⟩ | ⟨i, p, x, rfl, hpc, hm⟩ := step_moves hs
  · exact ⟨h.locked.switch hsw, h.knows.switch hsw, h.none.switch nofun due_frame h.locked hsw,
      h.pending.switch hsw⟩
  · exact ⟨h.locked.code hpc hm.codeStep, h.knows.move h.locked hpc hm,
      h.none.code nofun h.locked hpc (hm.wakeStep h.knows hpc), h.pending.move h.locked hok hpc hm⟩

def Asleep (s : PipeSys) (i : Slot) (c : PipeChan) (q : PipePlace) : Prop :=
  s.pc i = .sched c q ∧ s.state i = .sleeping

instance (s : PipeSys) (i : Slot) (c : PipeChan) (q : PipePlace) : Decidable (Asleep s i c q) :=
  inferInstanceAs (Decidable (_ ∧ _))

/-- In every run in which no process is killed in `pipewrite` with bytes that it has not announced: while
the lock is free, a reader sleeps only at an empty pipe that is open for writing, and a writer only at
a full pipe that is open for reading. -/
theorem pipe_sleepers {s₀ : PipeSys} (h₀ : Start s₀)
    (h : Runs step Spares s₀ s) (hlk : s.lk = none) :
    (∀ i n, Asleep s i .nread (.readTest n) → Empty s.data ∧ s.data.writeopen = true) ∧
      ∀ i k n, Asleep s i .nwrite (.writeLoop k n) → Full s.data ∧ s.data.readopen = true := by
  have hinv := h.invariant (Inv.start h₀) fun _ _ _ hi hok hs => hi.step hok hs
  have hfree {e : Slot} {q : PipePlace} (hq : held q = true) : s.pc e ≠ .code q := by
    intro he
    have hheld := (hinv.locked.lk e).mp (by rw [he]; exact hq)
    rw [hlk] at hheld
    cases hheld
  have hfresh : s.data.fresh = false := by
    by_contra hno
    obtain ⟨-, e, k, n, he⟩ := hinv.pending.fresh (by simpa using hno)
    exact hfree rfl he
  have htaken : s.data.taken = false := by
    by_contra hno
    obtain ⟨e, k, n, he⟩ := hinv.pending.taken (by simpa using hno)
    exact hfree rfl he
  constructor
  · intro i n hi
    by_contra hno
    exact hinv.none.not_due hinv.locked hlk (.inr hi) ⟨hno, hfresh⟩
  · intro i k n hi
    by_contra hno
    exact hinv.none.not_due hinv.locked hlk (.inr hi) ⟨hno, htaken⟩

theorem spares_of_steps {s₀ : PipeSys} {as : List (Act PipeCall)} (h : Runs step Spares s₀ s)
    (hs : steps (fun s a => if s.data.fresh then none else step s a) s as = some s') :
    Runs step Spares s₀ s' := by
  induction as generalizing s with
  | nil => cases hs; exact h
  | cons a as ih =>
    obtain ⟨s₁, h₁, hs⟩ := Option.bind_eq_some_iff.mp hs
    obtain ⟨hno, h₁⟩ := Option.ite_none_left_eq_some.mp h₁
    exact ih (h.next (fun hfresh => absurd hfresh hno) h₁) hs

theorem pipe_sleepers_reader : ∃ s, Runs step Spares fresh s ∧ s.lk = none ∧
    Asleep s 0 .nread (.readTest 1) ∧ Empty s.data ∧ s.data.writeopen = true := by
  have hrun : (steps (fun s a => if s.data.fresh then none else step s a) fresh
      (List.replicate 6 (.run 0 (.read 1)))).any (fun s =>
      decide (s.lk = none ∧ Asleep s 0 .nread (.readTest 1))) = true := by
    decide +kernel
  obtain ⟨s, hs, hasleep⟩ := exists_of_any hrun
  obtain ⟨hlk, hasleep⟩ := of_decide_eq_true hasleep
  have hr := spares_of_steps .start hs
  exact ⟨s, hr, hlk, hasleep, (pipe_sleepers fresh_start hr hlk).1 0 1 hasleep⟩

-- Process 0 waits for a byte. Process 1 writes one of two bytes, is killed and returns: process 0
-- sleeps on.
example : (steps step fresh (List.replicate 6 (.run 0 (.read 1)) ++
    [.run 1 (.write 2), .run 1 (.write 2), .run 1 (.copyin (some 7)), .kkill 1, .run 1 (.write 2)])).any
    (fun s => decide (s.lk = none ∧ Asleep s 0 .nread (.readTest 1) ∧ ¬ Empty s.data)) = true := by
  decide +kernel

end

end Pipe

end OsLab
