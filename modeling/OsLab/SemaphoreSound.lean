import OsLab.Semaphore

/-!
# Semaphores count, and wake who waits

The words of `Semaphore.lean` over whole runs: with `sem_lock` free, a word is its
first value plus the posts minus the waits that have returned, and nobody sleeps
in `sem_wait` on a positive word.
-/

namespace OsLab

namespace Sem

open Sys

inductive Move (i : Slot) (s : SemSys) : SemPlace → SemSys → Prop
  | wait (a : Nat) : Move i s .user (s.goto i (.code (.waitAcquire a)))
  | post (a : Nat) : Move i s .user (s.goto i (.code (.postAcquire a)))
  | clone (np : Slot) (space : Space) (hnp : s.state np = .unused) :
    Move i s .user ((create s np space).goto i (.code .user))
  | exit : Move i s .user
    ({ s with state := Function.update s.state i .zombie }.goto i (.code .dead))
  | reap (np : Slot) (hnp : s.state np = .zombie) :
    Move i s .user ((free s np).goto i (.code .user))
  | waitAcquire (a : Nat) (hlk : s.lk = none) :
    Move i s (.waitAcquire a) ({ s with lk := some i }.goto i (.code (.waitRead a)))
  | waitRead (a : Nat) (h : 0 < (s.data.word (s.data.loc i a)).toInt) :
    Move i s (.waitRead a) (s.goto i (.code (.waitWrite a (s.data.word (s.data.loc i a) - 1))))
  | waitNone (a : Nat) (h : ¬ 0 < (s.data.word (s.data.loc i a)).toInt) :
    Move i s (.waitRead a) (s.goto i (.code (.waitKilled a)))
  | waitWrite (a : Nat) (v : BitVec 32) :
    Move i s (.waitWrite a v) ((setWord s (s.data.loc i a) v).goto i (.code (.waitReturn a)))
  | waitReturn (a : Nat) : Move i s (.waitReturn a)
    (leave { s with data := countWait s.data i (s.data.loc i a) } i)
  | waitSleep (a : Nat) : Move i s (.waitKilled a) (s.goto i (.sleepLock a (.waitRead a)))
  | postAcquire (a : Nat) (hlk : s.lk = none) :
    Move i s (.postAcquire a) ({ s with lk := some i }.goto i (.code (.postRead a)))
  | postRead (a : Nat) :
    Move i s (.postRead a) (s.goto i (.code (.postWrite a (s.data.word (s.data.loc i a) + 1))))
  | postWrite (a : Nat) (v : BitVec 32) :
    Move i s (.postWrite a v) ((setWord s (s.data.loc i a) v).goto i (.wakeup a 0 (.postReturn a)))
  | postReturn (a : Nat) : Move i s (.postReturn a)
    (leave { s with data := countPost s.data i (s.data.loc i a) } i)
  | fail {p : SemPlace} (hp : held p = true) (hw : ∀ a, p ≠ .waitReturn a)
    (hp' : ∀ a, p ≠ .postReturn a) : Move i s p (leave s i)

section
variable {i : Slot} {p : SemPlace} {x : SemCall} {s s' : SemSys}

theorem acquire_some {p' : SemPlace} (h : acquire s i p' = some s') :
    s.lk = none ∧ s' = { s with lk := some i }.goto i (.code p') := by
  unfold acquire at h
  split at h
  · cases h; exact ⟨‹_›, rfl⟩
  · cases h

theorem code_move (h : code i p x s = some s') : Move i s p s' := by
  cases p with
  | user =>
    cases x with
    | wait a => cases h; exact .wait a
    | post a => cases h; exact .post a
    | exit => cases h; exact .exit
    | clone np space =>
      obtain ⟨hnp, h⟩ := Option.ite_none_right_eq_some.mp h
      cases h
      exact .clone np space hnp
    | reap np =>
      obtain ⟨hnp, h⟩ := Option.ite_none_right_eq_some.mp h
      cases h
      exact .reap np hnp
  | waitAcquire a =>
    obtain ⟨hlk, rfl⟩ := acquire_some h
    exact .waitAcquire a hlk
  | waitRead a =>
    unfold code at h
    dsimp only at h
    split at h
    · split at h
      · cases h; exact .waitRead a ‹_›
      · cases h; exact .waitNone a ‹_›
    · cases h; exact .fail rfl nofun nofun
  | waitWrite a v =>
    unfold code at h
    dsimp only at h
    split at h
    · cases h; exact .waitWrite a v
    · cases h; exact .fail rfl nofun nofun
  | waitReturn a => cases h; exact .waitReturn a
  | waitKilled a =>
    unfold code at h
    dsimp only at h
    split at h
    · cases h; exact .fail rfl nofun nofun
    · cases h; exact .waitSleep a
  | postAcquire a =>
    obtain ⟨hlk, rfl⟩ := acquire_some h
    exact .postAcquire a hlk
  | postRead a =>
    unfold code at h
    dsimp only at h
    split at h
    · cases h; exact .postRead a
    · cases h; exact .fail rfl nofun nofun
  | postWrite a v =>
    unfold code at h
    dsimp only at h
    split at h
    · cases h; exact .postWrite a v
    · cases h; exact .fail rfl nofun nofun
  | postReturn a => cases h; exact .postReturn a
  | dead => cases h

theorem Move.other (h : Move i s p s') {j : Slot} (hj : j ≠ i) :
    s'.pc j = s.pc j ∨ s.state j = .unused ∧ s'.pc j = .code .user := by
  cases h with
  | clone np space hnp =>
    rw [goto_other _ _ hj]
    by_cases hjn : j = np
    · subst hjn; exact .inr ⟨hnp, goto_self ..⟩
    · exact .inl (goto_other _ _ hjn)
  | _ => exact .inl (goto_other _ _ hj)

theorem Move.state (h : Move i s p s') {j : Slot} (hj : j ≠ i) :
    (s'.state j = s.state j ∧ s'.chan j = s.chan j ∧ s'.data.space j = s.data.space j) ∨
      ¬ (s.state j).Active ∧ s'.state j ≠ .sleeping ∧ s'.state j ≠ .zombie := by
  cases h with
  | clone np space hnp =>
    by_cases hjn : j = np
    · subst hjn
      exact .inr ⟨by simp [hnp, ProcState.Active], by simp [create], by simp [create]⟩
    · exact .inl ⟨Function.update_of_ne hjn .., rfl, Function.update_of_ne hjn ..⟩
  | reap np hnp =>
    by_cases hjn : j = np
    · subst hjn
      exact .inr ⟨by simp [hnp, ProcState.Active], by simp [free], by simp [free]⟩
    · exact .inl ⟨Function.update_of_ne hjn .., Function.update_of_ne hjn .., rfl⟩
  | exit => exact .inl ⟨Function.update_of_ne hj .., rfl, rfl⟩
  | _ => exact .inl ⟨rfl, rfl, rfl⟩

theorem Move.own (h : Move i s p s') (hst : s.state i = .running) :
    s'.state i = .running ∨ s'.pc i = .code .dead := by
  cases h with
  | exit => exact .inr (goto_self ..)
  | clone np space hnp =>
    have hne : i ≠ np := by rintro rfl; rw [hst] at hnp; cases hnp
    exact .inl ((Function.update_of_ne hne ..).trans hst)
  | reap np hnp =>
    have hne : i ≠ np := by rintro rfl; rw [hst] at hnp; cases hnp
    exact .inl ((Function.update_of_ne hne ..).trans hst)
  | _ => exact .inl hst

end

/-! ## What a process in a call knows -/

def Fact (d : Sems) (i : Slot) : SemPlace → Prop
  | .waitWrite a v => v = d.word (d.loc i a) - 1 ∧ 0 < (d.word (d.loc i a)).toInt
  | .waitKilled a => ¬ 0 < (d.word (d.loc i a)).toInt
  | .postWrite a v => v = d.word (d.loc i a) + 1
  | _ => True

structure Knows (s : SemSys) : Prop where
  fact : ∀ i, Fact s.data i (s.pc i).next
  chan : ∀ i c q, (s.pc i).Waits c q → q = .waitRead c
  back : ∀ i q, s.pc i = .reacquire q → ∃ a, q = .waitRead a
  wake : ∀ i c k q, s.pc i = .wakeup c k q → ∃ a, q = .postReturn a
  ended : ∀ i, ¬ (s.state i).Active →
    (s.pc i).next = .dead ∨ (s.pc i).next = .user ∧ s.state i ≠ .zombie

section
variable {i : Slot} {p : SemPlace} {s s' : SemSys}

theorem Knows.switch (h : Knows s) (hs : Switch s s') : Knows s' where
  fact := fun j => by rw [hs.frame.data, hs.frame.next]; exact h.fact j
  chan := fun j c q hj => h.chan j c q (hs.waits hj)
  back := fun j q hj => by
    obtain hj | ⟨c, hj⟩ := hs.reacquire_of hj
    · exact h.back j q hj
    · exact ⟨c, h.chan j c q hj⟩
  wake := fun j c k q hj => by
    obtain ⟨k', hj⟩ := hs.wakeup_of hj
    exact h.wake j c k' q hj
  ended := fun j hj => by
    obtain heq | ⟨-, hact⟩ := hs.frame.state j
    · rw [heq] at hj ⊢
      rw [hs.frame.next]
      exact h.ended j hj
    · exact absurd hact hj

/-- A process is in `sleep` before it reads the word again, and in `wakeup` before it returns
from `sem_post`. -/
theorem Knows.isCode (h : Knows s) (hw : ∀ a, (s.pc i).next ≠ .waitRead a)
    (hp : ∀ a, (s.pc i).next ≠ .postReturn a) : (s.pc i).IsCode := by
  have hchan := h.chan i
  have hback := h.back i
  have hwake := h.wake i
  generalize s.pc i = pc at *
  cases pc with
  | code q => exact ⟨q, rfl⟩
  | wakeup c k q =>
    obtain ⟨a, ha⟩ := hwake c k q rfl
    exact absurd ha (hp a)
  | reacquire q =>
    obtain ⟨a, ha⟩ := hback q rfl
    exact absurd ha (hw a)
  | _ c q => exact absurd (hchan c q (by simp [Pc.Waits])) (hw c)

theorem Knows.idle (h : Knows s) (hi : ¬ (s.state i).Active) :
    ∃ q, s.pc i = .code q ∧ held q = false ∧ (q = .dead ∨ q = .user) := by
  have hnext := (h.ended i hi).imp id And.left
  obtain ⟨q, hq⟩ := h.isCode (i := i) (by rintro a ha; simp [ha] at hnext)
    (by rintro a ha; simp [ha] at hnext)
  rw [hq] at hnext
  refine ⟨q, hq, ?_, hnext⟩
  obtain hq | hq := hnext <;> rw [show q = _ from hq] <;> rfl

theorem Knows.active (h : Knows s) (hi : (s.pc i).holds held = true) : (s.state i).Active := by
  by_contra hno
  obtain ⟨q, hq, hheld, -⟩ := h.idle hno
  rw [hq] at hi
  exact Bool.false_ne_true (hheld.symm.trans hi)

theorem Knows.running (h : Knows s) (hpc : s.pc i = .code p) (hm : Move i s p s')
    (hst : s.state i = .running ∨ s.state i = .zombie) : s.state i = .running := by
  obtain hst | hst := hst
  · exact hst
  · obtain hp | hp := h.ended i (by simp [hst, ProcState.Active])
    · rw [hpc] at hp
      cases hp
      cases hm with
      | fail hp => cases hp
    · exact absurd hst hp.2

theorem Move.codeStep (h : Knows s) (hm : Move i s p s') : CodeStep held i p s s' where
  other := fun j hj => by
    obtain heq | ⟨hst, huser⟩ := hm.other hj
    · exact .inl heq
    · obtain ⟨q, hq, hheld, -⟩ := h.idle (i := j) (by simp [hst, ProcState.Active])
      exact .inr ⟨q, _, hq, huser, hheld, rfl⟩
  own := by
    cases hm with
    | waitSleep a => exact .inr ⟨by rw [goto_self]; rfl, .inr ⟨_, _, goto_self ..⟩⟩
    | postWrite a v => exact .inr ⟨by rw [goto_self]; rfl, .inl ⟨_, _, goto_self ..⟩⟩
    | _ => exact .inl ⟨_, goto_self ..⟩
  lk := by
    cases hm with
    | fail hp => rw [leave, goto_self, hp]; rfl
    | _ => simp [leave, setWord, create, free, Pc.holds, held]
  free := by
    cases hm with
    | waitAcquire a hlk => exact fun _ _ => hlk
    | postAcquire a hlk => exact fun _ _ => hlk
    | fail hp => exact fun hno => absurd hp (by rw [hno]; exact Bool.false_ne_true)
    | _ => simp [leave, Pc.holds, held]
  plock := fun j _ hj => by cases hm <;> exact hj

theorem Move.word (h : Move i s p s') (hp : held p = false) : s'.data.word = s.data.word := by
  cases h <;> first | rfl | cases hp

theorem Fact.congr {d d' : Sems} (hw : d'.word = d.word) (hsp : d'.space i = d.space i)
    (h : Fact d i p) : Fact d' i p := by
  have heq : Fact d' i p ↔ Fact d i p := by cases p <;> simp only [Fact, Sems.loc, hw, hsp]
  exact heq.mpr h

theorem Knows.holds (h : Knows s) (hno : ∃ d, ¬ Fact d i (s.pc i).next) :
    (s.pc i).holds held = true := by
  obtain ⟨d, hd⟩ := hno
  obtain ⟨q, hq⟩ := h.isCode (i := i) (fun a ha => hd (by rw [ha]; trivial))
    fun a ha => hd (by rw [ha]; trivial)
  rw [hq] at hd ⊢
  cases q <;> simp_all [Fact, Pc.holds, held, Pc.next]

theorem Knows.move (hl : Locked held s) (h : Knows s) (hpc : s.pc i = .code p)
    (hst : s.state i = .running) (hm : Move i s p s') : Knows s' where
  fact := fun j => by
    by_cases hj : j = i
    · subst hj
      cases hm with
      | waitRead a hpos => rw [goto_self]; exact ⟨rfl, hpos⟩
      | waitNone a hno => rw [goto_self]; exact hno
      | postRead a => rw [goto_self]; rfl
      | _ => simp [leave, Fact, Pc.next]
    · obtain heq | ⟨-, huser⟩ := hm.other hj
      · rw [heq]
        obtain ⟨-, -, hsp⟩ | ⟨hact, -⟩ := hm.state hj
        · cases hp : held p with
          | false => exact (h.fact j).congr (hm.word hp) hsp
          | true =>
            by_contra hno
            exact hj (hl.holder (by rw [hpc]; exact hp) (h.holds ⟨_, hno⟩))
        · obtain ⟨q, hq, -, rfl | rfl⟩ := h.idle hact <;> rw [hq] <;> trivial
      · rw [huser]; trivial
  chan := fun j c q hj => by
    by_cases hji : j = i
    · subst hji
      cases hm with
      | waitSleep a =>
        obtain ⟨rfl, rfl⟩ : a = c ∧ .waitRead a = q := by simpa [Pc.Waits] using hj
        rfl
      | _ => simp [leave, Pc.Waits] at hj
    · obtain heq | ⟨-, huser⟩ := hm.other hji
      · rw [heq] at hj; exact h.chan j c q hj
      · rw [huser] at hj; simp [Pc.Waits] at hj
  back := fun j q hj => by
    by_cases hji : j = i
    · subst hji
      cases hm <;> simp [leave] at hj
    · obtain heq | ⟨-, huser⟩ := hm.other hji
      · rw [heq] at hj; exact h.back j q hj
      · rw [huser] at hj; cases hj
  wake := fun j c k q hj => by
    by_cases hji : j = i
    · subst hji
      cases hm with
      | postWrite a v =>
        rw [goto_self] at hj
        cases hj
        exact ⟨_, rfl⟩
      | _ => simp [leave] at hj
    · obtain heq | ⟨-, huser⟩ := hm.other hji
      · rw [heq] at hj; exact h.wake j c k q hj
      · rw [huser] at hj; cases hj
  ended := fun j hj => by
    by_cases hji : j = i
    · subst hji
      obtain hrun | hdead := hm.own hst
      · exact absurd (.inr (.inl hrun)) hj
      · rw [hdead]; exact .inl rfl
    · obtain ⟨hsame, -⟩ | ⟨hact, -, hz⟩ := hm.state hji
      · rw [hsame] at hj ⊢
        obtain heq | ⟨hun, huser⟩ := hm.other hji
        · rw [heq]; exact h.ended j hj
        · rw [huser, hun]; exact .inr ⟨rfl, by simp⟩
      · obtain heq | ⟨hun, huser⟩ := hm.other hji
        · rw [heq]; exact (h.ended j hact).imp id fun hu => ⟨hu.1, hz⟩
        · rw [huser]; exact .inr ⟨rfl, hz⟩

/-! ## No wakeup is lost -/

def Due (s : SemSys) (i : Slot) : SemPlace → Prop
  | .waitRead a => 0 < (s.data.word (s.data.loc i a)).toInt
  | _ => False

theorem due_frame (s s' : SemSys) (hf : Sys.Frame s s') (i : Slot) (p : SemPlace) (h : Due s' i p) :
    Due s i p := by
  cases p with
  | waitRead a => rw [Due, hf.data] at h; exact h
  | _ => exact h.elim

theorem Move.wakeStep (h : Knows s) (hpc : s.pc i = .code p) (hm : Move i s p s') :
    WakeStep held (fun _ => none) Due i p s s' where
  toCodeStep := hm.codeStep h
  sleepers := fun j hj hsl => by
    obtain ⟨hst, hch, -⟩ | ⟨-, hno, -⟩ := hm.state hj
    · exact ⟨hst ▸ hsl, hch⟩
    · exact absurd hsl hno
  sleep := fun c q hq => by
    have hfact := h.fact i
    rw [hpc] at hfact
    cases hm with
    | waitSleep a =>
      rw [goto_self] at hq
      cases hq
      exact ⟨hfact, rfl⟩
    | _ => simp [leave] at hq
  calmed := nofun
  due := fun j c q hj hw hdue => by
    obtain rfl := h.chan j c q hw
    have hsp : s'.data.space j = s.data.space j := by
      obtain ⟨-, -, hsp⟩ | ⟨hact, -⟩ := hm.state hj
      · exact hsp
      · obtain ⟨q, hq, -⟩ := h.idle hact
        rw [hq] at hw
        simp [Pc.Waits] at hw
    have hloc : s'.data.loc j c = s.data.loc j c := by rw [Sems.loc, hsp]; rfl
    rw [Due, hloc] at hdue
    have hfact := h.fact i
    rw [hpc] at hfact
    cases hm with
    | waitWrite a v =>
      refine .inl ?_
      by_cases hw : s.data.loc j c = s.data.loc i a
      · -- it was positive before
        rw [Due, hw]
        exact hfact.2
      · rwa [goto_data, setWord_word, Function.update_of_ne hw] at hdue
    | postWrite a v =>
      by_cases hw : s.data.loc j c = s.data.loc i a
      · -- the same address, so the same channel
        obtain rfl : c = a := congrArg Prod.snd hw
        exact .inr ⟨rfl, .inl ⟨_, goto_self ..⟩⟩
      · rw [goto_data, setWord_word, Function.update_of_ne hw] at hdue
        exact .inl hdue
    | _ => exact .inl hdue

structure Inv (s : SemSys) : Prop where
  locked : Locked held s
  knows : Knows s
  none : NoneLost (fun _ => none) Due s

theorem Inv.start (h : Start s) : Inv s where
  locked := by
    refine ⟨fun i => ?_, fun i hi => absurd ⟨_, h.pc i⟩ hi, fun i c p hi => ?_⟩
    · rw [h.pc, h.lk]
      split <;> constructor <;> rintro ⟨⟩
    · rw [h.pc] at hi
      simp at hi
  knows := by
    refine ⟨fun i => ?_, fun i c p hi => ?_, fun i p hi => ?_, fun i c k p hi => ?_, fun i hi => ?_⟩
    · rw [h.pc]; split <;> trivial
    · rw [h.pc] at hi; simp [Pc.Waits] at hi
    · rw [h.pc] at hi; cases hi
    · rw [h.pc] at hi; cases hi
    · rw [h.pc]
      split
      · exact .inl rfl
      · exact .inr ⟨rfl, ‹_›⟩
  none := by
    constructor
    case back => rintro _ _ ⟨⟩
    case quiet => rintro _ _ _ _ ⟨⟩
    case owed =>
      intro j c p hj
      simp [DozesAt, h.pc] at hj
    all_goals simp [h.pc]

theorem Inv.step {a : Act SemCall} (h : Inv s) (hs : Sem.step s a = some s') : Inv s' := by
  obtain ⟨i, p, x, -, hpc, hst, hcode⟩ | hsw := step_cases _ hs
  · have hm := code_move hcode
    have hst := h.knows.running hpc hm hst
    exact ⟨h.locked.code hpc (hm.codeStep h.knows), h.knows.move h.locked hpc hst hm,
      h.none.code nofun h.locked hpc (hm.wakeStep h.knows hpc)⟩
  · exact ⟨h.locked.switch hsw, h.knows.switch hsw, h.none.switch nofun due_frame h.locked hsw⟩

end

theorem Inv.of_runs {ok : SemSys → Act SemCall → Prop} {s₀ s : SemSys} (h₀ : Start s₀)
    (h : Runs Sem.step ok s₀ s) : Inv s :=
  h.invariant (.start h₀) fun _ _ _ hi _ hs => hi.step hs

def Asleep (s : SemSys) (i : Slot) (a : Nat) : Prop :=
  s.pc i = .sched a (.waitRead a) ∧ s.state i = .sleeping

/-- In every run: while `sem_lock` is free, nobody sleeps in `sem_wait` on a positive word. -/
theorem no_sleeper_on_positive {s₀ s : SemSys} (h₀ : Start s₀)
    (h : Runs step (fun _ _ => True) s₀ s) (hlk : s.lk = none) {i : Slot} {a : Nat}
    (hi : Asleep s i a) : ¬ 0 < (s.data.word (s.data.loc i a)).toInt := by
  have hinv := Inv.of_runs h₀ h
  exact hinv.none.not_due hinv.locked hlk (.inr hi)

def alone (v : BitVec 32) : SemSys where
  lk := none
  plock := fun _ => false
  state := fun i => if i = 0 then .running else .unused
  chan := fun _ => none
  killed := fun _ => false
  pc := fun _ => .code .user
  data :=
    { space := fun _ => ⟨fun _ => 0, fun _ => true, fun _ => true⟩
      word := fun _ => v
      posts := fun _ => 0
      waits := fun _ => 0
      posted := fun _ _ => 0
      waited := fun _ _ => 0 }

theorem alone_start (v : BitVec 32) : Start (alone v) where
  lk := rfl
  pc := fun i => by
    have : (alone v).state i ≠ .zombie := by simp only [alone]; split <;> nofun
    rw [if_neg this]
    rfl
  posts := fun _ => rfl
  waits := fun _ => rfl
  posted := fun _ _ => rfl
  waited := fun _ _ => rfl

theorem no_sleeper_on_positive_alone : ∃ s, Runs step (fun _ _ => True) (alone 0) s ∧ s.lk = none ∧
    Asleep s 0 8 ∧ ¬ 0 < (s.data.word (s.data.loc 0 8)).toInt := by
  have h : ∃ s, steps step (alone 0) (List.replicate 7 (.run 0 (.wait 8))) = some s ∧
      s.lk = none ∧ Asleep s 0 8 := ⟨_, rfl, rfl, rfl, rfl⟩
  obtain ⟨s, hs, hlk, hi⟩ := h
  have hr := Runs.of_steps .start (fun _ _ _ => trivial) hs
  exact ⟨s, hr, hlk, hi, no_sleeper_on_positive (alone_start 0) hr hlk hi⟩

end Sem

end OsLab
