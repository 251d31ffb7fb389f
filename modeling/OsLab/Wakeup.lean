import OsLab.Sleep

/-!
# No wakeup is lost

A process that goes to sleep has seen, with `lk` held, that it has to wait. The
rule of this file: when the code that gives it a reason to go on does so with `lk`
held, and calls `wakeup` on its channel before `lk` is released, either after that
or before, no process sleeps with a reason to go on while `lk` is free.
-/

namespace OsLab

namespace Sys
variable {C P D : Type}

/-- Process `j` sleeps on `c`, or is about to with `lk` released. -/
def DozesAt (s : Sys C P D) (j : Slot) (c : C) (p : P) : Prop :=
  s.pc j = .sleepState c p ∨ s.pc j = .sched c p ∧ s.state j = .sleeping

def Dozes (s : Sys C P D) (j : Slot) (c : C) : Prop := ∃ p, s.DozesAt j c p

section
variable (held : P → Bool) (calm : P → Option C) (Due : Sys C P D → Slot → P → Prop)

/-- `Due s i p`: process `i`, which goes on at place `p`, has a reason to. At the places
where `calm` is a channel, nobody sleeps on it. -/
structure NoneLost (s : Sys C P D) : Prop where
  chan : ∀ j c p, s.pc j = .sched c p → s.state j = .sleeping → s.chan j = some c
  woken : ∀ e c k p, s.pc e = .wakeup c k p → ∀ j : Slot, j.val < k → ¬ s.Dozes j c
  quiet : ∀ e p c, s.pc e = .code p → calm p = some c → ∀ j, ¬ s.Dozes j c
  back : ∀ e c, calm (s.pc e).next = some c → (s.pc e).IsCode ∨ ∃ k p, s.pc e = .wakeup c k p
  ready : ∀ i c p, s.pc i = .sleepLock c p ∨ s.pc i = .sleepRelease c p → ¬ Due s i p
  owed : ∀ j c p, s.DozesAt j c p → Due s j p → ∃ e k q, s.pc e = .wakeup c k q ∧ k ≤ j.val

structure WakeStep (i : Slot) (p : P) (s s' : Sys C P D) : Prop extends CodeStep held i p s s' where
  sleepers : ∀ j, j ≠ i → s'.state j = .sleeping → s.state j = .sleeping ∧ s'.chan j = s.chan j
  sleep : ∀ c q, s'.pc i = .sleepLock c q → ¬ Due s' i q ∧ calm q = none
  calmed : ∀ c, calm (s'.pc i).next = some c →
    (∃ q, s'.pc i = .wakeup c 0 q) ∨ (s'.pc i).IsCode ∧ calm p = some c
  due : ∀ j c q, j ≠ i → (s.pc j).Waits c q → Due s' j q → Due s j q ∨
    held p = true ∧ ((∃ q', s'.pc i = .wakeup c 0 q') ∨ calm p = some c)

end

section
variable {held : P → Bool} {calm : P → Option C} {Due : Sys C P D → Slot → P → Prop}
  {s s' : Sys C P D} {i : Slot}

theorem NoneLost.not_due (h : NoneLost calm Due s) (hl : Locked held s) (hfree : s.lk = none)
    {j : Slot} {c : C} {p : P} (hj : s.DozesAt j c p) : ¬ Due s j p := by
  intro hdue
  obtain ⟨e, k, q, hpc, -⟩ := h.owed j c p hj hdue
  have hlk : s.lk = some e := (hl.lk e).mp (by rw [hpc]; rfl)
  rw [hfree] at hlk
  cases hlk

theorem DozesAt.waits {j : Slot} {c : C} {p : P} (h : s.DozesAt j c p) : (s.pc j).Waits c p :=
  h.elim (fun h => .inr (.inr (.inl h))) fun h => .inr (.inr (.inr h.1))

theorem WakeStep.dozesAt {p : P} (h : WakeStep held calm Due i p s s') {j : Slot} {c : C} {q : P}
    (hj : s'.DozesAt j c q) : j ≠ i ∧ s.DozesAt j c q := by
  have hne : j ≠ i := by
    rintro rfl
    obtain ⟨q', hq⟩ | ⟨-, ⟨c', q', hq⟩ | ⟨c', q', hq⟩⟩ := h.own <;> simp [DozesAt, hq] at hj
  refine ⟨hne, ?_⟩
  obtain heq | ⟨q₁, q₂, -, hq, -⟩ := h.other j hne
  · unfold DozesAt at hj ⊢
    rw [heq] at hj
    exact hj.imp id fun hj => ⟨hj.1, (h.sleepers j hne hj.2).1⟩
  · simp [DozesAt, hq] at hj

theorem NoneLost.code {p : P} (hcalm : ∀ p c, calm p = some c → held p = true) (hl : Locked held s)
    (h : NoneLost calm Due s) (hpc : s.pc i = .code p) (hs : WakeStep held calm Due i p s s') :
    NoneLost calm Due s' := by
  have dozes {j : Slot} {c : C} (hj : s'.Dozes j c) : s.Dozes j c :=
    hj.imp fun q hq => (hs.dozesAt hq).2
  -- the other processes are where they were, or at places that do not matter
  have other {e : Slot} (he : e ≠ i) (hcode : ¬ ∃ q, s'.pc e = .code q ∧ held q = false) :
      s'.pc e = s.pc e := by
    obtain heq | ⟨q₁, q₂, -, hq, -, hf⟩ := hs.other e he
    · exact heq
    · exact absurd ⟨q₂, hq, hf⟩ hcode
  constructor
  case chan =>
    intro j c q hj hst
    have hd := hs.dozesAt (.inr ⟨hj, hst⟩)
    have hslept := hs.sleepers j hd.1 hst
    rw [hslept.2]
    exact h.chan j c q ((other hd.1 (by simp [hj])) ▸ hj) hslept.1
  case woken =>
    intro e c k q he j hj hd
    by_cases hei : e = i
    · subst hei
      obtain ⟨q', hq⟩ | ⟨-, ⟨c', q', hq⟩ | ⟨c', q', hq⟩⟩ := hs.own
      · rw [hq] at he; cases he
      · rw [hq] at he; cases he; cases hj
      · rw [hq] at he; cases he
    · exact h.woken e c k q ((other hei (by simp [he])) ▸ he) j hj (dozes hd)
  case quiet =>
    intro e q c he hq j hd
    by_cases hei : e = i
    · subst hei
      obtain ⟨q', hq'⟩ | ⟨-, hp⟩ := hs.calmed c (by rw [he]; exact hq)
      · rw [hq'] at he; cases he
      · exact h.quiet e p c hpc hp j (dozes hd)
    · have hheld := hcalm q c hq
      refine h.quiet e q c ((other hei ?_) ▸ he) hq j (dozes hd)
      rintro ⟨q', hq', hf⟩
      rw [he] at hq'
      cases hq'
      rw [hheld] at hf
      cases hf
  case back =>
    intro e c he
    by_cases hei : e = i
    · subst hei
      obtain ⟨q', hq'⟩ | ⟨hcode, -⟩ := hs.calmed c he
      · exact .inr ⟨0, q', hq'⟩
      · exact .inl hcode
    · obtain heq | ⟨q₁, q₂, -, hq, -⟩ := hs.other e hei
      · rw [heq] at he ⊢; exact h.back e c he
      · exact .inl ⟨q₂, hq⟩
  case ready =>
    intro j c q hj hdue
    by_cases hji : j = i
    · subst hji
      obtain hj | hj := hj
      · exact (hs.sleep c q hj).1 hdue
      · obtain ⟨q', hq⟩ | ⟨-, ⟨c', q', hq⟩ | ⟨c', q', hq⟩⟩ := hs.own <;> simp [hj] at hq
    · have heq := other hji (by rintro ⟨q', hq', -⟩; rw [hq'] at hj; simp at hj)
      rw [heq] at hj
      have hwait : (s.pc j).Waits c q := hj.imp id Or.inl
      obtain hb | ⟨hheld, -⟩ := hs.due j c q hji hwait hdue
      · exact h.ready j c q hj hb
      · -- both would hold `lk`
        refine hji (hl.holder (by rw [hpc]; exact hheld) ?_)
        obtain hj | hj := hj <;> rw [hj] <;> rfl
  case owed =>
    intro j c q hj hdue
    obtain ⟨hji, hd⟩ := hs.dozesAt hj
    obtain hb | ⟨-, ⟨q', hq'⟩ | hp⟩ := hs.due j c q hji hd.waits hdue
    · obtain ⟨e, k, q', he, hk⟩ := h.owed j c q hd hb
      have hei : e ≠ i := by rintro rfl; rw [hpc] at he; cases he
      refine ⟨e, k, q', ?_, hk⟩
      obtain heq | ⟨q₁, q₂, hq₁, -⟩ := hs.other e hei
      · rw [heq, he]
      · rw [he] at hq₁; cases hq₁
    · exact ⟨i, 0, q', hq', Nat.zero_le _⟩
    · exact absurd ⟨q, hd⟩ (h.quiet i p c hpc hp j)

theorem NoneLost.of_step (h : NoneLost calm Due s)
    (hdue : ∀ j p, Due s' j p → Due s j p) (hother : ∀ j, j ≠ i → s'.pc j = s.pc j)
    (hst : ∀ j, j ≠ i → s'.state j = .sleeping → s.state j = .sleeping ∧ s'.chan j = s.chan j)
    (hnext : (s'.pc i).next = (s.pc i).next)
    (hchan : ∀ c p, s'.pc i = .sched c p → s'.state i = .sleeping → s'.chan i = some c)
    (hdoze : ∀ c p, s'.DozesAt i c p → s.DozesAt i c p)
    (hwoken : ∀ c k p, s'.pc i = .wakeup c k p → ∀ j : Slot, j.val < k → ¬ s'.Dozes j c)
    (hquiet : ∀ p c, s'.pc i = .code p → calm p = some c → ∀ j, ¬ s'.Dozes j c)
    (hback : ∀ c, calm (s.pc i).next = some c → (s'.pc i).IsCode ∨ ∃ k p, s'.pc i = .wakeup c k p)
    (hready : ∀ c p, s'.pc i = .sleepLock c p ∨ s'.pc i = .sleepRelease c p →
      s.pc i = .sleepLock c p ∨ s.pc i = .sleepRelease c p)
    (howed : ∀ c k q j p, s.pc i = .wakeup c k q → k ≤ j.val → s'.DozesAt j c p →
      ∃ k' q', s'.pc i = .wakeup c k' q' ∧ k' ≤ j.val) : NoneLost calm Due s' := by
  have dozesAt {j : Slot} {c : C} {p : P} (hj : s'.DozesAt j c p) : s.DozesAt j c p := by
    by_cases hji : j = i
    · subst hji; exact hdoze c p hj
    · unfold DozesAt at *
      rw [hother j hji] at hj
      exact hj.imp id fun hj => ⟨hj.1, (hst j hji hj.2).1⟩
  have dozes {j : Slot} {c : C} (hj : s'.Dozes j c) : s.Dozes j c := hj.imp fun _ => dozesAt
  constructor
  case chan =>
    intro j c p hj hs
    by_cases hji : j = i
    · subst hji; exact hchan c p hj hs
    · rw [(hst j hji hs).2]
      exact h.chan j c p ((hother j hji) ▸ hj) (hst j hji hs).1
  case woken =>
    intro e c k p he j hj hd
    by_cases hei : e = i
    · subst hei; exact hwoken c k p he j hj hd
    · exact h.woken e c k p ((hother e hei) ▸ he) j hj (dozes hd)
  case quiet =>
    intro e p c he hp j hd
    by_cases hei : e = i
    · subst hei; exact hquiet p c he hp j hd
    · exact h.quiet e p c ((hother e hei) ▸ he) hp j (dozes hd)
  case back =>
    intro e c he
    by_cases hei : e = i
    · subst hei; exact hback c (hnext ▸ he)
    · rw [hother e hei] at he ⊢; exact h.back e c he
  case ready =>
    intro j c p hj hd
    refine h.ready j c p ?_ (hdue j p hd)
    by_cases hji : j = i
    · subst hji; exact hready c p hj
    · exact (hother j hji) ▸ hj
  case owed =>
    intro j c p hj hd
    obtain ⟨e, k, q, he, hk⟩ := h.owed j c p (dozesAt hj) (hdue j p hd)
    by_cases hei : e = i
    · subst hei
      obtain ⟨k', q', he', hk'⟩ := howed c k q j p he hk hj
      exact ⟨e, k', q', he', hk'⟩
    · exact ⟨e, k, q, (hother e hei).trans he, hk⟩

theorem NoneLost.congr (h : NoneLost calm Due s) (hdue : ∀ j p, Due s' j p → Due s j p)
    (hpc : s'.pc = s.pc) (hchan : s'.chan = s.chan)
    (hst : ∀ j, s'.state j = .sleeping → s.state j = .sleeping) : NoneLost calm Due s' := by
  have dozesAt {j : Slot} {c : C} {p : P} (hj : s'.DozesAt j c p) : s.DozesAt j c p := by
    unfold DozesAt at *
    rw [hpc] at hj
    exact hj.imp id fun hj => ⟨hj.1, hst j hj.2⟩
  have dozes {j : Slot} {c : C} (hj : s'.Dozes j c) : s.Dozes j c := hj.imp fun _ => dozesAt
  constructor
  case chan =>
    intro j c p hj hs
    rw [hchan]
    exact h.chan j c p (hpc ▸ hj) (hst j hs)
  case woken => exact fun e c k p he j hj hd => h.woken e c k p (hpc ▸ he) j hj (dozes hd)
  case quiet => exact fun e p c he hp j hd => h.quiet e p c (hpc ▸ he) hp j (dozes hd)
  case back => rw [hpc]; exact h.back
  case ready => exact fun j c p hj hd => h.ready j c p (hpc ▸ hj) (hdue j p hd)
  case owed =>
    intro j c p hj hd
    rw [hpc]
    exact h.owed j c p (dozesAt hj) (hdue j p hd)

/-- Nobody but the holder of `lk` is in `wakeup`, at a place that asks for calm, or in `sleep`
with `lk` still held. -/
theorem Locked.alone (hcalm : ∀ p c, calm p = some c → held p = true) (hl : Locked held s)
    (hi : (s.pc i).holds held = true) {e : Slot} (hne : e ≠ i) :
    (∀ c k p, s.pc e ≠ .wakeup c k p) ∧ (∀ p c, s.pc e = .code p → calm p ≠ some c) ∧
      ∀ c p, ¬ (s.pc e = .sleepLock c p ∨ s.pc e = .sleepRelease c p) := by
  have hno : ¬ (s.pc e).holds held = true := fun he => hne (hl.holder hi he)
  refine ⟨fun c k p he => hno (by rw [he]; rfl), fun p c he hp => hno ?_, fun c p he => hno ?_⟩
  · rw [he]; exact hcalm p c hp
  · obtain he | he := he <;> rw [he] <;> rfl

theorem NoneLost.wakeup {t : Sys C P D} {c : C} {k : Nat} {p : P} (h : NoneLost calm Due s)
    (hdue : ∀ j q, Due (t.goto i (.wakeup c (k + 1) p)) j q → Due s j q)
    (hpc : s.pc i = .wakeup c k p) (ht : t.pc = s.pc) (hchan : t.chan = s.chan)
    (hst : ∀ j, t.state j = .sleeping → s.state j = .sleeping)
    (hk : ∀ j : Slot, j.val = k → ¬ (t.goto i (.wakeup c (k + 1) p)).Dozes j c) :
    NoneLost calm Due (t.goto i (.wakeup c (k + 1) p)) := by
  have hpc' := t.goto_self i (.wakeup c (k + 1) p)
  have hother (j : Slot) (hj : j ≠ i) : (t.goto i (.wakeup c (k + 1) p)).pc j = s.pc j := by
    rw [goto_other _ _ hj, ht]
  have hdozes {j : Slot} (hj : (t.goto i (.wakeup c (k + 1) p)).Dozes j c) : s.Dozes j c := by
    have hne : j ≠ i := by rintro rfl; obtain ⟨q, hq⟩ := hj; simp [DozesAt] at hq
    refine hj.imp fun q hq => ?_
    unfold DozesAt at hq
    rw [hother j hne] at hq
    exact hq.imp id fun hq => ⟨hq.1, hst j hq.2⟩
  refine h.of_step (i := i) hdue hother (fun j _ hj => ⟨hst j hj, congrFun hchan j⟩)
    (by rw [hpc', hpc]; rfl) ?_ ?_ ?_ ?_ ?_ ?_ ?_
  · intro c' p' h'; rw [hpc'] at h'; cases h'
  · intro c' p' h'; simp [DozesAt] at h'
  · intro c' k' p' h' j hj hd
    rw [hpc'] at h'
    cases h'
    by_cases hjk : j.val = k
    · exact hk j hjk hd
    · exact h.woken i c k p hpc j (by omega) (hdozes hd)
  · intro p' c' h'; rw [hpc'] at h'; cases h'
  · intro c' hc'
    obtain ⟨q, hq⟩ | ⟨k', q, hq⟩ := h.back i c' hc'
    · rw [hpc] at hq; cases hq
    · rw [hpc] at hq; cases hq; exact .inr ⟨_, _, hpc'⟩
  · intro c' p' h'; rw [hpc'] at h'; simp at h'
  · intro c' k' q j p' h' hle hd
    rw [hpc] at h'
    cases h'
    have hjk : j.val ≠ k := fun e => hk j e ⟨p', hd⟩
    exact ⟨_, _, hpc', by omega⟩

theorem NoneLost.goto {t : Sys C P D} {pc : Pc C P} (h : NoneLost calm Due s)
    (hdue : ∀ j q, Due (t.goto i pc) j q → Due s j q) (ht : t.pc = s.pc) (hnext : pc.next = (s.pc i).next)
    (hst : ∀ j, j ≠ i → t.state j = s.state j ∧ t.chan j = s.chan j)
    (hchan : ∀ c p, pc = .sched c p → t.state i = .sleeping → t.chan i = some c)
    (hdoze : ∀ c p, (t.goto i pc).DozesAt i c p → s.DozesAt i c p)
    (hwake : ∀ c k p, pc ≠ .wakeup c k p) (hwoke : ∀ c k p, s.pc i ≠ .wakeup c k p)
    (hcode : ¬ (s.pc i).IsCode)
    (hready : ∀ c p, pc = .sleepLock c p ∨ pc = .sleepRelease c p →
      s.pc i = .sleepLock c p ∨ s.pc i = .sleepRelease c p) : NoneLost calm Due (t.goto i pc) := by
  have hcalm (c : C) : calm (s.pc i).next ≠ some c := fun hc =>
    (h.back i c hc).elim hcode fun ⟨k, p, hp⟩ => hwoke c k p hp
  have hpc' := t.goto_self i pc
  refine h.of_step (i := i) hdue (fun j hj => by rw [goto_other _ _ hj, ht])
    (fun j hj hsl => ⟨(hst j hj).1 ▸ hsl, (hst j hj).2⟩) (by rw [hpc', hnext]) ?_ hdoze ?_ ?_ ?_ ?_ ?_
  · rw [hpc']; exact hchan
  · intro c k p h'; rw [hpc'] at h'; exact absurd h' (hwake c k p)
  · intro p c h' hp
    rw [hpc'] at h'
    rw [h'] at hnext
    exact absurd (hnext ▸ hp) (hcalm c)
  · exact fun c hc => absurd hc (hcalm c)
  · rw [hpc']; exact hready
  · exact fun c k q j p h' => absurd h' (hwoke c k q)

theorem NoneLost.awake {t : Sys C P D} {st : ProcState} (h : NoneLost calm Due s)
    (hdue : ∀ j p, Due t j p → Due s j p) (hpc : t.pc = s.pc) (hchan : t.chan = s.chan)
    (hstate : t.state = Function.update s.state i st) (hst : st ≠ .sleeping) : NoneLost calm Due t := by
  refine h.congr hdue hpc hchan fun j hj => ?_
  rw [hstate] at hj
  by_cases hji : j = i
  · subst hji
    rw [Function.update_self] at hj
    exact absurd hj hst
  · rwa [Function.update_of_ne hji] at hj

theorem wakeupAt_sleeping [DecidableEq C] {j₀ j : Slot} {c : C} (hj : (s.wakeupAt j₀ c).state j = .sleeping) :
    s.state j = .sleeping ∧ (j = j₀ → s.chan j ≠ some c) := by
  unfold Sys.wakeupAt Sys.rouse at hj
  by_cases hc : s.chan j₀ = some c
  · rw [if_pos hc] at hj
    split at hj
    · by_cases hjj : j = j₀
      · subst hjj; simp at hj
      · exact ⟨by simpa [Function.update_of_ne hjj] using hj, fun e => absurd e hjj⟩
    · rename_i hno
      exact ⟨hj, fun e => absurd (e ▸ hj) hno⟩
  · rw [if_neg hc] at hj
    exact ⟨hj, fun e => e ▸ hc⟩

theorem NoneLost.wakeupAt [DecidableEq C] {j₀ : Slot} {c : C} {p : P} (hl : Locked held s) (h : NoneLost calm Due s)
    (hdue : ∀ j q, Due ((s.wakeupAt j₀ c).goto i (.wakeup c (j₀ + 1) p)) j q → Due s j q)
    (hpc : s.pc i = .wakeup c j₀ p) (hpl : s.plock j₀ = false) :
    NoneLost calm Due ((s.wakeupAt j₀ c).goto i (.wakeup c (j₀ + 1) p)) := by
  have hsame : (s.wakeupAt j₀ c).pc = s.pc ∧ (s.wakeupAt j₀ c).chan = s.chan := by
    obtain heq | ⟨-, heq⟩ := s.wakeupAt_cases j₀ c <;> rw [heq] <;> exact ⟨rfl, rfl⟩
  refine h.wakeup hdue hpc hsame.1 hsame.2 (fun j hj => (wakeupAt_sleeping hj).1) fun j hj hd => ?_
  obtain rfl : j = j₀ := Fin.ext hj
  obtain ⟨q, hq⟩ := hd
  by_cases hji : j = i
  · subst hji; simp [DozesAt] at hq
  · unfold DozesAt at hq
    rw [goto_other _ _ hji, hsame.1] at hq
    obtain hq | ⟨hq, hst⟩ := hq
    · -- its `p->lock` is held from before `lk` was released
      have := hl.plock j c q (.inr hq)
      rw [hpl] at this
      cases this
    · obtain ⟨hst, hne⟩ := wakeupAt_sleeping hst
      exact hne rfl (h.chan j c q hq hst)

theorem NoneLost.wakeupEnd {c : C} {k : Nat} {p : P} (h : NoneLost calm Due s)
    (hdue : ∀ j q, Due (s.goto i (.code p)) j q → Due s j q) (hpc : s.pc i = .wakeup c k p) (hk : 64 ≤ k) :
    NoneLost calm Due (s.goto i (.code p)) := by
  have hpc' := s.goto_self i (.code p)
  refine h.of_step (i := i) hdue (fun j hj => goto_other _ _ hj) (fun _ _ hst => ⟨hst, rfl⟩)
    (by rw [hpc', hpc]; rfl) ?_ ?_ ?_ ?_ ?_ ?_ ?_
  · intro c' p' h'; rw [hpc'] at h'; cases h'
  · intro c' p' h'; simp [DozesAt] at h'
  · intro c' k' p' h'; rw [hpc'] at h'; cases h'
  · intro p' c' h' hp' j hd
    rw [hpc'] at h'
    cases h'
    have hc : c' = c := by
      obtain ⟨q, hq⟩ | ⟨k', q, hq⟩ := h.back i c' (by rw [hpc]; exact hp')
      · rw [hpc] at hq; cases hq
      · rw [hpc] at hq; cases hq; rfl
    subst hc
    have hne : j ≠ i := by rintro rfl; obtain ⟨q, hq⟩ := hd; simp [DozesAt] at hq
    refine h.woken i c' k p hpc j (by omega) (hd.imp fun q hq => ?_)
    unfold DozesAt at hq
    rwa [goto_other _ _ hne] at hq
  · exact fun c' _ => .inl ⟨p, hpc'⟩
  · intro c' p' h'; rw [hpc'] at h'; simp at h'
  · intro c' k' q j p' h' hle
    rw [hpc] at h'
    cases h'
    omega

theorem NoneLost.sleepRelease {c : C} {p : P} (hcalm : ∀ p c, calm p = some c → held p = true) (hl : Locked held s)
    (h : NoneLost calm Due s) (hdue : ∀ j q, Due ({ s with lk := none }.goto i (.sleepState c p)) j q → Due s j q)
    (hpc : s.pc i = .sleepRelease c p) : NoneLost calm Due ({ s with lk := none }.goto i (.sleepState c p)) := by
  have hpc' : ({ s with lk := none }.goto i (.sleepState c p)).pc i = _ := goto_self ..
  have hother (j : Slot) (hj : j ≠ i) :
      ({ s with lk := none }.goto i (.sleepState c p)).pc j = s.pc j := goto_other _ _ hj
  have hi : (s.pc i).holds held = true := by rw [hpc]; rfl
  have alone (e : Slot) (hne : e ≠ i) := Locked.alone hcalm hl hi hne
  constructor
  case chan =>
    intro j c' q hj hst
    by_cases hji : j = i
    · subst hji; rw [hpc'] at hj; cases hj
    · exact h.chan j c' q (hother j hji ▸ hj) hst
  case woken =>
    intro e c' k q he
    by_cases hei : e = i
    · subst hei; rw [hpc'] at he; cases he
    · exact absurd (hother e hei ▸ he) ((alone e hei).1 c' k q)
  case quiet =>
    intro e q c' he hq
    by_cases hei : e = i
    · subst hei; rw [hpc'] at he; cases he
    · exact absurd hq ((alone e hei).2.1 q c' (hother e hei ▸ he))
  case back =>
    intro e c' he
    by_cases hei : e = i
    · subst hei
      rw [hpc'] at he
      obtain ⟨q, hq⟩ | ⟨k, q, hq⟩ := h.back e c' (by rw [hpc]; exact he) <;> rw [hpc] at hq <;>
        cases hq
    · rw [hother e hei] at he ⊢; exact h.back e c' he
  case ready =>
    intro j c' q hj
    by_cases hji : j = i
    · subst hji; rw [hpc'] at hj; simp at hj
    · exact absurd (hother j hji ▸ hj) ((alone j hji).2.2 c' q)
  case owed =>
    intro j c' q hj hd
    by_cases hji : j = i
    · -- it has seen, with `lk` held, that it has to wait
      subst hji
      obtain ⟨rfl, rfl⟩ : c = c' ∧ p = q := by simpa [DozesAt] using hj
      exact absurd (hdue j p hd) (h.ready j c p (.inr hpc))
    · unfold DozesAt at hj
      rw [hother j hji] at hj
      obtain ⟨e, k, q', he, -⟩ := h.owed j c' q hj (hdue j q hd)
      by_cases hei : e = i
      · subst hei; rw [hpc] at he; cases he
      · exact absurd he ((alone e hei).1 c' k q')

theorem NoneLost.switch [DecidableEq C] (hcalm : ∀ p c, calm p = some c → held p = true)
    (hframe : ∀ s s' : Sys C P D, Frame s s' → ∀ j p, Due s' j p → Due s j p) (hl : Locked held s)
    (h : NoneLost calm Due s) (hs : Switch s s') : NoneLost calm Due s' := by
  have hdue := hframe s s' hs.frame
  cases hs with
  | @wakeupSelf i c p hpc =>
    refine h.wakeup hdue hpc rfl rfl (fun _ hst => hst) fun j hj hd => ?_
    obtain rfl : j = i := Fin.ext hj
    obtain ⟨q, hq⟩ := hd
    simp [DozesAt] at hq
  | @wakeupAt i j₀ c p hpc hpl => exact h.wakeupAt hl hdue hpc hpl
  | @wakeupEnd i c k p hpc hk => exact h.wakeupEnd hdue hpc hk
  | @sleepLock i c p hpc =>
    refine h.goto hdue rfl (by rw [hpc]; rfl) (fun _ _ => ⟨rfl, rfl⟩) nofun (fun c' p' h' => ?_) nofun
      (by rw [hpc]; nofun) (by rw [hpc]; nofun) fun c' p' h' => ?_
    · simp [DozesAt] at h'
    · rw [hpc]
      simpa using h'
  | @sleepRelease i c p hpc => exact h.sleepRelease hcalm hl hdue hpc
  | @sleepState i c p hpc hst =>
    refine h.goto hdue rfl (by rw [hpc]; rfl) (fun j hj => ⟨?_, ?_⟩) (fun c' p' h' _ => ?_)
      (fun c' p' h' => ?_) nofun (by rw [hpc]; nofun) (by rw [hpc]; nofun) fun c' p' h' => ?_
    · exact Function.update_of_ne hj ..
    · exact Function.update_of_ne hj ..
    · cases h'; exact Function.update_self ..
    · obtain ⟨rfl, rfl⟩ : c = c' ∧ p = p' := by simpa [DozesAt] using h'
      exact .inl hpc
    · simp at h'
  | @reacquire i p hpc hlk =>
    refine h.goto hdue rfl (by rw [hpc]; rfl) (fun _ _ => ⟨rfl, rfl⟩) nofun (fun c' p' h' => ?_) nofun
      (by rw [hpc]; nofun) (by rw [hpc]; nofun) fun c' p' h' => ?_
    · simp [DozesAt] at h'
    · simp at h'
  | @schedule i hst =>
    revert hdue
    unfold Sys.schedule
    split
    · rename_i c p hpc
      intro hdue
      refine h.goto hdue rfl (by rw [hpc]; rfl) (fun j hj => ⟨?_, ?_⟩) nofun (fun c' p' h' => ?_) nofun
        (by rw [hpc]; nofun) (by rw [hpc]; nofun) fun c' p' h' => ?_
      · exact Function.update_of_ne hj ..
      · exact Function.update_of_ne hj ..
      · simp [DozesAt] at h'
      · simp at h'
    · intro hdue
      exact h.awake hdue rfl rfl rfl (by simp)
  | @yield i hst => exact h.awake hdue rfl rfl rfl (by simp)
  | @rouse i killed =>
    obtain heq | ⟨-, heq⟩ := Sys.rouse_cases { s with killed := killed } i
    · rw [heq] at hdue ⊢
      exact h.congr hdue rfl rfl fun _ hj => hj
    · rw [heq] at hdue ⊢
      exact h.awake hdue rfl rfl rfl (by simp)

end

end Sys

end OsLab
