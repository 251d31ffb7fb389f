import OsLab.SemaphoreSound

/-!
# Semaphores count

With `sem_lock` free, a semaphore word is its first value plus the posts minus the
waits that have returned 0, and is not negative. A semaphore that starts at 1 and is
only posted by threads that have it keeps the others out.
-/

namespace OsLab

namespace Sem

open Sys

def effect (d : Sems) (w : Loc) (i : Slot) : SemPlace → Int
  | .postReturn a => if d.loc i a = w then 1 else 0
  | .waitReturn a => if d.loc i a = w then -1 else 0
  | _ => 0

def pending (w : Loc) (s : SemSys) : Int :=
  match s.lk with
  | some i => effect s.data w i (s.pc i).next
  | none => 0

def balance (v₀ : Int) (w : Loc) (d : Sems) : Int := v₀ + d.posts w - d.waits w

structure Counts (v₀ : Int) (w : Loc) (s : SemSys) : Prop where
  word : s.data.word w = BitVec.ofInt 32 (balance v₀ w s.data + pending w s)
  enough : v₀ + s.data.posts w < 2 ^ 31 →
    0 ≤ balance v₀ w s.data ∧ 0 ≤ balance v₀ w s.data + pending w s

section
variable {i : Slot} {p : SemPlace} {s s' : SemSys} {w : Loc} {v₀ : Int}

theorem pending_holder (h : s.lk = some i) : pending w s = effect s.data w i (s.pc i).next := by
  rw [pending, h]

theorem pending_free (h : s.lk = none) : pending w s = 0 := by rw [pending, h]

theorem pending_switch (hl : Locked held s) (h : Knows s) (hs : Switch s s') :
    pending w s' = pending w s := by
  obtain hlk | ⟨i, c, q, hpc, hlk'⟩ | ⟨i, q, hpc, hlk, hlk'⟩ := hs.lk_cases
  · simp only [pending, hlk, hs.frame.data, hs.frame.next]
  · have hlk : s.lk = some i := (hl.lk i).mp (by rw [hpc]; rfl)
    obtain rfl := h.chan i c q (by rw [hpc]; exact .inr (.inl rfl))
    rw [pending_free hlk', pending_holder hlk, hpc]
    rfl
  · obtain ⟨a, rfl⟩ := h.back i q hpc
    rw [pending_free hlk, pending_holder hlk', hs.frame.next, hpc]
    rfl

theorem Counts.switch (hl : Locked held s) (hk : Knows s) (h : Counts v₀ w s) (hs : Switch s s') :
    Counts v₀ w s' := by
  have hp := pending_switch (w := w) hl hk hs
  constructor
  · rw [hp, hs.frame.data]; exact h.word
  · rw [hp, hs.frame.data]; exact h.enough

theorem Move.posts_le (hm : Move i s p s') : s.data.posts w ≤ s'.data.posts w := by
  cases hm with
  | postReturn a =>
    simp only [leave, goto_data, countPost, count, Function.update_apply]
    split
    · rename_i hw; rw [hw]; exact Nat.le_succ _
    · exact Nat.le_refl _
  | _ => exact Nat.le_refl _

theorem Counts.keep (h : Counts v₀ w s) (hm : Move i s p s') (hw : s'.data.word w = s.data.word w)
    (hsum : balance v₀ w s'.data + pending w s' = balance v₀ w s.data + pending w s)
    (hone : balance v₀ w s'.data = balance v₀ w s.data ∨ pending w s' = 0) : Counts v₀ w s' where
  word := by rw [hw, hsum]; exact h.word
  enough := fun hb => by
    have hle := hm.posts_le (w := w)
    have := h.enough (by omega)
    omega

theorem effect_congr {d d' : Sems} (hsp : d'.space i = d.space i) :
    effect d' w i p = effect d w i p := by
  have hloc (a : Nat) : d'.loc i a = d.loc i a := by rw [Sems.loc, hsp]; rfl
  cases p <;> simp [effect, hloc]

theorem pending_move (hl : Locked held s) (h : Knows s) (hpc : s.pc i = .code p) (hm : Move i s p s')
    (hp : held p = false) : pending w s' = pending w s := by
  have hcs := hm.codeStep h
  cases hlk : s.lk with
  | none =>
    rw [pending_free hlk]
    cases hm with
    | waitAcquire a => rw [pending_holder (i := i) rfl, goto_self]; rfl
    | postAcquire a => rw [pending_holder (i := i) rfl, goto_self]; rfl
    | fail hp' => rw [hp] at hp'; cases hp'
    | _ => first | exact pending_free hlk | cases hp
  | some e =>
    have hold : (s.pc e).holds held = true := (hl.lk e).mpr hlk
    have hne : e ≠ i := by
      rintro rfl
      rw [hpc] at hold
      exact Bool.false_ne_true (hp.symm.trans hold)
    have hlk' : s'.lk = some e := by
      rw [hcs.lk, hp, if_pos, hlk]
      by_contra hnew
      have := hcs.free hp (by simpa using hnew)
      rw [hlk] at this
      cases this
    have hact := h.active hold
    have hpc' : s'.pc e = s.pc e := by
      obtain heq | ⟨hun, -⟩ := hm.other hne
      · exact heq
      · simp [hun, ProcState.Active] at hact
    have hsp : s'.data.space e = s.data.space e := by
      obtain ⟨-, -, hsp⟩ | ⟨hno, -⟩ := hm.state hne
      · exact hsp
      · exact absurd hact hno
    rw [pending_holder hlk, pending_holder hlk', hpc']
    exact effect_congr hsp

theorem effect_eq_zero (hw : ∀ a, p ≠ .waitReturn a) (hp : ∀ a, p ≠ .postReturn a) :
    effect s.data w i p = 0 := by
  cases p <;> simp_all [effect]

theorem Move.balance_eq (v₀ : Int) (hm : Move i s p s') (hp : held p = false) :
    balance v₀ w s'.data = balance v₀ w s.data := by
  cases hm <;> first | rfl | cases hp

theorem Counts.toInt_eq (h : Counts v₀ w s) (hpend : pending w s = 0)
    (hb : v₀ + s.data.posts w < 2 ^ 31) : (s.data.word w).toInt = balance v₀ w s.data := by
  have henough := (h.enough hb).1
  rw [h.word, hpend, Int.add_zero, BitVec.toInt_ofInt]
  apply Int.bmod_eq_of_le
  · omega
  · unfold balance at *; omega

theorem Counts.write {δ : Int} (h : Counts v₀ w s) (hpend : pending w s = 0)
    (hw : s'.data.word w = s.data.word w + BitVec.ofInt 32 δ)
    (hdata : s'.data.posts = s.data.posts ∧ s'.data.waits = s.data.waits)
    (hpend' : pending w s' = δ) (hδ : 0 < (s.data.word w).toInt ∧ δ = -1 ∨ 0 ≤ δ) :
    Counts v₀ w s' := by
  have hword := h.word
  rw [hpend, Int.add_zero] at hword
  have hbal : balance v₀ w s'.data = balance v₀ w s.data := by
    rw [balance, hdata.1, hdata.2]; rfl
  constructor
  · rw [hw, hbal, hpend', hword, BitVec.ofInt_add]
  · intro hb
    rw [hdata.1] at hb
    have hle := h.enough hb
    rw [hbal, hpend']
    refine ⟨hle.1, ?_⟩
    obtain ⟨hpos, rfl⟩ | hδ := hδ
    · have hint := h.toInt_eq hpend hb
      omega
    · omega

theorem pending_goto {t : SemSys} {pc : Pc Nat SemPlace} (h : t.lk = some i) :
    pending w (t.goto i pc) = effect t.data w i pc.next := by
  rw [pending_holder (s := t.goto i pc) h, goto_self]
  rfl

theorem pending_leave {t : SemSys} : pending w (leave t i) = 0 := pending_free rfl

theorem count_self (f : Loc → Nat) : count f w w = f w + 1 := Function.update_self ..

theorem count_other (f : Loc → Nat) {w' : Loc} (h : w' ≠ w) : count f w w' = f w' :=
  Function.update_of_ne h ..

theorem count_slot_self (f : Slot → Loc → Nat) :
    Function.update f i (count (f i) w) i w = f i w + 1 := by
  rw [Function.update_self, count_self]

theorem count_slot_other (f : Slot → Loc → Nat) {w' : Loc} {j : Slot} (h : w' ≠ w ∨ j ≠ i) :
    Function.update f i (count (f i) w) j w' = f j w' := by
  by_cases hj : j = i
  · subst hj
    rw [Function.update_self, count_other _ (h.resolve_right (absurd rfl))]
  · rw [Function.update_of_ne hj]

theorem Counts.move (hl : Locked held s) (hk : Knows s) (h : Counts v₀ w s) (hpc : s.pc i = .code p)
    (hm : Move i s p s') : Counts v₀ w s' := by
  cases hp : held p with
  | false =>
    have hbal := hm.balance_eq (w := w) v₀ hp
    have hpend := pending_move (w := w) hl hk hpc hm hp
    exact h.keep hm (congrFun (hm.word hp) w) (by rw [hbal, hpend]) (.inl hbal)
  | true =>
    have hlk : s.lk = some i := (hl.lk i).mp (by rw [hpc]; exact hp)
    have hpend : pending w s = effect s.data w i p := by rw [pending_holder hlk, hpc]; rfl
    have hfact := hk.fact i
    rw [hpc] at hfact
    cases hm with
    | waitWrite a v =>
      have hpend' : pending w ((setWord s (s.data.loc i a) v).goto i (.code (.waitReturn a))) =
          if s.data.loc i a = w then -1 else 0 := pending_goto hlk
      by_cases hloc : s.data.loc i a = w
      · subst hloc
        rw [if_pos rfl] at hpend'
        refine h.write hpend ?_ ⟨rfl, rfl⟩ hpend' (.inl ⟨hfact.2, rfl⟩)
        rw [goto_data, setWord_word, Function.update_self, hfact.1, BitVec.sub_eq_add_neg]
        exact congrArg _ (by decide)
      · rw [if_neg hloc] at hpend'
        refine h.keep (.waitWrite a v) ?_ (by rw [hpend', hpend]; rfl) (.inr hpend')
        rw [goto_data, setWord_word, Function.update_of_ne (Ne.symm hloc)]
    | postWrite a v =>
      have hpend' : pending w ((setWord s (s.data.loc i a) v).goto i (.wakeup a 0 (.postReturn a))) =
          if s.data.loc i a = w then 1 else 0 := pending_goto hlk
      by_cases hloc : s.data.loc i a = w
      · subst hloc
        rw [if_pos rfl] at hpend'
        refine h.write hpend ?_ ⟨rfl, rfl⟩ hpend' (.inr (by decide))
        rw [goto_data, setWord_word, Function.update_self, show v = _ from hfact]
        rfl
      · rw [if_neg hloc] at hpend'
        refine h.keep (.postWrite a v) ?_ (by rw [hpend', hpend]; rfl) (.inr hpend')
        rw [goto_data, setWord_word, Function.update_of_ne (Ne.symm hloc)]
    | waitReturn a =>
      refine h.keep (.waitReturn a) rfl ?_ (.inr pending_leave)
      rw [pending_leave, hpend]
      by_cases hloc : s.data.loc i a = w
      · subst hloc
        simp [balance, leave, countWait, count_self, effect]
        omega
      · simp [balance, leave, countWait, count_other _ (Ne.symm hloc), effect, hloc]
    | postReturn a =>
      refine h.keep (.postReturn a) rfl ?_ (.inr pending_leave)
      rw [pending_leave, hpend]
      by_cases hloc : s.data.loc i a = w
      · subst hloc
        simp [balance, leave, countPost, count_self, effect]
        omega
      · simp [balance, leave, countPost, count_other _ (Ne.symm hloc), effect, hloc]
    | fail hp hw hp' =>
      refine h.keep (.fail hp hw hp') rfl ?_ (.inr pending_leave)
      rw [pending_leave, hpend, effect_eq_zero hw hp']
      rfl
    | waitRead a hpos =>
      exact h.keep (.waitRead a hpos) rfl (by rw [pending_goto hlk, hpend]; rfl) (.inl rfl)
    | waitNone a hno =>
      exact h.keep (.waitNone a hno) rfl (by rw [pending_goto hlk, hpend]; rfl) (.inl rfl)
    | waitSleep a => exact h.keep (.waitSleep a) rfl (by rw [pending_goto hlk, hpend]; rfl) (.inl rfl)
    | postRead a => exact h.keep (.postRead a) rfl (by rw [pending_goto hlk, hpend]; rfl) (.inl rfl)
    | _ => cases hp

/-! ## One at a time -/

/-- Process `i` is between a `sem_wait` on `w` that returned 0 and its `sem_post`. -/
def Inside (s : SemSys) (w : Loc) (i : Slot) : Prop := s.data.posted i w < s.data.waited i w

instance (s : SemSys) (w : Loc) (i : Slot) : Decidable (Inside s w i) :=
  inferInstanceAs (Decidable (_ < _))

def Disciplined (w : Loc) (s : SemSys) (act : Act SemCall) : Prop :=
  ∀ i a, act = .run i (.post a) → s.pc i = .code .user → s.data.loc i a = w → Inside s w i

def inPost (d : Sems) (w : Loc) (i : Slot) : SemPlace → Nat
  | .postAcquire a | .postRead a | .postWrite a _ | .postReturn a => if d.loc i a = w then 1 else 0
  | _ => 0

structure Excl (w : Loc) (s : SemSys) : Prop where
  le : s.data.posts w ≤ s.data.waits w
  post : ∀ i, s.data.posted i w + inPost s.data w i (s.pc i).next ≤ s.data.waited i w
  once : ∀ i, s.data.waited i w ≤ s.data.posted i w + 1
  only : ∀ i j, Inside s w i → Inside s w j → i = j
  spent : ∀ i, Inside s w i → s.data.posts w < s.data.waits w

theorem Excl.switch (h : Excl w s) (hs : Switch s s') : Excl w s' := by
  have hf := hs.frame
  constructor
  · rw [hf.data]; exact h.le
  · intro j
    rw [hf.data, hf.next]
    exact h.post j
  · rw [hf.data]; exact h.once
  · unfold Inside; rw [hf.data]; exact h.only
  · unfold Inside; rw [hf.data]; exact h.spent

theorem inPost_other (hk : Knows s) (hm : Move i s p s') {j : Slot} (hj : j ≠ i) :
    inPost s'.data w j (s'.pc j).next ≤ inPost s.data w j (s.pc j).next := by
  obtain heq | ⟨-, huser⟩ := hm.other hj
  · rw [heq]
    obtain ⟨-, -, hsp⟩ | ⟨hact, -⟩ := hm.state hj
    · have hloc (a : Nat) : s'.data.loc j a = s.data.loc j a := by rw [Sems.loc, hsp]; rfl
      cases (s.pc j).next <;> simp [inPost, hloc]
    · obtain ⟨q, hq, -, rfl | rfl⟩ := hk.idle hact <;> rw [hq] <;> exact Nat.zero_le _
  · rw [huser]; exact Nat.zero_le _

theorem inPost_own (hm : Move i s p s') :
    inPost s'.data w i (s'.pc i).next ≤ inPost s.data w i p ∨
      ∃ a, p = .user ∧ s'.pc i = .code (.postAcquire a) ∧
        inPost s'.data w i (s'.pc i).next = if s.data.loc i a = w then 1 else 0 := by
  cases hm with
  | post a => exact .inr ⟨a, rfl, goto_self .., by rw [goto_self]; rfl⟩
  | postAcquire a => exact .inl (by rw [goto_self]; exact Nat.le_refl _)
  | postRead a => exact .inl (by rw [goto_self]; exact Nat.le_refl _)
  | postWrite a v => exact .inl (by rw [goto_self]; exact Nat.le_refl _)
  | _ => exact .inl (by simp [leave, inPost, Pc.next])

theorem Excl.post_move (hk : Knows s) (h : Excl w s) (hpc : s.pc i = .code p) (hm : Move i s p s')
    (hd : ∀ a, p = .user → s'.pc i = .code (.postAcquire a) → s.data.loc i a = w → Inside s w i)
    (j : Slot) : s.data.posted j w + inPost s'.data w j (s'.pc j).next ≤ s.data.waited j w := by
  have hpost := h.post j
  by_cases hj : j = i
  · subst hj
    rw [hpc] at hpost
    obtain hle | ⟨a, hp, hpc', heq⟩ := inPost_own (w := w) hm
    · exact Nat.le_trans (Nat.add_le_add_left hle _) hpost
    · rw [heq]
      split
      · exact hd a hp hpc' ‹_›
      · exact Nat.le_trans (Nat.le_add_right ..) hpost
  · exact Nat.le_trans (Nat.add_le_add_left (inPost_other hk hm hj) _) hpost

theorem Excl.keep (h : Excl w s) (hposts : s'.data.posts w = s.data.posts w)
    (hwaits : s'.data.waits w = s.data.waits w)
    (hposted : ∀ j, s'.data.posted j w = s.data.posted j w)
    (hwaited : ∀ j, s'.data.waited j w = s.data.waited j w)
    (hpost : ∀ j, s.data.posted j w + inPost s'.data w j (s'.pc j).next ≤ s.data.waited j w) :
    Excl w s' := by
  have hin (j : Slot) (hj : Inside s' w j) : Inside s w j := by
    rwa [Inside, hposted, hwaited] at hj
  constructor
  · rw [hposts, hwaits]; exact h.le
  · intro j; rw [hposted, hwaited]; exact hpost j
  · intro j; rw [hposted, hwaited]; exact h.once j
  · exact fun j k hj hk => h.only j k (hin j hj) (hin k hk)
  · intro j hj; rw [hposts, hwaits]; exact h.spent j (hin j hj)

/-- A `sem_wait` on `w` returns. Its effect on the word shows that nobody was inside. -/
theorem Excl.waitReturn {a : Nat} (hc : Counts 1 w s) (hb : 1 + (s.data.posts w : Int) < 2 ^ 31)
    (h : Excl w s) (hlk : s.lk = some i) (hpc : s.pc i = .code (.waitReturn a))
    (hloc : s.data.loc i a = w)
    (hpost : ∀ j, s.data.posted j w + inPost s'.data w j (s'.pc j).next ≤ s.data.waited j w)
    (hs' : s'.data = countWait s.data i w) : Excl w s' := by
  have hle : s.data.waits w ≤ s.data.posts w := by
    have henough := (hc.enough hb).2
    rw [pending_holder hlk, hpc, Pc.next, effect, if_pos hloc, balance] at henough
    omega
  have hout (j : Slot) : ¬ Inside s w j := fun hj => by
    have := h.spent j hj
    omega
  have hwaits : s'.data.waits w = s.data.waits w + 1 := by rw [hs']; exact count_self _
  have hi : s'.data.waited i w = s.data.waited i w + 1 := by
    rw [hs']
    exact count_slot_self _
  have hother (j : Slot) (hj : j ≠ i) : s'.data.waited j w = s.data.waited j w := by
    rw [hs']
    exact count_slot_other _ (.inr hj)
  have hposted : s'.data.posted = s.data.posted := by rw [hs']; rfl
  have hposts : s'.data.posts = s.data.posts := by rw [hs']; rfl
  have hin (j : Slot) (hj : Inside s' w j) : j = i := by
    by_contra hne
    rw [Inside, hposted, hother j hne] at hj
    exact hout j hj
  have hle' := h.le
  constructor
  · rw [hposts, hwaits]; omega
  · intro j
    rw [hposted]
    refine Nat.le_trans (hpost j) ?_
    by_cases hj : j = i
    · subst hj; rw [hi]; exact Nat.le_succ _
    · exact Nat.le_of_eq (hother j hj).symm
  · intro j
    rw [hposted]
    by_cases hj : j = i
    · subst hj
      have := hout j
      rw [hi]
      unfold Inside at this
      omega
    · rw [hother j hj]; exact h.once j
  · exact fun j k hj hk => (hin j hj).trans (hin k hk).symm
  · intro j _; rw [hposts, hwaits]; omega

theorem Excl.postReturn {a : Nat} (h : Excl w s) (hpc : s.pc i = .code (.postReturn a))
    (hloc : s.data.loc i a = w) (hpc' : s'.pc i = .code .user)
    (hpost : ∀ j, s.data.posted j w + inPost s'.data w j (s'.pc j).next ≤ s.data.waited j w)
    (hs' : s'.data = countPost s.data i w) : Excl w s' := by
  have hinside : Inside s w i := by
    have := h.post i
    rwa [hpc, Pc.next, inPost, if_pos hloc] at this
  have hposts : s'.data.posts w = s.data.posts w + 1 := by rw [hs']; exact count_self _
  have hi : s'.data.posted i w = s.data.posted i w + 1 := by
    rw [hs']
    exact count_slot_self _
  have hother (j : Slot) (hj : j ≠ i) : s'.data.posted j w = s.data.posted j w := by
    rw [hs']
    exact count_slot_other _ (.inr hj)
  have hwaited : s'.data.waited = s.data.waited := by rw [hs']; rfl
  have hwaits : s'.data.waits = s.data.waits := by rw [hs']; rfl
  have hout (j : Slot) : ¬ Inside s' w j := fun hj => by
    by_cases hne : j = i
    · subst hne
      have := h.once j
      rw [Inside, hi, hwaited] at hj
      omega
    · rw [Inside, hother j hne, hwaited] at hj
      exact hne (h.only j i hj hinside)
  constructor
  · rw [hposts, hwaits]; exact h.spent i hinside
  · intro j
    rw [hwaited]
    by_cases hj : j = i
    · subst hj; rw [hi, hpc']; exact hinside
    · rw [hother j hj]; exact hpost j
  · intro j
    rw [hwaited]
    by_cases hj : j = i
    · subst hj; rw [hi]; exact Nat.le_succ_of_le (h.once j)
    · rw [hother j hj]; exact h.once j
  · exact fun j _ hj => absurd hj (hout j)
  · exact fun j hj => absurd hj (hout j)

theorem Excl.create {np : Slot} {space : Space} (h : Excl w s)
    (hdata : s'.data = (Sem.create s np space).data) (hpc : s'.pc np = .code .user)
    (hpost : ∀ j, s.data.posted j w + inPost s'.data w j (s'.pc j).next ≤ s.data.waited j w) :
    Excl w s' := by
  have hnew : s'.data.posted np w = 0 ∧ s'.data.waited np w = 0 := by
    simp [hdata, Sem.create]
  have hold (j : Slot) (hj : j ≠ np) :
      s'.data.posted j w = s.data.posted j w ∧ s'.data.waited j w = s.data.waited j w := by
    simp [hdata, Sem.create, Function.update_of_ne hj]
  have hin (j : Slot) (hj : Inside s' w j) : Inside s w j := by
    have hne : j ≠ np := by rintro rfl; rw [Inside, hnew.1, hnew.2] at hj; omega
    rwa [Inside, (hold j hne).1, (hold j hne).2] at hj
  have hsame : s'.data.posts = s.data.posts ∧ s'.data.waits = s.data.waits := by
    rw [hdata]; exact ⟨rfl, rfl⟩
  constructor
  · rw [hsame.1, hsame.2]; exact h.le
  · intro j
    by_cases hj : j = np
    · subst hj
      rw [hnew.1, hnew.2, hpc]
      exact Nat.le_refl _
    · rw [(hold j hj).1, (hold j hj).2]; exact hpost j
  · intro j
    by_cases hj : j = np
    · subst hj; rw [hnew.1, hnew.2]; exact Nat.zero_le _
    · rw [(hold j hj).1, (hold j hj).2]; exact h.once j
  · exact fun j k hj hk => h.only j k (hin j hj) (hin k hk)
  · intro j hj; rw [hsame.1, hsame.2]; exact h.spent j (hin j hj)

theorem Excl.move (hl : Locked held s) (hk : Knows s) (hc : Counts 1 w s)
    (hb : 1 + (s.data.posts w : Int) < 2 ^ 31) (h : Excl w s) (hpc : s.pc i = .code p)
    (hm : Move i s p s')
    (hd : ∀ a, p = .user → s'.pc i = .code (.postAcquire a) → s.data.loc i a = w → Inside s w i) :
    Excl w s' := by
  have hpost := h.post_move hk hpc hm hd
  cases hm with
  | clone np space hnp =>
    refine h.create rfl ?_ hpost
    by_cases hi : np = i
    · subst hi; exact goto_self ..
    · exact (goto_other _ _ hi).trans (goto_self ..)
  | waitReturn a =>
    by_cases hloc : s.data.loc i a = w
    · have hlk : s.lk = some i := (hl.lk i).mp (by rw [hpc]; rfl)
      exact h.waitReturn hc hb hlk hpc hloc hpost (by rw [← hloc]; rfl)
    · have hw : w ≠ s.data.loc i a := Ne.symm hloc
      exact h.keep rfl (count_other _ hw) (fun _ => rfl) (fun _ => count_slot_other _ (.inl hw)) hpost
  | postReturn a =>
    by_cases hloc : s.data.loc i a = w
    · exact h.postReturn hpc hloc (goto_self ..) hpost (by rw [← hloc]; rfl)
    · have hw : w ≠ s.data.loc i a := Ne.symm hloc
      exact h.keep (count_other _ hw) rfl (fun _ => count_slot_other _ (.inl hw)) (fun _ => rfl) hpost
  | _ => exact h.keep rfl rfl (fun _ => rfl) (fun _ => rfl) hpost

/-! ## Runs -/

theorem Counts.start (h : Start s) (hv : 0 ≤ (s.data.word w).toInt) :
    Counts (s.data.word w).toInt w s := by
  have hbal : balance (s.data.word w).toInt w s.data = (s.data.word w).toInt := by
    simp [balance, h.posts, h.waits]
  constructor
  · rw [hbal, pending_free h.lk, Int.add_zero, BitVec.ofInt_toInt]
  · rw [hbal, pending_free h.lk, Int.add_zero]
    exact fun _ => ⟨hv, hv⟩

theorem Counts.step {a : Act SemCall} (hi : Inv s) (h : Counts v₀ w s)
    (hs : Sem.step s a = some s') : Counts v₀ w s' := by
  obtain ⟨i, p, x, -, hpc, -, hcode⟩ | hsw := step_cases _ hs
  · exact h.move hi.locked hi.knows hpc (code_move hcode)
  · exact h.switch hi.locked hi.knows hsw

theorem Excl.start (h : Start s) : Excl w s := by
  have hout (j : Slot) : ¬ Inside s w j := by simp [Inside, h.posted, h.waited]
  constructor
  · exact Nat.le_of_eq ((h.posts w).trans (h.waits w).symm)
  · intro j
    rw [h.posted, h.waited, h.pc]
    split <;> exact Nat.le_refl _
  · intro j; rw [h.posted, h.waited]; exact Nat.zero_le _
  · exact fun j _ hj => absurd hj (hout j)
  · exact fun j hj => absurd hj (hout j)

theorem code_post {x : SemCall} {a : Nat} (h : code i .user x s = some s')
    (hpc : s'.pc i = .code (.postAcquire a)) : x = .post a := by
  cases x with
  | wait b => cases h; simp at hpc
  | post b => cases h; simpa using hpc
  | exit => cases h; simp at hpc
  | clone np space =>
    obtain ⟨-, h⟩ := Option.ite_none_right_eq_some.mp h
    cases h
    simp at hpc
  | reap np =>
    obtain ⟨-, h⟩ := Option.ite_none_right_eq_some.mp h
    cases h
    simp at hpc

theorem Excl.step {a : Act SemCall} (hi : Inv s) (hc : Counts 1 w s)
    (hb : 1 + (s.data.posts w : Int) < 2 ^ 31) (h : Excl w s) (hd : Disciplined w s a)
    (hs : Sem.step s a = some s') : Excl w s' := by
  obtain ⟨i, p, x, ha, hpc, -, hcode⟩ | hsw := step_cases _ hs
  · refine h.move hi.locked hi.knows hc hb hpc (code_move hcode) fun b hp hpc' hloc => ?_
    subst hp
    obtain rfl := code_post hcode hpc'
    exact hd i b ha hpc hloc
  · exact h.switch hsw

theorem posts_le_step {a : Act SemCall} (hs : Sem.step s a = some s') :
    s.data.posts w ≤ s'.data.posts w := by
  obtain ⟨i, p, x, -, hpc, -, hcode⟩ | hsw := step_cases _ hs
  · exact (code_move hcode).posts_le
  · exact Nat.le_of_eq (by rw [hsw.frame.data])

variable {ok : SemSys → Act SemCall → Prop} {s₀ : SemSys}

theorem Counts.of_runs (h₀ : Start s₀) (hv : 0 ≤ (s₀.data.word w).toInt)
    (h : Runs Sem.step ok s₀ s) : Counts (s₀.data.word w).toInt w s := by
  refine And.right (h.invariant (I := fun s => Inv s ∧ Counts _ w s) ⟨.start h₀, .start h₀ hv⟩ ?_)
  exact fun s a s' hi _ hs => ⟨hi.1.step hs, hi.2.step hi.1 hs⟩

theorem Excl.of_runs (h₀ : Start s₀) (hv : (s₀.data.word w).toInt = 1)
    (hok : ∀ s a, ok s a → Disciplined w s a) (h : Runs Sem.step ok s₀ s)
    (hb : 1 + (s.data.posts w : Int) < 2 ^ 31) : Excl w s := by
  have hc : Counts 1 w s₀ := hv ▸ Counts.start h₀ (by omega)
  refine (h.invariant (I := fun s => Inv s ∧ Counts 1 w s ∧
    (1 + (s.data.posts w : Int) < 2 ^ 31 → Excl w s)) ⟨.start h₀, hc, fun _ => .start h₀⟩ ?_).2.2 hb
  intro s a s' hi ha hs
  refine ⟨hi.1.step hs, hi.2.1.step hi.1 hs, fun hb' => ?_⟩
  have hle := posts_le_step (w := w) hs
  have hb : 1 + (s.data.posts w : Int) < 2 ^ 31 := by omega
  exact (hi.2.2 hb).step hi.1 hi.2.1 hb (hok s a ha) hs

/-- In every run that keeps the posts on a word in the range of `int`: while `sem_lock` is free
the word is its first value plus the posts minus the waits, and not negative. When it was 1 and
only threads inside post, at most one thread is inside. -/
theorem word_eq_posts_sub_waits (h₀ : Start s₀) (h : Runs Sem.step ok s₀ s)
    (hv : 0 ≤ (s₀.data.word w).toInt)
    (hb : (s₀.data.word w).toInt + s.data.posts w < 2 ^ 31) :
    (s.lk = none →
      (s.data.word w).toInt = (s₀.data.word w).toInt + s.data.posts w - s.data.waits w ∧
        0 ≤ (s.data.word w).toInt) ∧
    ((s₀.data.word w).toInt = 1 → (∀ s a, ok s a → Disciplined w s a) →
      ∀ i j, Inside s w i → Inside s w j → i = j) := by
  constructor
  · intro hlk
    have hc := Counts.of_runs h₀ hv h
    rw [hc.toInt_eq (pending_free hlk) hb]
    exact ⟨rfl, (hc.enough hb).1⟩
  · intro hone hok
    rw [hone] at hb
    exact (Excl.of_runs h₀ hone hok h hb).only

/-- A thread waits and is inside; another one sleeps until the first one posts, and then is. -/
theorem word_eq_posts_sub_waits_handOver : ∃ t s, Runs step (Disciplined (0, 8)) (alone 1) t ∧
    Asleep t 1 8 ∧ Runs step (Disciplined (0, 8)) (alone 1) s ∧ s.data.posts (0, 8) = 1 ∧
    s.data.waits (0, 8) = 2 ∧ (s.data.word (0, 8)).toInt = 0 ∧
    ∀ i, Inside s (0, 8) i ↔ i = 1 := by
  let before : List (Act SemCall) := [.run 0 (.clone 1 ((alone 1).data.space 0)), .schedule 1] ++
    List.replicate 5 (.run 0 (.wait 8)) ++ List.replicate 7 (.run 1 (.wait 8))
  let wakes : List (Act SemCall) := List.replicate 67 (.run 0 (.wait 8))
  let after : List (Act SemCall) :=
    List.replicate 2 (.run 0 (.wait 8)) ++ [.schedule 1] ++ List.replicate 4 (.run 1 (.wait 8))
  have h : ∃ t t' u s, steps step (alone 1) before = some t ∧ Asleep t 1 8 ∧ Inside t (0, 8) 0 ∧
      step t (.run 0 (.post 8)) = some t' ∧ steps step t' wakes = some u ∧
      steps step u after = some s ∧ s.lk = none ∧
      s.data.posts (0, 8) = 1 ∧ s.data.waits (0, 8) = 2 ∧ Inside s (0, 8) 1 :=
    ⟨_, _, _, _, rfl, ⟨rfl, rfl⟩, by decide, rfl, rfl, rfl, rfl, rfl, rfl, by decide⟩
  obtain ⟨t, t', u, s, ht, hsleep, hin, ht', hu, hs, hlk, hposts, hwaits, hin'⟩ := h
  have hr : Runs step (Disciplined (0, 8)) (alone 1) t := by
    refine .of_steps .start (fun s a ha => ?_) ht
    simp only [before, List.mem_append, List.mem_cons, List.not_mem_nil, or_false, List.mem_replicate] at ha
    obtain ((rfl | rfl) | ⟨-, rfl⟩) | ⟨-, rfl⟩ := ha
    all_goals exact nofun
  have hpost : Disciplined (0, 8) t (.run 0 (.post 8)) := by
    rintro i b ⟨⟩ - -
    exact hin
  have hr' : Runs step (Disciplined (0, 8)) (alone 1) s := by
    refine .of_steps (.of_steps (hr.next hpost ht') (fun s a ha => ?_) hu) (fun s a ha => ?_) hs
    · rw [List.eq_of_mem_replicate ha]
      exact nofun
    · simp only [after, List.mem_append, List.mem_singleton, List.mem_replicate] at ha
      obtain (⟨-, rfl⟩ | rfl) | ⟨-, rfl⟩ := ha
      all_goals exact nofun
  have hone : ((alone 1).data.word (0, 8)).toInt = 1 := by decide
  obtain ⟨hword, honly⟩ := word_eq_posts_sub_waits (w := (0, 8)) (alone_start 1) hr'
    (by rw [hone]; decide) (by rw [hone, hposts]; decide)
  obtain ⟨hword, -⟩ := hword hlk
  refine ⟨t, s, hr, hsleep, hr', hposts, hwaits, ?_, fun i => ⟨fun hi => ?_, ?_⟩⟩
  · rw [hword, hone, hposts, hwaits]
    rfl
  · exact honly hone (fun _ _ h => h) i 1 hi hin'
  · rintro rfl
    exact hin'

end

end Sem

end OsLab
