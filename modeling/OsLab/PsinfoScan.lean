import Mathlib.Data.List.Nodup
import OsLab.ReapLog

/-!
# `psinfo` while other processes run

`psinfo` holds `wait_lock` but takes each `p->lock` only while it looks at the slot, so
that between two slots the other processes make steps. While it holds `wait_lock` no
process is reaped. To the others the call looks like a `kwait` that has not looked at a
slot yet, which makes the results about runs of `Reap.lean` available.
-/

namespace OsLab

namespace Sys
variable {C P D A : Type} {s : Sys C P D} {i j : Slot} {q : Pc C P}

/-! ## Where a process is does not matter to the others -/

@[simp] theorem goto_plock (s : Sys C P D) (i : Slot) (q : Pc C P) :
    (s.goto i q).plock = s.plock := rfl

@[simp] theorem goto_killed (s : Sys C P D) (i : Slot) (q : Pc C P) :
    (s.goto i q).killed = s.killed := rfl

@[simp] theorem goto_chan (s : Sys C P D) (i : Slot) (q : Pc C P) :
    (s.goto i q).chan = s.chan := rfl

theorem goto_comm (hij : i ≠ j) (q r : Pc C P) : (s.goto i q).goto j r = (s.goto j r).goto i q := by
  unfold goto
  dsimp only
  rw [Function.update_comm hij]

theorem rouse_goto (k : Slot) : (s.goto i q).rouse k = (s.rouse k).goto i q := by
  unfold rouse
  rw [goto_state]
  split <;> rfl

variable [DecidableEq C]

theorem wakeupAt_goto (k : Slot) (c : C) : (s.goto i q).wakeupAt k c = (s.wakeupAt k c).goto i q := by
  unfold wakeupAt
  rw [goto_chan]
  split
  · exact rouse_goto k
  · rfl

theorem sleepStep_goto (hij : i ≠ j) :
    (s.goto i q).sleepStep j = (s.sleepStep j).map (·.goto i q) := by
  unfold sleepStep
  rw [goto_other _ _ hij.symm]
  cases s.pc j with
  | code p => rfl
  | wakeup c k p =>
    dsimp only
    split
    · split
      · exact congrArg some (goto_comm hij ..)
      · rw [goto_plock, wakeupAt_goto, goto_comm hij]
        split <;> rfl
    · exact congrArg some (goto_comm hij ..)
  | sleepLock c p =>
    dsimp only
    rw [goto_plock]
    split
    · rfl
    · exact congrArg some (goto_comm (s := { s with plock := Function.update s.plock j true }) hij ..)
  | sleepRelease c p => exact congrArg some (goto_comm (s := { s with lk := none }) hij ..)
  | sleepState c p =>
    exact congrArg some (goto_comm (s := { s with
      chan := Function.update s.chan j (some c)
      state := Function.update s.state j .sleeping
      plock := Function.update s.plock j false }) hij ..)
  | sched c p => rfl
  | reacquire p =>
    dsimp only
    rw [goto_lk]
    split
    · exact congrArg some (goto_comm (s := { s with lk := some j }) hij ..)
    · rfl

omit [DecidableEq C] in
theorem schedule_goto (h : i = j → (s.pc i).IsCode ∧ q.IsCode) :
    (s.goto i q).schedule j = (s.schedule j).goto i q := by
  unfold schedule
  by_cases hij : i = j
  · obtain ⟨⟨p, hp⟩, p', rfl⟩ := h hij
    subst hij
    rw [goto_self, hp]
    rfl
  · rw [goto_other _ _ (Ne.symm hij)]
    split
    · exact goto_comm (s := { s with
        state := Function.update s.state j .running
        chan := Function.update s.chan j none }) hij ..
    · rfl

theorem step_goto {code : Slot → P → A → Sys C P D → Option (Sys C P D)} {a : Act A} {p p' : P}
    (ha : ∀ x, a ≠ .run i x) (hpc : s.pc i = .code p)
    (hcode : ∀ j p x, j ≠ i → code j p x (s.goto i (.code p')) =
      (code j p x s).map (·.goto i (.code p'))) :
    (s.goto i (.code p')).step code a = (s.step code a).map (·.goto i (.code p')) := by
  cases a with
  | run j x =>
    have hji : j ≠ i := fun h => ha x (by rw [h])
    dsimp only [step]
    rw [goto_other _ _ hji, goto_state]
    cases s.pc j with
    | code r =>
      dsimp only
      split
      · exact hcode j r x hji
      · rfl
    | _ =>
      dsimp only
      split
      · exact sleepStep_goto hji.symm
      · rfl
  | schedule j =>
    dsimp only [step]
    rw [goto_state, goto_plock]
    split
    · exact congrArg some (schedule_goto fun _ => ⟨⟨p, hpc⟩, p', rfl⟩)
    · rfl
  | yield j =>
    dsimp only [step]
    rw [goto_state, goto_plock, goto_lk]
    split <;> rfl
  | kkill j =>
    dsimp only [step]
    rw [goto_plock]
    split
    · rfl
    · exact congrArg some (rouse_goto (s := { s with killed := Function.update s.killed j true }) j)
  | wake j =>
    dsimp only [step]
    rw [goto_plock]
    split
    · rfl
    · exact congrArg some (rouse_goto j)

end Sys

namespace Reap

open Sys

section
variable {s s' : ReapSys} {i j : Slot} {p : ReapPlace} {x : ReapInput}
  {q : Pc (Option Slot) ReapPlace}

theorem allocated_goto {np : Slot} (hne : i ≠ np) :
    allocated (s.goto i q) np = (allocated s np).goto i q := by
  unfold allocated
  exact goto_comm (s := { s with
    state := Function.update s.state np .used
    data := { s.data with
      pid := Function.update s.data.pid np s.data.nextpid
      nextpid := s.data.nextpid + 1
      number := Function.update s.data.number np s.data.numbers
      numbers := s.data.numbers + 1 } }) hne q (.code .user)

theorem allocproc_goto (hi : s.state i ≠ .unused) (np : Slot) :
    allocproc (s.goto i q) np = (allocproc s np).map (·.goto i q) := by
  unfold allocproc
  rw [goto_state, goto_plock]
  split
  · rename_i h
    have hne : i ≠ np := by
      intro hnp
      exact hi (hnp ▸ h.1)
    exact congrArg some (allocated_goto hne)
  · rfl

theorem scanSlot_goto (hij : i ≠ j) (w : WaitArgs) (k : Slot) (b : Bool) :
    scanSlot (s.goto i q) j w k b x = (scanSlot s j w k b x).map (·.goto i q) := by
  have hgo (r : Pc (Option Slot) ReapPlace) := goto_comm (s := s) hij q r
  have hleave (t : ReapSys) : leave (t.goto i q) j = (leave t j).goto i q :=
    goto_comm (s := { t with lk := none }) hij ..
  unfold scanSlot
  rw [goto_data, goto_plock, goto_state]
  split
  · split
    · rfl
    · split
      · split
        · exact congrArg some (hleave (freeproc (record s _) k))
        · exact congrArg some (hleave s)
        · rfl
      · exact congrArg some (hgo _)
  · exact congrArg some (hgo _)

theorem acquire_goto (hij : i ≠ j) (r : ReapPlace) :
    acquire (s.goto i q) j r = (acquire s j r).map (·.goto i q) := by
  unfold acquire
  rw [goto_lk]
  split
  · exact congrArg some (goto_comm (s := { s with lk := some j }) hij ..)
  · rfl

theorem code_goto (hij : i ≠ j) (hi : s.state i ≠ .unused) :
    code j p x (s.goto i q) = (code j p x s).map (·.goto i q) := by
  have hgo (r : Pc (Option Slot) ReapPlace) := goto_comm (s := s) hij q r
  cases p with
  | user =>
    have hfork (np : Slot) : fork (s.goto i q) j np = (fork s j np).map (·.goto i q) := by
      unfold fork
      rw [allocproc_goto hi, Option.map_map, Option.map_map]
      exact congrArg (Option.map · _) (funext fun t => goto_comm (s := record t _) hij ..)
    cases x with
    | fork np => exact hfork np
    | clone np => exact hfork np
    | noMemory np =>
      change (allocproc (s.goto i q) np).map _ = ((allocproc s np).map _).map _
      rw [allocproc_goto hi, Option.map_map, Option.map_map]
      exact congrArg (Option.map · _) (funext fun t => goto_comm (s := freeproc t np) hij ..)
    | exit status =>
      dsimp only [code]
      split
      · rfl
      · exact congrArg some (hgo _)
    | wait => exact congrArg some (hgo _)
    | waitpid w => exact congrArg some (hgo _)
    | copyout ok => rfl
  | forkParent np =>
    dsimp only [code]
    rw [goto_lk]
    split
    · exact congrArg some (goto_comm (s := setParent s np j) hij ..)
    · rfl
  | forkState np =>
    dsimp only [code]
    rw [goto_plock]
    split
    · rfl
    · exact congrArg some
        (goto_comm (s := { s with state := Function.update s.state np .runnable }) hij ..)
  | exitAcquire status => exact acquire_goto hij _
  | reparent status k =>
    dsimp only [code]
    split
    · unfold reparentSlot
      rw [goto_data]
      split
      · exact congrArg some (goto_comm (s := setParent s _ initproc) hij ..)
      · exact congrArg some (hgo _)
    · exact congrArg some (hgo _)
  | exitLock status c =>
    dsimp only [code]
    rw [goto_plock]
    split
    · rfl
    · exact congrArg some (goto_comm (s := record (becomeZombie s j status) _) hij ..)
  | exitUnlock => exact congrArg some (goto_comm (s := { s with lk := none }) hij ..)
  | exitSched =>
    exact congrArg some
      (goto_comm (s := { s with plock := Function.update s.plock j false }) hij ..)
  | dead => rfl
  | waitAcquire w => exact acquire_goto hij _
  | scan w k b =>
    dsimp only [code]
    split
    · exact scanSlot_goto hij w _ b
    · unfold scanEnd
      rw [goto_killed]
      have hleave : leave (s.goto i q) j = (leave s j).goto i q :=
        goto_comm (s := { s with lk := none }) hij ..
      split
      · exact congrArg some hleave
      · split
        · exact congrArg some hleave
        · exact congrArg some (hgo _)

end

end Reap

/-! ## The call -/

inductive PsPlace
  | slot (k : Nat) -- before `acquire(&p->lock)`
  | copyout (k : Nat) (pid : BitVec 32)
  | returned (r : Int)

/-- A call of `psinfo` and the other processes. `records` has the pids of the records that were
copied out. `seen` is a ghost: the states since the call began, newest first. -/
structure PsCall where
  sys : ReapSys
  place : PsPlace
  records : List (BitVec 32)
  seen : List ReapSys

/-- A step of another process or of the scheduler; or of the call, with what `copyout` returns. -/
inductive PsAct
  | other (a : Act ReapInput)
  | next (ok : Bool)

def Act.isRun {A : Type} (i : Slot) : Act A → Bool
  | .run j _ => j = i
  | _ => false

namespace PsCall

def start (i : Slot) (s : ReapSys) : PsCall where
  sys := { s with lk := some i }
  place := .slot 0
  records := []
  seen := [{ s with lk := some i }]

def see (c : PsCall) (s : ReapSys) : PsCall := { c with sys := s, seen := s :: c.seen }

def ret (c : PsCall) (r : Int) : PsCall :=
  { c.see { c.sys with lk := none } with place := .returned r }

def visit (c : PsCall) (max : Int) (k : Slot) : Option PsCall :=
  if c.sys.plock k then none
  else if c.sys.state k = .unused then some { c with place := .slot (k + 1) }
  else if (c.records.length : Int) ≥ max then some (c.ret c.records.length)
  else some { c with place := .copyout k (c.sys.data.pid k) }

def step (i : Slot) (max : Int) (c : PsCall) : PsAct → Option PsCall
  | .other a =>
    match c.place with
    | .returned _ => none
    | _ => if a.isRun i then none else (Reap.step c.sys a).map c.see
  | .next ok =>
    match c.place with
    | .slot k => if h : k < 64 then c.visit max ⟨k, h⟩ else some (c.ret c.records.length)
    | .copyout k pid =>
      if ok then some { c with place := .slot (k + 1), records := c.records ++ [pid] }
      else some (c.ret (-1))
    | .returned _ => none

end PsCall

namespace Reap

open Sys

/-! ## What the others can do meanwhile -/

def stand (i : Slot) (s : ReapSys) : ReapSys := s.goto i (.code (.scan .kwait 0 false))

structure Scanning (i : Slot) (s : ReapSys) : Prop where
  run : Runs Reap.step (fun _ _ => True) boot (stand i s)
  pc : s.pc i = .code .user
  used : s.state i ≠ .unused

def Stays (s s' : ReapSys) : Prop :=
  ∀ k, s.state k ≠ .unused → s'.state k ≠ .unused ∧ s'.data.pid k = s.data.pid k

theorem Stays.refl (s : ReapSys) : Stays s s := fun _ hk => ⟨hk, rfl⟩

theorem Stays.trans {s s' s'' : ReapSys} (h : Stays s s') (h' : Stays s' s'') : Stays s s'' := by
  intro k hk
  obtain ⟨hk', hpid⟩ := h k hk
  obtain ⟨hk'', hpid'⟩ := h' k hk'
  exact ⟨hk'', hpid'.trans hpid⟩

section
variable {s s' : ReapSys} {i j : Slot} {p : ReapPlace}

theorem Move.stays (h : Move j s p s') (hp : held p = false) : Stays s s' := by
  intro k hk
  have hused : s'.state k ≠ .unused := by
    cases h with
    | fork np hnp =>
      have hne : k ≠ np := by rintro rfl; exact hk hnp
      exact fun hun => hk ((Function.update_of_ne hne ..).symm.trans hun)
    | noMemory np hnp =>
      have hne : k ≠ np := by rintro rfl; exact hk hnp
      refine fun hun => hk (Eq.trans ?_ hun)
      exact ((Function.update_of_ne hne ..).trans (Function.update_of_ne hne ..)).symm
    | forkState np =>
      by_cases hne : k = np
      · subst hne
        exact fun hun => by simp at hun
      · exact fun hun => hk ((Function.update_of_ne hne ..).symm.trans hun)
    | exitLock => cases hp
    | reap => cases hp
    | _ => exact hk
  refine ⟨hused, ?_⟩
  obtain hpid | hun | hun := h.pid k
  · exact hpid
  · exact absurd hun hk
  · exact absurd hun hused

theorem stays_of_switch (h : Switch s s') : Stays s s' := by
  intro k hk
  have hf := h.frame
  exact ⟨fun hun => hk ((hf.state_iff (by decide)).mp hun), by rw [hf.data]⟩

theorem Scanning.lk (h : Scanning i s) : s.lk = some i := by
  have hlk := ((Inv.of_runs h.run).locked.lk i).mp (by unfold stand; rw [goto_self]; rfl)
  exact hlk

theorem Scanning.step {a : Act ReapInput} (h : Scanning i s) (ha : a.isRun i = false)
    (hs : Reap.step s a = some s') : Scanning i s' ∧ Stays s s' := by
  have hrun (x : ReapInput) : a ≠ .run i x := by
    rintro rfl
    simp [Act.isRun] at ha
  have hstand : Reap.step (stand i s) a = some (stand i s') := by
    have heq : (stand i s).step code a = (s.step code a).map (stand i) :=
      step_goto hrun h.pc fun j p x hj => code_goto (Ne.symm hj) h.used
    rw [show s.step code a = some s' from hs] at heq
    exact heq
  have hruns := h.run.next trivial hstand
  have hstays : Stays s s' := by
    obtain ⟨j, p, x, rfl, hpc, -, hcode⟩ | hsw := step_cases _ hstand
    · have hp : held p = false := by
        rw [← Bool.not_eq_true]
        intro hheld
        have hlk := ((Inv.of_runs h.run).locked.lk j).mp (by rw [hpc]; exact hheld)
        exact hrun x (by rw [Option.some.inj (h.lk.symm.trans hlk)])
      exact (code_move hcode).stays hp
    · have hsame := stays_of_switch hsw
      exact hsame
  refine ⟨⟨hruns, ?_, (hstays i h.used).1⟩, hstays⟩
  obtain ⟨j, p, x, rfl, -, -, hcode⟩ | hsw := step_cases _ hs
  · have hij : i ≠ j := by rintro rfl; exact hrun x rfl
    obtain hpc | ⟨hun, -⟩ := (code_move hcode).other hij
    · exact hpc.trans h.pc
    · exact absurd hun h.used
  · obtain hpc | hgoes := hsw.goes i
    · exact hpc.trans h.pc
    · rw [h.pc] at hgoes
      cases hgoes

/-! ## Pids -/

theorem Move.number (h : Move i s p s') (k : Slot) :
    s'.data.number k = s.data.number k ∨ s.state k = .unused := by
  have new {np : Slot} (hnp : s.state np = .unused) :
      Function.update s.data.number np s.data.numbers k = s.data.number k ∨ s.state k = .unused := by
    by_cases hk : k = np
    · exact .inr (hk ▸ hnp)
    · exact .inl (Function.update_of_ne hk ..)
  cases h with
  | fork np hnp => exact new hnp
  | noMemory np hnp => exact new hnp
  | _ => exact .inl rfl

theorem init_pid (h : Runs Reap.step (fun _ _ => True) boot s) :
    s.data.pid initproc = 1 ∧ s.data.number initproc = 0 := by
  have hused {t : ReapSys} (ht : Inv t) : t.state initproc ≠ .unused := by
    intro hun
    have := ht.tree.init
    simp [hun, ProcState.Active] at this
  refine And.right (h.invariant (I := fun s => Inv s ∧ s.data.pid initproc = 1 ∧
    s.data.number initproc = 0) ⟨.boot, rfl, rfl⟩ ?_)
  rintro s a s' ⟨hi, hpid, hnum⟩ - hs
  have hi' := hi.step hs
  refine ⟨hi', ?_⟩
  obtain ⟨j, p, x, -, -, -, hcode⟩ | hsw := step_cases _ hs
  · have hm := code_move hcode
    have hnum' := (hm.number initproc).resolve_right (hused hi)
    obtain hpid' | hun | hun := hm.pid initproc
    · exact ⟨hpid'.trans hpid, hnum'.trans hnum⟩
    · exact absurd hun (hused hi)
    · exact absurd hun (hused hi')
  · rw [hsw.frame.data]
    exact ⟨hpid, hnum⟩

def Apart (s : ReapSys) : Prop :=
  s.data.numbers < 2 ^ 31 - 1 → ∀ {j k : Slot}, s.state j ≠ .unused → s.state k ≠ .unused →
    s.data.pid j = s.data.pid k → j = k

theorem pid_inj (h : Runs Reap.step (fun _ _ => True) boot s) : Apart s := by
  intro hn j k hj hk heq
  have hl := Logged.of_runs h
  have hpid {k : Slot} (hk : s.state k ≠ .unused) :
      s.data.pid k = BitVec.ofNat 32 (s.data.number k + 1) := by
    by_cases hi : k = initproc
    · obtain ⟨hpid, hnum⟩ := init_pid h
      rw [hi, hpid, hnum]
      rfl
    · exact hl.pids _ _ ((hl.entry k hk).created hi)
  have hlt := (hl.entry j hj).number
  have hlt' := (hl.entry k hk).number
  rw [hpid hj, hpid hk] at heq
  have hnum := congrArg BitVec.toNat heq
  simp only [BitVec.toNat_ofNat] at hnum
  exact hl.inj j k hj hk (by omega)

end

structure Enters (i : Slot) (s : ReapSys) : Prop where
  run : Runs Reap.step (fun _ _ => True) boot s
  lk : s.lk = none
  pc : s.pc i = .code .user
  running : s.state i = .running

theorem Enters.scanning {i : Slot} {s : ReapSys} (h : Enters i s) :
    Scanning i { s with lk := some i } where
  run := by
    -- as if it had called `kwait`
    have h₁ : Reap.step s (.run i .wait) = some (s.goto i (.code (.waitAcquire .kwait))) := by
      dsimp only [Reap.step, Sys.step]
      rw [h.pc]
      exact if_pos (.inl h.running)
    have h₂ : Reap.step (s.goto i (.code (.waitAcquire .kwait))) (.run i .wait) =
        some (stand i { s with lk := some i }) := by
      dsimp only [Reap.step, Sys.step]
      rw [goto_self]
      refine (if_pos (.inl h.running)).trans ((if_pos h.lk).trans ?_)
      unfold stand goto
      dsimp only
      rw [Function.update_idem]
    exact (h.run.next trivial h₁).next trivial h₂
  pc := h.pc
  used := by
    intro hun
    exact absurd (h.running.symm.trans hun) nofun

end Reap

namespace PsCall

open Reap

/-! ## The slots that have been listed -/

structure Listed (c : PsCall) (k : Nat) (slots : List Slot) : Prop where
  nodup : slots.Nodup
  below : ∀ j ∈ slots, j.val < k
  used : ∀ j ∈ slots, c.sys.state j ≠ .unused
  records : c.records = slots.map c.sys.data.pid
  all : ∀ j : Slot, j.val < k → (∀ t ∈ c.seen, t.state j ≠ .unused) → j ∈ slots

section
variable {c : PsCall} {k : Nat} {slots : List Slot} {i : Slot} {max : Int}

theorem Listed.see {s : ReapSys} (h : Listed c k slots) (hs : Stays c.sys s) :
    Listed (c.see s) k slots where
  nodup := h.nodup
  below := h.below
  used := fun j hj => (hs j (h.used j hj)).1
  records := by
    refine h.records.trans (List.map_congr_left fun j hj => ?_)
    exact (hs j (h.used j hj)).2.symm
  all := fun j hj ht => h.all j hj fun t hmem => ht t (List.mem_cons_of_mem s hmem)

theorem Listed.skip (h : Listed c k slots) (hc : c.sys ∈ c.seen) (hk : k < 64)
    (hun : c.sys.state ⟨k, hk⟩ = .unused) (place : PsPlace) :
    Listed { c with place := place } (k + 1) slots where
  nodup := h.nodup
  below := fun j hj => Nat.lt_succ_of_lt (h.below j hj)
  used := h.used
  records := h.records
  all := fun j hj ht => by
    by_cases heq : j.val = k
    · obtain rfl : j = ⟨k, hk⟩ := Fin.ext heq
      exact absurd hun (ht _ hc)
    · exact h.all j (by omega) ht

theorem Listed.add (h : Listed c k slots) (hk : k < 64) (hused : c.sys.state ⟨k, hk⟩ ≠ .unused)
    (place : PsPlace) : Listed { c with
      place := place, records := c.records ++ [c.sys.data.pid ⟨k, hk⟩] } (k + 1)
      (slots ++ [⟨k, hk⟩]) where
  nodup := by
    rw [List.nodup_append]
    refine ⟨h.nodup, by simp, fun j hj j' hj' heq => ?_⟩
    have := h.below j hj
    rw [heq, List.mem_singleton.mp hj'] at this
    exact absurd this (Nat.lt_irrefl k)
  below := fun j hj => by
    obtain hj | hj := List.mem_append.mp hj
    · exact Nat.lt_succ_of_lt (h.below j hj)
    · rw [List.mem_singleton.mp hj]
      exact Nat.lt_succ_self k
  used := fun j hj => by
    obtain hj | hj := List.mem_append.mp hj
    · exact h.used j hj
    · rw [List.mem_singleton.mp hj]
      exact hused
  records := by rw [h.records]; simp
  all := fun j hj ht => by
    by_cases heq : j.val = k
    · exact List.mem_append_right _ (List.mem_singleton.mpr (Fin.ext heq))
    · exact List.mem_append_left _ (h.all j (by omega) ht)

inductive At (i : Slot) (max : Int) (c : PsCall) : PsPlace → Prop
  | slot (k : Nat) (slots : List Slot) (hscan : Scanning i c.sys) (hl : Listed c k slots) :
    At i max c (.slot k)
  | copyout (k : Slot) (slots : List Slot) (hscan : Scanning i c.sys) (hl : Listed c k slots)
    (hused : c.sys.state k ≠ .unused) (hmax : (c.records.length : Int) < max) :
    At i max c (.copyout k (c.sys.data.pid k))
  | failed : At i max c (.returned (-1))
  | done (k : Nat) (slots : List Slot) (hpids : Reap.Apart c.sys) (hl : Listed c k slots)
    (hend : (c.records.length : Int) < max → 64 ≤ k) : At i max c (.returned c.records.length)

structure Inv (i : Slot) (max : Int) (c : PsCall) : Prop where
  now : c.sys ∈ c.seen
  stays : ∀ t ∈ c.seen, Stays t c.sys
  length : (c.records.length : Int) ≤ Max.max 0 max
  place : At i max c c.place

theorem Inv.start {s : ReapSys} (h : Enters i s) : Inv i max (start i s) where
  now := List.mem_singleton_self _
  stays := fun t ht => by
    rw [List.mem_singleton.mp ht]
    exact .refl _
  length := Int.le_max_left ..
  place := .slot 0 [] h.scanning
    { nodup := .nil
      below := fun j hj => absurd hj List.not_mem_nil
      used := fun j hj => absurd hj List.not_mem_nil
      records := rfl
      all := fun j hj => absurd hj (Nat.not_lt_zero _) }

theorem Inv.see {s : ReapSys} (h : Inv i max c) (place : PsPlace) (hs : Stays c.sys s)
    (hplace : At i max { c.see s with place := place } place) :
    Inv i max { c.see s with place := place } where
  now := List.mem_cons_self
  stays := fun t ht => by
    obtain rfl | ht := List.mem_cons.mp ht
    · exact .refl _
    · exact (h.stays t ht).trans hs
  length := h.length
  place := hplace

theorem Inv.other {a : Act ReapInput} {s : ReapSys} (h : Inv i max c) (ha : a.isRun i = false)
    (hs : Reap.step c.sys a = some s) (hret : ∀ r, c.place ≠ .returned r) :
    Inv i max (c.see s) := by
  have hplace := h.place
  generalize hc : c.place = place at hplace
  cases hplace with
  | slot k slots hscan hl =>
    obtain ⟨hscan', hstays⟩ := hscan.step ha hs
    refine h.see c.place hstays ?_
    rw [hc]
    exact .slot k slots hscan' { hl.see hstays with }
  | copyout k slots hscan hl hused hmax =>
    obtain ⟨hscan', hstays⟩ := hscan.step ha hs
    obtain ⟨hused', hpid⟩ := hstays k hused
    refine h.see c.place hstays ?_
    rw [hc, ← hpid]
    exact .copyout k slots hscan' { hl.see hstays with } hused' hmax
  | failed => exact absurd hc (hret _)
  | done => exact absurd hc (hret _)

theorem Inv.ret (h : Inv i max c) (hscan : Scanning i c.sys) (hl : Listed c k slots)
    (hend : (c.records.length : Int) < max → 64 ≤ k) : Inv i max (c.ret c.records.length) := by
  have hs : Stays c.sys { c.sys with lk := none } := .refl c.sys
  have hpids : Reap.Apart (stand i c.sys) := pid_inj hscan.run
  exact h.see _ hs (.done k slots hpids { hl.see hs with } hend)

theorem Inv.visit {c' : PsCall} {k : Slot} (h : Inv i max c) (hscan : Scanning i c.sys)
    (hl : Listed c k slots) (hs : c.visit max k = some c') : Inv i max c' := by
  unfold PsCall.visit at hs
  split at hs
  · cases hs
  split at hs
  next hun =>
    cases hs
    exact { h with place := .slot (k + 1) slots hscan (hl.skip h.now k.isLt hun _) }
  next hused =>
    split at hs
    next hmax =>
      cases hs
      exact h.ret hscan hl fun hlt => absurd hlt (Int.not_lt.mpr hmax)
    next hmax =>
      cases hs
      exact { h with place := .copyout k slots hscan { hl with } hused (Int.not_le.mp hmax) }

theorem Inv.step {c' : PsCall} {a : PsAct} (h : Inv i max c) (hs : c.step i max a = some c') :
    Inv i max c' := by
  cases a with
  | other a =>
    have hret (r : Int) : c.place ≠ .returned r := by
      intro heq
      simp [PsCall.step, heq] at hs
    have hs' : (if a.isRun i then none else (Reap.step c.sys a).map c.see) = some c' := by
      unfold PsCall.step at hs
      dsimp only at hs
      split at hs
      next r heq => exact absurd heq (hret r)
      next => exact hs
    clear hs
    split at hs'
    · cases hs'
    next ha =>
      obtain ⟨s, hs, rfl⟩ := Option.map_eq_some_iff.mp hs'
      exact h.other (eq_false_of_ne_true ha) hs hret
  | next ok =>
    have hplace := h.place
    generalize hc : c.place = place at hplace
    dsimp only [PsCall.step] at hs
    rw [hc] at hs
    cases hplace with
    | slot k slots hscan hl =>
      dsimp only at hs
      split at hs
      · exact h.visit hscan hl hs
      next hk =>
        cases hs
        exact h.ret hscan hl fun _ => Nat.not_lt.mp hk
    | copyout k slots hscan hl hused hmax =>
      dsimp only at hs
      split at hs
      · cases hs
        exact { h with
          length := by
            rw [List.length_append, List.length_singleton]
            omega
          place := .slot (k + 1) _ hscan (hl.add k.isLt hused _) }
      · cases hs
        exact h.see _ (.refl c.sys) .failed
    | failed => cases hs
    | done => cases hs

end

end PsCall

open PsCall in
/-- `psinfo` lists every process that is there during the whole call once, and no other twice. -/
theorem psinfo_lists {i : Slot} {max r : Int} {s : ReapSys} {c : PsCall} (hi : Reap.Enters i s)
    (hrun : Runs (PsCall.step i max) (fun _ _ => True) (start i s) c) (hret : c.place = .returned r)
    (hr : 0 ≤ r) (hn : c.sys.data.numbers < 2 ^ 31 - 1) :
    r = c.records.length ∧ r ≤ Max.max 0 max ∧ c.records.Nodup ∧
    (∀ pid ∈ c.records, ∃ t ∈ c.seen, ∃ k, t.state k ≠ .unused ∧ t.data.pid k = pid) ∧
    (r < max → ∀ k, (∀ t ∈ c.seen, t.state k ≠ .unused) →
      ∀ t ∈ c.seen, c.records.count (t.data.pid k) = 1) := by
  have hinv := hrun.invariant (I := PsCall.Inv i max) (.start hi) fun _ _ _ h _ hs => h.step hs
  obtain ⟨hnow, hstays, hlen, hplace⟩ := hinv
  rw [hret] at hplace
  cases hplace with
  | failed => exact absurd hr (by decide)
  | done k slots hpids hl hend =>
    have hnodup : c.records.Nodup := by
      rw [hl.records]
      refine hl.nodup.map_on fun j hj j' hj' heq => ?_
      exact hpids (by omega) (hl.used j hj) (hl.used j' hj') heq
    refine ⟨rfl, hlen, hnodup, fun pid hpid => ?_, fun hlt j hj t ht => ?_⟩
    · rw [hl.records] at hpid
      obtain ⟨j, hj, rfl⟩ := List.mem_map.mp hpid
      exact ⟨c.sys, hnow, j, hl.used j hj, rfl⟩
    · have hmem := hl.all j (by have := hend hlt; omega) hj
      have hsame := (hstays t ht j (hj t ht)).2
      rw [← hsame]
      refine List.count_eq_one_of_mem hnodup ?_
      rw [hl.records]
      exact List.mem_map_of_mem hmem

def psinfoDuringFork : List PsAct :=
  List.replicate 3 (.next true) ++ [.other (.run 1 (.fork 3))] ++ List.replicate 65 (.next true)

theorem psinfo_lists_during_fork :
    ∃ s c, Reap.Enters 0 s ∧ steps (PsCall.step 0 5) (.start 0 s) psinfoDuringFork = some c ∧
      c.place = .returned 3 ∧ c.records.Nodup ∧ ∀ t ∈ c.seen, c.records.count (t.data.pid 1) = 1 := by
  have hs : ∃ s c, steps Reap.step Reap.boot ([.schedule 0] ++ List.replicate 3 (.run 0 (.fork 1)) ++
        [.schedule 1]) = some s ∧ s.lk = none ∧ s.pc 0 = .code .user ∧ s.state 0 = .running ∧
      steps (PsCall.step 0 5) (.start 0 s) psinfoDuringFork = some c ∧ c.place = .returned 3 ∧
      c.sys.data.numbers = 3 ∧ ∀ t ∈ c.seen, t.state 1 ≠ .unused :=
    ⟨_, _, rfl, rfl, rfl, rfl, rfl, rfl, rfl, by decide⟩
  obtain ⟨s, c, hs, hlk, hpc, hstate, hc, hplace, hn, hused⟩ := hs
  have hi : Reap.Enters 0 s := ⟨.of_steps .start (fun _ _ _ => trivial) hs, hlk, hpc, hstate⟩
  have h := psinfo_lists hi (.of_steps .start (fun _ _ _ => trivial) hc) hplace (by decide)
    (by rw [hn]; decide)
  exact ⟨s, c, hi, hc, hplace, h.2.2.1, h.2.2.2.2 (by decide) 1 hused⟩

end OsLab
