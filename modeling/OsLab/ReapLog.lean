import OsLab.ReapSound

/-!
# Exactly-once reaping

Every process that is made is returned by at most one `kwait` or `kwaitpid`, which
its parent called, after it has exited, and with its exit status.
-/

namespace OsLab

namespace Reap

open Sys

def Valid : List Event → Prop
  | [] => True
  | .created n _ :: log => (∀ pid, .created n pid ∉ log) ∧ Valid log
  | .exited n _ :: log =>
    (∃ pid, .created n pid ∈ log) ∧ (∀ status, .exited n status ∉ log) ∧ Valid log
  | .reaped n caller parent pid status :: log =>
    parent = some caller ∧ .created n pid ∈ log ∧ .exited n status ∈ log ∧
      (∀ c q pid' status', .reaped n c q pid' status' ∉ log) ∧ Valid log

/-- A process is reaped once, by its parent, with the status of its exit. -/
theorem Valid.reaped {newer older : List Event} {n : Nat} {caller : Slot} {parent : Option Slot}
    {pid status : BitVec 32} (h : Valid (newer ++ .reaped n caller parent pid status :: older)) :
    parent = some caller ∧ .created n pid ∈ older ∧ .exited n status ∈ older ∧
      ∀ c q pid' status', .reaped n c q pid' status' ∉ newer ++ older := by
  induction newer with
  | nil => exact ⟨h.1, h.2.1, h.2.2.1, h.2.2.2.1⟩
  | cons e newer ih =>
    have hold : Valid (newer ++ .reaped n caller parent pid status :: older) := by
      cases e with
      | created m pid' => exact h.2
      | exited m status' => exact h.2.2
      | reaped m c q pid' status' => exact h.2.2.2.2
    obtain ⟨hparent, hcreated, hexited, honce⟩ := ih hold
    refine ⟨hparent, hcreated, hexited, fun c q pid' status' hmem => ?_⟩
    obtain rfl | hmem := List.mem_cons.mp hmem
    · exact h.2.2.2.1 _ _ _ _ (List.mem_append_right _ List.mem_cons_self)
    · exact honce c q pid' status' hmem

theorem Valid.exited {log : List Event} (h : Valid log) {n : Nat} {status status' : BitVec 32}
    (hm : .exited n status ∈ log) (hm' : .exited n status' ∈ log) : status = status' := by
  induction log with
  | nil => exact absurd hm List.not_mem_nil
  | cons e log ih =>
    cases e with
    | created m pid =>
      exact ih h.2 ((List.mem_cons.mp hm).resolve_left nofun) ((List.mem_cons.mp hm').resolve_left nofun)
    | reaped m c q pid st =>
      exact ih h.2.2.2.2 ((List.mem_cons.mp hm).resolve_left nofun)
        ((List.mem_cons.mp hm').resolve_left nofun)
    | exited m st =>
      obtain heq | hold := List.mem_cons.mp hm <;> obtain heq' | hold' := List.mem_cons.mp hm'
      · cases heq; cases heq'; rfl
      · cases heq; exact absurd hold' (h.2.1 _)
      · cases heq'; exact absurd hold (h.2.1 _)
      · exact ih h.2.2 hold hold'

structure Entry (s : ReapSys) (k : Slot) : Prop where
  number : s.data.number k < s.data.numbers
  created : k ≠ initproc → .created (s.data.number k) (s.data.pid k) ∈ s.data.log
  zombie : s.state k = .zombie → .exited (s.data.number k) (s.data.xstate k) ∈ s.data.log
  alive : s.state k ≠ .zombie → ∀ status, .exited (s.data.number k) status ∉ s.data.log
  unreaped : ∀ c q pid status, .reaped (s.data.number k) c q pid status ∉ s.data.log

structure Logged (s : ReapSys) : Prop where
  valid : Valid s.data.log
  fresh : ∀ e ∈ s.data.log, e.number < s.data.numbers
  entry : ∀ k, s.state k ≠ .unused → Entry s k
  inj : ∀ j k, s.state j ≠ .unused → s.state k ≠ .unused →
    s.data.number j = s.data.number k → j = k
  nextpid : s.data.nextpid = BitVec.ofNat 32 (s.data.numbers + 1)
  pids : ∀ n pid, .created n pid ∈ s.data.log → pid = BitVec.ofNat 32 (n + 1)

section
variable {i : Slot} {p : ReapPlace} {s s' : ReapSys}

theorem Logged.keep (h : Logged s) (hdata : ∃ parent, s'.data = { s.data with parent := parent })
    (hun : ∀ k, s'.state k = .unused ↔ s.state k = .unused)
    (hz : ∀ k, s'.state k = .zombie ↔ s.state k = .zombie) : Logged s' := by
  obtain ⟨parent, hdata⟩ := hdata
  have hentry (k : Slot) (hk : s.state k ≠ .unused) : Entry s' k := by
    have he := h.entry k hk
    constructor
    all_goals simp only [hdata, hz, ne_eq]
    · exact he.number
    · exact he.created
    · exact he.zombie
    · exact he.alive
    · exact he.unreaped
  constructor
  case entry => exact fun k hk => hentry k (mt (hun k).mpr hk)
  all_goals simp only [hdata, hun, ne_eq]
  · exact h.valid
  · exact h.fresh
  · exact h.inj
  · exact h.nextpid
  · exact h.pids

theorem Logged.switch (h : Logged s) (hs : Switch s s') : Logged s' := by
  have hf := hs.frame
  exact h.keep ⟨_, hf.data⟩ (fun k => hf.state_iff (by decide)) fun k => hf.state_iff (by decide)

structure Same (s s' : ReapSys) (k : Slot) : Prop where
  state : s'.state k = s.state k
  number : s'.data.number k = s.data.number k
  pid : s'.data.pid k = s.data.pid k
  xstate : s'.data.xstate k = s.data.xstate k

theorem Entry.same {k : Slot} {new : List Event} (h : Entry s k) (hk : Same s s' k)
    (hlog : s'.data.log = new ++ s.data.log) (hnums : s.data.numbers ≤ s'.data.numbers)
    (hnew : ∀ e ∈ new, e.number ≠ s.data.number k) : Entry s' k := by
  have old {e : Event} (he : e.number = s.data.number k) :
      e ∈ s'.data.log → e ∈ s.data.log := by
    rw [hlog]
    exact fun hmem => (List.mem_append.mp hmem).resolve_left fun hn => hnew e hn he
  have mem {e : Event} (he : e ∈ s.data.log) : e ∈ s'.data.log := by
    rw [hlog]; exact List.mem_append_right _ he
  constructor
  · rw [hk.number]; exact Nat.lt_of_lt_of_le h.number hnums
  · rw [hk.number, hk.pid]; exact fun hinit => mem (h.created hinit)
  · rw [hk.state, hk.number, hk.xstate]; exact fun hz => mem (h.zombie hz)
  · rw [hk.state, hk.number]; exact fun hz status hmem => h.alive hz status (old rfl hmem)
  · rw [hk.number]; exact fun c q pid status hmem => h.unreaped c q pid status (old rfl hmem)

theorem Logged.of_slot (h : Logged s) (k₀ : Slot) (new : List Event)
    (hsame : ∀ k, k ≠ k₀ → Same s s' k)
    (hlog : s'.data.log = new ++ s.data.log) (hnums : s.data.numbers ≤ s'.data.numbers)
    (hvalid : Valid s'.data.log) (hfresh : ∀ e ∈ new, e.number < s'.data.numbers)
    (hnew : ∀ e ∈ new, ∀ k, k ≠ k₀ → s.state k ≠ .unused → e.number ≠ s.data.number k)
    (hslot : s'.state k₀ ≠ .unused → Entry s' k₀ ∧
      ∀ k, k ≠ k₀ → s.state k ≠ .unused → s'.data.number k₀ ≠ s.data.number k)
    (hnext : s'.data.nextpid = BitVec.ofNat 32 (s'.data.numbers + 1))
    (hpids : ∀ n pid, .created n pid ∈ new → pid = BitVec.ofNat 32 (n + 1)) : Logged s' := by
  have used {k : Slot} (hk : k ≠ k₀) (hun : s'.state k ≠ .unused) : s.state k ≠ .unused := by
    rwa [← (hsame k hk).state]
  constructor
  case valid => exact hvalid
  case fresh =>
    intro e he
    rw [hlog] at he
    obtain he | he := List.mem_append.mp he
    · exact hfresh e he
    · exact Nat.lt_of_lt_of_le (h.fresh e he) hnums
  case entry =>
    intro k hun
    by_cases hk : k = k₀
    · subst hk; exact (hslot hun).1
    · exact (h.entry k (used hk hun)).same (hsame k hk) hlog hnums
        fun e he => hnew e he k hk (used hk hun)
  case inj =>
    intro j k hj hk heq
    by_cases hj₀ : j = k₀ <;> by_cases hk₀ : k = k₀
    · rw [hj₀, hk₀]
    · subst hj₀
      rw [(hsame k hk₀).number] at heq
      exact absurd heq ((hslot hj).2 k hk₀ (used hk₀ hk))
    · subst hk₀
      rw [(hsame j hj₀).number] at heq
      exact absurd heq.symm ((hslot hk).2 j hj₀ (used hj₀ hj))
    · rw [(hsame j hj₀).number, (hsame k hk₀).number] at heq
      exact h.inj j k (used hj₀ hj) (used hk₀ hk) heq
  case nextpid => exact hnext
  case pids =>
    intro n pid hmem
    rw [hlog] at hmem
    obtain hmem | hmem := List.mem_append.mp hmem
    · exact hpids n pid hmem
    · exact h.pids n pid hmem

theorem Logged.not_mem (h : Logged s) {e : Event} (he : e.number = s.data.numbers) :
    e ∉ s.data.log := fun hmem => by
  have := h.fresh e hmem
  omega

theorem Logged.nextpid_succ (h : Logged s) :
    s.data.nextpid + 1 = BitVec.ofNat 32 (s.data.numbers + 1 + 1) := by
  rw [h.nextpid, BitVec.ofNat_add (x := s.data.numbers + 1)]
  rfl

theorem Logged.fork {np : Slot} (h : Logged s) : Logged
    ((record (allocated s np) (.created s.data.numbers s.data.nextpid)).goto i
      (.code (.forkParent np))) := by
  have hnumber {k : Slot} (hk : s.state k ≠ .unused) : s.data.numbers ≠ s.data.number k :=
    (Nat.ne_of_lt (h.entry k hk).number).symm
  refine h.of_slot np [.created s.data.numbers s.data.nextpid] (fun k hk => ?_) rfl (Nat.le_succ _)
    ?_ ?_ ?_ (fun _ => ⟨?_, fun k _ hun => ?_⟩) h.nextpid_succ ?_
  · exact ⟨Function.update_of_ne hk .., Function.update_of_ne hk .., Function.update_of_ne hk .., rfl⟩
  · exact ⟨fun pid => h.not_mem rfl, h.valid⟩
  · intro e he
    obtain rfl := List.mem_singleton.mp he
    exact Nat.lt_succ_self _
  · intro e he k _ hun
    obtain rfl := List.mem_singleton.mp he
    exact hnumber hun
  · constructor
    all_goals simp only [goto_data, goto_state, record, allocated, Function.update_self]
    · exact Nat.lt_succ_self _
    · exact fun _ => List.mem_cons_self
    · rintro ⟨⟩
    · exact fun _ status hmem => h.not_mem rfl ((List.mem_cons.mp hmem).resolve_left (by simp))
    · exact fun c q pid status hmem => h.not_mem rfl ((List.mem_cons.mp hmem).resolve_left (by simp))
  · simp only [goto_data, record, allocated, Function.update_self]
    exact hnumber hun
  · intro n pid hmem
    cases List.mem_singleton.mp hmem
    exact h.nextpid

theorem Logged.exitLock {status : BitVec 32} (h : Logged s) (hst : s.state i = .running)
    (hi : i ≠ initproc) : Logged
    ((record (becomeZombie s i status) (.exited (s.data.number i) status)).goto i
      (.code .exitUnlock)) := by
  have hun : s.state i ≠ .unused := by simp [hst]
  have he := h.entry i hun
  have hnumber {k : Slot} (hk : k ≠ i) (hk' : s.state k ≠ .unused) :
      s.data.number i ≠ s.data.number k := fun heq => hk (h.inj i k hun hk' heq).symm
  refine h.of_slot i [.exited (s.data.number i) status] (fun k hk => ?_) rfl (Nat.le_refl _)
    ?_ ?_ ?_ (fun _ => ⟨?_, fun k => hnumber⟩) h.nextpid ?_
  · exact ⟨Function.update_of_ne hk .., rfl, rfl, Function.update_of_ne hk ..⟩
  · exact ⟨⟨_, he.created hi⟩, he.alive (by simp [hst]), h.valid⟩
  · intro e hmem
    obtain rfl := List.mem_singleton.mp hmem
    exact he.number
  · intro e hmem k hk hk'
    obtain rfl := List.mem_singleton.mp hmem
    exact hnumber hk hk'
  · constructor
    all_goals simp only [goto_data, goto_state, record, becomeZombie, Function.update_self]
    · exact he.number
    · exact fun _ => List.mem_cons_of_mem _ (he.created hi)
    · exact fun _ => List.mem_cons_self
    · exact fun hz => absurd rfl hz
    · exact fun c q pid st hmem => he.unreaped c q pid st ((List.mem_cons.mp hmem).resolve_left (by simp))
  · intro n pid hmem
    cases List.mem_singleton.mp hmem

theorem Logged.reap {k : Slot} (h : Logged s) (hk : s.data.parent k = some i)
    (hz : s.state k = .zombie) (hinit : k ≠ initproc) : Logged (Reap.reap s i k) := by
  have hun : s.state k ≠ .unused := by rw [hz]; nofun
  have he := h.entry k hun
  refine h.of_slot k [.reaped (s.data.number k) i (s.data.parent k) (s.data.pid k) (s.data.xstate k)]
    (fun j hj => ?_) rfl (Nat.le_refl _) ?_ ?_ ?_ ?_ h.nextpid ?_
  · exact ⟨Function.update_of_ne hj .., rfl, Function.update_of_ne hj .., Function.update_of_ne hj ..⟩
  · exact ⟨hk, he.created hinit, he.zombie hz, he.unreaped, h.valid⟩
  · intro e hmem
    obtain rfl := List.mem_singleton.mp hmem
    exact he.number
  · intro e hmem j hj hj'
    obtain rfl := List.mem_singleton.mp hmem
    exact fun heq => hj (h.inj k j hun hj' heq).symm
  · exact fun hno => absurd (Function.update_self ..) hno
  · intro n pid hmem
    cases List.mem_singleton.mp hmem

theorem Logged.move (hplaces : Places s) (ht : Tree s) (h : Logged s) (hpc : s.pc i = .code p)
    (hst : s.state i = .running ∨ s.state i = .zombie) (hm : Move i s p s') : Logged s' := by
  have hfact := ht.fact i
  rw [hpc] at hfact
  cases hm with
  | fork np hnp => exact h.fork
  | noMemory np hnp =>
    have empty {e : Event} (he : e ∈ ([] : List Event)) : False := List.not_mem_nil he
    refine h.of_slot np [] (fun k hk => ?_) rfl (Nat.le_succ _) h.valid (fun _ he => (empty he).elim)
      (fun _ he => (empty he).elim) (fun hun => absurd (Function.update_self ..) hun) h.nextpid_succ
      fun _ _ he => (empty he).elim
    have hstate : (freeproc (allocated s np) np).state k = s.state k :=
      (Function.update_of_ne hk ..).trans (Function.update_of_ne hk ..)
    have hpid : (freeproc (allocated s np) np).data.pid k = s.data.pid k :=
      (Function.update_of_ne hk ..).trans (Function.update_of_ne hk ..)
    exact ⟨hstate, Function.update_of_ne hk .., hpid, Function.update_of_ne hk ..⟩
  | forkState np =>
    have hstate (k : Slot) (st : ProcState) (hst : st ≠ .runnable ∧ st ≠ .used) :
        Function.update s.state np .runnable k = st ↔ s.state k = st := by
      by_cases hk : k = np
      · subst hk
        rw [Function.update_self, show s.state k = _ from hfact]
        exact iff_of_false (Ne.symm hst.1) (Ne.symm hst.2)
      · rw [Function.update_of_ne hk]
    exact h.keep ⟨_, rfl⟩ (fun k => hstate k _ ⟨nofun, nofun⟩) fun k => hstate k _ ⟨nofun, nofun⟩
  | exitLock status c =>
    exact h.exitLock (hplaces.running hpc hst ⟨nofun, nofun, nofun⟩) hfact.1
  | reap w k b hk hpl hz =>
    refine h.reap hk hz ?_
    rintro rfl
    have := ht.init
    simp [hz, ProcState.Active] at this
  | _ => exact h.keep ⟨_, rfl⟩ (fun _ => Iff.rfl) fun _ => Iff.rfl

theorem Logged.boot : Logged boot := by
  constructor
  case entry =>
    intro k hk
    obtain rfl : k = initproc := by
      by_contra hne
      exact hk (if_neg hne)
    constructor
    case created => exact fun hno => absurd rfl hno
    case zombie => exact nofun
    all_goals simp [Reap.boot]
  case inj =>
    have init {k : Slot} (hk : Reap.boot.state k ≠ .unused) : k = initproc := by
      by_contra hne
      exact hk (if_neg hne)
    exact fun j k hj hk _ => (init hj).trans (init hk).symm
  case nextpid => rfl
  all_goals simp [Reap.boot, Valid]

theorem Logged.of_runs (h : Runs Reap.step (fun _ _ => True) Reap.boot s) : Logged s := by
  refine And.right (h.invariant (I := fun s => Inv s ∧ Logged s) ⟨.boot, .boot⟩ ?_)
  intro s a s' ⟨hi, hl⟩ _ hs
  refine ⟨hi.step hs, ?_⟩
  obtain ⟨i, p, x, -, hpc, hst, hcode⟩ | hsw := step_cases _ hs
  · exact hl.move hi.places hi.tree hpc hst (code_move hcode)
  · exact hl.switch hsw

/-- In every run: a parent is neither `UNUSED` nor `ZOMBIE`. A process that `kwait` or `kwaitpid`
returned is a child of the caller at that moment, had been created with the pid and had exited
with the status that are returned, and is not returned again. A process exits with one status;
and with fewer than `2 ^ 31 - 1` calls of `allocpid`, no two processes have the same pid. -/
theorem reaped_once (h : Runs Reap.step (fun _ _ => True) Reap.boot s) :
    (∀ k q, s.data.parent k = some q → s.state q ≠ .unused ∧ s.state q ≠ .zombie) ∧
    (∀ newer older n caller parent pid status,
      s.data.log = newer ++ .reaped n caller parent pid status :: older →
      parent = some caller ∧ .created n pid ∈ older ∧ .exited n status ∈ older ∧
        ∀ c q pid' status', .reaped n c q pid' status' ∉ newer ++ older) ∧
    (∀ n status status', .exited n status ∈ s.data.log → .exited n status' ∈ s.data.log →
      status = status') ∧
    (s.data.numbers < 2 ^ 31 - 1 → ∀ m n pid, .created m pid ∈ s.data.log →
      .created n pid ∈ s.data.log → m = n) := by
  have hl := Logged.of_runs h
  refine ⟨fun k q hk => ?_, fun newer older n caller parent pid status hlog => ?_,
    fun n status status' => hl.valid.exited, fun hb m n pid hm hn => ?_⟩
  · have hact := (Inv.of_runs h).tree.parent k q hk
    exact ⟨fun hun => by simp [hun, ProcState.Active] at hact,
      fun hz => by simp [hz, ProcState.Active] at hact⟩
  · exact Valid.reaped (hlog ▸ hl.valid)
  · have hlt := hl.fresh _ hm
    have hlt' := hl.fresh _ hn
    have heq := congrArg BitVec.toNat ((hl.pids m pid hm).symm.trans (hl.pids n pid hn))
    simp only [BitVec.toNat_ofNat, Event.number] at heq hlt hlt'
    omega

end

def forkExitWait : List (Act ReapInput) :=
  [.schedule 0, .run 0 (.fork 1), .run 0 .wait, .run 0 .wait, .schedule 1] ++
    List.replicate 135 (.run 1 (.exit 7)) ++
    [.run 0 .wait, .run 0 .wait, .run 0 .wait, .run 0 (.copyout true)]

theorem reaped_once_forkExitWait : ∃ s, Runs step (fun _ _ => True) boot s ∧
    s.data.log = [.reaped 1 0 (some 0) 2 7, .exited 1 7, .created 1 2] ∧
    ∀ c q pid status, Event.reaped 1 c q pid status ∉ [.exited 1 7, .created 1 2] := by
  have h : (steps step boot forkExitWait).map (fun s => s.data.log) =
      some [.reaped 1 0 (some 0) 2 7, .exited 1 7, .created 1 2] := by decide +kernel
  obtain ⟨s, hs, hlog⟩ := Option.map_eq_some_iff.mp h
  have hr := Runs.of_steps .start (fun _ _ _ => trivial) hs
  obtain ⟨-, honce, -⟩ := reaped_once hr
  exact ⟨s, hr, hlog, (honce [] _ 1 0 (some 0) 2 7 hlog).2.2.2⟩

end Reap

end OsLab
