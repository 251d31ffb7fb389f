import Mathlib.Data.Fintype.Basic
import OsLab.Kernel
import OsLab.ProcSound

/-!
# What the kernel functions do to the pages

Each kernel function is a sequence of moves of pages between the free list and the
slots. A property that is stable under growing and mirroring (`Stable`) is kept by
every function but those that free user pages (`exec`, a shrinking `sbrk`, and the
reaping of a zombie) and those that have to do with alarms.
-/

namespace OsLab

open Mach

def Proc.allocated (p : Proc) (pid : Int) (pa : Page) (pt : PageTable) : Proc :=
  { p with
    pid := pid, isThread := false, state := .used
    trapframe := some ⟨pa, Trapframe.junk⟩, pagetable := some pt
    alarmInterval := 0, alarmTicks := 0, alarmHandler := 0
    alarmTrapframe := none, alarmActive := false }

def Proc.returned (p : Proc) (tf saved : Frame) : Proc :=
  { p with
    trapframe := some { tf with regs := saved.regs }
    alarmTrapframe := none, alarmActive := false, alarmTicks := 0 }

def Proc.fired (p : Proc) (tf : Frame) (pa : Page) : Proc :=
  { p with
    alarmTrapframe := some ⟨pa, tf.regs⟩
    trapframe := some { tf with regs := { tf.regs with epc := p.alarmHandler } }
    alarmActive := true, alarmTicks := 0 }

section
variable {p : Proc} {tf : Frame} (htf : p.trapframe = some tf)
include htf

theorem Proc.returned_hold (saved : Frame) : (p.returned tf saved).hold =
    ({ p with alarmTrapframe := none } : Proc).hold := by
  have : frameAt p.trapframe = frameAt (some { tf with regs := saved.regs }) := by rw [htf]; rfl
  unfold Proc.hold Proc.returned
  dsimp only
  rw [this]

theorem Proc.fired_hold (pa : Page) (hn : p.alarmTrapframe = none) :
    p.hold = ({ p.fired tf pa with alarmTrapframe := none } : Proc).hold := by
  have : frameAt p.trapframe =
      frameAt (some { tf with regs := { tf.regs with epc := p.alarmHandler } }) := by rw [htf]; rfl
  unfold Proc.hold Proc.fired
  dsimp only
  rw [this, hn]

theorem Proc.returned_wf (saved : Frame) (hw : p.Wf) : (p.returned tf saved).Wf :=
  hw.congr (by rw [returned_hold htf]; rfl) rfl rfl rfl (fun hu => absurd hu (hw.used htf))
    fun hl => ⟨Option.some_ne_none _, (hw.live hl).2⟩

theorem Proc.fired_wf (pa : Page) (hw : p.Wf) (hn : p.alarmTrapframe = none) :
    (p.fired tf pa).Wf :=
  hw.congr (by rw [fired_hold htf pa hn]; rfl) rfl rfl rfl (fun hu => absurd hu (hw.used htf))
    fun hl => ⟨Option.some_ne_none _, (hw.live hl).2⟩

end

namespace Kernel

def pool (k : Kernel) : Pool Slot Page where
  free := k.freelist
  holder := fun i => (k.proc i).hold

theorem pool_holder (k : Kernel) (i : Slot) : k.pool.holder i = (k.proc i).hold := rfl

def Wf (k : Kernel) : Prop := ∀ i, (k.proc i).Wf

variable {k k' : Kernel} {i j : Slot} {p q : Proc} {α : Type}

/-! ## Rules for the primitives -/

section
variable {Q : α → Kernel → Prop}

theorem lift_spec {x : Vm α}
    (h : Ensures x k.freelist fun a free => Q a { k with freelist := free }) :
    Ensures (lift x) k Q := by
  intro a k' hk
  unfold lift at hk
  cases hx : x k.freelist with
  | error e => rw [hx] at hk; cases hk
  | ok r =>
    rw [hx] at hk
    cases hk
    exact h r.1 r.2 hx

theorem setProc_self (k : Kernel) (i : Slot) (p : Proc) : (k.setProc i p).proc i = p :=
  Function.update_self ..

theorem setProc_other (k : Kernel) (p : Proc) (h : j ≠ i) : (k.setProc i p).proc j = k.proc j :=
  Function.update_of_ne h ..

theorem getProc_spec {Q : Proc → Kernel → Prop} (h : Q (k.proc i) k) :
    Ensures (getProc i) k Q := by
  intro a k' hk
  cases hk
  exact h

theorem put_spec {Q : Unit → Kernel → Prop} (h : Q () (k.setProc i p)) :
    Ensures (put i p) k Q :=
  Ensures.modify h

theorem update_spec {f : Proc → Vm (α × Proc)}
    (h : Ensures (f (k.proc i)) k.freelist fun r free =>
      Q r.1 (({ k with freelist := free } : Kernel).setProc i r.2)) :
    Ensures (update i f) k Q := by
  refine Ensures.bind (getProc_spec (Ensures.bind (lift_spec (h.mono ?_))))
  rintro ⟨a, q⟩ free hQ
  exact Ensures.bind (put_spec (Ensures.pure hQ))

end

/-! ## Moves of the pool -/

def Sets (k k' : Kernel) (i : Slot) (q : Proc) : Prop := k'.proc = Function.update k.proc i q

theorem Sets.self (h : Sets k k' i q) : k'.proc i = q := by
  rw [h, Function.update_self]

theorem Sets.other (h : Sets k k' i q) (hj : j ≠ i) : k'.proc j = k.proc j := by
  rw [h, Function.update_of_ne hj]

theorem Sets.wf (h : Sets k k' i q) (hk : k.Wf) (hq : q.Wf) : k'.Wf := by
  intro j
  by_cases hj : j = i
  · subst hj; rw [h.self]; exact hq
  · rw [h.other hj]; exact hk j

theorem Sets.holder_self (h : Sets k k' i q) : k'.pool.holder i = q.hold := by
  rw [pool_holder, h.self]

theorem Sets.holder_other (h : Sets k k' i q) : ∀ j, j ≠ i → k'.pool.holder j = k.pool.holder j := by
  intro j hj
  rw [pool_holder, h.other hj, pool_holder]

theorem Sets.renews (h : Sets k k' i q) (hp : Proc.Renews k.freelist (k.proc i) k'.freelist q) :
    Pool.Renews k.pool k'.pool i := by
  refine ⟨h.holder_other, ?_⟩
  rw [h.holder_self]
  exact hp.pages

theorem Sets.grows (h : Sets k k' i q) (hp : Proc.Grows k.freelist (k.proc i) k'.freelist q) :
    Pool.Grows k.pool k'.pool i := by
  refine ⟨h.renews hp.toRenews, ?_, ?_⟩
  · rw [h.holder_self]; exact hp.user
  · rw [h.holder_self]; exact hp.mir

def log (k : Kernel) : List Page × List Page := (k.backups, k.released)

structure Quiet (k k' : Kernel) : Prop where
  alarm : ∀ i, (k'.proc i).alarm = (k.proc i).alarm
  log : k'.log = k.log

theorem Sets.quiet (h : Sets k k' i q) (ha : q.alarm = (k.proc i).alarm) (hl : k'.log = k.log) :
    Quiet k k' := by
  refine ⟨fun j => ?_, hl⟩
  by_cases hj : j = i
  · subst hj; rw [h.self, ha]
  · rw [h.other hj]

structure Stable (I : Kernel → Prop) : Prop where
  wf : ∀ {k}, I k → k.Wf
  grows : ∀ {k k' i}, I k → k'.Wf → Quiet k k' → Pool.Grows k.pool k'.pool i → I k'
  mirrors : ∀ {k k' i j}, I k → k'.Wf → Quiet k k' → Pool.Mirrors k.pool k'.pool i j → I k'

theorem Stable.same {I : Kernel → Prop} (hI : Stable I) (h : I k) (hw : k'.Wf) (hq : Quiet k k')
    (hp : k'.pool = k.pool) : I k' := by
  refine hI.grows (i := 0) h hw hq ⟨⟨fun j _ => ?_, ?_⟩, ?_, ?_⟩ <;> rw [hp]

theorem Stable.sets {I : Kernel → Prop} (hI : Stable I) (h : I k) (hs : Sets k k' i q)
    (ha : q.alarm = (k.proc i).alarm) (hl : k'.log = k.log)
    (hp : Proc.Grows k.freelist (k.proc i) k'.freelist q) : I k' :=
  hI.grows h (hs.wf (hI.wf h) hp.wf) (hs.quiet ha hl) (hs.grows hp)

/-! ## Freeing and allocating slots -/

/-- `freeproc` on slot `z`: the slot is empty, and its pages are free; of a
thread only the bookkeeping is. -/
structure Freed (k k' : Kernel) (z : Slot) : Prop where
  wf : k'.Wf
  sets : Sets k k' z (k.proc z).freed
  drops : (k.proc z).isThread = true → Pool.Drops k.pool k'.pool z
  renews : (k.proc z).isThread = false → Pool.Renews k.pool k'.pool z
  free : (k'.freelist : Multiset Page) = k.freelist + (k.proc z).hold.kern +
    if (k.proc z).isThread then 0 else (k.proc z).hold.user
  log : k'.log = (k.backups, ((k.proc z).alarmTrapframe.map Frame.page).toList ++ k.released)

theorem Freed.of_sets {z : Slot} (hw : k.Wf) (hs : Sets k k' z (k.proc z).freed)
    (hf : (k'.freelist : Multiset Page) = k.freelist + (k.proc z).hold.kern +
      if (k.proc z).isThread then 0 else (k.proc z).hold.user)
    (hl : k'.log = (k.backups, ((k.proc z).alarmTrapframe.map Frame.page).toList ++ k.released)) :
    Freed k k' z := by
  have hz : k'.pool.holder z = ⟨0, 0, 0⟩ := hs.holder_self.trans Proc.freed_hold
  have hff : k'.pool.free = (k'.freelist : Multiset Page) := rfl
  refine ⟨hs.wf hw Proc.freed_wf, hs, fun ht => ⟨hs.holder_other, ?_, ?_⟩,
    fun ht => ⟨hs.holder_other, ?_⟩, hf, hl⟩
  · rw [hz, hff, hf, if_pos ht]
    simp [pool]
  · rw [hz]; rfl
  · rw [hz, hff, hf, if_neg (by rw [ht]; exact Bool.false_ne_true)]
    simp [pool, Holder.user]

theorem freeproc_spec (hw : k.Wf) (z : Slot) :
    Ensures (freeproc z) k fun _ k' => Freed k k' z := by
  refine Ensures.bind (getProc_spec (Ensures.bind (lift_spec ?_)))
  refine (Proc.freeproc_spec (hw z)).mono ?_
  rintro q free ⟨rfl, hf⟩
  exact Ensures.bind (put_spec (Ensures.modify (Freed.of_sets hw rfl hf rfl)))

theorem Freed.grows {z : Slot} (h : Freed k k' z) (ht : (k.proc z).isThread = false)
    (hu : (k.proc z).hold.user = 0) : Pool.Grows k.pool k'.pool z := by
  have hz : k'.pool.holder z = ⟨0, 0, 0⟩ := h.sets.holder_self.trans Proc.freed_hold
  have hm : (k.pool.holder z).mir = 0 := Multiset.le_zero.mp (hu ▸ Multiset.le_add_left _ _)
  refine ⟨h.renews ht, ?_, ?_⟩
  · change (k.proc z).hold.user ≤ _
    rw [hu]; exact Multiset.zero_le _
  · rw [hz, hm]

theorem Freed.quiet {z : Slot} (h : Freed k k' z) (ha : (k.proc z).alarm = (false, none)) :
    Quiet k k' := by
  refine h.sets.quiet ha.symm ?_
  have hn : (k.proc z).alarmTrapframe = none := congrArg Prod.snd ha
  rw [h.log, hn]
  rfl

structure Allocated (k k' : Kernel) (j : Slot) : Prop where
  unused : (k.proc j).state = .unused
  sets : ∃ pa pt, Sets k k' j ((k.proc j).allocated k.nextpid pa pt) ∧ pt.Framed ∧ pt.Within 0

theorem findSlot_spec {test : Proc → Bool} (h : k.findSlot test = some j) :
    test (k.proc j) = true := by
  unfold findSlot at h
  have := List.find?_some h
  exact this

section
variable {I : Kernel → Prop} (hI : Stable I)
include hI

theorem Stable.free (h : I k) {free : List Page}
    (hf : (free : Multiset Page) = k.freelist) : I { k with freelist := free } := by
  have hp : ({ k with freelist := free } : Kernel).pool = k.pool := by unfold pool; rw [← hf]
  exact hI.same h (fun i => hI.wf h i) ⟨fun _ => rfl, rfl⟩ hp

theorem Stable.freeproc (h : I k) (ht : (k.proc j).isThread = false)
    (ha : (k.proc j).alarm = (false, none)) (hu : (k.proc j).hold.user = 0) :
    Ensures (Kernel.freeproc j) k fun _ k' => I k' :=
  (freeproc_spec (hI.wf h) j).mono fun _ _ hf => hI.grows h hf.wf (hf.quiet ha) (hf.grows ht hu)

theorem allocPages_spec (h : I k) (hs : (k.proc j).state = .used)
    (htf : (k.proc j).trapframe = none) (ha : (k.proc j).alarm = (false, none))
    (hpt : (k.proc j).pagetable = none) (hth : (k.proc j).isThread = false) :
    Ensures (allocPages j) k fun r k' => I k' ∧ ∀ j', r = some j' → j' = j ∧
      ∃ pa pt, Sets k k' j ((k.proc j).allocated (k.proc j).pid pa pt) ∧
        pt.Framed ∧ pt.Within 0 := by
  refine Ensures.bind (lift_spec ((kalloc_spec k.freelist).mono fun r free hr => ?_))
  have huser : ∀ q : Proc, q.pagetable = none → q.hold.user = 0 := fun q hq => by
    rw [Proc.hold_none hq]; rfl
  have hatf : (k.proc j).alarmTrapframe = none := congrArg Prod.snd ha
  cases r with
  | none =>
    rw [pageAt_none, add_zero] at hr
    refine Ensures.bind ((hI.freeproc (hI.free h hr) hth ha (huser _ hpt)).mono fun _ k' h' => ?_)
    exact Ensures.pure ⟨h', nofun⟩
  | some pa =>
    rw [pageAt_some] at hr
    refine Ensures.bind (getProc_spec (Ensures.bind (put_spec ?_)))
    have g₁ : Proc.Grows k.freelist (k.proc j) free
        { k.proc j with trapframe := some ⟨pa, Trapframe.junk⟩ } :=
      Proc.Grows.of_frame (hI.wf h j) (by rw [hs]; exact nofun) htf hr
    -- the state in which the slot has its trapframe
    generalize hq : ({ k.proc j with trapframe := some ⟨pa, Trapframe.junk⟩ } : Proc) = q at g₁ ⊢
    generalize hk₁ : ({ k with freelist := free } : Kernel).setProc j q = k₁
    have hs₁ : Sets k k₁ j q := by rw [← hk₁]; rfl
    have hf₁ : k₁.freelist = free := by rw [← hk₁]; rfl
    have hqa : q.alarm = (k.proc j).alarm := by rw [← hq]; rfl
    have h₁ : I k₁ := hI.sets h hs₁ hqa (by rw [← hk₁]; rfl) (hf₁ ▸ g₁)
    have hqpt : q.pagetable = none := by rw [← hq]; exact hpt
    refine Ensures.bind (lift_spec ((procPagetable_spec pa).mono fun r free₂ hr₂ => ?_))
    cases r with
    | none =>
      refine Ensures.bind ((hI.freeproc (hI.free h₁ (hr₂.1 rfl)) ?_ ?_ (huser _ ?_)).mono ?_)
      · change (k₁.proc j).isThread = false
        rw [hs₁.self, ← hq]; exact hth
      · change (k₁.proc j).alarm = _
        rw [hs₁.self, hqa, ha]
      · change (k₁.proc j).pagetable = none
        rw [hs₁.self]; exact hqpt
      · exact fun _ k' h' => Ensures.pure ⟨h', nofun⟩
    | some pt =>
      obtain ⟨hF, hb, hf₂⟩ := hr₂.2 pt rfl
      have hused : q.state ≠ .unused := by
        rw [← hq]; change (k.proc j).state ≠ _; rw [hs]; exact nofun
      have g₂ : Proc.Grows k₁.freelist q free₂ { q with pagetable := some pt } :=
        Proc.Grows.of_table g₁.wf hused hqpt hF hb hf₂
      -- the alarm fields are cleared, which moves no page
      have hhold : ((k.proc j).allocated (k.proc j).pid pa pt).hold =
          ({ q with pagetable := some pt } : Proc).hold := by
        rw [Proc.hold_some rfl, Proc.hold_some rfl, ← hq]
        change _ = (⟨frameAt (some ⟨pa, Trapframe.junk⟩) + frameAt (k.proc j).alarmTrapframe + _,
          _, _⟩ : Holder Page)
        rw [hatf]
        rfl
      have g₃ : Proc.Grows k₁.freelist (k₁.proc j) free₂
          ((k.proc j).allocated (k.proc j).pid pa pt) := by
        rw [hs₁.self]
        refine g₂.congr (g₂.wf.congr (congrArg Holder.mir hhold) rfl ?_ ?_ (fun h => by cases h)
          fun _ => ⟨Option.some_ne_none _, Option.some_ne_none pt⟩) hhold
        · rw [← hq]; rfl
        · rw [← hq]; exact hth.symm
      have hq' : (k.proc j).allocated (k.proc j).pid pa pt =
          { q with
            pagetable := some pt, alarmInterval := 0, alarmTicks := 0, alarmHandler := 0
            alarmTrapframe := none, alarmActive := false } := by
        subst hq
        simp only [Proc.allocated, hs, hth]
      refine Ensures.bind (put_spec (Ensures.pure ?_))
      rw [← hq']
      have hga : ((k.proc j).allocated (k.proc j).pid pa pt).alarm = (k₁.proc j).alarm := by
        rw [hs₁.self, hqa, ha]; rfl
      refine ⟨hI.sets h₁ rfl hga rfl g₃, fun j' hj' => ⟨(Option.some.inj hj').symm, pa, pt, ?_, hF, hb⟩⟩
      have : k₁.proc = Function.update k.proc j q := hs₁
      change Function.update k₁.proc j _ = _
      rw [this, Function.update_idem]

theorem allocproc_spec (h : I k) :
    Ensures allocproc k fun r k' => I k' ∧ ∀ j, r = some j → Allocated k k' j := by
  refine Ensures.bind (Ensures.get ?_)
  cases hj : k.findSlot fun p => p.state = .unused with
  | none => exact Ensures.pure ⟨h, nofun⟩
  | some j =>
    have hu : (k.proc j).state = .unused := by simpa using findSlot_spec hj
    obtain ⟨htf, ha, hpt⟩ := (hI.wf h j).unused hu
    refine Ensures.bind (put_spec (Ensures.bind (Ensures.modify ?_)))
    -- the slot with its new identity
    generalize hp : ({ k.proc j with pid := k.nextpid, isThread := false, state := .used } : Proc) = p
    generalize hk₁ : ({ k.setProc j p with nextpid := (k.setProc j p).nextpid + 1 } : Kernel) = k₁
    have hs₁ : Sets k k₁ j p := by rw [← hk₁]; rfl
    have hf₁ : k₁.freelist = k.freelist := by rw [← hk₁]; rfl
    have hpt₁ : p.pagetable = none := by rw [← hp]; exact hpt
    have hw₁ : p.Wf := by
      refine ⟨?_, ?_, fun pt h' => ?_, ?_, fun _ => ?_⟩
      · rw [← hp]; exact nofun
      · rw [← hp]; exact fun h => by rcases h with h | h | h <;> cases h
      · rw [hpt₁] at h'; cases h'
      · rw [← hp]; exact (hI.wf h j).size
      · rw [Proc.hold_none hpt₁]
    have hpa : p.alarm = (k.proc j).alarm := by rw [← hp]; rfl
    have h₁ : I k₁ := hI.sets h hs₁ hpa (by rw [← hk₁]; rfl)
      (hf₁ ▸ Proc.Grows.of_hold hw₁ (by rw [← hp]; rfl))
    refine (allocPages_spec hI h₁ ?_ ?_ ?_ ?_ ?_).mono ?_
    · rw [hs₁.self, ← hp]
    · rw [hs₁.self, ← hp]; exact htf
    · rw [hs₁.self, hpa, ha]
    · rw [hs₁.self]; exact hpt₁
    · rw [hs₁.self, ← hp]
    · rintro r k' ⟨h', ha⟩
      refine ⟨h', fun j' hj' => ?_⟩
      obtain ⟨rfl, pa, pt, hs', hF, hb⟩ := ha j' hj'
      refine ⟨hu, pa, pt, ?_, hF, hb⟩
      unfold Sets at hs' hs₁ ⊢
      rw [hs', hs₁, Function.update_idem, Function.update_self, ← hp]
      rfl

/-! ## Fork and clone -/

omit hI in
/-- What `uvmcopy` and `uvmmirror` guarantee for a new table: it takes pages of
its own, or shares those of the old one; on failure it stays bare. -/
def Shares (share : PageTable → PageTable → Nat → Vm (Bool × PageTable)) (isThread : Bool) : Prop :=
  ∀ old new sz free, new.Framed → new.Within 0 → pgRoundUp sz ≤ trapframeVa →
    Ensures (share old new sz) free fun r free' =>
      (r.1 = false → Walked new free r.2 free') ∧ (r.1 = true → r.2.Within (pgRoundUp sz)) ∧
      r.2.Framed ∧ (isThread = false → Extends free new free' r.2) ∧
      (isThread = true → (free' : Multiset Page) + r.2.tables = free + new.tables ∧
        r.2.own = 0 ∧ r.2.mir ≤ old.own + old.mir)

omit hI in
theorem uvmcopy_shares : Shares uvmcopy false := by
  intro old new sz free hF hb hsz
  refine ((uvmcopy_spec old hF hb.bare hsz).and (uvmcopyLoop_within old hb)).mono ?_
  rintro r free' ⟨⟨he, hw⟩, hin, -⟩
  rw [Nat.zero_add] at hin
  exact ⟨hw, hin, he.framed hF, fun _ => he, nofun⟩

omit hI in
theorem uvmmirror_shares : Shares uvmmirror true := by
  intro old new sz free hF hb hsz
  refine ((uvmmirror_spec old hF hb.bare hsz).and (uvmmirrorLoop_within old hb)).mono ?_
  rintro r free' ⟨⟨hp, hF', ho, hm, hw⟩, hin, -⟩
  rw [Nat.zero_add] at hin
  exact ⟨hw, hin, hF', nofun, fun _ => ⟨hp, ho, hm⟩⟩

theorem giveBack_spec {pt new : PageTable} {free : List Page} (h : I k) (hpt : (k.proc j).pagetable = some pt)
    (hth : (k.proc j).isThread = false) (ha : (k.proc j).alarm = (false, none)) (hb : pt.Within 0)
    (w : Walked pt k.freelist new free) :
    Ensures (Kernel.freeproc j) (({ k with freelist := free } : Kernel).setProc j
      { k.proc j with pagetable := some new }) fun _ k' => I k' := by
  have hin : new.Within 0 := hb.congr w.leaf
  have hw := hI.wf h j
  have g : Proc.Grows k.freelist (k.proc j) free { k.proc j with pagetable := some new } :=
    Proc.Grows.of_extends hpt hw (Extends.of_walked w) (hin.mono (Nat.zero_le _)) hw.size
  have hself : (({ k with freelist := free } : Kernel).setProc j { k.proc j with pagetable := some new }).proc j =
      { k.proc j with pagetable := some new } := Function.update_self ..
  refine hI.freeproc (hI.sets h rfl rfl rfl g) ?_ ?_ ?_
  · rw [hself]; exact hth
  · rw [hself]; exact ha
  · rw [hself, Proc.hold_some rfl]
    unfold Holder.user
    rw [hin.bare.own, hin.bare.mir, add_zero]

theorem Stable.child {isThread : Bool} {old pt new : PageTable} (h : I k) (hold : (k.proc i).pagetable = some old)
    (hpt : (k.proc j).pagetable = some pt) (hb : pt.Within 0) (hin : new.Within (pgRoundUp (k.proc i).sz))
    (hs : Sets k k' j q) (hqa : q.alarm = (k.proc j).alarm) (hl : k'.log = k.log)
    (hq : q.hold = ⟨frameAt (k.proc j).trapframe + frameAt (k.proc j).alarmTrapframe + new.tables, new.own, new.mir⟩)
    (hw : (isThread = false → new.mir = 0) → q.Wf)
    (hcopy : isThread = false → Extends k.freelist pt k'.freelist new)
    (hmirror : isThread = true → (k'.freelist : Multiset Page) + new.tables = k.freelist + pt.tables ∧
      new.own = 0 ∧ new.mir ≤ old.own + old.mir) : I k' := by
  cases isThread with
  | false =>
    have g := Proc.Grows.of_extends hpt (hI.wf h j) (hcopy rfl) hin (hI.wf h i).size
    refine hI.sets h hs hqa hl (g.congr (hw fun _ => (hcopy rfl).mir.trans hb.bare.mir) ?_)
    rw [hq, Proc.hold_some rfl]
  | true =>
    obtain ⟨hp, ho, hm⟩ := hmirror rfl
    refine hI.mirrors (i := i) (j := j) h (hs.wf (hI.wf h) (hw nofun)) (hs.quiet hqa hl) ?_
    have hj : k.pool.holder j =
        ⟨frameAt (k.proc j).trapframe + frameAt (k.proc j).alarmTrapframe + pt.tables, pt.own, pt.mir⟩ := by
      rw [pool_holder, Proc.hold_some hpt]
    have hi : (k.pool.holder i).user = old.own + old.mir := by
      rw [pool_holder, Proc.hold_some hold]
      rfl
    refine ⟨hs.holder_other, ?_, ?_, ?_⟩
    · rw [hs.holder_self, hq, hj]
      change (k'.freelist : Multiset Page) + _ = k.freelist + _
      dsimp only
      rw [add_left_comm, add_left_comm (k.freelist : Multiset Page), hp]
    · rw [hs.holder_self, hq, hj, hb.bare.own, ho]
    · rw [hs.holder_self, hq, hi]
      unfold Holder.user
      dsimp only
      rw [ho, zero_add]
      exact hm

theorem newproc_spec {share : PageTable → PageTable → Nat → Vm (Bool × PageTable)}
    {isThread : Bool} {regs : Trapframe → Trapframe} (hsh : Shares share isThread) (h : I k) :
    Ensures (newproc share isThread regs i) k fun _ k' => I k' := by
  refine Ensures.bind ((allocproc_spec hI h).mono ?_)
  rintro r k₁ ⟨h₁, ha⟩
  cases r with
  | none => exact Ensures.pure h₁
  | some j =>
    obtain ⟨-, pa, pt, hs₁, hF, hb⟩ := ha j rfl
    have hw₁ := hI.wf h₁
    have hnpt : (k₁.proc j).pagetable = some pt := by rw [hs₁.self]; rfl
    refine Ensures.bind (getProc_spec (Ensures.bind (getProc_spec ?_)))
    refine Ensures.bind (Ensures.deref fun old hold => ?_)
    refine Ensures.bind (Ensures.deref fun new hnew => ?_)
    obtain rfl : pt = new := Option.some.inj (hnpt.symm.trans hnew)
    refine Ensures.bind (lift_spec ((hsh old pt (k₁.proc i).sz k₁.freelist hF hb
      (hw₁ i).size).mono ?_))
    rintro ⟨ok, new'⟩ free' ⟨hno, hin, hF', hcopy, hmirror⟩
    refine Ensures.bind (put_spec ?_)
    cases ok with
    | false =>
      refine Ensures.bind ((giveBack_spec hI h₁ hnpt ?_ ?_ hb (hno rfl)).mono fun _ k' h' => Ensures.pure h')
      · rw [hs₁.self]; rfl
      · rw [hs₁.self]; rfl
    | true =>
      refine Ensures.bind (Ensures.deref fun tf htf => ?_)
      refine Ensures.bind (getProc_spec (Ensures.bind (Ensures.deref fun tf' htf' => ?_)))
      refine Ensures.bind (put_spec (Ensures.pure ?_))
      have hself : (({ k₁ with freelist := free' } : Kernel).setProc j
          { k₁.proc j with pagetable := some new' }).proc j = { k₁.proc j with pagetable := some new' } :=
        Function.update_self ..
      rw [hself] at htf' ⊢
      have htf' : (k₁.proc j).trapframe = some tf' := htf'
      -- the record of the child
      generalize hq : ({ ({ k₁.proc j with pagetable := some new' } : Proc) with
        sz := (k₁.proc i).sz, isThread := isThread
        trapframe := some { tf' with regs := regs tf.regs }
        parent := some i, state := .runnable } : Proc) = q
      have hhold : q.hold = ⟨frameAt (k₁.proc j).trapframe + frameAt (k₁.proc j).alarmTrapframe + new'.tables,
          new'.own, new'.mir⟩ := by
        rw [← hq, Proc.hold_some rfl, htf']
        rfl
      have hw' (hm : isThread = false → new'.mir = 0) : q.Wf := by
        rw [← hq]
        refine ⟨fun h => (by cases h), fun _ => ⟨Option.some_ne_none _, Option.some_ne_none new'⟩,
          fun pt₁ hpt₁ => ?_, (hw₁ i).size, fun ht => ?_⟩
        · cases hpt₁; exact ⟨hF', hin rfl⟩
        · rw [hq, hhold]; exact hm ht
      exact hI.child h₁ hold hnpt hb (hin rfl) (Function.update_idem ..) (by rw [← hq]; rfl) rfl hhold hw' hcopy hmirror

/-! ## Exit, kill and alarms -/

theorem Stable.put (h : I k) (hq : q.Wf) (ha : q.alarm = (k.proc i).alarm)
    (hh : q.hold = (k.proc i).hold) : I (k.setProc i q) :=
  hI.sets (q := q) h rfl ha rfl (Proc.Grows.of_hold hq hh)

theorem kexit_spec (h : I k) (status : Int) :
    Ensures (kexit i status) k fun _ k' => I k' := by
  refine Ensures.bind (Ensures.get (Ensures.ite (fun _ => Ensures.fail) fun _ => ?_))
  refine Ensures.bind (Ensures.modify (Ensures.bind (getProc_spec (put_spec ?_))))
  -- only parents change
  have hp : ∀ j, ∃ par, (reparent i k).proc j = { k.proc j with parent := par } := by
    intro j
    unfold reparent
    dsimp only
    split
    · exact ⟨_, rfl⟩
    · exact ⟨(k.proc j).parent, rfl⟩
  have hw : (reparent i k).Wf := by
    intro j
    obtain ⟨par, hj⟩ := hp j
    rw [hj]
    exact (hI.wf h j).congr rfl rfl rfl rfl (hI.wf h j).unused (hI.wf h j).live
  have h' : I (reparent i k) := by
    refine hI.same h hw ⟨fun j => ?_, rfl⟩ ?_
    · obtain ⟨par, hj⟩ := hp j
      rw [hj]
      rfl
    unfold pool
    have : (fun j => ((reparent i k).proc j).hold) = fun j => (k.proc j).hold := by
      funext j
      obtain ⟨par, hj⟩ := hp j
      rw [hj]
      rfl
    rw [this]
    rfl
  refine hI.put h' ((hw i).congr rfl rfl rfl rfl (fun h => by cases h) fun h => ?_) rfl rfl
  rcases h with h | h | h <;> cases h

theorem kkill_spec (h : I k) (pid : Int) : Ensures (kkill pid) k fun _ k' => I k' := by
  refine Ensures.bind (Ensures.get ?_)
  cases k.findSlot fun p => p.pid = pid with
  | none => exact Ensures.pure h
  | some j =>
    refine Ensures.bind (put_spec (Ensures.pure (hI.put h ?_ rfl rfl)))
    refine (hI.wf h j).congr rfl rfl rfl rfl (fun hu => (hI.wf h j).unused ?_)
      fun hl => (hI.wf h j).live ?_
    · dsimp only at hu
      split at hu
      · cases hu
      · exact hu
    · unfold Proc.Live at hl ⊢
      dsimp only at hl
      split at hl
      · exact Or.inr (Or.inr ‹_›)
      · exact hl

omit hI in
structure Returned (k k' : Kernel) (i : Slot) (tf saved : Frame) : Prop where
  backup : (k.proc i).alarmTrapframe = some saved
  sets : Sets k k' i ((k.proc i).returned tf saved)
  wf : k'.Wf
  grows : Pool.Grows k.pool k'.pool i
  log : k'.log = (k.backups, saved.page :: k.released)

omit hI in
theorem alarmReturn_spec (hk : k.Wf) :
    Ensures (alarmReturn i) k fun r k' => r = 0 ∧ ∃ tf saved, Returned k k' i tf saved := by
  refine Ensures.bind (getProc_spec (Ensures.bind (Ensures.deref fun tf htf => ?_)))
  refine Ensures.bind (Ensures.deref fun saved hsaved => ?_)
  refine Ensures.bind (lift_spec ((kfree_spec saved.page k.freelist).mono fun _ free hf => ?_))
  refine Ensures.bind (put_spec (Ensures.bind (Ensures.modify (Ensures.pure ?_))))
  have hw := Proc.returned_wf htf saved (hk i)
  have g := Proc.Grows.of_return hsaved hw (Proc.returned_hold htf saved) hf
  exact ⟨rfl, tf, saved, hsaved, rfl, Sets.wf rfl hk hw, Sets.grows rfl g, rfl⟩

omit hI in
structure Fired (k k' : Kernel) (i : Slot) : Prop where
  sets : Sets k k' i (k'.proc i)
  wf : k'.Wf
  grows : Pool.Grows k.pool k'.pool i
  alarm : Quiet k k' ∨ ∃ tf pa, (k.proc i).trapframe = some tf ∧
    k'.proc i = (k.proc i).fired tf pa ∧ k'.log = (pa :: k.backups, k.released)

omit hI in
theorem fireAlarm_spec (hk : k.Wf) (hn : (k.proc i).alarmTrapframe = none) :
    Ensures (fireAlarm i) k fun _ k' => Fired k k' i := by
  refine Ensures.bind (getProc_spec (Ensures.bind (Ensures.deref fun tf htf => ?_)))
  refine Ensures.bind (lift_spec ((kalloc_spec k.freelist).mono fun r free hr => ?_))
  cases r with
  | none =>
    rw [pageAt_none, add_zero] at hr
    have hq : ({ k.proc i with alarmTrapframe := none } : Proc) = k.proc i := by rw [← hn]
    refine put_spec ?_
    rw [hq]
    generalize hk' : ({ k with freelist := free } : Kernel).setProc i (k.proc i) = k'
    have hs : Sets k k' i (k.proc i) := by rw [← hk']; rfl
    have hf : k'.freelist = free := by rw [← hk']; rfl
    have g : Proc.Grows k.freelist (k.proc i) k'.freelist (k.proc i) :=
      Proc.Grows.of_perm (hk i) (hf ▸ hr)
    exact ⟨hs.self.symm ▸ hs, hs.wf hk g.wf, hs.grows g, Or.inl (hs.quiet rfl (by rw [← hk']; rfl))⟩
  | some pa =>
    refine Ensures.bind (put_spec (Ensures.modify ?_))
    change Fired k { ({ k with freelist := free } : Kernel).setProc i ((k.proc i).fired tf pa) with
      backups := pa :: k.backups } i
    generalize hk' : ({ ({ k with freelist := free } : Kernel).setProc i ((k.proc i).fired tf pa)
      with backups := pa :: k.backups } : Kernel) = k'
    have hs : Sets k k' i ((k.proc i).fired tf pa) := by rw [← hk']; rfl
    have hf : k'.freelist = free := by rw [← hk']; rfl
    have hw := Proc.fired_wf htf pa (hk i) hn
    have g : Proc.Grows k.freelist (k.proc i) k'.freelist ((k.proc i).fired tf pa) :=
      hf ▸ Proc.Grows.of_fire ⟨pa, tf.regs⟩ rfl hw (Proc.fired_hold htf pa hn) hr
    refine ⟨hs.self.symm ▸ hs, hs.wf hk hw, hs.grows g, Or.inr ⟨tf, pa, htf, hs.self, ?_⟩⟩
    rw [← hk']; rfl

omit hI in
def forget (k : Kernel) (i : Slot) : Kernel :=
  k.setProc i { k.proc i with alarmTrapframe := none }

omit hI in
theorem forget_sets (k : Kernel) (i : Slot) :
    Sets k (k.forget i) i { k.proc i with alarmTrapframe := none } := rfl

omit hI in
theorem forget_wf (hk : k.Wf) : (k.forget i).Wf := by
  refine (forget_sets k i).wf hk ((hk i).congr rfl rfl rfl rfl (fun hu => ?_) (hk i).live)
  obtain ⟨htf, ha, hpt⟩ := (hk i).unused hu
  have hn : (k.proc i).alarmActive = false := congrArg Prod.fst ha
  exact ⟨htf, Prod.ext hn rfl, hpt⟩

omit hI in
theorem fireAlarm_forget (k : Kernel) (i : Slot) : fireAlarm i k = fireAlarm i (k.forget i) := by
  unfold fireAlarm forget
  cases htf : (k.proc i).trapframe with
  | none => simp [bind, getProc, Mach.deref, Mach.fail, setProc, htf]
  | some tf =>
    cases hf : k.freelist with
    | nil => simp [bind, pure, getProc, Mach.deref, lift, kalloc, put, Mach.modify, setProc, htf, hf]
    | cons pa free =>
      simp [bind, pure, getProc, Mach.deref, lift, kalloc, put, Mach.modify, setProc, htf, hf]

omit hI in
theorem fireAlarm_fired (hk : k.Wf) :
    Ensures (fireAlarm i) k fun _ k' => Fired (k.forget i) k' i := by
  intro r k' hr
  rw [fireAlarm_forget] at hr
  exact fireAlarm_spec (forget_wf hk) (by rw [(forget_sets k i).self]) r k' hr

theorem alarmTick_spec (h : I k)
    (hfire : (k.proc i).alarmActive = false → ∀ k', I k' →
      (k'.proc i).alarm = (k.proc i).alarm →
      Ensures (fireAlarm i) k' fun _ k'' => I k'') :
    Ensures (alarmTick i) k fun _ k' => I k' := by
  refine Ensures.bind (getProc_spec (Ensures.ite (fun hc => ?_) fun _ => Ensures.pure h))
  refine Ensures.bind (put_spec ?_)
  have h' : I (k.setProc i { k.proc i with alarmTicks := (k.proc i).alarmTicks + 1 }) :=
    hI.put h ((hI.wf h i).congr rfl rfl rfl rfl (hI.wf h i).unused (hI.wf h i).live) rfl rfl
  refine Ensures.ite (fun _ => hfire hc.2 _ h' ?_) fun _ => Ensures.pure h'
  change (Function.update k.proc i _ i).alarm = _
  rw [Function.update_self]
  rfl

/-! ## Growing on behalf of the caller -/

omit hI in
theorem update_grows {f : Proc → Vm (α × Proc)} (hw : k.Wf)
    (hf : Ensures (f (k.proc i)) k.freelist fun r free =>
      Proc.Grows k.freelist (k.proc i) free r.2 ∧ Proc.Remaps (k.proc i) r.2) :
    Ensures (update i f) k fun _ k' => k'.Wf ∧ Quiet k k' ∧ Pool.Grows k.pool k'.pool i ∧
      ∀ j, j ≠ i → k'.proc j = k.proc j := by
  refine update_spec (hf.mono fun r free hg => ?_)
  have hs : Sets k (({ k with freelist := free } : Kernel).setProc i r.2) i r.2 := rfl
  exact ⟨hs.wf hw hg.1.wf, hs.quiet hg.2.alarm rfl, hs.grows hg.1, fun j hj => hs.other hj⟩

theorem update_keeps {f : Proc → Vm (α × Proc)} (h : I k)
    (hf : Ensures (f (k.proc i)) k.freelist fun r free =>
      Proc.Grows k.freelist (k.proc i) free r.2 ∧ Proc.Remaps (k.proc i) r.2) :
    Ensures (update i f) k fun _ k' => I k' :=
  (update_grows (hI.wf h) hf).mono fun _ _ hg => hI.grows h hg.1 hg.2.1 hg.2.2.1

end

end Kernel

end OsLab
