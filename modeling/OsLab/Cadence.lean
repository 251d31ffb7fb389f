import OsLab.Alarm
import OsLab.Killed

/-!
# When alarms go off

What the traps of a run do to the alarm of one process, and the cadence of its
handler: it is entered at the interrupt that makes the number of timer interrupts
since the last `alarm_return` equal to the interval.
-/

namespace OsLab

open Mach

def Control.alarms (c : Control) : Int × Int × Word × Option Frame × Bool :=
  (c.alarmInterval, c.alarmTicks, c.alarmHandler, c.alarmTrapframe, c.alarmActive)

namespace Kernel

variable {k k' k₀ k₁ : Kernel} {i j l : Slot} {t : Trap}

inductive AlarmEvent
  | none
  | alarm (n : Int) (f : Word)
  | ret
  | tick
deriving DecidableEq

def Call.event : Call → AlarmEvent
  | .alarm n f => .alarm n f
  | .alarmReturn => .ret
  | _ => .none

def event (i : Slot) (t : Trap) : AlarmEvent :=
  if t.i = i then
    match t.cause with
    | .ecall io => (decode t.user io).event
    | .timer => .tick
    | _ => .none
  else .none

def Effect (k : Kernel) (i : Slot) (user : Trapframe) (k' : Kernel) : AlarmEvent → Prop
  | .none => (k'.control i).alarms = (k.control i).alarms
  | .alarm n f => (k'.control i).alarms = ((k.control i).alarm n f).alarms
  | .ret => (∃ saved, (k.proc i).alarmTrapframe = some saved) ∧
      (k'.control i).alarms = (k.control i).returned.alarms
  | .tick => Ticks k i user k'

theorem update_at {x : Control} (h : k'.control = Function.update k.control j x) :
    (l = j ∧ k'.control l = x) ∨ (l ≠ j ∧ k'.control l = k.control l) := by
  by_cases hl : l = j
  · exact Or.inl ⟨hl, by rw [h, hl, Function.update_self]⟩
  · exact Or.inr ⟨hl, by rw [h, Function.update_of_ne hl]⟩

theorem Change.alarms {c : Call} {r : Outcome} (h : Change k i k' c r) (hu : (k.control l).state ≠ .unused)
    (hz : (k.control l).state ≠ .zombie) (user : Trapframe) : (k'.control l).state ≠ .unused ∧
      ((l = i ∧ (k'.control l).state = .zombie) ∨
        Effect k l user k' (if l = i then c.event else .none)) := by
  -- nothing happens to the alarm of `l`
  have none (hs : (k'.control l).state ≠ .unused) (ha : (k'.control l).alarms = (k.control l).alarms)
      (hc : l = i → c.event = .none) : (k'.control l).state ≠ .unused ∧
      ((l = i ∧ (k'.control l).state = .zombie) ∨
        Effect k l user k' (if l = i then c.event else .none)) := by
    refine ⟨hs, Or.inr ?_⟩
    have : (if l = i then c.event else .none) = AlarmEvent.none := by
      split
      · exact hc ‹_›
      · rfl
    rw [this]
    exact ha
  have idle (hl : k'.control l = k.control l) := none (hl ▸ hu) (congrArg Control.alarms hl)
  cases h with
  | same h hc hr =>
    refine idle (congrFun h.control l) fun _ => ?_
    cases c with
    | alarm n f => exact absurd rfl (hc n f)
    | alarmReturn => exact absurd rfl hr
    | _ => rfl
  | creates hc h =>
    have he : c.event = .none := by rcases hc with rfl | ⟨_, _, _, rfl⟩ <;> rfl
    cases h with
    | full h => exact idle (congrFun h.control l) fun _ => he
    | undone hj h _ =>
      rcases update_at (l := l) h with ⟨rfl, _⟩ | ⟨_, hl⟩
      · exact absurd hj hu
      · exact idle hl fun _ => he
    | born hj h _ =>
      rcases update_at (l := l) h with ⟨rfl, _⟩ | ⟨_, hl⟩
      · exact absurd hj hu
      · exact idle hl fun _ => he
  | exits h _ =>
    rcases update_at (l := l) h with ⟨rfl, hl⟩ | ⟨hli, hl⟩
    · rw [hl]; exact ⟨nofun, Or.inl ⟨rfl, rfl⟩⟩
    · exact idle hl fun hl => absurd hl hli
  | reaps hc h =>
    have he : c.event = .none := by rcases hc with ⟨_, rfl⟩ | ⟨_, _, _, rfl⟩ <;> rfl
    rcases h with h | ⟨z, hzz, h, _⟩
    · exact idle (congrFun h.control l) fun _ => he
    · rcases update_at (l := l) h with ⟨rfl, _⟩ | ⟨_, hl⟩
      · exact absurd hzz hz
      · exact idle hl fun _ => he
  | kills hj h _ =>
    rcases update_at (l := l) h with ⟨rfl, hl⟩ | ⟨_, hl⟩
    · refine none ?_ (by rw [hl]; rfl) fun _ => rfl
      rw [hl]
      change (if (k.control l).state = .sleeping then ProcState.runnable else (k.control l).state) ≠ .unused
      split
      · exact nofun
      · exact hu
    · exact idle hl fun _ => rfl
  | alarm h _ =>
    rcases update_at (l := l) h with ⟨rfl, hl⟩ | ⟨hli, hl⟩
    · rw [if_pos rfl]
      exact ⟨hl ▸ hu, Or.inr (congrArg Control.alarms hl)⟩
    · exact idle hl fun hl => absurd hl hli
  | returns hb h _ =>
    rcases update_at (l := l) h with ⟨rfl, hl⟩ | ⟨hli, hl⟩
    · rw [if_pos rfl]
      exact ⟨hl ▸ hu, Or.inr ⟨⟨_, hb⟩, congrArg Control.alarms hl⟩⟩
    · exact idle hl fun hl => absurd hl hli

/-- What a trap does to the alarm of process `i`, which has not exited: it exits,
or its alarm fields change as the event says. -/
theorem Trapped.alarms {r : Outcome} (h : Trapped k t k' r) (hu : (k.control i).state ≠ .unused)
    (hz : (k.control i).state ≠ .zombie) : (k'.control i).state ≠ .unused ∧
      ((t.i = i ∧ (k'.control i).state = .zombie) ∨ Effect k i t.user k' (event i t)) := by
  cases h with
  | @call io k₁ r r' hc hk h he =>
    have hev : (if i = t.i then (decode t.user io).event else .none) = event i t := by
      unfold event
      rw [hc]
      simp only [eq_comm]
    obtain ⟨hu₁, h₁⟩ := h.alarms hu hz t.user
    rw [hev] at h₁
    -- the end of the trap changes at most the state of the caller
    have leave (ha : (k'.control i).alarms = (k₁.control i).alarms) (he : Effect k i t.user k₁ (event i t)) :
        Effect k i t.user k' (event i t) := by
      have hnt : event i t ≠ .tick := by
        rw [← hev]
        split
        · cases decode t.user io <;> exact nofun
        · exact nofun
      cases hx : event i t with
      | tick => exact absurd hx hnt
      | none => rw [hx] at he; exact ha.trans he
      | alarm n f => rw [hx] at he; exact ha.trans he
      | ret => rw [hx] at he; exact ⟨he.1, ha.trans he.2⟩
    cases he with
    | goes hs _ =>
      have hi := congrFun hs.control i
      rw [hi]
      exact ⟨hu₁, h₁.imp (And.imp_left Eq.symm) (leave (congrArg Control.alarms hi))⟩
    | exits _ h _ =>
      rcases update_at (l := i) h with ⟨rfl, hi⟩ | ⟨hne, hi⟩
      · rw [hi]; exact ⟨nofun, Or.inl ⟨rfl, rfl⟩⟩
      · rw [hi]
        exact ⟨hu₁, h₁.imp (And.imp_left Eq.symm) (leave (congrArg Control.alarms hi))⟩
  | dies hc h _ =>
    rcases update_at (l := i) h with ⟨rfl, hi⟩ | ⟨hne, hi⟩
    · rw [hi]; exact ⟨nofun, Or.inl ⟨rfl, rfl⟩⟩
    · have : event i t = .none := if_neg fun h => hne h.symm
      rw [this]
      exact ⟨hi ▸ hu, Or.inr (congrArg Control.alarms hi)⟩
  | quiet hc h =>
    have hi := congrFun h.control i
    have : event i t = .none := by
      unfold event
      rcases hc with hc | ⟨_, hc⟩ <;> simp [hc]
    rw [this]
    exact ⟨hi ▸ hu, Or.inr (congrArg Control.alarms hi)⟩
  | ticks hc hk h _ =>
    obtain ⟨x, hx, hs, -, -⟩ := h.sets
    rcases update_at (l := i) hx with ⟨rfl, hi⟩ | ⟨hne, hi⟩
    · have : event t.i t = .tick := by simp [event, hc]
      rw [this, hi, hs]
      exact ⟨hu, Or.inr h⟩
    · have : event i t = .none := if_neg fun h => hne h.symm
      rw [this]
      exact ⟨hi ▸ hu, Or.inr (congrArg Control.alarms hi)⟩

/-! ## The cadence -/

/-- A trap of a run in which process `i` keeps its alarm: it has not exited, it
does not call `alarm`, it calls `alarm_return` only from its handler, and there
is a page for the backup when its alarm goes off. -/
structure Steady (i : Slot) (k : Kernel) (t : Trap) : Prop where
  alive : (k.proc i).state ≠ .zombie
  alarm : ∀ n f, event i t ≠ .alarm n f
  ret : event i t = .ret → (k.proc i).alarmActive = true
  page : event i t = .tick → (k.proc i).alarmActive = false →
    (k.proc i).alarmInterval ≤ (k.proc i).alarmTicks + 1 → k.freelist ≠ []

/-- The number of timer interrupts that process `i` has taken in user mode since
its last `alarm_return`, after one more trap. -/
def count (i : Slot) (c : Nat) (t : Trap) : Nat :=
  match event i t with
  | .ret => 0
  | .tick => c + 1
  | _ => c

def sinceReturn (i : Slot) (ts : List Trap) : Nat := ts.foldl (count i) 0

structure Beats (i : Slot) (n : Int) (f : Word) (c : Nat) (k : Kernel) : Prop where
  interval : (k.proc i).alarmInterval = n
  handler : (k.proc i).alarmHandler = f
  active : (k.proc i).alarmActive = true ↔ 0 < n ∧ n ≤ c
  ticks : (k.proc i).alarmActive = false → 0 < n → (k.proc i).alarmTicks = c

theorem alarms_eq {x : Control} (h : (k'.control i).alarms = x.alarms) :
    (k'.proc i).alarmInterval = x.alarmInterval ∧ (k'.proc i).alarmTicks = x.alarmTicks ∧
    (k'.proc i).alarmHandler = x.alarmHandler ∧ (k'.proc i).alarmTrapframe = x.alarmTrapframe ∧
    (k'.proc i).alarmActive = x.alarmActive := by
  simpa [Control.alarms, control, Proc.control] using h

theorem Beats.of_alarms {n : Int} {f : Word} {c : Nat} {x : Control}
    (h : (k'.control i).alarms = x.alarms) (hn : x.alarmInterval = n) (hf : x.alarmHandler = f)
    (ha : x.alarmActive = true ↔ 0 < n ∧ n ≤ c) (ht : x.alarmActive = false → 0 < n → x.alarmTicks = c) :
    Beats i n f c k' := by
  obtain ⟨h1, h2, h3, -, h5⟩ := alarms_eq h
  exact ⟨h1.trans hn, h3.trans hf, h5 ▸ ha, h5 ▸ h2 ▸ ht⟩

section
variable {n : Int} {f : Word} {c : Nat} (h : Beats i n f c k)
include h

theorem Beats.tick {user : Trapframe} (ht : Ticks k i user k')
    (hp : (k.proc i).alarmActive = false → (k.proc i).alarmInterval ≤ (k.proc i).alarmTicks + 1 → k.freelist ≠ []) :
    Beats i n f (c + 1) k' ∧ k'.regs i = some (if (c : Int) + 1 = n then { user with epc := f } else user) := by
  have at_i {x : Control} (hx : k'.control = Function.update k.control i x) : k'.control i = x := by
    rw [hx, Function.update_self]
  cases ht with
  | idle hi hc hr =>
    rw [h.interval] at hi
    have ha := h.active
    have hne : (c : Int) + 1 ≠ n := by
      intro hn
      exact hi ⟨by omega, Bool.eq_false_iff.mpr fun hb => by have := (ha.mp hb).2; omega⟩
    refine ⟨.of_alarms (x := k.control i) (by rw [hc]) h.interval h.handler ?_ ?_, by rw [if_neg hne, hr]⟩
    · refine ha.trans (and_congr_right fun hn => ⟨fun _ => by push_cast; omega, fun _ => ?_⟩)
      by_contra hlt
      exact hi ⟨hn, Bool.eq_false_iff.mpr fun hb => hlt (ha.mp hb).2⟩
    · exact fun hb hn => absurd ⟨hn, hb⟩ hi
  | counts hi hb hlt hc hr =>
    rw [h.interval] at hi hlt
    have hticks := h.ticks hb hi
    refine ⟨.of_alarms (congrArg Control.alarms (at_i hc)) h.interval h.handler ?_ fun _ _ => ?_, ?_⟩
    · change (k.proc i).alarmActive = true ↔ _
      rw [hb]
      push_cast
      exact ⟨nofun, fun hn => by omega⟩
    · push_cast
      exact congrArg (· + 1) hticks
    · rw [if_neg (by omega), hr]
  | starved hi hb hge hn _ _ => exact absurd hn (hp hb hge)
  | fires pa hi hb hge hc hr =>
    rw [h.interval] at hi hge
    have hticks := h.ticks hb hi
    have hlt : ¬n ≤ c := fun hle => by
      have := h.active.mpr ⟨hi, hle⟩
      rw [hb] at this
      cases this
    refine ⟨.of_alarms (congrArg Control.alarms (at_i hc)) h.interval h.handler ?_ nofun, ?_⟩
    · push_cast
      exact ⟨fun _ => by omega, fun _ => rfl⟩
    · rw [if_pos (by omega), hr, h.handler]

theorem Beats.step (hst : Steady i k t) (he : Effect k i t.user k' (event i t)) :
    Beats i n f (count i c t) k' ∧ (event i t = .tick →
      k'.regs i = some (if (c : Int) + 1 = n then { t.user with epc := f } else t.user)) := by
  unfold count
  cases hev : event i t with
  | none =>
    rw [hev] at he
    exact ⟨.of_alarms he h.interval h.handler h.active h.ticks, nofun⟩
  | alarm m g => exact absurd hev (hst.alarm m g)
  | ret =>
    rw [hev] at he
    have hn := (h.active.mp (hst.ret hev)).1
    refine ⟨.of_alarms he.2 h.interval h.handler ⟨nofun, fun hle => ?_⟩ fun _ _ => rfl, nofun⟩
    have := hle.2
    push_cast at this
    omega
  | tick =>
    rw [hev] at he
    have := h.tick he (hst.page hev)
    exact ⟨this.1, fun _ => this.2⟩

end

structure InTime (i : Slot) (n : Int) (f : Word) (c : Nat) (k : Kernel) : Prop where
  wf : k.Wf
  used : (k.proc i).state ≠ .unused
  beats : (k.proc i).state ≠ .zombie → Beats i n f c k

theorem InTime.step {n : Int} {f : Word} {c : Nat} (h : InTime i n f c k) (hst : Steady i k t)
    (hs : step k t = some k') : InTime i n f (count i c t) k' := by
  obtain ⟨r, -, ht⟩ := step_control h.wf hs
  obtain ⟨hu, he⟩ := ht.alarms h.used hst.alive
  refine ⟨step_wf h.wf hs, hu, fun hz => ?_⟩
  exact ((h.beats hst.alive).step hst (he.resolve_left fun h => hz h.2)).1

theorem InTime.run {n : Int} {f : Word} {c : Nat} {ts : List Trap} (h : InTime i n f c k)
    (hm : Meets (Steady i) k ts) (hr : run k ts = some k') : InTime i n f (ts.foldl (count i) c) k' := by
  induction ts generalizing k c with
  | nil => cases hr; exact h
  | cons t ts ih =>
    unfold Kernel.run at hr
    cases hs : Kernel.step k t with
    | none => rw [hs] at hr; cases hr
    | some k₁ =>
      rw [hs] at hr
      exact ih (h.step hm.1 hs) (hm.2 k₁ hs) hr

theorem step_alive (hs : step k t = some k') :
    (k.proc t.i).state ≠ .unused ∧ (k.proc t.i).state ≠ .zombie := by
  unfold step at hs
  split at hs
  · rename_i h
    rcases h with h | h <;> rw [h] <;> exact ⟨nofun, nofun⟩
  · cases hs

theorem alarm_inTime {n : Int} {f : Word} {U : Trapframe} {io : Io} (hw : k.Wf)
    (hc : decode U io = .alarm n f) (hs : step k ⟨i, U, .ecall io⟩ = some k') : InTime i n f 0 k' := by
  have hev : event i ⟨i, U, .ecall io⟩ = .alarm n f := by simp [event, hc, Call.event]
  obtain ⟨r, -, ht⟩ := step_control hw hs
  obtain ⟨hu, hz⟩ := step_alive hs
  obtain ⟨hu', he⟩ := ht.alarms hu hz
  refine ⟨step_wf hw hs, hu', fun hz' => ?_⟩
  have he := he.resolve_left fun h => hz' h.2
  rw [hev] at he
  refine .of_alarms he rfl rfl ⟨nofun, fun hn => ?_⟩ fun _ _ => rfl
  have := hn.2
  push_cast at this
  omega

theorem Beats.enters {n : Int} {f : Word} {c : Nat} (h : Beats i n f c k) (h' : Beats i n f (count i c t) k') :
    (k.proc i).alarmActive = false ∧ (k'.proc i).alarmActive = true ↔ event i t = .tick ∧ (c : Int) + 1 = n := by
  rw [h'.active, ← Bool.not_eq_true, h.active]
  unfold count
  cases hev : event i t with
  | none => simp only [reduceCtorEq, false_and, iff_false]; omega
  | alarm m g => simp only [reduceCtorEq, false_and, iff_false]; omega
  | ret => simp only [reduceCtorEq, false_and, iff_false]; push_cast; omega
  | tick => simp only [true_and]; push_cast; omega

/-- After `alarm(n, f)`, process `i` enters its handler exactly at the timer
interrupts in user mode that are the `n`-th since the call or since the last
`alarm_return`; at every other timer interrupt it goes on where it was. -/
theorem alarm_cadence {n : Int} {f : Word} {U : Trapframe} {io : Io} {ts : List Trap} (h₀ : Reachable k₀)
    (hc : decode U io = .alarm n f) (hs₀ : step k₀ ⟨i, U, .ecall io⟩ = some k₁)
    (hm : Meets (Steady i) k₁ ts) (hr : run k₁ ts = some k) (ht : Steady i k t) (hs : step k t = some k')
    (hz : (k'.proc i).state ≠ .zombie) :
    ((k.proc i).alarmActive = false ∧ (k'.proc i).alarmActive = true ↔
      event i t = .tick ∧ (sinceReturn i ts : Int) + 1 = n) ∧
    (event i t = .tick →
      k'.regs i = some (if (sinceReturn i ts : Int) + 1 = n then { t.user with epc := f } else t.user)) := by
  have h := (alarm_inTime h₀.wf hc hs₀).run hm hr
  obtain ⟨r, -, hx⟩ := step_control h.wf hs
  have he := (hx.alarms h.used ht.alive).2.resolve_left fun h => hz h.2
  have hb := h.beats ht.alive
  obtain ⟨hb', hregs⟩ := hb.step ht he
  exact ⟨hb.enters hb', hregs⟩

theorem alarm_cadence_second : ∃ k₀ k₁ k k' : Kernel, step k₀ (ecall 0 26 2 5 0) = some k₁ ∧
    run k₁ [timer 0 0] = some k ∧ step k (timer 0 0) = some k' ∧
    k'.regs 0 = some { (timer 0 0).user with epc := 5 } := by
  have h : reaches [] (fun _ k₀ => (step k₀ (ecall 0 26 2 5 0)).any fun k₁ =>
      (k₁.proc 0).state ≠ .zombie ∧ k₁.freelist ≠ [] ∧ (run k₁ [timer 0 0]).any fun k =>
        (k.proc 0).state ≠ .zombie ∧ k.freelist ≠ [] ∧ (step k (timer 0 0)).any fun k' =>
          (k'.proc 0).state ≠ .zombie) = true := by decide +kernel
  obtain ⟨kb, k₀, hb, hr₀, ht⟩ := reaches_iff.mp h
  simp only [Option.any_eq_true, decide_eq_true_eq] at ht
  obtain ⟨k₁, hs₀, hz₁, hf₁, k, hr, hz, hf, k', hs, hz'⟩ := ht
  have h₀ : Reachable k₀ := ⟨List.range 40, some initImage, [], kb, [], List.nodup_range, hb, hr₀⟩
  have hev : event 0 (timer 0 0) = .tick := rfl
  have steady {k : Kernel} (hz : (k.proc 0).state ≠ .zombie) (hf : k.freelist ≠ []) :
      Steady 0 k (timer 0 0) := by
    refine ⟨hz, ?_, ?_, fun _ _ _ => hf⟩
    · rw [hev]; exact nofun
    · rw [hev]; exact nofun
  have hm : Meets (Steady 0) k₁ [timer 0 0] := ⟨steady hz₁ hf₁, fun _ _ => trivial⟩
  have hregs := (alarm_cadence (n := 2) (f := 5) h₀ rfl hs₀ hm hr (steady hz hf) hs hz').2 hev
  rw [if_pos (by decide)] at hregs
  exact ⟨k₀, k₁, k, k', hs₀, hr, hs, hregs⟩

end Kernel

end OsLab
