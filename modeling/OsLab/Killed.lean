import OsLab.Control

/-!
# Who marks a process killed

`kkill` marks the first slot with the pid it is given, and an unused slot has pid
0. As long as no process calls `kill(0)` while a slot is unused, a new process
starts unmarked, and a process is marked only by a `kill` that names it or by a
fault of its own.
-/

namespace OsLab

open Mach

theorem Proc.kexec_remaps (p : Proc) (img : Option Image) (argv : List Nat) (free : List Page) :
    Ensures (p.kexec img argv) free fun r _ => Proc.Remaps p r.2 := by
  cases img with
  | none => exact Ensures.pure (Proc.Remaps.refl p)
  | some img =>
    refine Ensures.bind (Ensures.deref fun tf _ => Ensures.bind fun pt _ _ => ?_)
    cases pt with
    | none => exact Ensures.pure (Proc.Remaps.refl p)
    | some pt =>
      refine Ensures.bind fun r _ _ => ?_
      obtain ⟨sp, sz, pt'⟩ := r
      cases sp with
      | none => exact Ensures.bind fun _ _ _ => Ensures.pure (Proc.Remaps.refl p)
      | some sp =>
        refine Ensures.bind (Ensures.deref fun old _ => Ensures.bind fun _ _ _ => Ensures.pure ?_)
        exact ⟨_, _, _, rfl⟩

namespace Kernel

variable {k k' k₀ k₁ : Kernel} {i j : Slot}

/-! ## Boot -/

theorem boot_control {pages : List Page} {img : Option Image} {argv : List Nat}
    (hb : boot pages img argv = some k) : k.nextpid = 2 ∧
      ∃ i, k.control = Function.update (fun _ => Control.zero) i (Control.zero.born 1) := by
  have init : Ensures (boot.userinit img argv) (zero pages) fun _ k' => k'.nextpid = 2 ∧
      ∃ i, k'.control = Function.update (fun _ => Control.zero) i (Control.zero.born 1) := by
    refine Ensures.bind (allocproc_control.mono ?_)
    rintro r k₁ ⟨-, ha⟩
    refine Ensures.bind (Ensures.deref fun i hi => ?_)
    obtain ⟨-, hc, hn⟩ := ha i hi
    refine Ensures.bind (Ensures.modify (Ensures.bind (getProc_spec (Ensures.bind (put_spec ?_)))))
    generalize hk₂ : ({ k₁ with initproc := i } : Kernel).setProc i { k₁.proc i with state := .runnable } = k₂
    have hc₂ : k₂.control = Function.update (fun _ => Control.zero) i (Control.zero.born 1) := by
      rw [← hk₂]
      refine (control_setProc ..).trans ?_
      change Function.update k₁.control i { k₁.control i with state := .runnable } = _
      rw [hc, Function.update_idem, Function.update_self]
      rfl
    have hn₂ : k₂.nextpid = 2 := by rw [← hk₂]; exact hn
    refine Ensures.bind ((update_same (Proc.kexec_remaps _ img argv _)).mono fun r k₃ h₃ => ?_)
    refine Ensures.ite (fun _ => Ensures.fail) fun _ => (setRegs_same _).mono fun _ k' h' => ?_
    have h := h₃.trans h'.1
    exact ⟨h.nextpid.trans hn₂, i, h.control.trans hc₂⟩
  unfold boot at hb
  split at hb
  · cases hb
  · cases hb; exact init _ _ ‹_›

/-! ## Unused slots -/

/-- An unused slot has pid 0 and is not marked; the others have a pid that has
been given away. -/
structure Named (c : Slot → Control) (nextpid : Int) : Prop where
  next : 0 < nextpid
  pid : ∀ j, (c j).state = .unused → (c j).pid = 0
  pos : ∀ j, (c j).state ≠ .unused → 0 < (c j).pid
  killed : ∀ j, (c j).state = .unused → (c j).killed = false

def NoKillZero (k : Kernel) (t : Trap) : Prop :=
  ∀ io, t.cause = .ecall io → decode t.user io = .kill 0 → ∀ j, (k.proc j).state ≠ .unused

theorem Named.update {c : Slot → Control} {n n' : Int} {x : Control} (h : Named c n) (hn : n ≤ n')
    (hu : x.state = .unused → x.pid = 0 ∧ x.killed = false) (hp : x.state ≠ .unused → 0 < x.pid) :
    Named (Function.update c j x) n' := by
  refine ⟨lt_of_lt_of_le h.next hn, fun l => ?_, fun l => ?_, fun l => ?_⟩
  all_goals by_cases hl : l = j
  · subst hl; rw [Function.update_self]; exact fun h => (hu h).1
  · rw [Function.update_of_ne hl]; exact h.pid l
  · subst hl; rw [Function.update_self]; exact hp
  · rw [Function.update_of_ne hl]; exact h.pos l
  · subst hl; rw [Function.update_self]; exact fun h => (hu h).2
  · rw [Function.update_of_ne hl]; exact h.killed l

/-! ## One trap -/

/-- A slot whose fields go from `x` to `y`: if it holds a marked process at the
end, it held that process before, which was marked already, or `m` is the case. -/
def Kept (m : Prop) (x y : Control) : Prop :=
  y.state ≠ .unused → y.killed = true → x.state ≠ .unused ∧ y.pid = x.pid ∧ (x.killed = true ∨ m)

theorem Kept.of_eq {m : Prop} {x y : Control} (hs : y.state = x.state) (hp : y.pid = x.pid)
    (hk : y.killed = x.killed) : Kept m x y :=
  fun hu hd => ⟨hs ▸ hu, hp, Or.inl (hk ▸ hd)⟩

theorem Kept.trans {m : Prop} {x y z : Control} (h : Kept m x y) (h' : Kept False y z) : Kept m x z := by
  intro hu hd
  obtain ⟨hu₁, hp₁, hd₁⟩ := h' hu hd
  obtain ⟨hu₂, hp₂, hd₂⟩ := h hu₁ (hd₁.resolve_right id)
  exact ⟨hu₂, hp₁.trans hp₂, hd₂⟩

/-- What holds after a part of a trap in which slot `j` can have been marked only
if `m j` is the case. -/
structure Marks (k : Kernel) (m : Slot → Prop) (k' : Kernel) : Prop where
  named : Named k'.control k'.nextpid
  kept : ∀ j, Kept (m j) (k.control j) (k'.control j)

section
variable {m : Slot → Prop} (h : Named k.control k.nextpid)
include h

theorem Marks.same (hs : Same k k') : Marks k m k' := by
  refine ⟨?_, fun j => ?_⟩
  · rw [hs.control, hs.nextpid]; exact h
  · rw [hs.control]; exact .of_eq rfl rfl rfl

theorem Marks.update {x : Control} (hc : k'.control = Function.update k.control j x) (hn : k.nextpid ≤ k'.nextpid)
    (hu : x.state = .unused → x.pid = 0 ∧ x.killed = false) (hp : x.state ≠ .unused → 0 < x.pid)
    (hk : Kept (m j) (k.control j) x) : Marks k m k' := by
  refine ⟨hc ▸ h.update hn hu hp, fun l => ?_⟩
  rw [hc]
  by_cases hl : l = j
  · subst hl; rw [Function.update_self]; exact hk
  · rw [Function.update_of_ne hl]; exact .of_eq rfl rfl rfl

theorem Marks.zero (hc : k'.control = Function.update k.control j Control.zero) (hn : k.nextpid ≤ k'.nextpid) :
    Marks k m k' :=
  .update h hc hn (fun _ => ⟨rfl, rfl⟩) (fun hx => absurd rfl hx) fun hx => absurd rfl hx

theorem Marks.used {x : Control} (hc : k'.control = Function.update k.control j x) (hn : k'.nextpid = k.nextpid)
    (hs : (k.control j).state ≠ .unused) (hx : x.state ≠ .unused) (hp : x.pid = (k.control j).pid)
    (hk : x.killed = true → (k.control j).killed = true ∨ m j) : Marks k m k' := by
  refine .update h hc (by omega) (fun hu => absurd hu hx) (fun _ => ?_) fun _ hd => ⟨hs, hp, hk hd⟩
  rw [hp]
  exact h.pos j hs

theorem Change.marks {c : Call} {r : Outcome} (hi : (k.proc i).state ≠ .unused) (hc : Change k i k' c r)
    (hz : c = .kill 0 → ∀ j, (k.proc j).state ≠ .unused) :
    Marks k (fun j => c = .kill (k.proc j).pid) k' := by
  cases hc with
  | same hs _ _ => exact .same h hs
  | creates _ hc =>
    cases hc with
    | full hs => exact .same h hs
    | undone _ hc hn => exact .zero h hc (by omega)
    | @born j hj hc hn =>
      have hk : (k.control j).killed = false := h.killed j hj
      refine .update h hc (by omega) nofun (fun _ => h.next) fun _ hd => ?_
      rw [show ((k.control j).born k.nextpid).killed = (k.control j).killed from rfl, hk] at hd
      cases hd
  | exits hc hn => exact .used h hc hn hi nofun rfl Or.inl
  | reaps _ hr =>
    rcases hr with hs | ⟨z, _, hc, hn⟩
    · exact .same h hs
    · exact .zero h hc (by omega)
  | @kills pid j hj hc hn =>
    have hs : (k.control j).state ≠ .unused := by
      intro hu
      have h0 : (k.proc j).pid = 0 := h.pid j hu
      exact hz (by rw [← hj, h0]) j hu
    refine .used h hc hn hs ?_ rfl fun _ => Or.inr (by rw [hj])
    change (if (k.control j).state = .sleeping then ProcState.runnable else (k.control j).state) ≠ .unused
    split
    · exact nofun
    · exact hs
  | alarm hc hn => exact .used h hc hn hi hi rfl Or.inl
  | returns _ hc hn => exact .used h hc hn hi hi rfl Or.inl

end

/-- Trap `t` is a `kill` that names process `j`, or a fault of process `j`. -/
def MarkedBy (k : Kernel) (t : Trap) (j : Slot) : Prop :=
  (∃ io, t.cause = .ecall io ∧ decode t.user io = .kill (k.proc j).pid) ∨
    (t.i = j ∧ (t.cause = .other ∨ ∃ va, t.cause = .fault va))

theorem Trapped.marks {t : Trap} {r : Outcome} (h : Named k.control k.nextpid)
    (hi : (k.proc t.i).state ≠ .unused) (hz : NoKillZero k t) (ht : Trapped k t k' r) :
    Marks k (MarkedBy k t) k' := by
  cases ht with
  | @call io k₁ _ _ hio hk hc he =>
    have h₁ := hc.marks h hi (hz io hio)
    have kept (j : Slot) : Kept (MarkedBy k t j) (k.control j) (k₁.control j) := fun hu hd =>
      (h₁.kept j hu hd).imp_right fun h => h.imp_right fun hm => hm.imp_right fun hm => Or.inl ⟨io, hio, hm⟩
    have h₂ : Marks k₁ (fun _ => False) k' := by
      cases he with
      | goes hs _ => exact .same h₁.named hs
      | exits hd hc hn =>
        have hu : (k₁.control t.i).state ≠ .unused := fun hu => by
          have := h₁.named.killed t.i hu
          rw [show (k₁.control t.i).killed = true from hd] at this
          cases this
        exact .used h₁.named hc hn hu nofun rfl Or.inl
    exact ⟨h₂.named, fun j => (kept j).trans (h₂.kept j)⟩
  | dies hc hx hn =>
    refine .used h hx hn hi nofun rfl fun _ => hc.imp_right fun hc => Or.inr ⟨rfl, hc⟩
  | quiet _ hs => exact .same h hs
  | ticks _ _ ht hn =>
    obtain ⟨x, hx, hs, hp, hk⟩ := ht.sets
    exact .used h hx hn hi (hs ▸ hi) hp fun hd => Or.inl (hk ▸ hd)

/-! ## Runs -/

/-- Trap `t` sets `killed` of the process in slot `j`. -/
structure MarkedIn (k : Kernel) (t : Trap) (k' : Kernel) (j : Slot) : Prop where
  step : step k t = some k'
  used : (k.proc j).state ≠ .unused
  pid : (k'.proc j).pid = (k.proc j).pid
  unkilled : (k.proc j).killed = false
  killed : (k'.proc j).killed = true
  by_trap : MarkedBy k t j

def Orderly (k : Kernel) : Prop := k.Wf ∧ Named k.control k.nextpid

theorem step_marks {t : Trap} (h : Orderly k) (hz : NoKillZero k t) (hs : step k t = some k') :
    Orderly k' ∧ ∀ j, Kept (MarkedBy k t j) (k.control j) (k'.control j) := by
  obtain ⟨r, -, ht⟩ := step_control h.1 hs
  have hi : (k.proc t.i).state ≠ .unused := by
    unfold step at hs
    split at hs
    · rename_i h
      rcases h with h | h <;> rw [h] <;> exact nofun
    · cases hs
  have hm := ht.marks h.2 hi hz
  exact ⟨⟨step_wf h.1 hs, hm.named⟩, hm.kept⟩

theorem run_marks {ts : List Trap} (h : Orderly k) (hm : Meets NoKillZero k ts) (hr : run k ts = some k')
    (hu : (k'.proc j).state ≠ .unused) (hd : (k'.proc j).killed = true) :
    ((k.proc j).state ≠ .unused ∧ (k'.proc j).pid = (k.proc j).pid ∧ (k.proc j).killed = true) ∨
    ∃ ts₁ t ts₂ k₁ k₂, ts = ts₁ ++ t :: ts₂ ∧ run k ts₁ = some k₁ ∧
      (k₁.proc j).pid = (k'.proc j).pid ∧ MarkedIn k₁ t k₂ j := by
  induction ts generalizing k with
  | nil =>
    cases hr
    exact Or.inl ⟨hu, rfl, hd⟩
  | cons t ts ih =>
    unfold run at hr
    cases hs : step k t with
    | none => rw [hs] at hr; cases hr
    | some k₁ =>
      rw [hs] at hr
      obtain ⟨h₁, hk⟩ := step_marks h hm.1 hs
      rcases ih h₁ (hm.2 k₁ hs) hr with ⟨hu₁, hp₁, hd₁⟩ | ⟨ts₁, t', ts₂, k₂, k₃, rfl, hr₂, hx⟩
      · obtain ⟨hu₀, hp₀, hby⟩ := hk j hu₁ hd₁
        cases hd₀ : (k.proc j).killed with
        | true => exact Or.inl ⟨hu₀, hp₁.trans hp₀, rfl⟩
        | false =>
          have hby := hby.resolve_left fun h => by cases hd₀.symm.trans h
          exact Or.inr ⟨[], t, ts, k, k₁, rfl, rfl, (hp₁.trans hp₀).symm, hs, hu₀, hp₀, hd₀, hd₁, hby⟩
      · refine Or.inr ⟨t :: ts₁, t', ts₂, k₂, k₃, rfl, ?_, hx⟩
        unfold run
        rw [hs]
        exact hr₂

theorem boot_orderly {pages : List Page} {img : Option Image} {argv : List Nat}
    (hb : boot pages img argv = some k) : Orderly k ∧ ∀ j, (k.proc j).killed = false := by
  obtain ⟨hn, i, hc⟩ := boot_control hb
  have h₀ : Named (fun _ => Control.zero) 2 := ⟨by decide, fun _ _ => rfl, fun _ h => absurd rfl h, fun _ _ => rfl⟩
  refine ⟨⟨boot_spec wf_blind.stable (zero_wf pages) hb, ?_⟩, fun j => ?_⟩
  · rw [hn, hc]
    exact h₀.update le_rfl nofun fun _ => by decide
  · change (k.control j).killed = false
    rw [hc]
    by_cases hj : j = i
    · subst hj; rw [Function.update_self]; rfl
    · rw [Function.update_of_ne hj]; rfl

/-- As long as `kill(0)` is not called while a slot is unused, a process that
`fork` or `clone` creates is not marked killed, and a marked process was marked,
after its creation, by a `kill` naming its pid or by a fault of its own. -/
theorem starts_unkilled {pages : List Page} {img : Option Image} {argv : List Nat} {ts : List Trap}
    (hb : boot pages img argv = some k₀) (hm : Meets NoKillZero k₀ ts) (hr : run k₀ ts = some k) :
    (∀ t io k' j, t.cause = .ecall io →
      (decode t.user io = .fork ∨ ∃ fcn arg stack, decode t.user io = .clone fcn arg stack) →
      step k t = some k' → (k.proc j).state = .unused → (k'.proc j).state ≠ .unused →
        (k'.proc j).killed = false) ∧
    ∀ j, (k.proc j).state ≠ .unused → (k.proc j).killed = true →
      ∃ ts₁ t ts₂ k₁ k₂, ts = ts₁ ++ t :: ts₂ ∧ run k₀ ts₁ = some k₁ ∧
        (k₁.proc j).pid = (k.proc j).pid ∧ MarkedIn k₁ t k₂ j := by
  obtain ⟨h₀, hk₀⟩ := boot_orderly hb
  constructor
  · intro t io k' j hio hc hs hu hu'
    have h := run_induct (fun _ _ _ h hz hs => (step_marks h hz hs).1) h₀ hm hr
    have hz : NoKillZero k t := by
      intro io' hio' hkill
      obtain rfl : io = io' := Cause.ecall.inj (hio.symm.trans hio')
      rw [hkill] at hc
      rcases hc with hc | ⟨_, _, _, hc⟩ <;> cases hc
    rw [← Bool.not_eq_true]
    intro hd
    exact ((step_marks h hz hs).2 j hu' hd).1 hu
  · intro j hu hd
    refine (run_marks h₀ hm hr hu hd).resolve_left ?_
    rintro ⟨-, -, h⟩
    rw [hk₀ j] at h
    cases h

def killAndReap : List Trap := [ecall 0 1 0 0 0, ecall 0 6 2 0 0, ecall 1 11 0 0 0, ecall 0 3 0 0 0]

theorem starts_unkilled_killAndReap : ∃ k₀ k k', small = some k₀ ∧ run k₀ killAndReap = some k ∧
    step k (ecall 0 1 0 0 0) = some k' ∧ (k'.proc 1).killed = false := by
  have h : reaches killAndReap (fun _ k => (k.proc 1).state = .unused ∧
      (step k (ecall 0 1 0 0 0)).any fun k' => (k'.proc 1).state ≠ .unused) = true := by decide +kernel
  obtain ⟨k₀, k, hb, hr, ht⟩ := reaches_iff.mp h
  simp only [Option.any_eq_true, decide_eq_true_eq] at ht
  obtain ⟨hu, k', hs, hu'⟩ := ht
  have hm : Meets NoKillZero k₀ killAndReap := by
    refine ⟨?_, fun _ _ => ⟨?_, fun _ _ => ⟨?_, fun _ _ => ⟨?_, fun _ _ => trivial⟩⟩⟩⟩
    all_goals
      intro io hio hc
      cases hio
      cases hc
  exact ⟨k₀, k, k', hb, hr, hs, (starts_unkilled hb hm hr).1 _ _ k' 1 rfl (Or.inl rfl) hs hu hu'⟩

/-- `/init` calls `kill(0)` and forks: the child is marked, and nobody has named
it. -/
theorem child_starts_killed : ∃ k₀ k k', small = some k₀ ∧ run k₀ [ecall 0 6 0 0 0] = some k ∧
    step k (ecall 0 1 0 0 0) = some k' ∧ (k.proc 1).state = .unused ∧ (k'.proc 1).state = .runnable ∧
    (k'.proc 1).pid = 2 ∧ (k'.proc 1).killed = true := by
  have h : reaches [ecall 0 6 0 0 0] (fun _ k => (k.proc 1).state = .unused ∧
      (step k (ecall 0 1 0 0 0)).any fun k' => (k'.proc 1).state = .runnable ∧ (k'.proc 1).pid = 2 ∧
        (k'.proc 1).killed = true) = true := by decide +kernel
  obtain ⟨k₀, k, hb, hr, ht⟩ := reaches_iff.mp h
  simp only [Option.any_eq_true, decide_eq_true_eq] at ht
  obtain ⟨hu, k', hs, hst, hp, hk⟩ := ht
  exact ⟨k₀, k, k', hb, hr, hs, hu, hst, hp, hk⟩

end Kernel

end OsLab
