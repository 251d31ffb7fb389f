import OsLab.Cadence

/-!
# Alarms and images

`kexec` replaces the image of a process and leaves its alarm fields as they are. A ghost
record numbers the images. As long as `exec` succeeds only without an armed alarm and
without a backup, a handler is entered by the image that registered it, and a backup
goes back to the image that it was saved from.
-/

namespace OsLab

open Mach

namespace Kernel

variable {k k' k₀ k₁ : Kernel} {i j l : Slot} {t : Trap}

def execs (k : Kernel) (t : Trap) : Bool :=
  match t.cause with
  | .ecall io =>
    match decode t.user io, usertrap t.i t.user t.cause k with
    | .exec _ _, .ok (.ret v, _) => v ≠ -1
    | _, _ => false
  | _ => false

/-- The image that each process runs, the image and the argument of its last
call of `alarm`, and the image and the registers that its alarm last
interrupted. -/
structure Images where
  image : Slot → Nat
  handler : Slot → Option (Nat × Word)
  saved : Slot → Option (Nat × Trapframe)

def Images.zero : Images := ⟨fun _ => 0, fun _ => none, fun _ => none⟩

def Images.watch (g : Images) (k : Kernel) (t : Trap) (k' : Kernel) : Images where
  image := fun j =>
    if (j = t.i ∧ execs k t) ∨ ((k.proc j).state = .unused ∧ (k'.proc j).state ≠ .unused) then g.image j + 1
    else g.image j
  handler := fun j =>
    match event j t with
    | .alarm _ f => some (g.image j, f)
    | _ => g.handler j
  saved := fun j =>
    if (k.proc j).alarmActive = false ∧ (k'.proc j).alarmActive = true then some (g.image j, t.user)
    else g.saved j

def watched (s : Images × Kernel) (t : Trap) : Option (Images × Kernel) :=
  (step s.2 t).map fun k' => (s.1.watch s.2 t k', k')

def Disarmed (s : Images × Kernel) (t : Trap) : Prop :=
  execs s.2 t = true → (s.2.proc t.i).alarmInterval ≤ 0 ∧ (s.2.proc t.i).alarmTrapframe = none

def execInit (i : Slot) : Trap := { ecall i 7 0 0 0 with cause := .ecall ⟨some initImage, [.null []], 0, []⟩ }

/-! ## Slots that are not in use -/

def Control.Off (c : Control) : Prop := c.state = .unused ∨ c.state = .zombie ∨ c.alarms = Control.zero.alarms

theorem Control.Off.of_state {x y : Control} (hx : x.state = .unused ∨ x.state = .zombie)
    (hs : y.state = x.state) : Control.Off y :=
  hx.elim (fun h => Or.inl (hs.trans h)) fun h => Or.inr (Or.inl (hs.trans h))

theorem Change.off {c : Call} {r : Outcome} (h : Change k i k' c r)
    (hl : (k.control l).state = .unused ∨ (k.control l).state = .zombie) : Control.Off (k'.control l) := by
  have same {x : Control} (hx : k'.control l = x) (hs : x.state = (k.control l).state) :=
    Control.Off.of_state hl (hx ▸ hs)
  cases h with
  | same h _ _ => exact same (congrFun h.control l) rfl
  | creates _ h =>
    cases h with
    | full h => exact same (congrFun h.control l) rfl
    | undone _ h _ =>
      rcases update_at (l := l) h with ⟨-, h⟩ | ⟨-, h⟩
      · exact Or.inl (h ▸ rfl)
      · exact same h rfl
    | born _ h _ =>
      rcases update_at (l := l) h with ⟨-, h⟩ | ⟨-, h⟩
      · exact Or.inr (Or.inr (h ▸ rfl))
      · exact same h rfl
  | exits h _ =>
    rcases update_at (l := l) h with ⟨-, h⟩ | ⟨-, h⟩
    · exact Or.inr (Or.inl (h ▸ rfl))
    · exact same h rfl
  | reaps _ h =>
    rcases h with h | ⟨z, -, h, -⟩
    · exact same (congrFun h.control l) rfl
    · rcases update_at (l := l) h with ⟨-, h⟩ | ⟨-, h⟩
      · exact Or.inl (h ▸ rfl)
      · exact same h rfl
  | kills _ h _ =>
    rcases update_at (l := l) h with ⟨rfl, h⟩ | ⟨-, h⟩
    · refine same h (if_neg fun hs => ?_)
      rw [hs] at hl
      rcases hl with hl | hl <;> cases hl
    · exact same h rfl
  | alarm h _ =>
    rcases update_at (l := l) h with ⟨rfl, h⟩ | ⟨-, h⟩
    · exact same h rfl
    · exact same h rfl
  | returns _ h _ =>
    rcases update_at (l := l) h with ⟨rfl, h⟩ | ⟨-, h⟩
    · exact same h rfl
    · exact same h rfl

theorem Trapped.off {r : Outcome} (h : Trapped k t k' r)
    (hl : (k.control l).state = .unused ∨ (k.control l).state = .zombie) : Control.Off (k'.control l) := by
  have same {x : Control} (hx : k'.control l = x) (hs : x.state = (k.control l).state) :=
    Control.Off.of_state hl (hx ▸ hs)
  cases h with
  | call _ _ h he =>
    have h₁ := h.off hl
    cases he with
    | goes hs _ => rw [hs.control]; exact h₁
    | exits _ h _ =>
      rcases update_at (l := l) h with ⟨-, h⟩ | ⟨-, h⟩
      · exact Or.inr (Or.inl (h ▸ rfl))
      · rw [h]; exact h₁
  | dies _ h _ =>
    rcases update_at (l := l) h with ⟨-, h⟩ | ⟨-, h⟩
    · exact Or.inr (Or.inl (h ▸ rfl))
    · exact same h rfl
  | quiet _ h => exact same (congrFun h.control l) rfl
  | ticks _ _ h _ =>
    obtain ⟨x, hx, hs, -, -⟩ := h.sets
    rcases update_at (l := l) hx with ⟨rfl, h⟩ | ⟨-, h⟩
    · exact same h hs
    · exact same h rfl

/-! ## The current image -/

structure Current (g : Images) (k : Kernel) (i : Slot) : Prop where
  armed : 0 < (k.proc i).alarmInterval → g.handler i = some (g.image i, (k.proc i).alarmHandler)
  saved : ∀ b, (k.proc i).alarmTrapframe = some b → g.saved i = some (g.image i, b.regs)

theorem Current.disarmed {g : Images} (hn : (k.proc i).alarmInterval ≤ 0)
    (hb : (k.proc i).alarmTrapframe = none) : Current g k i :=
  ⟨fun h => absurd h (not_lt.mpr hn), fun b h => by rw [hb] at h; cases h⟩

structure Owned (s : Images × Kernel) : Prop where
  wf : s.2.Wf
  current : ∀ i, (s.2.proc i).state ≠ .unused → (s.2.proc i).state ≠ .zombie → Current s.1 s.2 i

theorem Current.step {g : Images} (h : Current g k i) (hu : (k.proc i).state ≠ .unused)
    (hx : ¬(i = t.i ∧ execs k t = true)) (he : Effect k i t.user k' (event i t)) :
    Current (g.watch k t k') k' i := by
  have himage : (g.watch k t k').image i = g.image i :=
    if_neg fun hc => hc.elim hx fun hc => hu hc.1
  -- the registration is what it was
  have armed (hn : ∀ n f, event i t ≠ .alarm n f) (h1 : (k'.proc i).alarmInterval = (k.proc i).alarmInterval)
      (h3 : (k'.proc i).alarmHandler = (k.proc i).alarmHandler) : 0 < (k'.proc i).alarmInterval →
      (g.watch k t k').handler i = some ((g.watch k t k').image i, (k'.proc i).alarmHandler) := by
    have : (g.watch k t k').handler i = g.handler i := by
      unfold Images.watch
      dsimp only
      split
      · exact absurd ‹_› (hn _ _)
      · rfl
    rw [this, himage, h1, h3]
    exact h.armed
  -- the alarm does not go off
  have saved (h4 : (k'.proc i).alarmTrapframe = (k.proc i).alarmTrapframe)
      (h5 : (k'.proc i).alarmActive = true → (k.proc i).alarmActive = true) : ∀ b,
      (k'.proc i).alarmTrapframe = some b →
        (g.watch k t k').saved i = some ((g.watch k t k').image i, b.regs) := by
    have : (g.watch k t k').saved i = g.saved i := by
      refine if_neg fun hc => ?_
      have := h5 hc.2
      rw [hc.1] at this
      cases this
    rw [this, himage, h4]
    exact h.saved
  have none_saved (h4 : (k'.proc i).alarmTrapframe = none) : ∀ b, (k'.proc i).alarmTrapframe = some b →
      (g.watch k t k').saved i = some ((g.watch k t k').image i, b.regs) := by
    rw [h4]
    exact nofun
  cases hev : event i t with
  | none =>
    rw [hev] at he
    obtain ⟨h1, -, h3, h4, h5⟩ := alarms_eq he
    exact ⟨armed (by rw [hev]; exact nofun) h1 h3, saved h4 h5.symm.trans⟩
  | alarm n f =>
    rw [hev] at he
    obtain ⟨h1, -, h3, h4, h5⟩ := alarms_eq he
    refine ⟨fun _ => ?_, saved h4 (by rw [h5]; exact nofun)⟩
    rw [himage, h3]
    unfold Images.watch
    dsimp only
    rw [hev]
    rfl
  | ret =>
    rw [hev] at he
    obtain ⟨h1, -, h3, h4, -⟩ := alarms_eq he.2
    exact ⟨armed (by rw [hev]; exact nofun) h1 h3, none_saved h4⟩
  | tick =>
    rw [hev] at he
    have armed := armed (by rw [hev]; exact nofun)
    have at_i {x : Control} (hx : k'.control = Function.update k.control i x) :=
      alarms_eq (show (k'.control i).alarms = x.alarms by rw [hx, Function.update_self])
    cases he with
    | idle _ hc _ =>
      obtain ⟨h1, -, h3, h4, h5⟩ := at_i (hc.trans (Function.update_eq_self ..).symm)
      exact ⟨armed h1 h3, saved h4 h5.symm.trans⟩
    | counts _ _ _ hc _ =>
      obtain ⟨h1, -, h3, h4, h5⟩ := at_i hc
      exact ⟨armed h1 h3, saved h4 h5.symm.trans⟩
    | starved _ _ _ _ hc _ =>
      obtain ⟨h1, -, h3, h4, -⟩ := at_i hc
      exact ⟨armed h1 h3, none_saved h4⟩
    | fires pa _ ha _ hc _ =>
      obtain ⟨h1, -, h3, h4, h5⟩ := at_i hc
      refine ⟨armed h1 h3, fun b hb => ?_⟩
      rw [h4] at hb
      cases hb
      rw [himage]
      exact if_pos ⟨ha, h5⟩

theorem Effect.fires {user : Trapframe} {e : AlarmEvent} (h : Effect k i user k' e)
    (ha : (k.proc i).alarmActive = false) (ha' : (k'.proc i).alarmActive = true) :
    0 < (k.proc i).alarmInterval ∧ k'.regs i = some { user with epc := (k.proc i).alarmHandler } := by
  have same {x : Control} (hx : (k'.control i).alarms = x.alarms) (hi : x.alarmActive = false) : False := by
    obtain ⟨-, -, -, -, h5⟩ := alarms_eq hx
    rw [h5, hi] at ha'
    cases ha'
  have at_i {x : Control} (hx : k'.control = Function.update k.control i x) (hi : x.alarmActive = false) : False :=
    same (x := x) (by rw [hx, Function.update_self]) hi
  cases e with
  | none => exact (same h ha).elim
  | alarm n f => exact (same h rfl).elim
  | ret => exact (same h.2 rfl).elim
  | tick =>
    cases h with
    | idle _ hc _ => exact (at_i (hc.trans (Function.update_eq_self ..).symm) ha).elim
    | counts _ _ _ hc _ => exact (at_i hc ha).elim
    | starved _ _ _ _ hc _ => exact (at_i hc ha).elim
    | fires _ hi _ _ _ hr => exact ⟨hi, hr⟩

theorem execs_event (h : execs k t = true) : event t.i t = .none := by
  unfold execs at h
  unfold event
  rw [if_pos rfl]
  cases hc : t.cause with
  | ecall io =>
    rw [hc] at h
    dsimp only at h ⊢
    cases hd : decode t.user io with
    | exec img argv => rfl
    | _ => rw [hd] at h; cases h
  | timer => rw [hc] at h; cases h
  | _ => rfl

theorem Owned.step {s s' : Images × Kernel} (h : Owned s) (hd : Disarmed s t) (hs : watched s t = some s') :
    Owned s' := by
  obtain ⟨k', hk, rfl⟩ := Option.map_eq_some_iff.mp hs
  obtain ⟨r, -, ht⟩ := step_control h.wf hk
  refine ⟨step_wf h.wf hk, fun i hu' hz' => ?_⟩
  by_cases hoff : (s.2.control i).state = .unused ∨ (s.2.control i).state = .zombie
  · -- a new process has no alarm
    have h0 := ((ht.off hoff).resolve_left hu').resolve_left hz'
    obtain ⟨h1, -, -, h4, -⟩ := alarms_eq h0
    exact .disarmed (le_of_eq h1) h4
  · obtain ⟨hu, hz⟩ := not_or.mp hoff
    have he := (ht.alarms hu hz).2.resolve_left fun h => hz' h.2
    by_cases hx : i = t.i ∧ execs s.2 t = true
    · -- the new image has no alarm
      obtain ⟨rfl, hx⟩ := hx
      rw [execs_event hx] at he
      obtain ⟨h1, -, -, h4, -⟩ := alarms_eq he
      obtain ⟨hn, hb⟩ := hd hx
      exact .disarmed (h1.trans_le hn) (h4.trans hb)
    · exact (h.current i hu hz).step hu hx he

theorem boot_owned {pages : List Page} {img : Option Image} {argv : List Nat} (hb : boot pages img argv = some k) :
    Owned (Images.zero, k) := by
  obtain ⟨-, i, hc⟩ := boot_control hb
  refine ⟨boot_spec wf_blind.stable (zero_wf pages) hb, fun j _ _ => ?_⟩
  have : (k.control j).alarms = Control.zero.alarms := by
    rcases update_at (k := zero pages) (l := j) hc with ⟨-, h⟩ | ⟨-, h⟩ <;> rw [h] <;> rfl
  obtain ⟨h1, -, -, h4, -⟩ := alarms_eq this
  exact .disarmed (le_of_eq h1) h4

/-- As long as `exec` succeeds only for a process without an armed alarm and
without a backup, an alarm that goes off enters a handler that the current image
has registered, and `alarm_return` restores registers that were saved from the
current image. The trap is one that the process survives. -/
theorem alarm_of_image {pages : List Page} {img : Option Image} {argv : List Nat} {g : Images}
    (hb : boot pages img argv = some k₀) (hr : Runs watched Disarmed (Images.zero, k₀) (g, k))
    (hs : step k t = some k') (hz' : (k'.proc t.i).state ≠ .zombie) :
    ((k.proc t.i).alarmActive = false → (k'.proc t.i).alarmActive = true →
      k'.regs t.i = some { t.user with epc := (k.proc t.i).alarmHandler } ∧
      g.handler t.i = some (g.image t.i, (k.proc t.i).alarmHandler)) ∧
    (event t.i t = .ret → ∃ b, (k.proc t.i).alarmTrapframe = some b ∧
      g.saved t.i = some (g.image t.i, b.regs)) := by
  have h : Owned (g, k) := hr.invariant (boot_owned hb) fun _ _ _ => Owned.step
  obtain ⟨hu, hz⟩ := step_alive hs
  have hc := h.current t.i hu hz
  obtain ⟨r, -, ht⟩ := step_control h.wf hs
  have he := (ht.alarms hu hz).2.resolve_left fun h => hz' h.2
  constructor
  · intro ha ha'
    obtain ⟨hn, hr⟩ := he.fires ha ha'
    exact ⟨hr, hc.armed hn⟩
  · intro hev
    rw [hev] at he
    obtain ⟨⟨b, hb⟩, -⟩ := he
    exact ⟨b, hb, hc.saved b hb⟩

theorem disarmed_of_not {s : Images × Kernel} (h : execs s.2 t = false) : Disarmed s t := by
  intro hx
  rw [h] at hx
  cases hx

theorem alarm_of_image_rearm : ∃ k₀ g k k', small = some k₀ ∧
    Runs watched Disarmed (Images.zero, k₀) (g, k) ∧ step k (timer 0 0) = some k' ∧
    k'.regs 0 = some { (timer 0 0).user with epc := 9 } ∧ g.handler 0 = some (g.image 0, 9) := by
  have h : reaches [] (fun _ k₀ =>
      (steps watched (Images.zero, k₀) [ecall 0 26 1 5 0, ecall 0 26 0 0 0]).any fun s₁ =>
      ((s₁.2.proc 0).alarmInterval ≤ 0 ∧ (s₁.2.proc 0).alarmTrapframe.isNone) ∧
      (watched s₁ (execInit 0)).any fun s₂ => (watched s₂ (ecall 0 26 1 9 0)).any fun s₃ =>
      (step s₃.2 (timer 0 0)).any fun k' => (s₃.2.proc 0).alarmActive = false ∧
        (s₃.2.proc 0).alarmHandler = 9 ∧ (k'.proc 0).alarmActive = true ∧
        (k'.proc 0).state ≠ .zombie) = true := by
    decide +kernel
  obtain ⟨k₀, k₁, hb, hr, ht⟩ := reaches_iff.mp h
  cases hr
  simp only [Option.any_eq_true, decide_eq_true_eq] at ht
  obtain ⟨s₁, h₁, ⟨hn, hf⟩, s₂, h₂, ⟨g, k⟩, h₃, k', hs, ha, hh, ha', hz⟩ := ht
  have hr₁ : Runs watched Disarmed (Images.zero, k₀) s₁ := by
    refine Runs.start.of_steps (fun s a ha => ?_) h₁
    rcases List.mem_pair.mp ha with rfl | rfl <;> exact disarmed_of_not rfl
  have hr₂ := hr₁.next (a := execInit 0) (fun _ => ⟨hn, Option.isNone_iff_eq_none.mp hf⟩) h₂
  have hr₃ := hr₂.next (disarmed_of_not rfl) h₃
  obtain ⟨hregs, hg⟩ := (alarm_of_image hb hr₃ hs hz).1 ha ha'
  have hh : (k.proc 0).alarmHandler = 9 := hh
  refine ⟨k₀, g, k, k', hb, hr₃, hs, ?_, ?_⟩
  · rw [← hh]; exact hregs
  · rw [← hh]; exact hg

def execArmed : List Trap := [ecall 0 26 1 5 0, execInit 0]

def execInHandler : List Trap := [ecall 0 26 1 5 0, ⟨0, ⟨12, fun _ => 0⟩, .timer⟩, execInit 0]

theorem alarm_outlives_image : (∃ k₀ g k k', small = some k₀ ∧
      steps watched (Images.zero, k₀) execArmed = some (g, k) ∧ step k (timer 0 0) = some k' ∧
      (k.proc 0).alarmActive = false ∧ (k'.proc 0).alarmActive = true ∧
      (k'.regs 0).map Trapframe.epc = some 5 ∧ g.image 0 = 1 ∧ g.handler 0 = some (0, 5)) ∧
    ∃ k₀ g k k', small = some k₀ ∧ steps watched (Images.zero, k₀) execInHandler = some (g, k) ∧
      step k (ecall 0 28 0 0 0) = some k' ∧ (k'.regs 0).map Trapframe.epc = some 12 ∧ g.image 0 = 1 ∧
      (g.saved 0).map Prod.fst = some 0 := by
  have h₁ : reaches [] (fun _ k₀ => (steps watched (Images.zero, k₀) execArmed).any fun s =>
      (step s.2 (timer 0 0)).any fun k' => (s.2.proc 0).alarmActive = false ∧ (k'.proc 0).alarmActive = true ∧
        (k'.regs 0).map Trapframe.epc = some 5 ∧ s.1.image 0 = 1 ∧ s.1.handler 0 = some (0, 5)) = true := by
    decide +kernel
  have h₂ : reaches [] (fun _ k₀ => (steps watched (Images.zero, k₀) execInHandler).any fun s =>
      (step s.2 (ecall 0 28 0 0 0)).any fun k' => (k'.regs 0).map Trapframe.epc = some 12 ∧
        s.1.image 0 = 1 ∧ (s.1.saved 0).map Prod.fst = some 0) = true := by
    decide +kernel
  obtain ⟨k₀, k₁, hb, hr, ht⟩ := reaches_iff.mp h₁
  obtain ⟨k₀', k₁', hb', hr', ht'⟩ := reaches_iff.mp h₂
  cases hr
  cases hr'
  simp only [Option.any_eq_true, decide_eq_true_eq] at ht ht'
  obtain ⟨⟨g, k⟩, hk, k', hs, h⟩ := ht
  obtain ⟨⟨g', l⟩, hl, l', hs', h'⟩ := ht'
  exact ⟨⟨k₀, g, k, k', hb, hk, hs, h⟩, k₀', g', l, l', hb', hl, hs', h'⟩

end Kernel

end OsLab
