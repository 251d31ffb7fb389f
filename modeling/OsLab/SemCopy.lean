import OsLab.CopyFrame
import OsLab.Proc

/-!
# The bytes of a semaphore

`sys_sem_wait` and `sys_sem_post` on the bytes of user memory: `copyin` reads the
four bytes of the semaphore and `copyout` writes them back, page by page. When the
bytes lie in two pages and only the first of them is writable, a call that fails
has changed the semaphore.
-/

namespace OsLab

open Mach

namespace UserMem

/-! ## `copyin` -/

def copyinPage (pt : PageTable) (sz v : Nat) : Um (Option Page × PageTable) := do
  match ← onPages (walkaddr pt v) with
  | some pa => pure (some pa, pt)
  | none => vmfault pt sz (v * pgSize)

/-- The loop of `copyin`: `len` bytes are still to be copied, from offset `o` of page `v`; `n`
pages are left. -/
def copyinLoop (sz : Nat) (pt : PageTable) (v o len : Nat) :
    Nat → Um (Option (List Byte) × PageTable)
  | 0 => pure (some [], pt)
  | n + 1 => do
    let (pa, pt) ← copyinPage pt sz v
    match pa with
    | none => pure (none, pt)
    | some pa => do
      let m ← Mach.get
      let (rest, pt) ← copyinLoop sz pt (v + 1) 0 (len - (pgSize - o)) n
      pure (rest.map (bytes (fun i => m.ram pa (o + i)) (min (pgSize - o) len) ++ ·), pt)

def copyin (pt : PageTable) (sz srcva len : Nat) : Um (Option (List Byte) × PageTable) :=
  if len = 0 then pure (some [], pt)
  else copyinLoop sz pt (srcva / pgSize) (srcva % pgSize) len (pages srcva len)

/-! ## The pages that a copy makes present -/

def Faults (pt pt' : PageTable) : Prop :=
  ∀ u, pt'.leaf u = pt.leaf u ∨
    pt.leaf u = none ∧ ∃ e, pt'.leaf u = some e ∧ e.u = true ∧ e.w = true

section
variable {pt pt' pt'' : PageTable} {m : Mem} {free : List Page} {sz v : Nat} {pa : Page}

theorem Faults.refl (pt : PageTable) : Faults pt pt := fun _ => .inl rfl

theorem Faults.trans (h : Faults pt pt') (h' : Faults pt' pt'') : Faults pt pt'' := by
  intro u
  obtain heq | ⟨hno, hnew⟩ := h' u
  · rw [heq]
    exact h u
  · obtain heq | ⟨-, e, he, -⟩ := h u
    · exact .inr ⟨heq ▸ hno, hnew⟩
    · rw [hno] at he
      cases he

theorem Faults.userPage (h : Faults pt pt') (hv : UserMem.userPage pt v = some pa) :
    UserMem.userPage pt' v = some pa := by
  unfold UserMem.userPage at *
  split at hv
  · rename_i hlt
    rw [if_pos hlt]
    obtain heq | ⟨hno, -⟩ := h v
    · rw [heq]
      exact hv
    · rw [hno] at hv
      cases hv
  · cases hv

theorem vmfault_leaf (va : Nat) :
    Ensures (OsLab.vmfault pt sz va) free fun r _ => r.1 = none ∧ r.2.leaf = pt.leaf ∨
      (va < sz ∧ va / pgSize < maxVa ∧ pt.leaf (va / pgSize) = none) ∧ ∃ mem, r.1 = some mem ∧
        r.2.leaf = Function.update pt.leaf (va / pgSize) (some ⟨mem, true, true, false, true, false⟩) := by
  refine Ensures.ite (fun _ => Ensures.pure (.inl ⟨rfl, rfl⟩)) fun hsz => ?_
  refine Ensures.bind ((present_spec pt _ free).mono ?_)
  rintro r _ ⟨rfl, rfl, hv⟩
  cases hl : pt.leaf (va / pgSize) with
  | some _ => exact Ensures.pure (.inl ⟨rfl, rfl⟩)
  | none =>
    refine Ensures.bind fun r free₁ _ => ?_
    cases r with
    | none => exact Ensures.pure (.inl ⟨rfl, rfl⟩)
    | some mem =>
      refine Ensures.bind ((mappages_spec pt _ free₁ _).mono ?_)
      rintro ⟨ok, pt₂⟩ free₂ ⟨-, -, hok, hno⟩
      refine Ensures.ite (fun h => Ensures.pure ?_) fun h => ?_
      · exact .inr ⟨⟨by omega, hv, rfl⟩, mem, rfl, (hok h).2⟩
      · exact Ensures.bind fun _ _ _ => Ensures.pure (.inl ⟨rfl, hno (by simpa using h)⟩)

theorem vmfault_faults (va : Nat) :
    Ensures (OsLab.vmfault pt sz va) free fun r _ =>
      Faults pt r.2 ∧ ∀ pa, r.1 = some pa → userPage r.2 (va / pgSize) = some pa := by
  refine (vmfault_leaf va).mono fun r free' h => ?_
  obtain ⟨hno, hleaf⟩ | ⟨⟨-, hv, hl⟩, mem, hmem, hleaf⟩ := h
  · exact ⟨fun u => .inl (congrFun hleaf u), fun pa hpa => by rw [hno] at hpa; cases hpa⟩
  · refine ⟨fun u => ?_, fun pa hpa => ?_⟩
    · rw [hleaf]
      by_cases hu : u = va / pgSize
      · subst hu
        rw [Function.update_self]
        exact .inr ⟨hl, _, rfl, rfl, rfl⟩
      · exact .inl (Function.update_of_ne hu ..)
    · rw [hmem] at hpa
      cases hpa
      unfold userPage
      rw [if_pos hv, hleaf, Function.update_self]
      rfl

theorem copyinPage_faults (v : Nat) :
    Ensures (copyinPage pt sz v) m fun r m' => Faults pt r.2 ∧
      (∀ pa, r.1 = some pa → userPage r.2 v = some pa) ∧
      ∀ pa, userPage pt v = some pa → r = (some pa, pt) ∧ m' = m := by
  refine Ensures.congr (bind_ok (onPages_eq (walkaddr_eq pt v m.free))) ?_
  cases hu : userPage pt v with
  | some pa =>
    refine Ensures.pure ⟨Faults.refl pt, fun pa' h => ?_, fun pa' h => ?_⟩
    · cases h; exact hu
    · cases h; exact ⟨rfl, rfl⟩
  | none =>
    have hv : v * pgSize / pgSize = v := Nat.mul_div_cancel v (by decide)
    refine Ensures.bind ((onPages_spec (vmfault_faults (v * pgSize))).mono ?_)
    rintro ⟨pa, pt'⟩ m' ⟨⟨hf, hpa⟩, -⟩
    rw [hv] at hpa
    cases pa with
    | none => exact Ensures.pure ⟨hf, nofun, nofun⟩
    | some pa => exact Ensures.bind (Ensures.modify (Ensures.pure ⟨hf, hpa, nofun⟩))

theorem copyinLoop_faults {o len n : Nat} :
    Ensures (copyinLoop sz pt v o len n) m fun r _ => Faults pt r.2 ∧
      (r.1 ≠ none → ∀ j < n, ∃ pa, userPage r.2 (v + j) = some pa) := by
  induction n generalizing pt m v o len with
  | zero => exact Ensures.pure ⟨Faults.refl pt, fun _ j hj => absurd hj (Nat.not_lt_zero j)⟩
  | succ n ih =>
    refine Ensures.bind ((copyinPage_faults v).mono ?_)
    rintro ⟨pa, pt₁⟩ m₁ ⟨h₁, hpa, -⟩
    cases pa with
    | none => exact Ensures.pure ⟨h₁, fun h => absurd rfl h⟩
    | some pa =>
      refine Ensures.bind (Ensures.get (Ensures.bind (ih.mono ?_)))
      rintro ⟨rest, pt₂⟩ m₂ ⟨h₂, hrest⟩
      refine Ensures.pure ⟨h₁.trans h₂, fun h j hj => ?_⟩
      cases j with
      | zero => exact ⟨pa, h₂.userPage (hpa pa rfl)⟩
      | succ j =>
        have hsome : rest ≠ none := fun hno => h (by rw [hno]; rfl)
        obtain ⟨pa', hpa'⟩ := hrest hsome j (Nat.lt_of_succ_lt_succ hj)
        exact ⟨pa', by rw [← hpa', Nat.add_right_comm, Nat.add_assoc]⟩

/-- The first byte that `copyin` returns is still there afterwards, if the second page was there
all along. -/
theorem copyin_first {va : Nat} {pa₂ : Page} (hcross : pgSize < va % pgSize + 4)
    (h₂ : userPage pt (va / pgSize + 1) = some pa₂) :
    Ensures (copyin pt sz va 4) m fun r m' => ∀ bs, r.1 = some bs →
      ∃ pa rest, userPage r.2 (va / pgSize) = some pa ∧ bs = m'.ram pa (va % pgSize) :: rest := by
  have hlt : va % pgSize < pgSize := Nat.mod_lt _ (by decide)
  unfold copyin
  rw [if_neg (by decide), pages_two (by decide) (by omega)]
  refine Ensures.bind ((copyinPage_faults _).mono ?_)
  rintro ⟨pa, pt₁⟩ m₁ ⟨h₁, hpa, -⟩
  cases pa with
  | none => exact Ensures.pure nofun
  | some pa =>
    refine Ensures.bind (Ensures.get (Ensures.bind (Ensures.bind ((copyinPage_faults _).mono ?_))))
    rintro r m₂ ⟨-, -, hsame⟩
    obtain ⟨rfl, rfl⟩ := hsame pa₂ (h₁.userPage h₂)
    refine Ensures.bind (Ensures.get (Ensures.bind (Ensures.pure (Ensures.pure (Ensures.pure ?_)))))
    intro bs hbs
    cases hbs
    obtain ⟨k, hk⟩ : ∃ k, min (pgSize - va % pgSize) 4 = k + 1 :=
      Nat.exists_eq_succ_of_ne_zero (by omega)
    have hhead (s : Nat → Byte) : bytes s (k + 1) = s 0 :: bytes (s ∘ Nat.succ) k := by
      simp [bytes, List.range_succ_eq_map]
    rw [hk, hhead]
    exact ⟨pa, _, hpa pa rfl, rfl⟩

/-! ## Writing to pages that are there -/

def canWrite (pt : PageTable) (v : Nat) : Bool := (pt.leaf v).any Pte.w

theorem copyoutPage_present (hv : userPage pt v = some pa) :
    copyoutPage pt sz v m = .ok ((if canWrite pt v then some pa else none, pt), m) := by
  have hlt : v < maxVa := by
    by_contra hno
    rw [userPage, if_neg hno] at hv
    cases hv
  unfold copyoutPage
  rw [if_neg (by omega)]
  refine (bind_ok (onPages_eq (walkaddr_eq pt v m.free))).trans ?_
  rw [hv]
  refine (bind_ok (onPages_eq (present_eq hlt))).trans ?_
  rw [userPage, if_pos hlt] at hv
  unfold canWrite
  cases hl : pt.leaf v with
  | none => rw [hl] at hv; cases hv
  | some e => rfl

section
variable {va : Nat} {src : List Byte} (hlen : src.length = 4)
  (hp : userPage pt (va / pgSize) = some pa)
include hlen hp

theorem copyout_refused (hw : canWrite pt (va / pgSize) = false) :
    copyout pt sz va src m = .ok ((false, pt), m) := by
  have hn : pages va src.length ≠ 0 := by rw [hlen]; unfold pages pgSize; omega
  obtain ⟨n, hn⟩ := Nat.exists_eq_succ_of_ne_zero hn
  unfold copyout
  rw [if_neg (by omega), hn]
  refine (bind_ok (copyoutPage_present hp)).trans ?_
  rw [hw]
  rfl

theorem copyout_torn {pa₂ : Page} (hcross : pgSize < va % pgSize + 4)
    (hp₂ : userPage pt (va / pgSize + 1) = some pa₂) (hw : canWrite pt (va / pgSize) = true)
    (hw₂ : canWrite pt (va / pgSize + 1) = false) : copyout pt sz va src m = .ok ((false, pt),
      { m with ram := poke pa (va % pgSize) (src.take (pgSize - va % pgSize)) m.ram }) := by
  unfold copyout
  rw [if_neg (by omega), pages_two (by rw [hlen]; decide) (by omega)]
  refine (bind_ok (copyoutPage_present hp)).trans ?_
  rw [hw]
  refine (bind_ok rfl).trans ((bind_ok (copyoutPage_present hp₂)).trans ?_)
  rw [hw₂]
  rfl

theorem copyout_written (hw : canWrite pt (va / pgSize) = true)
    (h₂ : pgSize < va % pgSize + 4 → (∃ pa₂, userPage pt (va / pgSize + 1) = some pa₂) ∧
      canWrite pt (va / pgSize + 1) = true) :
    ∃ m', copyout pt sz va src m = .ok ((true, pt), m') := by
  have writable {a : Nat} {p : Page} (ha : userPage pt (a / pgSize) = some p)
      (hwa : canWrite pt (a / pgSize) = true) : Writable pt a := by
    unfold userPage at ha
    split at ha
    · rename_i hlt
      obtain ⟨e, hl, he⟩ := Option.bind_eq_some_iff.mp ha
      refine ⟨hlt, e, hl, ?_, ?_⟩
      · by_contra hu
        rw [if_neg hu] at he
        cases he
      · simpa [canWrite, hl] using hwa
    · cases ha
  have hall : ∀ i < src.length, Writable pt (va + i) := by
    intro i hi
    by_cases hsame : (va + i) / pgSize = va / pgSize
    · exact writable (hsame ▸ hp) (hsame ▸ hw)
    · have hnext : (va + i) / pgSize = va / pgSize + 1 := by unfold pgSize at *; omega
      obtain ⟨⟨pa₂, hp₂⟩, hw₂⟩ := h₂ (by unfold pgSize at *; omega)
      exact writable (hnext ▸ hp₂) (hnext ▸ hw₂)
  obtain ⟨ram, h, -⟩ := copyout_writes hall (by rw [hlen]; decide) sz m
  exact ⟨_, h⟩

end

/-! ## What the user sees -/

/-- The byte that the user reads at address `va`: 0 in a page that is not present yet. -/
def view (pt : PageTable) (sz : Nat) (ram : Page → Nat → Byte) (va : Nat) : Option Byte :=
  if pt.leaf (va / pgSize) = none ∧ va / pgSize * pgSize < sz then some 0 else peek pt ram va

theorem userPage_congr (h : pt'.leaf v = pt.leaf v) : userPage pt' v = userPage pt v := by
  unfold userPage
  rw [h]

theorem view_clear {mem : Page} (hF : Fresh pt free) (hmem : mem ∈ free) (hv : v < maxVa)
    (hsz : v * pgSize < sz) (hl : pt.leaf v = none) (ram : Page → Nat → Byte)
    (hleaf : pt'.leaf = Function.update pt.leaf v (some ⟨mem, true, true, false, true, false⟩)) :
    view pt' sz (clear mem ram) = view pt sz ram := by
  funext va
  unfold view peek
  by_cases hpage : va / pgSize = v
  · have hnew : userPage pt' v = some mem := by
      unfold userPage
      rw [if_pos hv, hleaf, Function.update_self]
      rfl
    have hmapped : pt'.leaf v ≠ none := by rw [hleaf, Function.update_self]; exact nofun
    rw [hpage, if_neg fun h => hmapped h.1, if_pos ⟨hl, hsz⟩, hnew]
    simp [clear]
  · have hsame : pt'.leaf (va / pgSize) = pt.leaf (va / pgSize) := by
      rw [hleaf, Function.update_of_ne hpage]
    rw [hsame, userPage_congr hsame]
    split
    · rfl
    · cases hu : userPage pt (va / pgSize) with
      | none => rfl
      | some pa =>
        have hne : pa ≠ mem := fun h => hF.userPage hu (h ▸ hmem)
        simp [clear, hne]

theorem copyinPage_view (hF : Fresh pt m.free) (v : Nat) :
    Ensures (copyinPage pt sz v) m fun r m' =>
      Fresh r.2 m'.free ∧ view r.2 sz m'.ram = view pt sz m.ram := by
  refine Ensures.congr (bind_ok (onPages_eq (walkaddr_eq pt v m.free))) ?_
  cases hu : userPage pt v with
  | some pa => exact Ensures.pure ⟨hF, rfl⟩
  | none =>
    have hv : v * pgSize / pgSize = v := Nat.mul_div_cancel v (by decide)
    refine Ensures.bind ((onPages_spec ((vmfault_grows hF _).and (vmfault_leaf _))).mono ?_)
    rintro ⟨pa, pt'⟩ m' ⟨⟨⟨hg, hpa⟩, hcases⟩, hram⟩
    rw [hv] at hcases
    obtain ⟨hno, hleaf⟩ | ⟨⟨hsz, hlt, hl⟩, mem, hmem, hleaf⟩ := hcases
    · obtain rfl : pa = none := hno
      refine Ensures.pure ⟨hg.fresh, ?_⟩
      unfold view peek userPage
      dsimp only at hleaf ⊢
      rw [hleaf, hram]
    · obtain rfl : pa = some mem := hmem
      refine Ensures.bind (Ensures.modify (Ensures.pure ⟨hg.fresh, ?_⟩))
      dsimp only
      rw [hram]
      exact view_clear hF (hpa mem rfl).1 hlt hsz hl m.ram hleaf

theorem copyinLoop_view {o len n : Nat} (hF : Fresh pt m.free) :
    Ensures (copyinLoop sz pt v o len n) m fun r m' => view r.2 sz m'.ram = view pt sz m.ram := by
  induction n generalizing pt m v o len with
  | zero => exact Ensures.pure rfl
  | succ n ih =>
    refine Ensures.bind ((copyinPage_view hF v).mono ?_)
    rintro ⟨pa, pt₁⟩ m₁ ⟨hF₁, h₁⟩
    cases pa with
    | none => exact Ensures.pure h₁
    | some pa =>
      refine Ensures.bind (Ensures.get (Ensures.bind ((ih hF₁).mono fun r m₂ h₂ => ?_)))
      exact Ensures.pure (h₂.trans h₁)

theorem copyin_view (hF : Fresh pt m.free) (va len : Nat) :
    Ensures (copyin pt sz va len) m fun r m' => view r.2 sz m'.ram = view pt sz m.ram :=
  Ensures.ite (fun _ => Ensures.pure rfl) fun _ => copyinLoop_view hF

def Refuses (pt : PageTable) (v : Nat) : Prop := ∃ e, pt.leaf v = some e ∧ e.w = false

theorem Faults.canWrite (h : Faults pt pt') (hv : UserMem.userPage pt' v = some pa) :
    canWrite pt' v = true ↔ ¬ Refuses pt v := by
  unfold UserMem.canWrite Refuses
  obtain heq | ⟨hno, e, he, -, hw⟩ := h v
  · rw [heq]
    cases hl : pt.leaf v with
    | none =>
      unfold UserMem.userPage at hv
      rw [heq, hl] at hv
      split at hv <;> cases hv
    | some e => simp
  · rw [he, hno]
    simpa using hw

end

end UserMem

open UserMem

/-! ## The calls -/

structure SemCaller where
  pagetable : PageTable
  sz : Nat
  mem : Mem
  killed : Bool
  state : Slot → ProcState
  chan : Slot → Option Nat

abbrev Sc := Mach Panic SemCaller

namespace SemCaller

def copy {α : Type} (x : PageTable → Nat → Um (α × PageTable)) : Sc α := fun s =>
  match x s.pagetable s.sz s.mem with
  | .error e => .error e
  | .ok ((a, pt), m) => .ok (a, { s with pagetable := pt, mem := m })

def readInt (addr : Nat) : Sc (Option (BitVec 32)) := do
  let bs ← copy fun pt sz => copyin pt sz addr 4
  pure (bs.map wordOf)

def writeInt (addr : Nat) (v : BitVec 32) : Sc Bool :=
  copy fun pt sz => UserMem.copyout pt sz addr (wordBytes v)

def wakeup (i : Slot) (c : Nat) : Sc Unit := Mach.modify fun s =>
  { s with state := fun j =>
      if j ≠ i ∧ s.state j = .sleeping ∧ s.chan j = some c then .runnable else s.state j }

def semWait (addr : Nat) : Sc (Option Int) := do
  match ← readInt addr with
  | none => pure (some (-1))
  | some semval =>
    if 0 < semval.toInt then do
      if ← writeInt addr (semval - 1) then pure (some 0) else pure (some (-1))
    else do
      let s ← Mach.get
      if s.killed then pure (some (-1)) else pure none

def semPost (i : Slot) (addr : Nat) : Sc Int := do
  match ← readInt addr with
  | none => pure (-1)
  | some semval =>
    if ← writeInt addr (semval + 1) then do
      wakeup i addr
      pure 0
    else pure (-1)

/-! ## The two pages -/

def user (s : SemCaller) (va : Nat) : Option Byte := peek s.pagetable s.mem.ram va

/-- The semaphore starts in a page that can be written to and ends in one that cannot. A page
that is not present will be writable. -/
def Torn (s : SemCaller) (addr : Nat) : Prop :=
  pgSize < addr % pgSize + 4 ∧ ¬ Refuses s.pagetable (addr / pgSize) ∧
    Refuses s.pagetable (addr / pgSize + 1)

section
variable {s s₁ : SemCaller} {addr : Nat} {v₀ v : BitVec 32}

theorem copy_ok {α : Type} {x : PageTable → Nat → Um (α × PageTable)} {a : α}
    (h : copy x s = .ok (a, s₁)) :
    ∃ pt m, x s.pagetable s.sz s.mem = .ok ((a, pt), m) ∧
      s₁ = { s with pagetable := pt, mem := m } := by
  unfold copy at h
  split at h
  · cases h
  · rename_i heq
    cases h
    exact ⟨_, _, heq, rfl⟩

theorem readInt_ok {r : Option (BitVec 32)} (h : readInt addr s = .ok (r, s₁)) :
    ∃ bs pt m, copyin s.pagetable s.sz addr 4 s.mem = .ok ((bs, pt), m) ∧ r = bs.map wordOf ∧
      s₁ = { s with pagetable := pt, mem := m } := by
  unfold readInt at h
  cases hc : copy (fun pt sz => copyin pt sz addr 4) s with
  | error e => rw [bind_error hc] at h; cases h
  | ok r =>
    rw [bind_ok hc] at h
    cases h
    obtain ⟨pt, m, hcopy, heq⟩ := copy_ok hc
    exact ⟨_, pt, m, hcopy, rfl, heq⟩

theorem readInt_pages (h : readInt addr s = .ok (some v₀, s₁)) :
    Faults s.pagetable s₁.pagetable ∧ (∃ pa, userPage s₁.pagetable (addr / pgSize) = some pa) ∧
      (pgSize < addr % pgSize + 4 → ∃ pa, userPage s₁.pagetable (addr / pgSize + 1) = some pa) := by
  obtain ⟨bs, pt, m, hcopy, hbs, rfl⟩ := readInt_ok h
  have hsome : bs ≠ none := by
    intro hno
    rw [hno] at hbs
    cases hbs
  unfold copyin at hcopy
  rw [if_neg (by decide)] at hcopy
  obtain ⟨hf, hpages⟩ := copyinLoop_faults _ _ hcopy
  replace hpages := hpages hsome
  refine ⟨hf, ?_, fun hcross => ?_⟩
  · exact hpages 0 (by unfold pages pgSize; omega)
  · exact hpages 1 (by rw [pages_two (by decide) (by omega)]; decide)

theorem writeInt_eq {ok : Bool} {m : Mem} (h : UserMem.copyout s.pagetable s.sz addr (wordBytes v)
    s.mem = .ok ((ok, s.pagetable), m)) : writeInt addr v s = .ok (ok, { s with mem := m }) := by
  unfold writeInt copy
  dsimp only
  rw [h]

/-- Writing back what was read, unless the semaphore is torn: all of it is written, or nothing. -/
theorem writeInt_whole (h : readInt addr s = .ok (some v₀, s₁)) (hno : ¬ Torn s addr)
    (v : BitVec 32) : writeInt addr v s₁ = .ok (false, s₁) ∨
      ∃ m, writeInt addr v s₁ = .ok (true, { s₁ with mem := m }) := by
  obtain ⟨hf, ⟨pa, hpa⟩, h₂⟩ := readInt_pages h
  cases hw : canWrite s₁.pagetable (addr / pgSize) with
  | false => exact .inl (writeInt_eq (copyout_refused (length_wordBytes v) hpa hw))
  | true =>
    have hok : ∃ m, UserMem.copyout s₁.pagetable s₁.sz addr (wordBytes v) s₁.mem =
        .ok ((true, s₁.pagetable), m) := by
      refine copyout_written (length_wordBytes v) hpa hw fun hcross => ⟨h₂ hcross, ?_⟩
      obtain ⟨pa₂, hpa₂⟩ := h₂ hcross
      refine (hf.canWrite hpa₂).mpr fun hrefuse => hno ⟨hcross, ?_, hrefuse⟩
      exact (hf.canWrite hpa).mp hw
    obtain ⟨m, hm⟩ := hok
    exact .inr ⟨m, writeInt_eq hm⟩

theorem writeInt_torn (h : readInt addr s = .ok (some v₀, s₁)) (ht : Torn s addr)
    (hv : v.setWidth 8 ≠ v₀.setWidth 8) :
    ∃ m, writeInt addr v s₁ = .ok (false, { s₁ with mem := m }) ∧
      ({ s₁ with mem := m } : SemCaller).user addr ≠ s₁.user addr := by
  obtain ⟨hf, ⟨pa, hpa⟩, h₂⟩ := readInt_pages h
  obtain ⟨hcross, hfirst, hsecond⟩ := ht
  obtain ⟨pa₂, hpa₂⟩ := h₂ hcross
  have hw : canWrite s₁.pagetable (addr / pgSize) = true := (hf.canWrite hpa).mpr hfirst
  have hw₂ : canWrite s₁.pagetable (addr / pgSize + 1) = false := by
    rw [← Bool.not_eq_true, hf.canWrite hpa₂]
    exact not_not.mpr hsecond
  -- the second page was there before, so nothing was made present after the first byte was read
  have hthere : userPage s.pagetable (addr / pgSize + 1) = some pa₂ := by
    obtain heq | ⟨hno, -⟩ := hf (addr / pgSize + 1)
    · rw [← userPage_congr heq]
      exact hpa₂
    · obtain ⟨e, he, -⟩ := hsecond
      rw [hno] at he
      cases he
  obtain ⟨bs, pt, m, hcopy, hbs, rfl⟩ := readInt_ok h
  obtain ⟨bs, rfl, hword⟩ := Option.map_eq_some_iff.mp hbs.symm
  obtain ⟨pa', rest, hpa', hbs⟩ := copyin_first hcross hthere _ _ hcopy bs rfl
  obtain rfl : pa = pa' := Option.some.inj (hpa.symm.trans hpa')
  refine ⟨_, writeInt_eq (copyout_torn (length_wordBytes v) hpa hcross hpa₂ hw hw₂), fun heq => hv ?_⟩
  have hold : m.ram pa (addr % pgSize) = v₀.setWidth 8 := by
    rw [← hword, hbs, wordOf_low]
  have hlen : ((wordBytes v).take (pgSize - addr % pgSize)).length = pgSize - addr % pgSize := by
    rw [List.length_take, length_wordBytes]
    omega
  have hlt : addr % pgSize < pgSize := Nat.mod_lt _ (by decide)
  have hfit : addr % pgSize + ((wordBytes v).take (pgSize - addr % pgSize)).length ≤ pgSize := by
    omega
  have hpos : 0 < ((wordBytes v).take (pgSize - addr % pgSize)).length := by omega
  have hnew := peek_poke hpa hfit m.ram hpos
  have hsame : peek pt m.ram addr = some (m.ram pa (addr % pgSize)) := by
    unfold peek
    rw [hpa]
    rfl
  have hbyte := hnew.symm.trans (heq.trans hsame)
  rw [hold] at hbyte
  simpa [wordBytes] using Option.some.inj hbyte

/-! ## Calls that fail -/

/-- When the call returns `fail`, the memory of the user is as it was when the semaphore was read,
and nobody has been woken. It is also as it was before that, since a page that is made present
holds zeros; only for a process with a page on the free list this need not be so. -/
def Clean {α : Type} (call : Sc α) (fail : α) (addr : Nat) (s : SemCaller) : Prop :=
  ∀ s', call s = .ok (fail, s') → s'.state = s.state ∧
    (∃ r s₁, readInt addr s = .ok (r, s₁) ∧ s'.user = s₁.user) ∧
    (Fresh s.pagetable s.mem.free →
      view s'.pagetable s'.sz s'.mem.ram = view s.pagetable s.sz s.mem.ram)

theorem readInt_clean {r : Option (BitVec 32)} (h : readInt addr s = .ok (r, s₁)) :
    s₁.state = s.state ∧ (Fresh s.pagetable s.mem.free →
      view s₁.pagetable s₁.sz s₁.mem.ram = view s.pagetable s.sz s.mem.ram) := by
  obtain ⟨bs, pt, m, hcopy, -, rfl⟩ := readInt_ok h
  exact ⟨rfl, fun hF => copyin_view hF addr 4 _ _ hcopy⟩

theorem Clean.of_read {α : Type} {call : Sc α} {fail : α}
    (h : ∀ s', call s = .ok (fail, s') → ∃ r, readInt addr s = .ok (r, s')) :
    Clean call fail addr s := by
  intro s' hs
  obtain ⟨r, hr⟩ := h s' hs
  obtain ⟨hst, hview⟩ := readInt_clean hr
  exact ⟨hst, ⟨r, s', hr, rfl⟩, hview⟩

theorem Clean.of_write {α : Type} {call : Sc α} {fail : α} {f : Bool → Sc α}
    (h : readInt addr s = .ok (some v₀, s₁)) (hv : v.setWidth 8 ≠ v₀.setWidth 8)
    (hcall : call s = (writeInt addr v >>= f) s₁) (hf : f false = pure fail)
    (ht : ∀ s', Ensures (f true) s' fun r _ => r ≠ fail) :
    Clean call fail addr s ↔ ¬ Torn s addr := by
  constructor
  · intro hclean htorn
    obtain ⟨m, hw, hne⟩ := writeInt_torn h htorn hv
    rw [bind_ok hw, hf] at hcall
    obtain ⟨-, ⟨r, s₂, hread, huser⟩, -⟩ := hclean _ hcall
    rw [h] at hread
    cases hread
    exact hne (congrFun huser addr)
  · intro hno
    refine .of_read fun s' hs' => ⟨some v₀, ?_⟩
    rw [hs'] at hcall
    obtain hw | ⟨m, hw⟩ := writeInt_whole h hno v
    · rw [bind_ok hw, hf] at hcall
      cases hcall
      exact h
    · rw [bind_ok hw] at hcall
      exact absurd rfl (ht _ fail s' hcall.symm)

theorem add_one_low (v : BitVec 32) : (v + 1).setWidth 8 ≠ v.setWidth 8 := by
  intro h
  have := congrArg BitVec.toNat h
  rw [BitVec.toNat_setWidth, BitVec.toNat_setWidth, BitVec.toNat_add,
    show (1 : BitVec 32).toNat = 1 from rfl] at this
  omega

theorem sub_one_low (v : BitVec 32) : (v - 1).setWidth 8 ≠ v.setWidth 8 := by
  intro h
  have := congrArg BitVec.toNat h
  rw [BitVec.toNat_setWidth, BitVec.toNat_setWidth, BitVec.toNat_sub,
    show (1 : BitVec 32).toNat = 1 from rfl] at this
  omega

theorem Clean.of_unread {α : Type} {call : Sc α} {fail : α} {f : Option (BitVec 32) → Sc α}
    (hcall : call = readInt addr >>= f) (hf : f none = pure fail)
    (hno : ∀ v s₁, readInt addr s ≠ .ok (some v, s₁)) : Clean call fail addr s := by
  refine .of_read fun s' hs' => ?_
  rw [hcall] at hs'
  cases h : readInt addr s with
  | error e => rw [bind_error h] at hs'; cases hs'
  | ok r =>
    obtain ⟨v, s₁⟩ := r
    cases v with
    | some v => exact absurd h (hno v s₁)
    | none =>
      rw [bind_ok h, hf] at hs'
      cases hs'
      exact ⟨none, rfl⟩

theorem semPost_clean (i : Slot) : Clean (semPost i addr) (-1) addr s ↔
    ¬ (Torn s addr ∧ ∃ v s₁, readInt addr s = .ok (some v, s₁)) := by
  by_cases hread : ∃ v s₁, readInt addr s = .ok (some v, s₁)
  · obtain ⟨v, s₁, h⟩ := hread
    have hcall : semPost i addr s = (writeInt addr (v + 1) >>= fun ok =>
        if ok then do wakeup i addr; pure 0 else pure (-1)) s₁ := bind_ok h
    have hiff := Clean.of_write h (add_one_low v) hcall rfl fun s' =>
      Ensures.bind (Ensures.modify (Ensures.pure (by decide)))
    rw [hiff]
    exact not_congr ⟨fun ht => ⟨ht, v, s₁, h⟩, And.left⟩
  · refine iff_of_true ?_ fun h => hread h.2
    exact .of_unread rfl rfl fun v s₁ h => hread ⟨v, s₁, h⟩

theorem semWait_clean : Clean (semWait addr) (some (-1)) addr s ↔
    ¬ (Torn s addr ∧ ∃ v s₁, readInt addr s = .ok (some v, s₁) ∧ 0 < v.toInt) := by
  by_cases hread : ∃ v s₁, readInt addr s = .ok (some v, s₁)
  · obtain ⟨v, s₁, h⟩ := hread
    by_cases hpos : 0 < v.toInt
    · have hcall : semWait addr s = (writeInt addr (v - 1) >>= fun ok =>
          if ok then pure (some 0) else pure (some (-1))) s₁ :=
        (bind_ok h).trans (congrFun (if_pos hpos) s₁)
      have hiff := Clean.of_write h (sub_one_low v) hcall rfl fun s' => Ensures.pure (by decide)
      rw [hiff]
      exact not_congr ⟨fun ht => ⟨ht, v, s₁, h, hpos⟩, And.left⟩
    · -- the call looks at `killed` and leaves the memory alone
      have hcall : semWait addr s = (do
          let s ← Mach.get
          if s.killed then pure (some (-1)) else pure none : Sc (Option Int)) s₁ :=
        (bind_ok h).trans (congrFun (if_neg hpos) s₁)
      refine iff_of_true (.of_read fun s' hs' => ⟨some v, ?_⟩) ?_
      · have hsame : Ensures (do
            let s ← Mach.get
            if s.killed then pure (some (-1)) else pure none : Sc (Option Int)) s₁
              fun _ s' => s' = s₁ :=
          Ensures.bind (Ensures.get (Ensures.ite (fun _ => Ensures.pure rfl) fun _ => Ensures.pure rfl))
        rw [hcall] at hs'
        rw [hsame _ _ hs']
        exact h
      · rintro ⟨-, v', s₁', h', hpos'⟩
        rw [h] at h'
        cases h'
        exact hpos hpos'
  · refine iff_of_true ?_ fun ⟨_, v, s₁, h, _⟩ => hread ⟨v, s₁, h⟩
    exact .of_unread rfl rfl fun v s₁ h => hread ⟨v, s₁, h⟩

end

/-- A semaphore call that fails changes nothing, exactly if it is not one that writes to a torn
semaphore. -/
theorem failed_semaphore_calls (s : SemCaller) (i : Slot) (addr : Nat) :
    (Clean (semPost i addr) (-1) addr s ↔
      ¬ (Torn s addr ∧ ∃ v s₁, readInt addr s = .ok (some v, s₁))) ∧
    (Clean (semWait addr) (some (-1)) addr s ↔
      ¬ (Torn s addr ∧ ∃ v s₁, readInt addr s = .ok (some v, s₁) ∧ 0 < v.toInt)) :=
  ⟨semPost_clean i, semWait_clean⟩

theorem aligned_clean (s : SemCaller) (i : Slot) {addr : Nat} (h : addr % 4 = 0) :
    Clean (semPost i addr) (-1) addr s ∧ Clean (semWait addr) (some (-1)) addr s := by
  have hno : ¬ Torn s addr := by
    intro ht
    have := ht.1
    unfold pgSize at this
    omega
  exact ⟨(semPost_clean i).mpr fun h => hno h.1, semWait_clean.mpr fun h => hno h.1⟩

def twoPages : SemCaller where
  pagetable := ((((PageTable.empty 1).addDir 0 2).addTab 0 3).setLeaf 0
    (some ⟨4, true, true, false, true, false⟩)).setLeaf 1 (some ⟨5, true, false, false, true, false⟩)
  sz := 8192
  mem := ⟨[], fun _ _ => 1⟩
  killed := false
  state := fun _ => .unused
  chan := fun _ => none

/-- Both calls fail, and have changed the first byte. -/
theorem failed_call_changes_semaphore :
    (∃ s', semPost 0 4094 twoPages = .ok (-1, s') ∧
      twoPages.user 4094 = some 1 ∧ s'.user 4094 = some 2) ∧
    ∃ s', semWait 4094 twoPages = .ok (some (-1), s') ∧ s'.user 4094 = some 0 := by
  have hpost : returns (semPost 0 4094) twoPages (fun r s' =>
      r = -1 ∧ twoPages.user 4094 = some 1 ∧ s'.user 4094 = some 2) = true := by
    decide +kernel
  have hwait : returns (semWait 4094) twoPages (fun r s' => r = some (-1) ∧ s'.user 4094 = some 0) = true := by
    decide +kernel
  obtain ⟨r, s', hpost, h⟩ := of_returns hpost
  obtain ⟨rfl, hold, hnew⟩ := of_decide_eq_true h
  obtain ⟨r', s'', hwait, h'⟩ := of_returns hwait
  obtain ⟨rfl, hnew'⟩ := of_decide_eq_true h'
  exact ⟨⟨s', hpost, hold, hnew⟩, s'', hwait, hnew'⟩

end SemCaller

end OsLab
