import OsLab.CString
import OsLab.VmSound

/-!
# Copies between the kernel and user memory

`copyout`, `copyinstr` and `vmfault` with the bytes they move. What they do to
page tables and to the free list is what the functions of `OsLab.Vm` do
(`copyout_sim`).
-/

namespace OsLab

open Mach

structure Mem where
  free : List Page
  ram : Page → Nat → Byte

abbrev Um := Mach Panic Mem

namespace UserMem

def onPages {α : Type} (x : Vm α) : Um α := fun m =>
  match x m.free with
  | .error e => .error e
  | .ok (a, free) => .ok (a, { m with free := free })

def poke (pa : Page) (o : Nat) (bs : List Byte) (ram : Page → Nat → Byte) : Page → Nat → Byte :=
  fun p i => if p = pa ∧ o ≤ i then (bs[i - o]?).getD (ram p i) else ram p i

def clear (pa : Page) (ram : Page → Nat → Byte) : Page → Nat → Byte :=
  fun p i => if p = pa then 0 else ram p i

def store (f : (Page → Nat → Byte) → Page → Nat → Byte) : Um Unit :=
  Mach.modify fun m => { m with ram := f m.ram }

/-! ## `copyout` -/

def vmfault (pt : PageTable) (sz va : Nat) : Um (Option Page × PageTable) := do
  let (pa, pt) ← onPages (OsLab.vmfault pt sz va)
  match pa with
  | none => pure (none, pt)
  | some pa => do
    store (clear pa)
    pure (some pa, pt)

def copyoutPage (pt : PageTable) (sz v : Nat) : Um (Option Page × PageTable) :=
  if v ≥ maxVa then pure (none, pt)
  else do
    let (pa, pt) ← match ← onPages (walkaddr pt v) with
      | some pa => pure (some pa, pt)
      | none => vmfault pt sz (v * pgSize)
    match pa with
    | none => pure (none, pt)
    | some pa =>
      match ← onPages (present pt v) with
      | some pte => pure (if pte.w then some pa else none, pt)
      | none => pure (none, pt)

/-- The loop of `copyout`: `src` is still to be copied, to offset `o` of page `v`; `n`
pages are left. -/
def copyoutLoop (sz : Nat) (pt : PageTable) (v o : Nat) (src : List Byte) :
    Nat → Um (Bool × PageTable)
  | 0 => pure (true, pt)
  | n + 1 => do
    let (pa, pt) ← copyoutPage pt sz v
    match pa with
    | none => pure (false, pt)
    | some pa => do
      store (poke pa o (src.take (pgSize - o)))
      copyoutLoop sz pt (v + 1) 0 (src.drop (pgSize - o)) n

def pages (va len : Nat) : Nat := (va + len - 1) / pgSize + 1 - va / pgSize

def copyout (pt : PageTable) (sz dstva : Nat) (src : List Byte) : Um (Bool × PageTable) :=
  if src.length = 0 then pure (true, pt)
  else copyoutLoop sz pt (dstva / pgSize) (dstva % pgSize) src (pages dstva src.length)

/-! ## `copyinstr` -/

/-- The inner loop of `copyinstr`: `n` bytes from offset `o` of a page that holds `src`, to
index `k` on. Whether it has met a NUL, and the array. -/
def copyinstrPage (src : Nat → Byte) : Nat → (Nat → Byte) → Nat → Nat → Bool × (Nat → Byte)
  | _, dst, _, 0 => (false, dst)
  | o, dst, k, n + 1 =>
    if src o = 0 then (true, Function.update dst k 0)
    else copyinstrPage src (o + 1) (Function.update dst k (src o)) (k + 1) n

/-- The outer loop of `copyinstr`; every round takes at least one byte, so `fuel` is the
number of bytes to begin with. -/
def copyinstrLoop (pt : PageTable) (v o : Nat) (dst : Nat → Byte) (k max : Nat) :
    Nat → Um (Bool × (Nat → Byte))
  | 0 => pure (false, dst)
  | fuel + 1 =>
    if max = 0 then pure (false, dst)
    else do
      match ← onPages (walkaddr pt v) with
      | none => pure (false, dst)
      | some pa =>
        let m ← Mach.get
        let n := min (pgSize - o) max
        let (gotNull, dst) := copyinstrPage (m.ram pa) o dst k n
        if gotNull then pure (true, dst)
        else copyinstrLoop pt (v + 1) 0 dst (k + n) (max - n) fuel

def copyinstr (pt : PageTable) (dst : Nat → Byte) (srcva max : Nat) : Um (Bool × (Nat → Byte)) :=
  copyinstrLoop pt (srcva / pgSize) (srcva % pgSize) dst 0 max max

/-! ## What user memory holds -/

def userPage (pt : PageTable) (v : Nat) : Option Page :=
  if v < maxVa then (pt.leaf v).bind fun pte => if pte.u then some pte.pa else none else none

def peek (pt : PageTable) (ram : Page → Nat → Byte) (va : Nat) : Option Byte :=
  (userPage pt (va / pgSize)).map fun pa => ram pa (va % pgSize)

section
variable {pt : PageTable} {m : Mem} {free : List Page} {sz v : Nat}

theorem present_eq (hv : v < maxVa) : present pt v free = .ok (pt.leaf v, free) := by
  refine (bind_ok (walk_eq pt v free hv)).trans ?_
  cases ht : pt.tab (v / 512) with
  | none => rw [pt.leaf_tab v ht]; rfl
  | some pa => rfl

theorem walkaddr_eq (pt : PageTable) (v : Nat) (free : List Page) :
    walkaddr pt v free = .ok (userPage pt v, free) := by
  unfold walkaddr userPage
  by_cases hv : v < maxVa
  · rw [if_neg (by omega), if_pos hv]
    refine (bind_ok (present_eq hv)).trans ?_
    cases pt.leaf v <;> rfl
  · rw [if_pos (by omega), if_neg hv]
    rfl

theorem onPages_eq {α : Type} {x : Vm α} {a : α} (h : x m.free = .ok (a, m.free)) :
    onPages x m = .ok (a, m) := by
  unfold onPages
  rw [h]

/-! ## The page level -/

/-- On page tables and the free list `x` does what `y` does, with results related by
`f`. -/
def Sim {α β : Type} (f : α → β) (x : Um α) (y : Vm β) : Prop :=
  ∀ m, (x m).map (fun r => (f r.1, r.2.free)) = y m.free

section
variable {α β γ δ : Type}

theorem Sim.pure {f : α → β} {a : α} : Sim f (Pure.pure a) (Pure.pure (f a)) := fun _ => rfl

theorem Sim.onPages (x : Vm α) : Sim id (onPages x) x := by
  intro m
  unfold UserMem.onPages
  cases x m.free <;> rfl

theorem Sim.bind {f : α → β} {g : γ → δ} {x : Um α} {y : Vm β} {h : α → Um γ} {h' : β → Vm δ}
    (hx : Sim f x y) (hh : ∀ a, Sim g (h a) (h' (f a))) : Sim g (x >>= h) (y >>= h') := by
  intro m
  have hm := hx m
  cases hxm : x m with
  | error e =>
    rw [hxm] at hm
    rw [bind_error hxm, bind_error hm.symm]
    rfl
  | ok r =>
    rw [hxm] at hm
    rw [bind_ok hxm, bind_ok hm.symm]
    exact hh r.1 r.2

theorem Sim.fails {f : α → β} {x : Um α} {y : Vm β} {E : Panic → Prop} (h : Sim f x y)
    (hy : Fails y m.free E) : Fails x m E := by
  intro e he
  have hm := h m
  rw [he] at hm
  exact hy e hm.symm

theorem Sim.store {f : α → β} {x : Um α} {y : Vm β}
    {s : (Page → Nat → Byte) → Page → Nat → Byte} (hx : Sim f x y) :
    Sim f (do UserMem.store s; x) y :=
  fun m => hx { m with ram := s m.ram }

end

theorem vmfault_sim (va : Nat) : Sim id (vmfault pt sz va) (OsLab.vmfault pt sz va) := by
  intro m
  have h := Sim.onPages (OsLab.vmfault pt sz va) m
  unfold vmfault
  cases hv : onPages (OsLab.vmfault pt sz va) m with
  | error e => rw [bind_error hv]; rw [hv] at h; exact h
  | ok r =>
    obtain ⟨⟨pa, pt'⟩, m'⟩ := r
    rw [bind_ok hv]
    rw [hv] at h
    cases pa with
    | none => exact h
    | some pa => exact h

theorem writable_sim (pa : Option Page) (pt : PageTable) : Sim (fun r => (r.1.isSome, r.2))
    (match pa with
      | none => pure (none, pt)
      | some pa => do
        match ← onPages (present pt v) with
        | some pte => pure (if pte.w then some pa else none, pt)
        | none => pure (none, pt))
    (if pa.isSome then do
        match ← present pt v with
        | some pte => pure (pte.w, pt)
        | none => pure (false, pt)
      else pure (false, pt)) := by
  cases pa with
  | none => exact Sim.pure
  | some pa =>
    refine Sim.bind (Sim.onPages (present pt v)) fun e => ?_
    cases e with
    | none => exact Sim.pure
    | some e =>
      intro m
      cases he : e.w <;> simp [he, pure, Except.map]

theorem copyoutPage_sim : Sim (fun r => (r.1.isSome, r.2)) (copyoutPage pt sz v)
    (OsLab.copyoutPage pt sz v) := by
  unfold copyoutPage OsLab.copyoutPage
  split
  · exact Sim.pure
  · refine Sim.bind (Sim.onPages (walkaddr pt v)) fun r => ?_
    cases r with
    | some pa => exact writable_sim (some pa) pt
    | none =>
      refine Sim.bind (vmfault_sim (v * pgSize)) fun r => ?_
      exact writable_sim r.1 r.2

theorem copyoutLoop_sim {o n : Nat} {src : List Byte} :
    Sim id (copyoutLoop sz pt v o src n) (OsLab.copyoutLoop pt sz v n) := by
  induction n generalizing pt v o src with
  | zero => exact Sim.pure
  | succ n ih =>
    refine Sim.bind copyoutPage_sim fun r => ?_
    obtain ⟨pa, pt'⟩ := r
    cases pa with
    | none => exact Sim.pure
    | some pa => exact Sim.store ih

theorem copyout_sim (va : Nat) (src : List Byte) :
    Sim id (copyout pt sz va src) (OsLab.copyout pt sz va src.length) := by
  unfold copyout OsLab.copyout
  split
  · exact Sim.pure
  · exact copyoutLoop_sim

/-! ## `copyinstr` -/

theorem copyinstrPage_copyStr {src : Nat → Byte} {f : Nat → Option Byte} {a o n : Nat}
    (dst : Nat → Byte) (k rest : Nat) (hf : ∀ i < n, f (a + i) = some (src (o + i))) :
    copyStr f a dst k (n + rest) =
      if (copyinstrPage src o dst k n).1 then copyinstrPage src o dst k n
      else copyStr f (a + n) (copyinstrPage src o dst k n).2 (k + n) rest := by
  induction n generalizing a o dst k with
  | zero => rw [Nat.zero_add]; rfl
  | succ n ih =>
    have hnext : ∀ i < n, f (a + 1 + i) = some (src (o + 1 + i)) := fun i hi => by
      have := hf (i + 1) (Nat.succ_lt_succ hi)
      rw [Nat.add_right_comm, Nat.add_right_comm o]
      exact this
    have h₀ : f a = some (src o) := hf 0 (Nat.succ_pos n)
    rw [Nat.succ_add, copyStr_some h₀]
    unfold copyinstrPage
    split
    · rfl
    · rw [ih _ _ hnext, Nat.add_right_comm a, Nat.add_right_comm k]
      rfl

theorem copyinstrLoop_eq {o max fuel : Nat} (v : Nat) (dst : Nat → Byte) (k : Nat) (ho : o < pgSize)
    (hfuel : max ≤ fuel) : copyinstrLoop pt v o dst k max fuel m =
      .ok (copyStr (peek pt m.ram) (v * pgSize + o) dst k max, m) := by
  have hpg : pgSize = 4096 := rfl
  induction fuel generalizing v o dst k max with
  | zero =>
    obtain rfl : max = 0 := Nat.le_zero.mp hfuel
    rfl
  | succ fuel ih =>
    unfold copyinstrLoop
    split
    · rename_i hz
      rw [hz]
      rfl
    · rename_i hz
      refine (bind_ok (onPages_eq (walkaddr_eq pt v m.free))).trans ?_
      have hpage : ∀ i < min (pgSize - o) max, peek pt m.ram (v * pgSize + o + i) =
          (userPage pt v).map fun pa => m.ram pa (o + i) := by
        intro i hi
        unfold peek
        rw [show (v * pgSize + o + i) / pgSize = v by rw [hpg] at *; omega,
          show (v * pgSize + o + i) % pgSize = o + i by rw [hpg] at *; omega]
      cases hu : userPage pt v with
      | none =>
        have h₀ := hpage 0 (by rw [hpg] at *; omega)
        rw [hu, Nat.add_zero] at h₀
        obtain ⟨n, rfl⟩ := Nat.exists_eq_succ_of_ne_zero hz
        unfold copyStr
        rw [show peek pt m.ram (v * pgSize + o) = none from h₀]
        rfl
      | some pa =>
        refine (bind_ok rfl).trans ?_
        rw [hu] at hpage
        have hmin : max = min (pgSize - o) max + (max - min (pgSize - o) max) := by omega
        have hcopy := copyinstrPage_copyStr dst k (max - min (pgSize - o) max) hpage
        rw [← hmin] at hcopy
        rw [hcopy]
        dsimp only
        split
        · rename_i hnul
          exact congrArg (fun r => Except.ok (r, m)) (Prod.ext hnul.symm rfl)
        · rw [ih _ _ _ (by rw [hpg]; omega) (by rw [hpg] at *; omega)]
          by_cases hn : max - min (pgSize - o) max = 0
          · rw [hn, copyStr, copyStr]
          · -- the page was read to its end
            rw [show (v + 1) * pgSize + 0 = v * pgSize + o + min (pgSize - o) max by
              rw [hpg] at *; omega]

theorem copyinstr_eq (dst : Nat → Byte) (srcva max : Nat) :
    copyinstr pt dst srcva max m = .ok (copyStr (peek pt m.ram) srcva dst 0 max, m) := by
  have ho : srcva % pgSize < pgSize := Nat.mod_lt _ (by decide)
  refine (copyinstrLoop_eq (srcva / pgSize) dst 0 ho (Nat.le_refl max)).trans ?_
  rw [Nat.div_add_mod']

/-! ## Writing to a buffer -/

theorem poke_apply (pa : Page) (o : Nat) (bs : List Byte) (ram : Page → Nat → Byte) (p : Page)
    (i : Nat) : poke pa o bs ram p i =
      if p = pa ∧ o ≤ i then (bs[i - o]?).getD (ram p i) else ram p i := rfl

theorem poke_get {pa : Page} {o i : Nat} {bs : List Byte} {ram : Page → Nat → Byte}
    (hi : i < bs.length) : poke pa o bs ram pa (o + i) = bs.get ⟨i, hi⟩ := by
  rw [poke_apply, if_pos ⟨rfl, Nat.le_add_right ..⟩, Nat.add_sub_cancel_left,
    List.getElem?_eq_getElem hi]
  rfl

theorem poke_other {pa p : Page} {o i : Nat} {bs : List Byte} {ram : Page → Nat → Byte}
    (h : ¬ (p = pa ∧ o ≤ i ∧ i < o + bs.length)) : poke pa o bs ram p i = ram p i := by
  rw [poke_apply]
  split
  · rename_i hp
    have hi : ¬ i < o + bs.length := fun hi => h ⟨hp.1, hp.2, hi⟩
    rw [List.getElem?_eq_none (by omega)]
    rfl
  · rfl

def Writable (pt : PageTable) (va : Nat) : Prop :=
  va / pgSize < maxVa ∧ ∃ e, pt.leaf (va / pgSize) = some e ∧ e.u = true ∧ e.w = true

theorem Writable.copyoutPage {va : Nat} (h : Writable pt va) (sz : Nat) (m : Mem) :
    ∃ pa, userPage pt (va / pgSize) = some pa ∧
      UserMem.copyoutPage pt sz (va / pgSize) m = .ok ((some pa, pt), m) := by
  obtain ⟨hv, e, hl, hu, hw⟩ := h
  have hpage : userPage pt (va / pgSize) = some e.pa := by
    unfold userPage
    rw [if_pos hv, hl]
    exact if_pos hu
  refine ⟨e.pa, hpage, ?_⟩
  unfold UserMem.copyoutPage
  rw [if_neg (by omega)]
  refine (bind_ok (onPages_eq (walkaddr_eq pt _ m.free))).trans ?_
  rw [hpage]
  refine (bind_ok (onPages_eq (present_eq hv))).trans ?_
  rw [hl]
  change Except.ok ((if e.w = true then some e.pa else none, pt), m) = _
  rw [if_pos hw]

def OnlyIn (pt : PageTable) (va len : Nat) (ram ram' : Page → Nat → Byte) : Prop :=
  ∀ p i, ram' p i ≠ ram p i →
    ∃ j < len, userPage pt ((va + j) / pgSize) = some p ∧ (va + j) % pgSize = i

theorem OnlyIn.append {va n₁ n₂ : Nat} {ram ram₁ ram₂ : Page → Nat → Byte}
    (h₁ : OnlyIn pt va n₁ ram ram₁) (h₂ : OnlyIn pt (va + n₁) n₂ ram₁ ram₂) :
    OnlyIn pt va (n₁ + n₂) ram ram₂ := by
  intro p i h
  by_cases hsame : ram₂ p i = ram₁ p i
  · obtain ⟨j, hj, hat⟩ := h₁ p i (hsame ▸ h)
    exact ⟨j, Nat.lt_of_lt_of_le hj (Nat.le_add_right _ _), hat⟩
  · obtain ⟨j, hj, hat⟩ := h₂ p i hsame
    rw [Nat.add_assoc] at hat
    exact ⟨n₁ + j, Nat.add_lt_add_left hj _, hat⟩

theorem add_div_page {va i : Nat} (h : va % pgSize + i < pgSize) :
    (va + i) / pgSize = va / pgSize ∧ (va + i) % pgSize = va % pgSize + i := by
  unfold pgSize at *
  omega

theorem pages_one {va len : Nat} (hpos : len ≠ 0) (h : va % pgSize + len ≤ pgSize) :
    pages va len = 1 := by
  unfold pages pgSize at *
  omega

theorem pages_two {va len : Nat} (hle : len ≤ pgSize) (h : ¬ va % pgSize + len ≤ pgSize) :
    pages va len = 2 := by
  unfold pages pgSize at *
  omega

theorem next_page (va : Nat) : (va + (pgSize - va % pgSize)) / pgSize = va / pgSize + 1 ∧
    (va + (pgSize - va % pgSize)) % pgSize = 0 := by
  unfold pgSize
  omega

section
variable {va : Nat} {pa : Page} {bs : List Byte} (hpa : userPage pt (va / pgSize) = some pa)
  (hfit : va % pgSize + bs.length ≤ pgSize)
include hpa hfit

theorem peek_poke (ram : Page → Nat → Byte) {i : Nat} (hi : i < bs.length) :
    peek pt (poke pa (va % pgSize) bs ram) (va + i) = some (bs.get ⟨i, hi⟩) := by
  have hpos := add_div_page (Nat.lt_of_lt_of_le (Nat.add_lt_add_left hi _) hfit)
  unfold peek
  rw [hpos.1, hpa, hpos.2]
  exact congrArg some (poke_get hi)

theorem poke_onlyIn (ram : Page → Nat → Byte) :
    OnlyIn pt va bs.length ram (poke pa (va % pgSize) bs ram) := by
  intro p i h
  by_contra hno
  refine h (poke_other fun ⟨hp, ho, hi⟩ => hno ?_)
  have hpos := add_div_page (Nat.lt_of_lt_of_le (show va % pgSize + (i - va % pgSize) < _ by
    omega) hfit)
  refine ⟨i - va % pgSize, by omega, ?_, ?_⟩
  · rw [hpos.1, hpa, hp]
  · rw [hpos.2]; omega

end

/-- `copyout` to a writable buffer of at most a page. Its two parts may even lie in the
same physical page: they do not overlap there. -/
theorem copyout_writes {va : Nat} {src : List Byte} (hw : ∀ i < src.length, Writable pt (va + i))
    (hlen : src.length ≤ pgSize) (sz : Nat) (m : Mem) :
    ∃ ram, copyout pt sz va src m = .ok ((true, pt), { m with ram := ram }) ∧
      (∀ i (hi : i < src.length), peek pt ram (va + i) = some (src.get ⟨i, hi⟩)) ∧
      OnlyIn pt va src.length m.ram ram := by
  unfold copyout
  by_cases hz : src.length = 0
  · rw [if_pos hz]
    exact ⟨m.ram, rfl, fun i hi => absurd hi (by omega), fun p i h => absurd rfl h⟩
  rw [if_neg hz]
  obtain ⟨pa, hpa, hpage⟩ := (hw 0 (by omega)).copyoutPage sz m
  rw [Nat.add_zero] at hpa hpage
  by_cases hone : va % pgSize + src.length ≤ pgSize
  · have htake : src.take (pgSize - va % pgSize) = src := List.take_of_length_le (by omega)
    refine ⟨poke pa (va % pgSize) src m.ram, ?_, fun i => peek_poke hpa hone _, poke_onlyIn hpa hone _⟩
    rw [pages_one hz hone]
    refine (bind_ok hpage).trans ?_
    rw [htake]
    rfl
  -- the rest goes to the start of the next page
  obtain ⟨hdiv, hmod⟩ := next_page va
  have hpages := pages_two hlen hone
  have hlt : va % pgSize < pgSize := Nat.mod_lt _ (by decide)
  generalize hcut : pgSize - va % pgSize = cut at *
  have hrest : cut < src.length := by omega
  have hlen₁ : (src.take cut).length = cut := List.length_take_of_le (by omega)
  have hlen₂ : (src.drop cut).length = src.length - cut := List.length_drop
  obtain ⟨pa₂, hpa₂, hpage₂⟩ := (hw _ hrest).copyoutPage sz
    { m with ram := poke pa (va % pgSize) (src.take cut) m.ram }
  have hfit₁ : va % pgSize + (src.take cut).length ≤ pgSize := by omega
  have hfit₂ : (va + cut) % pgSize + (src.drop cut).length ≤ pgSize := by omega
  have htake₂ : (src.drop cut).take (pgSize - 0) = src.drop cut :=
    List.take_of_length_le (by omega)
  refine ⟨poke pa₂ ((va + cut) % pgSize) (src.drop cut)
    (poke pa (va % pgSize) (src.take cut) m.ram), ?_, fun i hi => ?_, ?_⟩
  · rw [hpages]
    refine (bind_ok hpage).trans ((bind_ok rfl).trans ?_)
    rw [hcut]
    rw [hdiv] at hpage₂
    refine (bind_ok hpage₂).trans ?_
    rw [htake₂, hmod]
    rfl
  · by_cases hi₁ : i < cut
    · have hpos := add_div_page (show va % pgSize + i < pgSize by omega)
      have hsame := peek_poke hpa hfit₁ m.ram (hlen₁.symm ▸ hi₁)
      unfold peek at hsame ⊢
      rw [hpos.1, hpa] at hsame ⊢
      refine (congrArg some (poke_other fun h => ?_)).trans (hsame.trans (by simp))
      rw [hpos.2] at h
      omega
    · have hthen := peek_poke hpa₂ hfit₂ (poke pa (va % pgSize) (src.take cut) m.ram)
        (show i - cut < _ by omega)
      rw [show va + cut + (i - cut) = va + i by omega] at hthen
      rw [hthen]
      simp [show cut + (i - cut) = i by omega]
  · have hboth := (poke_onlyIn hpa hfit₁ m.ram).append (hlen₁.symm ▸ poke_onlyIn hpa₂ hfit₂ _)
    rwa [hlen₁, hlen₂, Nat.add_sub_cancel' (Nat.le_of_lt hrest)] at hboth

end

def onePage : PageTable :=
  (((PageTable.empty 1).addDir 0 2).addTab 0 3).setLeaf 0 (some ⟨4, true, true, false, true, false⟩)

theorem onePage_writable {va : Nat} (h : va < pgSize) : Writable onePage va := by
  have hv : va / pgSize = 0 := Nat.div_eq_of_lt h
  unfold Writable
  rw [hv]
  exact ⟨by decide +kernel, _, rfl, rfl, rfl⟩

end UserMem

end OsLab
