import OsLab.KernelPanics
import OsLab.Sharing

/-!
# When `clone` panics

`uvmmirror` panics at a page below the size that is not there, and `sbrk` can
leave such pages. It does so unless the table of processes is full, or memory for
the page-table pages of the new thread runs out before the first such page.
-/

namespace OsLab

open Mach

/-! ## Page-table pages that a mapping takes -/

def needs (pt : PageTable) (v : Nat) : Nat :=
  (if (pt.dir (v / 512 / 512)).isSome then 0 else 1) + if (pt.tab (v / 512)).isSome then 0 else 1

section
variable {pt : PageTable} {free : List Page} {v : Nat}

namespace PageTable

theorem addDir_tab (pt : PageTable) (i : Nat) (pa : Page) : (pt.addDir i pa).tab = pt.tab := by
  unfold addDir
  split <;> rfl

theorem addTab_dir (pt : PageTable) (j : Nat) (pa : Page) : (pt.addTab j pa).dir = pt.dir := by
  unfold addTab
  split <;> rfl

theorem setLeaf_dir (pt : PageTable) (v : Nat) (e : Option Pte) : (pt.setLeaf v e).dir = pt.dir := by
  unfold setLeaf
  split <;> rfl

theorem setLeaf_tab (pt : PageTable) (v : Nat) (e : Option Pte) : (pt.setLeaf v e).tab = pt.tab := by
  unfold setLeaf
  split <;> rfl

end PageTable

theorem isSome_update {f : Nat → Option Page} {i j : Nat} {pa : Page} :
    (Function.update f i (some pa) j).isSome ↔ (f j).isSome ∨ j = i := by
  by_cases h : j = i
  · subst h; simp
  · rw [Function.update_of_ne h]; simp [h]

def Takes (n : Nat) (free : List Page) (ok : Bool) (free' : List Page) : Prop :=
  (ok = true ↔ n ≤ free.length) ∧ (ok = true → n + free'.length = free.length)

theorem walkRound_takes {there : Bool} {add : Page → PageTable} {P : PageTable → Prop} (ht : there = true → P pt)
    (ha : there = false → ∀ pa, P (add pa)) :
    Ensures (walkRound there pt add) free fun r free' =>
      Takes (if there then 0 else 1) free r.1 free' ∧ (r.1 = true → P r.2) := by
  refine Ensures.ite (fun h => Ensures.pure ?_) fun h => ?_
  · rw [if_pos h]
    exact ⟨⟨by simp, fun _ => Nat.zero_add _⟩, fun _ => ht h⟩
  · rw [if_neg h]
    cases free with
    | nil => exact Ensures.bind (by rintro _ _ ⟨⟩; exact Ensures.pure ⟨⟨by simp, nofun⟩, nofun⟩)
    | cons pa free =>
      refine Ensures.bind ?_
      rintro _ _ ⟨⟩
      exact Ensures.pure ⟨⟨by simp, fun _ => Nat.add_comm ..⟩, fun _ => ha (by simpa using h) pa⟩

theorem walkDir_takes (hv : v / 512 / 512 < 512) :
    Ensures (walkDir pt v) free fun r free' =>
      Takes (if (pt.dir (v / 512 / 512)).isSome then 0 else 1) free r.1 free' ∧
      (r.1 = true → r.2.tab = pt.tab ∧
        ∀ i, (r.2.dir i).isSome ↔ (pt.dir i).isSome ∨ i = v / 512 / 512) := by
  rw [walkDir_eq]
  refine walkRound_takes (P := fun pt' => pt'.tab = pt.tab ∧
    ∀ i, (pt'.dir i).isSome ↔ (pt.dir i).isSome ∨ i = v / 512 / 512)
    (fun hd => ⟨rfl, fun i => ?_⟩) fun _ pa => ⟨pt.addDir_tab _ pa, fun i => ?_⟩
  · exact (or_iff_left_of_imp (by rintro rfl; exact hd)).symm
  · unfold PageTable.addDir
    rw [dif_pos hv]
    exact isSome_update

theorem walkTab_takes (hd : (pt.dir (v / 512 / 512)).isSome) :
    Ensures (walkTab pt v) free fun r free' =>
      Takes (if (pt.tab (v / 512)).isSome then 0 else 1) free r.1 free' ∧
      (r.1 = true → r.2.dir = pt.dir ∧
        ∀ j, (r.2.tab j).isSome ↔ (pt.tab j).isSome ∨ j = v / 512) := by
  rw [walkTab_eq]
  refine walkRound_takes (P := fun pt' => pt'.dir = pt.dir ∧
    ∀ j, (pt'.tab j).isSome ↔ (pt.tab j).isSome ∨ j = v / 512)
    (fun ht => ⟨rfl, fun j => ?_⟩) fun _ pa => ⟨pt.addTab_dir _ pa, fun j => ?_⟩
  · exact (or_iff_left_of_imp (by rintro rfl; exact ht)).symm
  · unfold PageTable.addTab
    rw [dif_neg (Option.isSome_iff_ne_none.mp hd)]
    exact isSome_update

def Adds (pt : PageTable) (v : Nat) (pt' : PageTable) : Prop :=
  (∀ i, (pt'.dir i).isSome ↔ (pt.dir i).isSome ∨ i = v / 512 / 512) ∧
  ∀ j, (pt'.tab j).isSome ↔ (pt.tab j).isSome ∨ j = v / 512

theorem walkAlloc_takes :
    Ensures (walkAlloc pt v) free fun r free' =>
      Takes (needs pt v) free r.1 free' ∧ (r.1 = true → Adds pt v r.2) := by
  refine Ensures.ite (fun _ => Ensures.fail) fun hv => ?_
  have hlt : v / 512 / 512 < 512 := by
    unfold maxVa at hv; omega
  refine Ensures.bind ((walkDir_takes hlt).mono ?_)
  rintro ⟨ok, pt₁⟩ free₁ ⟨⟨hiff, hlen⟩, hadd⟩
  have hneed : needs pt v = (if (pt.dir (v / 512 / 512)).isSome then 0 else 1) +
    if (pt.tab (v / 512)).isSome then 0 else 1 := rfl
  refine Ensures.ite (fun hok => ?_) fun hok => Ensures.pure ?_
  · obtain ⟨htab, hdir⟩ := hadd hok
    refine (walkTab_takes ((hdir _).mpr (Or.inr rfl))).mono ?_
    rintro ⟨ok', pt₂⟩ free₂ ⟨⟨hiff₂, hlen₂⟩, hadd₂⟩
    have := hlen hok
    rw [htab] at hiff₂ hlen₂ hadd₂
    refine ⟨⟨hiff₂.trans (by omega), fun h => ?_⟩, fun h => ?_⟩
    · have := hlen₂ h; omega
    · obtain ⟨hd₂, ht₂⟩ := hadd₂ h
      exact ⟨fun i => by rw [hd₂]; exact hdir i, ht₂⟩
  · have hlt : ¬ _ ≤ free.length := fun h => hok (hiff.mpr h)
    refine ⟨⟨⟨nofun, fun h => ?_⟩, nofun⟩, nofun⟩
    omega

theorem mappages_takes {e : Pte} :
    Ensures (mappages pt v e) free fun r free' =>
      Takes (needs pt v) free r.1 free' ∧ (r.1 = true → Adds pt v r.2) := by
  refine Ensures.bind (walkAlloc_takes.mono ?_)
  rintro ⟨ok, pt₁⟩ free₁ ⟨ht, ha⟩
  refine Ensures.ite (fun hok => ?_) fun hok => Ensures.pure ⟨?_, nofun⟩
  · refine Ensures.ite (fun _ => Ensures.fail) fun _ => Ensures.pure ⟨?_, fun _ => ?_⟩
    · rwa [show ok = true from hok] at ht
    · unfold Adds
      rw [pt₁.setLeaf_dir, pt₁.setLeaf_tab]
      exact ha hok
  · rwa [show ok = false by simpa using hok] at ht

/-! ## A table that is filled from below -/

/-- The page-table pages that the user pages below `m` take, besides those that
`proc_pagetable` has made for the top of the address space. -/
def mirrorCost (m : Nat) : Nat := min 255 ((m + 262143) / 262144) + min 131071 ((m + 511) / 512)

theorem mirrorCost_mono {m n : Nat} (h : m ≤ n) : mirrorCost m ≤ mirrorCost n := by
  unfold mirrorCost; omega

/-- The user pages below `a` are mapped, and there are no page-table pages but theirs and
those of `TRAMPOLINE`. -/
structure Filled (pt : PageTable) (a : Nat) : Prop where
  dir : ∀ i, (pt.dir i).isSome ↔ i = 255 ∨ i * 262144 < a
  tab : ∀ j, (pt.tab j).isSome ↔ j = 131071 ∨ j * 512 < a
  within : pt.Within a

theorem Filled.needs {a : Nat} (h : Filled pt a) (ha : a < trapframeVa) :
    mirrorCost (a + 1) = mirrorCost a + needs pt a := by
  have hmax : trapframeVa = 67108862 := by unfold trapframeVa trampoline maxVa; rfl
  unfold OsLab.needs mirrorCost
  simp only [h.dir, h.tab]
  split <;> split <;> omega

theorem Filled.next {a : Nat} {pt' : PageTable} (h : Filled pt a) (ha : Adds pt a pt')
    (hlt : a < trapframeVa) (hin : pt'.Within (a + 1)) : Filled pt' (a + 1) := by
  have hmax : trapframeVa = 67108862 := by unfold trapframeVa trampoline maxVa; rfl
  refine ⟨fun i => ?_, fun j => ?_, hin⟩
  · rw [ha.1, h.dir]; omega
  · rw [ha.2, h.tab]; omega

/-- There is a page `m` to be mirrored that is missing, those before it are not, and the
page-table pages for those before it are to be had. -/
def Stuck (old : PageTable) (a n budget : Nat) : Prop :=
  ∃ m, a ≤ m ∧ m < a + n ∧ old.leaf m = none ∧ (∀ u, a ≤ u → u < m → old.leaf u ≠ none) ∧
    mirrorCost m ≤ budget

theorem Stuck.here {old : PageTable} {a n : Nat} (h : old.leaf a = none) (b : Nat) :
    Stuck old a (n + 1) (mirrorCost a + b) :=
  ⟨a, le_rfl, by omega, h, fun u hu hu' => absurd hu' (by omega), by omega⟩

theorem Stuck.next {old : PageTable} {a n b : Nat} (h : old.leaf a ≠ none) :
    Stuck old a (n + 1) b ↔ Stuck old (a + 1) n b := by
  constructor
  · rintro ⟨m, ha, hm, hl, hu, hb⟩
    have hne : m ≠ a := by rintro rfl; exact h hl
    exact ⟨m, by omega, by omega, hl, fun u hu' => hu u (by omega), hb⟩
  · rintro ⟨m, ha, hm, hl, hu, hb⟩
    refine ⟨m, by omega, by omega, hl, fun u hu' hum => ?_, hb⟩
    by_cases hua : u = a
    · subst hua; exact h
    · exact hu u (by omega) hum

theorem mapNext_takes {a : Nat} {e : Pte} (h : Filled pt a) (hlt : a < trapframeVa) :
    Ensures (mappages pt a e) free fun r free' =>
      (r.1 = true → Filled r.2 (a + 1) ∧
        mirrorCost (a + 1) + free'.length = mirrorCost a + free.length) ∧
      (r.1 = false → mirrorCost a + free.length < mirrorCost (a + 1)) := by
  refine (mappages_takes.and (mapNext_within h.within)).mono ?_
  rintro ⟨ok, pt'⟩ free' ⟨⟨⟨hiff, hlen⟩, hadd⟩, hin⟩
  have hcost := h.needs hlt
  refine ⟨fun hok => ⟨h.next (hadd hok) hlt (hin.1 hok), ?_⟩, fun hok => ?_⟩
  · have := hlen hok; omega
  · have : ¬ needs pt a ≤ free.length := fun hle => by
      rw [hiff.mpr hle] at hok; cases hok
    omega

theorem uvmmirrorLoop_stuck (old : PageTable) {a n : Nat} (h : Filled pt a)
    (hn : a + n ≤ trapframeVa) : Fails (uvmmirrorLoop old pt a n) free
      fun _ => Stuck old a n (mirrorCost a + free.length) := by
  have hmax : trapframeVa + 2 = maxVa := by unfold trapframeVa trampoline maxVa; rfl
  induction n generalizing pt free a with
  | zero => exact Fails.pure
  | succ n ih =>
    refine Fails.bind (walk_fails fun h => absurd h (by omega)) ((walk_spec old a free).mono ?_)
    rintro _ _ ⟨rfl, rfl, -⟩
    refine Fails.ite (fun _ => ?_) fun ht => Fails.fail (Stuck.here (old.leaf_tab a ?_) _)
    · cases hl : old.leaf a with
      | none => exact Fails.fail (Stuck.here hl _)
      | some e =>
        have hne : old.leaf a ≠ none := hl ▸ Option.some_ne_none e
        have hfree : pt.leaf a = none := h.within a le_rfl (by omega) (by unfold trapframeVa at hn; omega)
        refine Fails.bind (mappages_fails (fun h => absurd h (by omega)) fun h => absurd hfree h)
          ((mapNext_takes h (by omega)).mono ?_)
        rintro ⟨ok, pt₁⟩ free₁ ⟨hok, -⟩
        refine Fails.ite (fun h₁ => ?_) fun _ => rollback_fails 0 fun h => absurd h (by omega)
        obtain ⟨hf, hc⟩ := hok h₁
        intro e he
        rw [Stuck.next hne, ← hc]
        exact ih hf (by omega) e he
    · simpa using ht

theorem uvmmirrorLoop_clear (old : PageTable) {a n : Nat} (h : Filled pt a)
    (hn : a + n ≤ trapframeVa) : Ensures (uvmmirrorLoop old pt a n) free
      fun _ _ => ¬ Stuck old a n (mirrorCost a + free.length) := by
  induction n generalizing pt free a with
  | zero => exact Ensures.pure fun ⟨m, ha, hm, _⟩ => by omega
  | succ n ih =>
    refine Ensures.bind ((walk_spec old a free).mono ?_)
    rintro _ _ ⟨rfl, rfl, -⟩
    refine Ensures.ite (fun _ => ?_) fun _ => Ensures.fail
    cases hl : old.leaf a with
    | none => exact Ensures.fail
    | some e =>
      have hne : old.leaf a ≠ none := hl ▸ Option.some_ne_none e
      refine Ensures.bind ((mapNext_takes h (by omega)).mono ?_)
      rintro ⟨ok, pt₁⟩ free₁ ⟨hok, hno⟩
      refine Ensures.ite (fun h₁ => ?_) fun h₁ => ?_
      · obtain ⟨hf, hc⟩ := hok h₁
        rw [Stuck.next hne, ← hc]
        exact ih hf (by omega)
      · -- memory has run out before the first missing page
        have hlt := hno (by simpa using h₁)
        refine Ensures.bind fun _ _ _ => Ensures.pure ?_
        rw [Stuck.next hne]
        rintro ⟨m, ham, -, -, -, hb⟩
        have := mirrorCost_mono ham
        omega

theorem procPagetable_takes (tf : Page) :
    Ensures (procPagetable tf) free fun r free' =>
      (r = none → free.length < 3) ∧
      ∀ pt, r = some pt → Filled pt 0 ∧ 3 + free'.length = free.length := by
  have hmax : maxVa = 67108864 := by unfold maxVa; rfl
  have htr : trampoline = 67108863 := by unfold trampoline; omega
  have hvf : trapframeVa = 67108862 := by unfold trapframeVa; omega
  have key : Ensures (procPagetable tf) free fun r free' =>
      (r = none → free.length < 3) ∧
      ∀ pt, r = some pt → (∀ i, (pt.dir i).isSome ↔ i = 255) ∧
        (∀ j, (pt.tab j).isSome ↔ j = 131071) ∧ 3 + free'.length = free.length := by
    cases free with
    | nil =>
      refine Ensures.bind (Ensures.bind ?_)
      rintro _ _ ⟨⟩
      exact Ensures.pure (Ensures.pure ⟨fun _ => by simp, by simp⟩)
    | cons pa free =>
      refine Ensures.bind (Ensures.bind ?_)
      rintro _ _ ⟨⟩
      refine Ensures.pure (Ensures.bind (mappages_takes.mono ?_))
      rintro ⟨ok₁, pt₁⟩ free₁ ⟨⟨hiff₁, hlen₁⟩, hadd₁⟩
      have hneed : needs (PageTable.empty pa) trampoline = 2 := rfl
      rw [hneed] at hiff₁ hlen₁
      refine Ensures.ite (fun h₁ => ?_) fun h₁ => ?_
      · -- the tables of the trampoline also serve the trapframe
        obtain ⟨hd₁, ht₁⟩ := hadd₁ h₁
        have hdir : ∀ i, (pt₁.dir i).isSome ↔ i = 255 := fun i => by
          rw [hd₁ i, htr]; simp [PageTable.empty]
        have htab : ∀ j, (pt₁.tab j).isSome ↔ j = 131071 := fun j => by
          rw [ht₁ j, htr]; simp [PageTable.empty]
        have hneed₂ : needs pt₁ trapframeVa = 0 := by
          unfold needs
          rw [hvf, if_pos ((hdir _).mpr rfl), if_pos ((htab _).mpr rfl)]
        refine Ensures.bind (mappages_takes.mono ?_)
        rintro ⟨ok₂, pt₂⟩ free₂ ⟨⟨hiff₂, hlen₂⟩, hadd₂⟩
        rw [hneed₂] at hiff₂ hlen₂
        refine Ensures.ite (fun h₂ => Ensures.pure ⟨by simp, fun pt hpt => ?_⟩) fun h₂ => ?_
        · cases hpt
          obtain ⟨hd₂, ht₂⟩ := hadd₂ h₂
          have := hlen₁ h₁
          have := hlen₂ h₂
          refine ⟨fun i => ?_, fun j => ?_, ?_⟩
          · rw [hd₂ i, hdir, hvf]; simp
          · rw [ht₂ j, htab, hvf]; simp
          · simp only [List.length_cons]; omega
        · exact absurd (hiff₂.mpr (Nat.zero_le _)) h₂
      · have hlt : ¬ 2 ≤ free.length := fun h => h₁ (hiff₁.mpr h)
        refine Ensures.bind fun _ _ _ => Ensures.pure ⟨fun _ => ?_, by simp⟩
        simp only [List.length_cons]; omega
  refine (key.and (procPagetable_spec tf)).mono ?_
  rintro r free' ⟨⟨hno, hok⟩, -, hspec⟩
  refine ⟨hno, fun pt hpt => ?_⟩
  obtain ⟨hd, ht, hlen⟩ := hok pt hpt
  exact ⟨⟨fun i => by rw [hd i]; simp, fun j => by rw [ht j]; simp, (hspec pt hpt).2.1⟩, hlen⟩

end

namespace Kernel

variable {k : Kernel} {i j : Slot}

/-! ## The new slot -/

theorem allocproc_takes :
    Ensures allocproc k fun r k' =>
      (r = none → (∀ j, (k.proc j).state ≠ .unused) ∨ k.freelist.length < 4) ∧
      ∀ j, r = some j → (k.proc j).state = .unused ∧ ∃ pt, (k'.proc j).pagetable = some pt ∧
        Filled pt 0 ∧ 4 + k'.freelist.length = k.freelist.length := by
  refine Ensures.bind (Ensures.get ?_)
  cases hj : k.findSlot fun p => p.state = .unused with
  | none =>
    refine Ensures.pure ⟨fun _ => Or.inl fun j => ?_, nofun⟩
    have := List.find?_eq_none.mp hj j (List.mem_finRange j)
    simpa using this
  | some j =>
    have hu : (k.proc j).state = .unused := by simpa using findSlot_spec hj
    refine Ensures.bind (put_spec (Ensures.bind (Ensures.modify ?_)))
    refine Ensures.bind (lift_spec ?_)
    change Ensures kalloc k.freelist _
    cases hf : k.freelist with
    | nil =>
      rintro _ _ ⟨⟩
      exact Ensures.bind fun _ _ _ => Ensures.pure ⟨fun _ => Or.inr (by simp), nofun⟩
    | cons pa free =>
      rintro _ _ ⟨⟩
      refine Ensures.bind (getProc_spec (Ensures.bind (put_spec (Ensures.bind (lift_spec
        ((procPagetable_takes pa).mono fun r free₂ h₂ => ?_))))))
      cases r with
      | none =>
        have hlt : free.length < 3 := h₂.1 rfl
        refine Ensures.bind fun _ _ _ => Ensures.pure ⟨fun _ => Or.inr ?_, nofun⟩
        simp only [List.length_cons]; omega
      | some pt =>
        obtain ⟨hfill, hlen⟩ := h₂.2 pt rfl
        refine Ensures.bind (put_spec (Ensures.pure ⟨nofun, fun j' hj' => ?_⟩))
        cases hj'
        refine ⟨hu, pt, ?_, hfill, ?_⟩
        · rw [setProc_self]
        · have hlen : 3 + free₂.length = free.length := hlen
          change 4 + free₂.length = _
          simp only [List.length_cons]; omega

theorem freeproc_other : Ensures (freeproc j) k fun _ k' => ∀ i, i ≠ j → k'.proc i = k.proc i := by
  refine Ensures.bind (getProc_spec (Ensures.bind (lift_spec fun _ _ _ => ?_)))
  exact Ensures.bind (put_spec (Ensures.modify fun i hi => Function.update_of_ne hi ..))

theorem allocPages_other :
    Ensures (allocPages j) k fun _ k' => ∀ i, i ≠ j → k'.proc i = k.proc i := by
  refine Ensures.bind (lift_spec fun r free _ => ?_)
  cases r with
  | none => exact Ensures.bind (freeproc_other.mono fun _ _ h => Ensures.pure h)
  | some pa =>
    refine Ensures.bind (getProc_spec (Ensures.bind (put_spec (Ensures.bind (lift_spec
      fun r free₁ _ => ?_)))))
    cases r with
    | none =>
      refine Ensures.bind (freeproc_other.mono fun _ _ h => Ensures.pure fun i hi => ?_)
      exact (h i hi).trans (Function.update_of_ne hi ..)
    | some pt =>
      refine Ensures.bind (put_spec (Ensures.pure fun i hi => ?_))
      rw [setProc_other _ _ hi]
      exact setProc_other _ _ hi

theorem allocproc_other :
    Ensures allocproc k fun _ k' => ∀ i, (k.proc i).state ≠ .unused → k'.proc i = k.proc i := by
  refine Ensures.bind (Ensures.get ?_)
  cases hj : k.findSlot fun p => p.state = .unused with
  | none => exact Ensures.pure fun _ _ => rfl
  | some j =>
    have hu : (k.proc j).state = .unused := by simpa using findSlot_spec hj
    refine Ensures.bind (put_spec (Ensures.bind (Ensures.modify ?_)))
    refine allocPages_other.mono fun _ k' h i hi => ?_
    have hij : i ≠ j := by rintro rfl; exact hi hu
    exact (h i hij).trans (Function.update_of_ne hij ..)

def Spawned (k k' : Kernel) (r : Int) : Prop :=
  r = -1 ∨ ∃ j, (k.proc j).state = .unused ∧ (k'.proc j).state = .runnable ∧ (k'.proc j).pid = r

theorem newproc_spawns {share : PageTable → PageTable → Nat → Vm (Bool × PageTable)}
    {isThread : Bool} {regs : Trapframe → Trapframe} (hi : (k.proc i).state ≠ .unused) :
    Ensures (newproc share isThread regs i) k fun r k' =>
      k'.proc i = k.proc i ∧ Spawned k k' r := by
  refine Ensures.bind ((allocproc_takes.and allocproc_other).mono ?_)
  rintro r k₁ ⟨⟨-, ha⟩, ho⟩
  cases r with
  | none => exact Ensures.pure ⟨ho i hi, Or.inl rfl⟩
  | some j =>
    have hu := (ha j rfl).1
    have hij : i ≠ j := by rintro rfl; exact hi hu
    refine Ensures.bind (getProc_spec (Ensures.bind (getProc_spec ?_)))
    refine Ensures.bind (Ensures.deref fun old _ => Ensures.bind (Ensures.deref fun new _ => ?_))
    refine Ensures.bind (lift_spec fun r free _ => Ensures.bind (put_spec ?_))
    refine Ensures.ite (fun _ => ?_) fun _ => ?_
    · refine Ensures.bind (Ensures.deref fun tf _ => Ensures.bind (getProc_spec ?_))
      refine Ensures.bind (Ensures.deref fun tf' _ => Ensures.bind (put_spec (Ensures.pure ?_)))
      refine ⟨?_, Or.inr ⟨j, hu, ?_, ?_⟩⟩
      · rw [setProc_other _ _ hij, setProc_other _ _ hij]
        exact ho i hi
      · rw [setProc_self]
      · rw [setProc_self]
    · refine Ensures.bind (freeproc_other.mono fun _ k' h => Ensures.pure ⟨?_, Or.inl rfl⟩)
      rw [h i hij, setProc_other _ _ hij]
      exact ho i hi

/-! ## The panic -/

/-- A page below the size is missing, and `clone` gets as far as that page: there is a free
slot, and there are pages for the slot and for the page tables before the missing page. -/
def ReachesHole (k : Kernel) (pt : PageTable) (sz : Nat) : Prop :=
  (∃ j, (k.proc j).state = .unused) ∧ ∃ m < pgRoundUp sz, pt.leaf m = none ∧
    (∀ u < m, pt.leaf u ≠ none) ∧ 4 + mirrorCost m ≤ k.freelist.length

theorem reachesHole_iff {pt : PageTable} {sz : Nat} {free : List Page}
    (hj : (k.proc j).state = .unused) (hlen : 4 + free.length = k.freelist.length) :
    ReachesHole k pt sz ↔ Stuck pt 0 (pgRoundUp sz) (mirrorCost 0 + free.length) := by
  have h₀ : mirrorCost 0 = 0 := rfl
  constructor
  · rintro ⟨-, m, hm, hl, hu, hc⟩
    exact ⟨m, Nat.zero_le m, by omega, hl, fun u _ => hu u, by omega⟩
  · rintro ⟨m, -, hm, hl, hu, hc⟩
    exact ⟨⟨j, hj⟩, m, by omega, hl, fun u => hu u (Nat.zero_le u), by omega⟩

theorem clone_stuck {pt : PageTable} (fcn arg stack : Word) (hk : k.Wf) (hi : (k.proc i).Live)
    (hpt : (k.proc i).pagetable = some pt) :
    Fails (clone fcn arg stack i) k fun _ => ReachesHole k pt (k.proc i).sz := by
  have hsz := (hk i).size
  refine newproc_fails (A := fun new free => Filled new 0 ∧ ∃ j, (k.proc j).state = .unused ∧
    4 + free.length = k.freelist.length) hk hi uvmmirror_shares ?_ ?_
  · refine allocproc_takes.mono fun r k₁ h₁ j new hr hnew => ?_
    obtain ⟨hu, pt₁, hpt₁, hf, hlen⟩ := h₁.2 j hr
    obtain rfl : pt₁ = new := Option.some.inj (hpt₁.symm.trans hnew)
    exact ⟨hf, j, hu, hlen⟩
  · rintro old new free hold - ⟨hf, j, hj, hlen⟩
    obtain rfl : pt = old := Option.some.inj (hpt.symm.trans hold)
    intro e he
    rw [reachesHole_iff hj hlen]
    exact uvmmirrorLoop_stuck pt hf (by omega) e he

theorem clone_clear {pt : PageTable} (fcn arg stack : Word) (hk : k.Wf) (hi : (k.proc i).Live)
    (hpt : (k.proc i).pagetable = some pt) :
    Ensures (clone fcn arg stack i) k fun _ _ => ¬ ReachesHole k pt (k.proc i).sz := by
  have hsz := (hk i).size
  refine Ensures.bind ((allocproc_takes.and allocproc_other).mono ?_)
  rintro r k₁ ⟨⟨hno, ha⟩, ho⟩
  cases r with
  | none =>
    refine Ensures.pure ?_
    rintro ⟨⟨j, hj⟩, m, -, -, -, hc⟩
    rcases hno rfl with h | h
    · exact h j hj
    · omega
  | some j =>
    obtain ⟨hj, new, hnew, hf, hlen⟩ := ha j rfl
    refine Ensures.bind (getProc_spec (Ensures.bind (getProc_spec ?_)))
    rw [ho i hi.ne_unused, hpt, hnew]
    refine Ensures.bind (Ensures.pure (Ensures.bind (Ensures.pure ?_)))
    rw [reachesHole_iff hj hlen]
    refine Ensures.bind (lift_spec ((uvmmirrorLoop_clear pt hf (by omega)).mono ?_))
    exact fun _ _ h _ _ _ => h

theorem Spawned.regs {k₁ k₂ : Kernel} {r : Int} (h : Spawned k k₁ r) (hr : RegsOnly k₁ k₂) :
    Spawned k k₂ r := by
  refine h.imp id ?_
  rintro ⟨j, hu, hs, hp⟩
  obtain ⟨tf, hj⟩ := hr j
  exact ⟨j, hu, by rw [hj]; exact hs, by rw [hj]; exact hp⟩

/-- In every state of a run that frees no page which another process maps, `clone` returns a pid
or -1 exactly when it does not get as far as a missing page. -/
theorem clone_returns_iff {pt : PageTable} {U : Trapframe} {io : Io} {fcn arg stack : Word}
    (h : ReachableBy Exclusive k) (hst : (k.proc i).state = .runnable ∨ (k.proc i).state = .running)
    (hk : (k.proc i).killed = false) (hpt : (k.proc i).pagetable = some pt)
    (hc : decode U io = .clone fcn arg stack) :
    (∃ v k', usertrap i U (.ecall io) k = .ok (.ret v, k') ∧ Spawned k k' v) ↔
      ¬ ReachesHole k pt (k.proc i).sz := by
  have hwf : k.Wf := h.reachable.wf
  have hl : (k.proc i).Live := hst.elim Or.inl fun h => Or.inr (Or.inl h)
  obtain ⟨tf, htf⟩ := Option.ne_none_iff_exists'.mp ((hwf i).live hl).1
  -- the state in which the system call runs
  have hself := entered_self k i tf U
  have hregs := entered_regs k i tf U
  have hw := entered_wf htf hwf U
  have hlive : ((k.entered i tf U).proc i).Live := by rw [hself]; exact hl
  have hstate : ∀ j, ((k.entered i tf U).proc j).state = (k.proc j).state := fun j => by
    obtain ⟨tf', hj⟩ := hregs j
    rw [hj]
  have hpt' : ((k.entered i tf U).proc i).pagetable = some pt := by rw [hself]; exact hpt
  have hhole : ReachesHole (k.entered i tf U) pt ((k.entered i tf U).proc i).sz ↔
      ReachesHole k pt (k.proc i).sz := by
    unfold ReachesHole
    simp only [hstate]
    rw [hself]
    rfl
  have hstuck := clone_stuck fcn arg stack hw hlive hpt'
  have hclear := clone_clear fcn arg stack hw hlive hpt'
  rw [hhole] at hstuck hclear
  constructor
  · rintro ⟨v, k', hok, -⟩ hh
    -- the function of the table cannot succeed
    cases hcl : clone fcn arg stack i (k.entered i tf U) with
    | ok r => exact hclear r.1 r.2 hcl hh
    | error e =>
      have hcall : call i (decode U io) (k.entered i tf U) = .error e := by
        rw [hc]
        exact bind_error hcl
      rw [usertrap_ecall_error htf hk hcall] at hok
      cases hok
  · intro hh
    have hspawn : Ensures (call i (decode U io)) (k.entered i tf U) fun r k' =>
        ∃ v, r = .ret v ∧ k'.proc i = (k.entered i tf U).proc i ∧ Spawned k k' v := by
      rw [hc]
      refine Ensures.bind ((newproc_spawns hlive.ne_unused).mono ?_)
      rintro v k' ⟨hi, hsp⟩
      refine Ensures.pure ⟨v, rfl, hi, hsp.imp id ?_⟩
      exact fun ⟨j, hu, hj⟩ => ⟨j, (hstate j).symm.trans hu, hj⟩
    have hfails : Fails (usertrap i U (.ecall io)) k fun _ => False := by
      refine usertrap_ecall_fails htf hk ?_ (hspawn.mono ?_)
      · rw [hc]
        exact Fails.bind (fun e he => hh (hstuck e he)) fun _ _ _ => Fails.pure
      · rintro _ k' ⟨v, -, hi, -⟩
        rw [hi, hself]
        exact ⟨Option.some_ne_none _, hk⟩
    cases hu : usertrap i U (.ecall io) k with
    | error e => exact (hfails e hu).elim
    | ok r =>
      have hret := usertrap_ecall_ensures (Q := fun v k' => Spawned k k' v) htf hk
        (hspawn.mono fun r k' ⟨v, hv, hi, hsp⟩ => ⟨v, hv, by rw [hi, hself]; exact hk, hsp⟩)
      obtain ⟨v, k', hv, hsp, hr⟩ := hret r.1 r.2 hu
      exact ⟨v, r.2, by rw [← hv], hsp.regs hr⟩

theorem clone_returns_iff_init : ∃ k₀ v k', small = some k₀ ∧
    usertrap 0 (ecall 0 24 0 0 0).user (.ecall ⟨none, [], 0, []⟩) k₀ = .ok (.ret v, k') ∧
    Spawned k₀ k' v := by
  have h : reaches [] (fun _ k => (k.proc 0).state = .runnable ∧ (k.proc 0).killed = false ∧
      pgRoundUp (k.proc 0).sz = 3 ∧
      (k.proc 0).pagetable.any fun pt => ∀ v : Fin 3, pt.leaf v ≠ none) = true := by
    decide +kernel
  obtain ⟨k₀, k, hb, hr, ht⟩ := reaches_iff.mp h
  cases hr
  simp only [Option.any_eq_true, decide_eq_true_eq] at ht
  obtain ⟨hst, hk, hsz, pt, hpt, hl⟩ := ht
  have h₀ : ReachableBy Exclusive k₀ := small_reachableBy [] hb trivial rfl
  have hno : ¬ ReachesHole k₀ pt (k₀.proc 0).sz := by
    rintro ⟨-, m, hm, hn, -⟩
    rw [hsz] at hm
    exact hl ⟨m, hm⟩ hn
  have hc : decode (ecall 0 24 0 0 0).user ⟨none, [], 0, []⟩ = .clone 0 0 0 := rfl
  obtain ⟨v, k', hu, hsp⟩ := (clone_returns_iff h₀ (Or.inl hst) hk hpt hc).mpr hno
  exact ⟨k₀, v, k', hb, hu, hsp⟩

theorem clone_after_lazy_sbrk : ∃ k₀ k, small = some k₀ ∧ run k₀ [ecall 0 12 4096 2 0] = some k ∧
    panics k (ecall 0 24 0 0 0) = some .notPresent := by
  have h : reaches [ecall 0 12 4096 2 0] (fun _ k =>
      panics k (ecall 0 24 0 0 0) = some .notPresent) = true := by decide +kernel
  obtain ⟨k₀, k, hb, hr, ht⟩ := reaches_iff.mp h
  exact ⟨k₀, k, hb, hr, of_decide_eq_true ht⟩

end Kernel

end OsLab
