import OsLab.CopyFrame
import OsLab.Proc

/-!
# `psinfo`

A record that `psinfo` copies to user memory is a `struct procinfo` on the kernel
stack: what `psinfo` does not write of it keeps the bytes that were on the stack. The
user sees none of these bytes only when nothing is copied out, or when the copy of the
first record stops short of them.
-/

namespace OsLab

open Mach UserMem

structure ProcEntry where
  state : ProcState
  pid : BitVec 32
  name : Nat → Byte

def ProcEntry.used (p : ProcEntry) : Bool := p.state ≠ .unused

def states : ProcState → List Char
  | .unused => ['U', 'N', 'U', 'S', 'E', 'D']
  | .used => ['U', 'S', 'E', 'D']
  | .sleeping => ['S', 'L', 'E', 'E', 'P', 'I', 'N', 'G']
  | .runnable => ['R', 'U', 'N', 'N', 'A', 'B', 'L', 'E']
  | .running => ['R', 'U', 'N', 'N', 'I', 'N', 'G']
  | .zombie => ['Z', 'O', 'M', 'B', 'I', 'E']

def cstr (s : List Char) (i : Nat) : Byte := ((s.map fun c => BitVec.ofNat 8 c.toNat)[i]?).getD 0

/-- `struct procinfo` with `pid`, `name` and `state` filled in; they are at 0, 4 and 20, and
two bytes of padding end the record. -/
def fillInfo (p : ProcEntry) (info : Nat → Byte) : Nat → Byte :=
  let info := fun i => if i < 4 then (p.pid >>> (8 * i)).setWidth 8 else info i
  let info := safestrcpy info 4 p.name 16
  safestrcpy info 20 (cstr (states p.state)) 10

def infoSize : Nat := 32

def psinfoLoop (sz : Nat) (addr : Word) (max : Int) :
    List ProcEntry → Nat → (Nat → Byte) → PageTable → Um (Int × PageTable)
  | [], count, _, pt => pure (count, pt)
  | p :: ps, count, info, pt =>
    if p.state = .unused then psinfoLoop sz addr max ps count info pt
    else if (count : Int) ≥ max then pure (count, pt)
    else do
      let info := fillInfo p info
      let (ok, pt) ← UserMem.copyout pt sz (addr + BitVec.ofNat 64 (infoSize * count)).toNat
        (bytes info infoSize)
      if ok then psinfoLoop sz addr max ps (count + 1) info pt else pure (-1, pt)

structure Caller where
  pagetable : PageTable
  sz : Nat
  mem : Mem

def Caller.psinfo (c : Caller) (ps : Slot → ProcEntry) (addr : Word) (max : Int)
    (stack : Nat → Byte) : Except Panic ((Int × PageTable) × Mem) :=
  psinfoLoop c.sz addr max (List.ofFn ps) 0 stack c.pagetable c.mem

def userMemory : Except Panic ((Int × PageTable) × Mem) → Option (Nat → Option Byte)
  | .ok ((_, pt), m) => some (peek pt m.ram)
  | .error _ => none

/-! ## One record -/

def Unset (p : ProcEntry) (b : Nat) : Prop :=
  4 + strWritten p.name 16 ≤ b ∧ b < 20 ∨
    20 + strWritten (cstr (states p.state)) 10 ≤ b ∧ b < 30 ∨ 30 ≤ b

instance (p : ProcEntry) (b : Nat) : Decidable (Unset p b) := inferInstanceAs (Decidable (_ ∨ _))

theorem strWritten_le (t : Nat → Byte) (n : Nat) : strWritten t n ≤ n := Nat.min_le_right ..

theorem fillInfo_unset {p : ProcEntry} {b : Nat} (h : Unset p b) (info : Nat → Byte) :
    fillInfo p info b = info b := by
  have hname := strWritten_le p.name 16
  have hstate := strWritten_le (cstr (states p.state)) 10
  unfold Unset at h
  unfold fillInfo
  rw [safestrcpy_get, if_neg (by omega), safestrcpy_get, if_neg (by omega), if_neg (by omega)]

theorem fillInfo_set {p : ProcEntry} {b : Nat} (h : ¬ Unset p b) (info info' : Nat → Byte) :
    fillInfo p info b = fillInfo p info' b := by
  unfold Unset at h
  unfold fillInfo
  rw [safestrcpy_get _ 20, safestrcpy_get _ 20]
  refine ite_congr rfl (fun _ => rfl) fun hstate => ?_
  rw [safestrcpy_get _ 4, safestrcpy_get _ 4]
  refine ite_congr rfl (fun _ => rfl) fun hname => ?_
  rw [if_pos (by omega), if_pos (by omega)]

/-! ## The loop -/

section
variable {sz count : Nat} {addr : Word} {max : Int} {p : ProcEntry} {ps : List ProcEntry}
  {info : Nat → Byte} {pt : PageTable} {m : Mem}

theorem psinfoLoop_unused (h : p.state = .unused) :
    psinfoLoop sz addr max (p :: ps) count info pt = psinfoLoop sz addr max ps count info pt := by
  rw [psinfoLoop, if_pos h]

theorem psinfoLoop_max (h : max ≤ count) :
    psinfoLoop sz addr max ps count info pt m = .ok ((count, pt), m) := by
  induction ps with
  | nil => rfl
  | cons p ps ih =>
    by_cases hp : p.state = .unused
    · rw [psinfoLoop_unused hp]
      exact ih
    · rw [psinfoLoop, if_neg hp, if_pos h]
      rfl

theorem psinfoLoop_copy (hp : p.state ≠ .unused) (hmax : ¬ max ≤ count) {ok : Bool}
    {pt' : PageTable} {m' : Mem}
    (hcopy : UserMem.copyout pt sz (addr + BitVec.ofNat 64 (infoSize * count)).toNat
      (bytes (fillInfo p info) infoSize) m = .ok ((ok, pt'), m')) :
    psinfoLoop sz addr max (p :: ps) count info pt m =
      if ok then psinfoLoop sz addr max ps (count + 1) (fillInfo p info) pt' m'
      else .ok ((-1, pt'), m') := by
  rw [psinfoLoop, if_neg hp, if_neg hmax, bind_ok hcopy]
  cases ok <;> rfl

theorem psinfoLoop_find :
    psinfoLoop sz addr max ps count info pt m =
      match ps.find? ProcEntry.used with
      | none => .ok ((count, pt), m)
      | some p => psinfoLoop sz addr max (p :: (ps.dropWhile fun p => !p.used).tail) count info pt m := by
  induction ps with
  | nil => rfl
  | cons p ps ih =>
    cases hp : p.used with
    | false =>
      have hun : p.state = .unused := by simpa [ProcEntry.used] using hp
      rw [psinfoLoop_unused hun, ih, List.find?_cons_of_neg (by simp [hp]), List.dropWhile_cons_of_pos (by simp [hp])]
    | true =>
      rw [List.find?_cons_of_pos hp, List.dropWhile_cons_of_neg (by simp [hp])]
      rfl

/-- The offset of address `va` is not that of a byte of the records from `count` on. -/
def Apart (addr : Word) (count n va : Nat) : Prop :=
  ∀ k, count ≤ k → k < count + n → ∀ j < infoSize,
    ((addr + BitVec.ofNat 64 (infoSize * k)).toNat + j) % pgSize ≠ va % pgSize

theorem psinfoLoop_keeps (info : Nat → Byte) (hF : Fresh pt m.free) {va : Nat} {b : Byte}
    (hb : peek pt m.ram va = some b) (hva : Apart addr count ps.length va) :
    ∃ ret pt' m', psinfoLoop sz addr max ps count info pt m = .ok ((ret, pt'), m') ∧
      peek pt' m'.ram va = some b := by
  induction ps generalizing count info pt m with
  | nil => exact ⟨count, pt, m, rfl, hb⟩
  | cons p ps ih =>
    by_cases hp : p.state = .unused
    · rw [psinfoLoop_unused hp]
      exact ih info hF hb fun k hk hk' => hva k hk (by rw [List.length_cons]; omega)
    by_cases hmax : max ≤ count
    · exact ⟨count, pt, m, psinfoLoop_max hmax, hb⟩
    obtain ⟨⟨ok, pt'⟩, m', hcopy⟩ := UserMem.copyout_ok
      (addr + BitVec.ofNat 64 (infoSize * count)).toNat (bytes (fillInfo p info) infoSize) m
    have hk := copyout_keeps hF _ _ _ _ hcopy
    have hb' : peek pt' m'.ram va = some b := hk.peek hF hb fun ⟨j, hj, heq⟩ =>
      hva count (Nat.le_refl _) (by rw [List.length_cons]; omega) j (by simpa using hj) heq
    rw [psinfoLoop_copy hp hmax hcopy]
    cases ok with
    | false => exact ⟨-1, pt', m', rfl, hb'⟩
    | true => exact ih _ hk.fresh hb' fun k hk hk' => hva k (by omega) (by rw [List.length_cons]; omega)

end

/-! ## Leaks -/

def firstUsed (ps : Slot → ProcEntry) : Option ProcEntry := (List.ofFn ps).find? ProcEntry.used

/-- No byte that is not written gets to the user: no record is asked for or none exists, or
the part of the buffer that the first record gets to ends before such a byte. -/
def Clean (c : Caller) (ps : Slot → ProcEntry) (addr : Word) (max : Int) : Prop :=
  max ≤ 0 ∨ ∀ p, firstUsed ps = some p →
    ∀ b < reach c.pagetable c.sz addr.toNat infoSize c.mem.free, ¬ Unset p b

section
variable {c : Caller} {ps : Slot → ProcEntry} {addr : Word} {max : Int} {p : ProcEntry}

theorem firstUsed_used (h : firstUsed ps = some p) : p.state ≠ .unused := by
  have := List.find?_some h
  simpa [ProcEntry.used] using this

theorem apart_first (addr : Word) {n b : Nat} (hn : n < 64) (hb : b < infoSize) :
    Apart addr 1 n (addr.toNat + b) := by
  intro k hk hk' j hj
  rw [BitVec.toNat_add, BitVec.toNat_ofNat]
  unfold infoSize pgSize at *
  omega

theorem psinfo_first (hp : firstUsed ps = some p) (hmax : ¬ max ≤ 0) (stack : Nat → Byte) {ok : Bool}
    {pt' : PageTable} {m' : Mem}
    (hcopy : UserMem.copyout c.pagetable c.sz addr.toNat (bytes (fillInfo p stack) infoSize) c.mem =
      .ok ((ok, pt'), m')) :
    ∃ rest : List ProcEntry, rest.length < 64 ∧ c.psinfo ps addr max stack =
      if ok then psinfoLoop c.sz addr max rest 1 (fillInfo p stack) pt' m'
      else .ok ((-1, pt'), m') := by
  refine ⟨((List.ofFn ps).dropWhile fun p => !p.used).tail, ?_, ?_⟩
  · have hle := (List.dropWhile_sublist (l := List.ofFn ps) fun p => !p.used).length_le
    rw [List.length_ofFn] at hle
    rw [List.length_tail]
    omega
  · unfold Caller.psinfo
    rw [psinfoLoop_find, show (List.ofFn ps).find? ProcEntry.used = some p from hp]
    exact psinfoLoop_copy (firstUsed_used hp) hmax (by simpa using hcopy)

/-- A byte that is not written and that the copy gets to is one of the stack. -/
theorem psinfo_leaks (hF : Fresh c.pagetable c.mem.free) (hp : firstUsed ps = some p) (hmax : ¬ max ≤ 0) {b : Nat} (hun : Unset p b)
    (hb : b < reach c.pagetable c.sz addr.toNat infoSize c.mem.free) (stack : Nat → Byte) :
    ∃ view, userMemory (c.psinfo ps addr max stack) = some view ∧
      view (addr.toNat + b) = some (stack b) := by
  have hlen := length_bytes (fillInfo p stack) infoSize
  have hb32 : b < infoSize := Nat.lt_of_lt_of_le hb (reach_le ..)
  obtain ⟨⟨ok, pt'⟩, m', hcopy⟩ := UserMem.copyout_ok addr.toNat (bytes (fillInfo p stack) infoSize)
    c.mem
  have hpeek : peek pt' m'.ram (addr.toNat + b) = some (stack b) := by
    have h := copyout_reach hF (by rw [hlen]; decide) _ _ hcopy b (by rw [hlen]; exact hb32)
      (by rw [hlen]; exact hb)
    rw [List.get_eq_getElem, getElem_bytes, fillInfo_unset hun] at h
    exact h
  obtain ⟨rest, hrest, heq⟩ := psinfo_first hp hmax stack hcopy
  rw [heq]
  cases ok with
  | false => exact ⟨_, rfl, hpeek⟩
  | true =>
    have hF' : Fresh pt' m'.free := (copyout_keeps hF _ _ _ _ hcopy).fresh
    obtain ⟨ret, pt'', m'', hrun, hpeek'⟩ := psinfoLoop_keeps (fillInfo p stack) hF' hpeek
      (apart_first addr hrest hb32)
    rw [if_pos rfl, hrun]
    exact ⟨_, rfl, hpeek'⟩

theorem Clean.psinfo_eq (h : Clean c ps addr max) (stack stack' : Nat → Byte) :
    c.psinfo ps addr max stack = c.psinfo ps addr max stack' := by
  by_cases hmax : max ≤ 0
  · unfold Caller.psinfo
    rw [psinfoLoop_max hmax, psinfoLoop_max hmax]
  cases hp : firstUsed ps with
  | none =>
    unfold Caller.psinfo
    rw [psinfoLoop_find, psinfoLoop_find, show (List.ofFn ps).find? ProcEntry.used = none from hp]
  | some p =>
    have hset := (h.resolve_left hmax) p hp
    -- the copy of the first record is the same and stops before its end
    have hlen : (bytes (fillInfo p stack) infoSize).length =
        (bytes (fillInfo p stack') infoSize).length := by simp
    obtain ⟨⟨ok, pt'⟩, m', hcopy⟩ := UserMem.copyout_ok addr.toNat
      (bytes (fillInfo p stack) infoSize) c.mem
    have hcopy' := hcopy
    rw [copyout_congr hlen fun i hi => ?_] at hcopy'
    · have hno : ok = false := by
        cases ok with
        | false => rfl
        | true =>
          have hreach := copyout_done _ _ hcopy rfl (by simp [bytes, infoSize])
          rw [length_bytes] at hreach
          exact absurd (.inr (.inr (Nat.le_refl 30))) (hset 30 (by rw [hreach]; decide))
      obtain ⟨rest, -, heq⟩ := psinfo_first hp hmax stack hcopy
      obtain ⟨rest', -, heq'⟩ := psinfo_first hp hmax stack' hcopy'
      rw [heq, heq', hno, if_neg Bool.false_ne_true, if_neg Bool.false_ne_true]
    · rw [length_bytes] at hi
      have hi32 : i < infoSize := Nat.lt_of_lt_of_le hi (reach_le ..)
      rw [getElem?_bytes _ hi32, getElem?_bytes _ hi32, fillInfo_set (hset i hi)]

end

/-- Two calls that differ in what was on the kernel stack leave the same user memory when no byte
that is not written gets to the user; and only then, unless the caller maps a free page. -/
theorem psinfo_same_iff (c : Caller) (ps : Slot → ProcEntry) (addr : Word) (max : Int) :
    (Clean c ps addr max → ∀ stack stack', userMemory (c.psinfo ps addr max stack) =
      userMemory (c.psinfo ps addr max stack')) ∧
    (Fresh c.pagetable c.mem.free →
      ((∀ stack stack', userMemory (c.psinfo ps addr max stack) =
        userMemory (c.psinfo ps addr max stack')) ↔ Clean c ps addr max)) := by
  have hsame (h : Clean c ps addr max) (stack stack' : Nat → Byte) :
      userMemory (c.psinfo ps addr max stack) = userMemory (c.psinfo ps addr max stack') := by
    rw [h.psinfo_eq stack stack']
  refine ⟨hsame, fun hF => ⟨fun hsame => ?_, hsame⟩⟩
  by_contra hclean
  unfold Clean at hclean
  push Not at hclean
  obtain ⟨hmax, p, hp, b, hb, hun⟩ := hclean
  have hmax' : ¬ max ≤ 0 := by omega
  obtain ⟨view, hview, hat⟩ := psinfo_leaks hF hp hmax' hun hb fun _ => 0
  obtain ⟨view', hview', hat'⟩ := psinfo_leaks hF hp hmax' hun hb fun _ => 1
  rw [hsame _ fun _ => 1, hview'] at hview
  cases hview
  rw [hat] at hat'
  exact absurd hat' (by decide)

/-! A caller with one page of memory, and one process. -/

def onePageCaller : Caller where
  pagetable := onePage
  sz := pgSize
  mem := ⟨[], fun _ _ => 0⟩

theorem onePageCaller_fresh : Fresh onePageCaller.pagetable onePageCaller.mem.free :=
  ⟨List.nodup_nil, fun _ _ _ => List.not_mem_nil⟩

def shell : ProcEntry := ⟨.running, 1, cstr ['s', 'h']⟩

/-- The page ends after six bytes of the record. -/
theorem psinfo_same_iff_cut : userMemory (onePageCaller.psinfo (fun _ => shell) 4090 1 fun _ => 0) =
    userMemory (onePageCaller.psinfo (fun _ => shell) 4090 1 fun _ => 1) := by
  refine ((psinfo_same_iff onePageCaller (fun _ => shell) 4090 1).2 onePageCaller_fresh).mpr
    (.inr fun p hp => ?_) _ _
  obtain rfl : shell = p := Option.some.inj hp
  decide +kernel

theorem psinfo_padding : ∃ view view',
    userMemory (onePageCaller.psinfo (fun _ => shell) 0 1 fun _ => 0) = some view ∧
    userMemory (onePageCaller.psinfo (fun _ => shell) 0 1 fun _ => 1) = some view' ∧
    view 30 = some 0 ∧ view' 30 = some 1 := by
  have hreach : 30 < reach onePageCaller.pagetable onePageCaller.sz (0 : Word).toNat infoSize
      onePageCaller.mem.free := by decide +kernel
  have hfirst : firstUsed (fun _ => shell) = some shell := rfl
  have hun : Unset shell 30 := .inr (.inr (Nat.le_refl 30))
  have leak (x : Byte) : ∃ view, userMemory (onePageCaller.psinfo (fun _ => shell) 0 1 fun _ => x) =
      some view ∧ view 30 = some x :=
    psinfo_leaks onePageCaller_fresh hfirst (by decide) hun hreach fun _ => x
  obtain ⟨view, hview, hat⟩ := leak 0
  obtain ⟨view', hview', hat'⟩ := leak 1
  exact ⟨view, view', hview, hview', hat, hat'⟩

end OsLab
