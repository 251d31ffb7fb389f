import Mathlib.Data.List.GetD
import Mathlib.Logic.Function.Basic

/-!
# Strings in memory

Byte arrays are functions on indices; a region that may have holes is a partial
one. `StrAt f a s` says that the string `s` and its NUL are at index `a`.
-/

namespace OsLab

abbrev Byte := BitVec 8

def StrAt (f : Nat → Option Byte) : Nat → List Byte → Prop
  | a, [] => f a = some 0
  | a, b :: s => b ≠ 0 ∧ f a = some b ∧ StrAt f (a + 1) s

def takeStr (f : Nat → Option Byte) : Nat → Nat → List Byte
  | _, 0 => []
  | a, n + 1 =>
    match f a with
    | none => []
    | some b => if b = 0 then [] else b :: takeStr f (a + 1) n

section
variable {f g : Nat → Option Byte} {a b n : Nat} {s : List Byte}

theorem StrAt.takeStr (h : StrAt f a s) (hn : s.length ≤ n) : takeStr f a n = s := by
  induction s generalizing a n with
  | nil =>
    cases n with
    | zero => rfl
    | succ n => unfold OsLab.takeStr; rw [show f a = some 0 from h]; rfl
  | cons c s ih =>
    cases n with
    | zero => cases hn
    | succ n =>
      obtain ⟨hc, hf, hs⟩ := h
      unfold OsLab.takeStr
      rw [hf]
      dsimp only
      rw [if_neg hc, ih hs (Nat.le_of_succ_le_succ hn)]

theorem StrAt.congr (h : StrAt f a s) (hg : ∀ i ≤ s.length, g (b + i) = f (a + i)) :
    StrAt g b s := by
  induction s generalizing a b with
  | nil => exact (hg 0 (Nat.le_refl _)).trans h
  | cons c s ih =>
    obtain ⟨hc, hf, hs⟩ := h
    refine ⟨hc, (hg 0 (Nat.zero_le _)).trans hf, ih hs fun i hi => ?_⟩
    have := hg (i + 1) (Nat.succ_le_succ hi)
    rw [Nat.add_right_comm, Nat.add_right_comm a]
    exact this

theorem StrAt.get (h : StrAt f a s) {i : Nat} (hi : i ≤ s.length) :
    f (a + i) = some ((s ++ [0]).getD i 0) := by
  induction s generalizing a i with
  | nil =>
    obtain rfl : i = 0 := Nat.le_zero.mp hi
    exact h
  | cons c s ih =>
    cases i with
    | zero => exact h.2.1
    | succ i =>
      rw [← Nat.add_assoc, Nat.add_right_comm]
      exact ih h.2.2 (Nat.le_of_succ_le_succ hi)

end

def bytes (s : Nat → Byte) (n : Nat) : List Byte := (List.range n).map s

@[simp] theorem length_bytes (s : Nat → Byte) (n : Nat) : (bytes s n).length = n := by
  simp [bytes]

@[simp] theorem getElem_bytes (s : Nat → Byte) (n i : Nat) (h : i < (bytes s n).length) :
    (bytes s n)[i] = s i := by
  simp [bytes]

theorem getElem?_bytes (s : Nat → Byte) {n i : Nat} (h : i < n) : (bytes s n)[i]? = some (s i) := by
  rw [List.getElem?_eq_getElem (by simpa using h), getElem_bytes]

def wordBytes (v : BitVec 32) : List Byte := bytes (fun b => (v >>> (8 * b)).setWidth 8) 4

@[simp] theorem length_wordBytes (v : BitVec 32) : (wordBytes v).length = 4 := length_bytes ..

def wordOf (bs : List Byte) : BitVec 32 :=
  BitVec.ofNat 32 (bs.foldr (fun b n => b.toNat + 256 * n) 0)

theorem wordOf_low (b : Byte) (bs : List Byte) : (wordOf (b :: bs)).setWidth 8 = b := by
  apply BitVec.eq_of_toNat_eq
  simp only [wordOf, List.foldr_cons, BitVec.toNat_setWidth, BitVec.toNat_ofNat]
  omega

/-! ## `strlen` -/

def strlen (s : Nat → Byte) : Nat → Nat → Nat
  | _, 0 => 0
  | a, n + 1 => if s a = 0 then 0 else strlen s (a + 1) n + 1

section
variable {t dst : Nat → Byte} {a b k n : Nat} {s : List Byte}

theorem strlen_le (t : Nat → Byte) (a n : Nat) : strlen t a n ≤ n := by
  induction n generalizing a with
  | zero => exact Nat.le_refl _
  | succ n ih =>
    unfold strlen
    split
    · exact Nat.zero_le _
    · exact Nat.succ_le_succ (ih _)

theorem strlen_nul (h : strlen t a n < n) : t (a + strlen t a n) = 0 := by
  induction n generalizing a with
  | zero => cases h
  | succ n ih =>
    unfold strlen at h ⊢
    split
    · assumption
    · rename_i hne
      rw [if_neg hne] at h
      rw [← Nat.add_assoc, Nat.add_right_comm]
      exact ih (Nat.lt_of_succ_lt_succ h)

theorem StrAt.strlen (h : StrAt (fun i => some (t i)) a s) (hn : s.length ≤ n) :
    strlen t a n = s.length := by
  induction s generalizing a n with
  | nil =>
    cases n with
    | zero => rfl
    | succ n => exact if_pos (Option.some.inj h)
  | cons c s ih =>
    cases n with
    | zero => cases hn
    | succ n =>
      obtain ⟨hc, hf, hs⟩ := h
      unfold OsLab.strlen
      rw [if_neg (Option.some.inj hf ▸ hc), ih hs (Nat.le_of_succ_le_succ hn)]
      rfl

/-! ## Copying out of a region with holes -/

/-- Copy the string at index `a` to index `k` of `dst`, `n` bytes at most: whether its NUL
has been copied, and the array. -/
def copyStr (f : Nat → Option Byte) : Nat → (Nat → Byte) → Nat → Nat → Bool × (Nat → Byte)
  | _, dst, _, 0 => (false, dst)
  | a, dst, k, n + 1 =>
    match f a with
    | none => (false, dst)
    | some c =>
      if c = 0 then (true, Function.update dst k 0)
      else copyStr f (a + 1) (Function.update dst k c) (k + 1) n

theorem copyStr_some {f : Nat → Option Byte} {c : Byte} (h : f a = some c) :
    copyStr f a dst k (n + 1) = if c = 0 then (true, Function.update dst k 0)
      else copyStr f (a + 1) (Function.update dst k c) (k + 1) n := by
  rw [copyStr, h]

theorem StrAt.copyStr {f : Nat → Option Byte} (h : StrAt f a s) (hn : s.length < n) :
    (copyStr f a dst k n).1 = true := by
  induction s generalizing a dst k n with
  | nil =>
    cases n with
    | zero => cases hn
    | succ n =>
      rw [copyStr_some (show f a = some 0 from h)]
      rfl
  | cons c s ih =>
    cases n with
    | zero => cases hn
    | succ n =>
      obtain ⟨hc, hf, hs⟩ := h
      rw [copyStr_some hf, if_neg hc]
      exact ih hs (Nat.lt_of_succ_lt_succ hn)

theorem copyStr_spec {f : Nat → Option Byte} (h : (copyStr f a dst k n).1 = true) :
    (∀ i < k, (copyStr f a dst k n).2 i = dst i) ∧
    ∃ s, StrAt f a s ∧ s.length < n ∧ StrAt (fun i => some ((copyStr f a dst k n).2 i)) k s := by
  induction n generalizing a dst k with
  | zero => cases h
  | succ n ih =>
    unfold copyStr at h ⊢
    cases hf : f a with
    | none => rw [hf] at h; cases h
    | some c =>
      rw [hf] at h
      dsimp only at h ⊢
      split at h
      · rename_i hc
        rw [if_pos hc]
        refine ⟨fun i hi => Function.update_of_ne (by omega) .., [], hf.trans (congrArg some hc),
          Nat.succ_pos n, ?_⟩
        exact congrArg some (Function.update_self ..)
      · rename_i hc
        rw [if_neg hc]
        obtain ⟨hlow, s, hs, hlen, hd⟩ := ih h
        refine ⟨fun i hi => ?_, c :: s, ⟨hc, hf, hs⟩, Nat.succ_lt_succ hlen, hc, ?_, hd⟩
        · rw [hlow i (by omega), Function.update_of_ne (by omega)]
        · exact congrArg some ((hlow k (Nat.lt_succ_self k)).trans (Function.update_self ..))

/-! ## `safestrcpy` -/

/-- `while(--n > 0 && (*s++ = *t++) != 0);` with `n` copies left, the next one at index
`k`. Returns the array and the index reached. -/
def safestrcpyLoop (t : Nat → Byte) (b : Nat) : (Nat → Byte) → Nat → Nat → (Nat → Byte) × Nat
  | dst, k, 0 => (dst, k)
  | dst, k, n + 1 =>
    let dst := Function.update dst (b + k) (t k)
    if t k = 0 then (dst, k + 1) else safestrcpyLoop t b dst (k + 1) n

def safestrcpy (dst : Nat → Byte) (b : Nat) (t : Nat → Byte) (n : Nat) : Nat → Byte :=
  match n with
  | 0 => dst
  | n + 1 =>
    let (dst, k) := safestrcpyLoop t b dst 0 n
    Function.update dst (b + k) 0

theorem safestrcpyLoop_end (t : Nat → Byte) (b : Nat) (dst : Nat → Byte) (k n : Nat) :
    (safestrcpyLoop t b dst k n).2 =
    k + strlen t k n + if strlen t k n < n then 1 else 0 := by
  induction n generalizing dst k with
  | zero => rfl
  | succ n ih =>
    unfold safestrcpyLoop strlen
    dsimp only
    split
    · rfl
    · rw [ih]
      simp only [Nat.succ_lt_succ_iff]
      omega

theorem safestrcpyLoop_get (t : Nat → Byte) (b : Nat) (dst : Nat → Byte) (k n i : Nat) :
    (safestrcpyLoop t b dst k n).1 i =
    if b + k ≤ i ∧ i < b + (safestrcpyLoop t b dst k n).2 then t (i - b) else dst i := by
  induction n generalizing dst k with
  | zero =>
    rw [if_neg]
    · rfl
    · change ¬ (b + k ≤ i ∧ i < b + k)
      omega
  | succ n ih =>
    unfold safestrcpyLoop
    dsimp only
    split
    · dsimp only
      by_cases hi : i = b + k
      · subst hi
        rw [Function.update_self, if_pos (by omega), Nat.add_sub_cancel_left]
      · rw [Function.update_of_ne hi, if_neg (by omega)]
    · rw [ih]
      have hend : k + 1 ≤ (safestrcpyLoop t b (Function.update dst (b + k) (t k)) (k + 1) n).2 := by
        rw [safestrcpyLoop_end]; omega
      by_cases hi : i = b + k
      · subst hi
        rw [if_neg (by omega), if_pos (by omega), Function.update_self, Nat.add_sub_cancel_left]
      · rw [Function.update_of_ne hi]
        refine if_congr ?_ rfl rfl
        omega

def strWritten (t : Nat → Byte) (n : Nat) : Nat := min (strlen t 0 (n - 1) + 2) n

theorem safestrcpy_get (dst : Nat → Byte) (b : Nat) (t : Nat → Byte) (n i : Nat) :
    safestrcpy dst b t n i =
      if b ≤ i ∧ i < b + strWritten t n then
        if i - b < strlen t 0 (n - 1) then t (i - b) else 0
      else dst i := by
  cases n with
  | zero =>
    rw [if_neg]
    · rfl
    · unfold strWritten; omega
  | succ n =>
    unfold safestrcpy strWritten
    dsimp only
    rw [Nat.add_sub_cancel]
    have hle := strlen_le t 0 n
    have hend := safestrcpyLoop_end t b dst 0 n
    have hget := safestrcpyLoop_get t b dst 0 n i
    have hnul := strlen_nul (t := t) (a := 0) (n := n)
    rw [Nat.zero_add] at hend hnul
    generalize (safestrcpyLoop t b dst 0 n).2 = e at hend hget ⊢
    generalize strlen t 0 n = l at *
    by_cases hi : i = b + e
    · rw [hi, Function.update_self, if_pos, if_neg]
      · split at hend <;> omega
      · split at hend <;> omega
    · rw [Function.update_of_ne hi, hget]
      split
      · rename_i h
        rw [if_pos (by split at hend <;> omega)]
        split
        · rfl
        · -- the NUL that ended the loop
          have hl : l < n := by split at hend <;> omega
          rw [if_pos hl] at hend
          rw [show i - b = l by omega, hnul hl]
      · rename_i h
        rw [if_neg (by split at hend <;> omega)]

theorem StrAt.safestrcpy (h : StrAt (fun i => some (t i)) 0 s) (hn : s.length < n) :
    StrAt (fun i => some (safestrcpy dst b t n i)) b s := by
  have hlen : OsLab.strlen t 0 (n - 1) = s.length := h.strlen (by omega)
  refine h.congr fun i hi => congrArg some ?_
  rw [safestrcpy_get, if_pos (by unfold strWritten; omega), Nat.add_sub_cancel_left, hlen,
    Nat.zero_add]
  split
  · rfl
  · obtain rfl : i = s.length := by omega
    have hnul := Option.some.inj (h.get (Nat.le_refl s.length))
    rw [Nat.zero_add] at hnul
    rw [hnul]
    simp

end

end OsLab
