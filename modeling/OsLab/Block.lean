import OsLab.CString

/-!
# Disk blocks

A block as its bytes, and the little-endian words in it.
-/

namespace OsLab

abbrev Block := Nat → Byte

namespace Block

def word (d : Block) (i : Nat) : BitVec 32 :=
  wordOf [d (4 * i), d (4 * i + 1), d (4 * i + 2), d (4 * i + 3)]

def setWord (d : Block) (i : Nat) (v : BitVec 32) : Block := fun k =>
  if k / 4 = i then (v >>> (8 * (k % 4))).setWidth 8 else d k

def setWords (d : Block) (i : Nat) : List (BitVec 32) → Block
  | [] => d
  | v :: vs => setWords (d.setWord i v) (i + 1) vs

section
variable {d : Block} {i j k : Nat} {v : BitVec 32} {vs : List (BitVec 32)}

theorem setWord_byte (hk : k < 4) :
    d.setWord i v (4 * i + k) = (v >>> (8 * k)).setWidth 8 := by
  have hdiv : (4 * i + k) / 4 = i := by omega
  have hmod : (4 * i + k) % 4 = k := by omega
  rw [setWord, hdiv, hmod, if_pos rfl]

theorem setWord_other (hk : k / 4 ≠ i) : d.setWord i v k = d k := if_neg hk

theorem word_setWord_self : (d.setWord i v).word i = v := by
  have h0 : d.setWord i v (4 * i) = (v >>> (8 * 0)).setWidth 8 := setWord_byte (k := 0) (by decide)
  rw [word, h0, setWord_byte (by decide), setWord_byte (by decide), setWord_byte (by decide)]
  apply BitVec.eq_of_toNat_eq
  have := v.isLt
  simp only [wordOf, List.foldr_cons, List.foldr_nil, BitVec.toNat_ofNat, BitVec.toNat_setWidth,
    BitVec.toNat_ushiftRight, Nat.shiftRight_eq_div_pow]
  omega

theorem word_setWord_ne (h : j ≠ i) : (d.setWord i v).word j = d.word j := by
  have hother (k : Nat) (hk : k < 4) : d.setWord i v (4 * j + k) = d (4 * j + k) :=
    setWord_other (by omega)
  rw [word, word, hother 1 (by decide), hother 2 (by decide), hother 3 (by decide)]
  rw [show d.setWord i v (4 * j) = d (4 * j) from hother 0 (by decide)]

theorem word_setWords_before (h : j < i) : (d.setWords i vs).word j = d.word j := by
  induction vs generalizing d i with
  | nil => rfl
  | cons v vs ih => rw [setWords, ih (by omega), word_setWord_ne (by omega)]

theorem word_setWords_after (h : i + vs.length ≤ j) : (d.setWords i vs).word j = d.word j := by
  induction vs generalizing d i with
  | nil => rfl
  | cons v vs ih =>
    rw [List.length_cons] at h
    rw [setWords, ih (by omega), word_setWord_ne (by omega)]

theorem word_setWords (h : vs[k]? = some v) : (d.setWords i vs).word (i + k) = v := by
  induction vs generalizing d i k with
  | nil => simp at h
  | cons w vs ih =>
    rw [setWords]
    cases k with
    | zero =>
      obtain rfl : w = v := by simpa using h
      rw [word_setWords_before (by omega), Nat.add_zero, word_setWord_self]
    | succ k =>
      rw [show i + (k + 1) = i + 1 + k by omega]
      exact ih (by simpa using h)

end

end Block

end OsLab
