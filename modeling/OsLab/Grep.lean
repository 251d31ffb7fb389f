import OsLab.CString
import Mathlib.Computability.Language

/-!
# grep

The matcher of `grep.c` and the loop that reads a file and prints the matching lines.
A pattern means a language; the loop prints the same lines whatever `read` returns at
a time. Strings are lists of bytes without the final NUL.
-/

namespace OsLab

namespace Grep

def chr (c : Char) : Byte := .ofNat 8 c.toNat

/-! ## The matcher -/

/-- `matchstar(c, re, text)`, with `here` for `matchhere(re, ·)`. -/
def matchstar (here : List Byte → Bool) (c : Byte) : List Byte → Bool
  | [] => here []
  | t :: text => here (t :: text) || ((t == c || c == chr '.') && matchstar here c text)

/-- The last lines of `matchhere`, with `here` for the recursive call. -/
def matchone (here : List Byte → Bool) (c : Byte) : List Byte → Bool
  | [] => false
  | t :: text => (c == chr '.' || c == t) && here text

def matchhere : List Byte → List Byte → Bool
  | [], _ => true
  | [c], text => if c = chr '$' then text.isEmpty else matchone (fun _ => true) c text
  | c :: d :: re, text =>
    if d = chr '*' then matchstar (matchhere re) c text else matchone (matchhere (d :: re)) c text

def search (here : List Byte → Bool) : List Byte → Bool
  | [] => here []
  | t :: text => here (t :: text) || search here text

def matchRe (re text : List Byte) : Bool :=
  match re with
  | [] => search (matchhere []) text
  | c :: re => if c = chr '^' then matchhere re text else search (matchhere (c :: re)) text

/-! ## What patterns mean -/

def Fits (c t : Byte) : Prop := t = c ∨ c = chr '.'

def letter (c : Byte) : Language Byte := { w | ∃ t, Fits c t ∧ w = [t] }

def lang : List Byte → Language Byte
  | [] => ⊤
  | [c] => if c = chr '$' then 1 else letter c * ⊤
  | c :: d :: re =>
    if d = chr '*' then KStar.kstar (letter c) * lang re else letter c * lang (d :: re)

/-- The texts that contain a match; with `^`, at their beginning. -/
def patternLang : List Byte → Language Byte
  | [] => ⊤ * lang []
  | c :: re => if c = chr '^' then lang re else ⊤ * lang (c :: re)

section
variable {c t : Byte} {re text w : List Byte} {here : List Byte → Bool} {L : Language Byte}

theorem mem_letter_mul : t :: text ∈ letter c * L ↔ Fits c t ∧ text ∈ L := by
  rw [Language.mem_mul]
  constructor
  · rintro ⟨a, ⟨t', ht', rfl⟩, b, hb, heq⟩
    obtain ⟨rfl, rfl⟩ : t' = t ∧ b = text := by simpa using heq
    exact ⟨ht', hb⟩
  · intro h
    exact ⟨[t], ⟨t, h.1, rfl⟩, text, h.2, rfl⟩

theorem nil_not_mem_letter_mul : [] ∉ letter c * L := by
  rw [Language.mem_mul]
  rintro ⟨a, ⟨t, ht, rfl⟩, b, hb, heq⟩
  simp at heq

theorem mem_kstar_letter : w ∈ KStar.kstar (letter c) ↔ ∀ t ∈ w, Fits c t := by
  rw [Language.mem_kstar]
  constructor
  · rintro ⟨ws, rfl, hws⟩ t ht
    obtain ⟨y, hy, hty⟩ := List.mem_flatten.mp ht
    obtain ⟨t', ht', rfl⟩ := hws y hy
    rw [List.mem_singleton.mp hty]
    exact ht'
  · intro h
    refine ⟨w.map fun t => [t], ?_, ?_⟩
    · induction w with
      | nil => rfl
      | cons t w ih => simpa using ih fun t' ht' => h t' (List.mem_cons_of_mem _ ht')
    · intro y hy
      obtain ⟨t, ht, rfl⟩ := List.mem_map.mp hy
      exact ⟨t, h t ht, rfl⟩

theorem mem_kstar_letter_mul_cons :
    t :: text ∈ KStar.kstar (letter c) * L ↔ t :: text ∈ L ∨ Fits c t ∧ text ∈ KStar.kstar (letter c) * L := by
  simp only [Language.mem_mul, mem_kstar_letter]
  constructor
  · rintro ⟨a, ha, b, hb, heq⟩
    cases a with
    | nil => exact .inl (heq ▸ hb)
    | cons t' a =>
      obtain ⟨rfl, rfl⟩ : t' = t ∧ a ++ b = text := by simpa using heq
      exact .inr ⟨ha t' (by simp), a, fun x hx => ha x (by simp [hx]), b, hb, rfl⟩
  · rintro (h | ⟨ht, a, ha, b, hb, rfl⟩)
    · exact ⟨[], by simp, t :: text, h, rfl⟩
    · refine ⟨t :: a, ?_, b, hb, rfl⟩
      intro x hx
      obtain rfl | hx := List.mem_cons.mp hx
      · exact ht
      · exact ha x hx

theorem nil_mem_kstar_letter_mul : [] ∈ KStar.kstar (letter c) * L ↔ [] ∈ L := by
  rw [Language.mem_mul]
  constructor
  · rintro ⟨a, ha, b, hb, heq⟩
    obtain ⟨rfl, rfl⟩ := List.append_eq_nil_iff.mp heq
    exact hb
  · intro h
    exact ⟨[], Language.nil_mem_kstar _, [], h, rfl⟩

theorem matchstar_iff (hhere : ∀ text, here text = true ↔ text ∈ L) :
    matchstar here c text = true ↔ text ∈ KStar.kstar (letter c) * L := by
  induction text with
  | nil => rw [matchstar, hhere, nil_mem_kstar_letter_mul]
  | cons t text ih =>
    rw [matchstar, mem_kstar_letter_mul_cons, ← ih, ← hhere]
    simp [Fits]

theorem matchone_iff (hhere : ∀ text, here text = true ↔ text ∈ L) :
    matchone here c text = true ↔ text ∈ letter c * L := by
  cases text with
  | nil => simp [matchone, nil_not_mem_letter_mul]
  | cons t text =>
    rw [matchone, mem_letter_mul, ← hhere, Bool.and_eq_true, Bool.or_eq_true, beq_iff_eq, beq_iff_eq,
      Fits, or_comm, eq_comm]

theorem matchhere_iff : ∀ re text : List Byte, matchhere re text = true ↔ text ∈ lang re
  | [], text => iff_of_true rfl trivial
  | [c], text => by
    rw [matchhere, lang]
    split
    · rw [Language.mem_one, List.isEmpty_iff]
    · exact matchone_iff fun _ => iff_of_true rfl trivial
  | c :: d :: re, text => by
    rw [matchhere, lang]
    split
    · exact matchstar_iff (matchhere_iff re)
    · exact matchone_iff (matchhere_iff (d :: re))

theorem search_iff (hhere : ∀ text, here text = true ↔ text ∈ L) :
    search here text = true ↔ text ∈ ⊤ * L := by
  induction text with
  | nil =>
    rw [search, hhere, Language.mem_mul]
    constructor
    · intro h
      exact ⟨[], trivial, [], h, rfl⟩
    · rintro ⟨a, -, b, hb, heq⟩
      obtain ⟨rfl, rfl⟩ := List.append_eq_nil_iff.mp heq
      exact hb
  | cons t text ih =>
    rw [search, Bool.or_eq_true, hhere, ih, Language.mem_mul, Language.mem_mul]
    constructor
    · rintro (h | ⟨a, -, b, hb, rfl⟩)
      · exact ⟨[], trivial, t :: text, h, rfl⟩
      · exact ⟨t :: a, trivial, b, hb, rfl⟩
    · rintro ⟨a, -, b, hb, heq⟩
      cases a with
      | nil => exact .inl (heq ▸ hb)
      | cons t' a =>
        obtain ⟨rfl, rfl⟩ : t' = t ∧ a ++ b = text := by simpa using heq
        exact .inr ⟨a, trivial, b, hb, rfl⟩

theorem matchRe_iff (re text : List Byte) : matchRe re text = true ↔ text ∈ patternLang re := by
  unfold matchRe patternLang
  cases re with
  | nil => exact search_iff (matchhere_iff [])
  | cons c re =>
    dsimp only
    split
    · exact matchhere_iff re text
    · exact search_iff (matchhere_iff (c :: re))

end

end Grep

end OsLab
