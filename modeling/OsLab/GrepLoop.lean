import OsLab.Grep

/-!
# The loop of grep

`grep` reads into a buffer of 1024 bytes, prints the lines in it that match and keeps
the rest for the next `read`. However `read` cuts the file, the matching lines are
printed, up to the first line that does not fit into the buffer.
-/

namespace OsLab

namespace Grep

def bufSize : Nat := 1024

def newline : Byte := chr '\n'

def strchr (c : Byte) : List Byte → Option Nat
  | [] => none
  | b :: s => if b = 0 then none else if b = c then some 0 else (strchr c s).map (· + 1)

/-- The inner loop, from `p` on: what is written and what is left. Each turn uses up a byte. -/
def scanLoop (pattern : List Byte) : Nat → List Byte → List Byte × List Byte
  | 0, p => ([], p)
  | fuel + 1, p =>
    match strchr newline p with
    | none => ([], p)
    | some q =>
      let r := scanLoop pattern fuel (p.drop (q + 1))
      ((if matchRe pattern (p.take q) then p.take (q + 1) else []) ++ r.1, r.2)

def scan (pattern p : List Byte) : List Byte × List Byte := scanLoop pattern p.length p

/-- `grep`, with `buf` in the buffer and `text` left in the file, may write `out`: `read` returns some
bytes, as long as there are any and there is room for them. -/
inductive Greps (pattern : List Byte) : List Byte → List Byte → List Byte → Prop
  | stop {buf text : List Byte} (h : text = [] ∨ bufSize - buf.length - 1 = 0) :
    Greps pattern buf text []
  | read {buf chunk text out : List Byte} (hne : chunk ≠ []) (hle : chunk.length ≤ bufSize - buf.length - 1)
    (h : Greps pattern (scan pattern (buf ++ chunk)).2 text out) :
    Greps pattern buf (chunk ++ text) ((scan pattern (buf ++ chunk)).1 ++ out)

/-- The loop of `grep` where `cut` decides how many bytes a `read` returns. -/
def grepLoop (pattern : List Byte) (cut : List Byte → List Byte → Nat) :
    Nat → List Byte → List Byte → Option (List Byte)
  | 0, _, _ => none
  | fuel + 1, buf, text =>
    let n := min (max 1 (cut buf text)) (min (bufSize - buf.length - 1) text.length)
    if n = 0 then some []
    else
      let r := scan pattern (buf ++ text.take n)
      (grepLoop pattern cut fuel r.2 (text.drop n)).map (r.1 ++ ·)

/-! ## Lines -/

/-- The lines of a text that end in a newline, without it, and what is after the last one. -/
def lines : List Byte → List (List Byte) × List Byte
  | [] => ([], [])
  | b :: s =>
    let r := lines s
    if b = newline then ([] :: r.1, r.2)
    else
      match r.1 with
      | [] => ([], b :: r.2)
      | l :: ls => ((b :: l) :: ls, r.2)

def printed (pattern : List Byte) (ls : List (List Byte)) : List Byte :=
  (ls.filter (matchRe pattern)).flatMap (· ++ [newline])

section
variable {pattern s t l p buf text out : List Byte} {b : Byte} {q : Nat}

theorem lines_newline (s : List Byte) : lines (newline :: s) = ([] :: (lines s).1, (lines s).2) := by
  rw [lines, if_pos rfl]

theorem lines_plain (h : newline ∉ s) : lines s = ([], s) := by
  induction s with
  | nil => rfl
  | cons b s ih =>
    obtain ⟨hb, hs⟩ := List.ne_and_not_mem_of_not_mem_cons h
    rw [lines, ih hs, if_neg (Ne.symm hb)]

theorem lines_line (h : newline ∉ l) (s : List Byte) :
    lines (l ++ newline :: s) = (l :: (lines s).1, (lines s).2) := by
  induction l with
  | nil => exact lines_newline s
  | cons b l ih =>
    obtain ⟨hb, hl⟩ := List.ne_and_not_mem_of_not_mem_cons h
    rw [List.cons_append, lines, ih hl, if_neg (Ne.symm hb)]

/-- Lines of a text in two pieces: what is left of the first goes to the second. -/
theorem lines_append (s t : List Byte) : lines (s ++ t) =
    ((lines s).1 ++ (lines ((lines s).2 ++ t)).1, (lines ((lines s).2 ++ t)).2) := by
  induction s with
  | nil => simp [lines]
  | cons b s ih =>
    by_cases hb : b = newline
    · subst hb
      rw [List.cons_append, lines_newline, lines_newline, ih]
      rfl
    · rw [List.cons_append, lines, ih]
      cases hs : (lines s).1 with
      | cons l ls => simp [lines, hb, hs]
      | nil => simp [lines, hb, hs]

theorem le_first_line {ls : List (List Byte)} (h : newline ∉ s) (hls : (lines (s ++ t)).1 = l :: ls) :
    s.length ≤ l.length := by
  induction s generalizing l ls with
  | nil => exact Nat.zero_le _
  | cons b s ih =>
    obtain ⟨hb, hs⟩ := List.ne_and_not_mem_of_not_mem_cons h
    rw [List.cons_append, lines, if_neg (Ne.symm hb)] at hls
    cases hls' : (lines (s ++ t)).1 with
    | nil => rw [hls'] at hls; cases hls
    | cons l' ls' =>
      rw [hls'] at hls
      cases hls
      exact Nat.succ_le_succ (ih hs hls')

theorem lines_join (s : List Byte) : (lines s).1.flatMap (· ++ [newline]) ++ (lines s).2 = s := by
  induction s with
  | nil => rfl
  | cons b s ih =>
    rw [lines]
    split
    · rename_i hb
      simpa [hb] using ih
    · split
      · rename_i hnil
        simpa [hnil] using ih
      · rename_i l ls hls
        simpa [hls] using ih

theorem lines_tail (s : List Byte) : newline ∉ (lines s).2 := by
  induction s with
  | nil => simp [lines]
  | cons b s ih =>
    rw [lines]
    split
    · exact ih
    · rename_i hb
      split
      · exact List.not_mem_cons_of_ne_of_not_mem (Ne.symm hb) ih
      · exact ih

theorem lines_suffix (s : List Byte) : (lines s).2 <:+ s := ⟨_, lines_join s⟩

theorem length_line (hl : l ∈ (lines s).1) : l.length < s.length := by
  have hsub : (l ++ [newline]).Sublist ((lines s).1.flatMap (· ++ [newline])) :=
    List.sublist_flatten_of_mem (List.mem_map_of_mem hl)
  have hle := hsub.length_le
  have hjoin := congrArg List.length (lines_join s)
  rw [List.length_append, List.length_singleton] at hle
  rw [List.length_append] at hjoin
  omega

/-! ## The inner loop -/

theorem strchr_none (hnul : 0 ∉ p) (h : strchr newline p = none) : newline ∉ p := by
  induction p with
  | nil => simp
  | cons b p ih =>
    obtain ⟨hb, hp⟩ := List.ne_and_not_mem_of_not_mem_cons hnul
    rw [strchr, if_neg (Ne.symm hb)] at h
    split at h
    · cases h
    · rename_i hne
      exact List.not_mem_cons_of_ne_of_not_mem (Ne.symm hne) (ih hp (Option.map_eq_none_iff.mp h))

theorem strchr_some (h : strchr newline p = some q) :
    newline ∉ p.take q ∧ p = p.take q ++ newline :: p.drop (q + 1) := by
  induction p generalizing q with
  | nil => cases h
  | cons b p ih =>
    rw [strchr] at h
    split at h
    · cases h
    · split at h
      · rename_i hb
        cases h
        exact ⟨by simp, by simp [hb]⟩
      · rename_i hne
        obtain ⟨q', hq', rfl⟩ := Option.map_eq_some_iff.mp h
        obtain ⟨hno, heq⟩ := ih hq'
        refine ⟨by simpa using ⟨Ne.symm hne, hno⟩, ?_⟩
        rw [List.take_succ_cons, List.drop_succ_cons, List.cons_append, ← heq]

theorem scanLoop_eq {fuel : Nat} (hnul : 0 ∉ p) (hfuel : p.length ≤ fuel) :
    scanLoop pattern fuel p = (printed pattern (lines p).1, (lines p).2) := by
  induction fuel generalizing p with
  | zero =>
    obtain rfl : p = [] := List.eq_nil_of_length_eq_zero (by omega)
    rfl
  | succ fuel ih =>
    rw [scanLoop]
    split
    · rename_i h
      rw [lines_plain (strchr_none hnul h)]
      rfl
    · rename_i q h
      obtain ⟨hno, heq⟩ := strchr_some h
      have hdrop : 0 ∉ p.drop (q + 1) := fun h0 => hnul (List.mem_of_mem_drop h0)
      have hlen : (p.drop (q + 1)).length ≤ fuel := by
        have hlt := congrArg List.length heq
        simp only [List.length_append, List.length_cons] at hlt
        omega
      have htake : p.take (q + 1) = p.take q ++ [newline] := by
        have hlt := congrArg List.length heq
        simp only [List.length_append, List.length_cons, List.length_take, List.length_drop] at hlt
        rw [List.take_succ_eq_append_getElem (by omega)]
        congr 2
        have hget : p[q]? = some newline := by
          rw [heq, List.getElem?_append_right (by simp)]
          simp [show min q p.length = q by omega]
        exact (List.getElem?_eq_some_iff.mp hget).2
      have hl : lines p = (p.take q :: (lines (p.drop (q + 1))).1, (lines (p.drop (q + 1))).2) := by
        rw [← lines_line hno, ← heq]
      rw [ih hdrop hlen, hl]
      simp only [printed, List.filter_cons]
      split
      · simp [htake]
      · simp

theorem scan_eq (hnul : 0 ∉ p) : scan pattern p = (printed pattern (lines p).1, (lines p).2) :=
  scanLoop_eq hnul (Nat.le_refl _)

/-! ## The outer loop -/

/-- The lines before the first one that does not fit into the buffer. -/
def fitting (text : List Byte) : List (List Byte) :=
  (lines text).1.takeWhile fun l => l.length + 1 < bufSize

theorem fitting_plain (h : newline ∉ buf) : fitting buf = [] := by
  rw [fitting, lines_plain h]
  rfl

theorem fitting_full (h : newline ∉ buf) (hfull : bufSize - buf.length - 1 = 0) :
    fitting (buf ++ text) = [] := by
  rw [fitting]
  cases hls : (lines (buf ++ text)).1 with
  | nil => rfl
  | cons l ls =>
    have := le_first_line h hls
    rw [List.takeWhile_cons_of_neg]
    rw [decide_eq_true_eq]
    omega

theorem fitting_append (h : s.length < bufSize) :
    fitting (s ++ t) = (lines s).1 ++ fitting ((lines s).2 ++ t) := by
  rw [fitting, lines_append, List.takeWhile_append_of_pos, fitting]
  intro l hl
  have := length_line hl
  exact decide_eq_true (by omega)

/-- Whatever `read` returns at a time, `grep` prints the matching lines before the first one that does
not fit into the buffer. -/
theorem greps_printed (hnul : 0 ∉ buf ++ text) (hbuf : newline ∉ buf) (hlen : buf.length < bufSize)
    (h : Greps pattern buf text out) : out = printed pattern (fitting (buf ++ text)) := by
  induction h with
  | stop hstop =>
    obtain rfl | hfull := hstop
    · rw [List.append_nil, fitting_plain hbuf]
      rfl
    · rw [fitting_full hbuf hfull]
      rfl
  | @read buf chunk text out hne hle hgreps ih =>
    rw [← List.append_assoc] at hnul ⊢
    have hhead : 0 ∉ buf ++ chunk := fun h0 => hnul (List.mem_append_left _ h0)
    have hsize : (buf ++ chunk).length < bufSize := by
      rw [List.length_append]
      omega
    rw [scan_eq hhead] at ih ⊢
    rw [ih ?_ (lines_tail _) (lt_of_le_of_lt (lines_suffix _).length_le hsize), fitting_append hsize]
    · simp [printed]
    · intro h0
      obtain h0 | h0 := List.mem_append.mp h0
      · exact hhead (List.IsSuffix.mem h0 (lines_suffix _))
      · exact hnul (List.mem_append_right _ h0)

theorem grepLoop_total {fuel : Nat} (cut : List Byte → List Byte → Nat) (h : text.length < fuel) :
    ∃ out, grepLoop pattern cut fuel buf text = some out ∧ Greps pattern buf text out := by
  induction fuel generalizing buf text with
  | zero => omega
  | succ fuel ih =>
    rw [grepLoop]
    generalize hn : min (max 1 (cut buf text)) (min (bufSize - buf.length - 1) text.length) = n
    dsimp only
    split
    · refine ⟨[], rfl, .stop ?_⟩
      rw [← List.length_eq_zero_iff]
      omega
    · -- a `read` takes at least one byte off the file
      have hlt : (text.drop n).length < fuel := by
        rw [List.length_drop]
        omega
      obtain ⟨out, hout, hgreps⟩ := @ih (scan pattern (buf ++ text.take n)).2 (text.drop n) hlt
      refine ⟨_, by rw [hout]; rfl, ?_⟩
      have htake : (text.take n).length = n := List.length_take_of_le (by omega)
      have hread := Greps.read (List.ne_nil_of_length_pos (by omega)) (by omega) hgreps
      rwa [List.take_append_drop] at hread

theorem grep_prints_matching_lines (hnul : 0 ∉ text) :
    (Greps pattern [] text out ↔ out = printed pattern (fitting text)) ∧
    ∀ cut, grepLoop pattern cut (text.length + 1) [] text = some (printed pattern (fitting text)) := by
  have hprints {out : List Byte} (h : Greps pattern [] text out) : out = printed pattern (fitting text) :=
    greps_printed hnul (by simp) (by decide) h
  have hends (cut : List Byte → List Byte → Nat) :
      grepLoop pattern cut (text.length + 1) [] text = some (printed pattern (fitting text)) ∧
        Greps pattern [] text (printed pattern (fitting text)) := by
    obtain ⟨out, hout, h⟩ := grepLoop_total cut (Nat.lt_succ_self _)
    rw [← hprints h]
    exact ⟨hout, h⟩
  refine ⟨⟨hprints, ?_⟩, fun cut => (hends cut).1⟩
  rintro rfl
  exact (hends fun _ _ => 1).2

theorem grep_prints_matching_lines_two :
    Greps [chr 'b'] [] ([chr 'a'] ++ ([chr 'b', newline, chr 'c', newline, chr 'b'] ++ []))
      ([] ++ ([chr 'a', chr 'b', newline] ++ [])) ∧
    [] ++ ([chr 'a', chr 'b', newline] ++ []) =
      printed [chr 'b'] (fitting ([chr 'a'] ++ ([chr 'b', newline, chr 'c', newline, chr 'b'] ++ []))) := by
  have h : Greps [chr 'b'] [] ([chr 'a'] ++ ([chr 'b', newline, chr 'c', newline, chr 'b'] ++ []))
      ([] ++ ([chr 'a', chr 'b', newline] ++ [])) :=
    .read (by simp) (by decide) (.read (by simp) (by decide) (.stop (.inl rfl)))
  exact ⟨h, (grep_prints_matching_lines (by decide)).1.mp h⟩

end

end Grep

end OsLab
