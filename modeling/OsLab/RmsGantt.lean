import Mathlib.Data.List.Chain
import OsLab.Rms

/-!
# The segments of a Gantt chart

`print_gantt` compresses a row of the timeline into segments: `sv` holds the
values and `se` the ticks at which the segments end. A segment is closed when
the next tick has another value or there is no next tick.
-/

namespace OsLab
namespace Rms

/-- The local variables of the loop: `segs` is the written part of `sv` and
`se`, whose length is `sc`. -/
structure GanttLoop where
  segs : List (Int × Nat)
  cur : Int

def ganttStep (h : Nat) (tl : Nat → Int) (s : GanttLoop) (i : Nat) : GanttLoop :=
  if i = h ∨ tl i ≠ s.cur then
    { segs := s.segs ++ [(s.cur, i)]
      cur := if i < h then tl i else s.cur }
  else s

def ganttSegments (h : Nat) (tl : Nat → Int) : List (Int × Nat) :=
  if h ≤ 0 then [] else ((List.range' 1 h).foldl (ganttStep h tl) { segs := [], cur := tl 0 }).segs

def expand (start : Nat) : List (Int × Nat) → List Int
  | [] => []
  | (v, stop) :: segs => List.replicate (stop - start) v ++ expand stop segs

inductive Encodes (tl : Nat → Int) : List (Int × Nat) → Nat → Prop
  | nil : Encodes tl [] 0
  | snoc {segs : List (Int × Nat)} {start stop : Nat} {v : Int} : Encodes tl segs start → start < stop →
      (∀ t, start ≤ t → t < stop → tl t = v) → (∀ p ∈ segs.getLast?, p.1 ≠ v) →
      Encodes tl (segs ++ [(v, stop)]) stop

section
variable {tl : Nat → Int} {segs : List (Int × Nat)} {stop : Nat}

theorem Encodes.last (h : Encodes tl segs stop) : (segs.map Prod.snd).getLast?.getD 0 = stop := by
  cases h with
  | nil => rfl
  | snoc => simp

theorem Encodes.ends_le (h : Encodes tl segs stop) : ∀ e ∈ segs.map Prod.snd, e ≤ stop := by
  induction h with
  | nil => intro e he; cases he
  | snoc _ hlt _ _ ih =>
    intro e he
    rw [List.map_append, List.mem_append] at he
    rcases he with he | he
    · exact Nat.le_trans (ih e he) (Nat.le_of_lt hlt)
    · rw [List.mem_singleton.1 he]

theorem Encodes.ends_increasing (h : Encodes tl segs stop) : (segs.map Prod.snd).Pairwise (· < ·) := by
  induction h with
  | nil => exact List.Pairwise.nil
  | snoc hs hlt _ _ ih =>
    rw [List.map_append, List.pairwise_append]
    refine ⟨ih, List.pairwise_singleton _ _, fun a ha b hb => ?_⟩
    rw [List.mem_singleton.1 hb]
    exact Nat.lt_of_le_of_lt (hs.ends_le a ha) hlt

theorem Encodes.length_le (h : Encodes tl segs stop) : segs.length ≤ stop := by
  induction h with
  | nil => exact Nat.le_refl 0
  | snoc _ hlt _ _ ih =>
    rw [List.length_append, List.length_singleton]
    omega

theorem Encodes.adjacent (h : Encodes tl segs stop) : (segs.map Prod.fst).IsChain (· ≠ ·) := by
  induction h with
  | nil => exact List.IsChain.nil
  | snoc _ _ _ hne ih =>
    rw [List.map_append, List.isChain_append]
    refine ⟨ih, List.isChain_singleton _, fun x hx y hy => ?_⟩
    rw [List.getLast?_map, Option.mem_def, Option.map_eq_some_iff] at hx
    obtain ⟨p, hp, rfl⟩ := hx
    cases hy
    exact hne p hp

theorem expand_snoc (v : Int) (stop : Nat) : ∀ (segs : List (Int × Nat)) (start : Nat),
    expand start (segs ++ [(v, stop)]) =
      expand start segs ++ List.replicate (stop - (segs.map Prod.snd).getLast?.getD start) v
  | [], start => by simp [expand]
  | (u, mid) :: segs, start => by
    rw [List.cons_append, expand, expand, expand_snoc v stop segs mid, List.append_assoc, List.map_cons,
      List.getLast?_cons]
    rfl

theorem Encodes.expand_eq (h : Encodes tl segs stop) : expand 0 segs = (List.range stop).map tl := by
  induction h with
  | nil => rfl
  | @snoc segs start stop v hs hlt hv _ ih =>
    have hblock : (List.range' start (stop - start)).map tl = List.replicate (stop - start) v := by
      rw [List.eq_replicate_iff]
      refine ⟨by simp, fun x hx => ?_⟩
      obtain ⟨t, ht, rfl⟩ := List.mem_map.1 hx
      rw [List.mem_range'_1] at ht
      exact hv t ht.1 (by omega)
    have hsplit : List.range' 0 start ++ List.range' start (stop - start) = List.range' 0 stop := by
      have := List.range'_append_1 (s := 0) (m := start) (n := stop - start)
      rwa [Nat.zero_add, Nat.add_sub_cancel' (Nat.le_of_lt hlt)] at this
    rw [expand_snoc, ih, hs.last, ← hblock, ← List.map_append, List.range_eq_range', List.range_eq_range', hsplit]

end

/-! ## The loop -/

structure Open (tl : Nat → Int) (i : Nat) (s : GanttLoop) (start : Nat) : Prop where
  closed : Encodes tl s.segs start
  begun : start < i
  value : ∀ t, start ≤ t → t < i → tl t = s.cur
  changed : ∀ p ∈ s.segs.getLast?, p.1 ≠ s.cur

section
variable {h : Nat} {tl : Nat → Int} {i start : Nat} {s : GanttLoop}

theorem Open.close (ho : Open tl i s start) : Encodes tl (s.segs ++ [(s.cur, i)]) i :=
  ho.closed.snoc ho.begun ho.value ho.changed

theorem Open.step (ho : Open tl i s start) (hi : i < h) : ∃ start, Open tl (i + 1) (ganttStep h tl s i) start := by
  by_cases hc : tl i = s.cur
  · have e : ganttStep h tl s i = s := if_neg (by simp [hc, Nat.ne_of_lt hi])
    rw [e]
    refine ⟨start, ho.closed, Nat.lt_succ_of_lt ho.begun, fun t ht htl => ?_, ho.changed⟩
    rcases Nat.lt_succ_iff_lt_or_eq.1 htl with htl | rfl
    · exact ho.value t ht htl
    · exact hc
  · have e : ganttStep h tl s i = { segs := s.segs ++ [(s.cur, i)], cur := tl i } := by
      rw [ganttStep, if_pos (Or.inr hc), if_pos hi]
    rw [e]
    refine ⟨i, ho.close, Nat.lt_succ_self i, fun t ht htl => ?_, fun p hp => ?_⟩
    · rw [Nat.le_antisymm ht (Nat.le_of_lt_succ htl)]
    · rw [List.getLast?_concat] at hp
      cases hp
      exact fun hcur => hc hcur.symm

theorem Open.run (tl : Nat → Int) (k : Nat) (hk : k < h) :
    ∃ start, Open tl (k + 1) ((List.range' 1 k).foldl (ganttStep h tl) { segs := [], cur := tl 0 }) start := by
  induction k with
  | zero =>
    refine ⟨0, Encodes.nil, Nat.one_pos, fun t _ ht => ?_, fun p hp => by cases hp⟩
    rw [Nat.lt_one_iff.1 ht]
    rfl
  | succ k ih =>
    obtain ⟨start, ho⟩ := ih (Nat.lt_of_succ_lt hk)
    rw [List.range'_1_concat, List.foldl_append, Nat.add_comm 1 k]
    exact ho.step hk

theorem ganttSegments_encodes (tl : Nat → Int) (hh : 1 ≤ h) : Encodes tl (ganttSegments h tl) h := by
  obtain ⟨k, rfl⟩ : ∃ k, h = k + 1 := ⟨h - 1, by omega⟩
  obtain ⟨start, ho⟩ := Open.run tl k (Nat.lt_succ_self k)
  rw [ganttSegments, if_neg (Nat.not_succ_le_zero k), List.range'_1_concat, List.foldl_append, Nat.add_comm 1 k,
    List.foldl_cons, List.foldl_nil, ganttStep, if_pos (Or.inl rfl)]
  exact ho.close

end

/-- **The segments are the row.** Their ends increase up to `h`, there are at
most `h` of them, neighbours differ, and each spread over its ticks gives the
row back. -/
theorem ganttSegments_canonical (h : Nat) (hh : 1 ≤ h) (tl : Nat → Int) :
    ((ganttSegments h tl).map Prod.snd).Pairwise (· < ·) ∧
    ((ganttSegments h tl).map Prod.snd).getLast? = some h ∧
    (ganttSegments h tl).length ≤ h ∧
    ((ganttSegments h tl).map Prod.fst).IsChain (· ≠ ·) ∧
    expand 0 (ganttSegments h tl) = (List.range h).map tl := by
  have he := ganttSegments_encodes tl hh
  refine ⟨he.ends_increasing, ?_, he.length_le, he.adjacent, he.expand_eq⟩
  have hl := he.last
  cases hg : ((ganttSegments h tl).map Prod.snd).getLast? with
  | none =>
    rw [hg] at hl
    exact absurd hl (Nat.ne_of_lt hh)
  | some e =>
    rw [hg] at hl
    exact congrArg some hl

theorem ganttSegments_canonical_four :
    ganttSegments 4 (fun t => if t < 3 then 2 else 0) = [(2, 3), (0, 4)] ∧
    expand 0 (ganttSegments 4 fun t => if t < 3 then 2 else 0) = [2, 2, 2, 0] :=
  ⟨by decide, (ganttSegments_canonical 4 (by decide) _).2.2.2.2⟩

end Rms
end OsLab
