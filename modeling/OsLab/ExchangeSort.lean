import Mathlib.Data.List.FinRange
import Mathlib.Data.List.OfFn
import Mathlib.Data.List.Rotate
import Mathlib.Data.List.Sort
import Mathlib.Order.Defs.LinearOrder
import OsLab.Loop

/-!
# Exchange sort

The sort that compares the element at the front with each later one in turn and
exchanges the two when the later one is smaller. The result is sorted, and the order
among elements of equal key is known exactly: each smaller key that comes after them
turns the ones before it round by one place (`turn`).
-/

namespace OsLab
namespace Exchange

section
variable {α κ : Type}

section
variable [LT κ] [DecidableLT κ] (key : α → κ)

def round (x : α) : List α → α × List α
  | [] => (x, [])
  | y :: l =>
    if key y < key x then ((round y l).1, x :: (round y l).2)
    else ((round x l).1, y :: (round x l).2)

theorem round_length (x : α) (l : List α) : (round key x l).2.length = l.length := by
  induction l generalizing x with
  | nil => rfl
  | cons y l ih =>
    rw [round]
    split <;> simp [ih]

def sort : List α → List α
  | [] => []
  | x :: l => (round key x l).1 :: sort (round key x l).2
termination_by l => l.length
decreasing_by simp [round_length]

def ties [DecidableEq κ] (v : κ) (l : List α) : List α := l.filter fun x => key x = v

/-- The elements of key `v` that have been met, in the order that the sort will leave them in. -/
def turn [DecidableEq κ] (v : κ) (acc : List α) (x : α) : List α :=
  if key x = v then acc ++ [x] else if key x < v then acc.rotate 1 else acc

def passed [DecidableEq κ] (v : κ) (l : List α) : Nat :=
  (l.takeWhile fun y => key y ≠ v).countP fun y => key y < v

end

variable [LinearOrder κ] (key : α → κ)

theorem round_concat (x : α) (l : List α) (y : α) : round key x (l ++ [y]) =
    if key y < key (round key x l).1 then (y, (round key x l).2 ++ [(round key x l).1])
    else ((round key x l).1, (round key x l).2 ++ [y]) := by
  induction l generalizing x with
  | nil => rfl
  | cons z l ih =>
    rw [List.cons_append, round, round, ih, ih]
    by_cases hz : key z < key x
    · simp only [if_pos hz]
      split <;> rfl
    · simp only [if_neg hz]
      split <;> rfl

/-! ## A sorted permutation -/

theorem round_perm (x : α) (l : List α) : ((round key x l).1 :: (round key x l).2).Perm (x :: l) := by
  induction l generalizing x with
  | nil => exact List.Perm.refl _
  | cons y l ih =>
    rw [round]
    split
    · exact (List.Perm.swap _ _ _).trans ((ih y).cons x)
    · exact (List.Perm.swap _ _ _).trans (((ih x).cons y).trans (List.Perm.swap _ _ _))

theorem round_le (x : α) (l : List α) : ∀ y ∈ x :: l, key (round key x l).1 ≤ key y := by
  induction l generalizing x with
  | nil =>
    intro y hy
    rw [List.mem_singleton.1 hy]
    exact le_refl _
  | cons z l ih =>
    intro y hy
    rw [round]
    split
    · rename_i hz
      rcases List.mem_cons.1 hy with rfl | hy
      · exact le_trans (ih z z List.mem_cons_self) (le_of_lt hz)
      · exact ih z y hy
    · rename_i hz
      rcases List.mem_cons.1 hy with rfl | hy
      · exact ih y y List.mem_cons_self
      · rcases List.mem_cons.1 hy with rfl | hy
        · exact le_trans (ih x x List.mem_cons_self) (not_lt.1 hz)
        · exact ih x y (List.mem_cons_of_mem _ hy)

theorem sort_perm (l : List α) : (sort key l).Perm l := by
  induction l using sort.induct key with
  | case1 => rw [sort]
  | case2 x l ih =>
    rw [sort]
    exact (ih.cons _).trans (round_perm key x l)

theorem sort_sorted (l : List α) : (sort key l).Pairwise fun x y => key x ≤ key y := by
  induction l using sort.induct key with
  | case1 => rw [sort]; exact List.Pairwise.nil
  | case2 x l ih =>
    rw [sort, List.pairwise_cons]
    refine ⟨fun y hy => ?_, ih⟩
    have hy' : y ∈ (round key x l).2 := (sort_perm key _).mem_iff.1 hy
    exact round_le key x l y ((round_perm key x l).mem_iff.1 (List.mem_cons_of_mem _ hy'))

/-! ## Equal keys -/

section
variable {key} {v : κ}

theorem ties_cons_eq {x : α} (h : key x = v) (l : List α) : ties key v (x :: l) = x :: ties key v l :=
  List.filter_cons_of_pos (by simpa using h)

theorem ties_cons_ne {x : α} (h : key x ≠ v) (l : List α) : ties key v (x :: l) = ties key v l :=
  List.filter_cons_of_neg (by simpa using h)

theorem turn_eq {acc : List α} {x : α} (h : key x = v) : turn key v acc x = acc ++ [x] := if_pos h

theorem turn_lt {acc : List α} {x : α} (h : key x < v) : turn key v acc x = acc.rotate 1 := by
  rw [turn, if_neg (ne_of_lt h), if_pos h]

theorem turn_gt {acc : List α} {x : α} (h : v < key x) : turn key v acc x = acc := by
  rw [turn, if_neg (ne_of_gt h), if_neg (not_lt.2 (le_of_lt h))]

theorem foldl_turn_of_le {l : List α} (h : ∀ y ∈ l, v ≤ key y) (acc : List α) :
    l.foldl (turn key v) acc = acc ++ ties key v l := by
  induction l generalizing acc with
  | nil => exact (List.append_nil acc).symm
  | cons y l ih =>
    have hl := fun acc => ih (fun z hz => h z (List.mem_cons_of_mem _ hz)) acc
    rw [List.foldl_cons, hl]
    rcases lt_or_eq_of_le (h y List.mem_cons_self) with hy | hy
    · rw [turn_gt hy, ties_cons_ne (ne_of_gt hy)]
    · rw [turn_eq hy.symm, ties_cons_eq hy.symm, List.append_assoc]
      rfl

theorem foldl_turn_round_lt {x : α} (hx : key x < v) (l acc : List α) :
    (round key x l).2.foldl (turn key v) acc = l.foldl (turn key v) acc := by
  induction l generalizing x acc with
  | nil => rfl
  | cons y l ih =>
    rw [round]
    split
    · rename_i hy
      rw [List.foldl_cons, List.foldl_cons, turn_lt hx, turn_lt (lt_trans hy hx), ih (lt_trans hy hx)]
    · rw [List.foldl_cons, List.foldl_cons, ih hx]

/-- An element of key `v` in hand is put down at the first smaller one, behind
those it has passed. -/
theorem foldl_turn_round_eq {x : α} (hx : key x = v) {l : List α} (hl : ∃ y ∈ l, key y < v) (acc : List α) :
    (round key x l).2.foldl (turn key v) acc = l.foldl (turn key v) (x :: acc) := by
  induction l generalizing acc with
  | nil => obtain ⟨y, hy, -⟩ := hl; cases hy
  | cons y l ih =>
    rw [round]
    split
    · rename_i hy
      rw [hx] at hy
      rw [List.foldl_cons, List.foldl_cons, turn_eq hx, turn_lt hy, foldl_turn_round_lt hy, List.rotate_cons_succ,
        List.rotate_zero]
    · rename_i hy
      rw [hx, not_lt] at hy
      have hl' : ∃ z ∈ l, key z < v := by
        obtain ⟨z, hz, hlt⟩ := hl
        rcases List.mem_cons.1 hz with rfl | hz
        · exact absurd hlt (not_lt.2 hy)
        · exact ⟨z, hz, hlt⟩
      rw [List.foldl_cons, List.foldl_cons, ih hl']
      rcases lt_or_eq_of_le hy with hy | hy
      · rw [turn_gt hy, turn_gt hy]
      · rw [turn_eq hy.symm, turn_eq hy.symm]
        rfl

theorem round_eq_of_le {x : α} {l : List α} (h : ∀ y ∈ l, key x ≤ key y) : round key x l = (x, l) := by
  induction l with
  | nil => rfl
  | cons y l ih =>
    rw [round, if_neg (not_lt.2 (h y List.mem_cons_self)), ih fun z hz => h z (List.mem_cons_of_mem _ hz)]

theorem foldl_turn_round_of_eq {x : α} (hx : key x = v) (l : List α) :
    (x :: l).foldl (turn key v) [] =
      ties key v [(round key x l).1] ++ (round key x l).2.foldl (turn key v) [] := by
  rw [List.foldl_cons, turn_eq hx, List.nil_append]
  by_cases hl : ∃ y ∈ l, key y < v
  · obtain ⟨y, hy, hlt⟩ := hl
    have hm : key (round key x l).1 < v :=
      lt_of_le_of_lt (round_le key x l y (List.mem_cons_of_mem _ hy)) hlt
    have hnone : ties key v [(round key x l).1] = [] := by simp [ties, ne_of_lt hm]
    rw [hnone, foldl_turn_round_eq hx ⟨y, hy, hlt⟩]
    rfl
  · have hle : ∀ y ∈ l, v ≤ key y := fun y hy => not_lt.1 fun hlt => hl ⟨y, hy, hlt⟩
    rw [round_eq_of_le (hx ▸ hle), foldl_turn_of_le hle, foldl_turn_of_le hle]
    simp [ties, hx]

/-- A round does not change how the elements of key `v` will come out, apart from
the one it has taken out. -/
theorem foldl_turn_round (x : α) (l : List α) : (x :: l).foldl (turn key v) [] =
    ties key v [(round key x l).1] ++ (round key x l).2.foldl (turn key v) [] := by
  induction l generalizing x with
  | nil =>
    rw [round, List.foldl_cons, List.foldl_nil, List.foldl_nil, turn, ties]
    by_cases hx : key x = v
    · simp [hx]
    · simp [hx]
  | cons y l ih =>
    rcases lt_trichotomy (key x) v with hx | hx | hx
    · have hm : key (round key x (y :: l)).1 < v := lt_of_le_of_lt (round_le key x _ x List.mem_cons_self) hx
      have hnone : ties key v [(round key x (y :: l)).1] = [] := by simp [ties, ne_of_lt hm]
      rw [hnone, foldl_turn_round_lt hx, List.foldl_cons, turn_lt hx]
      rfl
    · exact foldl_turn_round_of_eq hx _
    · rw [round, List.foldl_cons, turn_gt hx]
      split
      · rw [ih y]
        dsimp only
        rw [List.foldl_cons, turn_gt hx]
      · rename_i hy
        rw [not_lt] at hy
        have hy' : v < key y := lt_of_lt_of_le hx hy
        have hih := ih x
        rw [List.foldl_cons, turn_gt hx] at hih
        rw [List.foldl_cons, turn_gt hy', List.foldl_cons, turn_gt hy', hih]

theorem ties_sort (l : List α) : ties key v (sort key l) = l.foldl (turn key v) [] := by
  induction l using sort.induct key with
  | case1 => rw [sort]; rfl
  | case2 x l ih =>
    rw [sort, foldl_turn_round, ← ih, ties, ties, ties, ← List.filter_append]
    rfl

/-! ## When equal keys keep their order -/

variable (key) in
/-- `a` elements of key `v` and then `c` smaller keys have been met before `l`: no
element of key `v` ends up turned. -/
def Settled (v : κ) (a c : Nat) (l : List α) : Prop :=
  (a = 0 ∨ a ∣ c + passed key v l) ∧
    ∀ l₁ x l₂, l = l₁ ++ x :: l₂ → key x = v → (a + (ties key v l₁).length + 1) ∣ passed key v l₂

theorem passed_eq {x : α} (h : key x = v) (l : List α) : passed key v (x :: l) = 0 := by
  simp [passed, h]

theorem passed_lt {x : α} (h : key x < v) (l : List α) : passed key v (x :: l) = passed key v l + 1 := by
  simp [passed, ne_of_lt h, h]

theorem passed_gt {x : α} (h : v < key x) (l : List α) : passed key v (x :: l) = passed key v l := by
  simp [passed, ne_of_gt h, not_lt.2 (le_of_lt h)]

theorem settled_nil {a c : Nat} : Settled key v a c [] ↔ a = 0 ∨ a ∣ c :=
  ⟨fun h => h.1, fun h => ⟨h, fun l₁ x l₂ e => by simp at e⟩⟩

theorem settled_cons_ne {x : α} (h : key x ≠ v) {a c : Nat} {l : List α} : Settled key v a c (x :: l) ↔
    (a = 0 ∨ a ∣ c + passed key v (x :: l)) ∧
      ∀ l₁ y l₂, l = l₁ ++ y :: l₂ → key y = v → (a + (ties key v l₁).length + 1) ∣ passed key v l₂ := by
  refine and_congr_right fun _ => ⟨fun hs l₁ y l₂ e hy => ?_, fun hs l₁ y l₂ e hy => ?_⟩
  · have := hs (x :: l₁) y l₂ (by rw [e]; rfl) hy
    rwa [ties_cons_ne h] at this
  · cases l₁ with
    | nil => cases e; exact absurd hy h
    | cons z l₁ =>
      cases e
      rw [ties_cons_ne h]
      exact hs l₁ y l₂ rfl hy

theorem settled_lt {x : α} (h : key x < v) {a c : Nat} {l : List α} :
    Settled key v a c (x :: l) ↔ Settled key v a (c + 1) l := by
  rw [settled_cons_ne (ne_of_lt h), passed_lt h, Settled, Nat.add_assoc c 1, Nat.add_comm 1]

theorem settled_gt {x : α} (h : v < key x) {a c : Nat} {l : List α} :
    Settled key v a c (x :: l) ↔ Settled key v a c l := by
  rw [settled_cons_ne (ne_of_gt h), passed_gt h]
  rfl

theorem settled_eq {x : α} (h : key x = v) {a c : Nat} {l : List α} :
    Settled key v a c (x :: l) ↔ (a = 0 ∨ a ∣ c) ∧ Settled key v (a + 1) 0 l := by
  unfold Settled
  rw [passed_eq h, Nat.add_zero, Nat.zero_add]
  refine and_congr_right fun _ => ⟨fun hs => ⟨.inr (hs [] x l rfl h), fun l₁ y l₂ e hy => ?_⟩, fun hs l₁ y l₂ e hy => ?_⟩
  · have := hs (x :: l₁) y l₂ (by rw [e]; rfl) hy
    rw [ties_cons_eq h, List.length_cons] at this
    rwa [Nat.add_right_comm a 1, Nat.add_assoc a]
  · cases l₁ with
    | nil =>
      cases e
      exact hs.1.resolve_left (Nat.succ_ne_zero a)
    | cons z l₁ =>
      cases e
      have := hs.2 l₁ y l₂ rfl hy
      rw [ties_cons_eq h, List.length_cons]
      rwa [Nat.add_right_comm a 1, Nat.add_assoc a] at this

theorem eq_of_rotate_concat {B C : List α} {p : α} {c : Nat} (hlen : B.length = C.length) (hn : (B ++ [p]).Nodup)
    (h : (B ++ [p]).rotate c = C ++ [p]) : B = C := by
  have hB : (B ++ [p]).rotate B.length = p :: B := List.rotate_append_length_eq B [p]
  have hC : (C ++ [p]).rotate B.length = p :: C := hlen ▸ List.rotate_append_length_eq C [p]
  have hpB : (p :: B).Nodup := hB ▸ List.nodup_rotate.2 hn
  have hrot : (p :: B).rotate (c % (p :: B).length) = p :: C := by
    rw [List.rotate_mod, ← hB, List.rotate_rotate, Nat.add_comm, ← List.rotate_rotate, h, hC]
  have hlt : c % (p :: B).length < (p :: B).length := Nat.mod_lt _ (Nat.succ_pos _)
  have hhead := List.head?_rotate hlt
  rw [hrot, List.head?_cons, List.getElem?_eq_getElem hlt, Option.some_inj] at hhead
  have hsame : (p :: B)[c % (p :: B).length] = (p :: B)[0] := hhead.symm
  have h0 : c % (p :: B).length = 0 := hpB.getElem_inj_iff.1 hsame
  rw [h0, List.rotate_zero] at hrot
  exact (List.cons.inj hrot).2

theorem eq_of_foldl_turn {l : List α} {B C : List α} {p : α} {c : Nat} (hlen : B.length = C.length)
    (hn : (B ++ p :: ties key v l).Nodup)
    (h : l.foldl (turn key v) ((B ++ [p]).rotate c) = C ++ p :: ties key v l) : B = C := by
  induction l generalizing B C p c with
  | nil => exact eq_of_rotate_concat hlen hn h
  | cons x l ih =>
    rw [List.foldl_cons] at h
    rcases lt_trichotomy (key x) v with hx | hx | hx
    · rw [ties_cons_ne (ne_of_lt hx)] at hn h
      rw [turn_lt hx, List.rotate_rotate] at h
      exact ih hlen hn h
    · rw [ties_cons_eq hx] at hn h
      have hsplit : ∀ D : List α, D ++ p :: x :: ties key v l = (D ++ [p]) ++ x :: ties key v l := by simp
      rw [hsplit] at hn h
      have hn₁ : (B ++ [p]).Nodup := hn.of_append_left
      rw [turn_eq hx, ← List.rotate_zero (_ ++ [x])] at h
      refine eq_of_rotate_concat hlen hn₁ (ih ?_ ?_ h)
      · simp [hlen]
      · exact ((List.rotate_perm _ _).append_right _).nodup_iff.2 hn
    · rw [ties_cons_ne (ne_of_gt hx)] at hn h
      rw [turn_gt hx] at h
      exact ih hlen hn h

theorem rotate_eq_self {acc : List α} (hn : acc.Nodup) {c : Nat} :
    acc.rotate c = acc ↔ acc.length = 0 ∨ acc.length ∣ c := by
  rw [hn.rotate_eq_self_iff, or_comm, List.length_eq_zero_iff, Nat.dvd_iff_mod_eq_zero]

theorem foldl_turn_eq_iff {l : List α} {acc : List α} {c : Nat} (hn : (acc ++ ties key v l).Nodup) :
    l.foldl (turn key v) (acc.rotate c) = acc ++ ties key v l ↔ Settled key v acc.length c l := by
  induction l generalizing acc c with
  | nil =>
    rw [settled_nil, ← rotate_eq_self hn.of_append_left, List.foldl_nil, ties, List.filter_nil, List.append_nil]
  | cons x l ih =>
    rw [List.foldl_cons]
    rcases lt_trichotomy (key x) v with hx | hx | hx
    · rw [ties_cons_ne (ne_of_lt hx)] at hn ⊢
      rw [settled_lt hx, turn_lt hx, List.rotate_rotate]
      exact ih hn
    · rw [ties_cons_eq hx] at hn ⊢
      rw [settled_eq hx, turn_eq hx, ← rotate_eq_self hn.of_append_left]
      have hsplit : acc ++ x :: ties key v l = (acc ++ [x]) ++ ties key v l := by simp
      have hstep : l.foldl (turn key v) ((acc ++ [x]).rotate 0) = _ ↔ _ := ih (hsplit ▸ hn)
      rw [List.length_append, List.length_singleton, List.rotate_zero] at hstep
      constructor
      · intro h
        have hB : acc.rotate c = acc := by
          refine eq_of_foldl_turn (c := 0) (List.length_rotate ..) ?_ (by rw [List.rotate_zero]; exact h)
          exact ((List.rotate_perm _ _).append_right _).nodup_iff.2 hn
        rw [hB, hsplit] at h
        exact ⟨hB, hstep.1 h⟩
      · intro ⟨hB, hs⟩
        rw [hB, hsplit]
        exact hstep.2 hs
    · rw [ties_cons_ne (ne_of_gt hx)] at hn ⊢
      rw [settled_gt hx, turn_gt hx]
      exact ih hn

/-- The elements of key `v` keep their order when each of them, being the `k`-th,
is followed by a multiple of `k` smaller keys before the next one. -/
theorem ties_sort_eq_iff {l : List α} (hn : l.Nodup) : ties key v (sort key l) = ties key v l ↔
    ∀ l₁ x l₂, l = l₁ ++ x :: l₂ → key x = v → ((ties key v l₁).length + 1) ∣ passed key v l₂ := by
  have h : l.foldl (turn key v) (([] : List α).rotate 0) = [] ++ ties key v l ↔ Settled key v 0 0 l :=
    foldl_turn_eq_iff (hn.filter _)
  rw [List.rotate_zero, ← ties_sort, List.nil_append] at h
  refine h.trans ⟨fun hs l₁ x l₂ e hx => ?_, fun hs => ⟨.inl rfl, fun l₁ x l₂ e hx => ?_⟩⟩
  · simpa using hs.2 l₁ x l₂ e hx
  · simpa using hs l₁ x l₂ e hx

/-! ## Order by a second key -/

section
variable {ι : Type} [LinearOrder ι] {sec : α → ι}

theorem pairwise_lex_iff {L : List α} (hL : L.Pairwise fun x y => key x ≤ key y) :
    (L.Pairwise fun x y => key x < key y ∨ key x = key y ∧ sec x < sec y) ↔
      ∀ v, (ties key v L).Pairwise fun x y => sec x < sec y := by
  constructor
  · intro h v
    refine (h.filter _).imp_of_mem fun {x y} hx hy hxy => ?_
    have hxy' : key x = key y := by
      rw [of_decide_eq_true (List.mem_filter.1 hx).2, of_decide_eq_true (List.mem_filter.1 hy).2]
    rcases hxy with hlt | ⟨-, hs⟩
    · exact absurd hxy' (ne_of_lt hlt)
    · exact hs
  · intro h
    induction L with
    | nil => exact List.Pairwise.nil
    | cons x L ih =>
      rw [List.pairwise_cons] at hL ⊢
      refine ⟨fun y hy => ?_, ih hL.2 fun v => (h v).sublist ((List.sublist_cons_self x L).filter _)⟩
      rcases lt_or_eq_of_le (hL.1 y hy) with hlt | heq
      · exact .inl hlt
      · have hx := h (key x)
        rw [ties_cons_eq rfl, List.pairwise_cons] at hx
        exact .inr ⟨heq, hx.1 y (List.mem_filter.2 ⟨hy, by simp [heq]⟩)⟩

/-- The sort of a list that is in order by a second key is in order by both keys
exactly when equal keys keep their order. -/
theorem sort_lex_iff {l : List α} (hl : l.Pairwise fun x y => sec x < sec y) :
    ((sort key l).Pairwise fun x y => key x < key y ∨ key x = key y ∧ sec x < sec y) ↔
      ∀ l₁ x l₂, l = l₁ ++ x :: l₂ → ((ties key (key x) l₁).length + 1) ∣ passed key (key x) l₂ := by
  have hn : l.Nodup := hl.imp fun h e => absurd (congrArg sec e) (ne_of_lt h)
  have hties : ∀ v, ((ties key v (sort key l)).Pairwise fun x y => sec x < sec y) ↔
      ties key v (sort key l) = ties key v l := by
    intro v
    have hv : (ties key v l).Pairwise fun x y => sec x < sec y := hl.filter _
    refine ⟨fun h => ?_, fun h => h ▸ hv⟩
    exact (((sort_perm key l).filter _).eq_of_pairwise (fun a b _ _ hab hba => absurd hab (lt_asymm hba)) h hv)
  rw [pairwise_lex_iff (sort_sorted key l)]
  refine (forall_congr' fun v => (hties v).trans (ties_sort_eq_iff hn)).trans ?_
  exact ⟨fun h l₁ x l₂ e => h (key x) l₁ x l₂ e rfl, fun h v l₁ x l₂ e hx => hx ▸ h l₁ x l₂ e⟩

end

end
end
/-! ## The loops on an array -/

section
variable {α κ : Type} {n : Nat}

section
variable [LT κ] [DecidableLT κ] (key : α → κ)

def exchange (i : Fin n) (a : Fin n → α) (j : Fin n) : Fin n → α :=
  if key (a j) < key (a i) then Function.update (Function.update a i (a j)) j (a i) else a

def sortFrom (a : Fin n → α) (i : Fin n) : Fin n → α := ((List.finRange n).filter (i < ·)).foldl (exchange key i) a

def sortArray (a : Fin n → α) : Fin n → α := (List.finRange n).foldl (sortFrom key) a

theorem exchange_perm (i : Fin n) (a : Fin n → α) (j : Fin n) :
    ∃ e : Equiv.Perm (Fin n), exchange key i a j = a ∘ e := by
  unfold exchange
  split
  · refine ⟨Equiv.swap i j, funext fun k => ?_⟩
    by_cases hj : k = j
    · subst hj; simp
    · rw [Function.update_of_ne hj]
      by_cases hi : k = i
      · subst hi; simp
      · rw [Function.update_of_ne hi, Function.comp, Equiv.swap_apply_of_ne_of_ne hi hj]
  · exact ⟨Equiv.refl _, rfl⟩

theorem sortArray_perm (a : Fin n → α) : ∃ e : Equiv.Perm (Fin n), sortArray key a = a ∘ e := by
  have start : ∃ e : Equiv.Perm (Fin n), a = a ∘ e := ⟨Equiv.refl _, rfl⟩
  refine foldl_keeps (P := fun b => ∃ e : Equiv.Perm (Fin n), b = a ∘ e) _ (fun b i _ hb => ?_) start
  refine foldl_keeps (P := fun b => ∃ e : Equiv.Perm (Fin n), b = a ∘ e) _ (fun b j _ hb => ?_) hb
  obtain ⟨e, rfl⟩ := hb
  obtain ⟨e', he⟩ := exchange_perm key i (a ∘ e) j
  exact ⟨e'.trans e, he⟩

end

variable [LinearOrder κ] (key : α → κ)

theorem ofFn_update (a : Fin n → α) (i : Fin n) (x : α) :
    List.ofFn (Function.update a i x) = (List.ofFn a).set i x := by
  refine List.ext_getElem (by simp) fun t h₁ h₂ => ?_
  simp [List.getElem_set, Function.update_apply, Fin.ext_iff, eq_comm]

theorem apply_of_ofFn {a : Fin n → α} {l₁ l₂ : List α} {x : α} (h : List.ofFn a = l₁ ++ x :: l₂) {i : Fin n}
    (hi : i.val = l₁.length) : a i = x := by
  have hget : (List.ofFn a)[i.val]? = some (a i) := by simp
  rw [h, hi, List.getElem?_append_right (Nat.le_refl _), Nat.sub_self, List.getElem?_cons_zero] at hget
  exact (Option.some.inj hget).symm

theorem exchange_ofFn {a : Fin n → α} {out mid post : List α} {x y : α} {i j : Fin n}
    (h : List.ofFn a = out ++ x :: (mid ++ y :: post)) (hi : i.val = out.length) (hj : j.val = i.val + 1 + mid.length) :
    List.ofFn (exchange key i a j) =
      if key y < key x then out ++ y :: (mid ++ x :: post) else out ++ x :: (mid ++ y :: post) := by
  have hx : a i = x := apply_of_ofFn h hi
  have hy : a j = y := by
    have hsplit : List.ofFn a = (out ++ x :: mid) ++ y :: post := by rw [h]; simp
    refine apply_of_ofFn hsplit ?_
    rw [hj, hi, List.length_append, List.length_cons]
    omega
  rw [exchange, hx, hy]
  split
  · rw [ofFn_update, ofFn_update, h, hj, hi]
    simp [Nat.add_assoc, Nat.add_comm 1]
  · exact h

theorem range_filter_lt {i n : Nat} (h : i < n) :
    (List.range n).filter (i < ·) = (List.range (n - (i + 1))).map (i + 1 + ·) := by
  obtain ⟨d, rfl⟩ : ∃ d, n = i + 1 + d := ⟨n - (i + 1), by omega⟩
  have hlow : (List.range (i + 1)).filter (i < ·) = [] := by
    rw [List.filter_eq_nil_iff]
    intro x hx
    rw [List.mem_range] at hx
    simpa using Nat.le_of_lt_succ hx
  have hhigh : ((List.range d).map (i + 1 + ·)).filter (i < ·) = (List.range d).map (i + 1 + ·) := by
    rw [List.filter_eq_self]
    intro x hx
    obtain ⟨y, -, rfl⟩ := List.mem_map.1 hx
    rw [decide_eq_true_eq]
    omega
  rw [Nat.add_sub_cancel_left, List.range_add, List.filter_append, hlow, hhigh, List.nil_append]

theorem visited_vals (i : Fin n) : ((List.finRange n).filter (i < ·)).map Fin.val =
    (List.range (n - (i.val + 1))).map (i.val + 1 + ·) := by
  rw [← range_filter_lt i.isLt, ← List.map_coe_finRange_eq_range, List.filter_map]
  rfl

theorem val_of_start {f : Nat → Nat} {L l : List (Fin n)} {k : Nat} (hL : L.map Fin.val = (List.range k).map f)
    {j : Fin n} (h : (l ++ [j]) <+: L) : j.val = f l.length := by
  obtain ⟨r, rfl⟩ := h
  have hlt : l.length < k := by
    have := congrArg List.length hL
    simp at this
    omega
  have hget := congrArg (fun L => L[l.length]?) hL
  simpa [hlt] using hget

theorem sortFrom_ofFn {a : Fin n → α} {out l : List α} {x : α} {i : Fin n} (h : List.ofFn a = out ++ x :: l)
    (hi : i.val = out.length) :
    List.ofFn (sortFrom key a i) = out ++ (round key x l).1 :: (round key x l).2 := by
  have hlen : ((List.finRange n).filter (i < ·)).length = l.length := by
    have h₁ := congrArg List.length (visited_vals i)
    have h₂ := congrArg List.length h
    simp only [List.length_map, List.length_range, List.length_ofFn, List.length_append, List.length_cons] at h₁ h₂
    omega
  -- the round has been done on the entries visited so far
  have loop := foldl_range (f := exchange key i) (b := a) (P := fun vs a' => List.ofFn a' =
      out ++ (round key x (l.take vs.length)).1 :: ((round key x (l.take vs.length)).2 ++ l.drop vs.length))
    ((List.finRange n).filter (i < ·)) (by simpa [round] using h) (by
      intro vs j a' hvs ih
      have hlt : vs.length < l.length := by
        have := hvs.length_le
        rw [List.length_append, List.length_singleton] at this
        omega
      have hj : j.val = i.val + 1 + vs.length := val_of_start (visited_vals i) hvs
      have hr : (round key x (l.take vs.length)).2.length = vs.length := by
        rw [round_length, List.length_take_of_le (Nat.le_of_lt hlt)]
      rw [List.drop_eq_getElem_cons hlt] at ih
      rw [exchange_ofFn key ih hi (by rw [hj, hr]), List.length_append, List.length_singleton, List.take_succ_eq_append_getElem hlt,
        round_concat]
      split
      · rw [List.append_assoc]
        rfl
      · rw [List.append_assoc]
        rfl)
  rw [hlen, List.take_length, List.drop_length, List.append_nil] at loop
  exact loop

theorem sortArray_ofFn (a : Fin n → α) : List.ofFn (sortArray key a) = sort key (List.ofFn a) := by
  have hvals : (List.finRange n).map Fin.val = (List.range n).map id := by
    rw [List.map_id, List.map_coe_finRange_eq_range]
  have loop := foldl_range (f := sortFrom key) (b := a) (P := fun vs a' => ∃ out rest, List.ofFn a' = out ++ rest ∧
      out.length = vs.length ∧ out ++ sort key rest = sort key (List.ofFn a))
    (List.finRange n) ⟨[], _, rfl, rfl, rfl⟩ (by
      intro vs i a' hvs ⟨out, rest, ha', hout, hsort⟩
      have hi : i.val = out.length := by rw [hout, val_of_start hvals hvs]; rfl
      cases rest with
      | nil =>
        have := congrArg List.length ha'
        rw [List.length_ofFn, List.append_nil, ← hi] at this
        exact absurd i.isLt (by omega)
      | cons x l =>
        refine ⟨out ++ [(round key x l).1], (round key x l).2, ?_, by simp [hout], ?_⟩
        · rw [sortFrom_ofFn key ha' hi, List.append_assoc]
          rfl
        · rw [← hsort, sort, List.append_assoc]
          rfl)
  obtain ⟨out, rest, hall, hout, hsort⟩ := loop
  have hrest : rest = [] := by
    have := congrArg List.length hall
    rw [List.length_ofFn, List.length_append, hout, List.length_finRange] at this
    exact List.length_eq_zero_iff.1 (by omega)
  rw [hrest, sort, List.append_nil] at hsort
  rw [sortArray, hall, hrest, List.append_nil, hsort]

end

end Exchange
end OsLab
