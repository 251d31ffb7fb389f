import Mathlib.Algebra.BigOperators.Group.Finset.Basic
import Mathlib.Algebra.Order.Group.Multiset
import Mathlib.Data.Fintype.Basic
import Mathlib.Tactic.Abel

/-!
# Pages that pass between a free list and their holders

Each holder has pages for its own bookkeeping, user pages of its own, and user
pages that it only shares with another holder. Two things can be asked of the
moves between such states: that no user page is free or somebody's bookkeeping
(`Separated`), and that no page is lost or counted twice (`total`).
-/

namespace OsLab

/-- The pages of one holder: bookkeeping, its own user pages, shared ones. -/
structure Holder (P : Type) where
  kern : Multiset P
  own : Multiset P
  mir : Multiset P

def Holder.user {P : Type} (h : Holder P) : Multiset P := h.own + h.mir

structure Pool (ι P : Type) where
  free : Multiset P
  holder : ι → Holder P

namespace Pool
variable {ι P : Type} [Fintype ι] [DecidableEq ι]

/-- Pages that no user may reach: the free ones and all bookkeeping. -/
def closed (s : Pool ι P) : Multiset P := s.free + ∑ i, (s.holder i).kern

/-- What each holder maps is free of repetitions and out of reach of the
allocator. -/
def Separated (s : Pool ι P) : Prop := ∀ i, (s.closed + (s.holder i).user).Nodup

def total (s : Pool ι P) : Multiset P := s.free + ∑ i, ((s.holder i).kern + (s.holder i).own)

variable {s s' : Pool ι P} {i : ι}

theorem sum_split (f : ι → Multiset P) (i : ι) :
    ∑ j, f j = f i + ∑ j ∈ Finset.univ.erase i, f j :=
  (Finset.add_sum_erase _ f (Finset.mem_univ i)).symm

theorem sum_erase_congr {f g : ι → Multiset P} (h : ∀ j, j ≠ i → g j = f j) :
    ∑ j ∈ Finset.univ.erase i, g j = ∑ j ∈ Finset.univ.erase i, f j :=
  Finset.sum_congr rfl fun j hj => h j (Finset.ne_of_mem_erase hj)

/-- Bookkeeping pages that move between holder `i` and the free list stay
closed. -/
theorem closed_eq (others : ∀ j, j ≠ i → s'.holder j = s.holder j)
    (pages : s'.free + (s'.holder i).kern = s.free + (s.holder i).kern) :
    s'.closed = s.closed := by
  unfold closed
  rw [sum_split _ i, sum_split (fun j => (s.holder j).kern) i,
    sum_erase_congr fun j hj => congrArg Holder.kern (others j hj),
    ← add_assoc, ← add_assoc, pages]

theorem total_eq (others : ∀ j, j ≠ i → s'.holder j = s.holder j)
    (pages : s'.free + (s'.holder i).kern + (s'.holder i).own =
      s.free + (s.holder i).kern + (s.holder i).own) : s'.total = s.total := by
  unfold total
  rw [sum_split _ i, sum_split (fun j => (s.holder j).kern + (s.holder j).own) i,
    sum_erase_congr fun j hj => by rw [others j hj],
    ← add_assoc, ← add_assoc, ← add_assoc, ← add_assoc, pages]

structure Renews (s s' : Pool ι P) (i : ι) : Prop where
  others : ∀ j, j ≠ i → s'.holder j = s.holder j
  pages : s'.free + (s'.holder i).kern + (s'.holder i).user =
    s.free + (s.holder i).kern + (s.holder i).user

theorem Renews.closed_add_user (h : Renews s s' i) :
    s'.closed + (s'.holder i).user = s.closed + (s.holder i).user := by
  unfold closed
  rw [sum_split _ i, sum_split (fun j => (s.holder j).kern) i,
    sum_erase_congr fun j hj => congrArg Holder.kern (h.others j hj)]
  generalize ∑ j ∈ Finset.univ.erase i, (s.holder j).kern = K
  calc s'.free + ((s'.holder i).kern + K) + (s'.holder i).user
      = s'.free + (s'.holder i).kern + (s'.holder i).user + K := by abel
    _ = s.free + (s.holder i).kern + (s.holder i).user + K := by rw [h.pages]
    _ = _ := by abel

/-- A holder may change its pages as long as it keeps every page that another
one maps too. -/
theorem Separated.renews (hs : Separated s) (h : Renews s s' i)
    (keep : ∀ j, j ≠ i → ∀ x ∈ (s.holder i).user, x ∈ (s.holder j).user → x ∈ (s'.holder i).user) :
    Separated s' := by
  have hi : (s'.closed + (s'.holder i).user).Nodup := by
    rw [h.closed_add_user]
    exact hs i
  obtain ⟨hc, hu, hd⟩ := Multiset.nodup_add.mp hi
  intro j
  by_cases hj : j = i
  · rw [hj]; exact hi
  · rw [h.others j hj]
    obtain ⟨_, huj, hdj⟩ := Multiset.nodup_add.mp (hs j)
    refine Multiset.nodup_add.mpr ⟨hc, huj, Multiset.disjoint_left.mpr ?_⟩
    -- a page that is closed now was mapped by `i` before, and is not any more
    intro x hx hxj
    have hx' : x ∈ s.closed + (s.holder i).user := by
      rw [← h.closed_add_user]
      exact Multiset.mem_add.mpr (Or.inl hx)
    rcases Multiset.mem_add.mp hx' with hcl | hui
    · exact Multiset.disjoint_left.mp hdj hcl hxj
    · exact Multiset.disjoint_left.mp hd hx (keep j hj x hui hxj)

theorem Renews.total (h : Renews s s' i) (hm : (s'.holder i).mir = (s.holder i).mir) :
    s'.total = s.total := by
  refine total_eq h.others ?_
  have hp := h.pages
  unfold Holder.user at hp
  rw [hm, ← add_assoc, ← add_assoc] at hp
  exact add_right_cancel hp

/-! ## Growing -/

structure Grows (s s' : Pool ι P) (i : ι) : Prop extends Renews s s' i where
  user : (s.holder i).user ≤ (s'.holder i).user
  mir : (s'.holder i).mir = (s.holder i).mir

theorem Separated.grows (hs : Separated s) (h : Grows s s' i) : Separated s' :=
  hs.renews h.toRenews fun _ _ _ hx _ => Multiset.mem_of_le h.user hx

theorem Grows.unshared (hs : Separated s) (h : Grows s s' i) {z : ι} (hz : z ≠ i)
    (hx : ∀ j, j ≠ z → ∀ x ∈ (s.holder z).user, x ∉ (s.holder j).user) :
    ∀ j, j ≠ z → ∀ x ∈ (s'.holder z).user, x ∉ (s'.holder j).user := by
  intro j hj x hxz hxj
  rw [h.others z hz] at hxz
  by_cases hji : j = i
  · subst hji
    have hx' : x ∈ s.closed + (s.holder j).user := by
      rw [← h.closed_add_user]
      exact Multiset.mem_add.mpr (Or.inr hxj)
    rcases Multiset.mem_add.mp hx' with hcl | hu
    · exact Multiset.disjoint_left.mp (Multiset.nodup_add.mp (hs z)).2.2 hcl hxz
    · exact hx j hj x hxz hu
  · rw [h.others j hji] at hxj
    exact hx j hj x hxz hxj

/-! ## Dropping and sharing -/

structure Drops (s s' : Pool ι P) (i : ι) : Prop where
  others : ∀ j, j ≠ i → s'.holder j = s.holder j
  pages : s'.free + (s'.holder i).kern = s.free + (s.holder i).kern
  user : (s'.holder i).user = 0

theorem Separated.drops (hs : Separated s) (h : Drops s s' i) : Separated s' := by
  intro j
  rw [closed_eq h.others h.pages]
  by_cases hj : j = i
  · rw [hj, h.user, add_zero]
    exact (Multiset.nodup_add.mp (hs i)).1
  · rw [h.others j hj]
    exact hs j

theorem Drops.total (h : Drops s s' i) (ho : (s.holder i).own = 0) : s'.total = s.total := by
  have ho' : (s'.holder i).own = 0 :=
    Multiset.le_zero.mp (h.user ▸ Multiset.le_add_right _ _)
  refine total_eq h.others ?_
  rw [ho, ho', h.pages]

structure Mirrors (s s' : Pool ι P) (i j : ι) : Prop where
  others : ∀ l, l ≠ j → s'.holder l = s.holder l
  pages : s'.free + (s'.holder j).kern = s.free + (s.holder j).kern
  own : (s'.holder j).own = (s.holder j).own
  user : (s'.holder j).user ≤ (s.holder i).user

theorem Separated.mirrors {j : ι} (hs : Separated s) (h : Mirrors s s' i j) : Separated s' := by
  intro l
  rw [closed_eq h.others h.pages]
  by_cases hl : l = j
  · rw [hl]
    exact Multiset.nodup_of_le (add_le_add le_rfl h.user) (hs i)
  · rw [h.others l hl]
    exact hs l

theorem Mirrors.total {j : ι} (h : Mirrors s s' i j) : s'.total = s.total :=
  total_eq h.others (by rw [h.own, h.pages])

structure Loses (s s' : Pool ι P) (i : ι) : Prop where
  others : ∀ j, j ≠ i → s'.holder j = s.holder j
  free : s'.free = s.free
  kern : (s'.holder i).kern ≤ (s.holder i).kern
  user : (s'.holder i).user = (s.holder i).user

theorem Separated.loses (hs : Separated s) (h : Loses s s' i) : Separated s' := by
  have hc : s'.closed ≤ s.closed := by
    unfold closed
    rw [sum_split _ i, sum_split (fun j => (s.holder j).kern) i,
      sum_erase_congr fun j hj => congrArg Holder.kern (h.others j hj), h.free]
    exact add_le_add le_rfl (add_le_add h.kern le_rfl)
  intro j
  have hu : (s'.holder j).user = (s.holder j).user := by
    by_cases hj : j = i
    · rw [hj]; exact h.user
    · rw [h.others j hj]
  rw [hu]
  exact Multiset.nodup_of_le (add_le_add hc le_rfl) (hs j)

end Pool

end OsLab
