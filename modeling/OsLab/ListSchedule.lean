import Mathlib.Data.List.FinRange
import Mathlib.Data.List.Pairwise
import Mathlib.Data.Fintype.Basic
import Mathlib.Data.Finset.Max
import Mathlib.Order.Fin.Basic

/-!
# List scheduling

Jobs are taken in a given order, and each starts as early as it can on the
first processor that is free by then. `Progress` is the state of a scheduler
that reaches the same schedule tick by tick: what has been placed, and what the
rest of the list will do.
-/

namespace OsLab

structure Placement (ι : Type) (m : ℕ) where
  job : ι
  core : Fin m
  start : ℕ
  deriving DecidableEq, Repr

section
variable {ι : Type} {m : ℕ} (arr len : ι → ℕ)

def listSchedule (free : Fin m → ℕ) : List ι → List (Placement ι m)
  | [] => []
  | i :: rest =>
    match ((List.finRange m).map free).min? with
    | none => []
    | some earliest =>
      let start := max (arr i) earliest
      match (List.finRange m).find? fun c => free c ≤ start with
      | none => []
      | some core => ⟨i, core, start⟩ :: listSchedule (Function.update free core (start + len i)) rest

structure Starts (free : Fin m → ℕ) (i : ι) (t : ℕ) (c : Fin m) : Prop where
  arrived : arr i ≤ t
  idle : free c ≤ t
  lowest : ∀ c' < c, t < free c'
  earliest : t ≤ arr i ∨ ∀ c', t ≤ free c'

variable {arr len} {free : Fin m → ℕ}

theorem listSchedule_cons {i : ι} {t : ℕ} {c : Fin m} (h : Starts arr free i t c) (rest : List ι) :
    listSchedule arr len free (i :: rest) =
      ⟨i, c, t⟩ :: listSchedule arr len (Function.update free c (t + len i)) rest := by
  have hmem : free c ∈ (List.finRange m).map free := List.mem_map.mpr ⟨c, List.mem_finRange c, rfl⟩
  cases hmin : ((List.finRange m).map free).min? with
  | none =>
    rw [List.min?_eq_none_iff] at hmin
    rw [hmin] at hmem
    cases hmem
  | some e =>
    obtain ⟨he, hle⟩ := List.min?_eq_some_iff.mp hmin
    obtain ⟨c₁, _, hc₁⟩ := List.mem_map.mp he
    have hstart : max (arr i) e = t := by
      have h1 := h.arrived
      have h2 := h.idle
      have h3 := hle _ hmem
      rcases h.earliest with h4 | h4
      · omega
      · have := h4 c₁
        omega
    have hfind : ((List.finRange m).find? fun c => free c ≤ t) = some c := by
      cases hf : (List.finRange m).find? fun c => free c ≤ t with
      | none =>
        have := List.find?_eq_none.mp hf c (List.mem_finRange c)
        simp [h.idle] at this
      | some c₀ =>
        obtain ⟨hp, as, bs, hsplit, has⟩ := List.find?_eq_some_iff_append.mp hf
        simp only [decide_eq_true_eq] at hp
        have hge : ¬ c₀ < c := fun hlt => by have := h.lowest c₀ hlt; omega
        have hle : ¬ c < c₀ := by
          intro hlt
          have hpw := List.pairwise_lt_finRange m
          rw [hsplit, List.pairwise_append] at hpw
          have hc : c ∈ as ++ c₀ :: bs := hsplit ▸ List.mem_finRange c
          rcases List.mem_append.mp hc with hc | hc
          · have := has c hc
            simp [h.idle] at this
          · rcases List.mem_cons.mp hc with rfl | hc
            · exact lt_irrefl _ hlt
            · exact lt_asymm hlt ((List.pairwise_cons.mp hpw.2.1).1 c hc)
        rw [le_antisymm (not_lt.mp hge) (not_lt.mp hle)]
    simp only [listSchedule, hmin, hstart, hfind]

theorem exists_starts (hm : 0 < m) (arr : ι → ℕ) (free : Fin m → ℕ) (i : ι) : ∃ t c, Starts arr free i t c := by
  have hex : ∃ t, arr i ≤ t ∧ ∃ c, free c ≤ t := ⟨max (arr i) (free ⟨0, hm⟩), le_max_left _ _, ⟨0, hm⟩, le_max_right _ _⟩
  classical
  obtain ⟨ha, hc⟩ := Nat.find_spec hex
  let cs := Finset.univ.filter fun c => free c ≤ Nat.find hex
  have hne : cs.Nonempty := by
    obtain ⟨c, hc⟩ := hc
    exact ⟨c, Finset.mem_filter.mpr ⟨Finset.mem_univ c, hc⟩⟩
  refine ⟨Nat.find hex, cs.min' hne, ha, (Finset.mem_filter.mp (cs.min'_mem hne)).2, fun c' hlt => ?_, ?_⟩
  · by_contra hle
    have hmem : c' ∈ cs := Finset.mem_filter.mpr ⟨Finset.mem_univ c', by omega⟩
    exact absurd (cs.min'_le c' hmem) (not_le.mpr hlt)
  · by_contra hno
    rw [not_or, not_forall] at hno
    obtain ⟨h1, c', h2⟩ := hno
    exact Nat.find_min hex (m := Nat.find hex - 1) (by omega) ⟨by omega, c', by omega⟩

theorem listSchedule_jobs (hm : 0 < m) (l : List ι) : (listSchedule arr len free l).map (·.job) = l := by
  induction l generalizing free with
  | nil => rfl
  | cons i rest ih =>
    obtain ⟨t, c, h⟩ := exists_starts hm arr free i
    rw [listSchedule_cons h, List.map_cons, ih]

/-! ## Cells -/

def Covers (len : ι → ℕ) (c : Fin m) (u : ℕ) (e : Placement ι m) : Prop :=
  e.core = c ∧ e.start ≤ u ∧ u < e.start + len e.job

instance (c : Fin m) (u : ℕ) : DecidablePred (Covers len c u) := fun e => by unfold Covers; infer_instance

def cellAt (len : ι → ℕ) (log : List (Placement ι m)) (c : Fin m) (u : ℕ) : Option ι :=
  (log.find? fun e => Covers len c u e).map (·.job)

def InTurn (len : ι → ℕ) (log : List (Placement ι m)) : Prop :=
  log.Pairwise fun e e' => e.core = e'.core → e.start + len e.job ≤ e'.start

variable {log : List (Placement ι m)} {c : Fin m} {u : ℕ}

theorem cellAt_eq_none (h : ∀ e ∈ log, ¬ Covers len c u e) : cellAt len log c u = none := by
  unfold cellAt
  rw [List.find?_eq_none.mpr fun e he => by simpa using h e he]
  rfl

theorem InTurn.eq_of_covers (h : InTurn len log) {e e' : Placement ι m} (he : e ∈ log) (he' : e' ∈ log)
    (hc : Covers len c u e) (hc' : Covers len c u e') : e = e' := by
  let R : Placement ι m → Placement ι m → Prop := fun x y => Covers len c u x → Covers len c u y → x = y
  have : Std.Symm R := ⟨fun x y hxy hy hx => (hxy hx hy).symm⟩
  have hR : log.Pairwise R := by
    apply h.imp
    intro x y hxy hx hy
    have := hxy (hx.1.trans hy.1.symm)
    have := hx.2.2
    have := hy.2.1
    omega
  exact hR.forall_of_forall (fun x _ _ _ => rfl) he he' hc hc'

theorem InTurn.cellAt_eq (h : InTurn len log) {e : Placement ι m} (he : e ∈ log) (hc : Covers len c u e) :
    cellAt len log c u = some e.job := by
  unfold cellAt
  cases hf : log.find? fun e => Covers len c u e with
  | none =>
    have := List.find?_eq_none.mp hf e he
    simp [hc] at this
  | some e' =>
    have hc' := List.find?_some hf
    simp only [decide_eq_true_eq] at hc'
    rw [h.eq_of_covers (List.mem_of_find?_eq_some hf) he hc' hc]
    rfl

theorem mem_of_cellAt {i : ι} (h : cellAt len log c u = some i) : ∃ e ∈ log, Covers len c u e ∧ e.job = i := by
  obtain ⟨e, hf, hi⟩ := Option.map_eq_some_iff.mp h
  have hc := List.find?_some hf
  simp only [decide_eq_true_eq] at hc
  exact ⟨e, List.mem_of_find?_eq_some hf, hc, hi⟩

theorem cellAt_append {later : List (Placement ι m)} (h : ∀ e ∈ later, u < e.start) :
    cellAt len (log ++ later) c u = cellAt len log c u := by
  unfold cellAt
  have hnone : (later.find? fun e => Covers len c u e) = none := by
    rw [List.find?_eq_none]
    intro e he
    have := h e he
    rw [decide_eq_true_eq]
    intro hc
    have := hc.2.1
    omega
  rw [List.find?_append, hnone, Option.or_none]

theorem listSchedule_free (rest : List ι) : ∀ e ∈ listSchedule arr len free rest, free e.core ≤ e.start := by
  induction rest generalizing free with
  | nil => exact nofun
  | cons i rest ih =>
    rcases Nat.eq_zero_or_pos m with rfl | hm
    · exact fun e _ => e.core.elim0
    obtain ⟨t, c, hs⟩ := exists_starts hm arr free i
    rw [listSchedule_cons hs]
    intro e he
    rcases List.mem_cons.mp he with rfl | he
    · exact hs.idle
    · have hle := ih e he
      by_cases hcc : e.core = c
      · have hidle := hs.idle
        rw [hcc] at hle ⊢
        rw [Function.update_self] at hle
        omega
      · rwa [Function.update_of_ne hcc] at hle

theorem listSchedule_inTurn (rest : List ι) : InTurn len (listSchedule arr len free rest) := by
  induction rest generalizing free with
  | nil => exact List.Pairwise.nil
  | cons i rest ih =>
    rcases Nat.eq_zero_or_pos m with rfl | hm
    · exact List.Pairwise.nil
    obtain ⟨t, c, hs⟩ := exists_starts hm arr free i
    rw [listSchedule_cons hs]
    refine List.pairwise_cons.mpr ⟨fun e he hc => ?_, ih⟩
    have hle := listSchedule_free rest e he
    rw [← hc] at hle
    simpa using hle

/-! ## Progress -/

/-- Before tick `t`, `log` has been placed, the processors are free from `free`
on, and the jobs of `rest` are left. -/
structure Progress (arr len : ι → ℕ) (jobs : List ι) (t : ℕ) (free : Fin m → ℕ) (rest : List ι)
    (log : List (Placement ι m)) : Prop where
  split : listSchedule arr len (fun _ => 0) jobs = log ++ listSchedule arr len free rest
  sorted : rest.Pairwise fun i j => arr i ≤ arr j
  tight : ∀ i ∈ rest, t ≤ arr i ∨ ∀ c, t ≤ free c
  ends : ∀ e ∈ log, e.start + len e.job ≤ free e.core
  apart : InTurn len log

theorem Progress.init {jobs : List ι} (h : jobs.Pairwise fun i j => arr i ≤ arr j) :
    Progress (m := m) arr len jobs 0 (fun _ => 0) jobs [] where
  split := rfl
  sorted := h
  tight := fun _ _ => Or.inl (Nat.zero_le _)
  ends := nofun
  apart := List.Pairwise.nil

variable {jobs rest : List ι} {t : ℕ}

theorem Progress.start {i : ι} (h : Progress arr len jobs t free (i :: rest) log) (ha : arr i ≤ t)
    (hc : free c ≤ t) (hlow : ∀ c' < c, t < free c') :
    Progress arr len jobs t (Function.update free c (t + len i)) rest (log ++ [⟨i, c, t⟩]) := by
  have hs : Starts arr free i t c := ⟨ha, hc, hlow, h.tight i List.mem_cons_self⟩
  obtain ⟨hle, hsorted⟩ := List.pairwise_cons.mp h.sorted
  refine ⟨?_, hsorted, fun j hj => ?_, fun e he => ?_, ?_⟩
  · rw [h.split, listSchedule_cons hs, List.append_assoc]
    rfl
  · rcases h.tight i List.mem_cons_self with h1 | h1
    · exact Or.inl (le_trans h1 (hle j hj))
    · refine Or.inr fun c' => ?_
      by_cases hcc : c' = c
      · subst hcc; simp
      · rw [Function.update_of_ne hcc]; exact h1 c'
  · rcases List.mem_append.mp he with he | he
    · have := h.ends e he
      by_cases hcc : e.core = c
      · rw [hcc] at this ⊢
        rw [Function.update_self]
        omega
      · rw [Function.update_of_ne hcc]; exact this
    · obtain rfl := List.mem_singleton.mp he
      simp
  · refine List.pairwise_append.mpr ⟨h.apart, List.pairwise_singleton _ _, fun e he e' he' hcc => ?_⟩
    obtain rfl := List.mem_singleton.mp he'
    have hend := h.ends e he
    rw [hcc] at hend
    exact le_trans hend hc

theorem Progress.next (h : Progress arr len jobs t free rest log)
    (hfull : (∀ i ∈ rest, t < arr i) ∨ ∀ c, t < free c) : Progress arr len jobs (t + 1) free rest log := by
  refine ⟨h.split, h.sorted, fun i hi => ?_, h.ends, h.apart⟩
  rcases hfull with hf | hf
  · exact Or.inl (hf i hi)
  · exact Or.inr hf

theorem listSchedule_later (hsorted : rest.Pairwise fun i j => arr i ≤ arr j)
    (htight : ∀ i ∈ rest, t ≤ arr i ∨ ∀ c, t ≤ free c) : ∀ e ∈ listSchedule arr len free rest, t ≤ e.start := by
  induction rest generalizing free with
  | nil => exact nofun
  | cons i rest ih =>
    rcases Nat.eq_zero_or_pos m with rfl | hm
    · exact fun e _ => e.core.elim0
    obtain ⟨t', c, hs⟩ := exists_starts hm arr free i
    obtain ⟨hle, hsorted'⟩ := List.pairwise_cons.mp hsorted
    have htt : t ≤ t' := by
      rcases htight i List.mem_cons_self with h1 | h1
      · exact le_trans h1 hs.arrived
      · exact le_trans (h1 c) hs.idle
    rw [listSchedule_cons hs]
    intro e he
    rcases List.mem_cons.mp he with rfl | he
    · exact htt
    · refine ih hsorted' (fun j hj => ?_) e he
      rcases htight i List.mem_cons_self with h1 | h1
      · exact Or.inl (le_trans h1 (hle j hj))
      · refine Or.inr fun c' => ?_
        by_cases hcc : c' = c
        · subst hcc
          rw [Function.update_self]
          omega
        · rw [Function.update_of_ne hcc]; exact h1 c'

theorem Progress.later (h : Progress arr len jobs t free rest log) : ∀ e ∈ listSchedule arr len free rest, t ≤ e.start :=
  listSchedule_later h.sorted h.tight

/-- The past columns of the schedule are those of what has been placed. -/
theorem Progress.cellAt_eq (h : Progress arr len jobs t free rest log) (hu : u < t) :
    cellAt len (listSchedule arr len (fun _ => 0) jobs) c u = cellAt len log c u := by
  rw [h.split]
  apply cellAt_append
  intro e he
  exact lt_of_lt_of_le hu (h.later e he)

end

end OsLab
