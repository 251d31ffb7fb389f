import OsLab.UserMem
import OsLab.VmPanics

/-!
# The memory around a copy

A copy to a user buffer takes free pages and writes to the buffer; other bytes
keep their values (`Keeps`). A copy that fails has written the part of the buffer
that it got to (`reach`).
-/

namespace OsLab

open Mach

namespace UserMem

section
variable {pt : PageTable} {m : Mem} {free : List Page} {sz v : Nat}

/-! ## What `copyout` keeps -/

structure Fresh (pt : PageTable) (free : List Page) : Prop where
  nodup : free.Nodup
  unmapped : ∀ v e, pt.leaf v = some e → e.pa ∉ free

theorem Fresh.userPage (h : Fresh pt free) {pa : Page} (hpa : userPage pt v = some pa) :
    pa ∉ free := by
  unfold UserMem.userPage at hpa
  split at hpa
  · obtain ⟨e, hl, he⟩ := Option.bind_eq_some_iff.mp hpa
    split at he
    · cases he; exact h.unmapped v e hl
    · cases he
  · cases hpa

structure Grows (pt : PageTable) (free : List Page) (pt' : PageTable) (free' : List Page) :
    Prop where
  fresh : Fresh pt' free'
  free : ∀ p ∈ free', p ∈ free
  leaf : ∀ u e, pt.leaf u = some e → pt'.leaf u = some e

theorem Fresh.grows (h : Fresh pt free) {pt' : PageTable} {free' : List Page}
    (hleaf : pt'.leaf = pt.leaf) (hfree : free'.Sublist free) : Grows pt free pt' free' where
  fresh := ⟨h.nodup.sublist hfree, fun v e hl hp =>
    h.unmapped v e (hleaf ▸ hl) (hfree.subset hp)⟩
  free := fun _ hp => hfree.subset hp
  leaf := fun _ _ hl => hleaf ▸ hl

theorem Grows.userPage {pt' : PageTable} {free' : List Page} (h : Grows pt free pt' free')
    {pa : Page} (hpa : userPage pt v = some pa) : userPage pt' v = some pa := by
  unfold UserMem.userPage at *
  split at hpa
  · rename_i hv
    obtain ⟨e, hl, he⟩ := Option.bind_eq_some_iff.mp hpa
    rw [if_pos hv, h.leaf v e hl]
    exact he
  · cases hpa

theorem vmfault_grows (hF : Fresh pt free) (va : Nat) :
    Ensures (OsLab.vmfault pt sz va) free fun r free' => Grows pt free r.2 free' ∧
      ∀ pa, r.1 = some pa → pa ∈ free ∧ UserMem.userPage r.2 (va / pgSize) = some pa := by
  have same : Grows pt free pt free := hF.grows rfl (List.Sublist.refl free)
  refine Ensures.ite (fun _ => Ensures.pure ⟨same, nofun⟩) fun _ => ?_
  refine Ensures.bind ((present_spec pt _ free).mono ?_)
  rintro r _ ⟨rfl, rfl, hv⟩
  cases hl : pt.leaf (va / pgSize) with
  | some _ => exact Ensures.pure ⟨same, nofun⟩
  | none =>
    refine Ensures.bind ((kalloc_suffix _).mono fun r free₁ hk => ?_)
    cases r with
    | none => exact Ensures.pure ⟨hF.grows rfl hk.1.sublist, nofun⟩
    | some mem =>
      obtain rfl := hk.2 mem rfl
      refine Ensures.bind (((mappages_spec pt _ free₁ _).and mappages_suffix).mono ?_)
      rintro ⟨ok, pt₂⟩ free₂ ⟨⟨-, -, hok, hno⟩, hsuf⟩
      have hcons : (mem :: free₂).Sublist (mem :: free₁) := hsuf.sublist.cons_cons mem
      refine Ensures.ite (fun h => Ensures.pure ?_) fun h => ?_
      · obtain ⟨-, hleaf⟩ := hok h
        have hmem : mem ∉ free₂ := (List.nodup_cons.mp (hF.nodup.sublist hcons)).1
        have hsub := (List.sublist_cons_self mem free₂).trans hcons
        refine ⟨⟨⟨hF.nodup.sublist hsub, fun u e hu => ?_⟩, fun p hp => hsub.subset hp,
          fun u e hu => ?_⟩, fun pa hpa => ?_⟩
        · dsimp only at hu
          rw [hleaf] at hu
          by_cases huv : u = va / pgSize
          · rw [huv, Function.update_self] at hu
            cases hu
            exact hmem
          · rw [Function.update_of_ne huv] at hu
            exact fun hp => hF.unmapped u e hu (hsub.subset hp)
        · have huv : u ≠ va / pgSize := fun huv => by rw [huv, hl] at hu; cases hu
          dsimp only
          rw [hleaf, Function.update_of_ne huv]
          exact hu
        · cases hpa
          refine ⟨List.mem_cons_self .., ?_⟩
          unfold UserMem.userPage
          dsimp only
          rw [if_pos hv, hleaf, Function.update_self]
          rfl
      · refine Ensures.bind fun _ _ hk => ?_
        cases hk
        exact Ensures.pure ⟨hF.grows (hno (by simpa using h)) hcons, nofun⟩

/-- And outside the offsets in `I` no page in use was written to. -/
structure Keeps (I : Nat → Prop) (pt : PageTable) (m : Mem) (pt' : PageTable) (m' : Mem) : Prop
    extends Grows pt m.free pt' m'.free where
  ram : ∀ p i, p ∉ m.free → ¬ I i → m'.ram p i = m.ram p i

namespace Keeps
variable {I J : Nat → Prop} {pt' pt'' : PageTable} {m' m'' : Mem}

theorem refl (h : Fresh pt m.free) : Keeps I pt m pt m :=
  ⟨h.grows rfl (List.Sublist.refl _), fun _ _ _ _ => rfl⟩

theorem mono (h : Keeps I pt m pt' m') (hIJ : ∀ i, I i → J i) : Keeps J pt m pt' m' :=
  ⟨h.toGrows, fun p i hp hi => h.ram p i hp fun hI => hi (hIJ i hI)⟩

theorem poke (h : Fresh pt m.free) (pa : Page) (o : Nat) (bs : List Byte) :
    Keeps (fun i => o ≤ i ∧ i < o + bs.length) pt m pt
      { m with ram := UserMem.poke pa o bs m.ram } :=
  ⟨h.grows rfl (List.Sublist.refl _), fun _ _ _ hi => poke_other fun hp => hi hp.2⟩

end Keeps

theorem onPages_spec {α : Type} {x : Vm α} {Q : α → List Page → Prop} (h : Ensures x m.free Q) :
    Ensures (onPages x) m fun a m' => Q a m'.free ∧ m'.ram = m.ram := by
  intro a m' hx
  unfold onPages at hx
  split at hx
  · cases hx
  · rename_i hr
    cases hx
    exact ⟨h _ _ hr, rfl⟩

theorem vmfault_keeps (hF : Fresh pt m.free) (va : Nat) :
    Ensures (vmfault pt sz va) m fun r m' => Keeps (fun _ => False) pt m r.2 m' ∧
      ∀ pa, r.1 = some pa → userPage r.2 (va / pgSize) = some pa := by
  refine Ensures.bind ((onPages_spec (vmfault_grows hF va)).mono ?_)
  rintro ⟨pa, pt'⟩ m' ⟨⟨hg, hpa⟩, hram⟩
  cases pa with
  | none => exact Ensures.pure ⟨⟨hg, fun p i _ _ => by rw [hram]⟩, nofun⟩
  | some pa =>
    refine Ensures.bind (Ensures.modify (Ensures.pure ⟨⟨hg, fun p i hp _ => ?_⟩, fun pa' h => ?_⟩))
    · -- only the page that was free is cleared
      have hne : p ≠ pa := fun h => hp (h ▸ (hpa pa rfl).1)
      exact (if_neg hne).trans (by rw [hram])
    · exact (hpa pa' h).2

theorem copyoutPage_keeps (hF : Fresh pt m.free) (v : Nat) :
    Ensures (copyoutPage pt sz v) m fun r m' => Keeps (fun _ => False) pt m r.2 m' ∧
      ∀ pa, r.1 = some pa → userPage r.2 v = some pa := by
  refine Ensures.ite (fun _ => Ensures.pure ⟨Keeps.refl hF, by simp⟩) fun hv => ?_
  -- the page is given only when its entry has `PTE_W`
  have writable {pa : Page} {pt' : PageTable} {m' : Mem} {test : Option Pte → Um (Option Page × PageTable)}
      (htest : ∀ o, ∃ r, test o = pure (r, pt') ∧ (r = some pa ∨ r = none))
      (h : Keeps (fun _ => False) pt m pt' m') (hpa : userPage pt' v = some pa) :
      Ensures (onPages (present pt' v) >>= test) m' fun r m' => Keeps (fun _ => False) pt m r.2 m' ∧
        ∀ pa, r.1 = some pa → userPage r.2 v = some pa := by
    refine Ensures.congr (bind_ok (onPages_eq (present_eq (by omega)))) ?_
    obtain ⟨r, hr, rfl | rfl⟩ := htest (pt'.leaf v)
    · rw [hr]
      exact Ensures.pure ⟨h, fun _ h' => Option.some.inj h' ▸ hpa⟩
    · rw [hr]
      exact Ensures.pure ⟨h, by simp⟩
  refine Ensures.congr (bind_ok (onPages_eq (walkaddr_eq pt v m.free))) ?_
  cases hu : userPage pt v with
  | some pa =>
    refine writable ?_ (Keeps.refl hF) hu
    rintro (_ | e)
    · exact ⟨none, rfl, .inr rfl⟩
    · exact ⟨_, rfl, ite_eq_or_eq ..⟩
  | none =>
    have hvm : v * pgSize / pgSize = v := Nat.mul_div_cancel v (by decide)
    refine Ensures.bind ((vmfault_keeps hF (v * pgSize)).mono ?_)
    rintro ⟨pa, pt'⟩ m' ⟨h, hpa⟩
    cases pa with
    | none => exact Ensures.pure ⟨h, by simp⟩
    | some pa =>
      refine writable ?_ h (hvm ▸ hpa pa rfl)
      rintro (_ | e)
      · exact ⟨none, rfl, .inr rfl⟩
      · exact ⟨_, rfl, ite_eq_or_eq ..⟩

def OnlyUsed (va len : Nat) (m : Mem) (pt' : PageTable) (m' : Mem) : Prop :=
  ∀ p i, p ∉ m.free → m'.ram p i ≠ m.ram p i →
    ∃ j < len, userPage pt' ((va + j) / pgSize) = some p ∧ (va + j) % pgSize = i

theorem copyoutLoop_only {o n : Nat} {src : List Byte} (hF : Fresh pt m.free) (ho : o < pgSize) :
    Ensures (copyoutLoop sz pt v o src n) m fun r m' =>
      Grows pt m.free r.2 m'.free ∧ OnlyUsed (v * pgSize + o) src.length m r.2 m' := by
  induction n generalizing pt m v o src with
  | zero => exact Ensures.pure ⟨hF.grows rfl (List.Sublist.refl _), fun p i _ h => absurd rfl h⟩
  | succ n ih =>
    refine Ensures.bind ((copyoutPage_keeps hF v).mono ?_)
    rintro ⟨pa, pt₁⟩ m₁ ⟨h₁, hpa⟩
    have same : ∀ p i, p ∉ m.free → m₁.ram p i = m.ram p i := fun p i hp => h₁.ram p i hp id
    cases pa with
    | none => exact Ensures.pure ⟨h₁.toGrows, fun p i hp h => absurd (same p i hp) h⟩
    | some pa =>
      have hdiv : (v * pgSize + o) / pgSize = v := by unfold pgSize at *; omega
      have hmod : (v * pgSize + o) % pgSize = o := by unfold pgSize at *; omega
      have hfit : (v * pgSize + o) % pgSize + (src.take (pgSize - o)).length ≤ pgSize := by
        rw [hmod, List.length_take]; omega
      have hpoke : OnlyIn pt₁ _ _ _ _ := poke_onlyIn (hdiv.symm ▸ hpa pa rfl) hfit m₁.ram
      rw [hmod] at hpoke
      refine Ensures.bind (Ensures.modify ?_)
      have h₂ := Keeps.poke h₁.fresh pa o (src.take (pgSize - o))
      refine (ih h₂.fresh (by decide)).mono fun r m' ⟨hg, honly⟩ => ⟨?_, fun p i hp hne => ?_⟩
      · exact ⟨hg.fresh, fun p hp => h₁.free p (hg.free p hp), fun u e hu => hg.leaf u e (h₁.leaf u e hu)⟩
      -- the byte was written in this round or in a later one
      by_cases hlater : m'.ram p i = poke pa o (src.take (pgSize - o)) m₁.ram p i
      · obtain ⟨j, hj, hat, hi⟩ := hpoke p i (by rw [← hlater, same p i hp]; exact hne)
        rw [List.length_take] at hj
        exact ⟨j, by omega, hg.userPage hat, hi⟩
      · obtain ⟨j, hj, hat⟩ := honly p i (fun h => hp (h₁.free p h)) hlater
        rw [List.length_drop] at hj
        refine ⟨pgSize - o + j, by omega, ?_⟩
        rw [show v * pgSize + o + (pgSize - o + j) = (v + 1) * pgSize + 0 + j by rw [Nat.succ_mul]; omega]
        exact hat

def Offsets (o len i : Nat) : Prop := ∃ j < len, (o + j) % pgSize = i

theorem copyoutLoop_keeps {o n : Nat} {src : List Byte} (hF : Fresh pt m.free) (ho : o < pgSize) :
    Ensures (copyoutLoop sz pt v o src n) m fun r m' =>
      Keeps (Offsets o src.length) pt m r.2 m' := by
  refine (copyoutLoop_only hF ho).mono fun r m' ⟨hg, honly⟩ => ⟨hg, fun p i hp hi => ?_⟩
  by_contra hne
  obtain ⟨j, hj, -, hat⟩ := honly p i hp hne
  rw [Nat.add_assoc, Nat.mul_add_mod_self_right] at hat
  exact hi ⟨j, hj, hat⟩

theorem copyout_keeps (hF : Fresh pt m.free) (va : Nat) (src : List Byte) :
    Ensures (copyout pt sz va src) m fun r m' => Keeps (Offsets va src.length) pt m r.2 m' := by
  refine Ensures.ite (fun _ => Ensures.pure (Keeps.refl hF)) fun _ => ?_
  refine (copyoutLoop_keeps hF (Nat.mod_lt _ (by decide))).mono fun r m' h => h.mono ?_
  intro i ⟨j, hj, hi⟩
  rw [Nat.mod_add_mod] at hi
  exact ⟨j, hj, hi⟩

theorem copyout_only (hF : Fresh pt m.free) (va : Nat) (src : List Byte) :
    Ensures (copyout pt sz va src) m fun r m' => OnlyUsed va src.length m r.2 m' := by
  refine Ensures.ite (fun _ => Ensures.pure fun p i _ h => absurd rfl h) fun _ => ?_
  refine (copyoutLoop_only hF (Nat.mod_lt _ (by decide))).mono fun r m' h => ?_
  have := h.2
  rwa [Nat.div_add_mod'] at this

theorem Keeps.peek {I : Nat → Prop} {pt' : PageTable} {m' : Mem} (h : Keeps I pt m pt' m')
    (hF : Fresh pt m.free) {va : Nat} {b : Byte} (hb : peek pt m.ram va = some b)
    (hI : ¬ I (va % pgSize)) : UserMem.peek pt' m'.ram va = some b := by
  unfold UserMem.peek at *
  obtain ⟨pa, hpa, hram⟩ := Option.map_eq_some_iff.mp hb
  rw [h.userPage hpa, ← hram]
  exact congrArg some (h.ram pa _ (hF.userPage hpa) hI)

/-! ## How far `copyout` gets -/

/-- Of `len` bytes from offset `o` of page `v` on, those before the first page that cannot
be made writable. -/
def reachLoop (sz : Nat) (pt : PageTable) (v o len : Nat) : Nat → List Page → Nat
  | 0, _ => 0
  | n + 1, free =>
    match OsLab.copyoutPage pt sz v free with
    | .ok ((true, pt'), free') =>
      min (pgSize - o) len + reachLoop sz pt' (v + 1) 0 (len - (pgSize - o)) n free'
    | _ => 0

def reach (pt : PageTable) (sz va len : Nat) (free : List Page) : Nat :=
  reachLoop sz pt (va / pgSize) (va % pgSize) len (pages va len) free

theorem reachLoop_le (sz : Nat) (pt : PageTable) (v o len n : Nat) (free : List Page) :
    reachLoop sz pt v o len n free ≤ len := by
  induction n generalizing pt v o len free with
  | zero => exact Nat.zero_le _
  | succ n ih =>
    unfold reachLoop
    split
    · rename_i pt' free' _
      have := ih pt' (v + 1) 0 (len - (pgSize - o)) free'
      omega
    · exact Nat.zero_le _

theorem reach_le (pt : PageTable) (sz va len : Nat) (free : List Page) :
    reach pt sz va len free ≤ len :=
  reachLoop_le ..

theorem reachLoop_page {r : Option Page × PageTable} {m' : Mem}
    (h : copyoutPage pt sz v m = .ok (r, m')) (o len n : Nat) :
    reachLoop sz pt v o len (n + 1) m.free = if r.1.isSome then
      min (pgSize - o) len + reachLoop sz r.2 (v + 1) 0 (len - (pgSize - o)) n m'.free else 0 := by
  have hsim := (copyoutPage_sim : Sim _ (copyoutPage pt sz v) _) m
  rw [h] at hsim
  rw [reachLoop, ← hsim]
  obtain ⟨pa, pt'⟩ := r
  cases pa <;> rfl

/-- What `copyout` does is not affected by bytes that it does not get to. -/
theorem copyoutLoop_congr {o n : Nat} {src src' : List Byte} (hlen : src.length = src'.length)
    (h : ∀ i < reachLoop sz pt v o src.length n m.free, src[i]? = src'[i]?) :
    copyoutLoop sz pt v o src n m = copyoutLoop sz pt v o src' n m := by
  induction n generalizing pt m v o src src' with
  | zero => rfl
  | succ n ih =>
    unfold copyoutLoop
    cases hp : copyoutPage pt sz v m with
    | error e => rw [bind_error hp, bind_error hp]
    | ok r =>
      rw [bind_ok hp, bind_ok hp]
      rw [reachLoop_page hp] at h
      obtain ⟨⟨pa, pt₁⟩, m₁⟩ := r
      cases pa with
      | none => rfl
      | some pa =>
        dsimp only [Option.isSome] at h ⊢
        rw [if_pos rfl] at h
        -- past the end there is nothing on either side
        have hend : ∀ i, src.length ≤ i → src[i]? = src'[i]? := fun i hi => by
          rw [List.getElem?_eq_none hi, List.getElem?_eq_none (hlen ▸ hi)]
        have htake : src.take (pgSize - o) = src'.take (pgSize - o) := by
          refine List.ext_getElem? fun i => ?_
          rw [List.getElem?_take, List.getElem?_take]
          refine ite_congr rfl (fun hi => ?_) fun _ => rfl
          by_cases hi' : i < src.length
          · exact h i (by omega)
          · exact hend i (by omega)
        refine (bind_ok rfl).trans (Eq.trans ?_ (bind_ok rfl).symm)
        rw [htake]
        refine ih (by simp [hlen]) fun i hi => ?_
        dsimp only at hi
        rw [List.length_drop] at hi
        rw [List.getElem?_drop, List.getElem?_drop]
        by_cases hi' : pgSize - o + i < src.length
        · exact h _ (by omega)
        · exact hend _ (by omega)

theorem copyout_congr {va : Nat} {src src' : List Byte} (hlen : src.length = src'.length)
    (h : ∀ i < reach pt sz va src.length m.free, src[i]? = src'[i]?) :
    copyout pt sz va src m = copyout pt sz va src' m := by
  unfold copyout
  rw [← hlen]
  split
  · rfl
  · exact copyoutLoop_congr hlen h

theorem copyoutLoop_reach {o n : Nat} {src : List Byte} (hF : Fresh pt m.free) (ho : o < pgSize)
    (hlen : src.length ≤ pgSize) :
    Ensures (copyoutLoop sz pt v o src n) m fun r m' =>
      ∀ b (hb : b < src.length), b < reachLoop sz pt v o src.length n m.free →
        peek r.2 m'.ram (v * pgSize + o + b) = some (src.get ⟨b, hb⟩) := by
  induction n generalizing pt m v o src with
  | zero => exact Ensures.pure fun b hb h => absurd h (Nat.not_lt_zero b)
  | succ n ih =>
    refine Ensures.bind fun r m₁ hr => ?_
    obtain ⟨h₁, hpa⟩ := copyoutPage_keeps hF v r m₁ hr
    rw [reachLoop_page hr]
    obtain ⟨pa, pt₁⟩ := r
    cases pa with
    | none => exact Ensures.pure fun b hb h => absurd h (Nat.not_lt_zero b)
    | some pa =>
      have hdiv : (v * pgSize + o) / pgSize = v := by unfold pgSize at *; omega
      have hmod : (v * pgSize + o) % pgSize = o := by unfold pgSize at *; omega
      have hfit : (v * pgSize + o) % pgSize + (src.take (pgSize - o)).length ≤ pgSize := by
        rw [hmod, List.length_take]; omega
      have hfirst := fun i => peek_poke (hdiv.symm ▸ hpa pa rfl) hfit m₁.ram (i := i)
      rw [hmod] at hfirst
      refine Ensures.bind (Ensures.modify ?_)
      have h₂ := Keeps.poke h₁.fresh pa o (src.take (pgSize - o))
      refine ((copyoutLoop_keeps h₂.fresh (by decide)).and (ih h₂.fresh (by decide)
        (by rw [List.length_drop]; omega))).mono fun r m' h => ?_
      intro b hb hreach
      by_cases hlt : b < pgSize - o
      · have hb' : b < (src.take (pgSize - o)).length := by rw [List.length_take]; omega
        refine (h.1.peek h₂.fresh (hfirst b hb') ?_).trans (by simp)
        rw [List.length_drop]
        intro ⟨j, hj, heq⟩
        unfold pgSize at *
        omega
      · have hb' : b - (pgSize - o) < (src.drop (pgSize - o)).length := by
          rw [List.length_drop]; omega
        have hreach' : b < min (pgSize - o) src.length +
            reachLoop sz pt₁ (v + 1) 0 (src.length - (pgSize - o)) n m₁.free := hreach
        have hrest := h.2 (b - (pgSize - o)) hb' (by dsimp only; rw [List.length_drop]; omega)
        rw [show (v + 1) * pgSize + 0 + (b - (pgSize - o)) = v * pgSize + o + b by
          rw [Nat.succ_mul]; omega] at hrest
        rw [hrest]
        simp [show pgSize - o + (b - (pgSize - o)) = b by omega]

theorem copyout_reach {va : Nat} {src : List Byte} (hF : Fresh pt m.free)
    (hlen : src.length ≤ pgSize) :
    Ensures (copyout pt sz va src) m fun r m' =>
      ∀ b (hb : b < src.length), b < reach pt sz va src.length m.free →
        peek r.2 m'.ram (va + b) = some (src.get ⟨b, hb⟩) := by
  refine Ensures.ite (fun hz => Ensures.pure fun b hb => absurd hb (by omega)) fun _ => ?_
  refine (copyoutLoop_reach hF (Nat.mod_lt _ (by decide)) hlen).mono fun r m' h b hb hr => ?_
  rw [← h b hb hr, Nat.div_add_mod']

theorem copyoutLoop_done {o n : Nat} {src : List Byte} (ho : o < pgSize)
    (hn : o + src.length ≤ n * pgSize) :
    Ensures (copyoutLoop sz pt v o src n) m fun r _ =>
      r.1 = true → reachLoop sz pt v o src.length n m.free = src.length := by
  induction n generalizing pt m v o src with
  | zero => exact Ensures.pure fun _ => by rw [reachLoop]; omega
  | succ n ih =>
    refine Ensures.bind fun r m₁ hr => ?_
    rw [reachLoop_page hr]
    obtain ⟨pa, pt₁⟩ := r
    cases pa with
    | none => exact Ensures.pure nofun
    | some pa =>
      refine Ensures.bind (Ensures.modify ?_)
      rw [Nat.succ_mul] at hn
      have hdrop : (src.drop (pgSize - o)).length = src.length - (pgSize - o) := List.length_drop
      refine (ih (by decide) (by rw [hdrop]; omega)).mono fun r m' h hok => ?_
      have hrest := h hok
      dsimp only at hrest ⊢
      rw [hdrop] at hrest
      rw [if_pos (show (some pa).isSome = true from rfl), hrest]
      omega

theorem copyout_done {va : Nat} {src : List Byte} :
    Ensures (copyout pt sz va src) m fun r _ =>
      r.1 = true → src ≠ [] → reach pt sz va src.length m.free = src.length := by
  refine Ensures.ite (fun hz => Ensures.pure fun _ h => ?_) fun hz => ?_
  · exact absurd (List.length_eq_zero_iff.mp hz) h
  · refine (copyoutLoop_done (Nat.mod_lt _ (by decide)) ?_).mono fun r m' h hok _ => h hok
    unfold pages pgSize
    omega

theorem copyout_ok (va : Nat) (src : List Byte) (m : Mem) :
    ∃ r m', copyout pt sz va src m = .ok (r, m') := by
  have hno : Fails (copyout pt sz va src) m fun _ => False := (copyout_sim va src).fails copyout_fails
  cases h : copyout pt sz va src m with
  | error e => exact (hno e h).elim
  | ok r => exact ⟨r.1, r.2, rfl⟩

end

end UserMem

end OsLab
