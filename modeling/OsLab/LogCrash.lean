import OsLab.LogMove

/-!
# The log makes operations atomic

Over every run with crashes, the log refines a store with transactions: what the
disk is worth after a crash is what was saved, and what the processes read is what
they have written. The invariant follows the process that commits or recovers.
-/

namespace OsLab

namespace Log

open Sys

abbrev Tx := TxStore Slot Nat Block

/-! ## Places -/

def inOp : LogPlace → Bool
  | .inOp | .logAcquire _ | .logWrite _ | .brelse _ | .endAcquire | .endBody => true
  | _ => false

def commits : LogPlace → Bool
  | .commit | .writeLog _ | .writeHead | .install _ | .clearHead | .doneAcquire | .doneBody => true
  | _ => false

def recovers : LogPlace → Bool
  | .readHead | .recover _ | .recoverHead => true
  | _ => false

def busy (p : LogPlace) : Bool := commits p || recovers p

def buffer : LogPlace → Option Nat
  | .logAcquire b | .logWrite b | .brelse b => some b
  | _ => none

def logged : LogPlace → Option Nat
  | .brelse b => some b
  | _ => none

theorem inOp_of_logged {p : LogPlace} {b : Nat} (h : logged p = some b) : inOp p = true := by
  cases p <;> first | rfl | cases h

theorem inOp_of_buffer {p : LogPlace} {b : Nat} (h : buffer p = some b) : inOp p = true := by
  cases p <;> first | rfl | cases h

/-! ## The invariant -/

section
variable (start : Nat) (d : LogData) (t : Tx)

def Normal : Prop :=
  blocksOf (d.disk start) = [] ∧ ∀ b, d.pins b = if b ∈ d.block then 1 else 0

def Copied (block : List Nat) (k : Nat) : Prop :=
  ∀ tail b, tail < k → block[tail]? = some b → d.disk (start + tail + 1) = content d b

def Installed (block : List Nat) (k : Nat) : Prop :=
  ∀ tail b, tail < k → block[tail]? = some b → d.disk b = d.disk (start + tail + 1)

def Phase : LogPlace → Prop
  | .writeLog k => Normal start d ∧ Copied start d d.block k
  | .writeHead => Normal start d ∧ Copied start d d.block d.block.length
  | .install k => blocksOf (d.disk start) = d.block ∧ Copied start d d.block d.block.length ∧
    ∀ b, d.pins b = if b ∈ d.block.drop k then 1 else 0
  | .clearHead => d.block = [] ∧ (∀ b, d.pins b = 0) ∧
    Copied start d (blocksOf (d.disk start)) (blocksOf (d.disk start)).length
  | .doneAcquire | .doneBody => d.block = [] ∧ Normal start d
  | .readHead => t.now = t.saved ∧ d.block = [] ∧ ∀ b, d.pins b = 0
  | .recover k => t.now = t.saved ∧ d.block = blocksOf (d.disk start) ∧ (∀ b, d.pins b = 0) ∧
    Installed start d d.block k
  | .recoverHead => t.now = t.saved ∧ d.block = [] ∧ (∀ b, d.pins b = 0) ∧
    Installed start d (blocksOf (d.disk start)) (blocksOf (d.disk start)).length
  | _ => Normal start d

end

structure Live (start : Nat) (s : LogSys) (t : Tx) : Prop where
  block : Valid start s.data.block
  clean : ∀ b, s.data.pins b = 0 → s.data.holder b = none → content s.data b = s.data.disk b
  pins : ∀ b, s.data.pins b ≠ 0 → Home start b
  locks : ∀ b i, s.data.holder b = some i ↔ buffer (s.pc i).next = some b
  home : ∀ i b, buffer (s.pc i).next = some b → Home start b
  logged : ∀ i b, logged (s.pc i).next = some b → b ∈ s.data.block
  active : ∀ i, i ∈ t.active ↔ inOp (s.pc i).next = true
  outstanding : s.data.outstanding = t.active.card
  committing : s.data.committing = true ↔ ∃ i, commits (s.pc i).next = true
  alone : ∀ i j, busy (s.pc i).next = true → busy (s.pc j).next = true → j = i
  idle : ∀ i, busy (s.pc i).next = true → t.active = ∅
  unused : ∀ i j, recovers (s.pc i).next = true → j ≠ i → s.state j = .unused
  phase : ∀ i, busy (s.pc i).next = true → Phase start s.data t (s.pc i).next
  normal : (∀ i, busy (s.pc i).next = false) → Normal start s.data
  empty : (∀ i, busy (s.pc i).next = false) → t.active = ∅ → s.data.block = []
  now : (∀ i, recovers (s.pc i).next = false) → ∀ b, Home start b → content s.data b = t.now b

structure Rel (start : Nat) (s : LogSys) (t : Tx) : Prop where
  header : Valid start (blocksOf (s.data.disk start))
  saved : ∀ b, Home start b → recovered start s.data.disk b = t.saved b
  live : s.data.panicked = none → Live start s t

section
variable {start : Nat} {i : Slot} {p q : LogPlace} {s s' : LogSys} {t t' : Tx} {e : Option TxAct}

theorem not_home_log {tail : Nat} (h : tail < logBlocks) : ¬ Home start (start + tail + 1) := by
  unfold Home logBlocks at *
  omega

theorem Home.ne_head {b : Nat} (h : Home start b) : b ≠ start := by
  unfold Home at h
  omega

theorem Home.ne_log {tail b : Nat} (h : Home start b) (ht : tail < logBlocks) : b ≠ start + tail + 1 := by
  rintro rfl
  exact not_home_log ht h

theorem Valid.lt {block : List Nat} {tail b : Nat} (h : Valid start block)
    (hb : block[tail]? = some b) : tail < logBlocks := by
  have := (List.getElem?_eq_some_iff.mp hb).1
  have := h.length
  omega

theorem Valid.get {block : List Nat} {tail b : Nat} (h : Valid start block)
    (hb : block[tail]? = some b) : Home start b :=
  h.home b (List.mem_of_getElem? hb)

namespace Live

theorem free (h : Live start s t) (ht : t.active = ∅) (b : Nat) : s.data.holder b = none := by
  cases hb : s.data.holder b with
  | none => rfl
  | some i =>
    have hi := (h.active i).mpr (inOp_of_buffer ((h.locks b i).mp hb))
    rw [ht] at hi
    simp at hi

theorem clean_log (h : Live start s t) {b : Nat} (hb : ¬ Home start b) :
    content s.data b = s.data.disk b := by
  refine h.clean b ?_ ?_
  · by_contra hp
    exact hb (h.pins b hp)
  · cases hh : s.data.holder b with
    | none => rfl
    | some i => exact absurd (h.home i b ((h.locks b i).mp hh)) hb

theorem active_ne (h : Live start s t) (hi : inOp (s.pc i).next = true) : t.active ≠ ∅ :=
  Finset.ne_empty_of_mem ((h.active i).mpr hi)

theorem calm (h : Live start s t) (hi : inOp (s.pc i).next = true) (j : Slot) :
    busy (s.pc j).next = false := by
  by_contra hj
  exact h.active_ne hi (h.idle j (by simpa using hj))

theorem not_committing (h : Live start s t) (hcalm : ∀ j, busy (s.pc j).next = false) :
    s.data.committing = false := by
  by_contra hc
  obtain ⟨j, hj⟩ := h.committing.mp (by simpa using hc)
  have := hcalm j
  rw [busy, hj] at this
  cases this

theorem now_of_calm (h : Live start s t) (hcalm : ∀ j, busy (s.pc j).next = false) (b : Nat)
    (hb : Home start b) : content s.data b = t.now b :=
  h.now (fun j => (Bool.or_eq_false_iff.mp (hcalm j)).2) b hb

end Live

/-! ## Steps that change nothing -/

structure Same (d d' : LogData) : Prop where
  disk : d'.disk = d.disk
  content : content d' = content d
  holder : d'.holder = d.holder
  pins : d'.pins = d.pins
  block : d'.block = d.block
  outstanding : d'.outstanding = d.outstanding
  committing : d'.committing = d.committing

theorem Same.refl (d : LogData) : Same d d := ⟨rfl, rfl, rfl, rfl, rfl, rfl, rfl⟩

theorem Same.bread (d : LogData) (b : Nat) : Same d (bread d b) :=
  ⟨rfl, content_bread d b, rfl, rfl, rfl, rfl, rfl⟩

theorem Same.phase {d d' : LogData} (h : Same d d') (hp : Phase start d t p) : Phase start d' t p := by
  have heq : Phase start d' t p ↔ Phase start d t p := by
    cases p <;> simp only [Phase, Normal, Copied, Installed, h.disk, h.content, h.pins, h.block]
  exact heq.mpr hp

def kind (p : LogPlace) : Bool × Bool × Bool × Option Nat × Option Nat :=
  (inOp p, commits p, recovers p, buffer p, logged p)

/-- The step changes the place of process `i` to one of the same kind. -/
theorem Live.keep (h : Live start s t) (hd : Same s.data s'.data)
    (hother : ∀ j, j ≠ i → (s'.pc j).next = (s.pc j).next)
    (hstate : (∃ k, recovers (s.pc k).next = true) → ∀ j, s.state j = .unused → s'.state j = .unused)
    (hkind : kind (s'.pc i).next = kind (s.pc i).next)
    (hphase : Phase start s.data t (s.pc i).next → Phase start s.data t (s'.pc i).next) :
    Live start s' t := by
  have hk (j : Slot) : kind (s'.pc j).next = kind (s.pc j).next := by
    by_cases hj : j = i
    · subst hj; exact hkind
    · rw [hother j hj]
  have hop (j : Slot) : inOp (s'.pc j).next = inOp (s.pc j).next := congrArg (·.1) (hk j)
  have hcom (j : Slot) : commits (s'.pc j).next = commits (s.pc j).next := congrArg (·.2.1) (hk j)
  have hrec (j : Slot) : recovers (s'.pc j).next = recovers (s.pc j).next := congrArg (·.2.2.1) (hk j)
  have hbuf (j : Slot) : buffer (s'.pc j).next = buffer (s.pc j).next := congrArg (·.2.2.2.1) (hk j)
  have hlog (j : Slot) : Log.logged (s'.pc j).next = Log.logged (s.pc j).next := congrArg (·.2.2.2.2) (hk j)
  have hbusy (j : Slot) : busy (s'.pc j).next = busy (s.pc j).next := by simp only [busy, hcom, hrec]
  constructor
  case block => rw [hd.block]; exact h.block
  case clean => rw [hd.pins, hd.holder, hd.content, hd.disk]; exact h.clean
  case pins => rw [hd.pins]; exact h.pins
  case locks => rw [hd.holder]; simp only [hbuf]; exact h.locks
  case home => simp only [hbuf]; exact h.home
  case logged => simp only [hlog, hd.block]; exact h.logged
  case active => simp only [hop]; exact h.active
  case outstanding => rw [hd.outstanding]; exact h.outstanding
  case committing => rw [hd.committing]; simp only [hcom]; exact h.committing
  case alone => simp only [hbusy]; exact h.alone
  case idle => simp only [hbusy]; exact h.idle
  case unused =>
    intro k j hk hj
    rw [hrec] at hk
    exact hstate ⟨k, hk⟩ j (h.unused k j hk hj)
  case phase =>
    intro j hj
    rw [hbusy] at hj
    apply hd.phase
    by_cases hji : j = i
    · subst hji; exact hphase (h.phase j hj)
    · rw [hother j hji]; exact h.phase j hj
  case normal =>
    simp only [hbusy]
    intro hfree
    exact hd.phase (p := .user) (t := t) (h.normal hfree)
  case empty => simp only [hbusy, hd.block]; exact h.empty
  case now => simp only [hrec, hd.content]; exact h.now

theorem Live.switch (h : Live start s t) (hs : Switch s s') : Live start s' t := by
  have hf := hs.frame
  refine h.keep (i := 0) ?_ (fun j _ => hf.next j) (fun _ j hj => ?_) (by rw [hf.next]) ?_
  · rw [hf.data]; exact .refl _
  · exact (hf.state_iff (by simp [ProcState.Active])).mpr hj
  · rw [hf.next]; exact id

theorem Live.evict (h : Live start s t) {b : Nat} (hp : s.data.pins b = 0)
    (hb : s.data.holder b = none) : Live start { s with data := evict s.data b } t :=
  h.keep (i := 0) ⟨rfl, content_evict (h.clean b hp hb), rfl, rfl, rfl, rfl, rfl⟩ (fun _ _ => rfl)
    (fun _ _ hj => hj) rfl id

/-! ## Steps of the only process that matters -/

theorem phase_of_not_busy {d : LogData} (h : busy p = false) :
    Phase start d t p ↔ Normal start d := by
  cases p <;> first | rfl | cases h

theorem Live.step (h : Live start s t) (hother : ∀ j, j ≠ i → s'.pc j = s.pc j)
    (hsolo : ∀ j, j ≠ i → busy (s.pc j).next = false) (hq : (s'.pc i).next = q)
    (hstate : recovers q = true → recovers (s.pc i).next = true ∧ s'.state = s.state)
    (hblock : Valid start s'.data.block)
    (hclean : ∀ b, s'.data.pins b = 0 → s'.data.holder b = none →
      content s'.data b = s'.data.disk b)
    (hpins : ∀ b, s'.data.pins b ≠ 0 → Home start b)
    (hlock : ∀ b, s'.data.holder b = some i ↔ buffer q = some b)
    (hlocks : ∀ b j, j ≠ i → (s'.data.holder b = some j ↔ s.data.holder b = some j))
    (hhome : ∀ b, buffer q = some b → Home start b)
    (hlog : ∀ b, Log.logged q = some b → b ∈ s'.data.block)
    (hlogged : ∀ j b, Log.logged (s.pc j).next = some b → b ∈ s'.data.block)
    (hin : i ∈ t'.active ↔ inOp q = true) (hactive : ∀ j, j ≠ i → (j ∈ t'.active ↔ j ∈ t.active))
    (hout : s'.data.outstanding = t'.active.card)
    (hcom : s'.data.committing = commits q)
    (hidle : busy q = true → t'.active = ∅)
    (hphase : Phase start s'.data t' q)
    (hempty : busy q = false → t'.active = ∅ → s'.data.block = [])
    (hnow : recovers q = false → ∀ b, Home start b → content s'.data b = t'.now b) :
    Live start s' t' := by
  subst hq
  have hbusy {j : Slot} (hj : busy (s'.pc j).next = true) : j = i := by
    by_contra hji
    rw [hother j hji, hsolo j hji] at hj
    cases hj
  constructor
  case block => exact hblock
  case clean => exact hclean
  case pins => exact hpins
  case locks =>
    intro b j
    by_cases hj : j = i
    · subst hj; exact hlock b
    · rw [hother j hj, hlocks b j hj]; exact h.locks b j
  case home =>
    intro j b hj
    by_cases hji : j = i
    · subst hji; exact hhome b hj
    · rw [hother j hji] at hj; exact h.home j b hj
  case logged =>
    intro j b hj
    by_cases hji : j = i
    · subst hji; exact hlog b hj
    · rw [hother j hji] at hj; exact hlogged j b hj
  case active =>
    intro j
    by_cases hj : j = i
    · subst hj; exact hin
    · rw [hother j hj, hactive j hj]; exact h.active j
  case outstanding => exact hout
  case committing =>
    rw [hcom]
    refine ⟨fun hi => ⟨i, hi⟩, fun hj => ?_⟩
    obtain ⟨j, hj⟩ := hj
    obtain rfl := hbusy (j := j) (by rw [busy, hj, Bool.true_or])
    exact hj
  case alone => intro j k hj hk; rw [hbusy hj, hbusy hk]
  case idle => intro j hj; obtain rfl := hbusy hj; exact hidle hj
  case unused =>
    intro j k hj hk
    obtain rfl := hbusy (j := j) (by rw [busy, hj, Bool.or_true])
    obtain ⟨hwas, hst⟩ := hstate hj
    rw [hst]
    exact h.unused j k hwas hk
  case phase => intro j hj; obtain rfl := hbusy hj; exact hphase
  case normal => intro hfree; exact (phase_of_not_busy (hfree i)).mp hphase
  case empty => intro hfree; exact hempty (hfree i)
  case now => intro hfree; exact hnow (hfree i)

theorem up_of_commits (h : commits p = true) : recovers p = false := by
  cases p <;> first | rfl | cases h

structure Turn (start : Nat) (i : Slot) (p : LogPlace) (s : LogSys) (t : Tx) : Prop
    extends Live start s t where
  at_p : s.pc i = .code p
  busy_p : busy p = true

namespace Turn

theorem next (h : Turn start i p s t) : (s.pc i).next = p := by
  rw [h.at_p]
  rfl

theorem busy_i (h : Turn start i p s t) : busy (s.pc i).next = true := by
  rw [h.next]
  exact h.busy_p

theorem stage (h : Turn start i p s t) : Phase start s.data t p := by
  have := h.phase i h.busy_i
  rwa [h.next] at this

theorem nobody (h : Turn start i p s t) (j : Slot) : inOp (s.pc j).next = false := by
  by_contra hj
  exact h.active_ne (i := j) (by simpa using hj) (h.idle i h.busy_i)

theorem flushed (h : Turn start i p s t) {b : Nat} (hp : s.data.pins b = 0) :
    content s.data b = s.data.disk b :=
  h.clean b hp (h.free (h.idle i h.busy_i) b)

theorem committing_eq (h : Turn start i p s t) : s.data.committing = commits p := by
  rw [Bool.eq_iff_iff, h.committing]
  constructor
  · rintro ⟨j, hj⟩
    obtain rfl := h.alone i j h.busy_i (by rw [busy, hj, Bool.true_or])
    rwa [h.next] at hj
  · intro hp
    exact ⟨i, by rw [h.next]; exact hp⟩

theorem up (h : Turn start i p s t) (hp : commits p = true) (j : Slot) :
    recovers (s.pc j).next = false := by
  by_contra hj
  obtain rfl := h.alone i j h.busy_i (by rw [busy, Bool.eq_true_of_not_eq_false hj, Bool.or_true])
  rw [h.next] at hj
  exact hj (up_of_commits hp)

theorem go {d : LogData} {pc : Pc Unit LogPlace} (h : Turn start i p s t) (hop : inOp pc.next = false)
    (hrec : recovers pc.next = true → recovers p = true)
    (hholder : d.holder = s.data.holder) (hout : d.outstanding = s.data.outstanding)
    (hactive : t'.active = t.active) (hblock : Valid start d.block)
    (hclean : ∀ b, d.pins b = 0 → content d b = d.disk b)
    (hpins : ∀ b, d.pins b ≠ 0 → Home start b) (hcom : d.committing = commits pc.next)
    (hphase : Phase start d t' pc.next) (hempty : busy pc.next = false → d.block = [])
    (hnow : recovers pc.next = false → ∀ b, Home start b → content d b = t'.now b) :
    Live start ({ s with data := d }.goto i pc) t' := by
  have hact := h.idle i h.busy_i
  have hbuf (b : Nat) : buffer pc.next ≠ some b := fun hb => by
    rw [inOp_of_buffer hb] at hop
    cases hop
  refine h.step (i := i) (fun j hj => goto_other _ _ hj) (fun j hj => ?_) (by rw [goto_self])
    (fun hr => ⟨by rw [h.next]; exact hrec hr, rfl⟩) hblock (fun b hb _ => hclean b hb) hpins
    (fun b => iff_of_false ?_ (hbuf b)) (fun b j _ => ?_) (fun b hb => absurd hb (hbuf b))
    (fun b hb => ?_) (fun j b hj => ?_) ?_ (fun j _ => by rw [hactive]) ?_ hcom
    (fun _ => hactive.trans hact) hphase (fun hfree _ => hempty hfree) hnow
  · by_contra hno
    exact hj (h.alone i j h.busy_i (by simpa using hno))
  · change d.holder b ≠ some i
    rw [hholder, h.free hact]
    simp
  · change d.holder b = some j ↔ _
    rw [hholder]
  · rw [inOp_of_logged hb] at hop
    cases hop
  · have hin := inOp_of_logged hj
    rw [h.nobody j] at hin
    cases hin
  · rw [hactive, hact, hop]
    simp
  · change d.outstanding = _
    rw [hout, hactive, h.outstanding]

theorem commit {d : LogData} (h : Turn start i p s t) (hp : commits p = true) (hq : commits q = true)
    (hholder : d.holder = s.data.holder) (hout : d.outstanding = s.data.outstanding)
    (hcom : d.committing = s.data.committing) (hactive : t'.active = t.active) (hnow : t'.now = t.now)
    (hblock : Valid start d.block) (hclean : ∀ b, d.pins b = 0 → content d b = d.disk b)
    (hpins : ∀ b, d.pins b ≠ 0 → Home start b) (hphase : Phase start d t' q)
    (hcont : ∀ b, Home start b → content d b = content s.data b) : Live start (set s d i q) t' := by
  refine h.go ?_ ?_ hholder hout hactive hblock hclean hpins ?_ hphase ?_ fun _ b hb => ?_
  · cases q <;> first | rfl | cases hq
  · exact fun hr => absurd ((up_of_commits hq).symm.trans hr) (by simp)
  · rw [hcom, h.committing_eq, hp]
    exact hq.symm
  · intro hno
    change busy q = false at hno
    rw [busy, hq] at hno
    cases hno
  · rw [hcont b hb, hnow]
    exact h.now (h.up hp) b hb

end Turn

/-! ## The commit -/

theorem update_clean {c : Nat → Block} {disk : Nat → Block} {b b' : Nat} {v : Block}
    (h : b' ≠ b → c b' = disk b') : Function.update c b v b' = Function.update disk b v b' := by
  by_cases hb : b' = b
  · subst hb; simp
  · simpa [hb] using h hb

theorem recovered_eq {disk : Nat → Block} {b : Nat} {v : Block} (hv : Valid start (blocksOf (disk start)))
    (hlog : ∀ tail, (blocksOf (disk start))[tail]? = some b → disk (start + tail + 1) = v)
    (hhome : b ∉ blocksOf (disk start) → disk b = v) : recovered start disk b = v := by
  by_cases hmem : b ∈ blocksOf (disk start)
  · obtain ⟨tail, hget⟩ := List.mem_iff_getElem?.mp hmem
    rw [recovered_of_mem hv.nodup hget, hlog tail hget]
  · rw [recovered_of_not_mem hmem, hhome hmem]

namespace Rel

theorem recovered_nil {disk : Nat → Block} (h : blocksOf (disk start) = []) (b : Nat) :
    recovered start disk b = disk b :=
  recovered_of_not_mem (by rw [h]; simp)

theorem update {dst : Nat} {v : Block} (h : Rel start s t)
    (hdisk : s'.data.disk = Function.update s.data.disk dst v) (hhead : start ≠ dst)
    (hlog : ∀ tail, tail < (blocksOf (s.data.disk start)).length → start + tail + 1 ≠ dst)
    (hhome : Home start dst → dst ∈ blocksOf (s.data.disk start)) (hl : Live start s' t) :
    Rel start s' t := by
  have hsame : s'.data.disk start = s.data.disk start := by rw [hdisk, Function.update_of_ne hhead]
  refine ⟨by rw [hsame]; exact h.header, fun b hb => ?_, fun _ => hl⟩
  rw [← h.saved b hb]
  refine recovered_eq (by rw [hsame]; exact h.header) (fun tail hget => ?_) fun hmem => ?_
  · rw [hsame] at hget
    rw [recovered_of_mem h.header.nodup hget, hdisk,
      Function.update_of_ne (hlog tail (List.getElem?_eq_some_iff.mp hget).1)]
  · rw [hsame] at hmem
    rw [recovered_of_not_mem hmem, hdisk, Function.update_of_ne]
    rintro rfl
    exact hmem (hhome hb)

theorem writeLog {tail b : Nat} (h : Rel start s t) (ht : Turn start i (.writeLog tail) s t)
    (hb : s.data.block[tail]? = some b) :
    Rel start (set s (copyBlock s.data (start + tail + 1) b) i (.writeLog (tail + 1))) t := by
  obtain ⟨⟨hnil, hpin⟩, hcopied⟩ := ht.stage
  have hlt := ht.block.lt hb
  have hhead : start ≠ start + tail + 1 := by omega
  have hcont (b' : Nat) (hb' : Home start b') :
      content (copyBlock s.data (start + tail + 1) b) b' = content s.data b' := by
    rw [content_copyBlock, Function.update_of_ne (hb'.ne_log hlt)]
  refine h.update (disk_copyBlock ..) hhead (by simp [hnil]) (fun hh => absurd hh (not_home_log hlt))
    (ht.commit rfl rfl rfl rfl rfl rfl rfl ht.block (fun b' hp => ?_) ht.pins ?_ hcont)
  · rw [content_copyBlock, disk_copyBlock]
    exact update_clean fun _ => ht.flushed hp
  · refine ⟨⟨by simpa [hhead] using hnil, hpin⟩, fun tail' b' htail hb' => ?_⟩
    rw [hcont b' (ht.block.get hb'), disk_copyBlock]
    by_cases heq : tail' = tail
    · subst heq
      obtain rfl : b = b' := Option.some.inj (hb.symm.trans hb')
      simp
    · rw [Function.update_of_ne (by omega)]
      exact hcopied tail' b' (by omega) hb'

theorem writeHead (ht : Turn start i .writeHead s t) :
    Rel start (set s (writeHead start s.data) i (.install 0)) { t with saved := t.now } := by
  obtain ⟨⟨hnil, hpin⟩, hcopied⟩ := ht.stage
  have hhead : blocksOf ((Log.writeHead start s.data).disk start) = s.data.block := by
    rw [disk_writeHead, Function.update_self, blocksOf_headBlock _ ht.block]
  have hlog (tail : Nat) : (Log.writeHead start s.data).disk (start + tail + 1) =
      s.data.disk (start + tail + 1) := by
    rw [disk_writeHead, Function.update_of_ne (by omega)]
  have hcont (b : Nat) (hb : Home start b) : content (Log.writeHead start s.data) b = content s.data b := by
    rw [content_writeHead, Function.update_of_ne hb.ne_head]
  have hvalid : Valid start (blocksOf ((Log.writeHead start s.data).disk start)) := by
    rw [hhead]
    exact ht.block
  refine ⟨hvalid, fun b hb => ?_, fun _ => ?_⟩
  · change recovered start (Log.writeHead start s.data).disk b = t.now b
    rw [← ht.now (ht.up rfl) b hb]
    refine recovered_eq hvalid (fun tail hget => ?_) fun hmem => ?_
    · rw [hhead] at hget
      rw [hlog]
      exact hcopied tail b (List.getElem?_eq_some_iff.mp hget).1 hget
    · rw [hhead] at hmem
      rw [disk_writeHead, Function.update_of_ne hb.ne_head]
      exact (ht.flushed (by rw [hpin, if_neg hmem])).symm
  · refine ht.commit rfl rfl rfl rfl rfl rfl rfl ht.block (fun b hp => ?_) ht.pins
      ⟨hhead, fun tail b htail hb => ?_, hpin⟩ hcont
    · rw [content_writeHead, disk_writeHead]
      exact update_clean fun _ => ht.flushed hp
    · rw [hlog, hcont b (ht.block.get hb)]
      exact hcopied tail b htail hb

theorem install {tail b : Nat} (h : Rel start s t) (ht : Turn start i (.install tail) s t)
    (hb : s.data.block[tail]? = some b) :
    Rel start (set s (bunpin (copyBlock s.data b (start + tail + 1)) b) i (.install (tail + 1))) t := by
  obtain ⟨hhead, hcopied, hpin⟩ := ht.stage
  have hhome := ht.block.get hb
  obtain ⟨hlt, hget⟩ := List.getElem?_eq_some_iff.mp hb
  -- the log block is the cached block
  have hsrc : content s.data (start + tail + 1) = content s.data b := by
    rw [ht.clean_log (not_home_log (ht.block.lt hb))]
    exact hcopied tail b hlt hb
  have hcont : content (bunpin (copyBlock s.data b (start + tail + 1)) b) = content s.data := by
    rw [content_bunpin, content_copyBlock, hsrc, Function.update_eq_self]
  have hdisk : (bunpin (copyBlock s.data b (start + tail + 1)) b).disk =
      Function.update s.data.disk b (content s.data b) := by
    rw [← hsrc]; exact disk_copyBlock ..
  have hdrop : s.data.block.drop tail = b :: s.data.block.drop (tail + 1) := by
    rw [List.drop_eq_getElem_cons hlt, hget]
  have hnodup : (b :: s.data.block.drop (tail + 1)).Nodup :=
    hdrop ▸ ht.block.nodup.sublist (List.drop_sublist ..)
  refine h.update hdisk hhome.ne_head.symm (fun tail' htail => ?_) (fun _ => ?_)
    (ht.commit rfl rfl rfl rfl rfl rfl rfl ht.block (fun b' hp => ?_) (fun b' hp => ?_)
      ⟨?_, fun tail' b' htail hb' => ?_, fun b' => ?_⟩ fun b' _ => by rw [hcont])
  · have := h.header.length
    exact (hhome.ne_log (by omega)).symm
  · rw [hhead]
    exact List.mem_of_getElem? hb
  · rw [hcont, hdisk]
    by_cases hbb : b' = b
    · subst hbb; simp
    · rw [Function.update_of_ne hbb]
      exact ht.flushed (by simpa [bunpin, hbb] using hp)
  · by_cases hbb : b' = b
    · subst hbb; exact hhome
    · exact ht.pins b' (by simpa [bunpin, hbb] using hp)
  · rw [hdisk, Function.update_of_ne hhome.ne_head.symm]; exact hhead
  · rw [hcont, hdisk, Function.update_of_ne (hhome.ne_log (ht.block.lt hb')).symm]
    exact hcopied tail' b' htail hb'
  · change Function.update s.data.pins b (s.data.pins b - 1) b' =
      if b' ∈ s.data.block.drop (tail + 1) then 1 else 0
    by_cases hbb : b' = b
    · subst hbb
      rw [Function.update_self, hpin, hdrop, if_pos (by simp), if_neg (List.nodup_cons.mp hnodup).1]
    · rw [Function.update_of_ne hbb, hpin, hdrop]
      simp [hbb]

theorem of_live (h : Rel start s t) (hdisk : s'.data.disk = s.data.disk) (hsaved : t'.saved = t.saved)
    (hl : Live start s' t') : Rel start s' t' := by
  refine ⟨?_, ?_, fun _ => hl⟩
  · rw [hdisk]; exact h.header
  · rw [hdisk, hsaved]; exact h.saved

theorem installEnd {tail : Nat} (h : Rel start s t) (ht : Turn start i (.install tail) s t)
    (hend : s.data.block[tail]? = none) : Rel start (set s { s.data with block := [] } i .clearHead) t := by
  obtain ⟨hhead, hcopied, hpin⟩ := ht.stage
  refine h.of_live rfl rfl (ht.commit rfl rfl rfl rfl rfl rfl rfl .nil (fun b hp => ht.flushed hp) ht.pins
    ⟨rfl, fun b => ?_, ?_⟩ fun b _ => rfl)
  · change s.data.pins b = 0
    rw [hpin, List.drop_eq_nil_of_le (List.getElem?_eq_none_iff.mp hend)]
    simp
  · change Copied start _ (blocksOf (s.data.disk start)) (blocksOf (s.data.disk start)).length
    rw [hhead]
    exact hcopied

/-- The log is cleared when the blocks on disk are those that it would recover. -/
theorem clear (h : Rel start s t) (hblock : s.data.block = []) (hpin : ∀ b, s.data.pins b = 0)
    (hinst : ∀ tail b, (blocksOf (s.data.disk start))[tail]? = some b →
      s.data.disk b = s.data.disk (start + tail + 1))
    (hdisk : s'.data.disk = (Log.writeHead start s.data).disk)
    (hl : Normal start (Log.writeHead start s.data) →
      (∀ b, Home start b → (Log.writeHead start s.data).disk b = t.saved b) → Live start s' t) :
    Rel start s' t := by
  have hnil : blocksOf ((Log.writeHead start s.data).disk start) = [] := by
    rw [disk_writeHead, Function.update_self, hblock, blocksOf_headBlock _ (.nil : Valid start [])]
  have hsaved (b : Nat) (hb : Home start b) : (Log.writeHead start s.data).disk b = t.saved b := by
    rw [← h.saved b hb, disk_writeHead, Function.update_of_ne hb.ne_head]
    exact (recovered_eq h.header (fun tail hget => (hinst tail b hget).symm) fun _ => rfl).symm
  refine ⟨?_, fun b hb => ?_, fun _ => hl ⟨hnil, fun b => ?_⟩ hsaved⟩
  · rw [hdisk, hnil]; exact .nil
  · rw [hdisk, recovered_nil hnil, hsaved b hb]
  · change s.data.pins b = if b ∈ s.data.block then 1 else 0
    rw [hpin, hblock]
    simp

theorem clearHead (h : Rel start s t) (ht : Turn start i .clearHead s t) :
    Rel start (set s (Log.writeHead start s.data) i .doneAcquire) t := by
  obtain ⟨hblock, hpin, hcopied⟩ := ht.stage
  refine h.clear hblock hpin (fun tail b hb => ?_) rfl fun hnormal _ => ?_
  · rw [hcopied tail b (List.getElem?_eq_some_iff.mp hb).1 hb, ht.flushed (hpin b)]
  · refine ht.commit rfl rfl rfl rfl rfl rfl rfl ht.block (fun b hp => ?_) ht.pins ⟨hblock, hnormal⟩
      fun b hb => ?_
    · rw [content_writeHead, disk_writeHead]
      exact update_clean fun _ => ht.flushed hp
    · rw [content_writeHead, Function.update_of_ne hb.ne_head]

theorem doneBody (h : Rel start s t) (ht : Turn start i .doneBody s t) :
    Rel start ({ s with data := { s.data with committing := false } }.goto i
      (.wakeup () 0 .doneRelease)) t := by
  obtain ⟨hblock, hnormal⟩ := ht.stage
  exact h.of_live rfl rfl (ht.go rfl nofun rfl rfl rfl ht.block (fun b hp => ht.flushed hp) ht.pins rfl
    hnormal (fun _ => hblock) fun _ => ht.now (ht.up rfl))

/-! ## Recovery -/

theorem readHead (h : Rel start s t) (ht : Turn start i .readHead s t) :
    Rel start (set s (Log.readHead start s.data) i (.recover 0)) t := by
  obtain ⟨hnow, hblock, hpin⟩ := ht.stage
  have hread : (Log.readHead start s.data).block = blocksOf (s.data.disk start) := by
    rw [block_readHead, ht.clean_log fun hh => hh.ne_head rfl]
  refine h.of_live rfl rfl (ht.go rfl (fun _ => rfl) rfl rfl rfl ?_ (fun b hp => ?_) ht.pins
    ht.committing_eq ⟨hnow, hread, hpin, fun _ _ ht => absurd ht (Nat.not_lt_zero _)⟩ nofun nofun)
  · rw [hread]; exact h.header
  · rw [content_readHead]; exact ht.flushed hp

theorem recover {tail b : Nat} (h : Rel start s t) (ht : Turn start i (.recover tail) s t)
    (hb : s.data.block[tail]? = some b) :
    Rel start (set s (copyBlock s.data b (start + tail + 1)) i (.recover (tail + 1))) t := by
  obtain ⟨hnow, hhead, hpin, hinst⟩ := ht.stage
  have hhome := ht.block.get hb
  have hdisk : (copyBlock s.data b (start + tail + 1)).disk =
      Function.update s.data.disk b (s.data.disk (start + tail + 1)) := by
    rw [disk_copyBlock, ht.clean_log (not_home_log (ht.block.lt hb))]
  refine h.update hdisk hhome.ne_head.symm (fun tail' htail => ?_) (fun _ => ?_)
    (ht.go rfl (fun _ => rfl) rfl rfl rfl ht.block (fun b' hp => ?_) ht.pins ht.committing_eq
      ⟨hnow, ?_, hpin, fun tail' b' htail hb' => ?_⟩ nofun nofun)
  · have := h.header.length
    exact (hhome.ne_log (by omega)).symm
  · rw [← hhead]
    exact List.mem_of_getElem? hb
  · rw [content_copyBlock, disk_copyBlock]
    exact update_clean fun _ => ht.flushed hp
  · rw [hdisk, Function.update_of_ne hhome.ne_head.symm]; exact hhead
  · rw [block_copyBlock] at hb'
    rw [hdisk, Function.update_of_ne (hhome.ne_log (ht.block.lt hb')).symm]
    by_cases heq : tail' = tail
    · subst heq
      obtain rfl : b = b' := Option.some.inj (hb.symm.trans hb')
      simp
    · have hbb : b' ≠ b := by
        rintro rfl
        exact heq ((List.getElem?_inj (List.getElem?_eq_some_iff.mp hb').1 ht.block.nodup).mp
          (hb'.trans hb.symm))
      rw [Function.update_of_ne hbb]
      exact hinst tail' b' (by omega) hb'

theorem recoverEnd {tail : Nat} (h : Rel start s t) (ht : Turn start i (.recover tail) s t)
    (hend : s.data.block[tail]? = none) : Rel start (set s { s.data with block := [] } i .recoverHead) t := by
  obtain ⟨hnow, hhead, hpin, hinst⟩ := ht.stage
  refine h.of_live rfl rfl (ht.go rfl (fun _ => rfl) rfl rfl rfl .nil (fun b hp => ht.flushed hp) ht.pins
    ht.committing_eq ⟨hnow, rfl, hpin, fun tail' b _ hb => ?_⟩ nofun nofun)
  have hlen := List.getElem?_eq_none_iff.mp hend
  change (blocksOf (s.data.disk start))[tail']? = some b at hb
  rw [← hhead] at hb
  have := (List.getElem?_eq_some_iff.mp hb).1
  exact hinst tail' b (by omega) hb

theorem recoverHead (h : Rel start s t) (ht : Turn start i .recoverHead s t) :
    Rel start (set s (Log.writeHead start s.data) i .user) t := by
  obtain ⟨hnow, hblock, hpin, hinst⟩ := ht.stage
  have hclean (b : Nat) : content (Log.writeHead start s.data) b = (Log.writeHead start s.data).disk b := by
    rw [content_writeHead, disk_writeHead]
    exact update_clean fun _ => ht.flushed (hpin b)
  refine h.clear hblock hpin (fun tail b hb => hinst tail b (List.getElem?_eq_some_iff.mp hb).1 hb) rfl
    fun hnormal hsaved => ht.go rfl nofun rfl rfl rfl ht.block (fun b _ => hclean b) ht.pins
      ht.committing_eq hnormal (fun _ => hblock) fun _ b hb => ?_
  rw [hclean, hsaved b hb, hnow]

end Rel

/-! ## Operations -/

namespace Live

theorem next_goto {α : Type} {pc : Pc Unit LogPlace} (f : LogPlace → α) (s : LogSys)
    (hf : f pc.next = f (s.pc i).next) (j : Slot) : f ((s.goto i pc).pc j).next = f (s.pc j).next := by
  by_cases hj : j = i
  · subst hj; rw [goto_self, hf]
  · rw [goto_other _ _ hj]

theorem calm_of_fits (h : Live start s t) (hfit : Fits s.data) (hst : s.state i ≠ .unused)
    (hi : recovers (s.pc i).next = false) (j : Slot) : busy (s.pc j).next = false := by
  rw [busy, Bool.or_eq_false_iff]
  constructor
  · by_contra hc
    have := h.committing.mpr ⟨j, by simpa using hc⟩
    rw [hfit.1] at this
    cases this
  · by_contra hr
    have hne : i ≠ j := by rintro rfl; exact hr hi
    exact hst (h.unused j i (by simpa using hr) hne)

theorem enter (h : Live start s t) (hpc : s.pc i = .code .beginTest)
    (hcalm : ∀ j, busy (s.pc j).next = false) :
    Live start (release { s with data := { s.data with outstanding := s.data.outstanding + 1 } } i .inOp)
      { t with active := insert i t.active } := by
  have hout : i ∉ t.active := by rw [h.active i, hpc]; simp [Pc.next, Log.inOp]
  refine h.step (i := i) (fun j hj => goto_other _ _ hj) (fun j _ => hcalm j) (q := .inOp)
    (by rw [release, goto_self]; rfl) nofun h.block h.clean h.pins (fun b => ?_) (fun _ _ _ => Iff.rfl)
    nofun nofun h.logged (by simp [Log.inOp]) (fun j hj => ?_) ?_ (h.not_committing hcalm) nofun
    (h.normal hcalm) (fun _ hno => absurd hno (Finset.insert_ne_empty i t.active))
    fun _ => h.now_of_calm hcalm
  · have := h.locks b i
    rwa [hpc] at this
  · rw [Finset.mem_insert, or_iff_right hj]
  · rw [Finset.card_insert_of_notMem hout]
    change s.data.outstanding + 1 = _
    rw [h.outstanding]
    rfl

theorem write {b : Nat} {v : Block} (h : Live start s t) (hpc : s.pc i = .code .inOp)
    (hb : s.data.holder b = none) (hhome : Home start b) :
    Live start (set s { setBuf s.data b v with holder := Function.update s.data.holder b (some i) } i
      (.logAcquire b)) { t with now := Function.update t.now b v } := by
  have hi : Log.inOp (s.pc i).next = true := by rw [hpc]; rfl
  have hcalm := h.calm hi
  refine h.step (i := i) (fun j hj => goto_other _ _ hj) (fun j _ => hcalm j) (q := .logAcquire b)
    (by rw [set, goto_self]; rfl) nofun h.block (fun b' hp hfree => ?_) h.pins (fun b' => ?_)
    (fun b' j hj => ?_) (fun b' hb' => ?_) nofun h.logged (iff_of_true ((h.active i).mpr hi) rfl)
    (fun _ _ => Iff.rfl) h.outstanding (h.not_committing hcalm) nofun
    (h.normal hcalm) (fun _ hno => absurd hno (h.active_ne hi)) fun _ b' hb' => ?_
  · have hbb : b' ≠ b := by
      rintro rfl
      simp [set] at hfree
    have hfree : s.data.holder b' = none := by simpa [set, hbb] using hfree
    change content (setBuf s.data b v) b' = _
    rw [content_setBuf, Function.update_of_ne hbb]
    exact h.clean b' hp hfree
  · change Function.update s.data.holder b (some i) b' = some i ↔ _
    by_cases hbb : b' = b
    · subst hbb; simp [buffer]
    · have hno : ¬ s.data.holder b' = some i := by
        rw [h.locks, hpc]; simp [Pc.next, buffer]
      simp [buffer, hbb, hno, Ne.symm hbb]
  · change Function.update s.data.holder b (some i) b' = some j ↔ _
    by_cases hbb : b' = b
    · subst hbb; simp [hb, Ne.symm hj]
    · rw [Function.update_of_ne hbb]
  · obtain rfl : b = b' := by simpa [buffer] using hb'
    exact hhome
  · change content (setBuf s.data b v) b' = _
    rw [content_setBuf]
    exact update_clean fun _ => h.now_of_calm hcalm b' hb'

theorem append {b : Nat} (h : Live start s t) (hpc : s.pc i = .code (.logWrite b))
    (hlen : s.data.block.length < logBlocks) :
    Live start (release { s with data := append s.data b } i (.brelse b)) t := by
  have hi : Log.inOp (s.pc i).next = true := by rw [hpc]; rfl
  have hcalm := h.calm hi
  have hhome : Home start b := h.home i b (by rw [hpc]; rfl)
  have hnormal := h.normal hcalm
  have hvalid := h.block.append hhome hlen
  have hpins := pins_append hnormal.2 b
  have hsub {b' : Nat} (hp : (Log.append s.data b).pins b' = 0) : s.data.pins b' = 0 := by
    have hno : b' ∉ s.data.block := fun hb' => by
      rw [hpins, if_pos (mem_append.mpr (.inl hb'))] at hp
      cases hp
    rw [hnormal.2, if_neg hno]
  have hlock (b' : Nat) (j : Slot) : (Log.append s.data b).holder b' = some j ↔ s.data.holder b' = some j := by
    rw [holder_append]
  refine h.step (i := i) (fun j hj => goto_other _ _ hj) (fun j _ => hcalm j) (q := .brelse b)
    (by rw [release, goto_self]; rfl) nofun hvalid (fun b' hp hfree => ?_) (fun b' hp => ?_) (fun b' => ?_)
    (fun b' j _ => hlock b' j) (fun b' hb' => ?_) (fun b' hb' => ?_) (fun j b' hj => ?_)
    (iff_of_true ((h.active i).mpr hi) rfl) (fun _ _ => Iff.rfl) ((outstanding_append ..).trans h.outstanding)
    ((committing_append ..).trans (h.not_committing hcalm)) nofun ⟨?_, hpins⟩
    (fun _ hno => absurd hno (h.active_ne hi)) fun _ b' hb' => ?_
  · change content (Log.append s.data b) b' = (Log.append s.data b).disk b'
    rw [content_append, disk_append]
    exact h.clean b' (hsub hp) (by rw [← holder_append s.data b]; exact hfree)
  · have hp : (Log.append s.data b).pins b' ≠ 0 := hp
    rw [hpins] at hp
    exact hvalid.home b' (by by_contra hno; simp [hno] at hp)
  · have := (hlock b' i).trans (h.locks b' i)
    rwa [hpc] at this
  · obtain rfl : b = b' := by simpa [buffer] using hb'
    exact hhome
  · exact mem_append.mpr (.inr (by simpa [Log.logged] using hb'.symm))
  · exact mem_append.mpr (.inl (h.logged j b' hj))
  · change blocksOf ((Log.append s.data b).disk start) = []
    rw [disk_append]
    exact hnormal.1
  · change content (Log.append s.data b) b' = _
    rw [content_append]
    exact h.now_of_calm hcalm b' hb'

theorem brelse {b : Nat} (h : Live start s t) (hpc : s.pc i = .code (.brelse b)) :
    Live start (set s { s.data with holder := Function.update s.data.holder b none } i .inOp) t := by
  have hi : Log.inOp (s.pc i).next = true := by rw [hpc]; rfl
  have hcalm := h.calm hi
  have hnormal := h.normal hcalm
  have hlog : b ∈ s.data.block := h.logged i b (by rw [hpc]; rfl)
  have hheld : s.data.holder b = some i := (h.locks b i).mpr (by rw [hpc]; rfl)
  refine h.step (i := i) (fun j hj => goto_other _ _ hj) (fun j _ => hcalm j) (q := .inOp)
    (by rw [set, goto_self]; rfl) nofun h.block (fun b' hp hfree => ?_) h.pins
    (fun b' => iff_of_false (fun hb' => ?_) nofun) (fun b' j hj => ?_)
    nofun nofun h.logged (iff_of_true ((h.active i).mpr hi) rfl) (fun _ _ => Iff.rfl) h.outstanding
    (h.not_committing hcalm) nofun hnormal (fun _ hno => absurd hno (h.active_ne hi))
    fun _ => h.now_of_calm hcalm
  · have hbb : b' ≠ b := by
      rintro rfl
      have hp : s.data.pins b' = 0 := hp
      rw [hnormal.2, if_pos hlog] at hp
      cases hp
    exact h.clean b' hp (by simpa [set, hbb] using hfree)
  · have hb' : Function.update s.data.holder b none b' = some i := hb'
    by_cases hbb : b' = b
    · subst hbb; simp at hb'
    · rw [Function.update_of_ne hbb, h.locks, hpc] at hb'
      exact hbb (by simpa [Pc.next, buffer] using hb'.symm)
  · change Function.update s.data.holder b none b' = some j ↔ _
    by_cases hbb : b' = b
    · subst hbb; simp [hheld, Ne.symm hj]
    · rw [Function.update_of_ne hbb]

theorem endBody (lk : Option Slot) (pc : Pc Unit LogPlace) {committing : Bool} (h : Live start s t)
    (hpc : s.pc i = .code .endBody) (hplace : pc.next = .commit ∨ pc.next = .endRelease)
    (hcom : committing = commits pc.next) (hlast : s.data.outstanding - 1 = 0 ↔ pc.next = .commit) :
    Live start ({ s with lk := lk, data := { s.data with
      outstanding := s.data.outstanding - 1, committing := committing } }.goto i pc)
      { t with active := t.active.erase i } := by
  have hi : Log.inOp (s.pc i).next = true := by rw [hpc]; rfl
  have hcalm := h.calm hi
  have hcard := Finset.card_erase_add_one ((h.active i).mpr hi)
  have hout : s.data.outstanding - 1 = (t.active.erase i).card := by
    have := h.outstanding
    omega
  have hkind : kind pc.next = (false, commits pc.next, false, none, none) := by
    obtain hp | hp := hplace <;> rw [hp] <;> rfl
  simp only [kind, Prod.mk.injEq] at hkind
  obtain ⟨hop, -, hrec, hbuf, hlog⟩ := hkind
  have hempty : t.active.erase i = ∅ ↔ pc.next = .commit := by
    rw [← hlast, hout, ← Finset.card_eq_zero]
    omega
  refine h.step (i := i) (fun j hj => goto_other _ _ hj) (fun j _ => hcalm j) (q := pc.next)
    (by rw [goto_self]) (by rw [hrec]; exact nofun) h.block h.clean h.pins (fun b => ?_)
    (fun _ _ _ => Iff.rfl) (by rw [hbuf]; exact nofun) (by rw [hlog]; exact nofun) h.logged
    (by simp [hop]) (fun j hj => ?_) hout hcom (fun hbusy => ?_)
    ?_ (fun hfree hno => ?_) fun _ => h.now_of_calm hcalm
  · have := h.locks b i
    rw [hpc] at this
    rw [hbuf]
    exact this
  · rw [Finset.mem_erase, and_iff_right hj]
  · obtain hp | hp := hplace
    · exact hempty.mpr hp
    · rw [hp] at hbusy; cases hbusy
  · have hnormal := h.normal hcalm
    obtain hp | hp := hplace <;> rw [hp] <;> exact hnormal
  · rw [hempty.mp hno] at hfree
    cases hfree

theorem boot {disk : Nat → Block} (hnow : t.now = t.saved) (hactive : t.active = ∅) :
    Live start (boot disk) t := by
  have hnext (i : Slot) : ((Log.boot disk).pc i).next = if i = 0 then .readHead else .user := rfl
  have hbusy {i : Slot} (hi : busy ((Log.boot disk).pc i).next = true) : i = 0 := by
    by_contra hne
    rw [hnext, if_neg hne] at hi
    cases hi
  constructor
  case block => exact .nil
  case clean => exact fun _ _ _ => rfl
  case pins => exact fun b hb => absurd rfl hb
  case locks =>
    intro b i
    refine iff_of_false nofun ?_
    rw [hnext]
    split <;> nofun
  case home => intro i b; rw [hnext]; split <;> nofun
  case logged => intro i b; rw [hnext]; split <;> nofun
  case active =>
    intro i
    rw [hactive, hnext]
    split <;> simp [Log.inOp]
  case outstanding => rw [hactive]; rfl
  case committing =>
    refine iff_of_false nofun ?_
    rintro ⟨i, hi⟩
    rw [hnext] at hi
    split at hi <;> cases hi
  case alone => intro i j hi hj; rw [hbusy hi, hbusy hj]
  case idle => exact fun _ _ => hactive
  case unused =>
    intro i j hi hj
    obtain rfl := hbusy (i := i) (by rw [busy, hi, Bool.or_true])
    exact if_neg hj
  case phase =>
    intro i hi
    obtain rfl := hbusy hi
    exact ⟨hnow, rfl, fun _ => rfl⟩
  case normal => intro hfree; cases hfree 0
  case empty => exact fun _ _ => rfl
  case now => intro hfree; cases hfree 0

end Live

/-! ## Every step -/

namespace Rel

theorem panicked {e : LogPanic} (h : Rel start s t) (hdisk : s'.data.disk = s.data.disk) :
    Rel start (panic s' e) t := by
  refine ⟨?_, ?_, nofun⟩
  · change Valid start (blocksOf (s'.data.disk start))
    rw [hdisk]; exact h.header
  · change ∀ b, Home start b → recovered start s'.data.disk b = t.saved b
    rw [hdisk]; exact h.saved

/-- A step that changes at most the place of process `i`, to one of the same kind. -/
theorem goto {pc : Pc Unit LogPlace} {r : LogSys} (h : Rel start s t) (hok : s.data.panicked = none)
    (hd : Same s.data r.data) (hpc : r.pc = s.pc)
    (hstate : (∃ k, recovers (s.pc k).next = true) → ∀ j, s.state j = .unused → r.state j = .unused)
    (hp : (s.pc i).next = p) (hkind : kind pc.next = kind p)
    (hphase : Phase start s.data t p → Phase start s.data t pc.next) : Rel start (r.goto i pc) t := by
  subst hp
  refine h.of_live hd.disk rfl ((h.live hok).keep (i := i) hd (fun j hj => ?_) hstate ?_ ?_)
  · rw [goto_other _ _ hj, hpc]
  · rw [goto_self]; exact hkind
  · rw [goto_self]; exact hphase

theorem move (h : Rel start s t) (hok : s.data.panicked = none) (hpc : s.pc i = .code p)
    (hst : s.state i ≠ .unused) (hhome : ∀ b v, e = some (.write i b v) → Home start b)
    (hm : Move start i s p e s') : ∃ t', stepSeen TxStore.step t e = some t' ∧ Rel start s' t' := by
  have hl := h.live hok
  have hnext : (s.pc i).next = p := by rw [hpc]; rfl
  have hmem (hp : inOp p = true) : i ∈ t.active := (hl.active i).mpr (hnext ▸ hp)
  have turn (hp : busy p = true) : Turn start i p s t := ⟨hl, hpc, hp⟩
  -- a process that is neither unused nor at boot runs after the recovery
  have hup (hp : recovers p = false) (hrec : ∃ k, recovers (s.pc k).next = true) : False := by
    obtain ⟨k, hk⟩ := hrec
    have hne : i ≠ k := by
      rintro rfl
      rw [hnext, hp] at hk
      cases hk
    exact hst (hl.unused k i hk hne)
  cases hm with
  | begin | wait | done => exact ⟨t, rfl, h.goto hok (.refl _) rfl (fun _ _ hj => hj) hnext rfl id⟩
  | read b hp => exact ⟨t, rfl, h.goto hok (.bread ..) rfl (fun _ _ hj => hj) hnext rfl id⟩
  | fork | exit => exact ⟨t, rfl, h.goto hok (.refl _) rfl (fun hrec => (hup rfl hrec).elim) hnext rfl id⟩
  | acquire hq hlk =>
    refine ⟨t, rfl, h.goto hok (.refl _) rfl (fun _ _ hj => hj) hnext ?_ ?_⟩ <;> cases hq
    all_goals first | rfl | exact id
  | enter hfit =>
    have hcalm := hl.calm_of_fits hfit hst (by rw [hnext]; rfl)
    have hout : i ∉ t.active := by rw [hl.active i, hnext]; exact nofun
    exact ⟨_, if_neg hout, h.of_live rfl rfl (hl.enter hpc hcalm)⟩
  | write b v hb =>
    exact ⟨_, if_pos (hmem rfl), h.of_live rfl rfl (hl.write hpc hb (hhome b v rfl))⟩
  | tooBig | outside | committing => exact ⟨t, rfl, h.panicked rfl⟩
  | append b hlen hout => exact ⟨t, rfl, h.of_live (disk_append ..) rfl (hl.append hpc hlen)⟩
  | brelse b => exact ⟨t, rfl, h.of_live rfl rfl (hl.brelse hpc)⟩
  | last hc hout =>
    exact ⟨_, if_pos (hmem rfl), h.of_live rfl rfl
      (hl.endBody none (.code .commit) hpc (.inl rfl) rfl (iff_of_true hout rfl))⟩
  | notLast hc hout =>
    exact ⟨_, if_pos (hmem rfl), h.of_live rfl rfl (hl.endBody s.lk (.wakeup () 0 .endRelease)
      hpc (.inr rfl) hc (iff_of_false hout nofun))⟩
  | release hp =>
    refine ⟨t, rfl, h.goto hok (.refl _) rfl (fun _ _ hj => hj) hnext ?_ ?_⟩ <;> obtain rfl | rfl := hp
    all_goals first | rfl | exact id
  | commit hlen =>
    exact ⟨t, rfl, h.goto hok (.refl _) rfl (fun _ _ hj => hj) hnext rfl
      fun hp => ⟨hp, fun _ _ ht => absurd ht (Nat.not_lt_zero _)⟩⟩
  | empty hlen =>
    exact ⟨t, rfl, h.goto hok (.refl _) rfl (fun _ _ hj => hj) hnext rfl fun hp => ⟨hlen, hp⟩⟩
  | writeLog tail b hb => exact ⟨t, rfl, h.writeLog (turn rfl) hb⟩
  | writeLogEnd tail hend =>
    have hlen := List.getElem?_eq_none_iff.mp hend
    exact ⟨t, rfl, h.goto hok (.refl _) rfl (fun _ _ hj => hj) hnext rfl
      fun hp => ⟨hp.1, fun tail' b ht hb => hp.2 tail' b (by omega) hb⟩⟩
  | writeHead => exact ⟨_, if_pos (hl.idle i (turn rfl).busy_i), writeHead (turn rfl)⟩
  | install tail b hb => exact ⟨t, rfl, h.install (turn rfl) hb⟩
  | installEnd tail hend => exact ⟨t, rfl, h.installEnd (turn rfl) hend⟩
  | clearHead => exact ⟨t, rfl, h.clearHead (turn rfl)⟩
  | doneBody => exact ⟨t, rfl, h.doneBody (turn rfl)⟩
  | readHead => exact ⟨t, rfl, h.readHead (turn rfl)⟩
  | recover tail b hb => exact ⟨t, rfl, h.recover (turn rfl) hb⟩
  | recoverEnd tail hend => exact ⟨t, rfl, h.recoverEnd (turn rfl) hend⟩
  | recoverHead => exact ⟨t, rfl, h.recoverHead (turn rfl)⟩

theorem crash (h : Rel start s t) : Rel start (boot s.data.disk) { t with now := t.saved, active := ∅ } where
  header := h.header
  saved := h.saved
  live := fun _ => Live.boot rfl rfl

theorem boot {disk : Nat → Block} (hlog : Valid start (blocksOf (disk start))) :
    Rel start (boot disk) (.start (recovered start disk)) where
  header := hlog
  saved := fun b _ => by rw [boot_disk, TxStore.start_saved]
  live := fun _ => Live.boot rfl rfl

theorem step {l : List TxAct} {a : LogAct} (h : Rel start s t) (hok : Writes start l s a)
    (hs : step start s a = some s') :
    ∃ t', stepSeen TxStore.step t (event s a) = some t' ∧ Rel start s' t' := by
  obtain ⟨rfl, rfl⟩ | ⟨hp, ⟨b, rfl, hpin, hfree, rfl⟩ | ⟨hev, hsw⟩ | ⟨i, p, x, rfl, hpc, hst, hm⟩⟩ :=
    step_moves hs
  · exact ⟨_, rfl, h.crash⟩
  · exact ⟨t, rfl, h.of_live rfl rfl ((h.live hp).evict hpin hfree)⟩
  · rw [hev]
    refine ⟨t, rfl, h.of_live ?_ rfl ((h.live hp).switch hsw)⟩
    rw [hsw.frame.data]
  · refine h.move hp hpc (by obtain hst | hst := hst <;> rw [hst] <;> nofun) (fun b v he => ?_) hm
    obtain rfl := codeEvent_write he
    exact hok

end Rel

/-! ## Every run -/

/-- How the machine stands to the store: the disk is worth what is saved; and, unless it has
panicked or is just recovering, what the processes read is what they have written, those in an
operation are those between `begin_op` and `end_op`, and when there is no operation and no commit
under way, all of it is saved, and on the disk in its place. -/
structure Agrees (start : Nat) (s : LogSys) (t : Tx) : Prop where
  saved : ∀ b, Home start b → recovered start s.data.disk b = t.saved b
  active : s.data.panicked = none → ∀ i, i ∈ t.active ↔ inOp (s.pc i).next = true
  now : s.data.panicked = none → (∀ i, recovers (s.pc i).next = false) →
    ∀ b, Home start b → content s.data b = t.now b
  durable : s.data.panicked = none → (∀ i, recovers (s.pc i).next = false) →
    t.active = ∅ → s.data.committing = false →
    ∀ b, Home start b → s.data.disk b = t.now b ∧ t.saved b = t.now b

theorem Rel.agrees (h : Rel start s t) : Agrees start s t where
  saved := h.saved
  active := fun hok => (h.live hok).active
  now := fun hok => (h.live hok).now
  durable := by
    intro hok hup hact hcom b hb
    have hl := h.live hok
    have hcalm (i : Slot) : busy (s.pc i).next = false := by
      rw [busy, hup, Bool.or_false]
      by_contra hc
      have := hl.committing.mpr ⟨i, by simpa using hc⟩
      rw [hcom] at this
      cases this
    obtain ⟨hnil, hpin⟩ := hl.normal hcalm
    have hclean : content s.data b = s.data.disk b := by
      refine hl.clean b ?_ (hl.free hact b)
      rw [hpin, hl.empty hcalm hact]
      simp
    have hnow := hl.now hup b hb
    rw [← h.saved b hb, recovered_nil hnil, ← hclean]
    exact ⟨hnow, hnow⟩

/-- In every run, with any number of crashes, from a disk with a valid log: what is seen of the log
is what a store with transactions can do, and the two agree. -/
theorem log_refines_transactions {disk : Nat → Block} {l : List TxAct}
    (hlog : Valid start (blocksOf (disk start)))
    (h : Observed (step start) (Writes start) event (boot disk) l s) :
    ∃ t, steps TxStore.step (.start (recovered start disk)) l = some t ∧ Agrees start s t := by
  obtain ⟨t, ht, hrel⟩ := h.refines (Rel.boot hlog) fun _ _ _ _ _ hok hs hrel => hrel.step hok hs
  exact ⟨t, ht, hrel.agrees⟩

def blank : Nat → Block := fun _ _ => 0

theorem blank_valid : Valid 2 (blocksOf (blank 2)) := by
  rw [show blocksOf (blank 2) = [] by decide +kernel]
  exact .nil

def crashRun : List LogAct :=
  let run (x : LogCall) : LogAct := .sys (.run 0 x)
  List.replicate 3 (run .begin) ++ List.replicate 3 (run .begin) ++ [run (.write 40 fun _ => 7)] ++
    List.replicate 3 (run .done) ++ List.replicate 8 (run .done) ++ [.crash] ++
    List.replicate 4 (run .begin)

theorem crashRun_writes {l : List TxAct} {a : LogAct} (ha : a ∈ crashRun) : Writes 2 l s a := by
  simp only [crashRun, List.mem_append, List.mem_replicate, List.mem_singleton] at ha
  obtain (((((⟨-, rfl⟩ | ⟨-, rfl⟩) | rfl) | ⟨-, rfl⟩) | ⟨-, rfl⟩) | rfl) | ⟨-, rfl⟩ := ha
  · trivial
  · trivial
  · exact (by decide : Home 2 40)
  all_goals trivial

def crashRunKeeps : Option (Nat × Byte) :=
  (observe (step 2) event (boot blank) crashRun).map fun r => (r.1.length, content r.2.data 40 3)

theorem log_refines_transactions_crash : ∃ l s t,
    Observed (step 2) (Writes 2) event (boot blank) l s ∧ l.length = 5 ∧
      content s.data 40 3 = 7 ∧ steps TxStore.step (.start (recovered 2 blank)) l = some t ∧
      Agrees 2 s t := by
  have hrun : crashRunKeeps = some (5, 7) := by decide +kernel
  obtain ⟨r, hr, hkeeps⟩ := Option.map_eq_some_iff.mp hrun
  have hlen : r.1.length = 5 := congrArg Prod.fst hkeeps
  have hcont : content r.2.data 40 3 = 7 := congrArg Prod.snd hkeeps
  have hobs : Observed (step 2) (Writes 2) event (boot blank) r.1 r.2 := by
    exact Observed.of_run (fun l s a ha _ => crashRun_writes ha) hr
  obtain ⟨t, ht, hag⟩ := log_refines_transactions blank_valid hobs
  exact ⟨r.1, r.2, t, hobs, hlen, hcont, ht, hag⟩

end

end Log

end OsLab
