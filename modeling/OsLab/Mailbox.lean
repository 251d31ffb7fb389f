import OsLab.CopyFrame
import OsLab.Kernel

/-!
# The mailbox

`sys_sendmsg` and `sys_recvmsg` over the one-message mailbox of `sysproc.c`, and
the table through which `syscall` calls them. The table has no entry for
`SYS_recvmsg`. A message that is accepted while the mailbox is full takes the
place of the one before.
-/

namespace OsLab

open Mach UserMem
open Kernel (argint argaddr)

structure Mailbox where
  init : Bool
  msg : Nat → Byte
  hasMessage : Bool

structure Ipc where
  mem : Mem
  box : Mailbox

structure Task where
  pagetable : PageTable
  sz : Nat
  regs : Trapframe

/-- An entry of the table `syscalls`: a function of the process that traps and of what its
kernel stack holds. It returns a value, and the page table of the process. -/
abbrev Handler := Task → (Nat → Byte) → Mach Panic Ipc (Int × PageTable)

namespace Ipc

def onMem {α : Type} (x : Um α) : Mach Panic Ipc α := fun σ =>
  match x σ.mem with
  | .error e => .error e
  | .ok (a, mem) => .ok (a, { σ with mem := mem })

def setBox (f : Mailbox → Mailbox) : Mach Panic Ipc Unit :=
  Mach.modify fun σ => { σ with box := f σ.box }

def fetchstr (t : Task) (buf : Nat → Byte) (addr max : Nat) :
    Mach Panic Ipc (Int × (Nat → Byte)) := do
  let (ok, buf) ← onMem (copyinstr t.pagetable buf addr max)
  pure (if ok then strlen buf 0 max else -1, buf)

/-- `char buf[128]` is whatever the kernel stack holds. -/
def sysSendmsg : Handler := fun t stack => do
  let (n, buf) ← fetchstr t stack (argaddr t.regs .a0) 128
  if n < 0 then pure (-1, t.pagetable)
  else do
    setBox fun b => if b.init then b else { b with init := true }
    setBox fun b => { b with msg := safestrcpy b.msg 0 buf 128, hasMessage := true }
    pure (0, t.pagetable)

def sysRecvmsg : Handler := fun t _ => do
  let b := (← Mach.get).box
  if ¬ b.init then pure (-1, t.pagetable)
  else if ¬ b.hasMessage then pure (-1, t.pagetable)
  else do
    let (ok, pt) ← onMem (UserMem.copyout t.pagetable t.sz (argaddr t.regs .a0)
      (bytes b.msg (strlen b.msg 0 128 + 1)))
    if ¬ ok then pure (-1, pt)
    else do
      setBox fun b => { b with hasMessage := false }
      pure (0, pt)

/-! ## `syscall` -/

def numSendmsg : Int := 23

def numRecvmsg : Int := 30

/-- The table of `syscall.c`; `others` are its entries that are not for the mailbox. -/
def syscalls (others : Int → Handler) (num : Int) : Option Handler :=
  if num = numSendmsg then some sysSendmsg
  else if 0 < num ∧ num < 30 then some (others num)
  else none

def syscall (T : Int → Option Handler) (t : Task) (stack : Nat → Byte) : Mach Panic Ipc Task := do
  match T (argint t.regs .a7) with
  | some h => do
    let (ret, pt) ← h t stack
    pure { t with pagetable := pt, regs := t.regs.set .a0 (BitVec.ofInt 64 ret) }
  | none => pure { t with regs := t.regs.set .a0 (-1) }

/-! ## One call -/

section
variable {t : Task} {stack : Nat → Byte} {σ σ₁ : Ipc} {s : List Byte}

theorem onMem_ok {α : Type} {x : Um α} {a : α} {m : Mem} (h : x σ.mem = .ok (a, m)) :
    onMem x σ = .ok (a, { σ with mem := m }) := by
  unfold onMem
  rw [h]

def fetched (t : Task) (stack : Nat → Byte) (m : Mem) : Bool × (Nat → Byte) :=
  copyStr (peek t.pagetable m.ram) (argaddr t.regs .a0) stack 0 128

theorem fetchstr_eq : fetchstr t stack (argaddr t.regs .a0) 128 σ =
    .ok ((if (fetched t stack σ.mem).1 then (strlen (fetched t stack σ.mem).2 0 128 : Int) else -1,
      (fetched t stack σ.mem).2), σ) :=
  bind_ok (onMem_ok (copyinstr_eq stack _ 128))

theorem sysSendmsg_reject (h : (fetched t stack σ.mem).1 = false) :
    sysSendmsg t stack σ = .ok ((-1, t.pagetable), σ) := by
  refine (bind_ok fetchstr_eq).trans ?_
  rw [h]
  rfl

theorem sysSendmsg_accept (h : (fetched t stack σ.mem).1 = true) :
    sysSendmsg t stack σ = .ok ((0, t.pagetable), { σ with
      box := ⟨true, safestrcpy σ.box.msg 0 (fetched t stack σ.mem).2 128, true⟩ }) := by
  refine (bind_ok fetchstr_eq).trans ?_
  dsimp only
  rw [if_pos h, if_neg (by omega)]
  refine (bind_ok rfl).trans ((bind_ok rfl).trans ?_)
  obtain ⟨m, init, msg, full⟩ := σ
  cases init <;> rfl

theorem fetched_of_strAt (hs : StrAt (peek t.pagetable σ.mem.ram) (argaddr t.regs .a0) s)
    (hlen : s.length ≤ 127) : (fetched t stack σ.mem).1 = true :=
  hs.copyStr (by omega)

theorem strAt_of_fetched (h : (fetched t stack σ.mem).1 = true) :
    ∃ s, StrAt (peek t.pagetable σ.mem.ram) (argaddr t.regs .a0) s ∧ s.length ≤ 127 ∧
      StrAt (fun i => some (safestrcpy σ.box.msg 0 (fetched t stack σ.mem).2 128 i)) 0 s := by
  obtain ⟨-, s, hs, hlen, hbuf⟩ := copyStr_spec h
  exact ⟨s, hs, by omega, hbuf.safestrcpy hlen⟩

theorem fetched_iff (hs : StrAt (peek t.pagetable σ.mem.ram) (argaddr t.regs .a0) s) :
    (fetched t stack σ.mem).1 = true ↔ s.length ≤ 127 := by
  constructor
  · intro h
    obtain ⟨s', hs', hlen, -⟩ := strAt_of_fetched h
    have e : s' = s := (hs'.takeStr (Nat.le_max_left _ s.length)).symm.trans (hs.takeStr (Nat.le_max_right _ _))
    exact e ▸ hlen
  · exact fetched_of_strAt hs

theorem sysSendmsg_iff (stack : Nat → Byte) (hs : StrAt (peek t.pagetable σ.mem.ram) (argaddr t.regs .a0) s) :
    ∃ r σ₁, sysSendmsg t stack σ = .ok (r, σ₁) ∧ (r.1 = 0 ↔ s.length ≤ 127) ∧
      (127 < s.length → r.1 = -1 ∧ σ₁ = σ) := by
  by_cases hlen : s.length ≤ 127
  · exact ⟨_, _, sysSendmsg_accept ((fetched_iff hs).2 hlen), iff_of_true rfl hlen, fun h => absurd hlen (by omega)⟩
  · have hf : (fetched t stack σ.mem).1 = false :=
      Bool.eq_false_iff.2 fun h => hlen ((fetched_iff hs).1 h)
    exact ⟨_, _, sysSendmsg_reject hf, iff_of_false (show ¬(-1 : Int) = 0 by decide) hlen, fun _ => ⟨rfl, rfl⟩⟩

theorem sysSendmsg_box (hs : StrAt (peek t.pagetable σ.mem.ram) (argaddr t.regs .a0) s) {pt : PageTable}
    (h : sysSendmsg t stack σ = .ok ((0, pt), σ₁)) : s.length ≤ 127 ∧ σ₁.box.init = true ∧
      σ₁.box.hasMessage = true ∧ StrAt (fun i => some (σ₁.box.msg i)) 0 s := by
  cases hf : (fetched t stack σ.mem).1 with
  | false =>
    rw [sysSendmsg_reject hf] at h
    cases h
  | true =>
    rw [sysSendmsg_accept hf] at h
    cases h
    obtain ⟨s', hs', hlen', hmsg⟩ := strAt_of_fetched hf
    have hlen := (fetched_iff hs).1 hf
    obtain rfl : s' = s := (hs'.takeStr hlen').symm.trans (hs.takeStr hlen)
    exact ⟨hlen, rfl, rfl, hmsg⟩

theorem sysRecvmsg_copyout (hinit : σ.box.init = true) (hfull : σ.box.hasMessage = true)
    {pt : PageTable} {m : Mem}
    (hcopy : UserMem.copyout t.pagetable t.sz (argaddr t.regs .a0)
      (bytes σ.box.msg (strlen σ.box.msg 0 128 + 1)) σ.mem = .ok ((true, pt), m)) :
    sysRecvmsg t stack σ =
      .ok ((0, pt), { mem := m, box := { σ.box with hasMessage := false } }) := by
  refine (bind_ok rfl).trans ?_
  dsimp only
  rw [if_neg (not_not_intro hinit), if_neg (not_not_intro hfull)]
  exact bind_ok (onMem_ok hcopy)

theorem sysRecvmsg_spec : Ensures (sysRecvmsg t stack) σ fun r σ' =>
    (r.1 = 0 ∧ σ.box.hasMessage = true ∧ σ'.box = { σ.box with hasMessage := false }) ∨
    (r.1 = -1 ∧ σ'.box = σ.box) := by
  have hmem : ∀ {α : Type} (x : Um α), Ensures (onMem x) σ fun _ σ' => σ'.box = σ.box := by
    intro α x a σ' h
    unfold onMem at h
    split at h
    · cases h
    · cases h; rfl
  refine Ensures.bind (Ensures.get ?_)
  refine Ensures.ite (fun _ => Ensures.pure (.inr ⟨rfl, rfl⟩)) fun _ => ?_
  refine Ensures.ite (fun _ => Ensures.pure (.inr ⟨rfl, rfl⟩)) fun hfull => ?_
  refine Ensures.bind ((hmem _).mono fun r σ' hbox => ?_)
  refine Ensures.ite (fun _ => Ensures.pure (.inr ⟨rfl, hbox⟩)) fun _ => ?_
  refine Ensures.bind (Ensures.modify (Ensures.pure (.inl ⟨rfl, ?_, ?_⟩)))
  · exact Decidable.not_not.mp hfull
  · exact congrArg (fun b : Mailbox => { b with hasMessage := false }) hbox

end

/-! ## Delivery -/

section
variable {T : Int → Option Handler} {t snd rcv : Task} {stack stack' : Nat → Byte}
  {σ σ₁ σ₂ : Ipc} {s : List Byte}

theorem syscall_some {h : Handler} (hT : T (argint t.regs .a7) = some h) {ret : Int}
    {pt : PageTable} (hh : h t stack σ = .ok ((ret, pt), σ₁)) : syscall T t stack σ =
      .ok ({ t with pagetable := pt, regs := t.regs.set .a0 (BitVec.ofInt 64 ret) }, σ₁) := by
  unfold syscall
  rw [hT]
  exact bind_ok hh

theorem syscall_none (hT : T (argint t.regs .a7) = none) :
    syscall T t stack σ = .ok ({ t with regs := t.regs.set .a0 (-1) }, σ) := by
  unfold syscall
  rw [hT]
  rfl

/-- The process has received `s`: 0 in `a0`, and in its buffer the string with its NUL;
the rest of memory is as before. -/
def Receives (T : Int → Option Handler) (rcv : Task) (stack : Nat → Byte) (σ : Ipc)
    (s : List Byte) : Prop :=
  ∃ t' σ', syscall T rcv stack σ = .ok (t', σ') ∧ t'.regs.reg .a0 = 0 ∧
    (∀ i ≤ s.length, peek t'.pagetable σ'.mem.ram (argaddr rcv.regs .a0 + i) =
      some ((s ++ [0]).getD i 0)) ∧
    OnlyIn rcv.pagetable (argaddr rcv.regs .a0) (s.length + 1) σ.mem.ram σ'.mem.ram

theorem sysRecvmsg_delivers (t : Task) (stack : Nat → Byte) (hinit : σ.box.init = true) (hfull : σ.box.hasMessage = true)
    (hs : StrAt (fun i => some (σ.box.msg i)) 0 s) (hlen : s.length ≤ 127)
    (hw : ∀ i ≤ s.length, Writable t.pagetable (argaddr t.regs .a0 + i)) :
    ∃ ram, sysRecvmsg t stack σ = .ok ((0, t.pagetable),
        { mem := { σ.mem with ram := ram }, box := { σ.box with hasMessage := false } }) ∧
      (∀ i ≤ s.length, peek t.pagetable ram (argaddr t.regs .a0 + i) =
        some ((s ++ [0]).getD i 0)) ∧
      OnlyIn t.pagetable (argaddr t.regs .a0) (s.length + 1) σ.mem.ram ram := by
  have hstr : strlen σ.box.msg 0 128 = s.length := hs.strlen (by omega)
  have hbytes := length_bytes σ.box.msg (s.length + 1)
  have hbuf : ∀ i < (bytes σ.box.msg (s.length + 1)).length,
      Writable t.pagetable (argaddr t.regs .a0 + i) := fun i hi => hw i (by omega)
  obtain ⟨ram, hcopy, hget, honly⟩ :=
    copyout_writes hbuf (by rw [hbytes]; unfold pgSize; omega) t.sz σ.mem
  rw [← hstr] at hcopy
  refine ⟨ram, sysRecvmsg_copyout hinit hfull hcopy, fun i hi => ?_, hbytes ▸ honly⟩
  have hi' := hs.get hi
  rw [Nat.zero_add] at hi'
  rw [hget i (by omega), ← hi', List.get_eq_getElem, getElem_bytes]

/-- A message that was accepted reaches a receiver exactly when the table has an entry for
`SYS_recvmsg`. -/
theorem receives_iff (hsend : T numSendmsg = some sysSendmsg)
    (hrecv : ∀ h, T numRecvmsg = some h → h = sysRecvmsg)
    (hsnd : argint snd.regs .a7 = numSendmsg) (hrcv : argint rcv.regs .a7 = numRecvmsg)
    (hs : StrAt (peek snd.pagetable σ.mem.ram) (argaddr snd.regs .a0) s) (hlen : s.length ≤ 127)
    (h₁ : syscall T snd stack σ = .ok (t, σ₁)) (ha₀ : t.regs.reg .a0 = 0)
    (hbox : σ₂.box = σ₁.box)
    (hw : ∀ i ≤ s.length, Writable rcv.pagetable (argaddr rcv.regs .a0 + i)) :
    Receives T rcv stack' σ₂ s ↔ (T numRecvmsg).isSome := by
  cases hT : T numRecvmsg with
  | none =>
    refine iff_of_false ?_ Bool.false_ne_true
    intro ⟨t', σ', h, h₀, _⟩
    rw [syscall_none (hrcv ▸ hT)] at h
    cases h
    simp [Trapframe.set] at h₀
  | some f =>
    refine iff_of_true ?_ rfl
    obtain rfl := hrecv f hT
    have hf : (fetched snd stack σ.mem).1 = true := fetched_of_strAt hs hlen
    have hsent := sysSendmsg_accept hf
    rw [syscall_some (hsnd ▸ hsend) hsent] at h₁
    cases h₁
    obtain ⟨-, hinit, hfull, hmsg⟩ := sysSendmsg_box hs hsent
    rw [← hbox] at hinit hfull hmsg
    obtain ⟨ram, hrun, hget, honly⟩ := sysRecvmsg_delivers rcv stack' hinit hfull hmsg hlen hw
    exact ⟨_, _, syscall_some (hrcv ▸ hT) hrun, by simp [Trapframe.set], hget, honly⟩

end

/-! Processes that share a page, with the messages "A" and "B" in it. -/

def caller (num addr : Word) : Task where
  pagetable := onePage
  sz := pgSize
  regs := (Trapframe.junk.set .a7 num).set .a0 addr

def letters : Ipc where
  mem := ⟨[], fun _ i => if i = 0 then 65 else if i = 2 then 66 else 0⟩
  box := ⟨false, fun _ => 0, false⟩

def noop (_ : Int) : Handler := fun t _ => pure (0, t.pagetable)

theorem letters_strAt : StrAt (peek onePage letters.mem.ram) 0 [65] := by
  have h₀ : peek onePage letters.mem.ram 0 = some 65 := by decide +kernel
  have h₁ : peek onePage letters.mem.ram 1 = some 0 := by decide +kernel
  exact ⟨by decide, h₀, h₁⟩

theorem caller_writable {i : Nat} (h : i < 100) (num : Word) :
    Writable (caller num 100).pagetable (argaddr (caller num 100).regs .a0 + i) := by
  refine onePage_writable ?_
  change 100 + i < 4096
  omega

theorem sends_A {T : Int → Option Handler} (hT : T numSendmsg = some sysSendmsg) :
    ∃ t σ, syscall T (caller 23 0) (fun _ => 7) letters = .ok (t, σ) ∧ t.regs.reg .a0 = 0 :=
  ⟨_, _, syscall_some hT (sysSendmsg_accept (fetched_of_strAt letters_strAt (by decide))), by decide⟩

theorem receives_iff_withEntry :
    ∃ t σ, syscall (Function.update (syscalls noop) numRecvmsg (some sysRecvmsg)) (caller 23 0)
        (fun _ => 7) letters = .ok (t, σ) ∧ t.regs.reg .a0 = 0 ∧
      Receives (Function.update (syscalls noop) numRecvmsg (some sysRecvmsg)) (caller 30 100)
        (fun _ => 7) σ [65] := by
  obtain ⟨t, σ, hrun, ha₀⟩ := sends_A (T := Function.update (syscalls noop) numRecvmsg
    (some sysRecvmsg)) rfl
  refine ⟨t, σ, hrun, ha₀, (receives_iff rfl (fun h hh => ?_) rfl rfl letters_strAt (by decide) hrun
    ha₀ rfl fun i hi => caller_writable (Nat.lt_of_le_of_lt hi (by decide)) 30).mpr rfl⟩
  cases hh
  rfl

/-- The table of the source has none: the sender gets 0, the receiver -1. -/
theorem recvmsg_not_dispatched :
    ∃ t σ, syscall (syscalls noop) (caller 23 0) (fun _ => 7) letters = .ok (t, σ) ∧
      t.regs.reg .a0 = 0 ∧ StrAt (peek onePage letters.mem.ram) 0 [65] ∧
      (∀ i ≤ 1, Writable onePage (100 + i)) ∧
      syscall (syscalls noop) (caller 30 100) (fun _ => 7) σ =
        .ok ({ caller 30 100 with regs := (caller 30 100).regs.set .a0 (-1) }, σ) ∧
      ¬ Receives (syscalls noop) (caller 30 100) (fun _ => 7) σ [65] := by
  obtain ⟨t, σ, hrun, ha₀⟩ := sends_A (T := syscalls noop) rfl
  have hrecv : syscall (syscalls noop) (caller 30 100) (fun _ => 7) σ =
      .ok ({ caller 30 100 with regs := (caller 30 100).regs.set .a0 (-1) }, σ) := syscall_none rfl
  refine ⟨t, σ, hrun, ha₀, letters_strAt, fun i hi => caller_writable (by omega) 30, hrecv, ?_⟩
  intro ⟨t', σ', h, h₀, _⟩
  rw [hrecv] at h
  cases h
  exact absurd h₀ (by decide)

/-! ## The round trip -/

section
variable {σ σ₂ : Ipc} {s : List Byte}

def Wrote (va : Nat) (s : List Byte) (m : Mem) (pt' : PageTable) (m' : Mem) : Prop :=
  (∀ i ≤ s.length, peek pt' m'.ram (va + i) = some ((s ++ [0]).getD i 0)) ∧ OnlyUsed va (s.length + 1) m pt' m'

theorem bytes_of_strAt {msg : Nat → Byte} (hs : StrAt (fun i => some (msg i)) 0 s) :
    bytes msg (s.length + 1) = s ++ [0] := by
  refine List.ext_getElem (by simp) fun i h₁ h₂ => ?_
  have := hs.get (i := i) (by simpa using Nat.le_of_lt_succ (by simpa using h₁))
  rw [Nat.zero_add] at this
  rw [getElem_bytes, Option.some.inj this, List.getD_eq_getElem _ _ h₂]

/-- A receive of the message `s`. The buffer may lie in pages that the copy takes from the free list. -/
theorem sysRecvmsg_total (rcv : Task) (stack' : Nat → Byte) (hinit : σ₂.box.init = true)
    (hfull : σ₂.box.hasMessage = true) (hmsg : StrAt (fun i => some (σ₂.box.msg i)) 0 s) (hlen : s.length ≤ 127) :
    ∃ r σ₃, sysRecvmsg rcv stack' σ₂ = .ok (r, σ₃) ∧
      (r.1 = -1 ∧ σ₃.box = σ₂.box ∨
        r.1 = 0 ∧ σ₃.box = { σ₂.box with hasMessage := false } ∧
          (Fresh rcv.pagetable σ₂.mem.free → Wrote (argaddr rcv.regs .a0) s σ₂.mem r.2 σ₃.mem)) := by
  have hstr : strlen σ₂.box.msg 0 128 = s.length := hmsg.strlen (by omega)
  obtain ⟨⟨ok, pt'⟩, m', hcopy⟩ : ∃ r m', UserMem.copyout rcv.pagetable rcv.sz (argaddr rcv.regs .a0)
      (bytes σ₂.box.msg (strlen σ₂.box.msg 0 128 + 1)) σ₂.mem = .ok (r, m') := copyout_ok ..
  cases ok with
  | false =>
    refine ⟨(-1, pt'), { σ₂ with mem := m' }, ?_, .inl ⟨rfl, rfl⟩⟩
    refine (bind_ok rfl).trans ?_
    dsimp only
    rw [if_neg (not_not_intro hinit), if_neg (not_not_intro hfull)]
    exact bind_ok (onMem_ok hcopy)
  | true =>
    refine ⟨_, _, sysRecvmsg_copyout hinit hfull hcopy, .inr ⟨rfl, rfl, fun hF => ?_⟩⟩
    rw [hstr, bytes_of_strAt hmsg] at hcopy
    have hl : (s ++ [0]).length = s.length + 1 := by simp
    have hdone := copyout_done _ _ hcopy rfl (by simp)
    refine ⟨fun i hi => ?_, hl ▸ copyout_only hF _ _ _ _ hcopy⟩
    have hi' : i < (s ++ [(0 : Byte)]).length := by omega
    rw [copyout_reach hF (by unfold pgSize; omega) _ _ hcopy i hi' (hdone.symm ▸ hi'), List.getD_eq_getElem _ _ hi',
      List.get_eq_getElem]

/-- **The round trip of a message**, with the two handlers called directly. A
string in mapped pages is accepted when it has at most 127 bytes; otherwise the
mailbox is as before. The receive that follows puts exactly the string and its
NUL into a writable buffer, wherever it lies; into a buffer whose pages are yet to
be allocated it puts the same when the allocation succeeds. It empties the
mailbox, and a receive that fails leaves it as it was. -/
theorem round_trip (snd : Task) (stack : Nat → Byte) (hs : StrAt (peek snd.pagetable σ.mem.ram) (argaddr snd.regs .a0) s) :
    (∃ r σ₁, sysSendmsg snd stack σ = .ok (r, σ₁) ∧ (r.1 = 0 ↔ s.length ≤ 127) ∧
      (127 < s.length → r.1 = -1 ∧ σ₁ = σ)) ∧
    (∀ pt σ₁, sysSendmsg snd stack σ = .ok ((0, pt), σ₁) → ∀ rcv stack' σ₂, σ₂.box = σ₁.box →
      ((∀ i ≤ s.length, Writable rcv.pagetable (argaddr rcv.regs .a0 + i)) →
        ∃ ram, sysRecvmsg rcv stack' σ₂ = .ok ((0, rcv.pagetable),
            { mem := { σ₂.mem with ram := ram }, box := { σ₂.box with hasMessage := false } }) ∧
          (∀ i ≤ s.length, peek rcv.pagetable ram (argaddr rcv.regs .a0 + i) = some ((s ++ [0]).getD i 0)) ∧
          OnlyIn rcv.pagetable (argaddr rcv.regs .a0) (s.length + 1) σ₂.mem.ram ram) ∧
      ∃ r σ₃, sysRecvmsg rcv stack' σ₂ = .ok (r, σ₃) ∧
        (r.1 = -1 ∧ σ₃.box = σ₂.box ∨
          r.1 = 0 ∧ σ₃.box = { σ₂.box with hasMessage := false } ∧
            (Fresh rcv.pagetable σ₂.mem.free → Wrote (argaddr rcv.regs .a0) s σ₂.mem r.2 σ₃.mem))) ∧
    ∀ rcv stack' σ₂ r σ₃, sysRecvmsg rcv stack' σ₂ = .ok (r, σ₃) → r.1 ≠ 0 → σ₃.box = σ₂.box := by
  refine ⟨sysSendmsg_iff stack hs, fun pt σ₁ hsend rcv stack' σ₂ hbox => ?_, fun rcv stack' σ₂ r σ₃ hrecv hne => ?_⟩
  · obtain ⟨hlen, hinit, hfull, hmsg⟩ := sysSendmsg_box hs hsend
    rw [← hbox] at hinit hfull hmsg
    exact ⟨sysRecvmsg_delivers rcv stack' hinit hfull hmsg hlen,
      sysRecvmsg_total rcv stack' hinit hfull hmsg hlen⟩
  · rcases sysRecvmsg_spec r σ₃ hrecv with ⟨h0, -⟩ | ⟨-, h⟩
    · exact absurd h0 hne
    · exact h

end

def twoPageTask (num addr : Word) : Task :=
  { caller num addr with
    pagetable := onePage.setLeaf 1 (some ⟨5, true, true, false, true, false⟩)
    sz := 2 * pgSize }

theorem twoPageTask_writable (num addr : Word) {va : Nat} (h : va < 2 * pgSize) :
    Writable (twoPageTask num addr).pagetable va := by
  unfold Writable
  obtain hv | hv : va / pgSize = 0 ∨ va / pgSize = 1 := by
    unfold pgSize at *
    omega
  all_goals
    rw [hv]
    exact ⟨by decide +kernel, _, rfl, rfl, rfl⟩

def acrossPages : Ipc where
  mem := ⟨[], fun pa i => if pa = 4 then i - 4029 else if i = 0 then 67 else 0⟩
  box := ⟨false, fun _ => 0, false⟩

/-- The string "ABC" lies across the boundary of two pages, and so does the buffer. -/
theorem round_trip_acrossPages : ∃ pt σ₁,
    sysSendmsg (twoPageTask 23 4094) (fun _ => 7) acrossPages = .ok ((0, pt), σ₁) ∧
    ∃ ram, sysRecvmsg (twoPageTask 30 4095) (fun _ => 7) σ₁ = .ok ((0, (twoPageTask 30 4095).pagetable),
        { mem := { σ₁.mem with ram := ram }, box := { σ₁.box with hasMessage := false } }) ∧
      ∀ i ≤ 3, peek (twoPageTask 30 4095).pagetable ram (4095 + i) = some ([65, 66, 67, 0].getD i 0) := by
  have get (i : Fin 4) : peek (twoPageTask 23 4094).pagetable acrossPages.mem.ram (4094 + i) =
      some ([65, 66, 67, 0].getD i 0) := by decide +kernel +revert
  have hs : StrAt (peek (twoPageTask 23 4094).pagetable acrossPages.mem.ram) 4094 [65, 66, 67] :=
    ⟨by decide, get 0, by decide, get 1, by decide, get 2, get 3⟩
  have h := round_trip (twoPageTask 23 4094) (fun _ => 7) hs
  obtain ⟨⟨ret, pt⟩, σ₁, hsend, hiff, -⟩ := h.1
  obtain rfl : ret = 0 := hiff.2 (by decide)
  obtain ⟨ram, hrecv, hget, -⟩ := (h.2.1 pt σ₁ hsend (twoPageTask 30 4095) (fun _ => 7) σ₁ rfl).1
    fun i hi => twoPageTask_writable 30 4095 (Nat.lt_of_le_of_lt (Nat.add_le_add_left hi 4095) (by decide))
  exact ⟨pt, σ₁, hsend, ram, hrecv, hget⟩

/-! ## Histories -/

structure History where
  box : Mailbox
  accepted : List (List Byte)
  delivered : List (List Byte)

inductive BoxCall
  | send (m : Mem) (t : Task) (stack : Nat → Byte)
  | recv (m : Mem) (t : Task) (stack : Nat → Byte)

def text (b : Mailbox) : List Byte := takeStr (fun i => some (b.msg i)) 0 127

def message (t : Task) (m : Mem) : List Byte :=
  takeStr (peek t.pagetable m.ram) (argaddr t.regs .a0) 127

def pending (b : Mailbox) : List (List Byte) := if b.hasMessage then [text b] else []

namespace History

def step (h : History) : BoxCall → Option History
  | .send m t stack =>
    match sysSendmsg t stack ⟨m, h.box⟩ with
    | .error _ => none
    | .ok ((ret, _), σ) => some
      { box := σ.box
        accepted := if ret = 0 then h.accepted ++ [message t m] else h.accepted
        delivered := h.delivered }
  | .recv m t stack =>
    match sysRecvmsg t stack ⟨m, h.box⟩ with
    | .error _ => none
    | .ok ((ret, _), σ) => some
      { box := σ.box
        accepted := h.accepted
        delivered := if ret = 0 then h.delivered ++ [text h.box] else h.delivered }

def run (h : History) : List BoxCall → Option History
  | [] => some h
  | c :: cs => (h.step c).bind fun h => h.run cs

def Sends (c : BoxCall) (s : List Byte) : Prop :=
  ∃ m t stack, c = .send m t stack ∧ s.length ≤ 127 ∧
    StrAt (peek t.pagetable m.ram) (argaddr t.regs .a0) s

def Overwrites (h : History) (c : BoxCall) : Prop := h.box.hasMessage = true ∧ ∃ s, Sends c s

def SomeOverwrites (h : History) : List BoxCall → Prop
  | [] => False
  | c :: cs => Overwrites h c ∨ ∃ h', h.step c = some h' ∧ SomeOverwrites h' cs

def Kept (h : History) : Prop := h.accepted = h.delivered ++ pending h.box

instance (h : History) : Decidable h.Kept := inferInstanceAs (Decidable (_ = _))

section
variable {h h' : History} {c : BoxCall} {cs : List BoxCall}

theorem step_cases (hstep : h.step c = some h') :
    (∃ s, Sends c s ∧ pending h'.box = [s] ∧ h'.accepted = h.accepted ++ [s] ∧
      h'.delivered = h.delivered) ∨
    ((¬ ∃ s, Sends c s) ∧ h'.accepted = h.accepted ∧
      h'.delivered ++ pending h'.box = h.delivered ++ pending h.box) := by
  cases c with
  | send m t stack =>
    rw [step] at hstep
    cases hf : (fetched t stack m).1 with
    | false =>
      rw [sysSendmsg_reject (σ := ⟨m, h.box⟩) hf] at hstep
      cases hstep
      refine .inr ⟨?_, rfl, rfl⟩
      intro ⟨s, _, _, _, hc, hlen, hs⟩
      cases hc
      rw [fetched_of_strAt (σ := ⟨m, h.box⟩) hs hlen] at hf
      cases hf
    | true =>
      rw [sysSendmsg_accept (σ := ⟨m, h.box⟩) hf] at hstep
      cases hstep
      obtain ⟨s, hs, hlen, hmsg⟩ := strAt_of_fetched (σ := ⟨m, h.box⟩) hf
      refine .inl ⟨s, ⟨m, t, stack, rfl, hlen, hs⟩, ?_, ?_, rfl⟩
      · exact congrArg (fun s => [s]) (hmsg.takeStr hlen)
      · exact congrArg (fun s => h.accepted ++ [s]) (hs.takeStr hlen)
  | recv m t stack =>
    have hno : ¬ ∃ s, Sends (.recv m t stack) s := by
      intro ⟨s, _, _, _, hc, _⟩
      cases hc
    refine .inr ⟨hno, ?_⟩
    rw [step] at hstep
    cases hr : sysRecvmsg t stack ⟨m, h.box⟩ with
    | error e => rw [hr] at hstep; cases hstep
    | ok r =>
      obtain ⟨⟨ret, pt⟩, σ⟩ := r
      have hcases := sysRecvmsg_spec _ _ hr
      rw [hr] at hstep
      cases hstep
      obtain ⟨hret, hfull, hbox⟩ | ⟨hret, hbox⟩ := hcases
      · dsimp only at hret hfull hbox ⊢
        rw [hbox, if_pos hret]
        unfold pending
        rw [hfull]
        exact ⟨rfl, List.append_nil _⟩
      · dsimp only at hret hbox ⊢
        rw [hbox, hret]
        exact ⟨rfl, rfl⟩

theorem Kept.step (hk : h.Kept) (hstep : h.step c = some h') (hc : ¬ Overwrites h c) : h'.Kept := by
  unfold Kept at hk ⊢
  obtain ⟨s, hs, hp, ha, hd⟩ | ⟨-, ha, hd⟩ := step_cases hstep
  · -- the mailbox was empty
    have hempty : pending h.box = [] := if_neg fun hfull => hc ⟨hfull, s, hs⟩
    rw [ha, hd, hp, hk, hempty, List.append_nil]
  · rw [ha, hd, hk]

theorem run_kept (hk : h.Kept) (hrun : h.run cs = some h') (hcs : ¬ SomeOverwrites h cs) :
    h'.Kept := by
  induction cs generalizing h with
  | nil => cases hrun; exact hk
  | cons c cs ih =>
    obtain ⟨h₁, hstep, hrun⟩ := Option.bind_eq_some_iff.mp hrun
    exact ih (hk.step hstep fun hc => hcs (.inl hc)) hrun fun hc => hcs (.inr ⟨h₁, hstep, hc⟩)

def Lost (h : History) (n : Nat) : Prop :=
  h.accepted.length = (h.delivered ++ pending h.box).length + n

theorem Lost.step {n : Nat} (hn : h.Lost n) (hstep : h.step c = some h') :
    ∃ k, h'.Lost k ∧ n ≤ k ∧ (Overwrites h c → n < k) := by
  unfold Lost at *
  obtain ⟨s, hs, hp, ha, hd⟩ | ⟨hno, ha, hd⟩ := step_cases hstep
  · rw [List.length_append] at hn
    refine ⟨n + (pending h.box).length, ?_, Nat.le_add_right _ _, fun hc => ?_⟩
    · simp only [ha, hd, hp, List.length_append, List.length_singleton]
      omega
    · have hfull : pending h.box = [text h.box] := if_pos hc.1
      simp [hfull]
  · exact ⟨n, by rw [ha, hd]; exact hn, Nat.le_refl n, fun hc => absurd hc.2 hno⟩

theorem run_lost {n : Nat} (hn : h.Lost n) (hrun : h.run cs = some h') :
    ∃ k, h'.Lost k ∧ n ≤ k ∧ (SomeOverwrites h cs → n < k) := by
  induction cs generalizing h n with
  | nil => cases hrun; exact ⟨n, hn, Nat.le_refl n, False.elim⟩
  | cons c cs ih =>
    obtain ⟨h₁, hstep, hrun⟩ := Option.bind_eq_some_iff.mp hrun
    obtain ⟨k₁, hk₁, hle₁, hlt₁⟩ := hn.step hstep
    obtain ⟨k, hk, hle, hlt⟩ := ih hk₁ hrun
    refine ⟨k, hk, Nat.le_trans hle₁ hle, fun hc => ?_⟩
    obtain hc | ⟨h₂, hstep₂, hc⟩ := hc
    · exact Nat.lt_of_lt_of_le (hlt₁ hc) hle
    · cases hstep.symm.trans hstep₂
      exact Nat.lt_of_le_of_lt hle₁ (hlt hc)

end

def start (b : Mailbox) : History := ⟨b, [], []⟩

/-- From an empty mailbox on no message is lost, in any order of calls, exactly when no
call sends while the mailbox is full. -/
theorem kept_iff {b : Mailbox} (hempty : b.hasMessage = false) {cs : List BoxCall} {h : History}
    (hrun : (start b).run cs = some h) : h.Kept ↔ ¬ SomeOverwrites (start b) cs := by
  have hpend : pending b = [] := if_neg (by rw [hempty]; exact Bool.false_ne_true)
  constructor
  · intro hk hc
    have hzero : (start b).Lost 0 := by
      change 0 = ([] ++ pending b).length + 0
      rw [hpend]
      rfl
    obtain ⟨k, hlost, -, hpos⟩ := run_lost hzero hrun
    have hlen := congrArg List.length hk
    rw [show h.accepted.length = _ from hlost] at hlen
    have := hpos hc
    omega
  · refine run_kept ?_ hrun
    change [] = [] ++ pending b
    rw [hpend]
    rfl

def sendFrom (addr : Word) : BoxCall := .send letters.mem (caller 23 addr) fun _ => 7

def recvTo (addr : Word) : BoxCall := .recv letters.mem (caller 30 addr) fun _ => 7

def gets (cs : List BoxCall) (test : History → Bool) : Bool :=
  ((start letters.box).run cs).any test

theorem gets_iff {cs : List BoxCall} {test : History → Bool} :
    gets cs test = true ↔ ∃ h, (start letters.box).run cs = some h ∧ test h = true := by
  unfold gets
  cases (start letters.box).run cs <;> simp

theorem kept_iff_alternating : ∃ h, (start letters.box).run [sendFrom 0, recvTo 100, sendFrom 2] =
    some h ∧ h.Kept ∧ ¬ SomeOverwrites (start letters.box) [sendFrom 0, recvTo 100, sendFrom 2] := by
  have hgets : gets [sendFrom 0, recvTo 100, sendFrom 2] fun h => h.Kept := by decide +kernel
  obtain ⟨h, hrun, ht⟩ := gets_iff.mp hgets
  have hk : h.Kept := of_decide_eq_true ht
  exact ⟨h, hrun, hk, (kept_iff rfl hrun).mp hk⟩

/-- The first of two messages sent in a row is never received. -/
theorem second_send_overwrites : ∃ h, (start letters.box).run
    [sendFrom 0, sendFrom 2, recvTo 100] = some h ∧
      h.accepted = [[65], [66]] ∧ h.delivered = [[66]] ∧ pending h.box = [] := by
  have hgets : gets [sendFrom 0, sendFrom 2, recvTo 100] fun h =>
      h.accepted = [[65], [66]] ∧ h.delivered = [[66]] ∧ pending h.box = [] := by decide +kernel
  obtain ⟨h, hrun, ht⟩ := gets_iff.mp hgets
  exact ⟨h, hrun, of_decide_eq_true ht⟩

end History

end Ipc

end OsLab
