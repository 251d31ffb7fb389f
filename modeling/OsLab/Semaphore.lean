import OsLab.Wakeup
import OsLab.Machine

/-!
# Semaphores

`sys_sem_wait` and `sys_sem_post` in any interleaving. A word is named by its address
and by the memory that the address is in: threads made by `clone` share a memory. The
addresses are aligned, so that two words do not overlap. Threads come and go.
-/

namespace OsLab

abbrev Loc := Nat × Nat

structure Space where
  memory : Nat → Nat
  readable : Nat → Bool
  writable : Nat → Bool

/-- The words; and, as ghosts, the calls for a word that returned 0, of all threads that ever
were and of the thread in a slot. -/
structure Sems where
  space : Slot → Space
  word : Loc → BitVec 32
  posts : Loc → Nat
  waits : Loc → Nat
  posted : Slot → Loc → Nat
  waited : Slot → Loc → Nat

def Sems.loc (d : Sems) (i : Slot) (a : Nat) : Loc := ((d.space i).memory a, a)

inductive SemPlace
  | user
  | waitAcquire (a : Nat)
  | waitRead (a : Nat)
  | waitWrite (a : Nat) (semval : BitVec 32)
  | waitReturn (a : Nat)
  | waitKilled (a : Nat)
  | postAcquire (a : Nat)
  | postRead (a : Nat)
  | postWrite (a : Nat) (semval : BitVec 32)
  | postReturn (a : Nat)
  | dead

inductive SemCall
  | wait (a : Nat)
  | post (a : Nat)
  | clone (np : Slot) (space : Space)
  | exit
  | reap (np : Slot)

abbrev SemSys := Sys Nat SemPlace Sems

namespace Sem

def leave (s : SemSys) (i : Slot) : SemSys := { s with lk := none }.goto i (.code .user)

def acquire (s : SemSys) (i : Slot) (p : SemPlace) : Option SemSys :=
  if s.lk = none then some ({ s with lk := some i }.goto i (.code p)) else none

def setWord (s : SemSys) (w : Loc) (v : BitVec 32) : SemSys :=
  { s with data := { s.data with word := Function.update s.data.word w v } }

@[simp] theorem setWord_word (s : SemSys) (w : Loc) (v : BitVec 32) :
    (setWord s w v).data.word = Function.update s.data.word w v := rfl

def count (f : Loc → Nat) (w : Loc) : Loc → Nat := Function.update f w (f w + 1)

def countPost (d : Sems) (i : Slot) (w : Loc) : Sems := { d with
  posts := count d.posts w
  posted := Function.update d.posted i (count (d.posted i) w) }

def countWait (d : Sems) (i : Slot) (w : Loc) : Sems := { d with
  waits := count d.waits w
  waited := Function.update d.waited i (count (d.waited i) w) }

def create (s : SemSys) (np : Slot) (space : Space) : SemSys :=
  { s with
    state := Function.update s.state np .runnable
    data := { s.data with
      space := Function.update s.data.space np space
      posted := Function.update s.data.posted np fun _ => 0
      waited := Function.update s.data.waited np fun _ => 0 } }.goto np (.code .user)

def free (s : SemSys) (np : Slot) : SemSys := { s with
  state := Function.update s.state np .unused
  chan := Function.update s.chan np none
  killed := Function.update s.killed np false }

def code (i : Slot) (p : SemPlace) (x : SemCall) (s : SemSys) : Option SemSys :=
  match p with
  | .user =>
    match x with
    | .wait a => some (s.goto i (.code (.waitAcquire a)))
    | .post a => some (s.goto i (.code (.postAcquire a)))
    | .clone np space =>
      if s.state np = .unused then some ((create s np space).goto i (.code .user)) else none
    | .exit =>
      some ({ s with state := Function.update s.state i .zombie }.goto i (.code .dead))
    | .reap np =>
      if s.state np = .zombie then some ((free s np).goto i (.code .user)) else none
  | .waitAcquire a => acquire s i (.waitRead a)
  | .waitRead a =>
    if (s.data.space i).readable a then
      let semval := s.data.word (s.data.loc i a)
      if 0 < semval.toInt then some (s.goto i (.code (.waitWrite a (semval - 1))))
      else some (s.goto i (.code (.waitKilled a)))
    else some (leave s i)
  | .waitWrite a semval =>
    if (s.data.space i).writable a then
      some ((setWord s (s.data.loc i a) semval).goto i (.code (.waitReturn a)))
    else some (leave s i)
  | .waitReturn a => some (leave { s with data := countWait s.data i (s.data.loc i a) } i)
  | .waitKilled a =>
    if s.killed i then some (leave s i) else some (s.goto i (.sleepLock a (.waitRead a)))
  | .postAcquire a => acquire s i (.postRead a)
  | .postRead a =>
    if (s.data.space i).readable a then
      some (s.goto i (.code (.postWrite a (s.data.word (s.data.loc i a) + 1))))
    else some (leave s i)
  | .postWrite a semval =>
    if (s.data.space i).writable a then
      some ((setWord s (s.data.loc i a) semval).goto i (.wakeup a 0 (.postReturn a)))
    else some (leave s i)
  | .postReturn a => some (leave { s with data := countPost s.data i (s.data.loc i a) } i)
  | .dead => none

def step (s : SemSys) : Act SemCall → Option SemSys := s.step code

structure Start (s : SemSys) : Prop where
  lk : s.lk = none
  pc : ∀ i, s.pc i = .code (if s.state i = .zombie then .dead else .user)
  posts : ∀ w, s.data.posts w = 0
  waits : ∀ w, s.data.waits w = 0
  posted : ∀ i w, s.data.posted i w = 0
  waited : ∀ i w, s.data.waited i w = 0

def held : SemPlace → Bool
  | .user | .waitAcquire _ | .postAcquire _ | .dead => false
  | _ => true

end Sem

end OsLab
