import OsLab.Machine
import Mathlib.Data.Finset.Basic
import Mathlib.Data.Finset.Card

/-!
# A store with transactions

A store that many operations change at a time, and that may lose what was not
saved. It is saved as a whole, and only while no operation is under way: what a
crash leaves is the work of complete operations.
-/

namespace OsLab

/-- `now` is what the operations see, `saved` what is left after a crash. -/
structure TxStore (T B V : Type) where
  now : B → V
  saved : B → V
  active : Finset T

namespace TxStore
variable {T B V : Type}

inductive Act (T B V : Type)
  | begin (i : T)
  | write (i : T) (b : B) (v : V)
  | done (i : T)
  | save
  | crash

def start (v : B → V) : TxStore T B V where
  now := v
  saved := v
  active := ∅

@[simp] theorem start_saved (v : B → V) : (start v : TxStore T B V).saved = v := rfl

variable [DecidableEq T] [DecidableEq B]

def step (t : TxStore T B V) : Act T B V → Option (TxStore T B V)
  | .begin i => if i ∈ t.active then none else some { t with active := insert i t.active }
  | .write i b v =>
    if i ∈ t.active then some { t with now := Function.update t.now b v } else none
  | .done i => if i ∈ t.active then some { t with active := t.active.erase i } else none
  | .save => if t.active = ∅ then some { t with saved := t.now } else none
  | .crash => some { t with now := t.saved, active := ∅ }

end TxStore

end OsLab
