/-!
# Acceptance tables

A table has one slot for each expected sender.  A slot is written at most
once: a value for a slot that is filled already, or for a sender without a
slot, changes nothing.
-/

namespace Quorum

/-- One slot for each sender. -/
structure AcceptanceTable (α : Type) where
  /-- The slots in the order of the senders. -/
  slots : List (Option α)

namespace AcceptanceTable

variable {α : Type}

def empty (n : Nat) : AcceptanceTable α :=
  ⟨List.replicate n none⟩

def get? (t : AcceptanceTable α) (sender : Nat) : Option α :=
  (t.slots[sender]?).join

def isAccepted (t : AcceptanceTable α) (sender : Nat) : Bool :=
  (t.get? sender).isSome

/-- Fills the slot of a sender, and says whether it did. -/
def accept (t : AcceptanceTable α) (sender : Nat) (value : α) :
    Bool × AcceptanceTable α :=
  match t.slots[sender]? with
  | some none => (true, ⟨t.slots.set sender (some value)⟩)
  | _ => (false, t)

/-- The number of senders from which a value was accepted. -/
def accepted (t : AcceptanceTable α) : Nat :=
  t.slots.countP Option.isSome

/-- Whether a value was accepted from every sender. -/
def isComplete (t : AcceptanceTable α) : Bool :=
  t.slots.all Option.isSome

/-- The values in the order of the senders, if the table is complete. -/
def values? (t : AcceptanceTable α) : Option (List α) :=
  t.slots.mapM id

end AcceptanceTable

end Quorum
