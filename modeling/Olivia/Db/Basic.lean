import Mathlib.Data.List.AList
import Olivia.Core.Attestation

/-! # The database interface

What the oracle needs of a database: one read and two writes of announced events, and the
published keys. A lawful database answers a read with what the last successful writes of
that id left there, and a write that does not succeed leaves every read as it was.
-/
namespace Olivia

/-- A lookup in a map after an insertion. -/
theorem lookup_insert {α β : Type} [DecidableEq α] (map : AList (fun _ : α => β)) (key key' : α) (b : β) :
    (map.insert key' b).lookup key = if key = key' then some b else map.lookup key := by
  split
  next h => rw [h,AList.lookup_insert]
  next h => rw [AList.lookup_insert_ne h]

inductive DbError
  | message (text : Str)
  | statementFailed
  deriving DecidableEq

abbrev DbResult (α : Type) := MayPanic (Except DbError α)

inductive Order
  | earliest
  | latest
  deriving DecidableEq

structure EventQuery where
  path : Option Path := none
  attested : Option Bool := none
  order : Order := .earliest
  /-- The event-id ends with this path, root means anything. -/
  endsWith : Path := Path.root
  kind : Option EventKind := none

structure Db (C : Group) (σ : Type) where
  getAnnouncedEvent : EventId → σ → DbResult (Option (AnnouncedEvent C))
  getPublicKeys : σ → DbResult (Option (OracleKeys C))
  insertEvent : AnnouncedEvent C → σ → DbResult Unit × σ
  completeEvent : EventId → Attestation C → σ → DbResult Unit × σ
  setPublicKeys : OracleKeys C → σ → DbResult Unit × σ

/-- The writes of the database interface. -/
inductive DbOp (C : Group)
  | insertEvent (announced : AnnouncedEvent C)
  | completeEvent (eventId : EventId) (attestation : Attestation C)
  | setPublicKeys (publicKeys : OracleKeys C)

namespace Db
variable {C : Group} {σ : Type}

def apply (db : Db C σ) : DbOp C → σ → DbResult Unit × σ
  | .insertEvent announced => db.insertEvent announced
  | .completeEvent eventId attestation => db.completeEvent eventId attestation
  | .setPublicKeys publicKeys => db.setPublicKeys publicKeys

/-- A read that finds an event. -/
def Finds (db : Db C σ) (s : σ) (id : EventId) (announced : AnnouncedEvent C) : Prop :=
  db.getAnnouncedEvent id s = .ok (.ok (some announced))

structure Lawful (db : Db C σ) : Prop where
  insert_finds {s t : σ} {announced : AnnouncedEvent C} (h : announced.event.id.Accepted)
    (hw : db.insertEvent announced s = (.ok (.ok ()),t)) : db.Finds t announced.event.id announced
  insert_keeps {s t : σ} {announced found : AnnouncedEvent C} {r : DbResult Unit} {id : EventId}
    (hw : db.insertEvent announced s = (r,t)) (hf : db.Finds s id found) : db.Finds t id found
  complete_finds {s t : σ} {attestation : Attestation C} {found : AnnouncedEvent C} {id : EventId}
    (hw : db.completeEvent id attestation s = (.ok (.ok ()),t)) (hf : db.Finds s id found) :
    db.Finds t id { found with attestation := some attestation }
  complete_keeps {s t : σ} {attestation : Attestation C} {found : AnnouncedEvent C} {r : DbResult Unit}
    {id id' : EventId} (hw : db.completeEvent id' attestation s = (r,t)) (hf : db.Finds s id found) :
    db.Finds t id found ∨ id' = id ∧ db.Finds t id { found with attestation := some attestation }

end Db
end Olivia
