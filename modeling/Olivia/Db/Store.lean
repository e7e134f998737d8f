import Olivia.Db.InMemory
import Olivia.Db.Postgres

/-! # Either store

The oracle holds its database behind a trait object, so it runs on whichever store it was
started with.
-/
namespace Olivia

inductive Store (C : Group)
  | inMemory (s : InMemory C)
  | postgres (server : Server) (s : Postgres C)

namespace Store
variable {C : Group}

def db : Db C (Store C) where
  getAnnouncedEvent id
    | inMemory s => InMemory.db.getAnnouncedEvent id s
    | postgres server s => (Postgres.db server).getAnnouncedEvent id s
  getPublicKeys
    | inMemory s => InMemory.db.getPublicKeys s
    | postgres server s => (Postgres.db server).getPublicKeys s
  insertEvent event
    | inMemory s => (InMemory.db.insertEvent event s).map id inMemory
    | postgres server s => ((Postgres.db server).insertEvent event s).map id (postgres server)
  completeEvent eventId attestation
    | inMemory s => (InMemory.db.completeEvent eventId attestation s).map id inMemory
    | postgres server s => ((Postgres.db server).completeEvent eventId attestation s).map id (postgres server)
  setPublicKeys publicKeys
    | inMemory s => (InMemory.db.setPublicKeys publicKeys s).map id inMemory
    | postgres server s => ((Postgres.db server).setPublicKeys publicKeys s).map id (postgres server)

theorem db_lawful : (db : Db C (Store C)).Lawful where
  insert_finds {s t announced} hid hw := by
    cases s with
    | inMemory s =>
      obtain ⟨hr,rfl⟩ := Prod.mk.inj hw
      exact InMemory.db_lawful.insert_finds hid (Prod.ext hr rfl)
    | postgres server s =>
      obtain ⟨hr,rfl⟩ := Prod.mk.inj hw
      exact Postgres.db_lawful.insert_finds hid (Prod.ext hr rfl)
  insert_keeps {s t announced found r id} hw hf := by
    cases s with
    | inMemory s =>
      obtain ⟨hr,rfl⟩ := Prod.mk.inj hw
      exact InMemory.db_lawful.insert_keeps (Prod.ext hr rfl) hf
    | postgres server s =>
      obtain ⟨hr,rfl⟩ := Prod.mk.inj hw
      exact Postgres.db_lawful.insert_keeps (Prod.ext hr rfl) hf
  complete_finds {s t attestation found id} hw hf := by
    cases s with
    | inMemory s =>
      obtain ⟨hr,rfl⟩ := Prod.mk.inj hw
      exact InMemory.db_lawful.complete_finds (Prod.ext hr rfl) hf
    | postgres server s =>
      obtain ⟨hr,rfl⟩ := Prod.mk.inj hw
      exact Postgres.db_lawful.complete_finds (Prod.ext hr rfl) hf
  complete_keeps {s t attestation found r id id'} hw hf := by
    cases s with
    | inMemory s =>
      obtain ⟨hr,rfl⟩ := Prod.mk.inj hw
      exact InMemory.db_lawful.complete_keeps (Prod.ext hr rfl) hf
    | postgres server s =>
      obtain ⟨hr,rfl⟩ := Prod.mk.inj hw
      exact Postgres.db_lawful.complete_keeps (Prod.ext hr rfl) hf

end Store
end Olivia
