import Olivia.Oracle.Oracle
import Olivia.Db.Postgres
import Olivia.Secp256k1.Sample

/-! # Starting oracles on one database

A starting oracle compares the keys of its seed with the stored ones, or stores them where
there are none. Nothing holds between the read and the write, and the starters of any
number of processes interleave: it is the primary key of the table that leaves one key set.
-/
namespace Olivia

instance OracleKeys.decidableEq {C : Group} [DecidableEq C.PublicKey] : DecidableEq (OracleKeys C) :=
  fun a b => decidable_of_iff (a.oliviaV1 = b.oliviaV1 ∧ a.ecdsaV1 = b.ecdsaV1 ∧
    a.announcement = b.announcement) (by cases a; cases b; simp)

inductive StartError
  | keysDoNotMatch
  | db (e : DbError)
  deriving DecidableEq

namespace Oracle
variable {C : Group} {σ : Type}

def publicKeys (oracle : Oracle C σ) : OracleKeys C := oracle.keychain.oraclePublicKeys

section New
variable [DecidableEq C.PublicKey] (db : Db C σ) (lib : Libraries C)

/-- What the stored keys decide for an oracle: whether it starts, or its keys have to be stored. -/
def newRead (seed : Seed) (s : σ) : MayPanic (Except StartError (Oracle C σ)) ⊕ KeyChain C :=
  match KeyChain.new lib seed with
  | .error panic => .inl (.error panic)
  | .ok keychain =>
    match db.getPublicKeys s with
    | .error panic => .inl (.error panic)
    | .ok (.error e) => .inl (.ok (.error (.db e)))
    | .ok (.ok (some dbPubkeys)) =>
      if keychain.oraclePublicKeys ≠ dbPubkeys then .inl (.ok (.error .keysDoNotMatch))
      else .inl (.ok (.ok ⟨db,keychain,lib⟩))
    | .ok (.ok none) => .inr keychain

def newWrite (keychain : KeyChain C) (s : σ) : MayPanic (Except StartError (Oracle C σ)) × σ :=
  (db.setPublicKeys keychain.oraclePublicKeys s).map
    (fun r => r.map (fun r => (r.mapError StartError.db).map (fun _ => ⟨db,keychain,lib⟩))) id

/-- `Oracle::new` as calls that interleave on their database. -/
def new : Runs.CheckThenAct σ Seed (KeyChain C) (MayPanic (Except StartError (Oracle C σ))) :=
  ⟨newRead db lib,newWrite db lib⟩

end New
section OneKeySet
variable {server : Server} {lib : Libraries C} {keys : OracleKeys C} {s : Postgres C}
variable {keychain : KeyChain C} {seed : Seed} {oracle : Oracle C (Postgres C)}

theorem setPublicKeys_keeps (h : s.publicKeys = some keys) (other : OracleKeys C) :
    (Postgres.setPublicKeys other s).2.publicKeys = some keys := by
  rw [Postgres.setPublicKeys]
  split
  next => exact h
  next hnone => cases h.symm.trans hnone

theorem newRead_eq_ok [DecidableEq C.PublicKey] (h : newRead (Postgres.db server) lib seed s = .inl (.ok (.ok oracle))) :
    s.publicKeys = some oracle.publicKeys := by
  unfold newRead at h
  split at h
  next => cases h
  next keychain _ =>
    split at h
    next => cases h
    next => cases h
    next dbPubkeys hget =>
      split at h
      next => cases h
      next hsame =>
        push Not at hsame
        obtain rfl := Except.ok.inj (Except.ok.inj (Sum.inl.inj h))
        have hstored : s.publicKeys = some dbPubkeys := Except.ok.inj (Except.ok.inj hget)
        rw [hstored,← hsame,Oracle.publicKeys]
    next => cases h

theorem newWrite_eq_ok (h : (newWrite (Postgres.db server) lib keychain s).1 = .ok (.ok oracle)) :
    (newWrite (Postgres.db server) lib keychain s).2.publicKeys = some oracle.publicKeys := by
  cases hs : s.publicKeys with
  | some keys => simp [newWrite,Postgres.db,Postgres.setPublicKeys,hs,Except.map,Except.mapError] at h
  | none =>
    have hwritten : (.ok (.ok ⟨Postgres.db server,keychain,lib⟩) : MayPanic (Except StartError _)) =
        .ok (.ok oracle) := by
      simpa [newWrite,Postgres.db,Postgres.setPublicKeys,hs,Except.map,Except.mapError] using h
    obtain rfl := Except.ok.inj (Except.ok.inj hwritten)
    simp [newWrite,Postgres.db,Postgres.setPublicKeys,hs,Oracle.publicKeys]

open Runs.CheckThenAct in
/-- However the starters of an empty database interleave, the stored keys never change once
they are there, and they are the keys of every oracle that has started. -/
theorem new_one_key_set [DecidableEq C.PublicKey]
    {u : Runs.Config (Postgres C) Seed (KeyChain C) (MayPanic (Except StartError (Oracle C (Postgres C))))}
    (hrun : (new (Postgres.db server) lib).Reaches (.start Postgres.empty) u) :
    (∀ keys, (Postgres.db server).getPublicKeys u.store = .ok (.ok (some keys)) →
      ∀ v, (new (Postgres.db server) lib).Reaches u v →
        (Postgres.db server).getPublicKeys v.store = .ok (.ok (some keys))) ∧
    ∀ i seed oracle, u.phase i = .returned seed (.ok (.ok oracle)) →
      (Postgres.db server).getPublicKeys u.store = .ok (.ok (some oracle.publicKeys)) := by
  constructor
  · intro keys hkeys v hrest
    have hstored : u.store.publicKeys = some keys := Except.ok.inj (Except.ok.inj hkeys)
    have hkept : v.store.publicKeys = some keys := by
      refine Inductive.trivially.relates (E := fun s t => s.publicKeys = some keys → t.publicKeys = some keys)
        (fun _ => id) ?_ ?_ Holds.trivially hrest hstored
      · intro _ _ _ hst htu h
        exact htu (hst h)
      · intro _ keychain s _ _ _ h
        exact setPublicKeys_keeps h keychain.oraclePublicKeys
    exact congrArg (fun keys => Except.ok (Except.ok keys)) hkept
  · intro i seed oracle hreturned
    have hsettled := Inductive.trivially.settles (P := new (Postgres.db server) lib)
      (S := fun _ r s => ∀ oracle, r = .ok (.ok oracle) → s.publicKeys = some oracle.publicKeys)
      ?_ ?_ ?_ Holds.trivially ?_ hrun i seed _ hreturned oracle rfl
    · exact congrArg (fun keys => Except.ok (Except.ok keys)) hsettled
    · rintro c r s _ hread oracle rfl
      exact newRead_eq_ok hread
    · intro c keychain s _ _ _ oracle hr
      exact newWrite_eq_ok hr
    · intro c r _ keychain s _ hr _ _ oracle hok
      exact setPublicKeys_keeps (hr oracle hok) keychain.oraclePublicKeys
    · intro i c r h
      cases h

end OneKeySet

/-- Starters over the residues, on a server that takes every text. -/
def sampleStarters : Runs.CheckThenAct (Postgres (Sample.group 10007)) Seed (KeyChain (Sample.group 10007))
    (MayPanic (Except StartError (Oracle (Sample.group 10007) (Postgres (Sample.group 10007))))) :=
  new (Postgres.db ⟨fun _ => true,fun _ => true⟩) (Sample.libraries 10007)

/-- The seed of another process. -/
def otherSeed : Seed := ⟨Vector.replicate 64 43⟩

/-- Two starters of different seeds find no keys. The first one stores its own, the second one fails to
store others, and the keys stay. -/
theorem new_one_key_set_sample : ∃ t u oracle other, sampleStarters.Reaches (.start Postgres.empty) t ∧
    sampleStarters.Reaches t u ∧ t.phase 0 = .returned Sample.seed (.ok (.ok oracle)) ∧
    t.phase 1 = .checked otherSeed other ∧ other.oraclePublicKeys ≠ oracle.publicKeys ∧
    u.phase 1 = .returned otherSeed (.ok (.error (.db .statementFailed))) ∧
    (Postgres.db ⟨fun _ => true,fun _ => true⟩).getPublicKeys t.store = .ok (.ok (some oracle.publicKeys)) ∧
    (Postgres.db ⟨fun _ => true,fun _ => true⟩).getPublicKeys u.store = .ok (.ok (some oracle.publicKeys)) := by
  have hother : (KeyChain.new (Sample.libraries 10007) otherSeed).toOption.any (fun other =>
      decide (other.oraclePublicKeys ≠ Sample.keychain.oraclePublicKeys)) = true := by decide +kernel
  obtain ⟨other,hnew,hne⟩ := MayPanic.of_toOption_any hother
  have hfirst : sampleStarters.check Sample.seed .empty = .inr Sample.keychain := by
    simp [sampleStarters,new,newRead,Sample.keychain_new,Postgres.db,Postgres.empty]
  have hsecond : sampleStarters.check otherSeed .empty = .inr other := by
    simp [sampleStarters,new,newRead,hnew,Postgres.db,Postgres.empty]
  obtain ⟨ht,hu⟩ : sampleStarters.Reaches (.start .empty)
      (sampleStarters.overlapped 0 1 Sample.seed otherSeed Sample.keychain other (.start .empty)).1 ∧
      sampleStarters.Reaches (sampleStarters.overlapped 0 1 Sample.seed otherSeed Sample.keychain other (.start .empty)).1
        (sampleStarters.overlapped 0 1 Sample.seed otherSeed Sample.keychain other (.start .empty)).2 :=
    Runs.CheckThenAct.reachesWhen_overlapped (by decide) rfl rfl hfirst hsecond trivial trivial
  obtain ⟨hreturned,hchecked,hfailed⟩ := Runs.CheckThenAct.overlapped_phases (P := sampleStarters)
    (s := .start .empty) (c := Sample.seed) (d := otherSeed) (w := Sample.keychain) (v := other) (i := 0) (j := 1)
    (by decide)
  obtain ⟨hstay,hstarted⟩ := new_one_key_set ht
  have hkeys := hstarted 0 _ _ hreturned
  exact ⟨_,_,_,other,ht,hu,hreturned,hchecked,of_decide_eq_true hne,hfailed,hkeys,hstay _ hkeys _ hu⟩

end Oracle
end Olivia
