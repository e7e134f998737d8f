import Mathlib.Algebra.Field.ZMod
import Mathlib.Tactic.NormNum.Prime
import Olivia.Core.Json
import Olivia.Secp256k1.Group
import Olivia.Oracle.KeyChain

/-! # Residues as a curve

The residues of an odd prime are a field and a module over themselves, with every residue
its own discrete logarithm: useless for signing, but all laws of the group hold and every
function can be run. An x coordinate is the even one of a residue and its negative.
-/
namespace Olivia
namespace Sample
open Secp256k1

variable (p : ℕ) [Fact p.Prime]

/-- Bytes as a big-endian number. -/
def ofBytes (bytes : List UInt8) : ℕ := bytes.foldl (fun n b => 256*n+b.toNat) 0

def pairOf (r : ZMod p) : XOnlyPair (F := ZMod p) (1 : ZMod p) id := ⟨r,r,by simp⟩

def sign (message : List UInt8) (r : ZMod p) : ZMod p := (ofBytes message : ZMod p)*r
def ecdsaSign (hash : List UInt8) (r : ZMod p) : ZMod p := r+(ofBytes hash : ZMod p)

def library : Library (ZMod p) (ZMod p) where
  G := 1
  XOnly := ZMod p
  toPoint := id
  fromScalarMul r := if r.val % 2 = 0 then pairOf p r else pairOf p (-r)
  fromSliceModOrder bytes := if bytes.length = 32 then some (ofBytes bytes) else none
  SchnorrSignature := ZMod p
  schnorrSign keypair tag message := sign p (asBytes tag ++ message) keypair.scalar
  schnorrVerify point tag message sig := decide (sig = sign p (asBytes tag ++ message) point)
  sha256 message := message
  EcdsaSignature := ZMod p
  ecdsaSign scalar hash := ecdsaSign p hash scalar
  ecdsaVerify point hash sig := decide (sig = ecdsaSign p hash point)

abbrev group : Group := secp256k1 (library p)

variable {p} in
theorem xonly_eq_scalar (kp : XOnlyPair (F := ZMod p) (1 : ZMod p) id) : kp.xonly = kp.scalar := by
  simpa using kp.toPoint_xonly

theorem announcementsVerify : (group p).AnnouncementsVerify := by
  intro kp message
  have h : ∀ r : ZMod p, r = kp.scalar → decide (sign p (asBytes announcementTag ++ message) kp.scalar =
      sign p (asBytes announcementTag ++ message) r) = true := by
    rintro _ rfl
    exact decide_eq_true rfl
  exact h kp.xonly (xonly_eq_scalar kp)

theorem ecdsaVerifiesSigner : (group p).EcdsaVerifiesSigner := by
  intro kp kp' message
  have h : ∀ r : ZMod p, r = kp'.scalar → ∀ r' : ZMod p,
      (decide (ecdsaSign p message kp'.scalar = ecdsaSign p message r') = true ↔ r = r') := by
    rintro _ rfl r'
    rw [decide_eq_true_iff,ecdsaSign,ecdsaSign,add_left_inj]
  exact h kp'.xonly (xonly_eq_scalar kp') kp.xonly

def secondsText (seconds : Int) : Str :=
  if seconds < 0 then '-' :: Text.decimal seconds.natAbs else Text.decimal seconds.natAbs

def secondsOf : Str → Int
  | '-' :: digits => -(Nat.ofDigitChars 10 digits 0 : ℕ)
  | digits => (Nat.ofDigitChars 10 digits 0 : ℕ)

/-- The text of a time is its seconds and its subsecond part. -/
def timeText (t : NaiveDateTime) : Str :=
  secondsText t.seconds ++ '.' :: Text.decimal t.nanosecond.toNat

def timeOf (text : Str) : Option NaiveDateTime :=
  (Text.splitOnce '.' text).map (fun (seconds,nanosecond) =>
    ⟨secondsOf seconds,UInt32.ofNat (Nat.ofDigitChars 10 nanosecond 0)⟩)

theorem ofDigitChars_decimal (n : ℕ) : Nat.ofDigitChars 10 (Text.decimal n) 0 = n :=
  Nat.ofDigitChars_ten_toDigits

theorem not_mem_decimal {c : Char} (hc : ¬ c.isDigit) (n : ℕ) : c ∉ Text.decimal n :=
  fun h => hc (Text.isDigit_of_mem_decimal h)

theorem secondsOf_secondsText (seconds : Int) : secondsOf (secondsText seconds) = seconds := by
  unfold secondsText
  split
  next hneg =>
    rw [secondsOf,ofDigitChars_decimal]
    omega
  next hneg =>
    unfold secondsOf
    split
    next digits he =>
      exact absurd (by simp [he] : '-' ∈ Text.decimal seconds.natAbs) (not_mem_decimal (by decide) _)
    next =>
      rw [ofDigitChars_decimal]
      omega

theorem timeOf_timeText (t : NaiveDateTime) : timeOf (timeText t) = some t := by
  have hdot : '.' ∉ secondsText t.seconds := by
    have hdecimal := not_mem_decimal (c := '.') (by decide) t.seconds.natAbs
    unfold secondsText
    split <;> simp [hdecimal]
  simp [timeOf,timeText,Text.splitOnce_append hdot,secondsOf_secondsText,ofDigitChars_decimal]

def texts : Json.Texts (group p) where
  nonce nonce := Text.decimal (ZMod.val (n := p) nonce)
  nonceOf text := some ((Nat.ofDigitChars 10 text 0 : ℕ) : ZMod p)
  nonceOf_nonce nonce := by
    rw [ofDigitChars_decimal]
    exact congrArg some (ZMod.natCast_zmod_val nonce)
  time := timeText
  timeOf := timeOf
  timeOf_time := timeOf_timeText

/-- A checksum in the place of the hash. -/
def mix (bytes : List UInt8) : UInt8 := bytes.foldl (fun h b => 31*h+b) 17

def blake2b : Blake2b where
  mac key message := key.map (fun b => b+mix message)
  varMac key len message := (List.range len).map (fun i => mix (UInt8.ofNat i :: key[0] :: message))

def libraries : Libraries (group p) := ⟨blake2b,Json.serdeJson (texts p)⟩

theorem roundTrips : (libraries p).serdeJson.RoundTrips := Json.serdeJson_roundTrips (texts p)

instance fact_prime : Fact (Nat.Prime 10007) := ⟨by norm_num⟩

def seed : Seed := ⟨Vector.replicate 64 42⟩

/-- Three different key pairs over the residues of one prime. -/
def keychain : KeyChain (group 10007) where
  announcementKeypair := pairOf 10007 1434
  oliviaV1Keypair := pairOf 10007 6578
  ecdsaV1Keypair := pairOf 10007 1546
  eventSeed := (seed.child (libraries 10007) (asBytes (group 10007).name)).child (libraries 10007)
    (asBytes "oracle-events".toList)

instance : DecidableEq (group 10007).PublicKey := inferInstanceAs (DecidableEq (ZMod 10007))
instance : DecidableEq (group 10007).AttestScalar := inferInstanceAs (DecidableEq (ZMod 10007))
instance : DecidableEq (group 10007).KeyPair :=
  inferInstanceAs (DecidableEq (XOnlyPair (F := ZMod 10007) (1 : ZMod 10007) id))
instance : DecidableEq (group 10007).NonceKeyPair :=
  inferInstanceAs (DecidableEq (XOnlyPair (F := ZMod 10007) (1 : ZMod 10007) id))
instance : DecidableEq (KeyChain (group 10007)) := fun a b =>
  decidable_of_iff (a.announcementKeypair = b.announcementKeypair ∧ a.oliviaV1Keypair = b.oliviaV1Keypair ∧
    a.ecdsaV1Keypair = b.ecdsaV1Keypair ∧ a.eventSeed = b.eventSeed) (by cases a; cases b; simp)

example : [keychain.announcementKeypair,keychain.oliviaV1Keypair,keychain.ecdsaV1Keypair].Nodup := by
  decide +kernel

theorem keychain_new : KeyChain.new (libraries 10007) seed = .ok keychain := by decide +kernel

/-- A price of two digits. -/
def priceEvent : Event := ⟨⟨⟨"/foo/bar.price?n=2".toList⟩⟩,none⟩

theorem price_accepted : priceEvent.id.Accepted := by decide +kernel

/-- An outcome beyond what two digits spell. -/
theorem price_valid : Outcome.Valid ⟨priceEvent.id,7⟩ := ⟨"7".toList,by decide +kernel⟩

theorem price_announced : ∃ announcement, keychain.createAnnouncement (libraries 10007) priceEvent =
    .ok announcement := MayPanic.isOk_of_toOption (by decide +kernel)

/-- An event as it is stored when it has been announced. -/
def announcedEvent (id : Str) : Option (AnnouncedEvent (group 10007)) :=
  (keychain.createAnnouncement (libraries 10007) ⟨⟨⟨id⟩⟩,none⟩).toOption.map (fun announcement =>
    ⟨⟨⟨⟨id⟩⟩,none⟩,announcement,none⟩)

end Sample
end Olivia
