import Olivia.Core.Announcement

/-! # A JSON text of announcement documents

The document is printed with the field names and the tags of the derived serializers, and
read back token by token in the order it is printed. The texts of nonces and times are left
to the group and to the time type; any pair with a left inverse gives a round trip.
-/
namespace Olivia
namespace Json

inductive Token
  | text (s : Str)
  | mark (c : Char)
  deriving DecidableEq

def escape (c : Char) : Str := if c = '"' ∨ c = '\\' then ['\\',c] else [c]

def Token.print : Token → Str
  | .text s => '"' :: (s.flatMap escape ++ ['"'])
  | .mark c => [c]

/-- Inside a string the state holds what has been read of it, in reverse. -/
def tokens : Option Str → Str → Option (List Token)
  | none, [] => some []
  | none, '"' :: rest => tokens (some []) rest
  | none, c :: rest => (tokens none rest).map (fun ts => .mark c :: ts)
  | some _, [] => none
  | some read, '"' :: rest => (tokens none rest).map (fun ts => .text read.reverse :: ts)
  | some read, '\\' :: c :: rest => tokens (some (c :: read)) rest
  | some read, c :: rest => tokens (some (c :: read)) rest

theorem tokens_string (s read rest : Str) : tokens (some read) (s.flatMap escape ++ '"' :: rest) =
    (tokens none rest).map (fun ts => .text (read.reverse ++ s) :: ts) := by
  induction s generalizing read with
  | nil => simp [tokens]
  | cons c s ih =>
    by_cases hc : c = '"' ∨ c = '\\'
    · simp [escape,hc,tokens,ih]
    · push Not at hc
      simp [escape,hc.1,hc.2,tokens,ih]

theorem tokens_print {ts : List Token} (h : .mark '"' ∉ ts) :
    tokens none (ts.flatMap Token.print) = some ts := by
  induction ts with
  | nil => rfl
  | cons t ts ih =>
    simp only [List.mem_cons,not_or] at h
    cases t with
    | text s => simp [Token.print,tokens,tokens_string,ih h.2]
    | mark c =>
      have hc : c ≠ '"' := fun he => h.1 (he ▸ rfl)
      simp [Token.print,tokens,ih h.2]

example : tokens none "[\"a\\\"b\",1]".toList =
    some [.mark '[',.text "a\"b".toList,.mark ',',.mark '1',.mark ']'] := by decide +kernel

/-- The rest after an expected run of tokens. -/
def skip : List Token → List Token → Option (List Token)
  | [], ts => some ts
  | w :: ws, t :: ts => if w = t then skip ws ts else none
  | _ :: _, [] => none

@[simp] theorem skip_append (ws ts : List Token) : skip ws (ws ++ ts) = some ts := by
  induction ws with
  | nil => rfl
  | cons w ws ih => simp [skip,ih]

/-- Bare words: numbers, truth values and null. -/
def bare (s : Str) : List Token := s.map .mark

def readBare : List Token → Str × List Token
  | .mark c :: rest => if c.isAlphanum then (c :: (readBare rest).1,(readBare rest).2) else ([],.mark c :: rest)
  | ts => ([],ts)

theorem readBare_bare {s : Str} (h : ∀ c ∈ s, c.isAlphanum) {c : Char} (hc : ¬ c.isAlphanum)
    (rest : List Token) : readBare (bare s ++ .mark c :: rest) = (s,.mark c :: rest) := by
  induction s with
  | nil => simp [bare,readBare,hc]
  | cons a s ih =>
    have ih := ih (fun c hc => h c (List.mem_cons_of_mem a hc))
    simp only [bare] at ih
    simp [bare,readBare,h a List.mem_cons_self,ih]

def key (name : String) : List Token := [.text name.toList,.mark ':']

/-- The strings of an array up to its end. -/
def strings : List Str → List Token
  | [] => [.mark ']']
  | [s] => [.text s,.mark ']']
  | s :: l => .text s :: .mark ',' :: strings l

def readStrings : List Token → Option (List Str × List Token)
  | .mark ']' :: rest => some ([],rest)
  | .text s :: .mark ']' :: rest => some ([s],rest)
  | .text s :: .mark ',' :: rest => (readStrings rest).map (fun (l,rest) => (s :: l,rest))
  | _ => none

@[simp] theorem readStrings_strings (l : List Str) (rest : List Token) :
    readStrings (strings l ++ rest) = some (l,rest) := by
  induction l with
  | nil => rfl
  | cons s l ih =>
    cases l with
    | nil => rfl
    | cons t l => simp [strings,readStrings,ih]

def optionText : Option Str → List Token
  | none => bare "null".toList
  | some s => [.text s]

def readOptionText : List Token → Option (Option Str × List Token)
  | .text s :: rest => some (some s,rest)
  | ts => (skip (bare "null".toList) ts).map (fun rest => (none,rest))

@[simp] theorem readOptionText_optionText (o : Option Str) (rest : List Token) :
    readOptionText (optionText o ++ rest) = some (o,rest) := by
  cases o with
  | none => simp [readOptionText,optionText,bare,skip]
  | some s => rfl

def descriptorTokens : Descriptor → List Token
  | .enum outcomes => .mark '{' :: (key "type" ++ .text "enum".toList :: .mark ',' ::
      (key "outcomes" ++ .mark '[' :: (strings outcomes ++ [.mark '}'])))
  | .digitDecomposition isSigned nDigits unit => .mark '{' :: (key "type" ++
      .text "digit-decomposition".toList :: .mark ',' :: (key "is_signed" ++ (bare (displayBool isSigned) ++
      .mark ',' :: (key "n_digits" ++ (bare (displayU8 nDigits) ++
      .mark ',' :: (key "unit" ++ (optionText unit ++ [.mark '}'])))))))
  | .missingDescriptor => .mark '{' :: (key "type" ++ [.text "missing-descriptor".toList,.mark '}'])

def readEnum (ts : List Token) : Option (Descriptor × List Token) := do
  let ts ← skip (.mark ',' :: (key "outcomes" ++ [.mark '['])) ts
  let (outcomes,ts) ← readStrings ts
  return (.enum outcomes,← skip [.mark '}'] ts)

def readDigitDecomposition (ts : List Token) : Option (Descriptor × List Token) := do
  let (isSigned,ts) := readBare (← skip (.mark ',' :: key "is_signed") ts)
  let (nDigits,ts) := readBare (← skip (.mark ',' :: key "n_digits") ts)
  let (unit,ts) ← readOptionText (← skip (.mark ',' :: key "unit") ts)
  return (.digitDecomposition (← parseBool isSigned) (← parseU8 nDigits) unit,← skip [.mark '}'] ts)

def readDescriptor (ts : List Token) : Option (Descriptor × List Token) :=
  match skip (.mark '{' :: key "type") ts with
  | some (.text tag :: ts) =>
    if tag = "enum".toList then readEnum ts
    else if tag = "digit-decomposition".toList then readDigitDecomposition ts
    else if tag = "missing-descriptor".toList then
      (skip [.mark '}'] ts).map (fun ts => (.missingDescriptor,ts))
    else none
  | _ => none

theorem isAlphanum_displayBool (b : Bool) : ∀ c ∈ displayBool b, c.isAlphanum := by
  have h : (displayBool b).all Char.isAlphanum := by cases b <;> decide
  exact List.all_eq_true.mp h

theorem isAlphanum_displayU8 (n : UInt8) : ∀ c ∈ displayU8 n, c.isAlphanum := by
  intro c hc
  have hd : c.isDigit := Text.isDigit_of_mem_decimal hc
  simp [Char.isAlphanum,hd]

theorem readDescriptor_descriptorTokens (d : Descriptor) (rest : List Token) :
    readDescriptor (descriptorTokens d ++ rest) = some (d,rest) := by
  cases d with
  | enum outcomes => simp [readDescriptor,descriptorTokens,readEnum,key,skip]
  | digitDecomposition isSigned nDigits unit =>
    have hsigned := readBare_bare (isAlphanum_displayBool isSigned) (c := ',') (by decide)
    have hdigits := readBare_bare (isAlphanum_displayU8 nDigits) (c := ',') (by decide)
    simp [readDescriptor,descriptorTokens,readDigitDecomposition,key,skip,hsigned,hdigits]
  | missingDescriptor => simp [readDescriptor,descriptorTokens,key,skip]

/-- The texts of the two leaves that are not the document's own. -/
structure Texts (C : Group) where
  nonce : C.PublicNonce → Str
  nonceOf : Str → Option C.PublicNonce
  nonceOf_nonce : ∀ nonce', nonceOf (nonce nonce') = some nonce'
  time : NaiveDateTime → Str
  timeOf : Str → Option NaiveDateTime
  timeOf_time : ∀ t, timeOf (time t) = some t

variable {C : Group} (texts : Texts C)

def ecdsaTokens : List Token := key "ecdsa-v1" ++ [.mark '{',.mark '}']

def oliviaKey : List Token := key "olivia-v1" ++ .mark '{' :: (key "nonces" ++ [.mark '['])

def schemesTokens (schemes : AnnouncementSchemes C) : List Token :=
  .mark '{' :: match schemes.oliviaV1,schemes.ecdsaV1 with
    | none,none => [.mark '}']
    | none,some _ => ecdsaTokens ++ [.mark '}']
    | some oliviaV1,none => oliviaKey ++ (strings (oliviaV1.nonces.map texts.nonce) ++
        [.mark '}',.mark '}'])
    | some oliviaV1,some _ => oliviaKey ++ (strings (oliviaV1.nonces.map texts.nonce) ++
        .mark '}' :: .mark ',' :: (ecdsaTokens ++ [.mark '}']))

def readEcdsa (ts : List Token) : Option (Option Announce.EcdsaV1 × List Token) :=
  match skip ecdsaTokens ts with
  | some ts => some (some ⟨⟩,ts)
  | none => some (none,ts)

def readSchemes (ts : List Token) : Option (AnnouncementSchemes C × List Token) := do
  let ts ← skip [.mark '{'] ts
  match skip oliviaKey ts with
  | some ts =>
    let (nonces,ts) ← readStrings ts
    let nonces ← nonces.mapM texts.nonceOf
    let ts ← skip [.mark '}'] ts
    let (ecdsaV1,ts) ← readEcdsa ((skip [.mark ','] ts).getD ts)
    return (⟨some ⟨nonces⟩,ecdsaV1⟩,← skip [.mark '}'] ts)
  | none =>
    let (ecdsaV1,ts) ← readEcdsa ts
    return (⟨none,ecdsaV1⟩,← skip [.mark '}'] ts)

theorem mapM_nonceOf (nonces : List C.PublicNonce) :
    (nonces.map texts.nonce).mapM texts.nonceOf = some nonces := by
  induction nonces with
  | nil => rfl
  | cons nonce nonces ih => simp [texts.nonceOf_nonce,ih]

theorem readSchemes_schemesTokens (schemes : AnnouncementSchemes C) (rest : List Token) :
    readSchemes texts (schemesTokens texts schemes ++ rest) = some (schemes,rest) := by
  obtain ⟨oliviaV1,ecdsaV1⟩ := schemes
  cases oliviaV1 with
  | none =>
    cases ecdsaV1 with
    | none => simp [readSchemes,schemesTokens,readEcdsa,oliviaKey,ecdsaTokens,key,skip]
    | some _ => simp [readSchemes,schemesTokens,readEcdsa,oliviaKey,ecdsaTokens,key,skip]
  | some oliviaV1 =>
    have hnonces := mapM_nonceOf texts oliviaV1.nonces
    cases ecdsaV1 with
    | none => simp [readSchemes,schemesTokens,readEcdsa,oliviaKey,ecdsaTokens,key,skip,hnonces]
    | some _ => simp [readSchemes,schemesTokens,readEcdsa,oliviaKey,ecdsaTokens,key,skip,hnonces]

def timeTokens : Option NaiveDateTime → List Token
  | none => []
  | some t => .mark ',' :: (key "expected-outcome-time" ++ [.text (texts.time t)])

def fieldsTokens (fields : OracleEventFields C) : List Token :=
  .mark '{' :: (key "id" ++ .text fields.id :: (timeTokens texts fields.expectedOutcomeTime ++
    .mark ',' :: (key "descriptor" ++ (descriptorTokens fields.descriptor ++
      .mark ',' :: (key "schemes" ++ (schemesTokens texts fields.schemes ++ [.mark '}']))))))

def readTime (ts : List Token) : Option (Option NaiveDateTime × List Token) :=
  match skip (.mark ',' :: key "expected-outcome-time") ts with
  | some (.text t :: ts) => (texts.timeOf t).map (fun t => (some t,ts))
  | some _ => none
  | none => some (none,ts)

def readFields (ts : List Token) : Option (OracleEventFields C) :=
  match skip (.mark '{' :: key "id") ts with
  | some (.text id :: ts) => do
    let (expectedOutcomeTime,ts) ← readTime texts ts
    let (descriptor,ts) ← readDescriptor (← skip (.mark ',' :: key "descriptor") ts)
    let (schemes,ts) ← readSchemes texts (← skip (.mark ',' :: key "schemes") ts)
    if ts = [.mark '}'] then some ⟨id,expectedOutcomeTime,descriptor,schemes⟩ else none
  | _ => none

theorem readFields_fieldsTokens (fields : OracleEventFields C) :
    readFields texts (fieldsTokens texts fields) = some fields := by
  obtain ⟨id,time,descriptor,schemes⟩ := fields
  cases time with
  | none => simp [readFields,fieldsTokens,timeTokens,readTime,key,skip,readDescriptor_descriptorTokens,
      readSchemes_schemesTokens]
  | some t => simp [readFields,fieldsTokens,timeTokens,readTime,key,skip,texts.timeOf_time,
      readDescriptor_descriptorTokens,readSchemes_schemesTokens]

theorem quote_not_mem_bare {s : Str} (h : ∀ c ∈ s, c.isAlphanum) : .mark '"' ∉ bare s := by
  intro hmem
  have hquote := h '"' (by simpa [bare] using hmem)
  simp at hquote

theorem quote_not_mem_strings (l : List Str) : .mark '"' ∉ strings l := by
  induction l with
  | nil => simp [strings]
  | cons s l ih => cases l <;> simp_all [strings]

theorem quote_not_mem_fieldsTokens (fields : OracleEventFields C) :
    .mark '"' ∉ fieldsTokens texts fields := by
  obtain ⟨id,time,descriptor,schemes⟩ := fields
  have hdescriptor : .mark '"' ∉ descriptorTokens descriptor := by
    cases descriptor with
    | enum outcomes => simp [descriptorTokens,key,quote_not_mem_strings]
    | digitDecomposition isSigned nDigits unit =>
      have hsigned := quote_not_mem_bare (isAlphanum_displayBool isSigned)
      have hdigits := quote_not_mem_bare (isAlphanum_displayU8 nDigits)
      have hunit : .mark '"' ∉ optionText unit := by
        cases unit with
        | none => decide
        | some s => simp [optionText]
      simp [descriptorTokens,key,hsigned,hdigits,hunit]
    | missingDescriptor => simp [descriptorTokens,key]
  have hschemes : .mark '"' ∉ schemesTokens texts schemes := by
    obtain ⟨oliviaV1,ecdsaV1⟩ := schemes
    cases oliviaV1 <;> cases ecdsaV1 <;>
      simp [schemesTokens,key,oliviaKey,ecdsaTokens,quote_not_mem_strings]
  have htime : .mark '"' ∉ timeTokens texts time := by cases time <;> simp [timeTokens,key]
  simp [fieldsTokens,key,hdescriptor,hschemes,htime]

/-- The serializer of the documents of a group. -/
def serdeJson : SerdeJson C where
  toString fields := (fieldsTokens texts fields).flatMap Token.print
  fromStr text := (tokens none text).bind (readFields texts)

theorem serdeJson_roundTrips : (serdeJson texts).RoundTrips := by
  intro fields
  simp [serdeJson,tokens_print (quote_not_mem_fieldsTokens texts fields),readFields_fieldsTokens]

end Json
end Olivia
