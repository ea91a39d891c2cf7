import Compliance.Json.Decoding

namespace Compliance

/-- Checks with the same code are one job; every other job goes by its mrn. -/
inductive Identity
  | code (id : CodeId)
  | mrn (m : Mrn)
  deriving DecidableEq, Inhabited

namespace Identity

def key : Identity → String
  | code id => id
  | mrn m => m

def text : Identity → String
  | code id => "code:" ++ id
  | mrn m => "mrn:" ++ m

def le : Identity → Identity → Bool
  | code a, code b => a ≤ b
  | code _, mrn _ => true
  | mrn _, code _ => false
  | mrn a, mrn b => a ≤ b

def dropRepeats : List Identity → List Identity
  | a :: b :: rest => if a = b then dropRepeats (b :: rest) else a :: dropRepeats (b :: rest)
  | l => l

def listing (l : List Identity) : List Identity := dropRepeats (l.mergeSort le)

end Identity

inductive IdentityKind
  | code
  | mrn
  deriving DecidableEq

instance : Vocabulary IdentityKind where
  all := [.code, .mrn]
  word
    | .code => "code"
    | .mrn => "mrn"

def IdentityKind.make : IdentityKind → String → Identity
  | code => .code
  | mrn => .mrn

structure Impact where
  scoring : ScoringSystem := .unspecified
  weight : Option UInt32 := none
  deriving DecidableEq, Inhabited

namespace Impact

def ignored : Impact := { scoring := .ignoreScore }

def isIgnored (i : Impact) : Bool := i.scoring == .ignoreScore

def of (a : Activation) (scoring : ScoringSystem) (weight : Option UInt32) : Impact :=
  { scoring := if a = .ignored then .ignoreScore else scoring, weight := weight }

end Impact

open Json

def Impact.record : Record Impact where
  name := "Impact"
  blank := {}
  fields := [
    .must "scoring" (decodeWord ScoringSystem) fun s i => { i with scoring := s },
    .of "weight" (decodeNullable decodeUInt32) fun w i => { i with weight := w }]

def Impact.encode (i : Impact) : Value := .object [
  ("scoring", .string (word i.scoring)),
  ("weight", .nullable (fun w => .int w.toNat) i.weight)]

namespace Identity

def title : String := "adjacently tagged enum NodeIdentity"

structure Parts where
  kind : Option IdentityKind := none
  id : Option (Document ⊕ String) := none

def readMembers (p : Parts) : List (Key × Document) → Except DecodeError Parts
  | [] => .ok p
  | (k, d) :: rest => do
    let k ← decodeKey k
    if k == "kind" then
      if p.kind.isSome then throw (.repeatedField k)
      let kind ← decodeWord IdentityKind d
      readMembers { p with kind := some kind } rest
    else if k == "id" then
      if p.id.isSome then throw (.repeatedField k)
      if p.kind.isSome then
        let s ← decodeText d
        readMembers { p with id := some (.inr s) } rest
      else
        let _ ← decodeValue d
        readMembers { p with id := some (.inl d) } rest
    else
      match d.skip with
      | some f => throw (.broken f)
      | none => readMembers p rest

/-- An object with the kind and the id, or an array of the two, with the kind as a bare word. An id
that stands before the kind is looked at last. -/
def decode : Decoder Identity
  | .object members stop => do
    let p ← readMembers {} members
    atStop stop
    match p.kind, p.id with
    | none, _ => throw (.missingField "kind")
    | some _, none => throw (.missingField "id")
    | some k, some (.inr s) => return k.make s
    | some k, some (.inl d) => return k.make (← decodeText d)
  | .array items stop => do
    match items with
    | [] => atStop stop; throw (.tooShort 0 title)
    | d :: rest =>
      let k ← decodeTag IdentityKind d
      match rest with
      | [] => atStop stop; throw (.tooShort 1 title)
      | d :: rest =>
        let s ← decodeText d
        if rest.isEmpty then atStop stop else throw (.broken .malformed)
        return k.make s
  | d => .error (d.mismatch title)

end Identity

end Compliance
