import Compliance.Json.Reader
import Compliance.Json.Writer
import Compliance.Terms
import Compliance.Text.Quoted

/-!
Typed values from JSON documents. A decoder stops at the first fault in document order, whether the
text is broken there or the content does not fit; only a missing field is noticed at the end of its
object. A record may also be written as an array of its fields in order.
-/

namespace Compliance.Json

def Found.text : Found → String
  | null => "null"
  | bool b => "boolean `" ++ (if b then "true" else "false") ++ "`"
  | number (.integer n) => "integer `" ++ toString n ++ "`"
  | number (.real x) => "floating point `" ++ realText x ++ "`"
  | string s => "string " ++ Text.quote s
  | sequence => "sequence"
  | map => "map"

inductive DecodeError
  | broken (f : Fault)
  | wrongType (found : Found) (wanted : String)
  | outOfRange (n : Int) (wanted : String)
  | tooShort (length : Nat) (wanted : String)
  | missingField (name : String)
  | repeatedField (name : String)
  | unknownWord (s : String) (words : List String)
  deriving DecidableEq

def quotedName (s : String) : String := "`" ++ s ++ "`"

def choiceText : List String → String
  | [] => "there are no variants"
  | [a] => "expected " ++ quotedName a
  | [a, b] => "expected " ++ quotedName a ++ " or " ++ quotedName b
  | l => "expected one of " ++ ", ".intercalate (l.map quotedName)

def DecodeError.message? : DecodeError → Option String
  | broken _ => none
  | wrongType found wanted => some ("invalid type: " ++ found.text ++ ", expected " ++ wanted)
  | outOfRange n wanted =>
    some ("invalid value: " ++ (Found.number (.integer n)).text ++ ", expected " ++ wanted)
  | tooShort n wanted => some ("invalid length " ++ toString n ++ ", expected " ++ wanted)
  | missingField name => some ("missing field " ++ quotedName name)
  | repeatedField name => some ("duplicate field " ++ quotedName name)
  | unknownWord s words => some ("unknown variant " ++ quotedName s ++ ", " ++ choiceText words)

abbrev Decoder (α : Type) := Document → Except DecodeError α

def Document.mismatch (wanted : String) (d : Document) : DecodeError :=
  match d.found with
  | .inl found => .wrongType found wanted
  | .inr f => .broken f

def atStop (stop : Option Break) : Except DecodeError Unit :=
  match stop with
  | none => .ok ()
  | some b => .error (.broken b.taken)

def decodeText : Decoder String
  | .string (some s) => .ok s
  | d => .error (d.mismatch "a string")

def decodeBool : Decoder Bool
  | .bool b => .ok b
  | d => .error (d.mismatch "a boolean")

def decodeInteger (low high : Int) (wanted : String) : Decoder Int
  | .number (some (.integer n)) =>
    if low ≤ n ∧ n < high then .ok n else .error (.outOfRange n wanted)
  | d => .error (d.mismatch wanted)

def decodeUInt32 : Decoder UInt32 := fun d =>
  (decodeInteger 0 UInt32.size "u32" d).map fun n => UInt32.ofNat n.toNat

def decodeUInt64 : Decoder UInt64 := fun d =>
  (decodeInteger 0 UInt64.size "u64" d).map fun n => UInt64.ofNat n.toNat

def decodeTimestamp : Decoder Timestamp := decodeInteger (-(UInt64.size / 2 : Nat)) (UInt64.size / 2 : Nat) "i64"

def decodeFloat32 : Decoder Float32
  | .number (some (.integer n)) =>
    .ok (if n < 0 then -(UInt64.ofNat n.natAbs).toFloat32 else (UInt64.ofNat n.natAbs).toFloat32)
  | .number (some (.real x)) => .ok x.toFloat32
  | d => .error (d.mismatch "f32")

def decodeValue : Decoder Value := fun d => d.toValue.mapError .broken

def decodeNullable {α : Type} (item : Decoder α) : Decoder (Option α)
  | .null => .ok none
  | .broken .null b => .error (.broken b.taken)
  | d => (item d).map some

def decodeList {α : Type} (item : Decoder α) : Decoder (List α)
  | .array items stop => do
    let l ← items.mapM item
    atStop stop
    return l
  | d => .error (d.mismatch "a sequence")

def decodeKey : Key → Except DecodeError String
  | .name s => .ok s
  | .undecodable => .error (.broken .malformed)
  | .broken b => .error (.broken b.taken)

def decodeMap {α : Type} (item : Decoder α) : Decoder (NameMap α)
  | .object members stop => do
    let m ← members.foldlM (fun m (k, d) => do
      let k ← decodeKey k
      let a ← item d
      return NameMap.set m k a) Keyed.empty
    atStop stop
    return m
  | d => .error (d.mismatch "a map")

def findWord (α : Type) [Vocabulary α] (s : String) : Except DecodeError α :=
  match Vocabulary.find? s with
  | some a => .ok a
  | none => .error (.unknownWord s ((Vocabulary.all (α := α)).map word))

def decodeTag (α : Type) [Vocabulary α] : Decoder α
  | .string (some s) => findWord α s
  | d => .error (d.mismatch "variant identifier")

def decodeWord (α : Type) [Vocabulary α] : Decoder α
  | .string (some s) => findWord α s
  | .broken .quote b => .error (.broken b.taken)
  | .missing => .error (.broken .truncated)
  | .object ((k, d) :: rest) stop => do
    let a ← findWord α (← decodeKey k)
    match d with
    | .null => pure ()
    | d => throw (d.mismatch "unit")
    if rest.isEmpty then atStop stop else throw (.broken .malformed)
    return a
  | _ => .error (.broken .malformed)

structure Field (α : Type) where
  name : String
  required : Bool
  read : Document → α → Except DecodeError α

def Field.of {α β : Type} (name : String) (item : Decoder β) (put : β → α → α) : Field α where
  name := name
  required := false
  read d a := (item d).map fun b => put b a

def Field.must {α β : Type} (name : String) (item : Decoder β) (put : β → α → α) : Field α :=
  { Field.of name item put with required := true }

structure Record (α : Type) where
  name : String
  blank : α
  fields : List (Field α)

namespace Record

variable {α : Type}

def title (r : Record α) : String := "struct " ++ r.name

def counted (n : Nat) : String :=
  toString n ++ (if n = 1 then " element" else " elements")

def readMembers (r : Record α) (seen : List String) (a : α) :
    List (Key × Document) → Except DecodeError (List String × α)
  | [] => .ok (seen, a)
  | (k, d) :: rest => do
    let k ← decodeKey k
    match r.fields.find? (·.name == k) with
    | none =>
      match d.skip with
      | some f => throw (.broken f)
      | none => readMembers r seen a rest
    | some f =>
      if k ∈ seen then throw (.repeatedField k)
      let a ← f.read d a
      readMembers r (k :: seen) a rest

def readItems (r : Record α) (stop : Option Break) (index : Nat) (a : α) :
    List (Field α) → List Document → Except DecodeError α
  | [], items => if items.isEmpty then (atStop stop).map fun _ => a else .error (.broken .malformed)
  | f :: fields, d :: items => do
    let a ← f.read d a
    readItems r stop (index + 1) a fields items
  | f :: fields, [] => do
    atStop stop
    if f.required then throw (.tooShort index (r.title ++ " with " ++ counted r.fields.length))
    readItems r stop (index + 1) a fields []

def decode (r : Record α) : Decoder α
  | .object members stop => do
    let (seen, a) ← r.readMembers [] r.blank members
    atStop stop
    match r.fields.find? fun f => f.required && !seen.contains f.name with
    | some f => throw (.missingField f.name)
    | none => return a
  | .array items stop => r.readItems stop 0 r.blank r.fields items
  | d => .error (d.mismatch r.title)

end Record

def decodeSource {α : Type} (item : Decoder α) (text : String) : Except DecodeError α := do
  let (d, trailing) := Document.ofText text
  let a ← item d
  if trailing then throw (.broken .malformed)
  return a

def decodeSorted {α : Type} (item : Decoder α) (v : Value) : Except DecodeError α :=
  decodeSource item v.sorted.text

end Compliance.Json
