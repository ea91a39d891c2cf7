import Compliance.Json.Value

/-!
What a JSON text says, as far as it makes sense. Where the text breaks off or goes wrong the
document holds that as a leaf, so a reader of the document meets faults of form and faults of
content in the order in which they stand in the text.
-/

namespace Compliance.Json

inductive Fault
  | truncated
  | malformed
  deriving DecidableEq, Repr

/-- The fault that one meets who takes the value, and the one who passes over it. Passing over is
laxer within numbers and strings, and so may come further in a broken text. -/
structure Break where
  taken : Fault
  skipped : Fault
  deriving DecidableEq, Repr

namespace Break

def both (f : Fault) : Break := ⟨f, f⟩

def truncated : Break := both .truncated

def malformed : Break := both .malformed

end Break

inductive Found
  | null
  | bool (b : Bool)
  | number (n : Number)
  | string (s : String)
  | sequence
  | map
  deriving DecidableEq

inductive Key
  | name (s : String)
  | undecodable
  | broken (b : Break)
  deriving DecidableEq

inductive Lead
  | quote
  | null
  | other
  deriving DecidableEq

/-- A number without a value is out of range, a string without one has unpaired surrogates;
`missing` stands where the text ends before a value begins. -/
inductive Document
  | null
  | bool (b : Bool)
  | number (n : Option Number)
  | string (s : Option String)
  | array (items : List Document) (stop : Option Break)
  | object (members : List (Key × Document)) (stop : Option Break)
  | missing
  | broken (lead : Lead) (b : Break)
  deriving Inhabited

namespace Document

def found : Document → Found ⊕ Fault
  | .null => .inl .null
  | .bool b => .inl (.bool b)
  | .number (some n) => .inl (.number n)
  | .number none => .inr .malformed
  | .string (some s) => .inl (.string s)
  | .string none => .inr .malformed
  | .array _ _ => .inl .sequence
  | .object _ _ => .inl .map
  | .missing => .inr .truncated
  | .broken _ b => .inr b.taken

mutual

def ofValue : Value → Document
  | .null => .null
  | .bool b => .bool b
  | .number n => .number (some n)
  | .string s => .string (some s)
  | .array items => .array (ofItems items) none
  | .object members => .object (ofMembers members) none

def ofItems : List Value → List Document
  | [] => []
  | v :: rest => ofValue v :: ofItems rest

def ofMembers : List (String × Value) → List (Key × Document)
  | [] => []
  | (k, v) :: rest => (.name k, ofValue v) :: ofMembers rest

end

def stopFault (stop : Option Break) : Except Fault Unit :=
  match stop with
  | none => .ok ()
  | some b => .error b.taken

mutual

def toValue : Document → Except Fault Value
  | .null => .ok .null
  | .bool b => .ok (.bool b)
  | .number (some n) => .ok (.number n)
  | .number none => .error .malformed
  | .string (some s) => .ok (.string s)
  | .string none => .error .malformed
  | .array items stop => do
    let vs ← toItems items
    stopFault stop
    return .array vs
  | .object members stop => do
    let ms ← toMembers members
    stopFault stop
    return .object ms
  | .missing => .error .truncated
  | .broken _ b => .error b.taken

def toItems : List Document → Except Fault (List Value)
  | [] => .ok []
  | d :: rest => do
    let v ← toValue d
    let vs ← toItems rest
    return v :: vs

def toMembers : List (Key × Document) → Except Fault (List (String × Value))
  | [] => .ok []
  | (.name k, d) :: rest => do
    let v ← toValue d
    let ms ← toMembers rest
    return (k, v) :: ms
  | (.undecodable, _) :: _ => .error .malformed
  | (.broken b, _) :: _ => .error b.taken

end

mutual

def skip : Document → Option Fault
  | .array items stop => (skipItems items).or (stop.map Break.skipped)
  | .object members stop => (skipMembers members).or (stop.map Break.skipped)
  | .missing => some .truncated
  | .broken _ b => some b.skipped
  | _ => none

def skipItems : List Document → Option Fault
  | [] => none
  | d :: rest => (skip d).or (skipItems rest)

def skipMembers : List (Key × Document) → Option Fault
  | [] => none
  | (.broken b, _) :: _ => some b.skipped
  | (_, d) :: rest => (skip d).or (skipMembers rest)

end

mutual

theorem toValue_ofValue (v : Value) : toValue (ofValue v) = .ok v := by
  cases v with
  | array items => simp [ofValue, toValue, toItems_ofItems items, stopFault, bind, Except.bind, pure, Except.pure]
  | object members =>
    simp [ofValue, toValue, toMembers_ofMembers members, stopFault, bind, Except.bind, pure, Except.pure]
  | _ => simp [ofValue, toValue]

theorem toItems_ofItems (l : List Value) : toItems (ofItems l) = .ok l := by
  cases l with
  | nil => simp [ofItems, toItems]
  | cons v rest =>
    simp [ofItems, toItems, toValue_ofValue v, toItems_ofItems rest, bind, Except.bind, pure, Except.pure]

theorem toMembers_ofMembers (l : List (String × Value)) : toMembers (ofMembers l) = .ok l := by
  cases l with
  | nil => simp [ofMembers, toMembers]
  | cons e rest =>
    obtain ⟨k, v⟩ := e
    simp [ofMembers, toMembers, toValue_ofValue v, toMembers_ofMembers rest, bind, Except.bind, pure, Except.pure]

end

end Document

end Compliance.Json
