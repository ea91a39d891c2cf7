import Compliance.Ordered.NameMap

namespace Compliance.Json

inductive Number
  | integer (n : Int)
  | real (x : Float)
  deriving DecidableEq

inductive Value
  | null
  | bool (b : Bool)
  | number (n : Number)
  | string (s : String)
  | array (items : List Value)
  | object (members : List (String × Value))
  deriving Inhabited

namespace Value

def int (n : Int) : Value := .number (.integer n)

def strings (l : List String) : Value := .array (l.map .string)

def nullable {α : Type} (f : α → Value) : Option α → Value
  | none => .null
  | some a => f a

def ofMap {α : Type} (f : α → Value) (m : NameMap α) : Value :=
  .object (m.entries.map fun e => (e.1, f e.2))

mutual

def sorted : Value → Value
  | .array items => .array (sortedItems items)
  | .object members => .object (sortedMembers members).entries
  | v => v

def sortedItems : List Value → List Value
  | [] => []
  | v :: rest => v.sorted :: sortedItems rest

def sortedMembers : List (String × Value) → NameMap Value
  | [] => Keyed.empty
  | (k, v) :: rest =>
    let m := sortedMembers rest
    NameMap.setNew m k v.sorted

end

end Value

end Compliance.Json
