import Compliance.Json.Value

namespace Compliance.Json

def digitValue (c : Char) : Nat := c.toNat - '0'.toNat

def appendDigits (n : Nat) : List Char → Nat × List Char
  | [] => (n, [])
  | c :: rest =>
    let m := 10 * n + digitValue c
    if m < UInt64.size then appendDigits m rest else (n, c :: rest)

def powerOfTen (k : Nat) : Float := Float.ofScientific 1 false k

def scaleDown (x : Float) (k : Nat) : Float :=
  if k ≤ 308 then x / powerOfTen k
  else if x == 0 then x
  else scaleDown (x / powerOfTen 308) (k - 308)
termination_by k

def scale? (significand : Nat) (exponent : Int) : Option Float :=
  let x := (UInt64.ofNat significand).toFloat
  if exponent < 0 then some (scaleDown x exponent.natAbs)
  else if exponent ≤ 308 then
    let y := x * powerOfTen exponent.toNat
    if y.isInf then none else some y
  else if x == 0 then some x
  else none

structure Numeral where
  negative : Bool
  whole : List Char
  fraction : Option (List Char)
  exponent : Option Int

def Numeral.value? (t : Numeral) : Option Number :=
  let (n, dropped) := appendDigits 0 t.whole
  let (significand, unused) := appendDigits n (t.fraction.getD [])
  let used : Int := (t.fraction.getD []).length - unused.length
  let exponent := dropped.length - used + t.exponent.getD 0
  let real := (scale? significand exponent).map fun x => Number.real (if t.negative then -x else x)
  if t.fraction.isSome || t.exponent.isSome || !dropped.isEmpty then real
  else if !t.negative then some (.integer n)
  else if n = 0 || UInt64.size / 2 < n then real
  else some (.integer (-n))

end Compliance.Json
