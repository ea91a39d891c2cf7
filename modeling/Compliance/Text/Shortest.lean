
namespace Compliance.Text

/-- The numbers between `low` and `high`, all over `unit`, round to `value`. -/
structure Neighbourhood where
  low : Nat
  value : Nat
  high : Nat
  unit : Nat
  closed : Bool

def Neighbourhood.ofBits (bits : UInt64) : Neighbourhood :=
  let implicit := 1 <<< 52
  let fraction := bits.toNat % implicit
  let biased := bits.toNat / implicit % (1 <<< 11)
  let significand := if biased = 0 then fraction else implicit + fraction
  let exponent : Int := (if biased = 0 then 1 else biased : Nat) - 1077
  let below := if fraction = 0 ∧ 1 < biased then 1 else 2
  let scale := 1 <<< exponent.toNat
  { low := (4 * significand - below) * scale
    value := 4 * significand * scale
    high := (4 * significand + 2) * scale
    unit := 1 <<< (-exponent).toNat
    closed := significand % 2 = 0 }

def Neighbourhood.places (v : Neighbourhood) : Int :=
  if v.unit ≤ v.value then (Nat.toDigits 10 (v.value / v.unit)).length
  else -((List.range 400).takeWhile fun z => v.value * Nat.pow 10 (z + 1) < v.unit).length

structure Decimal where
  digits : Nat
  exponent : Int

def Neighbourhood.nearest? (v : Neighbourhood) (exponent : Int) : Option Decimal :=
  let up := Nat.pow 10 (-exponent).toNat
  let step := v.unit * Nat.pow 10 exponent.toNat
  let inside (d : Nat) : Bool :=
    if v.closed then v.low * up ≤ d * step && d * step ≤ v.high * up
    else v.low * up < d * step && d * step < v.high * up
  let lower := v.value * up / step
  let rest := 2 * (v.value * up - lower * step)
  let lowerNearer := rest < step || (rest == step && lower % 2 == 0)
  let (first, second) := if lowerNearer then (lower, lower + 1) else (lower + 1, lower)
  if inside first then some ⟨first, exponent⟩
  else if inside second then some ⟨second, exponent⟩
  else none

def Decimal.trim (d : Decimal) : Decimal :=
  let zeros := ((Nat.toDigits 10 d.digits).reverse.takeWhile (· == '0')).length
  ⟨d.digits / Nat.pow 10 zeros, d.exponent + zeros⟩

def shortest (bits : UInt64) : Decimal :=
  let v := Neighbourhood.ofBits bits
  let found := (List.range 17).findSome? fun (n : Nat) => v.nearest? (v.places - 1 - n)
  (found.getD ⟨0, 0⟩).trim

structure Layout where
  least : Int
  most : Int

def Decimal.text (layout : Layout) (d : Decimal) : String :=
  let ds := Nat.toDigits 10 d.digits
  let places : Int := ds.length + d.exponent
  if 0 ≤ d.exponent ∧ places ≤ layout.most then
    String.ofList (ds ++ List.replicate d.exponent.toNat '0') ++ ".0"
  else if 0 < places ∧ places ≤ layout.most then
    String.ofList (ds.take places.toNat) ++ "." ++ String.ofList (ds.drop places.toNat)
  else if layout.least < places ∧ places ≤ 0 then
    "0." ++ String.ofList (List.replicate (-places).toNat '0' ++ ds)
  else
    let fraction := if ds.length = 1 then "" else "." ++ String.ofList (ds.drop 1)
    let sign := if places < 1 then "-" else "+"
    String.ofList (ds.take 1) ++ fraction ++ "e" ++ sign ++ toString (places - 1).natAbs

def floatText (layout : Layout) (x : Float) : String :=
  let bits := x.toBits
  let sign := if 1 <<< 63 ≤ bits.toNat then "-" else ""
  let magnitude := bits.toNat % (1 <<< 63)
  sign ++ if magnitude = 0 then "0.0" else (shortest (UInt64.ofNat magnitude)).text layout

end Compliance.Text
