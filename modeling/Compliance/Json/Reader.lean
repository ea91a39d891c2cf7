import Compliance.Json.Document
import Compliance.Json.Number

namespace Compliance.Json

structure Partial where
  text : Option (List Char) := some []
  high : Option Nat := none

namespace Partial

def addChar (p : Partial) (c : Char) : Partial :=
  if p.high.isSome then ⟨none, none⟩ else ⟨p.text.map (c :: ·), none⟩

def addUnit (p : Partial) (n : Nat) : Partial :=
  let low := 0xDC00 ≤ n && n ≤ 0xDFFF
  match p.high with
  | some h =>
    if low then ⟨p.text.map (Char.ofNat (0x10000 + 0x400 * (h - 0xD800) + (n - 0xDC00)) :: ·), none⟩
    else ⟨none, none⟩
  | none =>
    if low then ⟨none, none⟩
    else if 0xD800 ≤ n && n ≤ 0xDBFF then ⟨p.text, some n⟩
    else p.addChar (Char.ofNat n)

def finish (p : Partial) : Option String :=
  if p.high.isSome then none else p.text.map fun cs => String.ofList cs.reverse

def broken (p : Partial) (f : Fault) : Break := ⟨if p.text.isSome then f else .malformed, f⟩

end Partial

def escaped? : Char → Option Char
  | '"' => some '"'
  | '\\' => some '\\'
  | '/' => some '/'
  | 'b' => some '\x08'
  | 'f' => some '\x0c'
  | 'n' => some '\n'
  | 'r' => some '\r'
  | 't' => some '\t'
  | _ => none

def hexDigit? (c : Char) : Option Nat :=
  if '0' ≤ c && c ≤ '9' then some (c.toNat - '0'.toNat)
  else if 'a' ≤ c && c ≤ 'f' then some (c.toNat - 'a'.toNat + 10)
  else if 'A' ≤ c && c ≤ 'F' then some (c.toNat - 'A'.toNat + 10)
  else none

def hexValue? (cs : List Char) : Option Nat :=
  cs.foldl (fun n c => do return 16 * (← n) + (← hexDigit? c)) (some 0)

def readString (p : Partial) : List Char → Except Break (Option String × List Char)
  | [] => .error (p.broken .truncated)
  | ['\\'] => .error (p.broken .truncated)
  | '\\' :: 'u' :: a :: b :: c :: d :: rest =>
    match hexValue? [a, b, c, d] with
    | some n => readString (p.addUnit n) rest
    | none => .error (p.broken .malformed)
  | '\\' :: 'u' :: rest =>
    .error (p.broken (if (String.ofList rest).utf8ByteSize < 4 then .truncated else .malformed))
  | '\\' :: c :: rest =>
    match escaped? c with
    | some e => readString (p.addChar e) rest
    | none => .error (p.broken .malformed)
  | '"' :: rest => .ok (p.finish, rest)
  | c :: rest =>
    if c.toNat < 0x20 then .error (p.broken .malformed) else readString (p.addChar c) rest

def digitDue (s : List Char) : Break := if s.isEmpty then ⟨.truncated, .malformed⟩ else .malformed

def readWhole : List Char → Except Break (List Char × List Char)
  | '0' :: rest => if (rest.head?.map Char.isDigit).getD false then .error .malformed else .ok (['0'], rest)
  | s => if (s.head?.map Char.isDigit).getD false then .ok (s.span Char.isDigit) else .error (digitDue s)

def readFraction : List Char → Except Break (Option (List Char) × List Char)
  | '.' :: s =>
    let (ds, rest) := s.span Char.isDigit
    if ds.isEmpty then .error (digitDue rest) else .ok (some ds, rest)
  | s => .ok (none, s)

def readDigits (s : List Char) : Except Break (Nat × List Char) :=
  let (ds, rest) := s.span Char.isDigit
  if ds.isEmpty then .error (digitDue rest)
  else .ok (ds.foldl (fun n c => 10 * n + digitValue c) 0, rest)

def readExponent : List Char → Except Break (Option Int × List Char)
  | [] => .ok (none, [])
  | c :: s =>
    if c == 'e' || c == 'E' then
      match s with
      | '-' :: s => (readDigits s).map fun (n, rest) => (some (-n), rest)
      | '+' :: s => (readDigits s).map fun (n, rest) => (some n, rest)
      | s => (readDigits s).map fun (n, rest) => (some n, rest)
    else .ok (none, c :: s)

def readNumber (s : List Char) : Except Break (Option Number × List Char) := do
  let negative := s.head? == some '-'
  let (whole, s) ← readWhole (if negative then s.drop 1 else s)
  let (fraction, s) ← readFraction s
  let (exponent, s) ← readExponent s
  return (Numeral.value? ⟨negative, whole, fraction, exponent⟩, s)

def readWord : (word s : List Char) → Except Break (List Char)
  | [], s => .ok s
  | _ :: _, [] => .error .truncated
  | w :: word, c :: s => if w == c then readWord word s else .error .malformed

def isSpace (c : Char) : Bool := c == ' ' || c == '\n' || c == '\t' || c == '\r'

def skipSpace (s : List Char) : List Char := s.dropWhile isSpace

abbrev Reading (α : Type) := α × Option (List Char)

def leaf {α : Type} (lead : Lead) (make : α → Document) : Except Break (α × List Char) → Reading Document
  | .ok (a, rest) => (make a, some rest)
  | .error b => (.broken lead b, none)

def wordLeaf (lead : Lead) (word : List Char) (d : Document) (s : List Char) : Reading Document :=
  leaf lead (fun _ : Unit => d) ((readWord word s).map ((), ·))

mutual

def readValue : Nat → List Char → Reading Document
  | 0, _ => (.missing, none)
  | fuel + 1, s =>
    match skipSpace s with
    | [] => (.missing, none)
    | '"' :: s => leaf .quote .string (readString {} s)
    | 'n' :: s => wordLeaf .null ['u', 'l', 'l'] .null s
    | 't' :: s => wordLeaf .other ['r', 'u', 'e'] (.bool true) s
    | 'f' :: s => wordLeaf .other ['a', 'l', 's', 'e'] (.bool false) s
    | '[' :: s =>
      match skipSpace s with
      | ']' :: s => (.array [] none, some s)
      | [] => (.array [] (some .truncated), none)
      | s =>
        let (items, stop, rest) := readItems fuel s
        (.array items stop, rest)
    | '\x7b' :: s =>
      match skipSpace s with
      | '\x7d' :: s => (.object [] none, some s)
      | s =>
        let (members, stop, rest) := readMembers fuel s
        (.object members stop, rest)
    | c :: s =>
      if c == '-' || c.isDigit then leaf .other .number (readNumber (c :: s))
      else (.broken .other .malformed, none)

def readItems : Nat → List Char → List Document × Option Break × Option (List Char)
  | 0, _ => ([], none, none)
  | fuel + 1, s =>
    match readValue fuel s with
    | (d, none) => ([d], none, none)
    | (d, some s) =>
      match skipSpace s with
      | [] => ([d], some .truncated, none)
      | ']' :: s => ([d], none, some s)
      | ',' :: s =>
        let (ds, stop, rest) := readItems fuel s
        (d :: ds, stop, rest)
      | _ => ([d], some .malformed, none)

def readMembers : Nat → List Char → List (Key × Document) × Option Break × Option (List Char)
  | 0, _ => ([], none, none)
  | fuel + 1, s =>
    match skipSpace s with
    | [] => ([(.broken .truncated, .missing)], none, none)
    | '"' :: s =>
      match readString {} s with
      | .error b => ([(.broken b, .missing)], none, none)
      | .ok (k, s) =>
        let key := (k.map Key.name).getD .undecodable
        match skipSpace s with
        | [] => ([(key, .missing)], none, none)
        | ':' :: s =>
          match readValue fuel s with
          | (d, none) => ([(key, d)], none, none)
          | (d, some s) =>
            match skipSpace s with
            | [] => ([(key, d)], some .truncated, none)
            | '\x7d' :: s => ([(key, d)], none, some s)
            | ',' :: s =>
              let (ms, stop, rest) := readMembers fuel s
              ((key, d) :: ms, stop, rest)
            | _ => ([(key, d)], some .malformed, none)
        | _ => ([(key, .broken .other .malformed)], none, none)
    | _ => ([(.broken .malformed, .missing)], none, none)

end

def Document.ofText (text : String) : Document × Bool :=
  let s := text.toList
  let (d, rest) := readValue (2 * s.length + 1) s
  (d, match rest with
    | none => false
    | some rest => !(skipSpace rest).isEmpty)

end Compliance.Json
