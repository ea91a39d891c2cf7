import Compliance.Event
import Compliance.Json.Decoding
import Compliance.Text.Blank

namespace Compliance

open Json

structure Duration where
  seconds : UInt64
  nanos : Fin 1000000000 := 0
  deriving DecidableEq

namespace Duration

def ofSeconds (n : UInt64) : Duration := { seconds := n }

def ofMillis (n : Nat) : Duration where
  seconds := UInt64.ofNat (n / 1000)
  nanos := ⟨n % 1000 * 1000000, by omega⟩

def toMillis (d : Duration) : Nat := 1000 * d.seconds.toNat + d.nanos / 1000000

def isZero (d : Duration) : Bool := d == ofSeconds 0

end Duration

structure Config where
  timeout : Duration := .ofSeconds 1800
  memDebug : Bool := false
  slow : Duration := .ofSeconds 300
  deriving DecidableEq

namespace Config

def decodeSeconds : Decoder Duration := fun d => (decodeUInt64 d).map Duration.ofSeconds

def record : Record Config where
  name := "ExecutorConfig"
  blank := {}
  fields := [
    .of "timeout_secs" decodeSeconds fun t c => { c with timeout := t },
    .of "mem_debug" decodeBool fun b c => { c with memDebug := b },
    .of "slow_query_threshold_secs" decodeSeconds fun t c => { c with slow := t }]

def encode (c : Config) : Value := .object [
  ("timeout_secs", .int c.timeout.seconds.toNat), ("mem_debug", .bool c.memDebug),
  ("slow_query_threshold_secs", .int c.slow.seconds.toNat)]

def timeoutVariable : String := "POLICY_EXECUTION_TIMEOUT_SECS"

def parseUInt64 (s : List Char) : Option UInt64 :=
  let digits := if s.head? = some '+' then s.drop 1 else s
  if digits.isEmpty || !digits.all Char.isDigit then none
  else
    let n := digits.foldl (fun n c => 10 * n + (c.toNat - '0'.toNat)) 0
    if n < UInt64.size then some (UInt64.ofNat n) else none

def parseTimeout (s : String) : Option Duration :=
  match parseUInt64 (Text.trim s.toList) with
  | none => none
  | some n => if n = 0 then none else some (.ofSeconds n)

def ofEnvironment (timeout memDebug : Option String) : Config × List Event :=
  let config : Config :=
    { memDebug := memDebug.any fun s => Text.trim s.toList == ['1'] }
  match timeout with
  | none => (config, [])
  | some raw =>
    match parseTimeout raw with
    | none => (config, [.invalidTimeout timeoutVariable raw])
    | some t => ({ config with timeout := t }, [])

end Config

end Compliance
