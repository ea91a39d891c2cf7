import Compliance.Bundle.Decoding

namespace Compliance

open Json

structure RawData where
  value : Value := .null
  error : Option String := none

namespace RawData

def ofError (message : String) : RawData := { error := some message }

def isError (d : RawData) : Bool := d.error.isSome

def record : Record RawData where
  name := "RawData"
  blank := {}
  fields := [
    .of "value" decodeValue fun v d => { d with value := v },
    .of "error" (decodeNullable decodeText) fun e d => { d with error := e }]

def encode (d : RawData) : Value :=
  .object (("value", d.value) ::
    match d.error with
    | none => []
    | some e => [("error", .string e)])

end RawData

structure RawResult where
  checksum : Checksum
  data : RawData

structure QueueItem where
  code : Code
  properties : NameMap RawData := Keyed.empty

namespace QueueItem

def record : Record QueueItem where
  name := "RunQueueItem"
  blank := { code := { id := "" } }
  fields := [
    .must "code" Code.record.decode fun c i => { i with code := c },
    .of "props" (decodeMap RawData.record.decode) fun m i => { i with properties := m }]

def encode (i : QueueItem) : Value := .object [
  ("code", i.code.encode), ("props", .ofMap RawData.encode i.properties)]

def withProperty (i : QueueItem) (name : String) (d : RawData) : QueueItem :=
  { i with properties := NameMap.set i.properties name d }

def propertyError (i : QueueItem) : Option String :=
  i.properties.entries.findSome? fun (name, d) =>
    d.error.map fun e => "property " ++ name ++ " errored: " ++ e

def propertyValues (i : QueueItem) : NameMap Value := i.properties.mapValues RawData.value

end QueueItem

end Compliance
