import Compliance.Execution.Result

namespace Compliance

open Json

structure ExecutionQuery where
  query : Mrn
  code : Code
  properties : NameMap CodeId := Keyed.empty

namespace ExecutionQuery

def record : Record ExecutionQuery where
  name := "ExecutionQuery"
  blank := { query := "", code := { id := "" } }
  fields := [
    .must "query_mrn" decodeText fun s q => { q with query := s },
    .must "code" Code.record.decode fun c q => { q with code := c },
    .must "properties" (decodeMap decodeText) fun m q => { q with properties := m }]

def encode (q : ExecutionQuery) : Value := .object [
  ("query_mrn", .string q.query), ("code", q.code.encode), ("properties", .ofMap .string q.properties)]

def bind (q : ExecutionQuery) (results : NameMap RawData) : QueueItem where
  code := q.code
  properties := q.properties.mapValues fun id =>
    (NameMap.get? results id).getD (RawData.ofError ("no result for " ++ id))

end ExecutionQuery

structure ExecutionJob where
  queries : NameMap ExecutionQuery := Keyed.empty

namespace ExecutionJob

def record : Record ExecutionJob where
  name := "ExecutionJob"
  blank := {}
  fields := [
    .must "queries" (decodeMap ExecutionQuery.record.decode) fun m j => { j with queries := m }]

def encode (j : ExecutionJob) : Value := .object [("queries", .ofMap ExecutionQuery.encode j.queries)]

def propertyCodes (j : ExecutionJob) : NameSet :=
  Keyed.ofList (j.queries.values.flatMap (·.properties.values))

end ExecutionJob

end Compliance
