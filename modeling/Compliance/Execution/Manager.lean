import Compliance.Execution.Job
import Compliance.Execution.Worker

namespace Compliance

inductive Handle
  | none
  | live
  | ended
  deriving DecidableEq

structure Manager where
  config : Config := {}
  runtime : CollectionRuntime := (Keyed.empty : Runtime)
  queue : List QueueItem := []
  queueOpen : Bool := true
  handle : Handle := .none
  stopped : Bool := false
  worker : Worker := {}
  errors : List ExecutionError := []

inductive ManagerState
  | idle
  | dead
  | notRunning
  | stopped
  deriving DecidableEq

structure Snapshot where
  state : ManagerState
  results : List RawResult
  invoked : List (CodeId × NameMap Json.Value)
  errors : List ExecutionError
  events : List Event

namespace Manager

/-- A worker that is spawned after a stop ends at once; a held one is not replaced. -/
def start (m : Manager) : Manager :=
  match m.handle with
  | .none => { m with handle := if m.stopped then .ended else .live }
  | _ => m

def send (m : Manager) (i : QueueItem) : Bool × Manager :=
  if m.queueOpen then (true, { m with queue := m.queue ++ [i] }) else (false, m)

def stop (m : Manager) : Manager := { m with stopped := true, handle := .none }

def ready (m : Manager) : Bool := m.handle == .live && !m.worker.stopping && !m.queue.isEmpty

def advance (m : Manager) : Manager :=
  match m.queue with
  | [] => m
  | i :: rest =>
    if m.ready then
      let (e, w) := m.worker.execute m.config m.runtime i
      { m with
        queue := rest
        worker := w
        handle := if e.isSome then .ended else m.handle
        errors := m.errors ++ e.toList }
    else m

def advanceAll : Nat → Manager → Manager
  | 0, m => m
  | n + 1, m => advanceAll n m.advance

def work (m : Manager) : Manager := advanceAll m.queue.length m

def snapshot (m : Manager) (state : ManagerState) : Snapshot × Manager :=
  ({ state := state
     results := m.worker.outlet.held
     invoked := m.worker.invoked
     errors := m.errors
     events := m.worker.events },
   { m with
     worker := { m.worker with
       outlet := { m.worker.outlet with held := [] }
       invoked := []
       events := [] }
     errors := [] })

def isRunning (m : Manager) : Bool := m.handle == .live && m.queueOpen

def drain (m : Manager) : Snapshot × Manager :=
  if m.isRunning then
    let m := m.work
    m.snapshot (if m.handle == .live then .idle else .dead)
  else m.snapshot .notRunning

def closeQueue (m : Manager) : Snapshot × Manager :=
  let (s, m) := m.drain
  (s, { m with queueOpen := false })

def dropResults (m : Manager) : Manager :=
  { m with worker := { m.worker with outlet := { m.worker.outlet with held := [], isOpen := false } } }

def halt (m : Manager) : Snapshot × Manager := m.stop.snapshot .stopped

def haltAtPause (m : Manager) : Snapshot × Manager :=
  if m.isRunning then
    { m with worker := { m.worker with stopsAtPause := true } }.work.halt
  else m.snapshot .notRunning

end Manager

def ExecutionJob.runAll (j : ExecutionJob) (m : Manager) : Snapshot × Snapshot :=
  let read := j.propertyCodes
  let bindAll (l : List (CodeId × ExecutionQuery)) (results : NameMap RawData) :=
    l.map fun q => q.2.bind results
  let sendAll (m : Manager) (l : List QueueItem) := l.foldl (fun m i => (m.send i).2) m
  let first := j.queries.entries.filter fun q => read.contains q.1
  let rest := j.queries.entries.filter fun q => !read.contains q.1
  let (properties, m) := (sendAll m.start (bindAll first Keyed.empty)).drain
  let results := Keyed.ofList (properties.results.map fun r => (r.checksum, r.data))
  let (queries, _) := (sendAll m (bindAll rest results)).drain
  (properties, queries)

end Compliance
