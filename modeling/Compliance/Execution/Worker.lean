import Compliance.Event
import Compliance.Execution.Config
import Compliance.Execution.Latch
import Compliance.Execution.Result

/-!
A worker that runs items one at a time. An item is handed to the runtime unless one of its
properties failed; datapoints that it has not reported in the end get a timeout error. A runtime has
a script of moves for each item, all made while the item is in flight.
-/

namespace Compliance

open Json

inductive ExecutionError
  | runtime (context : List String)
  | panicked (text : String)
  deriving DecidableEq

def ExecutionError.message : ExecutionError → String
  | runtime context => "collection runtime failed: " ++ ": ".intercalate context
  | panicked text => "execution worker panicked: " ++ text

def ExecutionError.event : ExecutionError → Event
  | e@(runtime _) => .queryFailed e.message
  | panicked text => .workerPanicked text

def timeoutMessage : String := "query execution timed out"

inductive Move
  | report (key : Checksum) (data : RawData)
  | reportAll
  | retain (name : String)
  | late (name : String) (key : Checksum) (data : RawData)
  | fail (context : List String)
  | panic (text : Option String)
  | pause

structure Script where
  construct : List Move := []
  run : List Move := []

/-- What is done with each item by its number, so that no two items need be treated alike. -/
structure CollectionRuntime where
  script : Nat → QueueItem → Script

abbrev Runtime := NameMap Script

def Runtime.collection (r : Runtime) : CollectionRuntime where
  script _ i := (NameMap.get? r i.code.id).getD { run := [.reportAll] }

instance : Coe Runtime CollectionRuntime := ⟨Runtime.collection⟩

/-- `races` tells of each result that could be sent when a stop is requested which of the two comes first. -/
structure Outlet where
  capacity : Option Nat := none
  held : List RawResult := []
  isOpen : Bool := true
  races : List Bool := []

namespace Outlet

def isFull (o : Outlet) : Bool := o.capacity.any (· ≤ o.held.length)

def deliver (o : Outlet) (r : RawResult) : Outlet := { o with held := o.held ++ [r] }

def send (o : Outlet) (stopping : Bool) (r : RawResult) : Outlet :=
  if !o.isOpen then o
  else if !stopping then o.deliver r
  -- once a stop is requested nobody waits for room
  else if o.isFull then o
  else
    match o.races with
    | [] => o.deliver r
    | sent :: rest => if sent then { o.deliver r with races := rest } else { o with races := rest }

end Outlet

structure Worker where
  outlet : Outlet := {}
  latches : List Latch := []
  kept : List (String × Nat) := []
  stopping : Bool := false
  stopsAtPause : Bool := false
  invoked : List (CodeId × NameMap Value) := []
  events : List Event := []

namespace Worker

def note (w : Worker) (e : Event) : Worker := { w with events := w.events ++ [e] }

def report (w : Worker) (serial : Nat) (key : Checksum) (data : RawData) : Worker where
  outlet := w.outlet.send w.stopping ⟨key, data⟩
  latches := w.latches.modify serial (·.done key)
  kept := w.kept
  stopping := w.stopping
  stopsAtPause := w.stopsAtPause
  invoked := w.invoked
  events := w.events

def reportEach (w : Worker) (serial : Nat) (keys : List Checksum) (data : RawData) : Worker :=
  keys.foldl (fun w k => w.report serial k data) w

def fullValue (i : QueueItem) : Value :=
  .object [("ok", .bool true), ("props", .ofMap id i.propertyValues)]

def act (w : Worker) (serial : Nat) (i : QueueItem) : Move → Worker
  | .report key data => w.report serial key data
  | .reportAll => w.reportEach serial i.code.checksums { value := fullValue i }
  | .retain name => { w with kept := (name, serial) :: w.kept }
  | .late name key data =>
    match w.kept.lookup name with
    | none => w
    | some n => w.report n key data
  | .pause => { w with stopping := w.stopping || w.stopsAtPause }
  | .fail _ | .panic _ => w

def perform (serial : Nat) (i : QueueItem) : List Move → Worker → Option ExecutionError × Worker
  | [], w => (none, w)
  | .fail context :: _, w => (some (.runtime context), w)
  | .panic text :: _, w => (some (.panicked (text.getD "unknown panic")), w)
  | m :: rest, w => perform serial i rest (w.act serial i m)

def latch (w : Worker) (serial : Nat) : Latch := w.latches.getD serial {}

def settle (w : Worker) (config : Config) (serial : Nat) (i : QueueItem) : Worker :=
  let w := if config.memDebug then w.note .memoryUsage else w
  if (w.latch serial).pending.isEmpty then
    if config.slow.isZero && !w.stopping then w.note (.slowQuery i.code.id) else w
  else
    let (missing, latch) := (w.latch serial).decommission
    let w := { w with latches := w.latches.set serial latch }
    if w.stopping then w
    else
      (w.note (.unreported i.code.id missing)).reportEach serial missing (.ofError timeoutMessage)

def execute (w : Worker) (config : Config) (runtime : CollectionRuntime) (i : QueueItem) :
    Option ExecutionError × Worker :=
  let serial := w.latches.length
  let w := { w with latches := w.latches ++ [i.code.checksums.foldl Latch.add {}] }
  match i.propertyError with
  | some message => (none, w.reportEach serial i.code.checksums (.ofError message))
  | none =>
    let w := { w with invoked := w.invoked ++ [(i.code.id, i.propertyValues)] }
    let script := runtime.script serial i
    match perform serial i (script.construct ++ script.run) w with
    | (some e, w) => (some e, w.note e.event)
    | (none, w) => (none, w.settle config serial i)

end Worker

end Compliance
