import Compliance.Event
import Compliance.Overrides.Hierarchy
import Compliance.Report.Graph
import Compliance.Search

/-!
The state of a resolution under way. Structural jobs come into the graph only once they have a
child, so what has been visited and what became of it is kept beside the graph.
-/

namespace Compliance

structure Setting where
  bundle : Bundle
  asset : PredicateSet
  now : Timestamp
  overrides : Overrides

inductive Role
  | check
  | data
  deriving DecidableEq

def Role.jobType : Role → JobType
  | check => .check
  | data => .dataQuery

abbrev Link := Identity × Impact

structure Draft where
  graph : Graph := {}
  events : List Event := []
  policies : List (Mrn × Bool) := []
  riskFactors : List (Mrn × Bool) := []
  frameworks : List (Mrn × Bool) := []
  controls : List (Mrn × Bool) := []
  checks : List (Mrn × Identity) := []
  dataQueries : List (Mrn × Identity) := []
  magnitudes : NameMap Float32 := Keyed.empty

namespace Draft

def note (d : Draft) (e : Event) : Draft := { d with events := d.events ++ [e] }

def index (d : Draft) : Role → List (Mrn × Identity)
  | .check => d.checks
  | .data => d.dataQueries

def enter (d : Draft) (role : Role) (m : Mrn) (i : Identity) : Draft :=
  if ((d.index role).lookup m).isSome then d
  else
    match role with
    | .check => { d with checks := (m, i) :: d.checks }
    | .data => { d with dataQueries := (m, i) :: d.dataQueries }

def structural (d : Draft) (m : Mrn) (type : JobType) (scoring : ScoringSystem) (links : List Link) :
    Bool × Draft :=
  if links.isEmpty then (false, d)
  else
    let g := (d.graph.ensure (.mrn m) type scoring).addMrns (.mrn m) [m]
    (true, { d with graph := g.connectAll (.mrn m) links })

end Draft

end Compliance
