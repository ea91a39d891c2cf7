import Compliance.Bundle.Entities
import Compliance.Report.Identity

namespace Compliance

structure Job where
  identity : Identity
  type : JobType
  scoring : ScoringSystem
  mrns : List Mrn := []
  datapoints : List Checksum := []
  children : List (Identity × Impact) := []
  parents : List Identity := []
  origin : Option (Mrn × CodeId) := none
  deriving DecidableEq

structure Graph where
  jobs : List Job := []
  deriving DecidableEq

namespace Graph

def find? (g : Graph) (i : Identity) : Option Job := g.jobs.find? (·.identity == i)

def ensure (g : Graph) (i : Identity) (type : JobType) (scoring : ScoringSystem) : Graph :=
  if (g.find? i).isSome then g
  else ⟨g.jobs ++ [{ identity := i, type := type, scoring := scoring }]⟩

def modify (g : Graph) (i : Identity) (f : Job → Job) : Graph :=
  ⟨g.jobs.map fun j => if j.identity = i then f j else j⟩

def addMrns (g : Graph) (i : Identity) (mrns : List Mrn) : Graph :=
  g.modify i fun j => { j with mrns := appendNew j.mrns mrns }

def addDatapoints (g : Graph) (i : Identity) (checksums : List Checksum) : Graph :=
  g.modify i fun j => { j with datapoints := appendNew j.datapoints checksums }

def setOrigin (g : Graph) (i : Identity) (m : Mrn) (id : CodeId) : Graph :=
  g.modify i fun j => { j with origin := j.origin.or (some (m, id)) }

def hasEdge (g : Graph) (parent child : Identity) : Bool :=
  match g.find? parent with
  | none => false
  | some j => j.children.any (·.1 == child)

def connect (g : Graph) (parent child : Identity) (impact : Impact) : Graph :=
  if g.hasEdge parent child then g
  else
    (g.modify parent fun j => { j with children := j.children ++ [(child, impact)] }).modify child
      fun j => { j with parents := j.parents ++ [parent] }

def connectAll (g : Graph) (parent : Identity) (links : List (Identity × Impact)) : Graph :=
  links.foldl (fun g l => g.connect parent l.1 l.2) g

/-- Data queries with the same code each stand for the entities of all of them. -/
def shareMrns (g : Graph) : Graph :=
  let siblings (id : CodeId) := g.jobs.filter fun j =>
    j.type == .dataQuery && j.origin.any (·.2 == id)
  ⟨g.jobs.map fun j =>
    match j.type, j.origin with
    | .dataQuery, some (_, id) => { j with mrns := appendNew [] ((siblings id).flatMap (·.mrns)) }
    | _, _ => j⟩

def consumers (g : Graph) : NameMap (List Identity) :=
  (g.jobs.filter (·.type.isQuery)).foldl (fun m j =>
    j.datapoints.foldl (fun m c =>
      NameMap.set m c (appendNew ((NameMap.get? m c).getD []) [j.identity])) m) Keyed.empty

end Graph

end Compliance
