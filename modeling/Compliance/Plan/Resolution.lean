import Compliance.Plan.Execution
import Compliance.Plan.Frameworks
import Compliance.Report.Checksum
import Compliance.Scope

namespace Compliance

inductive Target
  | policy (m : Mrn)
  | asset (asset : Mrn) (policies frameworks : List Mrn)
  deriving DecidableEq

structure Request where
  target : Target
  asset : PredicateSet
  now : Timestamp
  deriving DecidableEq

inductive ResolveError
  | policyNotFound (m : Mrn)
  | scopeMismatch (policy asset : List PredicateId)
  deriving DecidableEq

def ResolveError.message : ResolveError → String
  | policyNotFound m => "policy not found: " ++ m
  | scopeMismatch policy asset =>
    "asset isn't supported by any policies\n" ++
      (if policy.isEmpty then "policies didn't provide any filters\n"
        else "policies support: " ++ ", ".intercalate policy ++ "\n") ++
      (if asset.isEmpty then "asset didn't provide any filters\n"
        else "asset supports: " ++ ", ".intercalate asset ++ "\n")

structure Resolution where
  root : Identity
  graph : Graph
  consumers : NameMap (List Identity)
  magnitudes : NameMap Float32
  execution : ExecutionJob
  filters : PredicateSet
  checksum : String

def assetRoot : Identity := .mrn "root"

def Target.assigned : Target → List Mrn
  | policy m => [m]
  | asset _ policies _ => policies

namespace Bundle

variable (b : Bundle)

def setting (r : Request) : Setting where
  bundle := b
  asset := r.asset
  now := r.now
  overrides := .collect b r.asset r.now r.target.assigned

end Bundle

def Draft.start (root : Identity) (scoring : ScoringSystem) (m : Mrn) : Draft :=
  { graph := (({} : Graph).ensure root .root scoring).addMrns root [m] }

namespace Setting

variable (s : Setting)

def draftPolicy (p : Policy) : Draft :=
  let (links, d) := s.policyLinks (s.policy [p.mrn] p.mrn) p (.start (.mrn p.mrn) p.scoring p.mrn)
  { d with graph := d.graph.connectAll (.mrn p.mrn) links }

def assign (asset : Mrn) (d : Draft) (m : Mrn) : Draft :=
  let (made, d) := s.policy [] asset m d
  if made then { d with graph := d.graph.connect assetRoot (.mrn m) {} } else d

def draftAsset (asset : Mrn) (policies frameworks : List Mrn) : Draft :=
  s.addFrameworks assetRoot frameworks (policies.foldl (s.assign asset) (.start assetRoot .unspecified asset))

end Setting

namespace Bundle

variable (b : Bundle)

def isDeclared (m : Mrn) : Bool := b.policies.has m

def draft (r : Request) : Except ResolveError (Identity × Draft) :=
  match r.target with
  | .policy m =>
    match b.policies.find? m with
    | none => .error (.policyNotFound m)
    | some p => .ok (.mrn m, (b.setting r).draftPolicy p)
  | .asset asset policies frameworks =>
    .ok (assetRoot, (b.setting r).draftAsset asset (policies.filter b.isDeclared) frameworks)

def checkScope (r : Request) : Except ResolveError Scope :=
  let scope := b.scope r.target.assigned
  match r.target with
  | .policy m => if b.isDeclared m then covered scope else .error (.policyNotFound m)
  | .asset .. => covered scope
where
  covered (scope : Scope) : Except ResolveError Scope :=
    if scope.covers r.asset then .ok scope
    else .error (.scopeMismatch scope.declared.entries r.asset.entries)

def finish (r : Request) (scope : Scope) (root : Identity) (d : Draft) : Resolution where
  root := root
  graph := d.graph.shareMrns
  consumers := d.graph.consumers
  magnitudes := d.magnitudes
  execution := b.executionJob d.graph
  filters := scope.used r.asset
  checksum := d.graph.checksum

def assignmentEvents : Target → List Event
  | .policy _ => []
  | .asset asset policies _ =>
    (policies.filter (!b.isDeclared ·)).map (.undeclaredAssignment asset)

def run (r : Request) : Except ResolveError Resolution × List Event :=
  let before := b.assignmentEvents r.target
  match b.checkScope r with
  | .error e => (.error e, before)
  | .ok scope =>
    match b.draft r with
    | .error e => (.error e, before)
    | .ok (root, d) =>
      let res := b.finish r scope root d
      (.ok res, before ++ d.events ++ b.executionEvents d.graph ++
        [.resolved res.graph.jobs.length res.execution.queries.size res.checksum])

def resolve (r : Request) : Except ResolveError Resolution := (b.run r).1

end Bundle

end Compliance
