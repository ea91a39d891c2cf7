import Compliance.Execution.Job
import Compliance.Plan.Draft

namespace Compliance

def Graph.starts (g : Graph) : List Mrn :=
  (g.jobs.filter (·.type.isQuery)).filterMap fun j => j.origin.map (·.1)

inductive Binding
  | bound (name : String) (q : Query) (c : Code)
  | undeclared (m : Mrn)
  | codeless (m : Mrn)

namespace Bundle

variable (b : Bundle)

def binding (p : Property) : Binding :=
  match b.queries.find? p.mrn with
  | none => .undeclared p.mrn
  | some q =>
    match q.code with
    | none => .codeless p.mrn
    | some c => .bound p.name q c

def bindings (q : Query) : List Binding := q.properties.map b.binding

def readBy (q : Query) : List Mrn :=
  (b.bindings q).filterMap fun
    | .bound _ q _ => some q.mrn
    | _ => none

def bindingEvents (q : Query) : List Event :=
  (b.bindings q).filterMap fun
    | .bound .. => none
    | .undeclared m => some (.undeclaredProperty q.mrn m)
    | .codeless m => some (.codelessProperty m)

def executionQuery (q : Query) (c : Code) : ExecutionQuery where
  query := q.mrn
  code := c
  properties := Keyed.ofList ((b.bindings q).filterMap fun
    | .bound name _ c => some (name, c.id)
    | _ => none)

def contributors (starts : List Mrn) : List Query :=
  (preorder b.queries (fun q => q.code.map (·.id)) b.readBy [] starts).filterMap (·.2)

def executionFrom (starts : List Mrn) : ExecutionJob :=
  ⟨Keyed.ofList ((b.contributors starts).filterMap fun q => q.code.map fun c => (c.id, b.executionQuery q c))⟩

def executionJob (g : Graph) : ExecutionJob := b.executionFrom g.starts

def executionEvents (g : Graph) : List Event := (b.contributors g.starts).flatMap b.bindingEvents

end Bundle

end Compliance
