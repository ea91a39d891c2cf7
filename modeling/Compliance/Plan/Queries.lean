import Compliance.Plan.Draft

namespace Compliance

namespace Draft

def leafIdentity (role : Role) (q : Query) (c : Code) : Identity :=
  match role with
  | .check => .code c.id
  | .data => .mrn q.mrn

def leaf (d : Draft) (role : Role) (q : Query) (c : Code) (composite : Option Mrn) : Identity × Draft :=
  let i := leafIdentity role q c
  let g := d.graph.ensure i role.jobType .unspecified
  let g := g.addMrns i (q.mrn :: composite.toList)
  let g := (g.setOrigin i q.mrn c.id).addDatapoints i c.checksums
  (i, { d with graph := g }.enter role q.mrn i)

def above (d : Draft) (role : Role) (q : Query) (variants : List (Mrn × Link)) :
    Option Identity × Draft :=
  if variants.isEmpty then (none, d)
  else
    let i : Identity := .mrn q.mrn
    let g := (d.graph.ensure i role.jobType .unspecified).addMrns i (q.mrn :: variants.map Prod.fst)
    (some i, { d with graph := g.connectAll i (variants.map Prod.snd) }.enter role q.mrn i)

end Draft

namespace Setting

variable (s : Setting)

/-- The job of a query in a role. A composite on the path is cut; its variants see all layers. -/
def query (role : Role) (path : List Mrn) (composite : Option Mrn) (q : Query)
    (_hq : q ∈ s.bundle.queries.entries) (d : Draft) : Option Identity × Draft :=
  if q.isComposite then
    if _h : q.mrn ∈ path then (none, d.note (.variantCycle q.mrn))
    else
      let (variants, d) := gather (fun m d =>
        let a := (s.overrides.action q.mrn m).activation
        if a = .absent then (none, d)
        else
          match hv : s.bundle.queries.find? m with
          | none => (none, d.note (.undeclaredVariant q.mrn m))
          | some v =>
            if s.asset.meets v.required then
              let (i, d) := query role (q.mrn :: path) (some q.mrn) v (Keyed.mem_of_find? hv) d
              (i.map fun i => (m, i, Impact.of a .unspecified none), d)
            else (none, d)) q.variants d
      d.above role q variants
  else
    match q.code with
    | none => (none, d.note (.emptyQuery q.mrn))
    | some c =>
      let (i, d) := d.leaf role q c composite
      (some i, d)
termination_by unvisited Query.mrn s.bundle.queries.entries path
decreasing_by exact unvisited_cons_lt _hq _h

def queryRef (role : Role) (referrer : Mrn) (r : QueryRef) (d : Draft) : Option Link × Draft :=
  let a := (s.overrides.effective referrer r.mrn r.action).activation
  if a = .absent then (none, d)
  else
    match h : s.bundle.queries.find? r.mrn with
    | none => (none, d.note (.undeclaredQuery referrer r.mrn))
    | some q =>
      if s.asset.meets q.required then
        let (i, d) := s.query role [] none q (Keyed.mem_of_find? h) d
        (i.map fun i => (i, Impact.of a .unspecified r.impact), d)
      else (none, d)

end Setting

end Compliance
