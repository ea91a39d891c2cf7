import Compliance.Plan.Policies

/-!
Jobs of frameworks and controls. Controls link to query jobs that the policies have already made,
by the evidence of the framework maps that have an active policy behind them.
-/

namespace Compliance

structure ControlScope where
  evidence : List ControlMap := []
  removed : List Mrn := []
  excepted : List Mrn := []

inductive Evidence
  | query (role : Role) (r : QueryRef)
  | control (m : Mrn)

def ControlMap.links (c : ControlMap) : List Evidence :=
  c.checks.map (.query .check) ++ c.queries.map (.query .data) ++ c.controls.map .control

def Draft.linked (d : Draft) (role : Role) (r : QueryRef) : Option Link :=
  if r.action.activation = .absent then none
  else ((d.index role).lookup r.mrn).map fun i => (i, Impact.of r.action.activation .unspecified r.impact)

namespace ControlScope

variable (c : ControlScope)

def standing (m : Mrn) : Activation :=
  if m ∈ c.removed then .absent else if m ∈ c.excepted then .ignored else .active

def link (job : Mrn → Draft → Bool × Draft) (m : Mrn) (d : Draft) : Option Link × Draft :=
  if c.standing m = .absent then (none, d)
  else
    let (made, d) := job m d
    (if made then some (.mrn m, Impact.of (c.standing m) .unspecified none) else none, d)

def follow (job : Mrn → Draft → Bool × Draft) (e : Evidence) (d : Draft) : Option Link × Draft :=
  match e with
  | .query role r => (d.linked role r, d)
  | .control n => c.link job n d

/-- Whether a control has a job. Only controls with evidence lead to others. -/
def control (path : List Mrn) (m : Mrn) (d : Draft) : Bool × Draft :=
  match d.controls.lookup m with
  | some made => (made, d)
  | none =>
    if _hm : m ∈ path then (false, d.note (.controlCycle m))
    else
      match _h : c.evidence.filter (·.mrn == m) with
      | [] => (false, { d with controls := (m, false) :: d.controls })
      | e :: rest =>
        let (links, d) := gather (c.follow fun n d => control (m :: path) n d)
          ((e :: rest).flatMap ControlMap.links) d
        let (made, d) := d.structural m .control .average links
        (made, { d with controls := (m, made) :: d.controls })
termination_by unvisited ControlMap.mrn c.evidence path
decreasing_by
  have hf : e ∈ c.evidence.filter (·.mrn == m) := _h ▸ List.mem_cons_self
  obtain ⟨he, hm⟩ := List.mem_filter.1 hf
  obtain rfl : e.mrn = m := by simpa using hm
  exact unvisited_cons_lt he _hm

end ControlScope

namespace Setting

variable (s : Setting)

def framework (c : ControlScope) (path : List Mrn) (m : Mrn) (d : Draft) : Bool × Draft :=
  match d.frameworks.lookup m with
  | some made => (made, d)
  | none =>
    if _hm : m ∈ path then (false, d.note (.frameworkCycle m))
    else
      match _h : s.bundle.frameworks.find? m with
      | none => (false, d)
      | some f =>
        let (controls, d) := gather (c.link (c.control []))
          ((f.contentGroups s.now).flatMap (·.controls)) d
        let (below, d) := gather (fun r d =>
          if r.action.activation = .absent then (none, d)
          else
            let (made, d) := framework c (m :: path) r.mrn d
            (if made then some (.mrn r.mrn, Impact.of r.action.activation .unspecified none) else none, d))
          f.dependencies d
        let (made, d) := d.structural m .framework .average (controls ++ below)
        (made, { d with frameworks := (m, made) :: d.frameworks })
termination_by unvisited Framework.mrn s.bundle.frameworks.entries path
decreasing_by
  obtain rfl := Keyed.key_of_find? _h
  exact unvisited_cons_lt (Keyed.mem_of_find? _h) _hm

def discovered (assigned : List Mrn) : List (Mrn × Option Framework) :=
  preorder s.bundle.frameworks Framework.mrn
    (fun f => (f.dependencies.filter (·.action != .deactivate)).map (·.mrn)) [] assigned

def candidateMaps (active : List Framework) (d : Draft) : List (FrameworkMap × Bool) :=
  (s.bundle.maps.filter fun m => active.any (·.mrn == m.framework)).map fun m =>
    (m, m.policies.any fun p => d.policies.lookup p == some true)

def controlScope (active : List Framework) (maps : List (FrameworkMap × Bool)) : ControlScope :=
  let modifiers := active.flatMap (·.modifierGroups s.now)
  { evidence := (maps.filter (·.2)).flatMap (·.1.controls)
    removed := (modifiers.filter (·.type != .exception)).flatMap (·.controls)
    excepted := (modifiers.filter (·.type == .exception)).flatMap (·.controls) }

def adopt (root : Identity) (c : ControlScope) (d : Draft) (m : Mrn) : Draft :=
  let (made, d) := s.framework c [] m d
  if made then { d with graph := d.graph.connect root (.mrn m) .ignored } else d

def addFrameworks (root : Identity) (assigned : List Mrn) (d : Draft) : Draft :=
  let found := s.discovered assigned
  let active := found.filterMap (·.2)
  let maps := s.candidateMaps active d
  let unknown := (found.filter (·.2.isNone)).map fun f => Event.undeclaredFramework f.1
  let idle := (maps.filter (!·.2)).map fun m => Event.inactiveMap m.1.mrn
  let d := { d with events := d.events ++ unknown ++ idle }
  assigned.foldl (s.adopt root (s.controlScope active maps)) d

end Setting

end Compliance
