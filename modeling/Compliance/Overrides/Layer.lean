import Compliance.Bundle.Entities

namespace Compliance

structure Change where
  action : Action := .unspecified
  magnitude : Option Float32 := none
  scoring : Option ScoringSystem := none
  deriving DecidableEq

def Change.then (old new : Change) : Change where
  action := new.action.orElse old.action
  magnitude := new.magnitude.or old.magnitude
  scoring := new.scoring.or old.scoring

structure Layer where
  depth : Nat
  owner : Mrn
  changes : List (Mrn × Change)

namespace Layer

def change (l : Layer) (m : Mrn) : Change :=
  (l.changes.filterMap fun (n, c) => if n = m then some c else none).foldl Change.then {}

def says? (l : Layer) (m : Mrn) : Option (Nat × Action) :=
  let a := (l.change m).action
  if a.isSpecified then some (l.depth, a) else none

end Layer

def QueryRef.change (r : QueryRef) : Mrn × Change := (r.mrn, { action := r.action })

def PolicyRef.change (r : PolicyRef) : Mrn × Change :=
  (r.mrn, { action := r.action, scoring := r.scoring })

def RiskFactorRef.change (r : RiskFactorRef) : Mrn × Change :=
  (r.mrn, { action := r.action, magnitude := r.magnitude })

namespace PolicyGroup

def contentChanges (g : PolicyGroup) : List (Mrn × Change) :=
  g.checks.map QueryRef.change ++ g.queries.map QueryRef.change ++
    g.policies.map PolicyRef.change ++ g.riskFactors.map RiskFactorRef.change

def targets (g : PolicyGroup) : List Mrn :=
  g.checks.map (·.mrn) ++ g.queries.map (·.mrn) ++ g.policies.map (·.mrn) ++ g.riskFactors.map (·.mrn)

def modifierAction (g : PolicyGroup) : Action :=
  if g.type = .exception then .ignore else .deactivate

def modifierChanges (g : PolicyGroup) : List (Mrn × Change) :=
  g.targets.map fun m => (m, { action := g.modifierAction })

end PolicyGroup

def Policy.layer (p : Policy) (asset : PredicateSet) (now : Timestamp) (depth : Nat) : Layer where
  depth := depth
  owner := p.mrn
  changes :=
    (p.contentGroups asset now).flatMap (·.contentChanges) ++ p.riskFactors.map RiskFactorRef.change ++
      (p.modifierGroups asset now).flatMap (·.modifierChanges)

end Compliance
