import Compliance.Bundle.Index
import Compliance.Search

/-!
The scope of a policy hierarchy: the predicates that its reachable content asks for, whatever the
actions, dates, reviews and predicates on the way. An asset is in scope if some part of the
hierarchy asks for nothing, or the asset satisfies one of the predicates.
-/

namespace Compliance

structure Scope where
  declared : PredicateSet := Keyed.empty
  unconditional : Bool := false

namespace Scope

def covers (s : Scope) (asset : PredicateSet) : Bool :=
  s.unconditional || s.declared.entries.any (NameSet.contains asset)

def used (s : Scope) (asset : PredicateSet) : PredicateSet := s.declared.filter (NameSet.contains asset)

end Scope

def Policy.declaredContent (p : Policy) : List PolicyGroup := p.groups.filter (!·.type.isModifier)

namespace Bundle

variable (b : Bundle)

def hierarchy (assigned : List Mrn) : List Policy :=
  (preorder b.policies Policy.mrn
    (fun p => p.declaredContent.flatMap fun g => g.policies.map (·.mrn)) [] assigned).filterMap (·.2)

def riskFactorsOf (p : Policy) : List RiskFactor :=
  ((p.declaredContent.flatMap (·.riskFactors)) ++ p.riskFactors).filterMap
    fun r => b.riskFactors.find? r.mrn

def gates (p : Policy) : List (List PredicateId) :=
  p.declaredContent.map (·.required) ++ (b.riskFactorsOf p).map (·.required)

def queriesOf (p : Policy) : List Mrn :=
  (p.declaredContent.flatMap fun g => (g.checks ++ g.queries).map (·.mrn)) ++
    (b.riskFactorsOf p).flatMap fun r => r.checks.map (·.mrn)

def narrowings (m : Mrn) : List PredicateId :=
  match b.queries.find? m with
  | none => []
  | some q => q.required ++ (q.variants.filterMap b.queries.find?).flatMap (·.required)

def scope (assigned : List Mrn) : Scope :=
  let policies := b.hierarchy assigned
  let gates := policies.flatMap b.gates
  { declared := Keyed.ofList (gates.flatten ++ (policies.flatMap b.queriesOf).flatMap b.narrowings)
    unconditional := gates.any (·.isEmpty) }

end Bundle

end Compliance
