import Compliance.Bundle.Entities
import Compliance.Event

namespace Compliance

structure Declarations where
  owner : Mrn := ""
  policies : List Policy := []
  frameworks : List Framework := []
  maps : List FrameworkMap := []
  queries : List Query := []
  riskFactors : List RiskFactor := []
  deriving DecidableEq

structure Bundle where
  owner : Mrn := ""
  policies : Keyed Policy.mrn := Keyed.empty
  frameworks : Keyed Framework.mrn := Keyed.empty
  maps : List FrameworkMap := []
  queries : Keyed Query.mrn := Keyed.empty
  riskFactors : Keyed RiskFactor.mrn := Keyed.empty

def Bundle.ofDeclarations (d : Declarations) : Bundle where
  owner := d.owner
  policies := Keyed.ofList d.policies
  frameworks := Keyed.ofList d.frameworks
  maps := d.maps
  queries := Keyed.ofList d.queries
  riskFactors := Keyed.ofList d.riskFactors

def repeats (seen : List String) : List String → List String
  | [] => []
  | k :: rest => if k ∈ seen then k :: repeats seen rest else repeats (k :: seen) rest

def Declarations.events (d : Declarations) : List Event :=
  let of (kind : EntityKind) (mrns : List Mrn) := (repeats [] mrns).map (Event.repeatedEntry kind)
  of .policy (d.policies.map (·.mrn)) ++ of .framework (d.frameworks.map (·.mrn)) ++
    of .query (d.queries.map (·.mrn)) ++ of .riskFactor (d.riskFactors.map (·.mrn))

end Compliance
