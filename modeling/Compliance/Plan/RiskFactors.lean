import Compliance.Plan.Queries

namespace Compliance

namespace Setting

variable (s : Setting)

def isLive (r : RiskFactor) : Bool :=
  (s.overrides.effective r.mrn r.mrn r.action).activation == .active && s.asset.meets r.required

def riskFactorJob (r : RiskFactor) (d : Draft) : Bool × Draft :=
  if s.isLive r then
    let (links, d) := gather (s.queryRef .check r.mrn) r.checks d
    let (made, d) := d.structural r.mrn .riskFactor .unspecified links
    if made then
      let magnitude := (s.overrides.magnitude r.mrn).getD r.magnitude
      (true, { d with magnitudes := NameMap.set d.magnitudes r.mrn magnitude })
    else (false, d)
  else (false, d)

def riskFactorRef (referrer m : Mrn) (d : Draft) : Option Link × Draft :=
  let link (made : Bool) : Option Link := if made then some (.mrn m, {}) else none
  match d.riskFactors.lookup m with
  | some made => (link made, d)
  | none =>
    match s.bundle.riskFactors.find? m with
    | none => (none, d.note (.undeclaredRiskFactor referrer m))
    | some r =>
      let (made, d) := s.riskFactorJob r d
      (link made, { d with riskFactors := (m, made) :: d.riskFactors })

end Setting

end Compliance
