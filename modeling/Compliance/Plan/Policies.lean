import Compliance.Plan.RiskFactors

namespace Compliance

inductive Reference
  | query (role : Role) (r : QueryRef)
  | policy (r : PolicyRef)
  | riskFactor (m : Mrn)

def PolicyGroup.references (g : PolicyGroup) : List Reference :=
  g.checks.map (.query .check) ++ g.queries.map (.query .data) ++ g.policies.map .policy ++
    g.riskFactors.map (.riskFactor ·.mrn)

def Policy.references (p : Policy) (asset : PredicateSet) (now : Timestamp) : List Reference :=
  (p.contentGroups asset now).flatMap (·.references) ++ p.riskFactors.map (.riskFactor ·.mrn)

namespace Setting

variable (s : Setting)

def policyLinks (below : Mrn → Draft → Bool × Draft) (p : Policy) (d : Draft) : List Link × Draft :=
  gather (fun r d =>
    match r with
    | .query role r => s.queryRef role p.mrn r d
    | .riskFactor m => s.riskFactorRef p.mrn m d
    | .policy r =>
      let a := (s.overrides.effective p.mrn r.mrn r.action).activation
      if a = .absent then (none, d)
      else
        let (made, d) := below r.mrn d
        (if made then some (.mrn r.mrn, Impact.of a (r.scoring.getD .unspecified) none) else none, d))
    (p.references s.asset s.now) d

def policyScoring (p : Policy) : ScoringSystem := (s.overrides.scoring p.mrn).getD p.scoring

def policy (path : List Mrn) (referrer m : Mrn) (d : Draft) : Bool × Draft :=
  match d.policies.lookup m with
  | some made => (made, d)
  | none =>
    if _hm : m ∈ path then (false, d.note (.policyCycle referrer m))
    else
      match _h : s.bundle.policies.find? m with
      | none => (false, d.note (.undeclaredPolicy referrer m))
      | some p =>
        let (links, d) := s.policyLinks (fun n d => policy (m :: path) p.mrn n d) p d
        let (made, d) := d.structural m .policy (s.policyScoring p) links
        (made, { d with policies := (m, made) :: d.policies })
termination_by unvisited Policy.mrn s.bundle.policies.entries path
decreasing_by
  obtain rfl := Keyed.key_of_find? _h
  exact unvisited_cons_lt (Keyed.mem_of_find? _h) _hm

end Setting

end Compliance
