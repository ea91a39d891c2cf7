import Compliance.Terms
import Compliance.Text.Quoted

namespace Compliance

inductive Level
  | debug
  | info
  | warn
  | error
  deriving DecidableEq

def Level.text : Level → String
  | debug => "DEBUG"
  | info => "INFO"
  | warn => "WARN"
  | error => "ERROR"

inductive EntityKind
  | policy
  | framework
  | query
  | riskFactor
  deriving DecidableEq

def EntityKind.text : EntityKind → String
  | policy => "policy"
  | framework => "framework"
  | query => "query"
  | riskFactor => "risk factor"

inductive Event
  | repeatedEntry (kind : EntityKind) (mrn : Mrn)
  | undeclaredAssignment (asset mrn : Mrn)
  | undeclaredPolicy (referrer mrn : Mrn)
  | undeclaredQuery (referrer mrn : Mrn)
  | undeclaredVariant (referrer mrn : Mrn)
  | undeclaredRiskFactor (referrer mrn : Mrn)
  | undeclaredFramework (mrn : Mrn)
  | undeclaredProperty (referrer mrn : Mrn)
  | emptyQuery (mrn : Mrn)
  | codelessProperty (mrn : Mrn)
  | policyCycle (referrer mrn : Mrn)
  | variantCycle (mrn : Mrn)
  | frameworkCycle (mrn : Mrn)
  | controlCycle (mrn : Mrn)
  | inactiveMap (map : Mrn)
  | resolved (jobs queries : Nat) (checksum : String)
  | invalidTimeout (var value : String)
  | queryFailed (error : String)
  | workerPanicked (panic : String)
  | slowQuery (code : CodeId)
  | unreported (code : CodeId) (missing : List Checksum)
  | memoryUsage
  deriving DecidableEq

namespace Event

def level : Event → Level
  | policyCycle .. | variantCycle .. | frameworkCycle .. | controlCycle .. | inactiveMap .. => .debug
  | resolved .. => .info
  | queryFailed .. | workerPanicked .. => .error
  | _ => .warn

def message : Event → String
  | repeatedEntry .. => "duplicate bundle entry, keeping the last one"
  | undeclaredAssignment .. => "skipping assignment of undeclared policy"
  | undeclaredPolicy .. => "skipping reference to undeclared policy"
  | undeclaredQuery .. => "skipping reference to undeclared query"
  | undeclaredVariant .. => "skipping undeclared variant"
  | undeclaredRiskFactor .. => "skipping reference to undeclared risk factor"
  | undeclaredFramework .. => "skipping reference to undeclared framework"
  | undeclaredProperty .. => "skipping undeclared property query"
  | emptyQuery .. => "query has neither code nor variants"
  | codelessProperty .. => "property query has no code"
  | policyCycle .. => "cutting policy cycle"
  | variantCycle .. => "cutting variant cycle"
  | frameworkCycle .. => "cutting framework cycle"
  | controlCycle .. => "cutting control cycle"
  | inactiveMap .. => "framework map has no active policy dependency"
  | resolved .. => "resolved policy graph"
  | invalidTimeout .. => "ignoring invalid execution timeout"
  | queryFailed .. => "query execution failed"
  | workerPanicked .. => "execution worker panicked"
  | slowQuery .. => "slow query execution"
  | unreported .. => "unreported datapoints"
  | memoryUsage => "memory usage after query execution"

def fields : Event → List (String × String)
  | repeatedEntry kind mrn => [("kind", kind.text), ("mrn", mrn)]
  | undeclaredAssignment asset mrn => [("asset", asset), ("mrn", mrn)]
  | undeclaredPolicy referrer mrn | undeclaredQuery referrer mrn | undeclaredVariant referrer mrn
  | undeclaredRiskFactor referrer mrn | undeclaredProperty referrer mrn
  | policyCycle referrer mrn => [("referrer", referrer), ("mrn", mrn)]
  | undeclaredFramework mrn | emptyQuery mrn | codelessProperty mrn | variantCycle mrn
  | frameworkCycle mrn | controlCycle mrn => [("mrn", mrn)]
  | inactiveMap map => [("map", map)]
  | resolved jobs queries checksum =>
    [("nodes", toString jobs), ("queries", toString queries), ("checksum", checksum)]
  | invalidTimeout var value => [("var", var), ("value", value)]
  | queryFailed error => [("error", error)]
  | workerPanicked panic => [("panic", panic)]
  | slowQuery code => [("qrid", code)]
  | unreported code missing => [("qrid", code), ("missing", Text.quoteList missing)]
  | memoryUsage => []

end Event

end Compliance
