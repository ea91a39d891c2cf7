
namespace Compliance

abbrev Mrn := String

abbrev CodeId := String

abbrev PredicateId := String

abbrev Checksum := String

abbrev Timestamp := Int

class Vocabulary (α : Type) where
  all : List α
  word : α → String

export Vocabulary (word)

def Vocabulary.find? {α : Type} [Vocabulary α] (s : String) : Option α :=
  (Vocabulary.all (α := α)).find? (word · == s)

inductive Action
  | unspecified
  | activate
  | deactivate
  | ignore
  deriving DecidableEq, Inhabited, Repr

instance : Vocabulary Action where
  all := [.unspecified, .activate, .deactivate, .ignore]
  word
    | .unspecified => "UNSPECIFIED"
    | .activate => "ACTIVATE"
    | .deactivate => "DEACTIVATE"
    | .ignore => "IGNORE"

inductive Activation
  | active
  | ignored
  | absent
  deriving DecidableEq, Repr

namespace Action

def isSpecified : Action → Bool
  | unspecified => false
  | _ => true

def activation : Action → Activation
  | unspecified | activate => .active
  | ignore => .ignored
  | deactivate => .absent

def orElse : Action → Action → Action
  | unspecified, b => b
  | a, _ => a

def restrictiveness : Action → Nat
  | unspecified => 0
  | activate => 1
  | ignore => 2
  | deactivate => 3

def mostRestrictive (a b : Action) : Action :=
  if a.restrictiveness < b.restrictiveness then b else a

end Action

inductive ScoringSystem
  | unspecified
  | weighted
  | worst
  | average
  | dataOnly
  | ignoreScore
  | banded
  | decayed
  | disabled
  deriving DecidableEq, Inhabited, Repr

instance : Vocabulary ScoringSystem where
  all := [.unspecified, .weighted, .worst, .average, .dataOnly, .ignoreScore, .banded, .decayed, .disabled]
  word
    | .unspecified => "UNSPECIFIED"
    | .weighted => "WEIGHTED"
    | .worst => "WORST"
    | .average => "AVERAGE"
    | .dataOnly => "DATA_ONLY"
    | .ignoreScore => "IGNORE_SCORE"
    | .banded => "BANDED"
    | .decayed => "DECAYED"
    | .disabled => "DISABLED"

inductive GroupType
  | content
  | disable
  | outOfScope
  | exception
  deriving DecidableEq, Inhabited, Repr

instance : Vocabulary GroupType where
  all := [.content, .disable, .outOfScope, .exception]
  word
    | .content => "DEFAULT"
    | .disable => "DISABLE"
    | .outOfScope => "OUT_OF_SCOPE"
    | .exception => "EXCEPTION"

def GroupType.isModifier : GroupType → Bool
  | content => false
  | _ => true

inductive ReviewStatus
  | unspecified
  | accepted
  | rejected
  deriving DecidableEq, Inhabited, Repr

instance : Vocabulary ReviewStatus where
  all := [.unspecified, .accepted, .rejected]
  word
    | .unspecified => "UNSPECIFIED"
    | .accepted => "ACCEPTED"
    | .rejected => "REJECTED"

def ReviewStatus.allows : ReviewStatus → GroupType → Bool
  | rejected, _ => false
  | accepted, _ => true
  | unspecified, t => t != .exception

inductive JobType
  | root
  | policy
  | framework
  | control
  | check
  | dataQuery
  | riskFactor
  deriving DecidableEq, Inhabited, Repr

instance : Vocabulary JobType where
  all := [.root, .policy, .framework, .control, .check, .dataQuery, .riskFactor]
  word
    | .root => "ROOT"
    | .policy => "POLICY"
    | .framework => "FRAMEWORK"
    | .control => "CONTROL"
    | .check => "CHECK"
    | .dataQuery => "DATA_QUERY"
    | .riskFactor => "RISK_FACTOR"

def JobType.isQuery : JobType → Bool
  | check | dataQuery => true
  | _ => false

namespace Timestamp

/-- A start bound admits its own moment; zero is no bound. -/
def isFrom (start now : Timestamp) : Bool := start == 0 || start ≤ now

/-- An end bound excludes its own moment; zero is no bound. -/
def isUntil (stop now : Timestamp) : Bool := stop == 0 || now < stop

end Timestamp

end Compliance
