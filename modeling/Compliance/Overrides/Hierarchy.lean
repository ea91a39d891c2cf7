import Compliance.Bundle.Index
import Compliance.Overrides.Layer

/-!
The layers of all policies that an assignment reaches, each at the least depth it is reached at. A
policy sees the layers above it and its own; whatever is no policy of the hierarchy sees them all.
-/

namespace Compliance

structure Overrides where
  layers : List Layer := []

namespace Overrides

variable (o : Overrides)

def depth? (m : Mrn) : Option Nat := (o.layers.find? (·.owner == m)).map (·.depth)

def sees (referrer : Mrn) (l : Layer) : Bool :=
  match o.depth? referrer with
  | none => true
  | some d => l.depth < d || l.owner == referrer

def said (referrer m : Mrn) : List (Nat × Action) := (o.layers.filter (o.sees referrer)).filterMap (·.says? m)

/-- The least depth that specifies an action decides, and at one depth the most restrictive. -/
def verdict : List (Nat × Action) → Action
  | [] => .unspecified
  | (d, a) :: rest => (rest.filter (·.1 == d)).foldl (fun a s => a.mostRestrictive s.2) a

def action (referrer m : Mrn) : Action := verdict (o.said referrer m)

def effective (referrer m : Mrn) (declared : Action) : Action :=
  (o.action referrer m).orElse declared

def magnitude (m : Mrn) : Option Float32 := o.layers.findSome? fun l => (l.change m).magnitude

def scoring (m : Mrn) : Option ScoringSystem := o.layers.findSome? fun l => (l.change m).scoring

def leads (asset : PredicateSet) (now : Timestamp) (p : Policy) (m : Mrn) : Bool :=
  (p.contentGroups asset now).any fun g => g.policies.any fun r =>
    r.mrn == m && o.effective p.mrn m r.action != .deactivate

def addLevel (asset : PredicateSet) (now : Timestamp) (level : List Policy) (depth : Nat) : Overrides :=
  ⟨o.layers ++ level.map (·.layer asset now depth)⟩

def reached (asset : PredicateSet) (now : Timestamp) (level pool : List Policy) : List Policy :=
  pool.filter fun q => level.any fun p => o.leads asset now p q.mrn

def unreached (asset : PredicateSet) (now : Timestamp) (level pool : List Policy) : List Policy :=
  pool.filter fun q => !level.any fun p => o.leads asset now p q.mrn

theorem length_unreached_lt {asset : PredicateSet} {now : Timestamp} {level pool : List Policy}
    (h : o.reached asset now level pool ≠ []) :
    (o.unreached asset now level pool).length < pool.length := by
  obtain ⟨q, hq⟩ := List.exists_mem_of_ne_nil _ h
  obtain ⟨hq, hr⟩ := List.mem_filter.1 hq
  refine Nat.lt_of_le_of_ne (List.length_filter_le ..) fun e => ?_
  have := List.length_filter_eq_length_iff.1 e q hq
  simp [hr] at this

def grow (asset : PredicateSet) (now : Timestamp) (pool level : List Policy) (depth : Nat)
    (o : Overrides) : Overrides :=
  let o := o.addLevel asset now level depth
  if _h : o.reached asset now level pool = [] then o
  else grow asset now (o.unreached asset now level pool) (o.reached asset now level pool) (depth + 1) o
termination_by pool.length
decreasing_by exact length_unreached_lt _ _h

def collect (b : Bundle) (asset : PredicateSet) (now : Timestamp) (assigned : List Mrn) : Overrides :=
  let roots := b.policies.entries.filter fun p => assigned.contains p.mrn
  let pool := b.policies.entries.filter fun p => !assigned.contains p.mrn
  grow asset now pool roots 0 {}

end Overrides

end Compliance
