import Compliance.Proofs.Liveness
import Compliance.Proofs.Preorder

namespace Compliance

variable {ms ms' : List Mrn}

namespace Bundle

variable {b : Bundle}

theorem mem_hierarchy_congr (h : ∀ m, m ∈ ms ↔ m ∈ ms') {p : Policy} : p ∈ b.hierarchy ms ↔ p ∈ b.hierarchy ms' := by
  simp only [hierarchy, mem_preorder_iff]
  constructor
  · exact fun hp => hp.mono fun m hm => (h m).mp hm
  · exact fun hp => hp.mono fun m hm => (h m).mpr hm

theorem scope_congr (h : ∀ m, m ∈ ms ↔ m ∈ ms') : b.scope ms = b.scope ms' := by
  have hp := fun {p} => b.mem_hierarchy_congr h (p := p)
  simp only [scope, Scope.mk.injEq]
  constructor
  · apply Keyed.ext_mem
    intro k
    simp only [← NameSet.mem_entries, NameSet.mem_ofList, List.mem_append, List.mem_flatten, List.mem_flatMap, hp]
  · rw [Bool.eq_iff_iff]
    simp only [List.any_eq_true, List.mem_flatMap, hp]

theorem collect_congr (h : ∀ m, m ∈ ms ↔ m ∈ ms') (asset : PredicateSet) (now : Timestamp) :
    Overrides.collect b asset now ms = Overrides.collect b asset now ms' := by
  have hc : ∀ m, ms.contains m = ms'.contains m := fun m => by simp [h]
  simp only [Overrides.collect, hc]

end Bundle

namespace Setting

variable {s : Setting}

theorem Walked.congr (h : ∀ m, m ∈ ms ↔ m ∈ ms') {p : Policy} : s.Walked ms p ↔ s.Walked ms' p := by
  constructor
  · exact fun hp => hp.widen fun m hm q hq => .root ((h m).mp hm) hq
  · exact fun hp => hp.widen fun m hm q hq => .root ((h m).mpr hm) hq

theorem Referenced.congr (h : ∀ m, m ∈ ms ↔ m ∈ ms') {role : Role} {q : Query} :
    s.Referenced ms role q ↔ s.Referenced ms' role q := by
  constructor
  · exact fun hq => hq.widen fun p hp => (Walked.congr h).mp hp
  · exact fun hq => hq.widen fun p hp => (Walked.congr h).mpr hp

end Setting

end Compliance
