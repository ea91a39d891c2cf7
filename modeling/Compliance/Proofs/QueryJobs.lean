import Compliance.Plan.Execution
import Mathlib.Tactic.Common

namespace Compliance

def Job.core (j : Job) : Job := { j with children := [], parents := [] }

def Job.sharing (siblings : CodeId → List Mrn) (j : Job) : Job :=
  match j.type, j.origin with
  | .dataQuery, some (_, id) => { j with mrns := appendNew [] (siblings id) }
  | _, _ => j

namespace Graph

def queryJobs (g : Graph) : List Job := (g.jobs.filter (·.type.isQuery)).map (·.core)

def siblingMrns (g : Graph) (id : CodeId) : List Mrn :=
  (g.jobs.filter fun j => j.type == .dataQuery && j.origin.any (·.2 == id)).flatMap (·.mrns)

variable {g g' : Graph}

theorem shareMrns_eq (g : Graph) : g.shareMrns = ⟨g.jobs.map (.sharing g.siblingMrns)⟩ := rfl

theorem mem_shareMrns {j : Job} : j ∈ g.shareMrns.jobs ↔ ∃ l ∈ g.jobs, l.sharing g.siblingMrns = j := List.mem_map

theorem starts_congr (h : g.queryJobs = g'.queryJobs) : g.starts = g'.starts := by
  have hstarts : ∀ g : Graph, g.starts = g.queryJobs.filterMap fun j => j.origin.map (·.1) := by
    intro g
    rw [queryJobs, List.filterMap_map]
    rfl
  rw [hstarts, h, hstarts]

theorem consumers_congr (h : g.queryJobs = g'.queryJobs) : g.consumers = g'.consumers := by
  have hconsumers : ∀ g : Graph, g.consumers = g.queryJobs.foldl (fun m j =>
      j.datapoints.foldl (fun m c =>
        NameMap.set m c (appendNew ((NameMap.get? m c).getD []) [j.identity])) m) Keyed.empty := by
    intro g
    rw [queryJobs, List.foldl_map]
    rfl
  rw [hconsumers, h, hconsumers]

theorem siblingMrns_congr (h : g.queryJobs = g'.queryJobs) : g.siblingMrns = g'.siblingMrns := by
  have hsiblings : ∀ (g : Graph) (id : CodeId), g.siblingMrns id =
      (g.queryJobs.filter fun j => j.type == .dataQuery && j.origin.any (·.2 == id)).flatMap (·.mrns) := by
    intro g id
    rw [queryJobs, List.filter_map, List.filter_filter, List.flatMap_map, siblingMrns]
    congr 1
    apply List.filter_congr
    intro j _
    cases ht : j.type <;> simp [Job.core, ht, JobType.isQuery]
  funext id
  rw [hsiblings, h, hsiblings]

end Graph

namespace Job

variable {siblings : CodeId → List Mrn} {j : Job}

theorem sharing_of_not_isQuery (h : j.type.isQuery = false) : j.sharing siblings = j := by
  unfold sharing
  cases ht : j.type <;> simp_all [JobType.isQuery]

theorem sharing_of_origin (h : j.origin = none) : j.sharing siblings = j := by
  simp only [sharing, h]
  split <;> simp_all

theorem sharing_mrns (siblings : CodeId → List Mrn) (j : Job) : ∃ ms, j.sharing siblings = { j with mrns := ms } := by
  unfold sharing
  split
  · exact ⟨_, rfl⟩
  · exact ⟨j.mrns, rfl⟩

theorem sharing_identity (siblings : CodeId → List Mrn) (j : Job) : (j.sharing siblings).identity = j.identity := by
  obtain ⟨ms, hms⟩ := j.sharing_mrns siblings
  rw [hms]

end Job

theorem Graph.forall_shareMrns {g : Graph} {p : Job → Prop} (hp : ∀ j ms, p { j with mrns := ms } ↔ p j) :
    (∀ j ∈ g.shareMrns.jobs, p j) ↔ ∀ j ∈ g.jobs, p j := by
  rw [shareMrns_eq]
  simp only [List.forall_mem_map]
  refine forall₂_congr fun j _ => ?_
  obtain ⟨ms, hms⟩ := j.sharing_mrns g.siblingMrns
  rw [hms]
  exact hp j ms

end Compliance
