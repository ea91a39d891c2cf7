import Compliance.Proofs.Drawing
import Compliance.Report.Checksum

namespace Compliance

structure Graph.Resembles (g g' : Graph) : Prop where
  typed : ∀ i t sc, g.Typed i t sc ↔ g'.Typed i t sc
  weighs : ∀ i c w, g.Weighs i c w ↔ g'.Weighs i c w
  code : ∀ i id, (∃ m, g.Backed i m id) ↔ ∃ m, g'.Backed i m id

namespace Graph

variable {g g' : Graph} {root i : Identity} {e : Edit} {log : List Edit}

theorem has_congr (h : ∀ i t sc, g.Typed i t sc ↔ g'.Typed i t sc) : g.Has i ↔ g'.Has i := by
  constructor
  · intro hi
    obtain ⟨t, sc, ht⟩ := hi.typed
    exact ((h i t sc).mp ht).has
  · intro hi
    obtain ⟨t, sc, ht⟩ := hi.typed
    exact ((h i t sc).mpr ht).has

namespace Resembles

theorem has (h : g.Resembles g') : g.Has i ↔ g'.Has i := has_congr h.typed

theorem edge (h : g.Resembles g') {c : Identity} : g.Edge i c ↔ g'.Edge i c := by
  rw [edge_iff, edge_iff]
  exact exists_congr (h.weighs i c)

theorem grounded (h : g.Resembles g') : e.Grounded g ↔ e.Grounded g' := by
  cases e with
  | connect p c w => exact h.has
  | _ => exact Iff.rfl

theorem draw (h : g.Resembles g') (hu : g.Unique) (hu' : g'.Unique) (hg : e.Grounded g) :
    (e.draw g).Resembles (e.draw g') where
  typed i t sc := by rw [draw_typed hu, draw_typed hu', h.typed, h.has]
  weighs i c w := by rw [draw_weighs hu hg, draw_weighs hu' (h.grounded.mp hg), h.weighs, h.edge]
  code i id := by
    have hbare : (∀ n id, ¬g.Backed i n id) ↔ ∀ n id, ¬g'.Backed i n id := by
      constructor
      · intro hn n id hb
        obtain ⟨m, hm⟩ := (h.code i id).mpr ⟨n, hb⟩
        exact hn m id hm
      · intro hn n id hb
        obtain ⟨m, hm⟩ := (h.code i id).mp ⟨n, hb⟩
        exact hn m id hm
    simp only [draw_backed hu, draw_backed hu', exists_or, h.code, hbare]

theorem drawAll (h : g.Resembles g') (hu : g.Unique) (hu' : g'.Unique) (hg : ∀ e ∈ log, e.Grounded g) :
    (g.drawAll log).Resembles (g'.drawAll log) := by
  induction log generalizing g g' with
  | nil => exact h
  | cons e rest ih =>
    refine ih (h.draw hu hu' (hg e List.mem_cons_self)) (draw_unique hu e) (draw_unique hu' e) fun x hx => ?_
    exact (hg x (List.mem_cons_of_mem _ hx)).draw hu e

end Resembles

end Graph

inductive Fact
  | node (i : Identity) (type : JobType) (code : Option CodeId)
  | edge (i c : Identity) (w : Impact)

namespace Fact

def line : Fact → String
  | node i type code => Job.nodeLine i type code
  | edge i c w => Job.edgeLine i c w

def subject : Fact → Identity
  | node i _ _ => i
  | edge i _ _ => i

end Fact

def Job.facts (j : Job) : List Fact :=
  .node j.identity j.type (j.origin.map (·.2)) :: j.children.map fun c => .edge j.identity c.1 c.2

theorem Job.subject_of_mem_facts {j : Job} {f : Fact} (h : f ∈ j.facts) : f.subject = j.identity := by
  rcases List.mem_cons.mp h with rfl | h
  · rfl
  · obtain ⟨c, -, rfl⟩ := List.mem_map.mp h
    rfl

namespace Graph

variable {g g' : Graph} {root i c : Identity} {w : Impact} {t : JobType} {code : Option CodeId}

def facts (g : Graph) : List Fact := g.jobs.flatMap Job.facts

theorem lines_eq (g : Graph) : g.lines = (g.facts.map Fact.line).mergeSort fun a b => decide (a ≤ b) := by
  have hlines : Job.lines = fun j => j.facts.map Fact.line := by
    funext j
    simp [Job.lines, Job.facts, Fact.line, Job.line]
  rw [lines, facts, List.map_flatMap, hlines]

theorem mem_facts_edge : .edge i c w ∈ g.facts ↔ g.Weighs i c w := by
  simp only [facts, Job.facts, List.mem_flatMap, List.mem_cons, reduceCtorEq, List.mem_map, Fact.edge.injEq, false_or,
    Weighs, Holds]
  constructor
  · rintro ⟨j, hj, ⟨_, _⟩, hx, hi, rfl, rfl⟩
    exact ⟨j, hj, hi, hx⟩
  · rintro ⟨j, hj, hi, hx⟩
    exact ⟨j, hj, _, hx, hi, rfl, rfl⟩

theorem mem_facts_node (hu : g.Unique) : .node i t code ∈ g.facts ↔
    (∃ sc, g.Typed i t sc) ∧ ∀ id, (∃ m, g.Backed i m id) ↔ code = some id := by
  have backed : ∀ {j : Job}, j ∈ g.jobs → ∀ id, (∃ m, g.Backed j.identity m id) ↔ j.origin.map (·.2) = some id := by
    intro j hj id
    simp only [Option.map_eq_some_iff, Prod.exists, exists_eq_right]
    apply exists_congr
    intro m
    constructor
    · rintro ⟨l, hl, hi, ho⟩
      rwa [← hu.eq_of_mem hl hj hi]
    · exact fun ho => ⟨j, hj, rfl, ho⟩
  simp only [facts, Job.facts, List.mem_flatMap, List.mem_cons, List.mem_map, reduceCtorEq, and_false, exists_false,
    or_false, Fact.node.injEq]
  constructor
  · rintro ⟨j, hj, rfl, rfl, rfl⟩
    exact ⟨⟨_, j, hj, rfl, rfl, rfl⟩, backed hj⟩
  · rintro ⟨⟨sc, j, hj, rfl, rfl, -⟩, hc⟩
    exact ⟨j, hj, rfl, rfl, Option.ext fun id => (hc id).symm.trans (backed hj id)⟩

theorem Linked.facts_nodup (h : g.Linked root) : g.facts.Nodup := by
  refine List.nodup_flatMap.mpr ⟨fun j hj => ?_, ?_⟩
  · have hc : (j.children.map Prod.fst).Nodup := by
      by_contra hn
      exact h.children _ ⟨j, hj, rfl, hn⟩
    refine List.nodup_cons.mpr ⟨by simp, List.Nodup.map (fun a b hab => ?_) (List.Nodup.of_map _ hc)⟩
    obtain ⟨-, hi, hw⟩ := Fact.edge.inj hab
    exact Prod.ext hi hw
  · refine (List.pairwise_map.mp h.unique).imp fun {j l} hne f hf hf' => hne ?_
    exact (Job.subject_of_mem_facts hf).symm.trans (Job.subject_of_mem_facts hf')

theorem mergeSort_eq_of_perm {l l' : List String} (h : l.Perm l') :
    l.mergeSort (fun a b => decide (a ≤ b)) = l'.mergeSort (fun a b => decide (a ≤ b)) := by
  have sorted : ∀ l : List String, (l.mergeSort (fun a b => decide (a ≤ b))).Pairwise (fun a b => decide (a ≤ b) = true) :=
    List.pairwise_mergeSort (fun a b c hab hbc => by simpa using String.le_trans (by simpa using hab) (by simpa using hbc))
      (fun a b => by simpa using String.le_total a b)
  refine List.Perm.eq_of_pairwise (fun a b _ _ hab hba => ?_) (sorted l) (sorted l') ?_
  · exact String.le_antisymm (by simpa using hab) (by simpa using hba)
  · exact (List.mergeSort_perm l _).trans (h.trans (List.mergeSort_perm l' _).symm)

theorem Resembles.checksum (h : g.Resembles g') {root' : Identity} (hl : g.Linked root) (hl' : g'.Linked root') :
    g.checksum = g'.checksum := by
  have hmem : ∀ f, f ∈ g.facts ↔ f ∈ g'.facts := by
    intro f
    cases f with
    | node i t code => simp only [mem_facts_node hl.unique, mem_facts_node hl'.unique, h.typed, h.code]
    | edge i c w => rw [mem_facts_edge, mem_facts_edge, h.weighs]
  have hperm : g.facts.Perm g'.facts := (List.perm_ext_iff_of_nodup hl.facts_nodup hl'.facts_nodup).mpr hmem
  rw [Graph.checksum, checksumText, lines_eq, mergeSort_eq_of_perm (hperm.map Fact.line), ← lines_eq]
  rfl

end Graph

end Compliance
