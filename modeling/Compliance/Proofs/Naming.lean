import Compliance.Proofs.Edits

namespace Compliance

def Edit.names (i : Identity) : Edit → List Mrn
  | .leaf role q c k => if Draft.leafIdentity role q c = i then q.mrn :: k.toList else []
  | .composite _ q vs => if vs ≠ [] ∧ .mrn q.mrn = i then q.mrn :: vs.map Prod.fst else []
  | .structural m _ _ ls => if ls ≠ [] ∧ .mrn m = i then [m] else []
  | _ => []

namespace Graph

def mrnsOf (g : Graph) (i : Identity) : List Mrn := ((g.find? i).map (·.mrns)).getD []

variable {g : Graph} {i k c : Identity} {type : JobType} {scoring : ScoringSystem} {ms : List Mrn} {f : Job → Job}

theorem mrnsOf_eq (hu : g.Unique) {j : Job} (hj : j ∈ g.jobs) : g.mrnsOf j.identity = j.mrns := by
  rw [mrnsOf, (find?_eq_some hu).mpr ⟨hj, rfl⟩, Option.map_some, Option.getD_some]

theorem mrnsOf_eq_nil (h : ¬g.Has i) : g.mrnsOf i = [] := by
  rw [← find?_isSome_iff, Option.not_isSome_iff_eq_none] at h
  rw [mrnsOf, h, Option.map_none, Option.getD_none]

theorem find?_modify (hf : ∀ j, (f j).identity = j.identity) :
    (g.modify i f).find? k = (g.find? k).map fun j => if j.identity = i then f j else j := by
  have hid : (fun j : Job => j.identity == k) ∘ (fun j => if j.identity = i then f j else j) = (·.identity == k) := by
    funext j
    simp only [Function.comp_apply]
    split
    · rw [hf]
    · rfl
  rw [find?, modify, List.find?_map, hid, find?]

theorem modify_mrnsOf (hf : ∀ j, (f j).identity = j.identity) (hm : ∀ j, (f j).mrns = j.mrns) :
    (g.modify i f).mrnsOf k = g.mrnsOf k := by
  have hkeep : ((fun j : Job => j.mrns) ∘ fun j => if j.identity = i then f j else j) = (·.mrns) := by
    funext j
    simp only [Function.comp_apply]
    split
    · exact hm j
    · rfl
  rw [mrnsOf, find?_modify hf, Option.map_map, hkeep, mrnsOf]

theorem addMrns_mrnsOf (hi : g.Has i) :
    (g.addMrns i ms).mrnsOf k = if i = k then appendNew (g.mrnsOf k) ms else g.mrnsOf k := by
  rw [mrnsOf, addMrns, find?_modify (f := fun j => { j with mrns := appendNew j.mrns ms }) fun _ => rfl, mrnsOf]
  cases hk : g.find? k with
  | none =>
    have hne : i ≠ k := by
      rintro rfl
      rw [← find?_isSome_iff, hk] at hi
      cases hi
    simp [hne]
  | some j =>
    have hj : j.identity = k := by simpa using List.find?_some hk
    by_cases he : i = k
    · simp [hj, he]
    · simp [hj, he, Ne.symm he]

theorem ensure_mrnsOf : (g.ensure i type scoring).mrnsOf k = g.mrnsOf k := by
  unfold ensure
  split
  · rfl
  · rw [mrnsOf, find?, List.find?_append, mrnsOf, find?]
    cases g.jobs.find? (·.identity == k) with
    | some j => rfl
    | none => by_cases hk : i = k <;> simp [hk]

theorem connect_mrnsOf {w : Impact} : (g.connect i c w).mrnsOf k = g.mrnsOf k := by
  unfold connect
  split
  · rfl
  · rw [modify_mrnsOf, modify_mrnsOf]
    all_goals exact fun _ => rfl

theorem connectAll_mrnsOf (ls : List (Identity × Impact)) : (g.connectAll i ls).mrnsOf k = g.mrnsOf k := by
  induction ls generalizing g with
  | nil => rfl
  | cons l rest ih => exact ih.trans connect_mrnsOf

theorem raise_mrnsOf {ls : List (Identity × Impact)} :
    (g.raise i type scoring ms ls).mrnsOf k = if i = k then appendNew (g.mrnsOf k) ms else g.mrnsOf k := by
  rw [raise, connectAll_mrnsOf, addMrns_mrnsOf (ensure_has.mpr (.inr rfl)), ensure_mrnsOf]

theorem plant_mrnsOf {m : Mrn} {id : CodeId} {cs : List Checksum} :
    (g.plant i type ms m id cs).mrnsOf k = if i = k then appendNew (g.mrnsOf k) ms else g.mrnsOf k := by
  have hcode : ∀ g : Graph, ((g.setOrigin i m id).addDatapoints i cs).mrnsOf k = g.mrnsOf k := by
    intro g
    rw [addDatapoints, modify_mrnsOf, setOrigin, modify_mrnsOf]
    all_goals exact fun _ => rfl
  rw [plant, hcode, addMrns_mrnsOf (ensure_has.mpr (.inr rfl)), ensure_mrnsOf]

theorem draw_mrnsOf (e : Edit) : (e.draw g).mrnsOf i = appendNew (g.mrnsOf i) (e.names i) := by
  have hnone : g.mrnsOf i = appendNew (g.mrnsOf i) [] := rfl
  cases e with
  | leaf role q c k =>
    simp only [Edit.draw, plant_mrnsOf, Edit.names]
    split
    · rfl
    · exact hnone
  | composite role q vs =>
    by_cases hv : vs = []
    · simpa [Edit.draw, Edit.names, hv] using hnone
    · simp only [Edit.draw, Edit.names, List.isEmpty_iff, hv, ↓reduceIte, raise_mrnsOf, ne_eq, not_false_eq_true, true_and]
      split
      · rfl
      · exact hnone
  | structural m t sc ls =>
    by_cases hl : ls = []
    · simpa [Edit.draw, Edit.names, hl] using hnone
    · simp only [Edit.draw, Edit.names, List.isEmpty_iff, hl, ↓reduceIte, raise_mrnsOf, ne_eq, not_false_eq_true, true_and]
      split
      · rfl
      · exact hnone
  | connect p c w => exact connect_mrnsOf.trans hnone
  | _ => exact hnone

theorem drawAll_mrnsOf (log : List Edit) :
    (g.drawAll log).mrnsOf i = appendNew (g.mrnsOf i) (log.flatMap (Edit.names i)) := by
  induction log generalizing g with
  | nil => rfl
  | cons e rest ih => rw [drawAll_cons, ih, draw_mrnsOf, appendNew_append, List.flatMap_cons]

end Graph

end Compliance
