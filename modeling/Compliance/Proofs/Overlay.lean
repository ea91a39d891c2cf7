import Compliance.Plan.Execution
import Compliance.Proofs.Edits

/-!
A log that is thinner by what an earlier log has, drawn over what the earlier log drew: the graph is the
earlier one, and over it what the whole log draws by itself. New jobs come in the same order.
-/

namespace Compliance

def Edit.isSilent : Edit → Bool
  | .note _ => true
  | .settle .. => true
  | _ => false

theorem Edit.draw_of_isSilent {e : Edit} (h : e.isSilent = true) (g : Graph) : e.draw g = g := by
  cases e with
  | note x => rfl
  | settle t m made => rfl
  | _ => cases h

inductive Thins (seen : List Edit) : List Edit → List Edit → Prop
  | nil : Thins seen [] []
  | keep {long short : List Edit} (e : Edit) : Thins seen long short → Thins seen (e :: long) (e :: short)
  | skip {long short : List Edit} {e : Edit} :
    e ∈ seen ∨ e.isSilent = true → Thins seen long short → Thins seen (e :: long) short

namespace Thins

variable {seen log long short long' short' : List Edit}

theorem refl (log : List Edit) : Thins seen log log := by
  induction log with
  | nil => exact .nil
  | cons e rest ih => exact .keep e ih

theorem none (h : ∀ e ∈ log, e ∈ seen ∨ e.isSilent = true) : Thins seen log [] := by
  induction log with
  | nil => exact .nil
  | cons e rest ih => exact .skip (h e List.mem_cons_self) (ih fun x hx => h x (List.mem_cons_of_mem _ hx))

theorem append (h : Thins seen long short) (h' : Thins seen long' short') :
    Thins seen (long ++ long') (short ++ short') := by
  induction h with
  | nil => exact h'
  | keep e _ ih => exact .keep e ih
  | skip he _ ih => exact .skip he ih

end Thins

def Graph.backing (g : Graph) : List (Identity × Mrn) := g.jobs.filterMap fun j => j.origin.map fun o => (j.identity, o.1)

def Edit.backing : Edit → List (Identity × Mrn)
  | .leaf role q c _ => [(Draft.leafIdentity role q c, q.mrn)]
  | _ => []

namespace Graph

variable {g : Graph} {i : Identity} {e : Edit}

instance : Decidable (g.Has i) := decidable_of_iff _ find?_isSome_iff

theorem mem_backing {m : Mrn} : (i, m) ∈ g.backing ↔ ∃ id, g.Backed i m id := by
  simp only [backing, List.mem_filterMap, Option.map_eq_some_iff, Prod.mk.injEq, Prod.exists, Backed, Holds]
  constructor
  · rintro ⟨j, hj, n, id, ho, hi, rfl⟩
    exact ⟨id, j, hj, hi, ho⟩
  · rintro ⟨id, j, hj, hi, ho⟩
    exact ⟨j, hj, m, id, ho, hi, rfl⟩

theorem modify_backing {f : Job → Job} (hf : ∀ j, (f j).identity = j.identity) (ho : ∀ j, (f j).origin = j.origin) :
    (g.modify i f).backing = g.backing := by
  simp only [backing, modify, List.filterMap_map]
  apply List.filterMap_congr
  intro j _
  simp only [Function.comp_apply]
  split
  · rw [hf, ho]
  · rfl

theorem addMrns_backing (ms : List Mrn) : (g.addMrns i ms).backing = g.backing :=
  modify_backing (fun _ => rfl) fun _ => rfl

theorem addDatapoints_backing (cs : List Checksum) : (g.addDatapoints i cs).backing = g.backing :=
  modify_backing (fun _ => rfl) fun _ => rfl

theorem ensure_backing (type : JobType) (scoring : ScoringSystem) : (g.ensure i type scoring).backing = g.backing := by
  unfold ensure
  split
  · rfl
  · simp [backing]

theorem connect_backing (c : Identity) (w : Impact) : (g.connect i c w).backing = g.backing := by
  unfold connect
  split
  · rfl
  · rw [modify_backing, modify_backing]
    · exact fun _ => rfl
    · exact fun _ => rfl
    · exact fun _ => rfl
    · exact fun _ => rfl

theorem connectAll_backing (ls : List (Identity × Impact)) : (g.connectAll i ls).backing = g.backing := by
  induction ls generalizing g with
  | nil => rfl
  | cons l rest ih => exact ih.trans (connect_backing ..)

theorem raise_backing (type : JobType) (scoring : ScoringSystem) (ms : List Mrn) (ls : List (Identity × Impact)) :
    (g.raise i type scoring ms ls).backing = g.backing := by
  rw [raise, connectAll_backing, addMrns_backing, ensure_backing]

theorem plant_backing (hu : g.Unique) (hb : g.Has i → i ∈ g.backing.map Prod.fst) (type : JobType) (ms : List Mrn)
    (m : Mrn) (id : CodeId) (cs : List Checksum) :
    (g.plant i type ms m id cs).backing = g.backing ++ if g.Has i then [] else [(i, m)] := by
  have horder : (g.plant i type ms m id cs).backing = ((g.ensure i type .unspecified).setOrigin i m id).backing := by
    rw [plant, addDatapoints_backing]
    simp only [backing, setOrigin, addMrns, modify, List.map_map, List.filterMap_map]
    apply List.filterMap_congr
    intro j _
    simp only [Function.comp_apply]
    by_cases hj : j.identity = i <;> simp [hj]
  rw [horder]
  have old : ∀ j ∈ g.jobs, (j.identity = i → j.origin.isSome) →
      (if j.identity = i then { j with origin := j.origin.or (some (m, id)) } else j) = j := by
    intro j _ ho
    split
    · rename_i hi
      obtain ⟨o, ho⟩ := Option.isSome_iff_exists.mp (ho hi)
      cases j
      simp_all
    · rfl
  by_cases hi : g.Has i
  · have hsame : g.setOrigin i m id = g := by
      simp only [setOrigin, modify]
      congr 1
      refine (List.map_congr_left fun j hj => old j hj fun hji => ?_).trans (List.map_id _)
      obtain ⟨⟨_, n⟩, hx, rfl⟩ := List.mem_map.mp (hb hi)
      obtain ⟨id', l, hl, hli, ho⟩ := mem_backing.mp hx
      obtain rfl := hu.eq_of_mem hj hl (hji.trans hli.symm)
      simp [ho]
    have he : g.ensure i type .unspecified = g := if_pos (find?_isSome_iff.mpr hi)
    rw [he, hsame, if_pos hi, List.append_nil]
  · have he : g.ensure i type .unspecified = ⟨g.jobs ++ [{ identity := i, type := type, scoring := .unspecified }]⟩ :=
      if_neg (by simp [find?_isSome_eq_false hi])
    have hmap : g.jobs.map (fun j => if j.identity = i then { j with origin := j.origin.or (some (m, id)) } else j) = g.jobs := by
      refine (List.map_congr_left fun j hj => old j hj fun hji => ?_).trans (List.map_id _)
      exact absurd ⟨j, hj, hji, trivial⟩ hi
    rw [he, if_neg hi]
    simp only [backing, setOrigin, modify, List.map_append, hmap, List.filterMap_append, List.map_cons, List.map_nil,
      ↓reduceIte, List.filterMap_cons, List.filterMap_nil, Option.none_or, Option.map_some]

theorem draw_backing (hu : g.Unique) (hb : ∀ x ∈ e.backing, g.Has x.1 → x.1 ∈ g.backing.map Prod.fst) :
    (e.draw g).backing = g.backing ++ e.backing.filter fun x => ¬g.Has x.1 := by
  cases e with
  | leaf role q c k =>
    have hb' := hb _ List.mem_cons_self
    rw [Edit.draw, plant_backing hu hb']
    simp only [Edit.backing]
    by_cases hi : g.Has (Draft.leafIdentity role q c) <;> simp [hi]
  | composite role q vs =>
    simp only [Edit.draw, Edit.backing, List.filter_nil, List.append_nil]
    split
    · rfl
    · exact raise_backing ..
  | structural m t sc ls =>
    simp only [Edit.draw, Edit.backing, List.filter_nil, List.append_nil]
    split
    · rfl
    · exact raise_backing ..
  | connect p c w => simp [Edit.draw, Edit.backing, connect_backing]
  | _ => simp [Edit.draw, Edit.backing]

theorem starts_eq_backing (h : ∀ j ∈ g.jobs, j.origin.isSome → j.type.isQuery = true) :
    g.starts = g.backing.map Prod.snd := by
  simp only [starts, backing, List.map_filterMap, List.filterMap_filter]
  apply List.filterMap_congr
  intro j hj
  cases ho : j.origin with
  | none => simp
  | some o => simp [h j hj (by simp [ho])]

end Graph

section

variable (only : Identity → Prop)

def Edit.Reserves (e : Edit) : Prop :=
  (∀ x ∈ e.backing, only x.1) ∧ ∀ i t sc, only i → e.Makes i t sc → i ∈ e.backing.map Prod.fst

def Graph.Reserves (g : Graph) : Prop := ∀ i, only i → g.Has i → i ∈ g.backing.map Prod.fst

end

namespace Graph

variable {g base a : Graph} {e : Edit} {only : Identity → Prop} {seen log long short : List Edit}

theorem Reserves.draw (h : g.Reserves only) (hu : g.Unique) (he : e.Reserves only) : (e.draw g).Reserves only := by
  intro i hi hg
  rw [draw_backing hu fun x hx => h x.1 (he.1 x hx), List.map_append]
  by_cases hold : g.Has i
  · exact List.mem_append_left _ (h i hi hold)
  · rcases (draw_has hu).mp hg with hg | ⟨t, sc, hm⟩
    · exact absurd hg hold
    · obtain ⟨x, hx, rfl⟩ := List.mem_map.mp (he.2 i t sc hi hm)
      exact List.mem_append_right _ (List.mem_map_of_mem (List.mem_filter.mpr ⟨hx, by simpa using hold⟩))

theorem Reserves.drawAll (h : g.Reserves only) (hu : g.Unique) (he : ∀ e ∈ log, e.Reserves only) :
    (g.drawAll log).Reserves only := by
  induction log generalizing g with
  | nil => exact h
  | cons e rest ih =>
    exact ih (h.draw hu (he e List.mem_cons_self)) (draw_unique hu e) fun x hx => he x (List.mem_cons_of_mem _ hx)

structure Laid (base a g : Graph) : Prop where
  has : ∀ i, g.Has i ↔ base.Has i ∨ a.Has i
  typed : ∀ i t sc, g.Typed i t sc ↔ base.Typed i t sc ∨ ¬base.Has i ∧ a.Typed i t sc
  edge : ∀ i c, g.Edge i c ↔ base.Edge i c ∨ a.Edge i c
  backing : g.backing = base.backing ++ a.backing.filter fun x => ¬base.Has x.1

theorem Laid.keep (h : Laid base a g) (hg : g.Unique) (ha : a.Unique) (hgg : e.Grounded g) (hag : e.Grounded a)
    (hgr : g.Reserves only) (har : a.Reserves only) (he : e.Reserves only) : Laid base (e.draw a) (e.draw g) where
  has i := by
    rw [draw_has hg, draw_has ha, h.has, or_assoc]
  typed i t sc := by
    rw [draw_typed hg, draw_typed ha, h.typed, h.has]
    tauto
  edge i c := by
    rw [draw_edge hg hgg, draw_edge ha hag, h.edge, or_assoc]
  backing := by
    rw [draw_backing hg fun x hx => hgr x.1 (he.1 x hx), draw_backing ha fun x hx => har x.1 (he.1 x hx), h.backing,
      List.filter_append, List.append_assoc, List.filter_filter]
    congr 2
    apply List.filter_congr
    intro x _
    simp [h.has]

theorem Laid.skip (h : Laid base a g) (ha : a.Unique) (hag : e.Grounded a) (har : a.Reserves only)
    (he : e.Reserves only) (hm : ∀ i t sc, e.Makes i t sc → base.Has i) (ht : ∀ i c w, e.Ties i c w → base.Edge i c) :
    Laid base (e.draw a) g where
  has i := by
    rw [draw_has ha, h.has]
    constructor
    · rintro (hi | hi)
      · exact .inl hi
      · exact .inr (.inl hi)
    · rintro (hi | hi | ⟨t, sc, hi⟩)
      · exact .inl hi
      · exact .inr hi
      · exact .inl (hm i t sc hi)
  typed i t sc := by
    rw [draw_typed ha, h.typed]
    constructor
    · rintro (hi | ⟨hn, hi⟩)
      · exact .inl hi
      · exact .inr ⟨hn, .inl hi⟩
    · rintro (hi | ⟨hn, hi | ⟨-, hi⟩⟩)
      · exact .inl hi
      · exact .inr ⟨hn, hi⟩
      · exact absurd (hm i t sc hi) hn
  edge i c := by
    rw [draw_edge ha hag, h.edge]
    constructor
    · rintro (hi | hi)
      · exact .inl hi
      · exact .inr (.inl hi)
    · rintro (hi | hi | ⟨w, hi⟩)
      · exact .inl hi
      · exact .inr hi
      · exact .inl (ht i c w hi)
  backing := by
    -- a leaf that is left out stands in the base, so the filter drops it here as well
    have hnone : (e.backing.filter fun x => ¬a.Has x.1).filter (fun x => ¬base.Has x.1) = [] := by
      apply List.filter_eq_nil_iff.mpr
      intro x hx
      have hx := (List.mem_filter.mp hx).1
      cases e with
      | leaf role q c k =>
        obtain rfl := List.mem_singleton.mp hx
        simpa using hm _ _ _ ⟨rfl, rfl, rfl⟩
      | _ => cases hx
    rw [draw_backing ha fun x hx => har x.1 (he.1 x hx), List.filter_append, hnone, List.append_nil, h.backing]

theorem Laid.drawAll (h : Laid base a g) (ht : Thins seen long short) (hg : g.Unique) (ha : a.Unique)
    (hground : ∀ e ∈ long, e.Grounded g ∧ e.Grounded a) (hgr : g.Reserves only) (har : a.Reserves only)
    (he : ∀ e ∈ long, e.Reserves only)
    (hseen : ∀ e ∈ seen, (∀ i t sc, e.Makes i t sc → base.Has i) ∧ ∀ i c w, e.Ties i c w → base.Edge i c) :
    Laid base (a.drawAll long) (g.drawAll short) := by
  induction ht generalizing g a with
  | nil => exact h
  | keep e _ ih =>
    obtain ⟨hgg, hag⟩ := hground e List.mem_cons_self
    have he' := he e List.mem_cons_self
    refine ih (h.keep hg ha hgg hag hgr har he') (draw_unique hg e) (draw_unique ha e) ?_ (hgr.draw hg he')
      (har.draw ha he') fun x hx => he x (List.mem_cons_of_mem _ hx)
    intro x hx
    obtain ⟨hxg, hxa⟩ := hground x (List.mem_cons_of_mem _ hx)
    exact ⟨hxg.draw hg e, hxa.draw ha e⟩
  | @skip long short e hskip _ ih =>
    obtain ⟨hgg, hag⟩ := hground e List.mem_cons_self
    have he' := he e List.mem_cons_self
    have hlaid : Laid base (e.draw a) g := by
      -- left out is what the base has seen, or what draws nothing
      rcases hskip with hs | hs
      · exact h.skip ha hag har he' (hseen e hs).1 (hseen e hs).2
      · rw [Edit.draw_of_isSilent hs]
        exact h
    refine ih hlaid hg (draw_unique ha e) ?_ hgr (har.draw ha he') fun x hx => he x (List.mem_cons_of_mem _ hx)
    intro x hx
    obtain ⟨hxg, hxa⟩ := hground x (List.mem_cons_of_mem _ hx)
    exact ⟨hxg, hxa.draw ha e⟩

end Graph

end Compliance
