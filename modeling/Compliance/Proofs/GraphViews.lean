import Compliance.Report.Graph
import Mathlib.Data.List.Nodup
import Mathlib.Logic.Relation

namespace Compliance

namespace Graph

def Holds (g : Graph) (i : Identity) (p : Job → Prop) : Prop := ∃ j ∈ g.jobs, j.identity = i ∧ p j

def Has (g : Graph) (i : Identity) : Prop := g.Holds i fun _ => True

def Typed (g : Graph) (i : Identity) (type : JobType) (scoring : ScoringSystem) : Prop :=
  g.Holds i fun j => j.type = type ∧ j.scoring = scoring

def Backed (g : Graph) (i : Identity) (m : Mrn) (id : CodeId) : Prop :=
  g.Holds i fun j => j.origin = some (m, id)

def Weighs (g : Graph) (i c : Identity) (impact : Impact) : Prop :=
  g.Holds i fun j => (c, impact) ∈ j.children

def Edge (g : Graph) (i c : Identity) : Prop := g.Holds i fun j => c ∈ j.children.map Prod.fst

def Parent (g : Graph) (i p : Identity) : Prop := g.Holds i fun j => p ∈ j.parents

def Reaches (g : Graph) : Identity → Identity → Prop := Relation.ReflTransGen g.Edge

def Unique (g : Graph) : Prop := (g.jobs.map (·.identity)).Nodup

instance {g : Graph} {i : Identity} {p : Job → Prop} [DecidablePred p] : Decidable (g.Holds i p) :=
  inferInstanceAs (Decidable (∃ j ∈ g.jobs, j.identity = i ∧ p j))

instance {g : Graph} {i c : Identity} : Decidable (g.Edge i c) :=
  inferInstanceAs (Decidable (g.Holds i fun j => c ∈ j.children.map Prod.fst))

variable {g : Graph} {i k c : Identity} {p q : Job → Prop}

theorem Holds.imp (h : g.Holds i p) (hpq : ∀ j, p j → q j) : g.Holds i q := by
  obtain ⟨j, hj, hi, hp⟩ := h
  exact ⟨j, hj, hi, hpq j hp⟩

theorem Holds.has (h : g.Holds i p) : g.Has i := h.imp fun _ _ => trivial

theorem holds_congr (h : ∀ j, j.identity = i → (p j ↔ q j)) : g.Holds i p ↔ g.Holds i q := by
  constructor
  · rintro ⟨j, hj, hi, hp⟩
    exact ⟨j, hj, hi, (h j hi).mp hp⟩
  · rintro ⟨j, hj, hi, hq⟩
    exact ⟨j, hj, hi, (h j hi).mpr hq⟩

theorem Unique.eq_of_mem (h : g.Unique) {j l : Job} (hj : j ∈ g.jobs) (hl : l ∈ g.jobs)
    (he : j.identity = l.identity) : j = l :=
  List.inj_on_of_nodup_map h hj hl he

theorem Unique.holds_and (h : g.Unique) (hp : g.Holds i p) (hq : g.Holds i q) :
    g.Holds i fun j => p j ∧ q j := by
  obtain ⟨j, hj, hi, hp⟩ := hp
  obtain ⟨l, hl, hi', hq⟩ := hq
  obtain rfl := h.eq_of_mem hj hl (hi.trans hi'.symm)
  exact ⟨j, hj, hi, hp, hq⟩

theorem has_iff_mem : g.Has i ↔ i ∈ g.jobs.map (·.identity) := by
  simp [Has, Holds]

theorem edge_iff : g.Edge i c ↔ ∃ impact, g.Weighs i c impact := by
  constructor
  · rintro ⟨j, hj, hi, hc⟩
    obtain ⟨⟨c, w⟩, hw, rfl⟩ := List.mem_map.mp hc
    exact ⟨w, j, hj, hi, hw⟩
  · rintro ⟨w, j, hj, hi, hw⟩
    exact ⟨j, hj, hi, List.mem_map.mpr ⟨_, hw, rfl⟩⟩

theorem find?_isSome_iff : (g.find? i).isSome = true ↔ g.Has i := by
  simp [find?, Has, Holds, List.find?_isSome]

theorem find?_isSome_eq_false (h : ¬g.Has i) : (g.find? i).isSome = false := by
  rw [← find?_isSome_iff] at h
  exact Bool.eq_false_iff.mpr h

theorem find?_eq_some (hu : g.Unique) {j : Job} : g.find? i = some j ↔ j ∈ g.jobs ∧ j.identity = i := by
  constructor
  · intro h
    exact ⟨List.mem_of_find?_eq_some h, by simpa using List.find?_some h⟩
  · rintro ⟨hj, rfl⟩
    obtain ⟨l, hl⟩ := Option.isSome_iff_exists.mp (find?_isSome_iff.mpr ⟨j, hj, rfl, trivial⟩)
    have hm : l ∈ g.jobs := List.mem_of_find?_eq_some hl
    have hi : l.identity = j.identity := by simpa using List.find?_some hl
    rw [hl, hu.eq_of_mem hm hj hi]

theorem hasEdge_iff (hu : g.Unique) : g.hasEdge i c = true ↔ g.Edge i c := by
  unfold hasEdge
  cases hf : g.find? i with
  | none =>
    have hn : ¬g.Has i := by simp [← find?_isSome_iff, hf]
    simp only [Bool.false_eq_true, false_iff]
    exact fun h => hn (Holds.has h)
  | some j =>
    obtain ⟨hj, hi⟩ := (find?_eq_some hu).mp hf
    constructor
    · intro h
      exact ⟨j, hj, hi, by simpa using h⟩
    · rintro ⟨l, hl, hi', hc⟩
      obtain rfl := hu.eq_of_mem hj hl (hi.trans hi'.symm)
      simpa using hc

theorem ensure_holds {type : JobType} {scoring : ScoringSystem} :
    (g.ensure i type scoring).Holds k p ↔ g.Holds k p ∨
      k = i ∧ ¬g.Has i ∧ p { identity := i, type := type, scoring := scoring } := by
  unfold ensure
  by_cases h : g.Has i
  · simp [find?_isSome_iff.mpr h, h]
  · simp only [find?_isSome_eq_false h, Bool.false_eq_true, ↓reduceIte, Holds, List.mem_append, List.mem_singleton, h,
      not_false_eq_true, true_and]
    constructor
    · rintro ⟨j, hj | rfl, hk, hp⟩
      · exact .inl ⟨j, hj, hk, hp⟩
      · exact .inr ⟨hk.symm, hp⟩
    · rintro (⟨j, hj, hk, hp⟩ | ⟨rfl, hp⟩)
      · exact ⟨j, .inl hj, hk, hp⟩
      · exact ⟨_, .inr rfl, rfl, hp⟩

theorem ensure_unique {type : JobType} {scoring : ScoringSystem} (h : g.Unique) :
    (g.ensure i type scoring).Unique := by
  unfold ensure
  by_cases hi : g.Has i
  · simpa [find?_isSome_iff.mpr hi] using h
  · have hm : i ∉ g.jobs.map (·.identity) := fun hm => hi (has_iff_mem.mpr hm)
    simp only [find?_isSome_eq_false hi, Bool.false_eq_true, ↓reduceIte, Unique, List.map_append, List.map_cons, List.map_nil]
    exact List.nodup_append.mpr ⟨h, List.nodup_singleton _, by
      rintro a ha b hb rfl
      exact hm (List.mem_singleton.mp hb ▸ ha)⟩

theorem modify_holds {f : Job → Job} (hf : ∀ j, (f j).identity = j.identity) :
    (g.modify i f).Holds k p ↔ g.Holds k fun j => if k = i then p (f j) else p j := by
  have hid : ∀ j : Job, (if j.identity = i then f j else j).identity = j.identity := by
    intro j; split <;> simp [hf]
  simp only [Holds, modify, List.mem_map]
  constructor
  · rintro ⟨_, ⟨j, hj, rfl⟩, hk, hp⟩
    rw [hid] at hk
    refine ⟨j, hj, hk, ?_⟩
    by_cases h : k = i <;> simpa [hk, h] using hp
  · rintro ⟨j, hj, hk, hp⟩
    refine ⟨_, ⟨j, hj, rfl⟩, by rw [hid, hk], ?_⟩
    by_cases h : k = i <;> simpa [hk, h] using hp

theorem modify_unique {f : Job → Job} (hf : ∀ j, (f j).identity = j.identity) (h : g.Unique) :
    (g.modify i f).Unique := by
  have hm : (g.modify i f).jobs.map (·.identity) = g.jobs.map (·.identity) := by
    simp only [modify, List.map_map]
    apply List.map_congr_left
    intro j _
    simp only [Function.comp_apply]
    split <;> simp [hf]
  simpa [Unique, hm] using h

theorem modify_holds_of_iff {f : Job → Job} (hf : ∀ j, (f j).identity = j.identity)
    (hp : ∀ j, p (f j) ↔ p j) : (g.modify i f).Holds k p ↔ g.Holds k p := by
  rw [modify_holds hf]
  apply holds_congr
  intro j _
  split
  · exact hp j
  · rfl

theorem forall_modify {f : Job → Job} (hf : ∀ j, j.identity = i → p j → p (f j)) (h : ∀ j ∈ g.jobs, p j) :
    ∀ j ∈ (g.modify i f).jobs, p j := by
  intro x hx
  obtain ⟨j, hj, rfl⟩ := List.mem_map.mp hx
  split
  · rename_i hi
    exact hf j hi (h j hj)
  · exact h j hj

section Marks

variable {m : Mrn} {id : CodeId} {type : JobType} {scoring : ScoringSystem} {impact : Impact}

theorem addMrns_holds {ms : List Mrn} (hp : ∀ j l, p { j with mrns := l } ↔ p j) :
    (g.addMrns i ms).Holds k p ↔ g.Holds k p :=
  modify_holds_of_iff (fun _ => rfl) fun j => hp j _

theorem addDatapoints_holds {cs : List Checksum} (hp : ∀ j l, p { j with datapoints := l } ↔ p j) :
    (g.addDatapoints i cs).Holds k p ↔ g.Holds k p :=
  modify_holds_of_iff (fun _ => rfl) fun j => hp j _

theorem setOrigin_holds (hp : ∀ j o, p { j with origin := o } ↔ p j) :
    (g.setOrigin i m id).Holds k p ↔ g.Holds k p :=
  modify_holds_of_iff (fun _ => rfl) fun j => hp j _

theorem setOrigin_backed {n : Mrn} {id' : CodeId} : (g.setOrigin i m id).Backed k n id' ↔
    g.Holds k fun j => if k = i then j.origin.or (some (m, id)) = some (n, id') else j.origin = some (n, id') :=
  modify_holds fun _ => rfl

end Marks

section Connect

variable {a : Identity} {impact w : Impact}

theorem connect_of_edge (hu : g.Unique) (h : g.Edge a c) : g.connect a c w = g := by
  simp [connect, (hasEdge_iff hu).mpr h]

theorem connect_holds (hu : g.Unique) (h : ¬g.Edge a c) : (g.connect a c w).Holds k p ↔
    g.Holds k fun j => p { j with
      children := if k = a then j.children ++ [(c, w)] else j.children
      parents := if k = c then j.parents ++ [a] else j.parents } := by
  have hf : g.hasEdge a c = false := Bool.eq_false_iff.mpr fun he => h ((hasEdge_iff hu).mp he)
  simp only [connect, hf, Bool.false_eq_true, ↓reduceIte]
  rw [modify_holds, modify_holds]
  · apply holds_congr
    intro j _
    split_ifs <;> rfl
  · exact fun _ => rfl
  · exact fun _ => rfl

theorem connect_unique (hu : g.Unique) : (g.connect a c w).Unique := by
  unfold connect
  split
  · exact hu
  · exact modify_unique (fun _ => rfl) (modify_unique (fun _ => rfl) hu)

theorem connect_holds_of_iff (hu : g.Unique) (hp : ∀ j cs ps, p { j with children := cs, parents := ps } ↔ p j) :
    (g.connect a c w).Holds k p ↔ g.Holds k p := by
  by_cases h : g.Edge a c
  · rw [connect_of_edge hu h]
  · rw [connect_holds hu h]
    exact holds_congr fun j _ => hp j _ _

theorem connect_has (hu : g.Unique) : (g.connect a c w).Has k ↔ g.Has k :=
  connect_holds_of_iff hu fun _ _ _ => Iff.rfl

theorem connect_typed (hu : g.Unique) {t : JobType} {sc : ScoringSystem} :
    (g.connect a c w).Typed k t sc ↔ g.Typed k t sc :=
  connect_holds_of_iff hu fun _ _ _ => Iff.rfl

theorem connect_backed (hu : g.Unique) {m : Mrn} {id : CodeId} :
    (g.connect a c w).Backed k m id ↔ g.Backed k m id :=
  connect_holds_of_iff hu fun _ _ _ => Iff.rfl

theorem connect_weighs (hu : g.Unique) : (g.connect a c w).Weighs i k impact ↔
    g.Weighs i k impact ∨ i = a ∧ k = c ∧ impact = w ∧ g.Has a ∧ ¬g.Edge a c := by
  by_cases h : g.Edge a c
  · simp [connect_of_edge hu h, h]
  · simp only [Weighs, connect_holds hu h, h, not_false_eq_true, and_true]
    by_cases hi : i = a
    · subst hi
      simp only [↓reduceIte, List.mem_append, List.mem_singleton, Prod.mk.injEq, true_and]
      constructor
      · rintro ⟨j, hj, hi, hw | ⟨hk, hw⟩⟩
        · exact .inl ⟨j, hj, hi, hw⟩
        · exact .inr ⟨hk, hw, j, hj, hi, trivial⟩
      · rintro (⟨j, hj, hi, hw⟩ | ⟨hk, hw, j, hj, hi, _⟩)
        · exact ⟨j, hj, hi, .inl hw⟩
        · exact ⟨j, hj, hi, .inr ⟨hk, hw⟩⟩
    · simp [hi]

theorem connect_edge (hu : g.Unique) :
    (g.connect a c w).Edge i k ↔ g.Edge i k ∨ i = a ∧ k = c ∧ g.Has a := by
  constructor
  · intro h
    obtain ⟨x, hx⟩ := edge_iff.mp h
    rcases (connect_weighs hu).mp hx with hx | ⟨hi, hk, _, ha, _⟩
    · exact .inl (edge_iff.mpr ⟨x, hx⟩)
    · exact .inr ⟨hi, hk, ha⟩
  · rintro (h | ⟨rfl, rfl, ha⟩)
    · obtain ⟨x, hx⟩ := edge_iff.mp h
      exact edge_iff.mpr ⟨x, (connect_weighs hu).mpr (.inl hx)⟩
    · by_cases h : g.Edge i k
      · rwa [connect_of_edge hu h]
      · exact edge_iff.mpr ⟨w, (connect_weighs hu).mpr (.inr ⟨rfl, rfl, rfl, ha, h⟩)⟩

theorem connect_parent (hu : g.Unique) : (g.connect a c w).Parent i k ↔
    g.Parent i k ∨ i = c ∧ k = a ∧ g.Has c ∧ ¬g.Edge a c := by
  by_cases h : g.Edge a c
  · simp [connect_of_edge hu h, h]
  · simp only [Parent, connect_holds hu h, h, not_false_eq_true, and_true]
    by_cases hi : i = c
    · subst hi
      simp only [↓reduceIte, List.mem_append, List.mem_singleton, true_and]
      constructor
      · rintro ⟨j, hj, hi, hw | hk⟩
        · exact .inl ⟨j, hj, hi, hw⟩
        · exact .inr ⟨hk, j, hj, hi, trivial⟩
      · rintro (⟨j, hj, hi, hw⟩ | ⟨hk, j, hj, hi, _⟩)
        · exact ⟨j, hj, hi, .inl hw⟩
        · exact ⟨j, hj, hi, .inr hk⟩
    · simp [hi]

theorem connectAll_unique (hu : g.Unique) (ls : List (Identity × Impact)) : (g.connectAll a ls).Unique := by
  induction ls generalizing g with
  | nil => exact hu
  | cons l rest ih => exact ih (connect_unique hu)

theorem connectAll_holds_of_iff (hu : g.Unique) (ls : List (Identity × Impact))
    (hp : ∀ j cs ps, p { j with children := cs, parents := ps } ↔ p j) :
    (g.connectAll a ls).Holds k p ↔ g.Holds k p := by
  induction ls generalizing g with
  | nil => rfl
  | cons l rest ih => exact (ih (connect_unique hu)).trans (connect_holds_of_iff hu hp)

theorem connectAll_weighs (hu : g.Unique) (ha : g.Has a) (ls : List (Identity × Impact)) :
    (g.connectAll a ls).Weighs i k impact ↔
      g.Weighs i k impact ∨ i = a ∧ ¬g.Edge a k ∧ ls.lookup k = some impact := by
  induction ls generalizing g with
  | nil => simp [connectAll]
  | cons l rest ih =>
    have ha' : (g.connect a l.1 l.2).Has a := (connect_has hu).mpr ha
    have hstep : (g.connectAll a (l :: rest)) = (g.connect a l.1 l.2).connectAll a rest := rfl
    rw [hstep, ih (connect_unique hu) ha', connect_weighs hu, connect_edge hu, List.lookup_cons]
    by_cases hk : k = l.1
    · subst hk
      simp only [beq_self_eq_true, Option.some.injEq]
      by_cases he : g.Edge a l.1 <;> simp [he, ha, eq_comm]
    · have hb : (k == l.1) = false := by simpa using hk
      simp [hk, hb]

theorem connectAll_edge (hu : g.Unique) (ha : g.Has a) (ls : List (Identity × Impact)) :
    (g.connectAll a ls).Edge i k ↔ g.Edge i k ∨ i = a ∧ k ∈ ls.map Prod.fst := by
  induction ls generalizing g with
  | nil => simp [connectAll]
  | cons l rest ih =>
    have ha' : (g.connect a l.1 l.2).Has a := (connect_has hu).mpr ha
    have hstep : (g.connectAll a (l :: rest)) = (g.connect a l.1 l.2).connectAll a rest := rfl
    rw [hstep, ih (connect_unique hu) ha', connect_edge hu]
    simp only [List.map_cons, List.mem_cons, ha, and_true]
    constructor
    · rintro ((h | ⟨hi, hk⟩) | ⟨hi, hk⟩)
      · exact .inl h
      · exact .inr ⟨hi, .inl hk⟩
      · exact .inr ⟨hi, .inr hk⟩
    · rintro (h | ⟨hi, hk | hk⟩)
      · exact .inl (.inl h)
      · exact .inl (.inr ⟨hi, hk⟩)
      · exact .inr ⟨hi, hk⟩

end Connect

def raise (g : Graph) (i : Identity) (type : JobType) (scoring : ScoringSystem) (ms : List Mrn)
    (ls : List (Identity × Impact)) : Graph :=
  ((g.ensure i type scoring).addMrns i ms).connectAll i ls

def plant (g : Graph) (i : Identity) (type : JobType) (ms : List Mrn) (m : Mrn) (id : CodeId)
    (cs : List Checksum) : Graph :=
  (((g.ensure i type .unspecified).addMrns i ms).setOrigin i m id).addDatapoints i cs

section Draw

variable {type t : JobType} {scoring sc : ScoringSystem} {ms : List Mrn} {ls : List (Identity × Impact)}
  {m n : Mrn} {id id' : CodeId} {cs : List Checksum} {impact : Impact}

theorem addMrns_unique (hu : g.Unique) : (g.addMrns i ms).Unique := modify_unique (fun _ => rfl) hu

theorem ensure_has : (g.ensure i type scoring).Has k ↔ g.Has k ∨ k = i := by
  rw [Has, ensure_holds]
  constructor
  · rintro (h | ⟨h, _⟩)
    · exact .inl h
    · exact .inr h
  · rintro (h | rfl)
    · exact .inl h
    · by_cases h : g.Has k
      · exact .inl h
      · exact .inr ⟨rfl, h, trivial⟩

theorem ensure_typed : (g.ensure i type scoring).Typed k t sc ↔
    g.Typed k t sc ∨ k = i ∧ ¬g.Has i ∧ t = type ∧ sc = scoring := by
  rw [Typed, ensure_holds, eq_comm (a := t), eq_comm (a := sc)]
  rfl

theorem ensure_weighs : (g.ensure i type scoring).Weighs k c impact ↔ g.Weighs k c impact := by
  rw [Weighs, ensure_holds]
  simp [Weighs]

theorem ensure_edge : (g.ensure i type scoring).Edge k c ↔ g.Edge k c := by
  rw [Edge, ensure_holds]
  simp [Edge]

theorem ensure_parent : (g.ensure i type scoring).Parent k c ↔ g.Parent k c := by
  rw [Parent, ensure_holds]
  simp [Parent]

theorem ensure_backed : (g.ensure i type scoring).Backed k m id ↔ g.Backed k m id := by
  rw [Backed, ensure_holds]
  simp [Backed]

theorem raise_unique (hu : g.Unique) : (g.raise i type scoring ms ls).Unique :=
  connectAll_unique (addMrns_unique (ensure_unique hu)) ls

theorem raise_holds_of_iff (hu : g.Unique)
    (hp : ∀ j l cs ps, p { j with mrns := l, children := cs, parents := ps } ↔ p j) :
    (g.raise i type scoring ms ls).Holds k p ↔ (g.ensure i type scoring).Holds k p := by
  rw [raise, connectAll_holds_of_iff (addMrns_unique (ensure_unique hu)) ls fun j cs ps => hp j j.mrns cs ps]
  exact addMrns_holds fun j l => hp j l j.children j.parents

theorem raise_has (hu : g.Unique) : (g.raise i type scoring ms ls).Has k ↔ g.Has k ∨ k = i :=
  (raise_holds_of_iff hu fun _ _ _ _ => Iff.rfl).trans ensure_has

theorem raise_typed (hu : g.Unique) : (g.raise i type scoring ms ls).Typed k t sc ↔
    g.Typed k t sc ∨ k = i ∧ ¬g.Has i ∧ t = type ∧ sc = scoring :=
  (raise_holds_of_iff hu fun _ _ _ _ => Iff.rfl).trans ensure_typed

theorem raise_backed (hu : g.Unique) : (g.raise i type scoring ms ls).Backed k m id ↔ g.Backed k m id :=
  (raise_holds_of_iff hu fun _ _ _ _ => Iff.rfl).trans ensure_backed

theorem raise_weighs (hu : g.Unique) : (g.raise i type scoring ms ls).Weighs k c impact ↔
    g.Weighs k c impact ∨ k = i ∧ ¬g.Edge i c ∧ ls.lookup c = some impact := by
  have hu' : ((g.ensure i type scoring).addMrns i ms).Unique := addMrns_unique (ensure_unique hu)
  have hw : ∀ {x y w}, ((g.ensure i type scoring).addMrns i ms).Weighs x y w ↔ g.Weighs x y w := by
    intro x y w
    exact (addMrns_holds fun _ _ => Iff.rfl).trans ensure_weighs
  have he : ∀ {x y}, ((g.ensure i type scoring).addMrns i ms).Edge x y ↔ g.Edge x y := by
    intro x y
    exact (addMrns_holds fun _ _ => Iff.rfl).trans ensure_edge
  have hi : ((g.ensure i type scoring).addMrns i ms).Has i :=
    (addMrns_holds fun _ _ => Iff.rfl).mpr (ensure_has.mpr (.inr rfl))
  rw [raise, connectAll_weighs hu' hi, hw, he]

theorem raise_edge (hu : g.Unique) : (g.raise i type scoring ms ls).Edge k c ↔
    g.Edge k c ∨ k = i ∧ c ∈ ls.map Prod.fst := by
  have hi : ((g.ensure i type scoring).addMrns i ms).Has i :=
    (addMrns_holds fun _ _ => Iff.rfl).mpr (ensure_has.mpr (.inr rfl))
  rw [raise, connectAll_edge (addMrns_unique (ensure_unique hu)) hi]
  exact or_congr ((addMrns_holds fun _ _ => Iff.rfl).trans ensure_edge) Iff.rfl

theorem plant_unique (hu : g.Unique) : (g.plant i type ms m id cs).Unique :=
  modify_unique (fun _ => rfl) (modify_unique (fun _ => rfl) (addMrns_unique (ensure_unique hu)))

theorem plant_holds_of_iff
    (hp : ∀ j l ds o, p { j with mrns := l, datapoints := ds, origin := o } ↔ p j) :
    (g.plant i type ms m id cs).Holds k p ↔ (g.ensure i type .unspecified).Holds k p := by
  rw [plant, addDatapoints_holds fun j l => hp j j.mrns l j.origin,
    setOrigin_holds fun j o => hp j j.mrns j.datapoints o]
  exact addMrns_holds fun j l => hp j l j.datapoints j.origin

theorem plant_has : (g.plant i type ms m id cs).Has k ↔ g.Has k ∨ k = i :=
  (plant_holds_of_iff fun _ _ _ _ => Iff.rfl).trans ensure_has

theorem plant_typed : (g.plant i type ms m id cs).Typed k t sc ↔
    g.Typed k t sc ∨ k = i ∧ ¬g.Has i ∧ t = type ∧ sc = .unspecified :=
  (plant_holds_of_iff fun _ _ _ _ => Iff.rfl).trans ensure_typed

theorem plant_weighs : (g.plant i type ms m id cs).Weighs k c impact ↔ g.Weighs k c impact :=
  (plant_holds_of_iff fun _ _ _ _ => Iff.rfl).trans ensure_weighs

theorem plant_backed (hu : g.Unique) : (g.plant i type ms m id cs).Backed k n id' ↔
    g.Backed k n id' ∨ k = i ∧ n = m ∧ id' = id ∧ ∀ n id, ¬g.Backed i n id := by
  have hb : ∀ {x y}, ((g.ensure i type .unspecified).addMrns i ms).Backed i x y ↔ g.Backed i x y := by
    intro x y
    exact (addMrns_holds fun _ _ => Iff.rfl).trans ensure_backed
  have hi : ((g.ensure i type .unspecified).addMrns i ms).Has i :=
    (addMrns_holds fun _ _ => Iff.rfl).mpr (ensure_has.mpr (.inr rfl))
  have hu' : ((g.ensure i type .unspecified).addMrns i ms).Unique := addMrns_unique (ensure_unique hu)
  rw [plant, Backed, addDatapoints_holds fun _ _ => Iff.rfl]
  change Backed _ _ _ _ ↔ _
  rw [setOrigin_backed]
  by_cases hk : k = i
  · subst hk
    simp only [↓reduceIte, true_and, ← hb]
    obtain ⟨j, hj, hji, -⟩ := hi
    have heq : ∀ {q : Job → Prop}, ((g.ensure k type .unspecified).addMrns k ms).Holds k q ↔ q j := by
      intro q
      constructor
      · rintro ⟨l, hl, hli, hq⟩
        rwa [← hu'.eq_of_mem hl hj (hli.trans hji.symm)]
      · exact fun hq => ⟨j, hj, hji, hq⟩
    simp only [Backed, heq]
    cases ho : j.origin with
    | none => simp [eq_comm]
    | some o =>
      simp only [Option.some_or, Option.some.injEq]
      constructor
      · exact fun h => .inl h
      · rintro (h | ⟨-, -, h⟩)
        · exact h
        · exact absurd rfl (h o.1 o.2)
  · simp only [hk, ↓reduceIte, false_and, or_false]
    exact (addMrns_holds fun _ _ => Iff.rfl).trans ensure_backed

end Draw

end Graph

end Compliance
