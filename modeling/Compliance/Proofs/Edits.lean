import Compliance.Plan.Queries
import Compliance.Proofs.GraphViews

/-!
The walk of a plan as a log of edits. Every edit leaves what a graph shows and adds to it only where
nothing stood before: the first type, the first code and the first impact stay.
-/

namespace Compliance

inductive Edit
  | note (e : Event)
  | leaf (role : Role) (q : Query) (c : Code) (above : Option Mrn)
  | composite (role : Role) (q : Query) (variants : List (Mrn × Link))
  | structural (m : Mrn) (type : JobType) (scoring : ScoringSystem) (links : List Link)
  | connect (parent child : Identity) (impact : Impact)
  | settle (type : JobType) (m : Mrn) (made : Bool)
  | weigh (m : Mrn) (magnitude : Float32)

namespace Draft

def settle (d : Draft) (type : JobType) (m : Mrn) (made : Bool) : Draft :=
  match type with
  | .policy => { d with policies := (m, made) :: d.policies }
  | .riskFactor => { d with riskFactors := (m, made) :: d.riskFactors }
  | .framework => { d with frameworks := (m, made) :: d.frameworks }
  | .control => { d with controls := (m, made) :: d.controls }
  | .root | .check | .dataQuery => d

def apply (d : Draft) : Edit → Draft
  | .note e => d.note e
  | .leaf role q c k => (d.leaf role q c k).2
  | .composite role q vs => (d.above role q vs).2
  | .structural m t sc ls => (d.structural m t sc ls).2
  | .connect p c w => { d with graph := d.graph.connect p c w }
  | .settle t m made => d.settle t m made
  | .weigh m x => { d with magnitudes := NameMap.set d.magnitudes m x }

def replay (d : Draft) (log : List Edit) : Draft := log.foldl apply d

@[simp] theorem replay_nil (d : Draft) : d.replay [] = d := rfl

@[simp] theorem replay_cons (d : Draft) (e : Edit) (log : List Edit) :
    d.replay (e :: log) = (d.apply e).replay log := rfl

@[simp] theorem replay_append (d : Draft) (log log' : List Edit) :
    d.replay (log ++ log') = (d.replay log).replay log' := List.foldl_append

end Draft

def Draft.ledger (d : Draft) : JobType → List (Mrn × Bool)
  | .policy => d.policies
  | .riskFactor => d.riskFactors
  | .framework => d.frameworks
  | .control => d.controls
  | .root | .check | .dataQuery => []

def Edit.entries : JobType → Edit → List (Mrn × Bool)
  | .policy, .settle .policy m made => [(m, made)]
  | .riskFactor, .settle .riskFactor m made => [(m, made)]
  | .framework, .settle .framework m made => [(m, made)]
  | .control, .settle .control m made => [(m, made)]
  | _, _ => []

namespace Draft

theorem enter_ledger (d : Draft) (role : Role) (m : Mrn) (i : Identity) (t : JobType) :
    (d.enter role m i).ledger t = d.ledger t := by
  unfold enter
  split
  · rfl
  · cases role <;> cases t <;> rfl

theorem apply_ledger (d : Draft) (e : Edit) (t : JobType) : (d.apply e).ledger t = e.entries t ++ d.ledger t := by
  cases e with
  | leaf role q c k =>
    have he : Edit.entries t (.leaf role q c k) = [] := by cases t <;> rfl
    rw [he, apply, leaf, enter_ledger]
    cases t <;> rfl
  | composite role q vs =>
    have he : Edit.entries t (.composite role q vs) = [] := by cases t <;> rfl
    rw [he, apply, above]
    split
    · rfl
    · rw [enter_ledger]
      cases t <;> rfl
  | structural m t' sc ls =>
    have he : Edit.entries t (.structural m t' sc ls) = [] := by cases t <;> rfl
    rw [he, apply, structural]
    split
    · rfl
    · cases t <;> rfl
  | settle t' m made => cases t' <;> cases t <;> rfl
  | _ => cases t <;> rfl

theorem replay_ledger (d : Draft) (log : List Edit) (t : JobType) :
    (d.replay log).ledger t = log.reverse.flatMap (Edit.entries t) ++ d.ledger t := by
  induction log generalizing d with
  | nil => rfl
  | cons e rest ih =>
    rw [replay_cons, ih, apply_ledger]
    simp

theorem replay_ledger_of_forall {d : Draft} {log : List Edit} {t : JobType} (h : ∀ e ∈ log, e.entries t = []) :
    (d.replay log).ledger t = d.ledger t := by
  have hn : log.reverse.flatMap (Edit.entries t) = [] := by
    apply List.flatMap_eq_nil_iff.mpr
    intro e he
    exact h e (List.mem_reverse.mp he)
  rw [replay_ledger, hn, List.nil_append]

end Draft

def Edit.entered (role : Role) (m : Mrn) : Edit → Option Identity
  | .leaf role' q c _ => if role' = role ∧ q.mrn = m then some (Draft.leafIdentity role' q c) else none
  | .composite role' q vs => if vs ≠ [] ∧ role' = role ∧ q.mrn = m then some (.mrn q.mrn) else none
  | _ => none

namespace Draft

theorem enter_lookup (d : Draft) (role role' : Role) (m n : Mrn) (i : Identity) :
    ((d.enter role' n i).index role).lookup m =
      ((d.index role).lookup m).or (if role' = role ∧ n = m then some i else none) := by
  unfold enter
  split
  · rename_i h
    obtain ⟨j, hj⟩ := Option.isSome_iff_exists.mp h
    by_cases he : role' = role ∧ n = m
    · obtain ⟨rfl, rfl⟩ := he
      simp [hj]
    · simp [he]
  · rename_i h
    have hn : (d.index role').lookup n = none := Option.not_isSome_iff_eq_none.mp h
    by_cases he : role' = role ∧ n = m
    · obtain ⟨rfl, rfl⟩ := he
      rw [hn]
      cases role' <;> simp [index]
    · rw [if_neg he, Option.or_none]
      by_cases hr : role' = role
      · have hb : (m == n) = false := beq_eq_false_iff_ne.mpr fun h => he ⟨hr, h.symm⟩
        subst hr
        cases role' <;> simp [index, List.lookup_cons, hb]
      · cases role' <;> cases role <;> first | rfl | exact absurd rfl hr

theorem apply_lookup (d : Draft) (e : Edit) (role : Role) (m : Mrn) :
    ((d.apply e).index role).lookup m = ((d.index role).lookup m).or (e.entered role m) := by
  have same : ∀ d' : Draft, d'.index role = d.index role →
      (d'.index role).lookup m = ((d.index role).lookup m).or none := by
    intro d' h
    rw [h, Option.or_none]
  cases e with
  | leaf role' q c k => exact (enter_lookup ..).trans (by cases role <;> rfl)
  | composite role' q vs =>
    by_cases hv : vs = []
    · simp [apply, above, Edit.entered, hv]
    · simp only [apply, above, Edit.entered, List.isEmpty_iff, hv, ↓reduceIte, ne_eq, not_false_eq_true, true_and]
      exact (enter_lookup ..).trans (by cases role <;> rfl)
  | structural m' t sc ls =>
    apply same
    simp only [apply, structural]
    split <;> cases role <;> rfl
  | settle t m' made => exact same _ (by cases t <;> cases role <;> rfl)
  | _ => exact same _ (by cases role <;> rfl)

theorem replay_lookup (d : Draft) (log : List Edit) (role : Role) (m : Mrn) :
    ((d.replay log).index role).lookup m = ((d.index role).lookup m).or (log.findSome? (Edit.entered role m)) := by
  induction log generalizing d with
  | nil => simp
  | cons e rest ih =>
    rw [replay_cons, ih, apply_lookup, List.findSome?_cons, Option.or_assoc]
    congr 1
    cases e.entered role m <;> rfl

end Draft

namespace Edit

def draw : Edit → Graph → Graph
  | .leaf role q c k, g =>
    g.plant (Draft.leafIdentity role q c) role.jobType (q.mrn :: k.toList) q.mrn c.id c.checksums
  | .composite role q vs, g =>
    if vs.isEmpty then g
    else g.raise (.mrn q.mrn) role.jobType .unspecified (q.mrn :: vs.map Prod.fst) (vs.map Prod.snd)
  | .structural m t sc ls, g => if ls.isEmpty then g else g.raise (.mrn m) t sc [m] ls
  | .connect p c w, g => g.connect p c w
  | _, g => g

def Makes (e : Edit) (i : Identity) (type : JobType) (scoring : ScoringSystem) : Prop :=
  match e with
  | .leaf role q c _ => i = Draft.leafIdentity role q c ∧ type = role.jobType ∧ scoring = .unspecified
  | .composite role q vs => vs ≠ [] ∧ i = .mrn q.mrn ∧ type = role.jobType ∧ scoring = .unspecified
  | .structural m t sc ls => ls ≠ [] ∧ i = .mrn m ∧ type = t ∧ scoring = sc
  | _ => False

def Ties (e : Edit) (i c : Identity) (impact : Impact) : Prop :=
  match e with
  | .composite _ q vs => i = .mrn q.mrn ∧ (vs.map Prod.snd).lookup c = some impact
  | .structural m _ _ ls => i = .mrn m ∧ ls.lookup c = some impact
  | .connect p k w => i = p ∧ c = k ∧ impact = w
  | _ => False

def Backs (e : Edit) (i : Identity) (m : Mrn) (id : CodeId) : Prop :=
  match e with
  | .leaf role q c _ => i = Draft.leafIdentity role q c ∧ m = q.mrn ∧ id = c.id
  | _ => False

def isNote : Edit → Bool
  | .note _ => true
  | _ => false

def Grounded (g : Graph) : Edit → Prop
  | .connect p _ _ => g.Has p
  | _ => True

end Edit

theorem Draft.enter_graph (d : Draft) (role : Role) (m : Mrn) (i : Identity) :
    (d.enter role m i).graph = d.graph := by
  unfold Draft.enter
  split
  · rfl
  · cases role <;> rfl

theorem Draft.apply_graph (d : Draft) (e : Edit) : (d.apply e).graph = e.draw d.graph := by
  cases e with
  | note e => rfl
  | leaf role q c k => exact Draft.enter_graph ..
  | composite role q vs =>
    simp only [Draft.apply, Draft.above, Edit.draw]
    split
    · rfl
    · exact Draft.enter_graph ..
  | structural m t sc ls =>
    simp only [Draft.apply, Draft.structural, Edit.draw]
    split <;> rfl
  | connect p c w => rfl
  | settle t m made => cases t <;> rfl
  | weigh m x => rfl

namespace Graph

def drawAll (g : Graph) (log : List Edit) : Graph := log.foldl (fun g e => e.draw g) g

@[simp] theorem drawAll_nil (g : Graph) : g.drawAll [] = g := rfl

@[simp] theorem drawAll_cons (g : Graph) (e : Edit) (log : List Edit) :
    g.drawAll (e :: log) = (e.draw g).drawAll log := rfl

@[simp] theorem drawAll_append (g : Graph) (log log' : List Edit) :
    g.drawAll (log ++ log') = (g.drawAll log).drawAll log' := List.foldl_append

end Graph

theorem Draft.replay_graph (d : Draft) (log : List Edit) : (d.replay log).graph = d.graph.drawAll log := by
  induction log generalizing d with
  | nil => rfl
  | cons e rest ih => rw [Draft.replay_cons, ih, Draft.apply_graph, Graph.drawAll_cons]

namespace Graph

variable {g : Graph} {e : Edit} {i c : Identity} {type : JobType} {scoring : ScoringSystem}
  {impact : Impact} {m : Mrn} {id : CodeId} {log : List Edit}

theorem draw_unique (hu : g.Unique) (e : Edit) : (e.draw g).Unique := by
  cases e with
  | leaf role q c k => exact plant_unique hu
  | composite role q vs =>
    simp only [Edit.draw]
    split
    · exact hu
    · exact raise_unique hu
  | structural m t sc ls =>
    simp only [Edit.draw]
    split
    · exact hu
    · exact raise_unique hu
  | connect p c w => exact connect_unique hu
  | _ => exact hu

theorem draw_has (hu : g.Unique) : (e.draw g).Has i ↔ g.Has i ∨ ∃ t sc, e.Makes i t sc := by
  cases e with
  | leaf role q c k => simpa [Edit.draw, Edit.Makes] using plant_has
  | composite role q vs =>
    by_cases h : vs = []
    · simp [Edit.draw, Edit.Makes, h]
    · simpa [Edit.draw, Edit.Makes, h] using raise_has hu
  | structural m t sc ls =>
    by_cases h : ls = []
    · simp [Edit.draw, Edit.Makes, h]
    · simpa [Edit.draw, Edit.Makes, h] using raise_has hu
  | connect p c w => simpa [Edit.draw, Edit.Makes] using connect_has hu
  | _ => simp [Edit.draw, Edit.Makes]

theorem draw_typed (hu : g.Unique) : (e.draw g).Typed i type scoring ↔
    g.Typed i type scoring ∨ ¬g.Has i ∧ e.Makes i type scoring := by
  cases e with
  | leaf role q c k =>
    simp only [Edit.draw, Edit.Makes, plant_typed]
    constructor <;> rintro (h | h) <;> grind
  | composite role q vs =>
    by_cases h : vs = []
    · simp [Edit.draw, Edit.Makes, h]
    · simp only [Edit.draw, Edit.Makes, List.isEmpty_iff, h, ↓reduceIte, raise_typed hu]
      grind
  | structural m t sc ls =>
    by_cases h : ls = []
    · simp [Edit.draw, Edit.Makes, h]
    · simp only [Edit.draw, Edit.Makes, List.isEmpty_iff, h, ↓reduceIte, raise_typed hu]
      grind
  | connect p c w => simpa [Edit.draw, Edit.Makes] using connect_typed hu
  | _ => simp [Edit.draw, Edit.Makes]

theorem draw_backed (hu : g.Unique) : (e.draw g).Backed i m id ↔
    g.Backed i m id ∨ (∀ n id, ¬g.Backed i n id) ∧ e.Backs i m id := by
  cases e with
  | leaf role q c k =>
    simp only [Edit.draw, Edit.Backs, plant_backed hu]
    grind
  | composite role q vs =>
    by_cases h : vs = []
    · simp [Edit.draw, Edit.Backs, h]
    · simpa [Edit.draw, Edit.Backs, h] using raise_backed hu
  | structural m t sc ls =>
    by_cases h : ls = []
    · simp [Edit.draw, Edit.Backs, h]
    · simpa [Edit.draw, Edit.Backs, h] using raise_backed hu
  | connect p c w => simpa [Edit.draw, Edit.Backs] using connect_backed hu
  | _ => simp [Edit.draw, Edit.Backs]

theorem draw_weighs (hu : g.Unique) (hg : e.Grounded g) : (e.draw g).Weighs i c impact ↔
    g.Weighs i c impact ∨ ¬g.Edge i c ∧ e.Ties i c impact := by
  cases e with
  | leaf role q k above => simpa [Edit.draw, Edit.Ties] using plant_weighs
  | composite role q vs =>
    by_cases h : vs = []
    · simp [Edit.draw, Edit.Ties, h]
    · simp only [Edit.draw, Edit.Ties, List.isEmpty_iff, h, ↓reduceIte, raise_weighs hu]
      grind
  | structural m t sc ls =>
    by_cases h : ls = []
    · simp [Edit.draw, Edit.Ties, h]
    · simp only [Edit.draw, Edit.Ties, List.isEmpty_iff, h, ↓reduceIte, raise_weighs hu]
      grind
  | connect p k w =>
    simp only [Edit.draw, Edit.Ties, connect_weighs hu, Edit.Grounded] at hg ⊢
    grind
  | _ => simp [Edit.draw, Edit.Ties]

theorem draw_edge (hu : g.Unique) (hg : e.Grounded g) :
    (e.draw g).Edge i c ↔ g.Edge i c ∨ ∃ impact, e.Ties i c impact := by
  simp only [edge_iff, draw_weighs hu hg]
  constructor
  · rintro ⟨w, h | ⟨-, h⟩⟩
    · exact .inl ⟨w, h⟩
    · exact .inr ⟨w, h⟩
  · rintro (⟨w, h⟩ | ⟨w, h⟩)
    · exact ⟨w, .inl h⟩
    · by_cases he : g.Edge i c
      · obtain ⟨x, hx⟩ := edge_iff.mp he
        exact ⟨x, .inl hx⟩
      · exact ⟨w, .inr ⟨fun hx => he (edge_iff.mpr hx), h⟩⟩

theorem drawAll_unique (hu : g.Unique) (log : List Edit) : (g.drawAll log).Unique := by
  induction log generalizing g with
  | nil => exact hu
  | cons e rest ih => exact ih (draw_unique hu e)

theorem drawAll_has (hu : g.Unique) :
    (g.drawAll log).Has i ↔ g.Has i ∨ ∃ e ∈ log, ∃ t sc, e.Makes i t sc := by
  induction log generalizing g with
  | nil => simp
  | cons e rest ih =>
    rw [drawAll_cons, ih (draw_unique hu e), draw_has hu, or_assoc]
    simp only [List.mem_cons, exists_eq_or_imp]

theorem Typed.has (h : g.Typed i type scoring) : g.Has i := Holds.has h

theorem Has.typed (h : g.Has i) : ∃ t sc, g.Typed i t sc := by
  obtain ⟨j, hj, hi, -⟩ := h
  exact ⟨j.type, j.scoring, j, hj, hi, rfl, rfl⟩

theorem Typed.drawAll (hu : g.Unique) (h : g.Typed i type scoring) (log : List Edit) :
    (g.drawAll log).Typed i type scoring := by
  induction log generalizing g with
  | nil => exact h
  | cons e rest ih => exact ih (draw_unique hu e) ((draw_typed hu).mpr (.inl h))

theorem Unique.typed_inj (hu : g.Unique) {type' : JobType} {scoring' : ScoringSystem} (h : g.Typed i type scoring)
    (h' : g.Typed i type' scoring') : type = type' ∧ scoring = scoring' := by
  obtain ⟨j, -, -, ⟨rfl, rfl⟩, rfl, rfl⟩ := hu.holds_and h h'
  exact ⟨rfl, rfl⟩

theorem typed_of_drawAll (hu : g.Unique) (h : (g.drawAll log).Typed i type scoring) :
    g.Typed i type scoring ∨ ∃ e ∈ log, e.Makes i type scoring := by
  induction log generalizing g with
  | nil => exact .inl h
  | cons e rest ih =>
    rcases ih (draw_unique hu e) h with h | ⟨x, hx, h⟩
    · rcases (draw_typed hu).mp h with h | ⟨-, h⟩
      · exact .inl h
      · exact .inr ⟨e, List.mem_cons_self, h⟩
    · exact .inr ⟨x, List.mem_cons_of_mem _ hx, h⟩

theorem backed_of_drawAll (hu : g.Unique) (h : (g.drawAll log).Backed i m id) :
    g.Backed i m id ∨ ∃ e ∈ log, e.Backs i m id := by
  induction log generalizing g with
  | nil => exact .inl h
  | cons e rest ih =>
    rcases ih (draw_unique hu e) h with h | ⟨x, hx, h⟩
    · rcases (draw_backed hu).mp h with h | ⟨-, h⟩
      · exact .inl h
      · exact .inr ⟨e, List.mem_cons_self, h⟩
    · exact .inr ⟨x, List.mem_cons_of_mem _ hx, h⟩

theorem Backed.drawAll (hu : g.Unique) (h : g.Backed i m id) (log : List Edit) :
    (g.drawAll log).Backed i m id := by
  induction log generalizing g with
  | nil => exact h
  | cons e rest ih => exact ih (draw_unique hu e) ((draw_backed hu).mpr (.inl h))

theorem exists_backed_drawAll (hu : g.Unique) {e : Edit} (he : e ∈ log) (hb : e.Backs i m id) :
    ∃ n id, (g.drawAll log).Backed i n id := by
  induction log generalizing g with
  | nil => simp at he
  | cons x rest ih =>
    rcases List.mem_cons.mp he with rfl | he
    · have hd : ∃ n id, (e.draw g).Backed i n id := by
        by_cases h : ∃ n id, g.Backed i n id
        · obtain ⟨n, id, h⟩ := h
          exact ⟨n, id, (draw_backed hu).mpr (.inl h)⟩
        · exact ⟨m, id, (draw_backed hu).mpr (.inr ⟨fun n id hn => h ⟨n, id, hn⟩, hb⟩)⟩
      obtain ⟨n, id, h⟩ := hd
      exact ⟨n, id, h.drawAll (draw_unique hu e) rest⟩
    · exact ih (draw_unique hu x) he

end Graph

theorem Edit.Grounded.draw {g : Graph} {e : Edit} (hu : g.Unique) (h : e.Grounded g) (x : Edit) :
    e.Grounded (x.draw g) := by
  cases e with
  | connect p c w => exact (Graph.draw_has hu).mpr (.inl h)
  | _ => trivial

namespace Graph

variable {g : Graph} {i c : Identity} {impact : Impact} {log : List Edit}

theorem weighs_of_drawAll (hu : g.Unique) (hg : ∀ e ∈ log, e.Grounded g)
    (h : (g.drawAll log).Weighs i c impact) : g.Weighs i c impact ∨ ∃ e ∈ log, e.Ties i c impact := by
  induction log generalizing g with
  | nil => exact .inl h
  | cons e rest ih =>
    have hg' : ∀ x ∈ rest, x.Grounded (e.draw g) :=
      fun x hx => (hg x (List.mem_cons_of_mem _ hx)).draw hu e
    rcases ih (draw_unique hu e) hg' h with h | ⟨x, hx, h⟩
    · rcases (draw_weighs hu (hg e List.mem_cons_self)).mp h with h | ⟨-, h⟩
      · exact .inl h
      · exact .inr ⟨e, List.mem_cons_self, h⟩
    · exact .inr ⟨x, List.mem_cons_of_mem _ hx, h⟩

theorem Weighs.drawAll (hu : g.Unique) (hg : ∀ e ∈ log, e.Grounded g) (h : g.Weighs i c impact) :
    (g.drawAll log).Weighs i c impact := by
  induction log generalizing g with
  | nil => exact h
  | cons e rest ih =>
    exact ih (draw_unique hu e) (fun x hx => (hg x (List.mem_cons_of_mem _ hx)).draw hu e)
      ((draw_weighs hu (hg e List.mem_cons_self)).mpr (.inl h))

theorem drawAll_edge (hu : g.Unique) (hg : ∀ e ∈ log, e.Grounded g) :
    (g.drawAll log).Edge i c ↔ g.Edge i c ∨ ∃ e ∈ log, ∃ impact, e.Ties i c impact := by
  induction log generalizing g with
  | nil => simp
  | cons e rest ih =>
    have hg' : ∀ x ∈ rest, x.Grounded (e.draw g) :=
      fun x hx => (hg x (List.mem_cons_of_mem _ hx)).draw hu e
    rw [drawAll_cons, ih (draw_unique hu e) hg', draw_edge hu (hg e List.mem_cons_self), or_assoc]
    simp only [List.mem_cons, exists_eq_or_imp]

end Graph

end Compliance
