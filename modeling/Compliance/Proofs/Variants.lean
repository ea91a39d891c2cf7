import Compliance.Proofs.Drawing
import Compliance.Proofs.Visits

/-!
What a visit of a query draws. A composite is cut on the path from the query that was asked for, so
the visit follows the trails that meet no composite twice; it draws what stands at the end of a
trail if some continuation of that trail ends in code.
-/

namespace Compliance

def Role.identity (role : Role) (q : Query) : Identity :=
  if q.isComposite then .mrn q.mrn
  else match q.code with
    | some c => Draft.leafIdentity role q c
    | none => .mrn q.mrn

theorem Role.identity_of_composite {role : Role} {q : Query} (hq : q.isComposite = true) : role.identity q = .mrn q.mrn :=
  if_pos hq

theorem Role.identity_of_code {role : Role} {q : Query} {c : Code} (hn : q.isComposite = false) (hc : q.code = some c) :
    role.identity q = Draft.leafIdentity role q c := by
  simp [identity, hn, hc]

theorem Role.data_identity (q : Query) : Role.data.identity q = .mrn q.mrn := by
  unfold identity
  split
  · rfl
  · split <;> rfl

theorem Role.mrn_of_identity {role : Role} {q : Query} {m : Mrn} (h : role.identity q = .mrn m) : q.mrn = m := by
  unfold identity at h
  split at h
  · exact Identity.mrn.inj h
  · split at h
    · cases role with
      | check => cases h
      | data => exact Identity.mrn.inj h
    · exact Identity.mrn.inj h

namespace Setting

variable (s : Setting)

/-- A variant that counts: declared, not deactivated by the layers together, meant for the asset. -/
def Variant (q v : Query) : Prop :=
  ∃ m ∈ q.variants, s.overrides.overall m ≠ .deactivate ∧ s.bundle.queries.find? m = some v ∧
    s.asset.meets v.required = true

def Descends (x y : List Mrn × Query) : Prop :=
  x.2.mrn ∉ x.1 ∧ s.Variant x.2 y.2 ∧ y.1 = x.2.mrn :: x.1

abbrev Trail : List Mrn × Query → List Mrn × Query → Prop := Relation.ReflTransGen s.Descends

/-- Some way down that avoids the path, and itself, ends in code. -/
inductive Yields : List Mrn → Query → Prop
  | code {path : List Mrn} {q : Query} {c : Code} : q.isComposite = false → q.code = some c → Yields path q
  | variant {path : List Mrn} {q v : Query} :
    q.mrn ∉ path → s.Variant q v → Yields (q.mrn :: path) v → Yields path q

noncomputable section

open scoped Classical

def outcome (role : Role) (path : List Mrn) (q : Query) : Option Identity :=
  if s.Yields path q then some (role.identity q) else none

def variantLink (role : Role) (path : List Mrn) (m : Mrn) : Option (Mrn × Link) :=
  if s.overrides.overall m = .deactivate then none
  else (s.bundle.queries.find? m).bind fun v =>
    if s.asset.meets v.required then
      (s.outcome role path v).map fun i => (m, i, Impact.of (s.overrides.overall m).activation .unspecified none)
    else none

def variantLinks (role : Role) (path : List Mrn) (q : Query) : List (Mrn × Link) :=
  q.variants.filterMap (s.variantLink role (q.mrn :: path))

end

inductive Draws (role : Role) (x : List Mrn × Query) : Edit → Prop
  | leaf {path : List Mrn} {q : Query} {c : Code} :
    s.Trail x (path, q) → q.isComposite = false → q.code = some c → Draws role x (.leaf role q c path.head?)
  | composite {path : List Mrn} {q : Query} :
    s.Trail x (path, q) → q.mrn ∉ path → s.variantLinks role path q ≠ [] →
      Draws role x (.composite role q (s.variantLinks role path q))

variable {s} {role : Role} {path : List Mrn} {q v : Query} {m : Mrn}

theorem Variant.isComposite (h : s.Variant q v) : q.isComposite = true := by
  obtain ⟨m, hm, -⟩ := h
  simp only [Query.isComposite, Bool.not_eq_true', List.isEmpty_eq_false_iff]
  exact List.ne_nil_of_mem hm

theorem Variant.mem (h : s.Variant q v) : v ∈ s.bundle.queries.entries := by
  obtain ⟨m, -, -, hv, -⟩ := h
  exact Keyed.mem_of_find? hv

theorem yields_leaf_iff (hq : q.isComposite = false) : s.Yields path q ↔ ∃ c, q.code = some c := by
  constructor
  · intro h
    cases h with
    | code _ hc => exact ⟨_, hc⟩
    | variant _ hv _ => simp [hv.isComposite] at hq
  · rintro ⟨c, hc⟩
    exact .code hq hc

theorem yields_composite_iff (hq : q.isComposite = true) : s.Yields path q ↔
    q.mrn ∉ path ∧ ∃ v, s.Variant q v ∧ s.Yields (q.mrn :: path) v := by
  constructor
  · intro h
    cases h with
    | code hn _ => simp [hn] at hq
    | variant hp hv hy => exact ⟨hp, _, hv, hy⟩
  · rintro ⟨hp, v, hv, hy⟩
    exact .variant hp hv hy

theorem variantLink_eq_some {x : Mrn × Link} : s.variantLink role path m = some x ↔
    s.overrides.overall m ≠ .deactivate ∧ ∃ v, s.bundle.queries.find? m = some v ∧
      s.asset.meets v.required = true ∧ s.Yields path v ∧
      x = (m, role.identity v, Impact.of (s.overrides.overall m).activation .unspecified none) := by
  unfold variantLink outcome
  by_cases hd : s.overrides.overall m = .deactivate
  · simp [hd]
  · simp only [hd, ↓reduceIte, Option.bind_eq_some_iff, ne_eq, not_false_eq_true, true_and]
    constructor
    · rintro ⟨v, hv, h⟩
      split at h
      · rename_i hm
        obtain ⟨i, hi, rfl⟩ := Option.map_eq_some_iff.mp h
        split at hi
        · rename_i hy
          exact ⟨v, hv, hm, hy, by rw [← Option.some.inj hi]⟩
        · cases hi
      · cases h
    · rintro ⟨v, hv, hm, hy, rfl⟩
      exact ⟨v, hv, by simp [hm, hy]⟩

theorem mem_variantLinks {x : Mrn × Link} : x ∈ s.variantLinks role path q ↔
    ∃ m ∈ q.variants, s.overrides.overall m ≠ .deactivate ∧ ∃ v, s.bundle.queries.find? m = some v ∧
      s.asset.meets v.required = true ∧ s.Yields (q.mrn :: path) v ∧
      x = (m, role.identity v, Impact.of (s.overrides.overall m).activation .unspecified none) := by
  simp only [variantLinks, List.mem_filterMap, variantLink_eq_some]

theorem exists_mem_variantLinks (role : Role) (hv : s.Variant q v) (hy : s.Yields (q.mrn :: path) v) :
    ∃ x ∈ s.variantLinks role path q, x.2.1 = role.identity v := by
  obtain ⟨m, hm, hd, hv, hr⟩ := hv
  exact ⟨_, mem_variantLinks.mpr ⟨m, hm, hd, v, hv, hr, hy, rfl⟩, rfl⟩

theorem variantLinks_ne_nil : s.variantLinks role path q ≠ [] ↔
    ∃ v, s.Variant q v ∧ s.Yields (q.mrn :: path) v := by
  constructor
  · intro h
    obtain ⟨x, hx⟩ := List.exists_mem_of_ne_nil _ h
    obtain ⟨m, hm, hd, v, hv, hr, hy, -⟩ := mem_variantLinks.mp hx
    exact ⟨v, ⟨m, hm, hd, hv, hr⟩, hy⟩
  · rintro ⟨v, hv, hy⟩
    obtain ⟨x, hx, -⟩ := exists_mem_variantLinks role hv hy
    exact List.ne_nil_of_mem hx

theorem draws_leaf_iff (hq : q.isComposite = false) {e : Edit} : s.Draws role (path, q) e ↔
    ∃ c, q.code = some c ∧ e = .leaf role q c path.head? := by
  have stay : ∀ {y}, s.Trail (path, q) y → y = (path, q) := by
    intro y hy
    rcases hy.cases_head with h | ⟨z, hz, -⟩
    · exact h.symm
    · simp [hz.2.1.isComposite] at hq
  constructor
  · intro h
    cases h with
    | leaf ht _ hc =>
      obtain ⟨rfl, rfl⟩ := Prod.mk.inj (stay ht)
      exact ⟨_, hc, rfl⟩
    | composite ht _ hl =>
      obtain ⟨rfl, rfl⟩ := Prod.mk.inj (stay ht)
      obtain ⟨v, hv, -⟩ := variantLinks_ne_nil.mp hl
      simp [hv.isComposite] at hq
  · rintro ⟨c, hc, rfl⟩
    exact .leaf .refl hq hc

theorem draws_composite_iff (hq : q.isComposite = true) {e : Edit} : s.Draws role (path, q) e ↔
    q.mrn ∉ path ∧ ((∃ v, s.Variant q v ∧ s.Draws role (q.mrn :: path, v) e) ∨
      s.variantLinks role path q ≠ [] ∧ e = .composite role q (s.variantLinks role path q)) := by
  -- a trail that goes on passes through a variant, and then the composite is on its path
  have step : ∀ {y}, s.Trail (path, q) y → y = (path, q) ∨
      q.mrn ∉ path ∧ ∃ v, s.Variant q v ∧ s.Trail (q.mrn :: path, v) y := by
    intro y hy
    rcases hy.cases_head with h | ⟨⟨p, v⟩, ⟨hp, hv, rfl⟩, ht⟩
    · exact .inl h.symm
    · exact .inr ⟨hp, v, hv, ht⟩
  constructor
  · intro h
    cases h with
    | leaf ht hn hc =>
      rcases step ht with h | ⟨hp, v, hv, ht⟩
      · obtain ⟨rfl, rfl⟩ := Prod.mk.inj h
        simp [hq] at hn
      · exact ⟨hp, .inl ⟨v, hv, .leaf ht hn hc⟩⟩
    | composite ht hp hl =>
      rcases step ht with h | ⟨hp', v, hv, ht⟩
      · obtain ⟨rfl, rfl⟩ := Prod.mk.inj h
        exact ⟨hp, .inr ⟨hl, rfl⟩⟩
      · exact ⟨hp', .inl ⟨v, hv, .composite ht hp hl⟩⟩
  · rintro ⟨hp, ⟨v, hv, h⟩ | ⟨hl, rfl⟩⟩
    · cases h with
      | leaf ht hn hc => exact .leaf (.head ⟨hp, hv, rfl⟩ ht) hn hc
      | composite ht hp' hl => exact .composite (.head ⟨hp, hv, rfl⟩ ht) hp' hl
    · exact .composite .refl hp hl

theorem Yields.of_trail {x y : List Mrn × Query} (h : s.Trail x y) (hy : s.Yields y.1 y.2) : s.Yields x.1 x.2 := by
  induction h using Relation.ReflTransGen.head_induction_on with
  | refl => exact hy
  | head hd _ ih =>
    obtain ⟨hp, hv, he⟩ := hd
    exact .variant hp hv (he ▸ ih)

theorem Draws.yields {e : Edit} (h : s.Draws role (path, q) e) : s.Yields path q := by
  cases h with
  | leaf ht hn hc => exact Yields.of_trail ht (.code hn hc)
  | composite ht hp hl =>
    obtain ⟨v, hv, hy⟩ := variantLinks_ne_nil.mp hl
    exact Yields.of_trail ht (.variant hp hv hy)

theorem Trail.mem {x y : List Mrn × Query} (h : s.Trail x y) (hx : x.2 ∈ s.bundle.queries.entries) :
    y.2 ∈ s.bundle.queries.entries := by
  rcases Relation.ReflTransGen.cases_tail h with h | ⟨z, -, hz⟩
  · rw [h]
    exact hx
  · exact hz.2.1.mem

theorem Draws.makes {x : List Mrn × Query} {e : Edit} {i : Identity} {t : JobType} {sc : ScoringSystem}
    (h : s.Draws role x e) (hx : x.2 ∈ s.bundle.queries.entries) (hm : e.Makes i t sc) :
    ∃ q ∈ s.bundle.queries.entries, i = role.identity q ∧ t = role.jobType ∧ sc = .unspecified := by
  cases h with
  | leaf ht hn hc =>
    obtain ⟨rfl, rfl, rfl⟩ := hm
    exact ⟨_, Trail.mem ht hx, (Role.identity_of_code hn hc).symm, rfl, rfl⟩
  | composite ht hp hl =>
    obtain ⟨-, rfl, rfl, rfl⟩ := hm
    obtain ⟨v, hv, -⟩ := variantLinks_ne_nil.mp hl
    exact ⟨_, Trail.mem ht hx, (Role.identity_of_composite hv.isComposite).symm, rfl, rfl⟩

theorem Draws.entries {x : List Mrn × Query} {e : Edit} (h : s.Draws role x e) (t : JobType) : e.entries t = [] := by
  cases h <;> cases t <;> rfl

theorem leafIdentity_ne_root {root : Identity} (hr : s.bundle.Apart root) (hq : q ∈ s.bundle.queries.entries)
    (c : Code) : Draft.leafIdentity role q c ≠ root := by
  cases role with
  | check => exact hr.ne_code c.id
  | data => exact hr.ne_mrn (Bundle.query_named hq) (by simp)

theorem variant_visit (h : s.Proper) {root : Identity} (hq : q ∈ s.bundle.queries.entries)
    (below : ∀ v (hv : v ∈ s.bundle.queries.entries), ∃ log,
      Visit root (s.query role (q.mrn :: path) (some q.mrn) v hv) (s.outcome role (q.mrn :: path) v)
        (s.outcome role (q.mrn :: path) v).toList (s.Draws role (q.mrn :: path, v)) log) (m : Mrn) :
    ∃ log, Visit root (s.variantStep role path q m)
      (s.variantLink role (q.mrn :: path) m) ((s.variantLink role (q.mrn :: path) m).toList.map (·.2.1))
      (fun e => ∃ v, s.overrides.overall m ≠ .deactivate ∧ s.bundle.queries.find? m = some v ∧
        s.asset.meets v.required = true ∧ s.Draws role (q.mrn :: path, v) e) log := by
  have ha : s.overrides.action q.mrn m = s.overrides.overall m := h.sees .query _ (Bundle.query_named hq) (by simp) m
  by_cases hd : s.overrides.overall m = .deactivate
  · have ho : s.variantLink role (q.mrn :: path) m = none := by simp [variantLink, hd]
    rw [ho]
    exact ⟨[], .idle (fun d => variantStep_absent (ha.trans hd)) (by simp) (by simp [hd])⟩
  · have hn : s.overrides.action q.mrn m ≠ .deactivate := ha ▸ hd
    obtain hv | ⟨v, hv⟩ := Option.eq_none_or_eq_some (s.bundle.queries.find? m)
    · have ho : s.variantLink role (q.mrn :: path) m = none := by simp [variantLink, hv]
      rw [ho]
      exact ⟨[.note (.undeclaredVariant q.mrn m)],
        .idle (fun d => variantStep_undeclared hn hv) (by simp [Edit.isNote]) (by simp [hv])⟩
    · by_cases hm : s.asset.meets v.required = true
      · obtain ⟨log, hlog⟩ := below v (Keyed.mem_of_find? hv)
        have ho : s.variantLink role (q.mrn :: path) m = (s.outcome role (q.mrn :: path) v).map
            fun i => (m, i, Impact.of (s.overrides.overall m).activation .unspecified none) := by
          simp [variantLink, hd, hv, hm]
        refine ⟨log, ?_, ?_, ?_, ?_⟩
        · intro d
          rw [variantStep_declared hn hv, if_pos hm, hlog.eq, ho, ha]
        · intro e he
          exact (hlog.sound e he).imp id fun he => ⟨v, hd, hv, hm, he⟩
        · rintro e ⟨w, -, hw, -, he⟩
          obtain rfl : v = w := Option.some.inj (hv.symm.trans hw)
          exact hlog.complete e he
        · intro g hu
          have hl : (s.variantLink role (q.mrn :: path) m).toList.map (·.2.1) =
              (s.outcome role (q.mrn :: path) v).toList := by
            rw [ho]
            cases s.outcome role (q.mrn :: path) v <;> rfl
          rw [hl]
          exact hlog.sketch g hu
      · have ho : s.variantLink role (q.mrn :: path) m = none := by simp [variantLink, hv, hm]
        rw [ho]
        refine ⟨[], .idle (fun d => ?_) (by simp) (by simp [hv, hm])⟩
        rw [variantStep_declared hn hv, if_neg hm]
        rfl

theorem leaf_visit {root : Identity} (hr : s.bundle.Apart root) (hq : q ∈ s.bundle.queries.entries)
    (hc : q.isComposite = false) :
    ∃ log, Visit root (s.query role path path.head? q hq) (s.outcome role path q)
      (s.outcome role path q).toList (s.Draws role (path, q)) log := by
  obtain hk | ⟨c, hk⟩ := Option.eq_none_or_eq_some q.code
  · have hy : ¬s.Yields path q := by simp [yields_leaf_iff, hc, hk]
    have ho : s.outcome role path q = none := by simp [outcome, hy]
    rw [ho]
    exact ⟨[.note (.emptyQuery q.mrn)],
      .idle (fun d => query_empty hc hk) (by simp [Edit.isNote]) fun e he => hy he.yields⟩
  · have hy : s.Yields path q := .code hc hk
    have ho : s.outcome role path q = some (Draft.leafIdentity role q c) := by
      simp [outcome, hy, Role.identity, hc, hk]
    rw [ho]
    refine ⟨[.leaf role q c path.head?], ?_, ?_, ?_, ?_⟩
    · exact fun d => query_code hc hk
    · intro e he
      exact .inr ((draws_leaf_iff hc).mpr ⟨c, hk, List.mem_singleton.mp he⟩)
    · intro e he
      obtain ⟨c', hk', rfl⟩ := (draws_leaf_iff hc).mp he
      obtain rfl : c = c' := Option.some.inj (hk.symm.trans hk')
      exact List.mem_cons_self
    · intro g hu
      exact .leaf hu (leafIdentity_ne_root hr hq c)

theorem composite_visit (h : s.Proper) {root : Identity} (hr : s.bundle.Apart root)
    (hq : q ∈ s.bundle.queries.entries) (hc : q.isComposite = true) (hp : q.mrn ∉ path)
    (below : ∀ v (hv : v ∈ s.bundle.queries.entries), ∃ log,
      Visit root (s.query role (q.mrn :: path) (some q.mrn) v hv) (s.outcome role (q.mrn :: path) v)
        (s.outcome role (q.mrn :: path) v).toList (s.Draws role (q.mrn :: path, v)) log) :
    ∃ log, Visit root (s.query role path path.head? q hq) (s.outcome role path q)
      (s.outcome role path q).toList (s.Draws role (path, q)) log := by
  obtain ⟨log, hlog⟩ := Visit.gather fun m (_ : m ∈ q.variants) => variant_visit h hq below m
  have hf : s.query role path path.head? q hq = fun d =>
      (gather (s.variantStep role path q) q.variants d).2.above role q (gather (s.variantStep role path q) q.variants d).1 :=
    funext fun d => query_composite hc hp
  have hlinks : Visit root (gather (s.variantStep role path q) q.variants) (s.variantLinks role path q)
      ((s.variantLinks role path q).map (·.2.1)) (fun e => ∃ v, s.Variant q v ∧ s.Draws role (q.mrn :: path, v) e) log := by
    refine hlog.congr fun e => ⟨?_, ?_⟩
    · rintro ⟨v, ⟨m, hm, hd, hv, hr⟩, he⟩
      exact ⟨m, hm, v, hd, hv, hr, he⟩
    · rintro ⟨m, hm, v, hd, hv, hr, he⟩
      exact ⟨v, ⟨m, hm, hd, hv, hr⟩, he⟩
  generalize gather (s.variantStep role path q) q.variants = variants at hf hlinks
  rw [hf]
  by_cases hl : s.variantLinks role path q = []
  · have hy : ¬s.Yields path q := fun hy =>
      variantLinks_ne_nil.mpr ((yields_composite_iff hc).mp hy).2 hl
    have ho : s.outcome role path q = none := by simp [outcome, hy]
    rw [ho]
    rw [hl] at hlinks
    refine ⟨log, hlinks.aboveNone.congr fun e => ?_⟩
    rw [draws_composite_iff hc]
    simp [hp, hl]
  · have hy : s.Yields path q := (yields_composite_iff hc).mpr ⟨hp, variantLinks_ne_nil.mp hl⟩
    have ho : s.outcome role path q = some (.mrn q.mrn) := by simp [outcome, hy, Role.identity, hc]
    rw [ho]
    refine ⟨_, (hlinks.above hl (hr.ne_mrn (Bundle.query_named hq) (by simp))).congr fun e => ?_⟩
    rw [draws_composite_iff hc]
    simp [hp, hl]

theorem query_visit (h : s.Proper) {root : Identity} (hr : s.bundle.Apart root) (role : Role) (path : List Mrn)
    (q : Query) (hq : q ∈ s.bundle.queries.entries) :
    ∃ log, Visit root (s.query role path path.head? q hq) (s.outcome role path q)
      (s.outcome role path q).toList (s.Draws role (path, q)) log := by
  cases hc : q.isComposite with
  | false => exact leaf_visit hr hq hc
  | true =>
    by_cases hp : q.mrn ∈ path
    · have hy : ¬s.Yields path q := fun hy => ((yields_composite_iff hc).mp hy).1 hp
      have ho : s.outcome role path q = none := by simp [outcome, hy]
      rw [ho]
      exact ⟨[.note (.variantCycle q.mrn)],
        .idle (fun d => query_cut hc hp) (by simp [Edit.isNote]) fun e he => hy he.yields⟩
    · exact composite_visit h hr hq hc hp fun v hv => query_visit h hr role (q.mrn :: path) v hv
termination_by unvisited Query.mrn s.bundle.queries.entries path
decreasing_by exact unvisited_cons_lt hq hp

end Setting

end Compliance
