import Compliance.Plan.Resolution
import Mathlib.Tactic.Common

namespace Compliance

inductive Kind
  | policy
  | framework
  | control
  | query
  | riskFactor
  deriving DecidableEq

namespace Bundle

variable (b : Bundle)

def evidence : List ControlMap := b.maps.flatMap (·.controls)

def names : List (Kind × Mrn) :=
  b.policies.keys.map (.policy, ·) ++ b.frameworks.keys.map (.framework, ·) ++
    b.evidence.map (fun c => (.control, c.mrn)) ++ b.queries.keys.map (.query, ·) ++
      b.riskFactors.keys.map (.riskFactor, ·)

structure Distinct : Prop where
  kinds : ∀ x ∈ b.names, ∀ y ∈ b.names, x.2 = y.2 → x.1 = y.1
  noRoot : ∀ x ∈ b.names, x.2 ≠ "root"

instance : Decidable b.Distinct :=
  decidable_of_iff ((∀ x ∈ b.names, ∀ y ∈ b.names, x.2 = y.2 → x.1 = y.1) ∧ ∀ x ∈ b.names, x.2 ≠ "root")
    ⟨fun h => ⟨h.1, h.2⟩, fun h => ⟨h.1, h.2⟩⟩

variable {b}

theorem mem_names_policy {m : Mrn} : (Kind.policy, m) ∈ b.names ↔ ∃ p, b.policies.find? m = some p := by
  simp [names, Keyed.mem_keys_iff]

theorem mem_names_framework {m : Mrn} :
    (Kind.framework, m) ∈ b.names ↔ ∃ f, b.frameworks.find? m = some f := by
  simp [names, Keyed.mem_keys_iff]

theorem mem_names_query {m : Mrn} : (Kind.query, m) ∈ b.names ↔ ∃ q, b.queries.find? m = some q := by
  simp [names, Keyed.mem_keys_iff]

theorem mem_names_riskFactor {m : Mrn} :
    (Kind.riskFactor, m) ∈ b.names ↔ ∃ r, b.riskFactors.find? m = some r := by
  simp [names, Keyed.mem_keys_iff]

theorem mem_names_control {m : Mrn} : (Kind.control, m) ∈ b.names ↔ ∃ c ∈ b.evidence, c.mrn = m := by
  simp [names]

theorem query_named {q : Query} (hq : q ∈ b.queries.entries) : (Kind.query, q.mrn) ∈ b.names :=
  mem_names_query.mpr ⟨q, Keyed.find?_of_mem hq⟩

theorem Distinct.kind_eq (h : b.Distinct) {k l : Kind} {m : Mrn} (hk : (k, m) ∈ b.names)
    (hl : (l, m) ∈ b.names) : k = l :=
  h.kinds _ hk _ hl rfl

end Bundle

namespace Overrides

def overall (o : Overrides) (m : Mrn) : Action := verdict (o.layers.filterMap (·.says? m))

theorem action_eq_overall {o : Overrides} {referrer : Mrn} (h : ∀ l ∈ o.layers, l.owner ≠ referrer)
    (m : Mrn) : o.action referrer m = o.overall m := by
  have hd : o.depth? referrer = none := by
    simp only [depth?, Option.map_eq_none_iff, List.find?_eq_none]
    intro l hl
    simpa using h l hl
  have hs : o.layers.filter (o.sees referrer) = o.layers := by
    apply List.filter_eq_self.mpr
    intro l _
    simp [sees, hd]
  simp only [action, said, hs, overall]

theorem grow_owner {asset : PredicateSet} {now : Timestamp} {pool level : List Policy} {depth : Nat}
    {o : Overrides} {l : Layer} (h : l ∈ (grow asset now pool level depth o).layers) :
    l ∈ o.layers ∨ ∃ p ∈ pool ++ level, l.owner = p.mrn := by
  have hstep : ∀ {l}, l ∈ (o.addLevel asset now level depth).layers →
      l ∈ o.layers ∨ ∃ p ∈ pool ++ level, l.owner = p.mrn := by
    intro l hl
    rcases List.mem_append.mp hl with hl | hl
    · exact .inl hl
    · obtain ⟨p, hp, rfl⟩ := List.mem_map.mp hl
      exact .inr ⟨p, List.mem_append_right _ hp, rfl⟩
  rw [grow] at h
  split at h
  · exact hstep h
  · rename_i hr
    have hlt := length_unreached_lt _ hr
    rcases grow_owner h with h | ⟨p, hp, hl⟩
    · exact hstep h
    · refine .inr ⟨p, ?_, hl⟩
      rcases List.mem_append.mp hp with hp | hp
      · exact List.mem_append_left _ (List.mem_filter.mp hp).1
      · exact List.mem_append_left _ (List.mem_filter.mp hp).1
termination_by pool.length

theorem collect_owner {b : Bundle} {asset : PredicateSet} {now : Timestamp} {assigned : List Mrn}
    {l : Layer} (h : l ∈ (collect b asset now assigned).layers) : (Kind.policy, l.owner) ∈ b.names := by
  rcases grow_owner h with h | ⟨p, hp, hl⟩
  · simp at h
  · have hp : p ∈ b.policies.entries := by
      rcases List.mem_append.mp hp with hp | hp <;> exact (List.mem_filter.mp hp).1
    rw [hl]
    exact Bundle.mem_names_policy.mpr ⟨p, Keyed.find?_of_mem hp⟩

end Overrides

theorem Action.activation_eq_absent {a : Action} : a.activation = .absent ↔ a = .deactivate := by
  cases a <;> simp [Action.activation]

def Bundle.Apart (b : Bundle) (root : Identity) : Prop :=
  ∃ m, root = .mrn m ∧ ∀ k, (k, m) ∈ b.names → k = .policy

theorem Bundle.Apart.ne_mrn {b : Bundle} {root : Identity} (h : b.Apart root) {k : Kind} {m : Mrn}
    (hm : (k, m) ∈ b.names) (hk : k ≠ .policy) : .mrn m ≠ root := by
  obtain ⟨n, rfl, hn⟩ := h
  intro he
  obtain rfl := Identity.mrn.inj he
  exact hk (hn k hm)

theorem Bundle.Apart.ne_code {b : Bundle} {root : Identity} (h : b.Apart root) (id : CodeId) : .code id ≠ root := by
  obtain ⟨n, rfl, -⟩ := h
  exact nofun

theorem Bundle.Distinct.ne_assetRoot {b : Bundle} (h : b.Distinct) {k : Kind} {m : Mrn} (hm : (k, m) ∈ b.names) :
    .mrn m ≠ assetRoot := fun hr => h.noRoot _ hm (Identity.mrn.inj hr)

theorem Bundle.Distinct.apart_root {b : Bundle} (h : b.Distinct) : b.Apart assetRoot :=
  ⟨"root", rfl, fun _ hk => absurd rfl (h.noRoot _ hk)⟩

theorem Bundle.Distinct.apart_policy {b : Bundle} (h : b.Distinct) {p : Policy}
    (hp : b.policies.find? p.mrn = some p) : b.Apart (.mrn p.mrn) :=
  ⟨p.mrn, rfl, fun _ hk => h.kind_eq hk (mem_names_policy.mpr ⟨p, hp⟩)⟩

/-- A setting in which names tell kinds apart, so that a policy alone sees less than every layer. -/
structure Setting.Proper (s : Setting) : Prop where
  distinct : s.bundle.Distinct
  sees : ∀ k m, (k, m) ∈ s.bundle.names → k ≠ .policy → ∀ n, s.overrides.action m n = s.overrides.overall n

theorem Bundle.Distinct.proper {b : Bundle} (h : b.Distinct) (r : Request) : (b.setting r).Proper where
  distinct := h
  sees := by
    intro k m hm hk n
    apply Overrides.action_eq_overall
    rintro l hl rfl
    exact hk (h.kind_eq hm (Overrides.collect_owner hl))

end Compliance
