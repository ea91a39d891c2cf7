import Compliance.Proofs.Variants

namespace Compliance

def PolicyGroup.asked (g : PolicyGroup) : Role → List QueryRef
  | .check => g.checks
  | .data => g.queries

def Policy.riskReferences (p : Policy) (asset : PredicateSet) (now : Timestamp) : List RiskFactorRef :=
  (p.contentGroups asset now).flatMap (·.riskFactors) ++ p.riskFactors

namespace Setting

variable (s : Setting)

def Asks (a : Action) (r : QueryRef) (q : Query) : Prop :=
  a ≠ .deactivate ∧ s.bundle.queries.find? r.mrn = some q ∧ s.asset.meets q.required = true

def Active (r : RiskFactor) : Prop :=
  ((s.overrides.overall r.mrn).orElse r.action = .unspecified ∨
    (s.overrides.overall r.mrn).orElse r.action = .activate) ∧ s.asset.meets r.required = true

def Includes (p q : Policy) : Prop :=
  ∃ g ∈ p.contentGroups s.asset s.now, ∃ r ∈ g.policies,
    s.overrides.effective p.mrn r.mrn r.action ≠ .deactivate ∧ s.bundle.policies.find? r.mrn = some q

inductive Walked (roots : List Mrn) : Policy → Prop
  | root {m : Mrn} {p : Policy} : m ∈ roots → s.bundle.policies.find? m = some p → Walked roots p
  | included {p q : Policy} : Walked roots p → s.Includes p q → Walked roots q

inductive Referenced (roots : List Mrn) : Role → Query → Prop
  | policy {p : Policy} {g : PolicyGroup} {role : Role} {r : QueryRef} {q : Query} :
    s.Walked roots p → g ∈ p.contentGroups s.asset s.now → r ∈ g.asked role →
      s.Asks (s.overrides.effective p.mrn r.mrn r.action) r q → Referenced roots role q
  | riskFactor {p : Policy} {f : RiskFactorRef} {k : RiskFactor} {r : QueryRef} {q : Query} :
    s.Walked roots p → f ∈ p.riskReferences s.asset s.now → s.bundle.riskFactors.find? f.mrn = some k →
      s.Active k → r ∈ k.checks → s.Asks ((s.overrides.overall r.mrn).orElse r.action) r q →
        Referenced roots .check q

inductive Live (roots : List Mrn) (role : Role) : Query → Prop
  | referenced {q : Query} : s.Referenced roots role q → Live roots role q
  | variant {q v : Query} : Live roots role q → s.Variant q v → Live roots role v

variable {s} {roots : List Mrn} {role : Role} {p q e : Query} {path : List Mrn}

theorem Walked.declared {p : Policy} (h : s.Walked roots p) : s.bundle.policies.find? p.mrn = some p := by
  cases h with
  | root _ hp => rwa [Keyed.key_of_find? hp]
  | included _ hi =>
    obtain ⟨g, -, r, -, -, hp⟩ := hi
    rwa [Keyed.key_of_find? hp]

theorem Walked.widen {p : Policy} {roots' : List Mrn} (h : s.Walked roots p)
    (hr : ∀ m ∈ roots, ∀ q, s.bundle.policies.find? m = some q → s.Walked roots' q) : s.Walked roots' p := by
  induction h with
  | root hm hp => exact hr _ hm _ hp
  | included _ hi ih => exact .included ih hi

theorem Asks.mem {a : Action} {r : QueryRef} (h : s.Asks a r q) : q ∈ s.bundle.queries.entries :=
  Keyed.mem_of_find? h.2.1

theorem Referenced.mem (h : s.Referenced roots role q) : q ∈ s.bundle.queries.entries := by
  cases h with
  | policy _ _ _ ha => exact ha.mem
  | riskFactor _ _ _ _ _ ha => exact ha.mem

theorem Referenced.widen {roots' : List Mrn} (h : s.Referenced roots role q)
    (hr : ∀ p, s.Walked roots p → s.Walked roots' p) : s.Referenced roots' role q := by
  cases h with
  | policy hp hg hr' ha => exact .policy (hr _ hp) hg hr' ha
  | riskFactor hp hf hk ha hr' hq => exact .riskFactor (hr _ hp) hf hk ha hr' hq

theorem live_iff : s.Live roots role q ↔ ∃ e, s.Referenced roots role e ∧ Relation.ReflTransGen s.Variant e q := by
  constructor
  · intro h
    induction h with
    | referenced h => exact ⟨_, h, .refl⟩
    | variant _ hv ih =>
      obtain ⟨e, he, hr⟩ := ih
      exact ⟨e, he, hr.tail hv⟩
  · rintro ⟨e, he, hr⟩
    induction hr with
    | refl => exact .referenced he
    | tail _ hv ih => exact .variant ih hv

theorem Trail.variants {x y : List Mrn × Query} (h : s.Trail x y) : Relation.ReflTransGen s.Variant x.2 y.2 := by
  induction h with
  | refl => exact .refl
  | tail _ hd ih => exact ih.tail hd.2.1

theorem eq_of_mrn (hp : p ∈ s.bundle.queries.entries) (hq : q ∈ s.bundle.queries.entries) (h : p.mrn = q.mrn) :
    p = q := by
  have hp' := Keyed.find?_of_mem hp
  have hq' := Keyed.find?_of_mem hq
  rw [h, hq'] at hp'
  exact (Option.some.inj hp').symm

theorem exists_trail_of_mem (he : e ∈ s.bundle.queries.entries) {y : List Mrn × Query} (h : s.Trail ([], e) y)
    {m : Mrn} (hm : m ∈ y.1) : ∃ path q, s.Trail ([], e) (path, q) ∧ q.mrn = m ∧ q.mrn ∉ path ∧
      q ∈ s.bundle.queries.entries := by
  induction h with
  | refl => simp at hm
  | @tail x y ht hd ih =>
    obtain ⟨hn, hv, hy⟩ := hd
    rw [hy] at hm
    rcases List.mem_cons.mp hm with rfl | hm
    · exact ⟨x.1, x.2, ht, rfl, hn, Trail.mem ht he⟩
    · exact ih hm

theorem exists_trail (he : e ∈ s.bundle.queries.entries) (h : Relation.ReflTransGen s.Variant e q) :
    ∃ path, s.Trail ([], e) (path, q) ∧ q.mrn ∉ path := by
  induction h with
  | refl => exact ⟨[], .refl, by simp⟩
  | @tail p q _ hv ih =>
    obtain ⟨path, ht, hp⟩ := ih
    have ht' : s.Trail ([], e) (p.mrn :: path, q) := ht.tail ⟨hp, hv, rfl⟩
    by_cases hq : q.mrn ∈ p.mrn :: path
    · obtain ⟨path', q', ht, hm, hn, hq'⟩ := exists_trail_of_mem he ht' hq
      obtain rfl := eq_of_mrn hq' hv.mem hm
      exact ⟨path', ht, hn⟩
    · exact ⟨p.mrn :: path, ht', hq⟩

theorem exists_draws_leaf_iff {c : Code} (hq : q.isComposite = false) (hc : q.code = some c) :
    (∃ e k, s.Referenced roots role e ∧ s.Draws role ([], e) (.leaf role q c k)) ↔ s.Live roots role q := by
  rw [live_iff]
  constructor
  · rintro ⟨e, k, he, hd⟩
    cases hd with
    | leaf ht _ _ => exact ⟨e, he, ht.variants⟩
  · rintro ⟨e, he, hr⟩
    obtain ⟨path, ht, -⟩ := exists_trail he.mem hr
    exact ⟨e, path.head?, he, .leaf ht hq hc⟩

end Setting

end Compliance
