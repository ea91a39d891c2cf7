import Compliance.Proofs.Liveness

namespace Compliance

namespace Setting

variable (s : Setting)

noncomputable section

open scoped Classical

def queryLink (role : Role) (a : Action) (r : QueryRef) : Option Link :=
  if a = .deactivate then none
  else (s.bundle.queries.find? r.mrn).bind fun q =>
    if s.asset.meets q.required then
      (s.outcome role [] q).map fun i => (i, Impact.of a.activation .unspecified r.impact)
    else none

def riskLinks (k : RiskFactor) : List Link :=
  k.checks.filterMap fun r => s.queryLink .check ((s.overrides.overall r.mrn).orElse r.action) r

def Raised (k : RiskFactor) : Prop := s.Active k ∧ s.riskLinks k ≠ []

def referenceLink (done : List (Mrn × Bool)) (p : Policy) : Reference → Option Link
  | .query role r => s.queryLink role (s.overrides.effective p.mrn r.mrn r.action) r
  | .riskFactor m =>
    if ∃ k, s.bundle.riskFactors.find? m = some k ∧ s.Raised k then some (.mrn m, {}) else none
  | .policy r =>
    let a := s.overrides.effective p.mrn r.mrn r.action
    if a = .deactivate ∨ (r.mrn, true) ∉ done then none
    else some (.mrn r.mrn, Impact.of a.activation (r.scoring.getD .unspecified) none)

def linksAt (done : List (Mrn × Bool)) (p : Policy) : List Link :=
  (p.references s.asset s.now).filterMap (s.referenceLink done p)

end

def Asked (role : Role) (a : Action) (r : QueryRef) (e : Edit) : Prop :=
  ∃ q, s.Asks a r q ∧ s.Draws role ([], q) e

def Probed (k : RiskFactor) (e : Edit) : Prop :=
  ∃ r ∈ k.checks, s.Asked .check ((s.overrides.overall r.mrn).orElse r.action) r e

noncomputable def raising (k : RiskFactor) : List Edit :=
  [.structural k.mrn .riskFactor .unspecified (s.riskLinks k),
    .weigh k.mrn ((s.overrides.magnitude k.mrn).getD k.magnitude)]

variable {s}

section

variable {role : Role} {a : Action} {done : List (Mrn × Bool)} {p : Policy} {l : Link} {m : Mrn}

theorem queryLink_eq_some {r : QueryRef} : s.queryLink role a r = some l ↔
    ∃ q, s.Asks a r q ∧ s.Yields [] q ∧ l = (role.identity q, Impact.of a.activation .unspecified r.impact) := by
  unfold queryLink outcome Asks
  by_cases ha : a = .deactivate
  · simp [ha]
  · rw [if_neg ha, Option.bind_eq_some_iff]
    apply exists_congr
    intro q
    by_cases hm : s.asset.meets q.required = true
    · by_cases hy : s.Yields [] q <;> simp [ha, hm, hy, eq_comm]
    · simp [hm]

theorem referenceLink_riskFactor_eq_some : s.referenceLink done p (.riskFactor m) = some l ↔
    (∃ k, s.bundle.riskFactors.find? m = some k ∧ s.Raised k) ∧ l = (.mrn m, {}) := by
  rw [referenceLink, Option.ite_none_right_eq_some, Option.some.injEq, eq_comm (b := l)]

theorem referenceLink_policy_eq_some {r : PolicyRef} : s.referenceLink done p (.policy r) = some l ↔
    s.overrides.effective p.mrn r.mrn r.action ≠ .deactivate ∧ (r.mrn, true) ∈ done ∧
      l = (.mrn r.mrn, Impact.of (s.overrides.effective p.mrn r.mrn r.action).activation (r.scoring.getD .unspecified) none) := by
  simp only [referenceLink, Option.ite_none_left_eq_some, not_or, not_not, Option.some.injEq, and_assoc, eq_comm (b := l)]

end

theorem queryRef_visit (h : s.Proper) {root : Identity} (hr : s.bundle.Apart root) (role : Role) (referrer : Mrn)
    (r : QueryRef) : ∃ log, Visit root (s.queryRef role referrer r)
      (s.queryLink role (s.overrides.effective referrer r.mrn r.action) r)
      ((s.queryLink role (s.overrides.effective referrer r.mrn r.action) r).toList.map Prod.fst)
      (s.Asked role (s.overrides.effective referrer r.mrn r.action) r) log := by
  generalize ha : s.overrides.effective referrer r.mrn r.action = a
  by_cases hd : a = .deactivate
  · have ho : s.queryLink role a r = none := by simp [queryLink, hd]
    rw [ho]
    exact ⟨[], .idle (fun d => queryRef_absent (ha.trans hd)) (by simp) (by simp [Asked, Asks, hd])⟩
  · have hn : s.overrides.effective referrer r.mrn r.action ≠ .deactivate := ha ▸ hd
    obtain hv | ⟨v, hv⟩ := Option.eq_none_or_eq_some (s.bundle.queries.find? r.mrn)
    · have ho : s.queryLink role a r = none := by simp [queryLink, hv]
      rw [ho]
      exact ⟨[.note (.undeclaredQuery referrer r.mrn)],
        .idle (fun d => queryRef_undeclared hn hv) (by simp [Edit.isNote]) (by simp [Asked, Asks, hv])⟩
    · by_cases hm : s.asset.meets v.required = true
      · obtain ⟨log, hlog⟩ := query_visit h hr role [] v (Keyed.mem_of_find? hv)
        have ho : s.queryLink role a r = (s.outcome role [] v).map
            fun i => (i, Impact.of a.activation .unspecified r.impact) := by
          simp [queryLink, hd, hv, hm]
        refine ⟨log, ?_, ?_, ?_, ?_⟩
        · intro d
          have heq := hlog.eq d
          simp only [List.head?_nil] at heq
          rw [queryRef_declared hn hv, if_pos hm, heq, ho, ha]
        · intro e he
          exact (hlog.sound e he).imp id fun he => ⟨v, ⟨hd, hv, hm⟩, he⟩
        · rintro e ⟨w, ⟨-, hw, -⟩, he⟩
          obtain rfl : v = w := Option.some.inj (hv.symm.trans hw)
          exact hlog.complete e he
        · intro g hu
          have hl : (s.queryLink role a r).toList.map Prod.fst = (s.outcome role [] v).toList := by
            rw [ho]
            cases s.outcome role [] v <;> rfl
          rw [hl]
          exact hlog.sketch g hu
      · have ho : s.queryLink role a r = none := by simp [queryLink, hv, hm]
        rw [ho]
        refine ⟨[], .idle (fun d => ?_) (by simp) (by simp [Asked, Asks, hv, hm])⟩
        rw [queryRef_declared hn hv, if_neg hm]
        rfl

theorem isLive_iff (h : s.Proper) {k : RiskFactor} (hk : (Kind.riskFactor, k.mrn) ∈ s.bundle.names) :
    s.isLive k = true ↔ s.Active k := by
  have ha : s.overrides.effective k.mrn k.mrn k.action = (s.overrides.overall k.mrn).orElse k.action := by
    rw [Overrides.effective, h.sees .riskFactor _ hk (by simp)]
  simp only [isLive, ha, Active, Bool.and_eq_true]
  cases (s.overrides.overall k.mrn).orElse k.action <;> simp [Action.activation]

theorem riskChecks_visit (h : s.Proper) {root : Identity} (hr : s.bundle.Apart root) {k : RiskFactor}
    (hk : (Kind.riskFactor, k.mrn) ∈ s.bundle.names) : ∃ log,
      Visit root (gather (s.queryRef .check k.mrn) k.checks) (s.riskLinks k) ((s.riskLinks k).map Prod.fst)
        (s.Probed k) log := by
  apply Visit.gather
  intro r _
  have ha : s.overrides.effective k.mrn r.mrn r.action = (s.overrides.overall r.mrn).orElse r.action := by
    rw [Overrides.effective, h.sees .riskFactor _ hk (by simp)]
  rw [← ha]
  exact queryRef_visit h hr .check k.mrn r

theorem riskFactorJob_eq (h : s.Proper) {k : RiskFactor} (hk : (Kind.riskFactor, k.mrn) ∈ s.bundle.names)
    {root : Identity} {draws : Edit → Prop} {log : List Edit}
    (hlog : Visit root (gather (s.queryRef .check k.mrn) k.checks) (s.riskLinks k) ((s.riskLinks k).map Prod.fst)
      draws log) (d : Draft) :
    (s.Raised k → s.riskFactorJob k d = (true, d.replay (log ++ s.raising k))) ∧
      (s.Active k → s.riskLinks k = [] → s.riskFactorJob k d = (false, d.replay log)) ∧
        (¬s.Active k → s.riskFactorJob k d = (false, d)) := by
  refine ⟨?_, ?_, ?_⟩
  · rintro ⟨ha, hl⟩
    simp only [riskFactorJob, (isLive_iff h hk).mpr ha, ↓reduceIte, hlog.eq, Draft.structural, List.isEmpty_iff, hl,
      Draft.replay_append]
    simp [raising, Draft.apply, Draft.structural, hl]
  · intro ha hl
    simp [riskFactorJob, (isLive_iff h hk).mpr ha, hlog.eq, Draft.structural, hl]
  · intro ha
    have hn : s.isLive k = false := Bool.eq_false_iff.mpr fun hl => ha ((isLive_iff h hk).mp hl)
    exact riskFactorJob_idle hn

end Setting

end Compliance
