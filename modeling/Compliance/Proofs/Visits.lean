import Compliance.Proofs.Names

namespace Compliance

section

variable {σ α β : Type} {step step' : α → σ → Option β × σ} {l : List α} {d : σ}

theorem gather_cons (a : α) (rest : List α) (d : σ) : gather step (a :: rest) d =
    ((step a d).1.toList ++ (gather step rest (step a d).2).1, (gather step rest (step a d).2).2) := rfl

theorem gather_congr (h : ∀ a ∈ l, step a = step' a) : gather step l = gather step' l := by
  induction l with
  | nil => rfl
  | cons a rest ih =>
    funext d
    rw [gather_cons, gather_cons, h a List.mem_cons_self, ih fun b hb => h b (List.mem_cons_of_mem a hb)]

theorem gather_keeps {P : σ → Prop} (h : ∀ a ∈ l, ∀ d, P d → P (step a d).2) (hd : P d) : P (gather step l d).2 := by
  induction l generalizing d with
  | nil => exact hd
  | cons a rest ih =>
    rw [gather_cons]
    exact ih (fun b hb => h b (List.mem_cons_of_mem a hb)) (h a List.mem_cons_self d hd)

end

namespace ControlScope

variable {c : ControlScope} {path : List Mrn} {m : Mrn} {d : Draft}

theorem control_settled {made : Bool} (hl : d.controls.lookup m = some made) : c.control path m d = (made, d) := by
  rw [control, hl]

theorem control_cut (hl : d.controls.lookup m = none) (hm : m ∈ path) :
    c.control path m d = (false, d.note (.controlCycle m)) := by
  rw [control, hl]
  exact dif_pos hm

theorem control_bare (hl : d.controls.lookup m = none) (hm : m ∉ path) (he : c.evidence.filter (·.mrn == m) = []) :
    c.control path m d = (false, { d with controls := (m, false) :: d.controls }) := by
  rw [control, hl]
  simp only [hm, ↓reduceDIte]
  split
  · rfl
  · simp_all

theorem control_first {e : ControlMap} {rest : List ControlMap} (hl : d.controls.lookup m = none) (hm : m ∉ path)
    (he : c.evidence.filter (·.mrn == m) = e :: rest) : c.control path m d =
      let (links, d) := gather (c.follow (c.control (m :: path))) ((e :: rest).flatMap ControlMap.links) d
      let (made, d) := d.structural m .control .average links
      (made, { d with controls := (m, made) :: d.controls }) := by
  rw [control, hl]
  simp only [hm, ↓reduceDIte]
  split
  · simp_all
  · rename_i e' rest' he'
    obtain ⟨rfl, rfl⟩ := List.cons.inj (he.symm.trans he')
    rfl

end ControlScope

namespace Setting

variable {s : Setting} {role : Role} {path : List Mrn} {composite : Option Mrn} {q : Query}
  {hq : q ∈ s.bundle.queries.entries} {referrer m : Mrn} {r : QueryRef} {p : Policy} {d : Draft}

def variantStep (s : Setting) (role : Role) (path : List Mrn) (q : Query) (m : Mrn) (d : Draft) :
    Option (Mrn × Link) × Draft :=
  let a := (s.overrides.action q.mrn m).activation
  if a = .absent then (none, d)
  else if hv : (s.bundle.queries.find? m).isSome then
    let v := (s.bundle.queries.find? m).get hv
    if s.asset.meets v.required then
      let out := s.query role (q.mrn :: path) (some q.mrn) v (Keyed.mem_of_find? (Option.some_get hv).symm) d
      (out.1.map fun i => (m, i, Impact.of a .unspecified none), out.2)
    else (none, d)
  else (none, d.note (.undeclaredVariant q.mrn m))

theorem variantStep_absent (ha : s.overrides.action q.mrn m = .deactivate) :
    s.variantStep role path q m d = (none, d) := by
  simp only [variantStep, ha, Action.activation, ↓reduceIte]

theorem variantStep_undeclared (ha : s.overrides.action q.mrn m ≠ .deactivate) (hv : s.bundle.queries.find? m = none) :
    s.variantStep role path q m d = (none, d.note (.undeclaredVariant q.mrn m)) := by
  simp [variantStep, Action.activation_eq_absent, ha, hv]

theorem variantStep_declared {v : Query} (ha : s.overrides.action q.mrn m ≠ .deactivate)
    (hv : s.bundle.queries.find? m = some v) : s.variantStep role path q m d =
      if s.asset.meets v.required then
        ((s.query role (q.mrn :: path) (some q.mrn) v (Keyed.mem_of_find? hv) d).1.map fun i =>
            (m, i, Impact.of (s.overrides.action q.mrn m).activation .unspecified none),
          (s.query role (q.mrn :: path) (some q.mrn) v (Keyed.mem_of_find? hv) d).2)
      else (none, d) := by
  simp only [variantStep, Action.activation_eq_absent, ha, hv, Option.isSome_some, Option.get_some, ↓reduceIte,
    ↓reduceDIte]

theorem query_cut (hc : q.isComposite = true) (hp : q.mrn ∈ path) :
    s.query role path composite q hq d = (none, d.note (.variantCycle q.mrn)) := by
  rw [query, if_pos hc]
  exact dif_pos hp

theorem query_composite (hc : q.isComposite = true) (hp : q.mrn ∉ path) : s.query role path composite q hq d =
    (gather (s.variantStep role path q) q.variants d).2.above role q
      (gather (s.variantStep role path q) q.variants d).1 := by
  rw [query, if_pos hc, dif_neg hp]
  -- the step is the one that the definition writes out
  have hstep : ∀ {step : Mrn → Draft → Option (Mrn × Link) × Draft}, (∀ m d, step m d = s.variantStep role path q m d) →
      gather step q.variants d = gather (s.variantStep role path q) q.variants d :=
    fun h => congrFun (gather_congr fun m _ => funext (h m)) d
  rw [hstep]
  intro m d
  by_cases ha : s.overrides.action q.mrn m = .deactivate
  · rw [variantStep_absent ha]
    exact if_pos (Action.activation_eq_absent.mpr ha)
  · rw [if_neg fun hn => ha (Action.activation_eq_absent.mp hn)]
    split
    · rename_i hv
      rw [variantStep_undeclared ha hv]
    · rename_i v hv
      rw [variantStep_declared ha hv]

theorem query_empty (hc : q.isComposite = false) (hk : q.code = none) :
    s.query role path composite q hq d = (none, d.note (.emptyQuery q.mrn)) := by
  rw [query]
  simp only [hc, hk]
  rfl

theorem query_code {c : Code} (hc : q.isComposite = false) (hk : q.code = some c) :
    s.query role path composite q hq d = (some (Draft.leafIdentity role q c), (d.leaf role q c composite).2) := by
  rw [query]
  simp only [hc, hk]
  rfl

theorem queryRef_absent (ha : s.overrides.effective referrer r.mrn r.action = .deactivate) :
    s.queryRef role referrer r d = (none, d) := by
  simp only [queryRef, ha, Action.activation, ↓reduceIte]

theorem queryRef_undeclared (ha : s.overrides.effective referrer r.mrn r.action ≠ .deactivate)
    (hq : s.bundle.queries.find? r.mrn = none) :
    s.queryRef role referrer r d = (none, d.note (.undeclaredQuery referrer r.mrn)) := by
  simp only [queryRef, Action.activation_eq_absent, ha, ↓reduceIte]
  split
  · rfl
  · simp_all

theorem queryRef_declared (ha : s.overrides.effective referrer r.mrn r.action ≠ .deactivate)
    (hq : s.bundle.queries.find? r.mrn = some q) : s.queryRef role referrer r d =
      if s.asset.meets q.required then
        let (i, d) := s.query role [] none q (Keyed.mem_of_find? hq) d
        (i.map fun i => (i, Impact.of (s.overrides.effective referrer r.mrn r.action).activation .unspecified r.impact), d)
      else (none, d) := by
  simp only [queryRef, Action.activation_eq_absent, ha, ↓reduceIte]
  split
  · simp_all
  · rename_i v hv
    obtain rfl := Option.some.inj (hq.symm.trans hv)
    rfl

section

variable {P : Draft → Prop}

structure KeptByQueries (b : Bundle) (P : Draft → Prop) : Prop where
  note : ∀ d e, P d → P (d.note e)
  leaf : ∀ d role q c composite, q ∈ b.queries.entries → q.code = some c → P d → P (d.leaf role q c composite).2
  above : ∀ d role q variants, P d → P (d.above role q variants).2

theorem KeptByQueries.query (h : KeptByQueries s.bundle P) (role : Role) (path : List Mrn) (composite : Option Mrn)
    (q : Query) (hq : q ∈ s.bundle.queries.entries) (d : Draft) (hd : P d) : P (s.query role path composite q hq d).2 := by
  by_cases hc : q.isComposite = true
  · by_cases hp : q.mrn ∈ path
    · rw [query_cut hc hp]
      exact h.note d _ hd
    · rw [query_composite hc hp]
      apply h.above
      apply gather_keeps _ hd
      intro m _ d hd
      by_cases ha : s.overrides.action q.mrn m = .deactivate
      · rw [variantStep_absent ha]
        exact hd
      · cases hv : s.bundle.queries.find? m with
        | none =>
          rw [variantStep_undeclared ha hv]
          exact h.note d _ hd
        | some v =>
          rw [variantStep_declared ha hv]
          split
          · exact KeptByQueries.query h role (q.mrn :: path) _ v (Keyed.mem_of_find? hv) d hd
          · exact hd
  · rw [Bool.not_eq_true] at hc
    cases hk : q.code with
    | none =>
      rw [query_empty hc hk]
      exact h.note d _ hd
    | some c =>
      rw [query_code hc hk]
      exact h.leaf d role q c composite hq hk hd
termination_by unvisited Query.mrn s.bundle.queries.entries path
decreasing_by exact unvisited_cons_lt hq hp

theorem KeptByQueries.queryRef (h : KeptByQueries s.bundle P) (role : Role) (referrer : Mrn) (r : QueryRef)
    (hd : P d) : P (s.queryRef role referrer r d).2 := by
  by_cases ha : s.overrides.effective referrer r.mrn r.action = .deactivate
  · rw [queryRef_absent ha]
    exact hd
  · cases hq : s.bundle.queries.find? r.mrn with
    | none =>
      rw [queryRef_undeclared ha hq]
      exact h.note d _ hd
    | some q =>
      rw [queryRef_declared ha hq]
      split
      · exact h.query role [] none q (Keyed.mem_of_find? hq) d hd
      · exact hd

end

theorem riskFactorJob_idle {k : RiskFactor} (hk : s.isLive k = false) : s.riskFactorJob k d = (false, d) := by
  simp [riskFactorJob, hk]

theorem riskFactorRef_settled {made : Bool} (hl : d.riskFactors.lookup m = some made) :
    s.riskFactorRef referrer m d = (if made then some (.mrn m, {}) else none, d) := by
  simp only [riskFactorRef, hl]

theorem riskFactorRef_undeclared (hl : d.riskFactors.lookup m = none) (hk : s.bundle.riskFactors.find? m = none) :
    s.riskFactorRef referrer m d = (none, d.note (.undeclaredRiskFactor referrer m)) := by
  simp only [riskFactorRef, hl, hk]

theorem riskFactorRef_first {k : RiskFactor} (hl : d.riskFactors.lookup m = none)
    (hk : s.bundle.riskFactors.find? m = some k) : s.riskFactorRef referrer m d =
      (if (s.riskFactorJob k d).1 then some (.mrn m, {}) else none,
        { (s.riskFactorJob k d).2 with riskFactors := (m, (s.riskFactorJob k d).1) :: (s.riskFactorJob k d).2.riskFactors }) := by
  simp only [riskFactorRef, hl, hk]

def referenceStep (s : Setting) (below : Mrn → Draft → Bool × Draft) (p : Policy) (r : Reference) (d : Draft) :
    Option Link × Draft :=
  match r with
  | .query role r => s.queryRef role p.mrn r d
  | .riskFactor m => s.riskFactorRef p.mrn m d
  | .policy r =>
    let a := (s.overrides.effective p.mrn r.mrn r.action).activation
    if a = .absent then (none, d)
    else
      let (made, d) := below r.mrn d
      (if made then some (.mrn r.mrn, Impact.of a (r.scoring.getD .unspecified) none) else none, d)

theorem policyLinks_eq (s : Setting) (below : Mrn → Draft → Bool × Draft) (p : Policy) :
    s.policyLinks below p = gather (s.referenceStep below p) (p.references s.asset s.now) := rfl

theorem policy_settled {made : Bool} (hl : d.policies.lookup m = some made) : s.policy path referrer m d = (made, d) := by
  rw [policy]
  split
  · rename_i made' hmade
    rw [Option.some.inj (hl.symm.trans hmade)]
  · rename_i hnone
    simp [hl] at hnone

theorem policy_cut (hl : d.policies.lookup m = none) (hm : m ∈ path) :
    s.policy path referrer m d = (false, d.note (.policyCycle referrer m)) := by
  rw [policy]
  split
  · rename_i hsome
    simp [hl] at hsome
  · exact dif_pos hm

theorem policy_undeclared (hl : d.policies.lookup m = none) (hm : m ∉ path) (hp : s.bundle.policies.find? m = none) :
    s.policy path referrer m d = (false, d.note (.undeclaredPolicy referrer m)) := by
  rw [policy]
  split
  · rename_i hsome
    simp [hl] at hsome
  · rw [dif_neg hm]
    split
    · rfl
    · rename_i q hq
      simp [hp] at hq

theorem policy_first (hl : d.policies.lookup m = none) (hm : m ∉ path) (hp : s.bundle.policies.find? m = some p) :
    s.policy path referrer m d =
      let (links, d) := s.policyLinks (s.policy (m :: path) p.mrn) p d
      let (made, d) := d.structural m .policy (s.policyScoring p) links
      (made, { d with policies := (m, made) :: d.policies }) := by
  rw [policy]
  split
  · rename_i hsome
    simp [hl] at hsome
  · rw [dif_neg hm]
    split
    · rename_i hnone
      simp [hp] at hnone
    · rename_i q hq
      obtain rfl := Option.some.inj (hp.symm.trans hq)
      rfl

def dependencyStep (below : Mrn → Draft → Bool × Draft) (r : FrameworkRef) (d : Draft) : Option Link × Draft :=
  if r.action.activation = .absent then (none, d)
  else
    let (made, d) := below r.mrn d
    (if made then some (.mrn r.mrn, Impact.of r.action.activation .unspecified none) else none, d)

variable {c : ControlScope}

theorem framework_settled {made : Bool} (hl : d.frameworks.lookup m = some made) :
    s.framework c path m d = (made, d) := by
  rw [framework, hl]

theorem framework_cut (hl : d.frameworks.lookup m = none) (hm : m ∈ path) :
    s.framework c path m d = (false, d.note (.frameworkCycle m)) := by
  rw [framework, hl]
  exact dif_pos hm

theorem framework_undeclared (hl : d.frameworks.lookup m = none) (hm : m ∉ path)
    (hf : s.bundle.frameworks.find? m = none) : s.framework c path m d = (false, d) := by
  rw [framework, hl]
  simp only [hm, ↓reduceDIte]
  split
  · rfl
  · simp_all

theorem framework_first {f : Framework} (hl : d.frameworks.lookup m = none) (hm : m ∉ path)
    (hf : s.bundle.frameworks.find? m = some f) : s.framework c path m d =
      let (controls, d) := gather (c.link (c.control [])) ((f.contentGroups s.now).flatMap (·.controls)) d
      let (below, d) := gather (dependencyStep (s.framework c (m :: path))) f.dependencies d
      let (made, d) := d.structural m .framework .average (controls ++ below)
      (made, { d with frameworks := (m, made) :: d.frameworks }) := by
  rw [framework, hl]
  simp only [hm, ↓reduceDIte]
  split
  · simp_all
  · rename_i g hg
    obtain rfl := Option.some.inj (hf.symm.trans hg)
    rfl

end Setting

end Compliance
