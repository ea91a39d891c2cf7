import Compliance.Proofs.Revisions
import Compliance.Proofs.Survey

/-!
A bundle and its revision walked side by side. The two walks settle the same, give the same links and
take edits that a relation of drafts does not tell apart, so the relation holds of what they leave.
-/

namespace Compliance

structure Draft.Steady (R : Draft → Draft → Prop) : Prop where
  refl : ∀ d, R d d
  ledger : ∀ {d d'}, R d d' → ∀ t, d.ledger t = d'.ledger t
  index : ∀ {d d'}, R d d' → ∀ role, d.index role = d'.index role
  apply : ∀ {d d'}, R d d' → ∀ e, R (d.apply e) (d'.apply e)

def Edit.Exchanges (R : Draft → Draft → Prop) (e e' : Edit) : Prop :=
  ∀ d d', R d d' → R (d.apply e) (d'.apply e')

def Lockstep {β : Type} (R : Draft → Draft → Prop) (f f' : Draft → β × Draft) : Prop :=
  ∀ d d', R d d' → (f d).1 = (f' d').1 ∧ R (f d).2 (f' d').2

theorem Draft.Steady.replay {R : Draft → Draft → Prop} (h : Draft.Steady R) (log : List Edit) {d d' : Draft}
    (hd : R d d') : R (d.replay log) (d'.replay log) := by
  induction log generalizing d d' with
  | nil => exact hd
  | cons e rest ih => exact ih (h.apply hd e)

section

variable {α β γ : Type} {R : Draft → Draft → Prop} {f f' : Draft → β × Draft}

theorem Lockstep.idle (b : β) : Lockstep R (fun d => (b, d)) (fun d => (b, d)) :=
  fun _ _ h => ⟨rfl, h⟩

theorem Lockstep.map (g : β → γ) (h : Lockstep R f f') :
    Lockstep R (fun d => (g (f d).1, (f d).2)) (fun d => (g (f' d).1, (f' d).2)) := by
  intro d d' hd
  obtain ⟨hout, hr⟩ := h d d' hd
  exact ⟨congrArg g hout, hr⟩

theorem Lockstep.bind {g g' : β → Draft → γ × Draft} (h : Lockstep R f f') (hg : ∀ b, Lockstep R (g b) (g' b)) :
    Lockstep R (fun d => g (f d).1 (f d).2) (fun d => g' (f' d).1 (f' d).2) := by
  intro d d' hd
  obtain ⟨hout, hr⟩ := h d d' hd
  simp only [← hout]
  exact hg _ _ _ hr

theorem Lockstep.gather_filter {step step' : α → Draft → Option β × Draft} {keep : α → Bool} {l : List α}
    (h : ∀ a ∈ l, keep a = true → Lockstep R (step a) (step' a))
    (hi : ∀ a ∈ l, keep a = false → ∀ d d', R d d' → (step a d).1 = none ∧ R (step a d).2 d') :
    Lockstep R (gather step l) (Compliance.gather step' (l.filter keep)) := by
  induction l with
  | nil => exact .idle []
  | cons a rest ih =>
    intro d d' hd
    have hrest := ih (fun b hb => h b (List.mem_cons_of_mem _ hb)) fun b hb => hi b (List.mem_cons_of_mem _ hb)
    cases ha : keep a with
    | true =>
      obtain ⟨hout, hr⟩ := h a List.mem_cons_self ha d d' hd
      obtain ⟨houts, hrs⟩ := hrest _ _ hr
      rw [List.filter_cons_of_pos ha, gather_cons, gather_cons, hout, houts]
      exact ⟨rfl, hrs⟩
    | false =>
      obtain ⟨hout, hr⟩ := hi a List.mem_cons_self ha d d' hd
      rw [List.filter_cons_of_neg (by simp [ha]), gather_cons, hout]
      exact hrest _ _ hr

theorem Lockstep.gather {step step' : α → Draft → Option β × Draft} {l : List α}
    (h : ∀ a ∈ l, Lockstep R (step a) (step' a)) : Lockstep R (gather step l) (Compliance.gather step' l) := by
  have hall : l.filter (fun _ => true) = l := List.filter_eq_self.mpr fun _ _ => rfl
  have hrun := Lockstep.gather_filter (fun a ha (_ : (fun _ : α => true) a = true) => h a ha) (by simp)
  rwa [hall] at hrun

theorem Lockstep.foldl_filter {step step' : Draft → α → Draft} {keep : α → Bool} {l : List α}
    (h : ∀ a ∈ l, keep a = true → ∀ d d', R d d' → R (step d a) (step' d' a))
    (hi : ∀ a ∈ l, keep a = false → ∀ d d', R d d' → R (step d a) d') {d d' : Draft} (hd : R d d') :
    R (l.foldl step d) ((l.filter keep).foldl step' d') := by
  induction l generalizing d d' with
  | nil => exact hd
  | cons a rest ih =>
    have hrest := fun {d d' : Draft} => @ih (fun b hb => h b (List.mem_cons_of_mem _ hb))
      (fun b hb => hi b (List.mem_cons_of_mem _ hb)) d d'
    cases ha : keep a with
    | true =>
      rw [List.filter_cons_of_pos ha]
      exact hrest (h a List.mem_cons_self ha d d' hd)
    | false =>
      rw [List.filter_cons_of_neg (by simp [ha])]
      exact hrest (hi a List.mem_cons_self ha d d' hd)

theorem Lockstep.foldl {step step' : Draft → α → Draft} {l : List α}
    (h : ∀ a ∈ l, ∀ d d', R d d' → R (step d a) (step' d' a)) {d d' : Draft} (hd : R d d') :
    R (l.foldl step d) (l.foldl step' d') := by
  have hall : l.filter (fun _ => true) = l := List.filter_eq_self.mpr fun _ _ => rfl
  have hrun := Lockstep.foldl_filter (fun a ha (_ : (fun _ : α => true) a = true) => h a ha) (by simp) hd
  rwa [hall] at hrun

end

theorem Draft.structural_eq (d : Draft) (m : Mrn) (t : JobType) (sc : ScoringSystem) (ls : List Link) :
    d.structural m t sc ls = (!ls.isEmpty, d.apply (.structural m t sc ls)) := by
  cases hl : ls.isEmpty <;> simp [structural, apply, hl]

theorem Draft.above_eq (d : Draft) (role : Role) (q : Query) (vs : List (Mrn × Link)) :
    d.above role q vs = (if vs.isEmpty then none else some (.mrn q.mrn), d.apply (.composite role q vs)) := by
  cases hv : vs.isEmpty <;> simp [above, apply, hv]

namespace ControlScope

variable {R : Draft → Draft → Prop} {c : ControlScope}

theorem link_lockstep {job job' : Mrn → Draft → Bool × Draft} {m : Mrn} (h : Lockstep R (job m) (job' m)) :
    Lockstep R (c.link job m) (c.link job' m) := by
  unfold ControlScope.link
  by_cases ha : c.standing m = .absent
  · simp only [ha, ↓reduceIte]
    exact .idle none
  · simp only [ha, ↓reduceIte]
    exact h.map fun made : Bool => if made then some ((.mrn m, Impact.of (c.standing m) .unspecified none) : Link) else none

variable (hR : Draft.Steady R)
include hR

theorem settle_lockstep (t : JobType) (m : Mrn) (sc : ScoringSystem) (ls : List Link) :
    Lockstep R (fun d => d.conclude t m sc ls) (fun d => d.conclude t m sc ls) := by
  intro d d' hd
  simp only [Draft.conclude, Draft.structural_eq]
  exact ⟨trivial, hR.apply (hR.apply hd (.structural m t sc ls)) (.settle t m !ls.isEmpty)⟩

theorem control_lockstep (path : List Mrn) (m : Mrn) : Lockstep R (c.control path m) (c.control path m) := by
  intro d d' hd
  have hledger : d.controls = d'.controls := hR.ledger hd .control
  cases hl : d.controls.lookup m with
  | some made =>
    rw [control_settled hl, control_settled (hledger ▸ hl)]
    exact ⟨rfl, hd⟩
  | none =>
    have hl' : d'.controls.lookup m = none := hledger ▸ hl
    by_cases hm : m ∈ path
    · rw [control_cut hl hm, control_cut hl' hm]
      exact ⟨rfl, hR.apply hd (.note (.controlCycle m))⟩
    · rcases he : c.evidence.filter (·.mrn == m) with _ | ⟨e, rest⟩
      · rw [control_bare hl hm he, control_bare hl' hm he]
        exact ⟨rfl, hR.apply hd (.settle .control m false)⟩
      · have hmem : e ∈ c.evidence ∧ e.mrn = m := by
          have hf : e ∈ c.evidence.filter (·.mrn == m) := he ▸ List.mem_cons_self
          simpa using hf
        obtain ⟨he', rfl⟩ := hmem
        rw [control_first hl hm he, control_first hl' hm he]
        have hlinks : Lockstep R
            (gather (c.follow (c.control (e.mrn :: path))) ((e :: rest).flatMap ControlMap.links))
            (gather (c.follow (c.control (e.mrn :: path))) ((e :: rest).flatMap ControlMap.links)) := by
          apply Lockstep.gather
          intro x _
          cases x with
          | query role r =>
            intro d d' hd
            simp only [follow, Draft.linked, hR.index hd]
            exact ⟨trivial, hd⟩
          | control n => exact link_lockstep (control_lockstep (e.mrn :: path) n)
        exact hlinks.bind (settle_lockstep hR .control e.mrn .average) d d' hd
termination_by unvisited ControlMap.mrn c.evidence path
decreasing_by exact unvisited_cons_lt he' hm

end ControlScope

namespace Setting

abbrev revise (s : Setting) (v : Revision) (φ : Layer → Layer) : Setting :=
  { s with bundle := s.bundle.revise v, overrides := s.overrides.map φ }

structure Veils (s : Setting) (R : Draft → Draft → Prop) (v : Revision) (φ : Layer → Layer) : Prop where
  steady : Draft.Steady R
  keeps : v.Keeps s.asset s.now φ
  variants : ∀ q, (v.query q).variants = q.variants
  narrows : ∀ q, (v.query q).required = q.required
  codeless : ∀ q, q.code = none → (v.query q).code = none
  code : ∀ q c, q.code = some c → ∃ c', (v.query q).code = some c' ∧ c'.id = c.id ∧
    ∀ role k, (Edit.leaf role q c k).Exchanges R (.leaf role (v.query q) c' k)
  policy : ∀ p ls, (Edit.structural p.mrn .policy (s.policyScoring p) ls).Exchanges R
    (.structural p.mrn .policy ((s.revise v φ).policyScoring (v.policy p)) ls)
  gates : ∀ k, (v.riskFactor k).required = k.required
  declares : ∀ k, (v.riskFactor k).action = k.action
  probes : ∀ k, (v.riskFactor k).checks = k.checks
  weigh : ∀ k, (Edit.weigh k.mrn ((s.overrides.magnitude k.mrn).getD k.magnitude)).Exchanges R
    (.weigh k.mrn (((s.revise v φ).overrides.magnitude k.mrn).getD (v.riskFactor k).magnitude))
  contents : ∀ f, ((v.framework f).contentGroups s.now).flatMap (·.controls) = (f.contentGroups s.now).flatMap (·.controls)
  modifiers : ∀ f (type : GroupType → Bool), (((v.framework f).modifierGroups s.now).filter (type ·.type)).flatMap (·.controls) =
    ((f.modifierGroups s.now).filter (type ·.type)).flatMap (·.controls)
  dependencies : ∀ f, (v.framework f).dependencies = f.dependencies
  about : ∀ m, (v.map m).framework = m.framework
  backing : ∀ m, (v.map m).policies = m.policies
  evidence : ∀ m, (v.map m).controls = m.controls
  idle : ∀ m, (Edit.note (.inactiveMap m.mrn)).Exchanges R (.note (.inactiveMap (v.map m).mrn))
  start : ∀ p, R (.start (.mrn p.mrn) p.scoring p.mrn) (.start (.mrn p.mrn) (v.policy p).scoring p.mrn)

variable {s : Setting} {R : Draft → Draft → Prop} {v : Revision} {φ : Layer → Layer} {p : Policy} {q : Query}
  {k : RiskFactor} {m : Mrn}

namespace Veils

theorem leafIdentity {c c' : Code} (hc : c'.id = c.id) (role : Role) :
    Draft.leafIdentity role (v.query q) c' = Draft.leafIdentity role q c := by
  cases role with
  | check => exact congrArg Identity.code hc
  | data => exact congrArg Identity.mrn (v.query_mrn q)

variable (h : s.Veils R v φ)
include h

theorem action : (s.revise v φ).overrides.action = s.overrides.action := h.keeps.action s.overrides

theorem effective : (s.revise v φ).overrides.effective = s.overrides.effective := by
  funext referrer m declared
  rw [Overrides.effective, h.action, Overrides.effective]

theorem above (role : Role) (q : Query) (vs : List (Mrn × Link)) :
    Lockstep R (fun d => d.above role q vs) (fun d => d.above role (v.query q) vs) := by
  have hedit : ∀ d : Draft, d.above role (v.query q) vs = d.above role q vs := by
    intro d
    simp only [Draft.above, v.query_mrn]
  intro d d' hd
  simp only [hedit, Draft.above_eq]
  exact ⟨trivial, h.steady.apply hd _⟩

theorem isComposite (q : Query) : (v.query q).isComposite = q.isComposite := by
  rw [Query.isComposite, h.variants, Query.isComposite]

theorem query (role : Role) (path : List Mrn) (composite : Option Mrn) (q : Query) (hq : q ∈ s.bundle.queries.entries)
    (hq' : v.query q ∈ (s.revise v φ).bundle.queries.entries) :
    Lockstep R (s.query role path composite q hq) ((s.revise v φ).query role path composite (v.query q) hq') := by
  intro d d' hd
  cases hc : q.isComposite with
  | false =>
    have hc' : (v.query q).isComposite = false := by rwa [h.isComposite]
    cases hk : q.code with
    | none =>
      rw [query_empty hc hk, query_empty hc' (h.codeless q hk), v.query_mrn]
      exact ⟨rfl, h.steady.apply hd (.note (.emptyQuery q.mrn))⟩
    | some c =>
      obtain ⟨c', hk', hid, hleaf⟩ := h.code q c hk
      rw [query_code hc hk, query_code hc' hk', leafIdentity hid]
      exact ⟨rfl, hleaf role composite d d' hd⟩
  | true =>
    have hc' : (v.query q).isComposite = true := by rwa [h.isComposite]
    by_cases hp : q.mrn ∈ path
    · rw [query_cut hc hp, query_cut hc' (by rwa [v.query_mrn]), v.query_mrn]
      exact ⟨rfl, h.steady.apply hd (.note (.variantCycle q.mrn))⟩
    · rw [query_composite hc hp, query_composite hc' (by rwa [v.query_mrn]), h.variants]
      refine (Lockstep.gather fun m _ => ?_).bind (h.above role q) d d' hd
      intro d d' hd
      by_cases ha : s.overrides.action q.mrn m = .deactivate
      · rw [variantStep_absent ha, variantStep_absent (by rwa [h.action, v.query_mrn])]
        exact ⟨rfl, hd⟩
      · have ha' : (s.revise v φ).overrides.action (v.query q).mrn m ≠ .deactivate := by rwa [h.action, v.query_mrn]
        cases hv : s.bundle.queries.find? m with
        | none =>
          have hv' : (s.revise v φ).bundle.queries.find? m = none := by
            rw [revise, Bundle.revise, Keyed.find?_map, hv, Option.map_none]
          rw [variantStep_undeclared ha hv, variantStep_undeclared ha' hv', v.query_mrn]
          exact ⟨rfl, h.steady.apply hd (.note (.undeclaredVariant q.mrn m))⟩
        | some w =>
          have hv' : (s.revise v φ).bundle.queries.find? m = some (v.query w) := by
            rw [revise, Bundle.revise, Keyed.find?_map, hv, Option.map_some]
          rw [variantStep_declared ha hv, variantStep_declared ha' hv', h.narrows, h.action, v.query_mrn]
          split
          · exact (query role (q.mrn :: path) (some q.mrn) w (Keyed.mem_of_find? hv) (Keyed.mem_of_find? hv')).map
              (fun i : Option Identity => i.map fun i =>
                (m, i, Impact.of (s.overrides.action q.mrn m).activation .unspecified none)) d d' hd
          · exact ⟨rfl, hd⟩
termination_by unvisited Query.mrn s.bundle.queries.entries path
decreasing_by exact unvisited_cons_lt hq hp

theorem queryRef (role : Role) (referrer : Mrn) (r : QueryRef) :
    Lockstep R (s.queryRef role referrer r) ((s.revise v φ).queryRef role referrer r) := by
  intro d d' hd
  by_cases ha : s.overrides.effective referrer r.mrn r.action = .deactivate
  · rw [queryRef_absent ha, queryRef_absent (by rwa [h.effective])]
    exact ⟨rfl, hd⟩
  · have ha' : (s.revise v φ).overrides.effective referrer r.mrn r.action ≠ .deactivate := by rwa [h.effective]
    cases hq : s.bundle.queries.find? r.mrn with
    | none =>
      have hq' : (s.revise v φ).bundle.queries.find? r.mrn = none := by
        rw [revise, Bundle.revise, Keyed.find?_map, hq, Option.map_none]
      rw [queryRef_undeclared ha hq, queryRef_undeclared ha' hq']
      exact ⟨rfl, h.steady.apply hd (.note (.undeclaredQuery referrer r.mrn))⟩
    | some q =>
      have hq' : (s.revise v φ).bundle.queries.find? r.mrn = some (v.query q) := by
        rw [revise, Bundle.revise, Keyed.find?_map, hq, Option.map_some]
      rw [queryRef_declared ha hq, queryRef_declared ha' hq', h.narrows, h.effective]
      split
      · exact (h.query role [] none q (Keyed.mem_of_find? hq) (Keyed.mem_of_find? hq')).map
          (fun i : Option Identity => i.map fun i =>
            (i, Impact.of (s.overrides.effective referrer r.mrn r.action).activation .unspecified r.impact)) d d' hd
      · exact ⟨rfl, hd⟩

theorem riskFactorJob (k : RiskFactor) : Lockstep R (s.riskFactorJob k) ((s.revise v φ).riskFactorJob (v.riskFactor k)) := by
  have hlive : (s.revise v φ).isLive (v.riskFactor k) = s.isLive k := by
    simp only [isLive, h.effective, h.gates, h.declares, v.riskFactor_mrn]
  cases hk : s.isLive k with
  | false =>
    intro d d' hd
    rw [riskFactorJob_idle hk, riskFactorJob_idle (hlive.trans hk)]
    exact ⟨rfl, hd⟩
  | true =>
    have hlinks := Lockstep.gather (R := R) (l := k.checks) fun r _ => h.queryRef .check k.mrn r
    intro d d' hd
    obtain ⟨hout, hr⟩ := hlinks d d' hd
    simp only [Setting.riskFactorJob, hlive, hk, ↓reduceIte, h.probes, v.riskFactor_mrn, ← hout, Draft.structural_eq]
    have hr' := h.steady.apply hr (.structural k.mrn .riskFactor .unspecified
      (Compliance.gather (s.queryRef .check k.mrn) k.checks d).1)
    split
    · exact ⟨rfl, h.weigh k _ _ hr'⟩
    · exact ⟨rfl, hr'⟩

theorem riskFactorRef (referrer m : Mrn) :
    Lockstep R (s.riskFactorRef referrer m) ((s.revise v φ).riskFactorRef referrer m) := by
  intro d d' hd
  have hledger : d.riskFactors = d'.riskFactors := h.steady.ledger hd .riskFactor
  cases hl : d.riskFactors.lookup m with
  | some made =>
    rw [riskFactorRef_settled hl, riskFactorRef_settled (hledger ▸ hl)]
    exact ⟨rfl, hd⟩
  | none =>
    have hl' : d'.riskFactors.lookup m = none := hledger ▸ hl
    cases hk : s.bundle.riskFactors.find? m with
    | none =>
      have hk' : (s.revise v φ).bundle.riskFactors.find? m = none := by
        rw [revise, Bundle.revise, Keyed.find?_map, hk, Option.map_none]
      rw [riskFactorRef_undeclared hl hk, riskFactorRef_undeclared hl' hk']
      exact ⟨rfl, h.steady.apply hd (.note (.undeclaredRiskFactor referrer m))⟩
    | some k =>
      have hk' : (s.revise v φ).bundle.riskFactors.find? m = some (v.riskFactor k) := by
        rw [revise, Bundle.revise, Keyed.find?_map, hk, Option.map_some]
      obtain ⟨hout, hr⟩ := h.riskFactorJob k d d' hd
      rw [riskFactorRef_first hl hk, riskFactorRef_first hl' hk', hout]
      exact ⟨rfl, h.steady.apply hr (.settle .riskFactor m ((s.revise v φ).riskFactorJob (v.riskFactor k) d').1)⟩

theorem policyLinks {below below' : Mrn → Draft → Bool × Draft} (hb : ∀ n, Lockstep R (below n) (below' n)) (p : Policy) :
    Lockstep R (s.policyLinks below p) ((s.revise v φ).policyLinks below' (v.policy p)) := by
  rw [policyLinks_eq, policyLinks_eq, h.keeps.references]
  apply Lockstep.gather
  intro r _ d d' hd
  cases r with
  | query role r =>
    simp only [referenceStep, v.policy_mrn]
    exact h.queryRef role p.mrn r d d' hd
  | riskFactor m =>
    simp only [referenceStep, v.policy_mrn]
    exact h.riskFactorRef p.mrn m d d' hd
  | policy r =>
    simp only [referenceStep, v.policy_mrn, h.effective, Action.activation_eq_absent]
    by_cases ha : s.overrides.effective p.mrn r.mrn r.action = .deactivate
    · simp only [ha, ↓reduceIte]
      exact ⟨trivial, hd⟩
    · simp only [ha, ↓reduceIte]
      exact (hb r.mrn).map (fun made : Bool => if made then some ((.mrn r.mrn,
        Impact.of (s.overrides.effective p.mrn r.mrn r.action).activation (r.scoring.getD .unspecified) none) : Link)
          else none) d d' hd

theorem conclude_policy (p : Policy) (ls : List Link) :
    Lockstep R (fun d => d.conclude .policy p.mrn (s.policyScoring p) ls)
      (fun d => d.conclude .policy p.mrn ((s.revise v φ).policyScoring (v.policy p)) ls) := by
  intro d d' hd
  simp only [Draft.conclude, Draft.structural_eq]
  exact ⟨trivial, h.steady.apply (h.policy p ls d d' hd) (.settle .policy p.mrn !ls.isEmpty)⟩

theorem visit (path : List Mrn) (referrer m : Mrn) :
    Lockstep R (s.policy path referrer m) ((s.revise v φ).policy path referrer m) := by
  intro d d' hd
  have hledger : d.policies = d'.policies := h.steady.ledger hd .policy
  cases hl : d.policies.lookup m with
  | some made =>
    rw [policy_settled hl, policy_settled (hledger ▸ hl)]
    exact ⟨rfl, hd⟩
  | none =>
    have hl' : d'.policies.lookup m = none := hledger ▸ hl
    by_cases hm : m ∈ path
    · rw [policy_cut hl hm, policy_cut hl' hm]
      exact ⟨rfl, h.steady.apply hd (.note (.policyCycle referrer m))⟩
    · cases hp : s.bundle.policies.find? m with
      | none =>
        have hp' : (s.revise v φ).bundle.policies.find? m = none := by
          rw [revise, Bundle.revise, Keyed.find?_map, hp, Option.map_none]
        rw [policy_undeclared hl hm hp, policy_undeclared hl' hm hp']
        exact ⟨rfl, h.steady.apply hd (.note (.undeclaredPolicy referrer m))⟩
      | some p =>
        have hp' : (s.revise v φ).bundle.policies.find? m = some (v.policy p) := by
          rw [revise, Bundle.revise, Keyed.find?_map, hp, Option.map_some]
        obtain rfl := Keyed.key_of_find? hp
        rw [policy_first hl hm hp, policy_first hl' hm hp', v.policy_mrn]
        exact (h.policyLinks (fun n => visit (p.mrn :: path) p.mrn n) p).bind (h.conclude_policy p) d d' hd
termination_by unvisited Policy.mrn s.bundle.policies.entries path
decreasing_by exact unvisited_cons_lt (Keyed.mem_of_find? hp) hm

theorem framework (c : ControlScope) (path : List Mrn) (m : Mrn) :
    Lockstep R (s.framework c path m) ((s.revise v φ).framework c path m) := by
  intro d d' hd
  have hledger : d.frameworks = d'.frameworks := h.steady.ledger hd .framework
  cases hl : d.frameworks.lookup m with
  | some made =>
    rw [framework_settled hl, framework_settled (hledger ▸ hl)]
    exact ⟨rfl, hd⟩
  | none =>
    have hl' : d'.frameworks.lookup m = none := hledger ▸ hl
    by_cases hm : m ∈ path
    · rw [framework_cut hl hm, framework_cut hl' hm]
      exact ⟨rfl, h.steady.apply hd (.note (.frameworkCycle m))⟩
    · cases hf : s.bundle.frameworks.find? m with
      | none =>
        have hf' : (s.revise v φ).bundle.frameworks.find? m = none := by
          rw [revise, Bundle.revise, Keyed.find?_map, hf, Option.map_none]
        rw [framework_undeclared hl hm hf, framework_undeclared hl' hm hf']
        exact ⟨rfl, hd⟩
      | some f =>
        have hf' : (s.revise v φ).bundle.frameworks.find? m = some (v.framework f) := by
          rw [revise, Bundle.revise, Keyed.find?_map, hf, Option.map_some]
        obtain rfl := Keyed.key_of_find? hf
        rw [framework_first hl hm hf, framework_first hl' hm hf', h.contents, h.dependencies]
        have hcontrols : Lockstep R (gather (c.link (c.control [])) ((f.contentGroups s.now).flatMap (·.controls)))
            (gather (c.link (c.control [])) ((f.contentGroups s.now).flatMap (·.controls))) :=
          .gather fun n _ => ControlScope.link_lockstep (ControlScope.control_lockstep h.steady [] n)
        have hbelow : Lockstep R (gather (dependencyStep (s.framework c (f.mrn :: path))) f.dependencies)
            (gather (dependencyStep ((s.revise v φ).framework c (f.mrn :: path))) f.dependencies) := by
          apply Lockstep.gather
          intro r _ d d' hd
          unfold dependencyStep
          by_cases ha : r.action.activation = .absent
          · simp only [ha, ↓reduceIte]
            exact ⟨trivial, hd⟩
          · simp only [ha, ↓reduceIte]
            exact (framework c (f.mrn :: path) r.mrn).map (fun made : Bool =>
              if made then some ((.mrn r.mrn, Impact.of r.action.activation .unspecified none) : Link) else none) d d' hd
        have hrest := fun controls : List Link => hbelow.bind fun below =>
          ControlScope.settle_lockstep h.steady .framework f.mrn .average (controls ++ below)
        exact hcontrols.bind hrest d d' hd
termination_by unvisited Framework.mrn s.bundle.frameworks.entries path
decreasing_by exact unvisited_cons_lt (Keyed.mem_of_find? hf) hm

theorem discovered (assigned : List Mrn) : (s.revise v φ).discovered assigned =
    (s.discovered assigned).map fun x => (x.1, x.2.map v.framework) := by
  refine preorder_map v.framework_mrn v.framework_mrn (fun f => ?_) s.bundle.frameworks [] assigned
  rw [h.dependencies]

theorem active (assigned : List Mrn) : ((s.revise v φ).discovered assigned).filterMap (·.2) =
    ((s.discovered assigned).filterMap (·.2)).map v.framework := by
  rw [h.discovered, List.filterMap_map, List.map_filterMap]
  rfl

theorem candidateMaps (active : List Framework) {d d' : Draft} (hd : d.policies = d'.policies) :
    (s.revise v φ).candidateMaps (active.map v.framework) d' =
      (s.candidateMaps active d).map fun x => (v.map x.1, x.2) := by
  simp only [Setting.candidateMaps, Bundle.revise, List.filter_map, List.map_map, Function.comp_def, h.about,
    h.backing, List.any_map, v.framework_mrn, hd]

theorem controlScope (active : List Framework) (maps : List (FrameworkMap × Bool)) :
    (s.revise v φ).controlScope (active.map v.framework) (maps.map fun x => (v.map x.1, x.2)) =
      s.controlScope active maps := by
  have hmodifiers : ∀ type : GroupType → Bool,
      (((active.map v.framework).flatMap (·.modifierGroups s.now)).filter (type ·.type)).flatMap (·.controls) =
        ((active.flatMap (·.modifierGroups s.now)).filter (type ·.type)).flatMap (·.controls) := by
    intro type
    simp only [List.flatMap_map, List.filter_flatMap, List.flatMap_assoc, h.modifiers]
  have hevidence : ((maps.map fun x => (v.map x.1, x.2)).filter (·.2)).flatMap (·.1.controls) =
      (maps.filter (·.2)).flatMap (·.1.controls) := by
    simp only [List.filter_map, List.flatMap_map, h.evidence]
    rfl
  simp only [Setting.controlScope, hevidence, hmodifiers (· != .exception), hmodifiers (· == .exception)]

theorem scopeOf (assigned : List Mrn) {d d' : Draft} (hd : d.policies = d'.policies) :
    (s.revise v φ).scopeOf assigned d' = s.scopeOf assigned d := by
  simp only [Setting.scopeOf, h.active, h.candidateMaps _ hd, h.controlScope]

theorem announce (assigned : List Mrn) {d d' : Draft} (hd : R d d') :
    R { d with events := d.events ++ s.frameworkEvents assigned d }
      { d' with events := d'.events ++ (s.revise v φ).frameworkEvents assigned d' } := by
  have hnote : ∀ (xs : List Event) (d : Draft), { d with events := d.events ++ xs } = xs.foldl Draft.note d := by
    intro xs
    induction xs with
    | nil => intro d; simp
    | cons x rest ih =>
      intro d
      rw [List.foldl_cons, ← ih]
      simp [Draft.note]
  have hunknown : (((s.revise v φ).discovered assigned).filter (·.2.isNone)).map (Event.undeclaredFramework ·.1) =
      ((s.discovered assigned).filter (·.2.isNone)).map (Event.undeclaredFramework ·.1) := by
    simp [h.discovered, List.filter_map, Function.comp_def]
  have hidle : ∀ maps : List (FrameworkMap × Bool), ∀ {d d'}, R d d' →
      R ((maps.map fun x => Event.inactiveMap x.1.mrn).foldl Draft.note d)
        ((maps.map fun x => Event.inactiveMap (v.map x.1).mrn).foldl Draft.note d') := by
    intro maps d d' hd
    rw [List.foldl_map, List.foldl_map]
    exact Lockstep.foldl (fun x _ d d' hd => h.idle x.1 d d' hd) hd
  simp only [frameworkEvents, h.active, h.candidateMaps _ (h.steady.ledger hd .policy), hunknown, hnote,
    List.foldl_append, List.filter_map, List.map_map]
  apply hidle
  exact Lockstep.foldl (R := R) (fun x _ d d' hd => h.steady.apply hd (.note x)) hd

theorem addFrameworks (root : Identity) (assigned : List Mrn) {d d' : Draft} (hd : R d d') :
    R (s.addFrameworks root assigned d) ((s.revise v φ).addFrameworks root assigned d') := by
  rw [addFrameworks_eq, addFrameworks_eq, h.scopeOf assigned (h.steady.ledger hd .policy)]
  generalize s.scopeOf assigned d = c
  refine Lockstep.foldl (fun m _ d d' hd => ?_) (h.announce assigned hd)
  obtain ⟨hmade, hr⟩ := h.framework c [] m d d' hd
  simp only [adopt, ← hmade]
  split
  · exact h.steady.apply hr (.connect root (.mrn m) .ignored)
  · exact hr

theorem draftPolicy (p : Policy) : R (s.draftPolicy p) ((s.revise v φ).draftPolicy (v.policy p)) := by
  have hlinks := h.policyLinks (fun n => h.visit [p.mrn] p.mrn n) p
  obtain ⟨hout, hr⟩ := hlinks _ _ (h.start p)
  simp only [Setting.draftPolicy, ← replay_hanging, v.policy_mrn, ← hout]
  exact h.steady.replay _ hr

theorem draftAsset (asset : Mrn) (policies frameworks : List Mrn) :
    R (s.draftAsset asset policies frameworks) ((s.revise v φ).draftAsset asset policies frameworks) := by
  apply h.addFrameworks
  refine Lockstep.foldl (fun m _ d d' hd => ?_) (h.steady.refl _)
  obtain ⟨hmade, hr⟩ := h.visit [] asset m d d' hd
  simp only [assign, ← hmade]
  split
  · exact h.steady.apply hr (.connect assetRoot (.mrn m) {})
  · exact hr

end Veils

end Setting

namespace Bundle

variable {b : Bundle} {r : Request} {R : Draft → Draft → Prop} {v : Revision} {φ : Layer → Layer}

theorem find?_revise (m : Mrn) : (b.revise v).policies.find? m = (b.policies.find? m).map v.policy := by
  rw [revise, Keyed.find?_map]

theorem isDeclared_revise : (b.revise v).isDeclared = b.isDeclared := by
  funext m
  rw [isDeclared, Keyed.has, find?_revise, Option.isSome_map, isDeclared, Keyed.has]

theorem setting_revise (h : v.Keeps r.asset r.now φ) : (b.revise v).setting r = (b.setting r).revise v φ := by
  rw [setting, h.collect, setting]

theorem draft_revise (h : (b.setting r).Veils R v φ) {root : Identity} {d : Draft} (hd : b.draft r = .ok (root, d)) :
    ∃ d', (b.revise v).draft r = .ok (root, d') ∧ R d d' := by
  unfold draft at hd ⊢
  rw [setting_revise h.keeps, isDeclared_revise]
  cases ht : r.target with
  | policy m =>
    simp only [ht] at hd ⊢
    cases hm : b.policies.find? m with
    | none => simp [hm] at hd
    | some p =>
      simp only [hm, Except.ok.injEq, Prod.mk.injEq] at hd
      obtain ⟨rfl, rfl⟩ := hd
      simp only [find?_revise, hm, Option.map_some]
      exact ⟨_, rfl, h.draftPolicy p⟩
  | asset asset policies frameworks =>
    simp only [ht, Except.ok.injEq, Prod.mk.injEq] at hd ⊢
    obtain ⟨rfl, rfl⟩ := hd
    exact ⟨_, ⟨rfl, rfl⟩, h.draftAsset asset (policies.filter b.isDeclared) frameworks⟩

end Bundle

end Compliance
