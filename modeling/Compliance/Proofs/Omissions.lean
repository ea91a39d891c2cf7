import Compliance.Proofs.Pruning

namespace Compliance

def Event.skipped : Event → Option Mrn
  | undeclaredAssignment _ m | undeclaredPolicy _ m | undeclaredQuery _ m | undeclaredRiskFactor _ m
  | undeclaredFramework m | undeclaredProperty _ m => some m
  | _ => none

def Bundle.dangles (b : Bundle) (e : Event) : Bool := e.skipped.any (!b.declares ·)

def Edit.events : Edit → List Event
  | note e => [e]
  | _ => []

namespace Draft

def hush (d : Draft) : Draft := { d with events := [] }

variable (d : Draft)

theorem hush_ledger (t : JobType) : d.hush.ledger t = d.ledger t := by cases t <;> rfl

theorem hush_index (role : Role) : d.hush.index role = d.index role := by cases role <;> rfl

theorem enter_hush (role : Role) (m : Mrn) (i : Identity) : (d.enter role m i).hush = d.hush.enter role m i := by
  unfold enter
  rw [hush_index]
  split
  · rfl
  · cases role <;> rfl

theorem enter_events (role : Role) (m : Mrn) (i : Identity) : (d.enter role m i).events = d.events := by
  unfold enter
  split
  · rfl
  · cases role <;> rfl

theorem apply_hush (e : Edit) : (d.apply e).hush = (d.hush.apply e).hush := by
  cases e with
  | leaf role q c k => simp only [apply, leaf, enter_hush]; rfl
  | composite role q vs =>
    simp only [apply, above]
    split
    · rfl
    · simp only [enter_hush]
      rfl
  | structural m t sc ls =>
    simp only [apply, structural]
    split <;> rfl
  | settle t m made => cases t <;> rfl
  | _ => rfl

theorem apply_events (e : Edit) : (d.apply e).events = d.events ++ e.events := by
  have same : ∀ {d' : Draft}, d'.events = d.events → d'.events = d.events ++ [] := fun h => h.trans (List.append_nil _).symm
  cases e with
  | note e => rfl
  | leaf role q c k => exact same (enter_events ..)
  | composite role q vs =>
    refine same ?_
    simp only [apply, above]
    split
    · rfl
    · exact enter_events ..
  | structural m t sc ls =>
    refine same ?_
    simp only [apply, structural]
    split <;> rfl
  | settle t m made => exact same (by cases t <;> rfl)
  | _ => exact same rfl

end Draft

namespace Setting

section

variable (s : Setting)

def pruned : Setting :=
  { s with bundle := s.bundle.prune, overrides := s.overrides.map (Layer.prune s.bundle.declares) }

/-- How a log changes without the dangling references. Their warnings go, and a variant that only a dangling word took out
is missed from then on. -/
inductive Sheds : List Event → List Event → Prop
  | nil : Sheds [] []
  | keep {e : Event} {l l' : List Event} : s.bundle.dangles e = false → Sheds l l' → Sheds (e :: l) (e :: l')
  | drop {e : Event} {l l' : List Event} : s.bundle.dangles e = true → Sheds l l' → Sheds (e :: l) l'
  | miss {q : Query} {m : Mrn} {l l' : List Event} : q ∈ s.bundle.queries.entries → m ∈ q.variants →
    s.bundle.declares m = false → s.overrides.action q.mrn m = .deactivate → Sheds l l' →
    Sheds l (.undeclaredVariant q.mrn m :: l')

def Admits : Edit → Prop
  | .note e => s.bundle.dangles e = false
  | .leaf _ q _ _ | .composite _ q _ => s.bundle.declares q.mrn = true
  | .settle t m _ => t ≠ .control → s.bundle.declares m = true
  | _ => True

structure Omits (d d' : Draft) : Prop where
  rest : d'.hush = d.hush
  log : s.Sheds d.events d'.events
  settled : ∀ t, t ≠ .control → ∀ x ∈ d.ledger t, s.bundle.declares x.1 = true
  entered : ∀ role m i, (d.index role).lookup m = some i → s.bundle.declares m = true

end

variable {s : Setting}

namespace Sheds

variable {l l' k k' : List Event}

theorem append (h : s.Sheds l l') (hk : s.Sheds k k') : s.Sheds (l ++ k) (l' ++ k') := by
  induction h with
  | nil => exact hk
  | keep he _ ih => exact .keep he ih
  | drop he _ ih => exact .drop he ih
  | miss hq hm hd ha _ ih => exact .miss hq hm hd ha ih

theorem of_filter {α : Type} {f : α → Event} {keep : α → Bool} {l : List α}
    (h : ∀ a ∈ l, s.bundle.dangles (f a) = !keep a) : s.Sheds (l.map f) ((l.filter keep).map f) := by
  induction l with
  | nil => exact .nil
  | cons a rest ih =>
    have ha := h a List.mem_cons_self
    have hrest := ih fun b hb => h b (List.mem_cons_of_mem _ hb)
    cases hk : keep a with
    | true =>
      rw [List.filter_cons_of_pos hk]
      exact .keep (by rw [ha, hk]; rfl) hrest
    | false =>
      rw [List.filter_cons_of_neg (by simp [hk])]
      exact .drop (by rw [ha, hk]; rfl) hrest

theorem same (h : ∀ e ∈ l, s.bundle.dangles e = false) : s.Sheds l l := by
  induction l with
  | nil => exact .nil
  | cons e rest ih => exact .keep (h e List.mem_cons_self) (ih fun x hx => h x (List.mem_cons_of_mem _ hx))

theorem sublist (h : s.Sheds l l') (hv : ∀ q ∈ s.bundle.queries.entries, ∀ m ∈ q.variants, s.bundle.declares m = true) :
    l'.Sublist l := by
  induction h with
  | nil => exact .slnil
  | keep _ _ ih => exact ih.cons_cons _
  | drop _ _ ih => exact ih.cons _
  | miss hq hm hn _ _ _ => exact absurd (hv _ hq _ hm) (by simp [hn])

end Sheds

namespace Omits

variable {d d' : Draft} {role : Role} {m : Mrn} {t : JobType}

theorem start (root : Identity) (sc : ScoringSystem) (m : Mrn) : s.Omits (.start root sc m) (.start root sc m) where
  rest := rfl
  log := .nil
  settled t _ x hx := by cases t <;> simp [Draft.start, Draft.ledger] at hx
  entered role m i hi := by cases role <;> simp [Draft.start, Draft.index] at hi

variable (h : s.Omits d d')
include h

theorem ledger (t : JobType) : d.ledger t = d'.ledger t := by
  rw [← d.hush_ledger, ← h.rest, d'.hush_ledger]

theorem index (role : Role) : d.index role = d'.index role := by
  rw [← d.hush_index, ← h.rest, d'.hush_index]

theorem graph : d'.graph = d.graph := (congrArg Draft.graph h.rest :)

theorem magnitudes : d'.magnitudes = d.magnitudes := (congrArg Draft.magnitudes h.rest :)

theorem lookup_ledger (ht : t ≠ .control) (hm : s.bundle.declares m = false) : (d.ledger t).lookup m = none := by
  refine Option.eq_none_iff_forall_ne_some.mpr fun made hl => ?_
  have hd := h.settled t ht _ (mem_of_lookup hl)
  simp [hm] at hd

theorem lookup_index (hm : s.bundle.declares m = false) : (d.index role).lookup m = none := by
  refine Option.eq_none_iff_forall_ne_some.mpr fun i hi => ?_
  have hd := h.entered role m i hi
  simp [hm] at hd

theorem apply {e : Edit} (he : s.Admits e) : s.Omits (d.apply e) (d'.apply e) where
  rest := by rw [Draft.apply_hush, h.rest, ← Draft.apply_hush]
  log := by
    rw [Draft.apply_events, Draft.apply_events]
    refine h.log.append (.same fun x hx => ?_)
    cases e with
    | note e =>
      obtain rfl := List.mem_singleton.mp hx
      exact he
    | _ => exact absurd hx List.not_mem_nil
  settled t ht x hx := by
    rw [Draft.apply_ledger] at hx
    rcases List.mem_append.mp hx with hx | hx
    · cases e with
      | settle t' m made =>
        cases t <;> cases t' <;> simp_all [Edit.entries, Admits]
      | _ => cases t <;> simp [Edit.entries] at hx
    · exact h.settled t ht x hx
  entered role m i hi := by
    rw [Draft.apply_lookup, Option.or_eq_some_iff] at hi
    rcases hi with hi | ⟨-, hi⟩
    · exact h.entered role m i hi
    · cases e with
      | leaf role' q c k =>
        obtain ⟨⟨-, rfl⟩, -⟩ := Option.ite_none_right_eq_some.mp hi
        exact he
      | composite role' q vs =>
        obtain ⟨⟨-, -, rfl⟩, -⟩ := Option.ite_none_right_eq_some.mp hi
        exact he
      | _ => cases hi

theorem miss {q : Query} (hq : q ∈ s.bundle.queries.entries) (hm : m ∈ q.variants) (hn : s.bundle.declares m = false)
    (ha : s.overrides.action q.mrn m = .deactivate) : s.Omits d (d'.note (.undeclaredVariant q.mrn m)) where
  rest := h.rest
  log := by
    have hlog := h.log.append (.miss hq hm hn ha .nil)
    rwa [List.append_nil] at hlog
  settled := h.settled
  entered := h.entered

theorem skip {e : Event} (he : s.bundle.dangles e = true) : s.Omits (d.note e) d' where
  rest := h.rest
  log := by
    have hlog := h.log.append (.drop he .nil)
    rwa [List.append_nil] at hlog
  settled := h.settled
  entered := h.entered

end Omits

theorem above_omits (role : Role) {q : Query} (hq : q ∈ s.bundle.queries.entries) (vs : List (Mrn × Link)) :
    Lockstep s.Omits (fun d => d.above role q vs) (fun d => d.above role (q.prune s.bundle.declares) vs) := by
  intro d d' hd
  have hsame : d'.above role (q.prune s.bundle.declares) vs = d'.above role q vs := rfl
  simp only [hsame, Draft.above_eq]
  exact ⟨trivial, hd.apply (e := .composite role q vs) (Bundle.declares_query hq)⟩

theorem pruned_query {m : Mrn} {q : Option Query} (h : s.bundle.queries.find? m = q) :
    s.pruned.bundle.queries.find? m = q.map (Query.prune s.bundle.declares) := h ▸ s.bundle.find?_queries_prune m

theorem variantStep_missed {role : Role} {path : List Mrn} {q : Query} (hq : q ∈ s.bundle.queries.entries) {m : Mrn}
    (hm : m ∈ q.variants) (hn : s.bundle.declares m = false) :
    Lockstep s.Omits (s.variantStep role path q m) (s.pruned.variantStep role path (q.prune s.bundle.declares) m) := by
  intro d d' hd
  have hv := (Bundle.declares_eq_false.mp hn).2.2.1
  have hv' : s.pruned.bundle.queries.find? m = none := pruned_query hv
  have hunsaid : s.pruned.overrides.action (q.prune s.bundle.declares).mrn m = .unspecified :=
    Overrides.action_pruned s.overrides hn q.mrn
  have ha' : s.pruned.overrides.action (q.prune s.bundle.declares).mrn m ≠ .deactivate := by
    rw [hunsaid]
    exact nofun
  rw [variantStep_undeclared ha' hv']
  by_cases ha : s.overrides.action q.mrn m = .deactivate
  · rw [variantStep_absent ha]
    exact ⟨rfl, hd.miss (q := q) hq hm hn ha⟩
  · rw [variantStep_undeclared ha hv]
    exact ⟨rfl, hd.apply (e := .note (.undeclaredVariant q.mrn m)) rfl⟩

theorem variantStep_omits {role : Role} {path : List Mrn} {q : Query} {m : Mrn} (hn : s.bundle.declares m = true)
    (h : ∀ v (hv : s.bundle.queries.find? m = some v) (hv' : s.pruned.bundle.queries.find? m = some (v.prune s.bundle.declares)),
      Lockstep s.Omits (s.query role (q.mrn :: path) (some q.mrn) v (Keyed.mem_of_find? hv))
        (s.pruned.query role (q.mrn :: path) (some q.mrn) (v.prune s.bundle.declares) (Keyed.mem_of_find? hv'))) :
    Lockstep s.Omits (s.variantStep role path q m) (s.pruned.variantStep role path (q.prune s.bundle.declares) m) := by
  intro d d' hd
  have hsame : s.pruned.overrides.action (q.prune s.bundle.declares).mrn m = s.overrides.action q.mrn m :=
    Overrides.action_prune s.overrides hn q.mrn
  by_cases ha : s.overrides.action q.mrn m = .deactivate
  · rw [variantStep_absent ha, variantStep_absent (hsame.trans ha)]
    exact ⟨rfl, hd⟩
  · have ha' : s.pruned.overrides.action (q.prune s.bundle.declares).mrn m ≠ .deactivate := hsame ▸ ha
    cases hv : s.bundle.queries.find? m with
    | none =>
      have hv' : s.pruned.bundle.queries.find? m = none := pruned_query hv
      rw [variantStep_undeclared ha hv, variantStep_undeclared ha' hv']
      exact ⟨rfl, hd.apply (e := .note (.undeclaredVariant q.mrn m)) rfl⟩
    | some v =>
      have hv' : s.pruned.bundle.queries.find? m = some (v.prune s.bundle.declares) := pruned_query hv
      have hmeets : s.pruned.asset.meets (v.prune s.bundle.declares).required = s.asset.meets v.required := rfl
      rw [variantStep_declared ha hv, variantStep_declared ha' hv', hsame, hmeets]
      split
      · exact (h v hv hv').map (fun i : Option Identity => i.map fun i =>
          (m, i, Impact.of (s.overrides.action q.mrn m).activation .unspecified none)) d d' hd
      · exact ⟨rfl, hd⟩

theorem query_omits (role : Role) (path : List Mrn) (composite : Option Mrn) (q : Query) (hq : q ∈ s.bundle.queries.entries)
    (hq' : q.prune s.bundle.declares ∈ s.pruned.bundle.queries.entries) : Lockstep s.Omits
      (s.query role path composite q hq) (s.pruned.query role path composite (q.prune s.bundle.declares) hq') := by
  intro d d' hd
  cases hc : q.isComposite with
  | false =>
    have hc' : (q.prune s.bundle.declares).isComposite = false := hc
    cases hk : q.code with
    | none =>
      rw [query_empty hc hk, query_empty hc' hk]
      exact ⟨rfl, hd.apply (e := .note (.emptyQuery q.mrn)) rfl⟩
    | some c =>
      rw [query_code hc hk, query_code hc' hk]
      exact ⟨rfl, hd.apply (e := .leaf role q c composite) (Bundle.declares_query hq)⟩
  | true =>
    have hc' : (q.prune s.bundle.declares).isComposite = true := hc
    by_cases hp : q.mrn ∈ path
    · rw [query_cut hc hp, query_cut hc' hp]
      exact ⟨rfl, hd.apply (e := .note (.variantCycle q.mrn)) rfl⟩
    · rw [query_composite hc hp, query_composite hc' hp]
      refine (Lockstep.gather fun m hm => ?_).bind (above_omits role hq) d d' hd
      -- in the pruned bundle the variant is still named, for the query keeps all of its variants
      cases hn : s.bundle.declares m with
      | false => exact variantStep_missed hq hm hn
      | true => exact variantStep_omits hn fun v hv hv' => query_omits role (q.mrn :: path) (some q.mrn) v _ _
termination_by unvisited Query.mrn s.bundle.queries.entries path
decreasing_by exact unvisited_cons_lt hq hp

theorem effective_pruned {m : Mrn} (hn : s.bundle.declares m = true) (referrer : Mrn) (declared : Action) :
    s.pruned.overrides.effective referrer m declared = s.overrides.effective referrer m declared :=
  Overrides.effective_prune s.overrides hn referrer declared

theorem queryRef_omits (role : Role) (referrer : Mrn) (r : QueryRef) (hn : s.bundle.declares r.mrn = true) :
    Lockstep s.Omits (s.queryRef role referrer r) (s.pruned.queryRef role referrer r) := by
  intro d d' hd
  have hsame := effective_pruned hn referrer r.action
  by_cases ha : s.overrides.effective referrer r.mrn r.action = .deactivate
  · rw [queryRef_absent ha, queryRef_absent (hsame.trans ha)]
    exact ⟨rfl, hd⟩
  · have ha' : s.pruned.overrides.effective referrer r.mrn r.action ≠ .deactivate := hsame ▸ ha
    cases hq : s.bundle.queries.find? r.mrn with
    | none =>
      have hq' : s.pruned.bundle.queries.find? r.mrn = none := pruned_query hq
      have he : s.bundle.dangles (.undeclaredQuery referrer r.mrn) = false := by
        simp [Bundle.dangles, Event.skipped, hn]
      rw [queryRef_undeclared ha hq, queryRef_undeclared ha' hq']
      exact ⟨rfl, hd.apply (e := .note (.undeclaredQuery referrer r.mrn)) he⟩
    | some q =>
      have hq' : s.pruned.bundle.queries.find? r.mrn = some (q.prune s.bundle.declares) := pruned_query hq
      have hmeets : s.pruned.asset.meets (q.prune s.bundle.declares).required = s.asset.meets q.required := rfl
      rw [queryRef_declared ha hq, queryRef_declared ha' hq', hsame, hmeets]
      split
      · exact (query_omits role [] none q (Keyed.mem_of_find? hq) (Keyed.mem_of_find? hq')).map
          (fun i : Option Identity => i.map fun i =>
            (i, Impact.of (s.overrides.effective referrer r.mrn r.action).activation .unspecified r.impact)) d d' hd
      · exact ⟨rfl, hd⟩

theorem queryRef_skipped (role : Role) (referrer : Mrn) {r : QueryRef} (hn : s.bundle.declares r.mrn = false) {d d' : Draft}
    (hd : s.Omits d d') : (s.queryRef role referrer r d).1 = none ∧ s.Omits (s.queryRef role referrer r d).2 d' := by
  by_cases ha : s.overrides.effective referrer r.mrn r.action = .deactivate
  · rw [queryRef_absent ha]
    exact ⟨rfl, hd⟩
  · rw [queryRef_undeclared ha (Bundle.declares_eq_false.mp hn).2.2.1]
    exact ⟨rfl, hd.skip (by simp [Bundle.dangles, Event.skipped, hn])⟩

theorem pruned_riskFactor {m : Mrn} {k : Option RiskFactor} (h : s.bundle.riskFactors.find? m = k) :
    s.pruned.bundle.riskFactors.find? m = k.map (RiskFactor.prune s.bundle.declares) := h ▸ s.bundle.find?_riskFactors_prune m

theorem pruned_policy {m : Mrn} {p : Option Policy} (h : s.bundle.policies.find? m = p) :
    s.pruned.bundle.policies.find? m = p.map (Policy.prune s.bundle.declares) := h ▸ s.bundle.find?_policies_prune m

theorem riskFactorJob_omits (k : RiskFactor) (hn : s.bundle.declares k.mrn = true) :
    Lockstep s.Omits (s.riskFactorJob k) (s.pruned.riskFactorJob (k.prune s.bundle.declares)) := by
  have hlive : s.pruned.isLive (k.prune s.bundle.declares) = s.isLive k := by
    simp only [isLive, RiskFactor.prune, effective_pruned hn]
    rfl
  have hmagnitude : s.pruned.overrides.magnitude k.mrn = s.overrides.magnitude k.mrn :=
    Overrides.magnitude_prune s.overrides hn
  have hchecks : (k.prune s.bundle.declares).checks = k.checks.filter (s.bundle.declares ·.mrn) := rfl
  cases hk : s.isLive k with
  | false =>
    intro d d' hd
    rw [riskFactorJob_idle hk, riskFactorJob_idle (hlive.trans hk)]
    exact ⟨rfl, hd⟩
  | true =>
    have hlinks : Lockstep s.Omits (gather (s.queryRef .check k.mrn) k.checks)
        (gather (s.pruned.queryRef .check k.mrn) (k.checks.filter (s.bundle.declares ·.mrn))) :=
      .gather_filter (fun r _ hn => queryRef_omits .check k.mrn r hn) fun r _ hn d d' => queryRef_skipped .check k.mrn hn
    intro d d' hd
    obtain ⟨hout, hr⟩ := hlinks d d' hd
    simp only [riskFactorJob, hlive, hk, ↓reduceIte, hchecks]
    simp only [RiskFactor.prune, ← hout, Draft.structural_eq, hmagnitude]
    have hr' := hr.apply (e := .structural k.mrn .riskFactor .unspecified
      (gather (s.queryRef .check k.mrn) k.checks d).1) trivial
    split
    · exact ⟨rfl, hr'.apply (e := .weigh k.mrn ((s.overrides.magnitude k.mrn).getD k.magnitude)) trivial⟩
    · exact ⟨rfl, hr'⟩

theorem riskFactorRef_omits (referrer m : Mrn) (hn : s.bundle.declares m = true) :
    Lockstep s.Omits (s.riskFactorRef referrer m) (s.pruned.riskFactorRef referrer m) := by
  intro d d' hd
  have hledger : d.riskFactors = d'.riskFactors := hd.ledger .riskFactor
  cases hl : d.riskFactors.lookup m with
  | some made =>
    rw [riskFactorRef_settled hl, riskFactorRef_settled (hledger ▸ hl)]
    exact ⟨rfl, hd⟩
  | none =>
    have hl' : d'.riskFactors.lookup m = none := hledger ▸ hl
    cases hk : s.bundle.riskFactors.find? m with
    | none =>
      have hk' : s.pruned.bundle.riskFactors.find? m = none := pruned_riskFactor hk
      have he : s.bundle.dangles (.undeclaredRiskFactor referrer m) = false := by
        simp [Bundle.dangles, Event.skipped, hn]
      rw [riskFactorRef_undeclared hl hk, riskFactorRef_undeclared hl' hk']
      exact ⟨rfl, hd.apply (e := .note (.undeclaredRiskFactor referrer m)) he⟩
    | some k =>
      have hk' : s.pruned.bundle.riskFactors.find? m = some (k.prune s.bundle.declares) := pruned_riskFactor hk
      obtain rfl := Keyed.key_of_find? hk
      obtain ⟨hout, hr⟩ := riskFactorJob_omits k hn d d' hd
      rw [riskFactorRef_first hl hk, riskFactorRef_first hl' hk', hout]
      exact ⟨rfl, hr.apply (e := .settle .riskFactor k.mrn (s.pruned.riskFactorJob (k.prune s.bundle.declares) d').1)
        fun _ => hn⟩

theorem riskFactorRef_skipped (referrer : Mrn) {m : Mrn} (hn : s.bundle.declares m = false) {d d' : Draft}
    (hd : s.Omits d d') : (s.riskFactorRef referrer m d).1 = none ∧ s.Omits (s.riskFactorRef referrer m d).2 d' := by
  have hl : d.riskFactors.lookup m = none := hd.lookup_ledger (t := .riskFactor) nofun hn
  rw [riskFactorRef_undeclared hl (Bundle.declares_eq_false.mp hn).2.2.2]
  exact ⟨rfl, hd.skip (by simp [Bundle.dangles, Event.skipped, hn])⟩

theorem policy_skipped {path : List Mrn} (hpath : ∀ n ∈ path, s.bundle.declares n = true) (referrer : Mrn) {m : Mrn}
    (hn : s.bundle.declares m = false) {d d' : Draft} (hd : s.Omits d d') :
    (s.policy path referrer m d).1 = false ∧ s.Omits (s.policy path referrer m d).2 d' := by
  have hl : d.policies.lookup m = none := hd.lookup_ledger (t := .policy) nofun hn
  have hm : m ∉ path := fun hm => Bool.false_ne_true (hn.symm.trans (hpath m hm))
  rw [policy_undeclared hl hm (Bundle.declares_eq_false.mp hn).1]
  exact ⟨rfl, hd.skip (by simp [Bundle.dangles, Event.skipped, hn])⟩

theorem policyLinks_omits {below below' : Mrn → Draft → Bool × Draft} {p : Policy}
    (hb : ∀ n, s.bundle.declares n = true → Lockstep s.Omits (below n) (below' n))
    (hi : ∀ n, s.bundle.declares n = false → ∀ d d', s.Omits d d' → (below n d).1 = false ∧ s.Omits (below n d).2 d') :
    Lockstep s.Omits (s.policyLinks below p) (s.pruned.policyLinks below' (p.prune s.bundle.declares)) := by
  have hrefs : (p.prune s.bundle.declares).references s.pruned.asset s.pruned.now =
      (p.references s.asset s.now).filter (s.bundle.declares ·.mrn) := p.references_prune
  have hmrn : (p.prune s.bundle.declares).mrn = p.mrn := rfl
  rw [policyLinks_eq, policyLinks_eq, hrefs]
  apply Lockstep.gather_filter
  · intro x _ hn d d' hd
    cases x with
    | query role r => exact queryRef_omits role p.mrn r hn d d' hd
    | riskFactor m => exact riskFactorRef_omits p.mrn m hn d d' hd
    | policy r =>
      have hsame : s.pruned.overrides.effective p.mrn r.mrn r.action = s.overrides.effective p.mrn r.mrn r.action :=
        effective_pruned hn p.mrn r.action
      simp only [referenceStep, hmrn, hsame, Action.activation_eq_absent]
      by_cases ha : s.overrides.effective p.mrn r.mrn r.action = .deactivate
      · simp only [ha, ↓reduceIte]
        exact ⟨trivial, hd⟩
      · simp only [ha, ↓reduceIte]
        exact (hb r.mrn hn).map (fun made : Bool => if made then some ((.mrn r.mrn,
          Impact.of (s.overrides.effective p.mrn r.mrn r.action).activation (r.scoring.getD .unspecified) none) : Link)
            else none) d d' hd
  · intro x _ hn d d' hd
    cases x with
    | query role r => exact queryRef_skipped role p.mrn hn hd
    | riskFactor m => exact riskFactorRef_skipped p.mrn hn hd
    | policy r =>
      simp only [referenceStep]
      split
      · exact ⟨rfl, hd⟩
      · obtain ⟨hmade, hr⟩ := hi r.mrn hn d d' hd
        rw [hmade]
        exact ⟨rfl, hr⟩

theorem conclude_omits (t : JobType) {m : Mrn} (sc : ScoringSystem) (ls : List Link)
    (hn : t ≠ .control → s.bundle.declares m = true) :
    Lockstep s.Omits (fun d => d.conclude t m sc ls) (fun d => d.conclude t m sc ls) := by
  intro d d' hd
  simp only [Draft.conclude, Draft.structural_eq]
  have hr := hd.apply (e := .structural m t sc ls) trivial
  exact ⟨trivial, hr.apply (e := .settle t m !ls.isEmpty) hn⟩

theorem policy_omits {path : List Mrn} (hpath : ∀ n ∈ path, s.bundle.declares n = true) (referrer m : Mrn)
    (hn : s.bundle.declares m = true) : Lockstep s.Omits (s.policy path referrer m) (s.pruned.policy path referrer m) := by
  intro d d' hd
  have hledger : d.policies = d'.policies := hd.ledger .policy
  cases hl : d.policies.lookup m with
  | some made =>
    rw [policy_settled hl, policy_settled (hledger ▸ hl)]
    exact ⟨rfl, hd⟩
  | none =>
    have hl' : d'.policies.lookup m = none := hledger ▸ hl
    by_cases hm : m ∈ path
    · rw [policy_cut hl hm, policy_cut hl' hm]
      exact ⟨rfl, hd.apply (e := .note (.policyCycle referrer m)) rfl⟩
    · cases hp : s.bundle.policies.find? m with
      | none =>
        have hp' : s.pruned.bundle.policies.find? m = none := pruned_policy hp
        have he : s.bundle.dangles (.undeclaredPolicy referrer m) = false := by
          simp [Bundle.dangles, Event.skipped, hn]
        rw [policy_undeclared hl hm hp, policy_undeclared hl' hm hp']
        exact ⟨rfl, hd.apply (e := .note (.undeclaredPolicy referrer m)) he⟩
      | some p =>
        have hp' : s.pruned.bundle.policies.find? m = some (p.prune s.bundle.declares) := pruned_policy hp
        obtain rfl := Keyed.key_of_find? hp
        have hpath' : ∀ n ∈ p.mrn :: path, s.bundle.declares n = true := List.forall_mem_cons.mpr ⟨hn, hpath⟩
        have hscoring : s.pruned.policyScoring (p.prune s.bundle.declares) = s.policyScoring p := by
          rw [policyScoring, policyScoring, ← Overrides.scoring_prune s.overrides hn]
          rfl
        rw [policy_first hl hm hp, policy_first hl' hm hp', hscoring]
        exact (policyLinks_omits (fun n hn => policy_omits hpath' p.mrn n hn)
          fun n hn d d' hd => policy_skipped hpath' p.mrn hn hd).bind
            (fun ls => conclude_omits .policy (s.policyScoring p) ls fun _ => hn) d d' hd
termination_by unvisited Policy.mrn s.bundle.policies.entries path
decreasing_by exact unvisited_cons_lt (Keyed.mem_of_find? hp) hm

end Setting

end Compliance
