import Compliance.Proofs.Modifications

/-!
The evidence behind the jobs of controls. A control has a job only if links between controls lead to one that a
query attests. Settled while another one is still open, it forgoes the links that lead back; so it may miss
evidence that lies beyond them, and which control misses it is a matter of the order in which they are listed.
-/

namespace Compliance

def ControlMap.asked (e : ControlMap) : Role → List QueryRef
  | .check => e.checks
  | .data => e.queries

/-- The framework of the map is adopted, and one of the policies that it depends on has a job. -/
def FrameworkMap.InForce (m : FrameworkMap) (b : Bundle) (frameworks : List Mrn) (g : Graph) : Prop :=
  (∃ f, b.Adopts frameworks f ∧ f.mrn = m.framework) ∧ ∃ p ∈ m.policies, g.Holds (.mrn p) fun j => j.type = .policy

section

open scoped Classical

noncomputable def Bundle.attested (b : Bundle) (frameworks : List Mrn) (g : Graph) : List ControlMap :=
  (b.maps.filter fun m => m.InForce b frameworks g).flatMap (·.controls)

theorem Bundle.mem_attested {b : Bundle} {frameworks : List Mrn} {g : Graph} {e : ControlMap} :
    e ∈ b.attested frameworks g ↔ ∃ m ∈ b.maps, m.InForce b frameworks g ∧ e ∈ m.controls := by
  simp [attested, and_assoc]

theorem FrameworkMap.inForce_shareMrns {m : FrameworkMap} {b : Bundle} {frameworks : List Mrn} {g : Graph} :
    m.InForce b frameworks g.shareMrns ↔ m.InForce b frameworks g :=
  and_congr_right' (exists_congr fun _ => and_congr_right' Graph.shareMrns_holds_type)

theorem Bundle.attested_shareMrns {b : Bundle} {frameworks : List Mrn} {g : Graph} :
    b.attested frameworks g.shareMrns = b.attested frameworks g :=
  congrArg (List.flatMap _) (List.filter_congr fun _ _ => decide_eq_decide.mpr FrameworkMap.inForce_shareMrns)

namespace Setting

variable (s : Setting) (policies frameworks : List Mrn) (g : Graph)

/-- A query that the walk reaches, and that leads to code. -/
def Materialized (role : Role) (q : Query) : Prop :=
  ∃ e path, s.Referenced policies role e ∧ s.Trail ([], e) (path, q) ∧ s.Yields path q

/-- A map in force links the control to a materialized query, by a reference that is not deactivated. -/
def Attested (m : Mrn) : Prop :=
  ∃ e ∈ s.bundle.attested frameworks g, e.mrn = m ∧ ∃ role, ∃ r ∈ e.asked role, r.action ≠ .deactivate ∧
    ∃ q, s.Materialized policies role q ∧ q.mrn = r.mrn

def LinksTo (m n : Mrn) : Prop :=
  ∃ e ∈ s.bundle.attested frameworks g, e.mrn = m ∧ n ∈ e.controls ∧ ¬s.bundle.Removes frameworks s.now n

def Advances (m n : Mrn) : Prop := s.LinksTo frameworks g m n ∧ ¬Relation.ReflTransGen (s.LinksTo frameworks g) n m

def Summons (m : Mrn) : Prop := s.bundle.Cites frameworks s.now m .content ∧ ¬s.bundle.Removes frameworks s.now m

/-- The controls in the order in which a depth-first search from those that are listed is done with them, the latest
first. -/
noncomputable def settlement : List Mrn :=
  (((s.adopting [] frameworks).flatMap s.listed).filter fun m => ¬s.bundle.Removes frameworks s.now m).foldl
    (fun done m => finish (s.bundle.attested frameworks g) ControlMap.mrn
      (fun e => e.controls.filter fun n => ¬s.bundle.Removes frameworks s.now n) [] m done) []

def RestsOn (m n : Mrn) : Prop := s.LinksTo frameworks g m n ∧ ∃ tail, m :: tail <:+ s.settlement frameworks g ∧ n ∈ tail

variable {s policies frameworks g}

theorem scopeOf_evidence_eq {d : Draft} : (s.scopeOf frameworks d).evidence =
    (s.bundle.maps.filter fun m => (m.policies.any fun p => d.policies.lookup p == some true) &&
      (s.adopting [] frameworks).any (·.mrn == m.framework)).flatMap (·.controls) := by
  simp only [scopeOf, controlScope, candidateMaps, List.filter_map, List.flatMap_map, List.filter_filter]
  rfl

theorem Materialized.widen {policies' : List Mrn} {role : Role} {q : Query}
    (hl : ∀ m p, s.bundle.policies.find? m = some p → m ∈ policies → m ∈ policies') (h : s.Materialized policies role q) :
    s.Materialized policies' role q := by
  obtain ⟨e, path, he, ht, hy⟩ := h
  have hwalked : ∀ p, s.Walked policies p → s.Walked policies' p :=
    fun p hp => hp.widen fun m hm q hq => .root (hl m q hq hm) hq
  exact ⟨e, path, he.widen hwalked, ht, hy⟩

theorem materialized_congr {policies' : List Mrn}
    (hp : ∀ m p, s.bundle.policies.find? m = some p → (m ∈ policies ↔ m ∈ policies')) {role : Role} {q : Query} :
    s.Materialized policies role q ↔ s.Materialized policies' role q :=
  ⟨.widen fun m p hm => (hp m p hm).mp, .widen fun m p hm => (hp m p hm).mpr⟩

variable {asset : Mrn} {ms : List Mrn} {d d₀ : Draft} {log log' : List Edit} {c : ControlScope} {m n : Mrn}
  {i : Identity} {done : List (Mrn × Bool)}

theorem exists_entered_iff {role : Role} {i : Identity} :
    (∃ q e, s.Referenced ms role q ∧ s.Draws role ([], q) e ∧ e.entered role m = some i) ↔
      ∃ q, s.Materialized ms role q ∧ q.mrn = m ∧ role.identity q = i := by
  constructor
  · rintro ⟨x, e, hx, hdraw, hi⟩
    cases hdraw with
    | leaf ht hn hc =>
      obtain ⟨⟨-, hm⟩, hi⟩ := Option.ite_none_right_eq_some.mp hi
      exact ⟨_, ⟨x, _, hx, ht, .code hn hc⟩, hm, by simpa [Role.identity, hn, hc] using hi⟩
    | composite ht hp hl =>
      obtain ⟨⟨-, -, hm⟩, hi⟩ := Option.ite_none_right_eq_some.mp hi
      obtain ⟨v, hv, hy⟩ := variantLinks_ne_nil.mp hl
      exact ⟨_, ⟨x, _, hx, ht, .variant hp hv hy⟩, hm, by simpa [Role.identity, hv.isComposite] using hi⟩
  · rintro ⟨q, ⟨x, path, hx, ht, hy⟩, rfl, rfl⟩
    cases hy with
    | code hn hc => exact ⟨x, _, hx, .leaf ht hn hc, by simp [Edit.entered, Role.identity, hn, hc]⟩
    | variant hp hv hy =>
      have hl : s.variantLinks role path q ≠ [] := variantLinks_ne_nil.mpr ⟨_, hv, hy⟩
      exact ⟨x, _, hx, .composite ht hp hl, by simp [Edit.entered, Role.identity, hl, hv.isComposite]⟩

namespace Assessed

variable (h : s.Assessed asset ms frameworks c d₀ d log log')
include h

theorem policy_iff {p : Mrn} :
    (p, true) ∈ (s.together asset ms).policies ↔ d.graph.Holds (.mrn p) fun j => j.type = .policy := by
  rw [h.assigned.settled_iff h.proper]
  constructor
  · rintro ⟨hp, j, hj, hi, -⟩
    have htyped : (s.together asset ms).graph.Typed (.mrn p) .policy j.scoring := by
      refine ⟨j, hj, hi, ?_, rfl⟩
      rcases h.assigned.job hj with ⟨hr, -⟩ | ⟨role, q, hq, hr, -⟩ | ⟨k, n, hr, hk, ⟨rfl, -⟩ | ⟨-, ht⟩⟩
      · exact absurd (hi.symm.trans hr) (h.proper.distinct.ne_assetRoot hp)
      · obtain rfl := Role.mrn_of_identity (hr.symm.trans hi)
        cases h.proper.distinct.kind_eq hp (Bundle.query_named hq)
      · obtain rfl := Identity.mrn.inj (hr.symm.trans hi)
        cases h.proper.distinct.kind_eq hp hk
      · exact ht
    obtain ⟨j, hj, hi, ht, -⟩ := h.drawn ▸ htyped.drawAll h.unique log'
    exact ⟨j, hj, hi, ht⟩
  · rintro ⟨j, hj, hi, ht⟩
    rcases h.typed ⟨j, hj, hi, ht, rfl⟩ with hold | ⟨_, -, hc, -⟩ | ⟨_, -, hf, -⟩
    · obtain ⟨j, hj, hi, ht, -⟩ := hold
      rcases h.assigned.job hj with ⟨-, hr⟩ | ⟨role, -, -, -, hr⟩ | ⟨k, n, hn, hk, ⟨-, hr⟩ | ⟨rfl, -⟩⟩
      · cases ht.symm.trans hr
      · cases role <;> cases ht.symm.trans hr
      · cases ht.symm.trans hr
      · obtain rfl := Identity.mrn.inj (hn.symm.trans hi)
        exact ⟨hk, j, hj, hi, trivial⟩
    · cases hc
    · cases hf

theorem evidence : c.evidence = s.bundle.attested frameworks d.graph := by
  rw [h.scope, scopeOf_evidence_eq, Bundle.attested]
  congr 1
  apply List.filter_congr
  intro m _
  rw [Bool.eq_iff_iff, Bool.and_eq_true, List.any_eq_true, List.any_eq_true, decide_eq_true_iff, FrameworkMap.InForce,
    and_comm]
  simp only [beq_iff_eq, mem_adopting, h.assigned.lookup_settled, h.policy_iff]

theorem subcontrols : c.subcontrols = fun e => e.controls.filter fun n => ¬s.bundle.Removes frameworks s.now n := by
  funext e
  rw [ControlScope.subcontrols]
  apply List.filter_congr
  intro n _
  rw [decide_eq_decide]
  exact not_congr h.standing_iff

theorem leads_iff : c.Leads m n ↔ s.LinksTo frameworks d.graph m n := by
  rw [ControlScope.Leads, nexts, h.evidence, h.subcontrols]
  simp [Setting.LinksTo, and_assoc]

theorem order : d.controls.map Prod.fst = s.settlement frameworks d.graph := by
  have hsummons : (s.adopting [] frameworks).flatMap (s.summons c) =
      ((s.adopting [] frameworks).flatMap s.listed).filter fun m => ¬s.bundle.Removes frameworks s.now m := by
    rw [List.filter_flatMap]
    refine List.flatMap_congr fun f _ => ?_
    have hvisited : c.visited ∘ Evidence.control = fun n => if c.standing n = .absent then none else some n := rfl
    rw [summons, List.filterMap_map, hvisited, ← List.filterMap_eq_filter]
    refine List.filterMap_congr fun n _ => ?_
    by_cases hr : s.bundle.Removes frameworks s.now n
    · simp [h.standing_iff.mpr hr, hr, Option.guard]
    · simp [mt h.standing_iff.mp hr, hr, Option.guard]
  rw [h.reviewed.keys, hsummons, settlement, ControlScope.settlingAll]
  simp only [ControlScope.settling, h.evidence, h.subcontrols]

theorem index_iff {role : Role} : (d₀.index role).lookup m = some i ↔
    ∃ q, s.Materialized ms role q ∧ q.mrn = m ∧ role.identity q = i := by
  rw [h.index, h.assigned.lookup_iff, exists_entered_iff]

theorem indexed_iff {role : Role} : (d₀.index role).lookup m ≠ none ↔ ∃ q, s.Materialized ms role q ∧ q.mrn = m := by
  rw [Option.ne_none_iff_exists']
  simp only [h.index_iff]
  constructor
  · rintro ⟨i, q, hq, hm, -⟩
    exact ⟨q, hq, hm⟩
  · rintro ⟨q, hq, hm⟩
    exact ⟨_, q, hq, hm, rfl⟩

theorem linksAt_ne_nil : c.linksAt d₀ done m ≠ [] ↔ s.Attested ms frameworks d.graph m ∨
    ∃ n, s.LinksTo frameworks d.graph m n ∧ (n, true) ∈ done := by
  have hlinks : c.linksAt d₀ done m ≠ [] ↔
      ∃ e ∈ c.evidence, e.mrn = m ∧ ∃ x ∈ e.links, c.evidenceLink d₀ done x ≠ none := by
    simp only [ControlScope.linksAt, ControlScope.evidenceOf, ne_eq, List.filterMap_eq_nil_iff, List.mem_flatMap,
      List.mem_filter, beq_iff_eq, not_forall, exists_prop, and_assoc]
    grind
  have hquery : ∀ role (r : QueryRef), c.evidenceLink d₀ done (.query role r) ≠ none ↔
      r.action ≠ .deactivate ∧ ∃ q, s.Materialized ms role q ∧ q.mrn = r.mrn := by
    intro role r
    rw [ControlScope.evidenceLink, Draft.linked, ← h.indexed_iff]
    simp only [Action.activation_eq_absent]
    by_cases ha : r.action = .deactivate
    · simp [ha]
    · simp [ha]
  have hcontrol : ∀ n, c.evidenceLink d₀ done (.control n) ≠ none ↔
      ¬s.bundle.Removes frameworks s.now n ∧ (n, true) ∈ done := by
    intro n
    rw [← h.standing_iff, Option.ne_none_iff_exists']
    simp only [ControlScope.evidenceLink_control, exists_and_left, exists_eq', and_true]
  rw [hlinks, h.evidence]
  constructor
  · rintro ⟨e, he, hm, x, hx, hl⟩
    cases x with
    | query role r =>
      obtain ⟨ha, hq⟩ := (hquery role r).mp hl
      refine .inl ⟨e, he, hm, role, r, ?_, ha, hq⟩
      cases role <;> simpa [ControlMap.links, ControlMap.asked] using hx
    | control n =>
      obtain ⟨hr, hmade⟩ := (hcontrol n).mp hl
      exact .inr ⟨n, ⟨e, he, hm, by simpa [ControlMap.links] using hx, hr⟩, hmade⟩
  · rintro (⟨e, he, hm, role, r, hr, ha, hq⟩ | ⟨n, ⟨e, he, hm, hn, hr⟩, hmade⟩)
    · refine ⟨e, he, hm, .query role r, ?_, (hquery role r).mpr ⟨ha, hq⟩⟩
      cases role <;> simpa [ControlMap.links, ControlMap.asked] using hr
    · exact ⟨e, he, hm, .control n, by simpa [ControlMap.links] using hn, (hcontrol n).mpr ⟨hr, hmade⟩⟩

theorem made_iff {made : Bool} {tail : List (Mrn × Bool)} (ht : (m, made) :: tail <:+ d.controls) : made = true ↔
    s.Attested ms frameworks d.graph m ∨ ∃ n, s.LinksTo frameworks d.graph m n ∧ (n, true) ∈ tail :=
  (h.reviewed.audited.settled m made tail ht).2.1.trans h.linksAt_ne_nil

theorem exists_attested_of_settled (hd : done <:+ d.controls) (hm : (m, true) ∈ done) :
    ∃ n, Relation.ReflTransGen (s.RestsOn frameworks d.graph) m n ∧ s.Attested ms frameworks d.graph n := by
  induction done generalizing m with
  | nil => cases hm
  | cons x tail ih =>
    have htail : tail <:+ d.controls := (List.suffix_cons x tail).trans hd
    rcases List.mem_cons.mp hm with rfl | hm
    · rcases (h.made_iff hd).mp rfl with ha | ⟨n, hl, hn⟩
      · exact ⟨m, .refl, ha⟩
      · -- not attested itself, it has a link to a control that was settled with a job before
        obtain ⟨k, hpath, hk⟩ := ih htail hn
        have hrest : s.RestsOn frameworks d.graph m n := by
          refine ⟨hl, tail.map Prod.fst, ?_, List.mem_map_of_mem hn⟩
          rw [← h.order]
          exact hd.map Prod.fst
        exact ⟨k, .head hrest hpath, hk⟩
    · exact ih htail hm

theorem mem_of_restsOn (hn : s.RestsOn frameworks d.graph m n) : n ∈ d.controls.map Prod.fst := by
  obtain ⟨-, tail, ht, hn⟩ := hn
  rw [h.order]
  exact ht.subset (List.mem_cons_of_mem m hn)

theorem settled_of_attested (hm : m ∈ d.controls.map Prod.fst)
    (hp : Relation.ReflTransGen (s.RestsOn frameworks d.graph) m n) (hn : s.Attested ms frameworks d.graph n) :
    (m, true) ∈ d.controls := by
  have hmade : ∀ m ∈ d.controls.map Prod.fst, ∃ made tail, (m, made) :: tail <:+ d.controls := by
    intro m hm
    obtain ⟨⟨_, made⟩, hx, rfl⟩ := List.mem_map.mp hm
    obtain ⟨before, tail, hsplit⟩ := List.append_of_mem hx
    exact ⟨made, tail, before, hsplit.symm⟩
  -- backwards from the evidence: a control has a job if one that it rests on has
  induction hp using Relation.ReflTransGen.head_induction_on with
  | refl =>
    obtain ⟨made, tail, ht⟩ := hmade _ hm
    obtain rfl := (h.made_iff ht).mpr (.inl hn)
    exact ht.subset List.mem_cons_self
  | @head m k hrest _ ih =>
    have hk := ih (h.mem_of_restsOn hrest)
    obtain ⟨hl, tail, ht, hmem⟩ := hrest
    rw [← h.order, List.suffix_map_iff] at ht
    obtain ⟨done, hdone, hcons⟩ := ht
    obtain ⟨⟨_, made⟩, rest, rfl, rfl, rfl⟩ := List.map_eq_cons_iff.mp hcons.symm
    obtain ⟨⟨_, made'⟩, hx, rfl⟩ := List.mem_map.mp hmem
    have hsame := eq_of_mem_ledger h.reviewed.finished.once (hdone.subset (List.mem_cons_of_mem _ hx)) hk
    obtain rfl := (h.made_iff hdone).mpr (.inr ⟨_, hl, hsame ▸ hx⟩)
    exact hdone.subset List.mem_cons_self

theorem summoned (hm : s.Summons frameworks m) : m ∈ d.controls.map Prod.fst := by
  obtain ⟨⟨f, k, hf, hk, ht, hnow, hmem⟩, hr⟩ := hm
  have hstart : Finished c.Leads [] [] := .nil
  obtain ⟨-, -, hmet⟩ := hstart.foldl ((s.adopting [] frameworks).flatMap (s.summons c)) fun k _ done hd =>
    settling_finished (m := k) hd (by simp)
  rw [h.reviewed.keys]
  refine (hmet m (List.mem_flatMap.mpr ⟨f, mem_adopting.mpr hf, ?_⟩)).resolve_right List.not_mem_nil
  refine List.mem_filterMap.mpr ⟨.control m, List.mem_map_of_mem ?_, if_neg ?_⟩
  · exact List.mem_flatMap.mpr ⟨k, List.mem_filter.mpr ⟨hk, by simp [ht, hnow, GroupType.isModifier]⟩, hmem⟩
  · exact mt h.standing_iff.mp hr

theorem restsOn_of_advances (hm : m ∈ d.controls.map Prod.fst) (hl : s.Advances frameworks d.graph m n) :
    s.RestsOn frameworks d.graph m n := by
  obtain ⟨hl, hback⟩ := hl
  obtain ⟨before, tail, hsplit⟩ := List.append_of_mem hm
  have hsuffix : m :: tail <:+ d.controls.map Prod.fst := ⟨before, hsplit.symm⟩
  have hleads : c.Leads = s.LinksTo frameworks d.graph := funext fun _ => funext fun _ => propext h.leads_iff
  refine ⟨hl, tail, h.order ▸ hsuffix, ?_⟩
  -- of what is led to, only what leads back can be settled later
  have hafter := h.reviewed.finished.after m tail hsuffix n (h.leads_iff.mpr hl)
  rw [hleads] at hafter
  exact hafter.resolve_right hback

theorem advances_restsOn (hm : m ∈ d.controls.map Prod.fst)
    (hp : Relation.ReflTransGen (s.Advances frameworks d.graph) m n) :
    Relation.ReflTransGen (s.RestsOn frameworks d.graph) m n := by
  induction hp using Relation.ReflTransGen.head_induction_on with
  | refl => exact .refl
  | head hl _ ih =>
    have hrest := h.restsOn_of_advances hm hl
    exact .head hrest (ih (h.mem_of_restsOn hrest))

end Assessed

section

variable (s : Setting) (policies frameworks : List Mrn) (g : Graph)

/-- Which controls have a job: none without evidence behind it, of those that are listed just the ones whose evidence
is settled earlier, and so all whose evidence lies on a way that never leads back. -/
structure Attests : Prop where
  sound : ∀ m, g.Holds (.mrn m) (fun j => j.type = .control) →
    ∃ n, Relation.ReflTransGen (s.LinksTo frameworks g) m n ∧ s.Attested policies frameworks g n
  listed : ∀ m, s.Summons frameworks m → (g.Holds (.mrn m) (fun j => j.type = .control) ↔
    ∃ n, Relation.ReflTransGen (s.RestsOn frameworks g) m n ∧ s.Attested policies frameworks g n)
  forward : ∀ m n, s.Summons frameworks m → Relation.ReflTransGen (s.Advances frameworks g) m n →
    s.Attested policies frameworks g n → g.Holds (.mrn m) fun j => j.type = .control
  acyclic : ∀ m, s.Summons frameworks m → (∀ u v, Relation.ReflTransGen (s.LinksTo frameworks g) m u →
    s.LinksTo frameworks g u v → s.Advances frameworks g u v) → (g.Holds (.mrn m) (fun j => j.type = .control) ↔
      ∃ n, Relation.ReflTransGen (s.LinksTo frameworks g) m n ∧ s.Attested policies frameworks g n)

end

theorem linksTo_advances (h : ∀ u v, Relation.ReflTransGen (s.LinksTo frameworks g) m u → s.LinksTo frameworks g u v →
    s.Advances frameworks g u v) (hp : Relation.ReflTransGen (s.LinksTo frameworks g) m n) :
    Relation.ReflTransGen (s.Advances frameworks g) m n := by
  induction hp with
  | refl => exact .refl
  | tail hu hv ih => exact ih.tail (h _ _ hu hv)

theorem Assessed.attests (h : s.Assessed asset ms frameworks c d₀ d log log') : s.Attests ms frameworks d.graph := by
  have hsound : ∀ m, d.graph.Holds (.mrn m) (fun j => j.type = .control) →
      ∃ n, Relation.ReflTransGen (s.RestsOn frameworks d.graph) m n ∧ s.Attested ms frameworks d.graph n :=
    fun m hm => h.exists_attested_of_settled (List.suffix_refl _) (h.typed_iff.mp hm)
  have hleads : ∀ {m n}, Relation.ReflTransGen (s.RestsOn frameworks d.graph) m n →
      Relation.ReflTransGen (s.LinksTo frameworks d.graph) m n := fun hp => hp.lift id fun _ _ hr => hr.1
  have hforward : ∀ m n, s.Summons frameworks m → Relation.ReflTransGen (s.Advances frameworks d.graph) m n →
      s.Attested ms frameworks d.graph n → d.graph.Holds (.mrn m) fun j => j.type = .control :=
    fun m n hm hp hn => h.typed_iff.mpr
      (h.settled_of_attested (h.summoned hm) (h.advances_restsOn (h.summoned hm) hp) hn)
  refine ⟨fun m hm => ?_, fun m hm => ⟨hsound m, ?_⟩, hforward, fun m hm hacyclic => ⟨fun hj => ?_, ?_⟩⟩
  · obtain ⟨n, hp, hn⟩ := hsound m hm
    exact ⟨n, hleads hp, hn⟩
  · rintro ⟨n, hp, hn⟩
    exact h.typed_iff.mpr (h.settled_of_attested (h.summoned hm) hp hn)
  · obtain ⟨n, hp, hn⟩ := hsound m hj
    exact ⟨n, hleads hp, hn⟩
  · rintro ⟨n, hp, hn⟩
    exact hforward m n hm (linksTo_advances hacyclic hp) hn

theorem Attests.shareMrns (h : s.Attests policies frameworks g) : s.Attests policies frameworks g.shareMrns := by
  have hattested : s.bundle.attested frameworks g.shareMrns = s.bundle.attested frameworks g := Bundle.attested_shareMrns
  have hleads : s.LinksTo frameworks g.shareMrns = s.LinksTo frameworks g := by
    unfold LinksTo
    rw [hattested]
  have hadvances : s.Advances frameworks g.shareMrns = s.Advances frameworks g := by
    unfold Advances
    rw [hleads]
  have hrests : s.RestsOn frameworks g.shareMrns = s.RestsOn frameworks g := by
    unfold RestsOn settlement
    rw [hleads, hattested]
  have hattests : s.Attested policies frameworks g.shareMrns = s.Attested policies frameworks g := by
    unfold Attested
    rw [hattested]
  refine ⟨?_, ?_, ?_, ?_⟩ <;> simp only [Graph.shareMrns_holds_type, hleads, hadvances, hrests, hattests]
  exacts [h.sound, h.listed, h.forward, h.acyclic]

theorem Attests.congr {policies' : List Mrn} (h : s.Attests policies frameworks g)
    (hp : ∀ m p, s.bundle.policies.find? m = some p → (m ∈ policies ↔ m ∈ policies')) :
    s.Attests policies' frameworks g := by
  have hattests : s.Attested policies' frameworks g = s.Attested policies frameworks g := by
    funext m
    simp only [Attested, materialized_congr hp]
  refine ⟨?_, ?_, ?_, ?_⟩ <;> simp only [hattests]
  exacts [h.sound, h.listed, h.forward, h.acyclic]

end Setting

theorem Bundle.resolve_attests {b : Bundle} {asset : Mrn} {policies frameworks : List Mrn} {filters : PredicateSet}
    {now : Timestamp} {res : Resolution} (hb : b.Distinct)
    (h : b.resolve ⟨.asset asset policies frameworks, filters, now⟩ = .ok res) :
    (b.setting ⟨.asset asset policies frameworks, filters, now⟩).Attests policies frameworks res.graph := by
  obtain ⟨c, d₀, d, log, log', whole, ha, -, hg⟩ := exists_assessed_of_resolve hb h
  rw [hg]
  exact ha.attests.shareMrns.congr fun m p => Setting.mem_declared_iff

end

def ringBundle (listed : List Mrn) : Bundle where
  policies := .ofList [{ mrn := "p", groups := [{ checks := [{ mrn := "x" }] }] }]
  frameworks := .ofList [{ mrn := "f", groups := [{ controls := listed }] }]
  maps := [{ mrn := "m", framework := "f", policies := ["p"], controls := [
    { mrn := "a", checks := [{ mrn := "x" }], controls := ["b"] }, { mrn := "b", controls := ["a"] }] }]
  queries := .ofList [{ mrn := "x", code := some { id := "cx" } }]

def auditRequest : Request where
  target := .asset "s" ["p"] ["f"]
  asset := Keyed.empty
  now := 1700000000

theorem ringBundle_attests : (ringBundle ["b", "a"]).Distinct ∧
    ∃ res, (ringBundle ["b", "a"]).resolve auditRequest = .ok res ∧
    ((ringBundle ["b", "a"]).setting auditRequest).Attests ["p"] ["f"] res.graph ∧
      ∀ m ∈ ["a", "b"], res.graph.Holds (.mrn m) fun j => j.type = .control := by
  have hb : (ringBundle ["b", "a"]).Distinct := by decide +kernel
  have hs : ((ringBundle ["b", "a"]).scope ["p"]).covers Keyed.empty = true := by decide +kernel
  have h : (ringBundle ["b", "a"]).resolve auditRequest = .ok _ := Bundle.resolve_asset hs
  refine ⟨hb, _, h, Bundle.resolve_attests hb h, ?_⟩
  decide +kernel

section

variable {listed : List Mrn} {g : Graph}

theorem ringBundle_adopts : (ringBundle listed).Adopts ["f"] { mrn := "f", groups := [{ controls := listed }] } :=
  .assigned (m := "f") List.mem_cons_self rfl

theorem ringBundle_not_removes {now : Timestamp} {m : Mrn} : ¬(ringBundle listed).Removes ["f"] now m := by
  have hcontent : ∀ f ∈ (ringBundle listed).frameworks.entries, ∀ g ∈ f.groups, g.type = .content := by
    intro f hf g hg
    obtain rfl := List.mem_singleton.mp hf
    obtain rfl := List.mem_singleton.mp hg
    rfl
  rintro (⟨f, g, hf, hg, ht, -⟩ | ⟨f, g, hf, hg, ht, -⟩)
  · cases ht.symm.trans (hcontent f (Keyed.mem_of_find? hf.declared) g hg)
  · cases ht.symm.trans (hcontent f (Keyed.mem_of_find? hf.declared) g hg)

theorem mem_ringBundle_attested (hp : g.Holds (.mrn "p") fun j => j.type = .policy) {e : ControlMap}
    (he : e ∈ (ringBundle listed).evidence) : e ∈ (ringBundle listed).attested ["f"] g := by
  obtain ⟨m, hm, he⟩ := List.mem_flatMap.mp he
  obtain rfl := List.mem_singleton.mp hm
  exact Bundle.mem_attested.mpr ⟨_, hm, ⟨⟨_, ringBundle_adopts, rfl⟩, "p", List.mem_singleton_self _, hp⟩, he⟩

theorem ringBundle_materialized : ((ringBundle ["a", "b"]).setting auditRequest).Materialized ["p"] .check
    { mrn := "x", code := some { id := "cx" } } := by
  have hp : ((ringBundle ["a", "b"]).setting auditRequest).Walked ["p"]
      { mrn := "p", groups := [{ checks := [{ mrn := "x" }] }] } := .root (m := "p") List.mem_cons_self rfl
  refine ⟨_, [], .policy (g := { checks := [{ mrn := "x" }] }) (r := { mrn := "x" }) hp ?_ ?_ ⟨?_, ?_, ?_⟩, .refl,
    .code rfl rfl⟩
  all_goals decide +kernel

end

/-- Listed first, the control with the check settles the other one as if it had no evidence. -/
theorem ringBundle_drops : (ringBundle ["a", "b"]).Distinct ∧
    ∃ res, (ringBundle ["a", "b"]).resolve auditRequest = .ok res ∧
    ((ringBundle ["a", "b"]).setting auditRequest).Summons ["f"] "b" ∧
      ((ringBundle ["a", "b"]).setting auditRequest).LinksTo ["f"] res.graph "b" "a" ∧
        ((ringBundle ["a", "b"]).setting auditRequest).Attested ["p"] ["f"] res.graph "a" ∧
          ¬res.graph.Has (.mrn "b") := by
  have hb : (ringBundle ["a", "b"]).Distinct := by decide +kernel
  have hs : ((ringBundle ["a", "b"]).scope ["p"]).covers Keyed.empty = true := by decide +kernel
  have h : (ringBundle ["a", "b"]).resolve auditRequest = .ok _ := Bundle.resolve_asset hs
  generalize hres : Bundle.finish (ringBundle ["a", "b"]) _ _ _ _ = res at h
  have hpolicy : res.graph.Holds (.mrn "p") fun j => j.type = .policy := by
    rw [← hres]
    decide +kernel
  have hdropped : ¬res.graph.Has (.mrn "b") := by
    rw [← hres]
    decide +kernel
  refine ⟨hb, res, h, ⟨⟨_, { controls := ["a", "b"] }, ringBundle_adopts, ?_, rfl, ?_, ?_⟩, ringBundle_not_removes⟩,
    ⟨{ mrn := "b", controls := ["a"] }, mem_ringBundle_attested hpolicy ?_, rfl, List.mem_singleton_self _,
      ringBundle_not_removes⟩,
    ⟨{ mrn := "a", checks := [{ mrn := "x" }], controls := ["b"] }, mem_ringBundle_attested hpolicy ?_, rfl, .check,
      { mrn := "x" }, List.mem_singleton_self _, nofun, _, ringBundle_materialized, rfl⟩, hdropped⟩
  all_goals decide +kernel

end Compliance
