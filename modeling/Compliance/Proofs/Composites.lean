import Compliance.Proofs.Impacts
import Compliance.Proofs.Materialization
import Compliance.Proofs.Naming
import Compliance.Proofs.QueryJobs

/-!
What composites expand to when no query is a variant of itself, nor of its variants, and so on down. The way that a
visit took to a composite then cuts nothing, and every visit finds the same variants of it.
-/

namespace Compliance

def Bundle.Offers (b : Bundle) (q v : Query) : Prop := ∃ m ∈ q.variants, b.queries.find? m = some v

theorem Bundle.not_offers_self {b : Bundle} (rank : Mrn → Nat)
    (h : ∀ q ∈ b.queries.entries, ∀ m ∈ q.variants, rank m < rank q.mrn) (q : Query) : ¬Relation.TransGen b.Offers q q := by
  have step : ∀ {q v}, q ∈ b.queries.entries → b.Offers q v → v ∈ b.queries.entries ∧ rank v.mrn < rank q.mrn := by
    rintro q v hq ⟨m, hm, hv⟩
    exact ⟨Keyed.mem_of_find? hv, Keyed.key_of_find? hv ▸ h q hq m hm⟩
  have path : ∀ {q v}, q ∈ b.queries.entries → Relation.TransGen b.Offers q v →
      v ∈ b.queries.entries ∧ rank v.mrn < rank q.mrn := by
    intro q v hq hp
    induction hp with
    | single ho => exact step hq ho
    | tail _ ho ih =>
      obtain ⟨hv, hlt⟩ := step ih.1 ho
      exact ⟨hv, Nat.lt_trans hlt ih.2⟩
  intro hp
  obtain ⟨k, -, m, -, hq⟩ := Relation.TransGen.tail'_iff.mp hp
  exact Nat.lt_irrefl _ (path (Keyed.mem_of_find? hq) hp).2

theorem appendNew_flatMap {α β : Type} [BEq α] [LawfulBEq α] {f : β → List α} {bs : List β} {l : List α}
    (h : ∀ b ∈ bs, f b = [] ∨ f b = l) (hb : ∃ b ∈ bs, f b = l) : appendNew [] (bs.flatMap f) = appendNew [] l := by
  induction bs with
  | nil =>
    obtain ⟨b, hb, -⟩ := hb
    cases hb
  | cons b rest ih =>
    have hrest : ∀ c ∈ rest, f c = [] ∨ f c = l := fun c hc => h c (List.mem_cons_of_mem _ hc)
    by_cases he : f b = l
    · rw [List.flatMap_cons, he, ← appendNew_append]
      refine appendNew_of_subset fun a ha => ?_
      obtain ⟨c, hc, ha⟩ := List.mem_flatMap.mp ha
      rw [mem_appendNew]
      rcases hrest c hc with hn | hl
      · rw [hn] at ha
        cases ha
      · exact .inr (hl ▸ ha)
    · rw [List.flatMap_cons, (h b List.mem_cons_self).resolve_right he, List.nil_append]
      obtain ⟨c, hc, hl⟩ := hb
      exact ih hrest ⟨c, (List.mem_cons.mp hc).resolve_left (by rintro rfl; exact he hl), hl⟩

namespace Setting

/-- The way from variant to variant ends in code. -/
inductive Founded (s : Setting) : Query → Prop
  | code {q : Query} {c : Code} : q.isComposite = false → q.code = some c → Founded s q
  | variant {q v : Query} : s.Variant q v → Founded s v → Founded s q

/-- The declared variant is not deactivated by the layers together, is meant for the asset and materialized. -/
def TakesUp (s : Setting) (roots : List Mrn) (role : Role) (m : Mrn) (v : Query) : Prop :=
  s.overrides.overall m ≠ .deactivate ∧ s.bundle.queries.find? m = some v ∧ s.asset.meets v.required = true ∧
    s.Materialized roots role v

open scoped Classical in
noncomputable def uptake (s : Setting) (roots : List Mrn) (role : Role) (q : Query) : List Mrn :=
  q.variants.filter fun m => ∃ v, s.TakesUp roots role m v

def Resolves (s : Setting) (role : Role) (m : Mrn) (i : Identity) : Prop :=
  ∃ v, s.bundle.queries.find? m = some v ∧ role.identity v = i

def variantImpact (s : Setting) (m : Mrn) : Impact :=
  { scoring := if s.overrides.overall m = .ignore then .ignoreScore else .unspecified }

variable {s : Setting} {root : Identity} {roots path : List Mrn} {start d : Draft} {log : List Edit} {role role' : Role}
  {q v k e : Query} {c : Identity} {m : Mrn} {w : Impact}

theorem mem_uptake : m ∈ s.uptake roots role q ↔ m ∈ q.variants ∧ ∃ v, s.TakesUp roots role m v := by
  simp only [uptake, List.mem_filter, decide_eq_true_eq]

theorem Variant.offers (h : s.Variant q v) : s.bundle.Offers q v := by
  obtain ⟨m, hm, -, hv, -⟩ := h
  exact ⟨m, hm, hv⟩

theorem Founded.of_yields (h : s.Yields path q) : s.Founded q := by
  induction h with
  | code hn hc => exact .code hn hc
  | variant _ hv _ ih => exact .variant hv ih

theorem TakesUp.variant (h : s.TakesUp roots role m v) (hm : m ∈ q.variants) : s.Variant q v :=
  ⟨m, hm, h.1, h.2.1, h.2.2.1⟩

theorem Live.exists_trail (h : s.Live roots role q) :
    ∃ e path, s.Referenced roots role e ∧ s.Trail ([], e) (path, q) ∧ q.mrn ∉ path := by
  obtain ⟨e, he, hp⟩ := live_iff.mp h
  obtain ⟨path, ht, hn⟩ := Setting.exists_trail he.mem hp
  exact ⟨e, path, he, ht, hn⟩

theorem Trail.live (he : s.Referenced roots role e) (ht : s.Trail ([], e) (path, q)) : s.Live roots role q :=
  live_iff.mpr ⟨e, he, ht.variants⟩

section

variable (hacyclic : ∀ q, ¬Relation.TransGen s.bundle.Offers q q)
include hacyclic

omit hacyclic in
theorem Trail.exists_offers {x : List Mrn × Query} (he : e ∈ s.bundle.queries.entries) (ht : s.Trail ([], e) x)
    (hm : m ∈ x.1) : ∃ k ∈ s.bundle.queries.entries, k.mrn = m ∧ Relation.TransGen s.bundle.Offers k x.2 := by
  induction ht with
  | refl => cases hm
  | @tail x y ht hd ih =>
    obtain ⟨-, hv, hpath⟩ := hd
    rw [hpath] at hm
    rcases List.mem_cons.mp hm with rfl | hm
    · exact ⟨x.2, Trail.mem ht he, rfl, .single hv.offers⟩
    · obtain ⟨k, hk, hkm, hp⟩ := ih hm
      exact ⟨k, hk, hkm, hp.tail hv.offers⟩

theorem Trail.not_mem (he : e ∈ s.bundle.queries.entries) (ht : s.Trail ([], e) (path, q)) : q.mrn ∉ path := by
  intro hm
  obtain ⟨k, hk, hkm, hp⟩ := ht.exists_offers he hm
  obtain rfl := eq_of_mrn hk (Trail.mem ht he) hkm
  exact hacyclic k hp

theorem Founded.yields (h : s.Founded q) (he : e ∈ s.bundle.queries.entries) (ht : s.Trail ([], e) (path, q)) :
    s.Yields path q := by
  induction h generalizing path with
  | code hn hc => exact .code hn hc
  | variant hv _ ih =>
    have hp := ht.not_mem hacyclic he
    exact .variant hp hv (ih (ht.tail ⟨hp, hv, rfl⟩))

theorem Live.materialized_iff (h : s.Live roots role q) : s.Materialized roots role q ↔ s.Founded q := by
  constructor
  · rintro ⟨e, path, -, -, hy⟩
    exact .of_yields hy
  · intro hf
    obtain ⟨e, path, he, ht, -⟩ := h.exists_trail
    exact ⟨e, path, he, ht, hf.yields hacyclic he.mem ht⟩

theorem uptake_eq (h : s.Live roots role q) (h' : s.Live roots role' q) : s.uptake roots role q = s.uptake roots role' q := by
  apply List.filter_congr
  intro m hm
  rw [decide_eq_decide]
  refine exists_congr fun v => and_congr_right fun ha => and_congr_right fun hv => and_congr_right fun hr => ?_
  have hvariant : s.Variant q v := ⟨m, hm, ha, hv, hr⟩
  rw [(h.variant hvariant).materialized_iff hacyclic, (h'.variant hvariant).materialized_iff hacyclic]

theorem yields_iff_materialized (he : s.Referenced roots role e) (ht : s.Trail ([], e) (path, q)) (hv : s.Variant q v) :
    s.Yields (q.mrn :: path) v ↔ s.Materialized roots role v := by
  have htrail : s.Trail ([], e) (q.mrn :: path, v) := ht.tail ⟨ht.not_mem hacyclic he.mem, hv, rfl⟩
  rw [(Trail.live he htrail).materialized_iff hacyclic]
  exact ⟨.of_yields, fun hf => hf.yields hacyclic he.mem htrail⟩

theorem variantLinks_eq (he : s.Referenced roots role e) (ht : s.Trail ([], e) (path, q)) :
    s.variantLinks role path q = (s.uptake roots role q).filterMap fun m =>
      (s.bundle.queries.find? m).map fun v => (m, role.identity v, s.variantImpact m) := by
  rw [variantLinks, uptake, List.filterMap_filter]
  apply List.filterMap_congr
  intro m hm
  apply Option.ext
  intro x
  simp only [variantLink_eq_some, Option.ite_none_right_eq_some, Option.map_eq_some_iff, decide_eq_true_eq,
    Impact.of_activation]
  constructor
  · rintro ⟨ha, v, hv, hr, hy, rfl⟩
    have hvariant : s.Variant q v := ⟨m, hm, ha, hv, hr⟩
    exact ⟨⟨v, ha, hv, hr, (yields_iff_materialized hacyclic he ht hvariant).mp hy⟩, v, hv, rfl⟩
  · rintro ⟨⟨v, hv⟩, v', hv', rfl⟩
    obtain rfl := Option.some.inj (hv.2.1.symm.trans hv')
    exact ⟨hv.1, v, hv.2.1, hv.2.2.1, (yields_iff_materialized hacyclic he ht (hv.variant hm)).mpr hv.2.2.2, rfl⟩

theorem variantLinks_names (he : s.Referenced roots role e) (ht : s.Trail ([], e) (path, q)) :
    (s.variantLinks role path q).map Prod.fst = s.uptake roots role q := by
  rw [variantLinks_eq hacyclic he ht, List.map_filterMap]
  conv_rhs => rw [← List.filterMap_some (l := s.uptake roots role q)]
  apply List.filterMap_congr
  intro m hm
  obtain ⟨-, v, hv⟩ := mem_uptake.mp hm
  rw [hv.2.1]
  rfl

theorem variantLinks_lookup (he : s.Referenced roots role e) (ht : s.Trail ([], e) (path, q)) :
    ((s.variantLinks role path q).map Prod.snd).lookup c = some w ↔ ∃ before m after,
      s.uptake roots role q = before ++ m :: after ∧ s.Resolves role m c ∧ (∀ n ∈ before, ¬s.Resolves role n c) ∧
        w = s.variantImpact m := by
  have hlink : ∀ m w, (((s.bundle.queries.find? m).map fun v => (m, role.identity v, s.variantImpact m)).map Prod.snd) =
      some (c, w) ↔ s.Resolves role m c ∧ w = s.variantImpact m := by
    intro m w
    cases hm : s.bundle.queries.find? m <;> simp [Resolves, hm, eq_comm]
  rw [variantLinks_eq hacyclic he ht, List.map_filterMap, lookup_filterMap_eq_some]
  refine exists₃_congr fun before m after => and_congr_right fun _ => ?_
  rw [hlink, and_assoc]
  refine and_congr_right fun _ => and_comm.trans (and_congr_left' (forall₂_congr fun n _ => ?_))
  simp only [ne_eq, hlink, not_and]
  exact ⟨fun hn hr => hn _ hr rfl, fun hn _ hr => absurd hr hn⟩

theorem not_mem_uptake (hq : q ∈ s.bundle.queries.entries) : q.mrn ∉ s.uptake roots role q := by
  intro hm
  obtain ⟨hm, v, hv⟩ := mem_uptake.mp hm
  obtain rfl := eq_of_mrn hq (Keyed.mem_of_find? hv.2.1) (Keyed.key_of_find? hv.2.1).symm
  exact hacyclic q (.single ⟨q.mrn, hm, hv.2.1⟩)

end

structure Expands (s : Setting) (roots : List Mrn) (g : Graph) (role : Role) (q : Query) : Prop where
  has : g.Has (.mrn q.mrn) ↔ ∃ m ∈ q.variants, ∃ v, s.TakesUp roots role m v
  mrns : ∀ j ∈ g.jobs, j.identity = .mrn q.mrn → j.mrns = q.mrn :: (s.uptake roots role q).eraseDups
  edge : ∀ i, g.Edge (.mrn q.mrn) i ↔
    ∃ role', s.Live roots role' q ∧ ∃ m ∈ s.uptake roots role q, s.Resolves role' m i
  impact : ∀ i, (∃ m ∈ s.uptake roots role q, s.Resolves role m i) → ∀ w, g.Weighs (.mrn q.mrn) i w ↔
    ∃ before m after, s.uptake roots role q = before ++ m :: after ∧ s.Resolves role m i ∧
      (∀ n ∈ before, ¬s.Resolves role n i) ∧ w = s.variantImpact m

theorem Survey.lookup_of_weighs (h : Survey s root roots start d log) (hd : s.bundle.Distinct)
    (hr : s.bundle.Apart root) (hq : q ∈ s.bundle.queries.entries) (hw : d.graph.Weighs (.mrn q.mrn) c w) :
    ∃ role path, ((s.variantLinks role path q).map Prod.snd).lookup c = some w := by
  rw [h.graph] at hw
  rcases Graph.weighs_of_drawAll h.blank.linked.unique h.grounded hw with hw | ⟨e, he, ht⟩
  · exact absurd (Graph.edge_iff.mpr ⟨w, hw⟩) (h.blank.edgeless _ _)
  · obtain ⟨role, x, path, -, -, -, hlook⟩ := h.lookup_of_ties hd hr hq he ht
    exact ⟨role, path, hlook⟩

theorem Survey.origin_of_composite (h : Survey s root roots start d log) (hq : q ∈ s.bundle.queries.entries)
    (hc : q.isComposite = true) {j : Job} (hj : j ∈ d.graph.jobs) (hi : j.identity = .mrn q.mrn) : j.origin = none := by
  cases ho : j.origin with
  | none => rfl
  | some o =>
    obtain ⟨role, e, q', c, k, he, hdraw, hleaf, -⟩ := h.backed ⟨j, hj, hi, ho⟩
    cases hdraw with
    | leaf ht hn hcode =>
      have hid : role.identity q' = .mrn q.mrn := (Role.identity_of_code hn hcode).trans hleaf.symm
      obtain rfl := eq_of_mrn (Trail.mem ht he.mem) hq (Role.mrn_of_identity hid)
      cases hn.symm.trans hc

section

variable (h : Survey s root roots start d log) (hd : s.bundle.Distinct) (hr : s.bundle.Apart root)
  (hacyclic : ∀ q, ¬Relation.TransGen s.bundle.Offers q q) (hl : s.Live roots role q) (hc : q.isComposite = true)
include h hd hr hacyclic hl hc

theorem Survey.composite_has_iff :
    d.graph.Has (.mrn q.mrn) ↔ ∃ m ∈ q.variants, ∃ v, s.TakesUp roots role m v := by
  have hi : role.identity q = .mrn q.mrn := Role.identity_of_composite hc
  rw [← hi]
  constructor
  · intro hhas
    obtain ⟨t, sc, ht⟩ := hhas.typed
    obtain ⟨role', q', hq', hi, -⟩ := h.exists_materialized_of_typed hd hr hl.mem ht
    rcases hq'.eq_of_identity hl.mem hi with ⟨rfl, -⟩ | ⟨-, -, hn, -⟩
    · obtain ⟨e, path, v, -, -, -, hv, hy⟩ := hq'.exists_variant hc
      have hmaterialized := ((hl.variant hv).materialized_iff hacyclic).mpr (.of_yields hy)
      obtain ⟨m, hm, ha, hfind, hmeets⟩ := hv
      exact ⟨m, hm, v, ha, hfind, hmeets, hmaterialized⟩
    · cases hn.symm.trans hc
  · rintro ⟨m, hm, v, hv⟩
    obtain ⟨e, path, he, ht, hp⟩ := hl.exists_trail
    have hvariant := hv.variant hm
    have hy := (yields_iff_materialized hacyclic he ht hvariant).mpr hv.2.2.2
    exact h.materialized_has (materialized_of_variant he ht hp hvariant hy).1

omit hr in
theorem Survey.names_of_composite {e : Edit} (he : e ∈ log) :
    e.names (.mrn q.mrn) = [] ∨ e.names (.mrn q.mrn) = q.mrn :: s.uptake roots role q := by
  cases h.sound e he with
  | @query role' x e hx hdraw =>
    cases hdraw with
    | @leaf path q' c ht hn hcode =>
      refine .inl (if_neg fun hi => ?_)
      have hid : role'.identity q' = .mrn q.mrn := (Role.identity_of_code hn hcode).trans hi
      obtain rfl := eq_of_mrn (Trail.mem ht hx.mem) hl.mem (Role.mrn_of_identity hid)
      cases hn.symm.trans hc
    | @composite path q' ht hp hlinks =>
      by_cases hi : q'.mrn = q.mrn
      · obtain rfl := eq_of_mrn (Trail.mem ht hx.mem) hl.mem hi
        refine .inr ((if_pos ⟨hlinks, rfl⟩).trans ?_)
        rw [variantLinks_names hacyclic hx ht, uptake_eq hacyclic (Trail.live hx ht) hl]
      · exact .inl (if_neg fun hn => hi (Identity.mrn.inj hn.2))
  | structural sc ls hname hk _ =>
    refine .inl (if_neg fun hn => ?_)
    rw [Identity.mrn.inj hn.2] at hname
    exact absurd (hd.kind_eq hname (Bundle.query_named hl.mem)) hk
  | _ => exact .inl rfl

theorem Survey.composite_mrns {j : Job} (hj : j ∈ d.graph.jobs) (hi : j.identity = .mrn q.mrn) :
    j.mrns = q.mrn :: (s.uptake roots role q).eraseDups := by
  have hblank : start.graph.mrnsOf (.mrn q.mrn) = [] :=
    Graph.mrnsOf_eq_nil fun hs => hr.ne_mrn (Bundle.query_named hl.mem) (by simp) ((h.blank.has _).mp hs)
  -- one of the visits has drawn the job
  have hexists : ∃ e ∈ log, e.names (.mrn q.mrn) = q.mrn :: s.uptake roots role q := by
    obtain ⟨m, hm, v, hv⟩ := (h.composite_has_iff hd hr hacyclic hl hc).mp ⟨j, hj, hi, trivial⟩
    obtain ⟨e, path, he, ht, hp⟩ := hl.exists_trail
    have hvariant := hv.variant hm
    have hlinks : s.variantLinks role path q ≠ [] :=
      variantLinks_ne_nil.mpr ⟨v, hvariant, (yields_iff_materialized hacyclic he ht hvariant).mpr hv.2.2.2⟩
    refine ⟨_, h.complete role e _ he (.composite ht hp hlinks), (if_pos ⟨hlinks, rfl⟩).trans ?_⟩
    rw [variantLinks_names hacyclic he ht]
  -- no composite is its own variant, so its own name comes first and once
  have hself : ((s.uptake roots role q).filter fun m => !m == q.mrn) = s.uptake roots role q := by
    refine List.filter_eq_self.mpr fun m hm => ?_
    have hne : m ≠ q.mrn := fun he => not_mem_uptake hacyclic hl.mem (he ▸ hm)
    simpa using hne
  rw [← Graph.mrnsOf_eq h.unique hj, hi, h.graph, Graph.drawAll_mrnsOf, hblank,
    appendNew_flatMap (fun e he => h.names_of_composite hd hacyclic hl hc he) hexists, appendNew_eq]
  simp [List.eraseDups_cons, hself]

omit h hd hr hl hc in
theorem exists_variant_of_uptake (he : s.Referenced roots role e) (ht : s.Trail ([], e) (path, q))
    (hm : m ∈ s.uptake roots role q) (hi : s.Resolves role' m c) :
    ∃ v, s.Variant q v ∧ s.Yields (q.mrn :: path) v ∧ role'.identity v = c := by
  obtain ⟨v, hv, rfl⟩ := hi
  obtain ⟨hm, v', hv'⟩ := mem_uptake.mp hm
  obtain rfl := Option.some.inj (hv.symm.trans hv'.2.1)
  have hvariant := hv'.variant hm
  exact ⟨v, hvariant, (yields_iff_materialized hacyclic he ht hvariant).mpr hv'.2.2.2, rfl⟩

omit hc in
theorem Survey.composite_edge_iff : d.graph.Edge (.mrn q.mrn) c ↔
    ∃ role', s.Live roots role' q ∧ ∃ m ∈ s.uptake roots role q, s.Resolves role' m c := by
  rw [h.query_edge_iff hd hr hl.mem]
  constructor
  · rintro ⟨role', e, path, v, he, ht, hp, hv, hy, rfl⟩
    have hmaterialized := (yields_iff_materialized hacyclic he ht hv).mp hy
    obtain ⟨m, hm, ha, hfind, hmeets⟩ := id hv
    refine ⟨role', Trail.live he ht, m, ?_, v, hfind, rfl⟩
    rw [uptake_eq hacyclic hl (Trail.live he ht)]
    exact mem_uptake.mpr ⟨hm, v, ha, hfind, hmeets, hmaterialized⟩
  · rintro ⟨role', hl', m, hm, hi⟩
    obtain ⟨e, path, he, ht, hp⟩ := hl'.exists_trail
    rw [uptake_eq hacyclic hl hl'] at hm
    obtain ⟨v, hv, hy, hi⟩ := exists_variant_of_uptake hacyclic he ht hm hi
    exact ⟨role', e, path, v, he, ht, hp, hv, hy, hi.symm⟩

omit hc in
theorem Survey.composite_weighs (hi : ∃ m ∈ s.uptake roots role q, s.Resolves role m c) :
    d.graph.Weighs (.mrn q.mrn) c w ↔ ∃ before m after, s.uptake roots role q = before ++ m :: after ∧
      s.Resolves role m c ∧ (∀ n ∈ before, ¬s.Resolves role n c) ∧ w = s.variantImpact m := by
  obtain ⟨w₁, hw₁⟩ := Graph.edge_iff.mp ((h.composite_edge_iff hd hr hacyclic hl).mpr ⟨role, hl, hi⟩)
  obtain ⟨e, path, he, ht, -⟩ := hl.exists_trail
  obtain ⟨w₀, hw₀⟩ : ∃ w, ((s.variantLinks role path q).map Prod.snd).lookup c = some w := by
    obtain ⟨m, hm, hi⟩ := hi
    obtain ⟨v, hv, hy, rfl⟩ := exists_variant_of_uptake hacyclic he ht hm hi
    obtain ⟨x, hx, hxi⟩ := exists_mem_variantLinks role hv hy
    rw [← hxi]
    exact mem_map_fst_iff_lookup.mp (List.mem_map_of_mem (List.mem_map_of_mem hx))
  rw [← variantLinks_lookup hacyclic he ht]
  constructor
  · intro hw
    obtain ⟨role', path', hlook⟩ := h.lookup_of_weighs hd hr hl.mem hw
    rwa [← variantLinks_lookup_inj hw₀ hlook]
  · intro hw
    obtain ⟨role', path', hlook⟩ := h.lookup_of_weighs hd hr hl.mem hw₁
    rwa [variantLinks_lookup_inj hw hlook]

theorem Survey.expands : s.Expands roots d.graph.shareMrns role q where
  has := (Graph.shareMrns_holds fun _ _ => Iff.rfl).trans (h.composite_has_iff hd hr hacyclic hl hc)
  mrns := by
    intro j hj hi
    obtain ⟨j₀, hj₀, rfl⟩ := Graph.mem_shareMrns.mp hj
    rw [Job.sharing_identity] at hi
    rw [Job.sharing_of_origin (h.origin_of_composite hl.mem hc hj₀ hi)]
    exact h.composite_mrns hd hr hacyclic hl hc hj₀ hi
  edge _ := Graph.shareMrns_edge.trans (h.composite_edge_iff hd hr hacyclic hl)
  impact i hi w := Graph.shareMrns_weighs.trans (h.composite_weighs hd hr hacyclic hl hi)

end

end Setting

/-- Without cycles of variants, a composite expands alike wherever and however often it is visited. -/
theorem Bundle.resolve_expands {b : Bundle} {r : Request} {res : Resolution} (hb : b.Distinct)
    (hacyclic : ∀ q, ¬Relation.TransGen b.Offers q q) (h : b.resolve r = .ok res) : ∀ role q, q.isComposite = true →
      (b.setting r).Live r.target.assigned role q → (b.setting r).Expands r.target.assigned res.graph role q := by
  intro role q hc hl
  obtain ⟨hr, start, d, log, hs, hg⟩ := exists_survey_of_resolve hb h
  rw [hg]
  exact hs.expands hb hr hacyclic hl hc

def layeredBundle : Bundle where
  policies := .ofList [{ mrn := "p", groups := [{ checks := [{ mrn := "k" }, { mrn := "x", action := .ignore }] }] }]
  queries := .ofList [
    { mrn := "k", variants := ["x", "l", "y"] }, { mrn := "l", variants := ["y"] },
    { mrn := "x", code := some { id := "c" } }, { mrn := "y", code := some { id := "c" } }]

theorem layeredBundle_expands : layeredBundle.Distinct ∧ (∀ q, ¬Relation.TransGen layeredBundle.Offers q q) ∧
    ∃ res, layeredBundle.resolve (policyRequest "p") = .ok res ∧
      (layeredBundle.setting (policyRequest "p")).Expands ["p"] res.graph .check { mrn := "k", variants := ["x", "l", "y"] } := by
  have hb : layeredBundle.Distinct := by decide +kernel
  have hacyclic : ∀ q, ¬Relation.TransGen layeredBundle.Offers q q :=
    Bundle.not_offers_self (fun m => if m = "k" then 2 else if m = "l" then 1 else 0) (by decide +kernel)
  have hp : layeredBundle.policies.find? "p" =
      some { mrn := "p", groups := [{ checks := [{ mrn := "k" }, { mrn := "x", action := .ignore }] }] } := by decide +kernel
  have hs : (layeredBundle.scope ["p"]).covers Keyed.empty = true := by decide +kernel
  have h := Bundle.resolve_policyRequest hp hs
  have hwalked : (layeredBundle.setting (policyRequest "p")).Walked ["p"] _ := .root List.mem_cons_self hp
  have hlive : (layeredBundle.setting (policyRequest "p")).Live ["p"] .check { mrn := "k", variants := ["x", "l", "y"] } := by
    refine .referenced (.policy (g := { checks := [{ mrn := "k" }, { mrn := "x", action := .ignore }] })
      (r := { mrn := "k" }) hwalked ?_ ?_ ⟨?_, ?_, ?_⟩)
    all_goals decide +kernel
  exact ⟨hb, hacyclic, _, h, Bundle.resolve_expands hb hacyclic h .check _ rfl hlive⟩

end Compliance
