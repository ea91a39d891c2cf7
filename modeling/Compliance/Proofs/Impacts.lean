import Compliance.Proofs.Together

namespace Compliance

section

variable {α κ β : Type} [DecidableEq κ] {f g : α → Option (κ × β)} {l : List α} {c : κ} {w : β}

theorem lookup_filterMap_eq_some : (l.filterMap f).lookup c = some w ↔
    ∃ before a after, l = before ++ a :: after ∧ f a = some (c, w) ∧ ∀ x ∈ before, ∀ w, f x ≠ some (c, w) := by
  have hkey : ∀ a w, ((f a).bind fun x => if c == x.1 then some x.2 else none) = some w ↔ f a = some (c, w) := by
    intro a w
    rcases f a with _ | ⟨k, v⟩
    · simp
    · simp only [Option.bind_some, beq_iff_eq, Option.ite_none_right_eq_some, Option.some.injEq, Prod.mk.injEq]
      exact and_congr_left' eq_comm
  have hfind : (l.filterMap f).lookup c = l.findSome? fun a => (f a).bind fun x => if c == x.1 then some x.2 else none := by
    rw [List.lookup_eq_findSome?]
    induction l with
    | nil => rfl
    | cons a rest ih =>
      cases hf : f a with
      | none => rw [List.filterMap_cons_none hf, List.findSome?_cons, hf, ih, Option.bind_none]
      | some x => rw [List.filterMap_cons_some hf, List.findSome?_cons, List.findSome?_cons, hf, ih, Option.bind_some]
  rw [hfind, List.findSome?_eq_some_iff]
  simp only [hkey, Option.eq_none_iff_forall_ne_some, ne_eq]

theorem lookup_filterMap_congr (h : ∀ a ∈ l, ∀ w, f a = some (c, w) ↔ g a = some (c, w)) :
    (l.filterMap f).lookup c = (l.filterMap g).lookup c := by
  apply Option.ext
  intro w
  simp only [lookup_filterMap_eq_some]
  refine exists₃_congr fun before a after => and_congr_right ?_
  rintro rfl
  refine and_congr (h a (by simp) w) (forall₃_congr fun x hx w => not_congr (h x (by simp [hx]) w))

end

theorem Impact.of_activation (a : Action) (scoring : ScoringSystem) (weight : Option UInt32) :
    Impact.of a.activation scoring weight =
      { scoring := if a = .ignore then .ignoreScore else scoring, weight := weight } := by
  cases a <;> rfl

theorem Role.check_of_identity {role : Role} {q : Query} {id : CodeId} (h : role.identity q = .code id) :
    role = .check ∧ q.isComposite = false := by
  unfold identity at h
  split at h
  · cases h
  · rename_i hn
    split at h
    · cases role with
      | check => exact ⟨rfl, by simpa using hn⟩
      | data => cases h
    · cases h

namespace Setting

inductive Tie (s : Setting) (c : Identity) (w : Impact) : Option Kind → Mrn → Prop
  | composite {m : Mrn} {role : Role} {path : List Mrn} {q : Query} : s.bundle.queries.find? m = some q →
    ((s.variantLinks role path q).map Prod.snd).lookup c = some w → Tie s c w (some .query) m
  | riskFactor {m : Mrn} {k : RiskFactor} : s.bundle.riskFactors.find? m = some k →
    (s.riskLinks k).lookup c = some w → Tie s c w (some .riskFactor) m
  | policy {m : Mrn} {p : Policy} {tail : List (Mrn × Bool)} : s.bundle.policies.find? m = some p →
    (∀ x ∈ tail, (Kind.policy, x.1) ∈ s.bundle.names) → (s.linksAt tail p).lookup c = some w →
      Tie s c w (some .policy) m
  | asset : w = {} → Tie s c w none "root"

variable {s : Setting} {roots path : List Mrn} {log : List Edit} {p : Policy} {d d₀ : Draft} {e : Edit} {m : Mrn}
  {i c : Identity} {w w' : Impact} {k k' : Option Kind}

theorem check_of_variantLink {path : List Mrn} {m : Mrn} {id : CodeId} {x : Mrn × Link} {role : Role}
    (h : s.variantLink role path m = some x) (hc : x.2.1 = .code id) : role = .check := by
  obtain ⟨-, v, -, -, -, rfl⟩ := variantLink_eq_some.mp h
  exact (Role.check_of_identity hc).1

theorem variantLink_code {path path' : List Mrn} {m : Mrn} {id : CodeId} {x : Mrn × Link} {role : Role}
    (h : s.variantLink role path m = some x) (hc : x.2.1 = .code id) : s.variantLink role path' m = some x := by
  obtain ⟨ha, v, hv, hm, hy, rfl⟩ := variantLink_eq_some.mp h
  have hn := (Role.check_of_identity hc).2
  exact variantLink_eq_some.mpr ⟨ha, v, hv, hm, (yields_leaf_iff hn).mpr ((yields_leaf_iff hn).mp hy), rfl⟩

theorem variantLinks_lookup_inj {role role' : Role} {path path' : List Mrn} {q : Query}
    (h : ((s.variantLinks role path q).map Prod.snd).lookup c = some w)
    (h' : ((s.variantLinks role' path' q).map Prod.snd).lookup c = some w') : w = w' := by
  obtain ⟨⟨n, _⟩, hx, rfl⟩ := List.mem_map.mp (mem_of_lookup h)
  obtain ⟨⟨n', _⟩, hx', rfl⟩ := List.mem_map.mp (mem_of_lookup h')
  cases c with
  | code id =>
    obtain ⟨m, -, hm⟩ := List.mem_filterMap.mp hx
    obtain ⟨m', -, hm'⟩ := List.mem_filterMap.mp hx'
    obtain rfl := check_of_variantLink hm rfl
    obtain rfl := check_of_variantLink hm' rfl
    -- a code may come from several variants, but the same ones on every path: the first decides
    have hsame : ((s.variantLinks .check path q).map Prod.snd).lookup (.code id) =
        ((s.variantLinks .check path' q).map Prod.snd).lookup (.code id) := by
      unfold variantLinks
      rw [List.map_filterMap, List.map_filterMap]
      apply lookup_filterMap_congr
      intro m _ w
      simp only [Option.map_eq_some_iff]
      constructor
      · rintro ⟨x, hx, hw⟩
        exact ⟨x, variantLink_code hx (congrArg Prod.fst hw), hw⟩
      · rintro ⟨x, hx, hw⟩
        exact ⟨x, variantLink_code hx (congrArg Prod.fst hw), hw⟩
    exact Option.some.inj (h.symm.trans (hsame.trans h'))
  | mrn x =>
    obtain ⟨m, -, -, v, hv, -, -, he⟩ := mem_variantLinks.mp hx
    obtain ⟨m', -, -, v', hv', -, -, he'⟩ := mem_variantLinks.mp hx'
    simp only [Prod.mk.injEq] at he he'
    obtain ⟨-, hi, rfl⟩ := he
    obtain ⟨-, hi', rfl⟩ := he'
    rw [← Keyed.key_of_find? hv, ← Keyed.key_of_find? hv', Role.mrn_of_identity hi.symm, Role.mrn_of_identity hi'.symm]

theorem linksAt_lookup_inj (hd : s.bundle.Distinct) {tail tail' : List (Mrn × Bool)}
    (ht : ∀ x ∈ tail, (Kind.policy, x.1) ∈ s.bundle.names) (ht' : ∀ x ∈ tail', (Kind.policy, x.1) ∈ s.bundle.names)
    (h : (s.linksAt tail p).lookup c = some w) (h' : (s.linksAt tail' p).lookup c = some w') : w = w' := by
  have hmem : c ∈ (s.linksAt tail p).map Prod.fst := mem_map_fst_iff_lookup.mpr ⟨w, h⟩
  have hmem' : c ∈ (s.linksAt tail' p).map Prod.fst := mem_map_fst_iff_lookup.mpr ⟨w', h'⟩
  have hsame : (s.linksAt tail p).lookup c = (s.linksAt tail' p).lookup c := by
    apply lookup_filterMap_congr
    intro r _ x
    cases r with
    | query role r => rfl
    | riskFactor n => rfl
    | policy r =>
      rw [referenceLink_policy_eq_some, referenceLink_policy_eq_some]
      -- if there is an edge, the policy it leads to has a job in either ledger
      have hdone : c = .mrn r.mrn → ((r.mrn, true) ∈ tail ↔ (r.mrn, true) ∈ tail') := by
        rintro rfl
        constructor
        · exact fun hr => settled_of_mem_linksAt hd (ht _ hr) hmem'
        · exact fun hr => settled_of_mem_linksAt hd (ht' _ hr) hmem
      constructor
      · rintro ⟨ha, hr, hx⟩
        exact ⟨ha, (hdone (Prod.mk.inj hx).1).mp hr, hx⟩
      · rintro ⟨ha, hr, hx⟩
        exact ⟨ha, (hdone (Prod.mk.inj hx).1).mpr hr, hx⟩
  exact Option.some.inj (h.symm.trans (hsame.trans h'))

theorem Tie.named (h : s.Tie c w k m) : (∃ l, k = some l ∧ (l, m) ∈ s.bundle.names) ∨ k = none ∧ m = "root" := by
  cases h with
  | composite hq _ => exact .inl ⟨_, rfl, Bundle.mem_names_query.mpr ⟨_, hq⟩⟩
  | riskFactor hk _ => exact .inl ⟨_, rfl, Bundle.mem_names_riskFactor.mpr ⟨_, hk⟩⟩
  | policy hp _ _ => exact .inl ⟨_, rfl, Bundle.mem_names_policy.mpr ⟨_, hp⟩⟩
  | asset _ => exact .inr ⟨rfl, rfl⟩

theorem Tie.kind_eq (hd : s.bundle.Distinct) (h : s.Tie c w k m) (h' : s.Tie c w' k' m) : k = k' := by
  rcases h.named with ⟨l, rfl, hl⟩ | ⟨rfl, hm⟩
  · rcases h'.named with ⟨l', rfl, hl'⟩ | ⟨rfl, hm⟩
    · exact congrArg some (hd.kind_eq hl hl')
    · exact absurd hm (hd.noRoot _ hl)
  · rcases h'.named with ⟨l', rfl, hl'⟩ | ⟨rfl, -⟩
    · exact absurd hm (hd.noRoot _ hl')
    · rfl

theorem Tie.inj (hd : s.bundle.Distinct) (h : s.Tie c w k m) (h' : s.Tie c w' k' m) : w = w' := by
  obtain rfl := h.kind_eq hd h'
  cases h with
  | composite hq hl =>
    cases h' with
    | composite hq' hl' =>
      obtain rfl := Option.some.inj (hq.symm.trans hq')
      exact variantLinks_lookup_inj hl hl'
  | riskFactor hk hl =>
    cases h' with
    | riskFactor hk' hl' =>
      obtain rfl := Option.some.inj (hk.symm.trans hk')
      exact Option.some.inj (hl.symm.trans hl')
  | policy hp ht hl =>
    cases h' with
    | policy hp' ht' hl' =>
      obtain rfl := Option.some.inj (hp.symm.trans hp')
      exact linksAt_lookup_inj hd ht ht' hl hl'
  | asset hw =>
    cases h' with
    | asset hw' => rw [hw, hw']

theorem Told.tie (h : s.Told assetRoot roots d₀ path log d) (he : e ∈ log) (hties : e.Ties i c w) :
    ∃ k m, i = .mrn m ∧ s.Tie c w k m := by
  rcases h.sound e he with he | ⟨n, -, -, rfl⟩
  · cases he with
    | query hq hdraw =>
      cases hdraw with
      | leaf _ _ _ => exact hties.elim
      | composite htrail _ _ =>
        exact ⟨_, _, hties.1, .composite (Keyed.find?_of_mem (Trail.mem htrail hq.mem)) hties.2⟩
    | raising _ _ hk _ _ he =>
      rw [← Keyed.key_of_find? hk] at hk
      simp only [raising, List.mem_cons, List.not_mem_nil, or_false] at he
      rcases he with rfl | rfl
      · exact ⟨_, _, hties.1, .riskFactor hk hties.2⟩
      · exact hties.elim
    | policy hp ht =>
      exact ⟨_, _, hties.1, .policy hp.declared (h.names ((List.suffix_cons ..).trans ht)) hties.2⟩
    | _ => exact hties.elim
  · obtain ⟨rfl, -, hw⟩ := hties
    exact ⟨none, _, rfl, .asset hw⟩

theorem Told.tie_of_weighs (h : s.Told assetRoot roots d₀ path log d) (hb : Blank assetRoot d₀)
    (hw : d.graph.Weighs i c w) : ∃ k m, i = .mrn m ∧ s.Tie c w k m := by
  rw [h.graph] at hw
  rcases Graph.weighs_of_drawAll hb.linked.unique (h.grounded ((hb.has _).mpr rfl)) hw with hw | ⟨e, he, hties⟩
  · exact absurd (Graph.edge_iff.mpr ⟨w, hw⟩) (hb.edgeless i c)
  · exact h.tie he hties

theorem Told.weighs_of_edge {roots' path' : List Mrn} {log' : List Edit} {d' d₁ : Draft} (hd : s.bundle.Distinct)
    (h : s.Told assetRoot roots d₀ path log d) (hb : Blank assetRoot d₀)
    (h' : s.Told assetRoot roots' d₁ path' log' d') (hb' : Blank assetRoot d₁)
    (hw : d.graph.Weighs i c w) (he : d'.graph.Edge i c) : d'.graph.Weighs i c w := by
  obtain ⟨w', hw'⟩ := Graph.edge_iff.mp he
  obtain ⟨k, m, rfl, htie⟩ := h.tie_of_weighs hb hw
  obtain ⟨k', m', hi, htie'⟩ := h'.tie_of_weighs hb' hw'
  obtain rfl := Identity.mrn.inj hi
  rwa [htie.inj hd htie']

end Setting

end Compliance
