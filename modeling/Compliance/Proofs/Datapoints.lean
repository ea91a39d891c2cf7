import Compliance.Proofs.Closure

namespace Compliance

def NameMap.enlist (m : NameMap (List Identity)) (i : Identity) (cs : List Checksum) : NameMap (List Identity) :=
  cs.foldl (fun m c => m.set c (appendNew ((m.get? c).getD []) [i])) m

theorem NameMap.get?_enlist (m : NameMap (List Identity)) (i : Identity) (cs : List Checksum) (c : Checksum) :
    (m.enlist i cs).get? c = if c ∈ cs then some (appendNew ((m.get? c).getD []) [i]) else m.get? c := by
  induction cs generalizing m with
  | nil => rfl
  | cons c' rest ih =>
    rw [enlist, List.foldl_cons]
    refine (ih _).trans ?_
    by_cases hc : c' = c
    · subst hc
      -- listed again, a job is there already
      have hagain : appendNew (appendNew ((m.get? c').getD []) [i]) [i] = appendNew ((m.get? c').getD []) [i] :=
        appendNew_of_subset fun _ hx => mem_appendNew.mpr (.inr hx)
      simp [hagain]
    · simp [hc, Ne.symm hc]

namespace Graph

def listing (g : Graph) (c : Checksum) : List Identity :=
  (g.jobs.filter fun j => j.type.isQuery && j.datapoints.contains c).map (·.identity)

variable {g : Graph} {c : Checksum}

theorem exists_mem_listing : g.listing c ≠ [] ↔ ∃ j ∈ g.jobs, j.type.isQuery = true ∧ c ∈ j.datapoints := by
  simp [listing]

theorem listing_nodup (hu : g.Unique) : (g.listing c).Nodup :=
  hu.sublist (List.filter_sublist.map _)

theorem shareMrns_listing : g.shareMrns.listing c = g.listing c := by
  rw [shareMrns_eq, listing, List.filter_map, List.map_map, listing]
  have hread : ∀ j : Job, (j.sharing g.siblingMrns).identity = j.identity ∧
      (j.sharing g.siblingMrns).type = j.type ∧ (j.sharing g.siblingMrns).datapoints = j.datapoints := by
    intro j
    obtain ⟨ms, hms⟩ := j.sharing_mrns g.siblingMrns
    rw [hms]
    exact ⟨rfl, rfl, rfl⟩
  have hkeep : ((fun j : Job => j.type.isQuery && j.datapoints.contains c) ∘ Job.sharing g.siblingMrns) =
      fun j => j.type.isQuery && j.datapoints.contains c := by
    funext j
    obtain ⟨-, ht, hd⟩ := hread j
    simp only [Function.comp_apply, ht, hd]
  rw [hkeep]
  exact List.map_congr_left fun j _ => (hread j).1

theorem get?_foldl_enlist (jobs : List Job) (c : Checksum) :
    NameMap.get? (jobs.foldl (fun m j => NameMap.enlist m j.identity j.datapoints) Keyed.empty) c =
      let ids := (jobs.filter (·.datapoints.contains c)).map (·.identity)
      if ids = [] then none else some (appendNew [] ids) := by
  induction jobs using List.reverseRecOn with
  | nil => rfl
  | append_singleton jobs j ih =>
    have hstep : ((jobs ++ [j]).filter (·.datapoints.contains c)).map (·.identity) =
        (jobs.filter (·.datapoints.contains c)).map (·.identity) ++ if c ∈ j.datapoints then [j.identity] else [] := by
      by_cases hc : c ∈ j.datapoints
      · simp [List.filter_append, hc]
      · simp [List.filter_append, hc]
    rw [List.foldl_append, List.foldl_cons, List.foldl_nil, NameMap.get?_enlist, ih, hstep]
    generalize (jobs.filter (·.datapoints.contains c)).map (·.identity) = ids
    by_cases hc : c ∈ j.datapoints
    · cases ids with
      | nil => simp [hc]
      | cons i rest => simp [hc, appendNew]
    · simp [hc]

theorem consumers_get? (hu : g.Unique) :
    g.consumers.get? c = if g.listing c = [] then none else some (g.listing c) := by
  have hids : ((g.jobs.filter (·.type.isQuery)).filter (·.datapoints.contains c)).map (·.identity) = g.listing c := by
    rw [List.filter_filter, listing]
    congr 2
    funext j
    exact Bool.and_comm ..
  refine (get?_foldl_enlist _ c).trans ?_
  simp only [hids]
  rw [appendNew_of_nodup (listing_nodup hu), List.nil_append]

end Graph

namespace Bundle

variable {b : Bundle} {r : Request} {res : Resolution}

theorem resolve_unique (h : b.resolve r = .ok res) : res.graph.Unique := by
  obtain ⟨scope, root, d, -, hd, rfl⟩ := resolve_eq_ok.mp h
  rw [Graph.Unique]
  exact (Graph.shareMrns_identities d.graph).symm ▸ draft_unique hd

theorem resolve_stocked (h : b.resolve r = .ok res) : ∀ j ∈ res.graph.jobs, j.Stocked b := by
  obtain ⟨scope, root, d, -, hd, rfl⟩ := resolve_eq_ok.mp h
  exact (Graph.forall_shareMrns b.stamps_stocked.mrns_iff).mpr (draft_stocked hd)

theorem resolve_consumers (h : b.resolve r = .ok res) (c : Checksum) :
    res.consumers.get? c = if res.graph.listing c = [] then none else some (res.graph.listing c) := by
  obtain ⟨scope, root, d, -, hd, rfl⟩ := resolve_eq_ok.mp h
  have hshare : (b.finish r scope root d).graph.listing c = d.graph.listing c := Graph.shareMrns_listing
  rw [hshare]
  exact Graph.consumers_get? (draft_unique hd)

theorem exists_entry_of_origin (hb : b.CodeAgrees) (h : b.resolve r = .ok res) {j : Job} (hj : j ∈ res.graph.jobs)
    (ht : j.type.isQuery = true) {m : Mrn} {id : CodeId} (ho : j.origin = some (m, id)) :
    ∃ e, res.execution.queries.get? id = some e ∧ j.datapoints = e.code.checksums := by
  have hclosed := resolve_closed h
  obtain ⟨q, c, hs⟩ := (resolve_stocked h j hj).of_origin ho
  obtain ⟨e, he⟩ := NameMap.mem_keys_iff.mp (hclosed.covers.jobs j hj ht m id ho)
  obtain ⟨hid, q', hq', hc', -⟩ := hclosed.entries id e he
  -- the entry may have its code from another query of the same code id
  have hcode : c = e.code := hb q (Keyed.mem_of_find? hs.query) q' (Keyed.mem_of_find? hq') c hs.code e.code hc'
    (hs.codeId.trans hid.symm)
  exact ⟨e, he, hcode ▸ hs.datapoints hb⟩

end Bundle

structure Resolution.Supplied (res : Resolution) : Prop where
  run : ∀ j ∈ res.graph.jobs, j.type.isQuery = true → ∀ m id, j.origin = some (m, id) →
    ∃ e, res.execution.queries.get? id = some e ∧ j.datapoints = e.code.checksums
  produced : ∀ j ∈ res.graph.jobs, j.type.isQuery = true → ∀ c ∈ j.datapoints,
    ∃ e ∈ res.execution.queries.values, c ∈ e.code.checksums
  keys : ∀ c, c ∈ res.consumers.keys ↔ ∃ j ∈ res.graph.jobs, j.type.isQuery = true ∧ c ∈ j.datapoints
  consumers : ∀ c ids, res.consumers.get? c = some ids → ids = res.graph.listing c
  once : ∀ c, (res.graph.listing c).Nodup

/-- With one code to a code id, what the jobs of a resolution wait for is what the code that is run produces, and
the collector has for each datapoint the jobs that wait for it. -/
theorem Bundle.resolve_supplied {b : Bundle} {r : Request} {res : Resolution} (hb : b.CodeAgrees)
    (h : b.resolve r = .ok res) : res.Supplied where
  run j hj ht m id ho := exists_entry_of_origin hb h hj ht ho
  produced j hj ht c hc := by
    cases ho : j.origin with
    | none =>
      rw [(resolve_stocked h j hj).of_no_origin ho] at hc
      cases hc
    | some o =>
      obtain ⟨e, he, hdatapoints⟩ := exists_entry_of_origin hb h hj ht ho
      exact ⟨e, NameMap.mem_values_iff.mpr ⟨_, he⟩, hdatapoints ▸ hc⟩
  keys c := by
    rw [NameMap.mem_keys_iff, resolve_consumers h, ← Graph.exists_mem_listing]
    by_cases hl : res.graph.listing c = []
    · simp [hl]
    · simp [hl]
  consumers c ids hids := by
    rw [resolve_consumers h] at hids
    split at hids
    · cases hids
    · exact (Option.some.inj hids).symm
  once c := Graph.listing_nodup (resolve_unique h)

def pooledBundle : Bundle where
  policies := .ofList [{ mrn := "p", groups := [{
    checks := [{ mrn := "x" }, { mrn := "y" }], queries := [{ mrn := "y" }, { mrn := "z" }] }] }]
  queries := .ofList [
    { mrn := "x", code := some { id := "c", entrypoints := ["e"], datapoints := ["d", "e"] } },
    { mrn := "y", code := some { id := "c", entrypoints := ["e"], datapoints := ["d", "e"] } },
    { mrn := "z", code := some { id := "cz", entrypoints := ["f", "d"] } }]

theorem pooledBundle_supplied : pooledBundle.CodeAgrees ∧
    ∃ res, pooledBundle.resolve (assetRequest ["p"]) = .ok res ∧ res.Supplied := by
  have hb : pooledBundle.CodeAgrees := by decide +kernel
  have hs : (pooledBundle.scope ["p"]).covers Keyed.empty = true := by decide +kernel
  obtain ⟨res, h⟩ := Bundle.exists_resolution (Bundle.checkScope_assetRequest hs)
  exact ⟨hb, res, h, Bundle.resolve_supplied hb h⟩

end Compliance
