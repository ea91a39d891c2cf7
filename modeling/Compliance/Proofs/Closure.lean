import Compliance.Proofs.Preorder
import Compliance.Proofs.Provenance
import Compliance.Proofs.QueryJobs
import Compliance.Proofs.Rooted

namespace Compliance

theorem Keyed.find?_ofList_iff {α : Type} {key : α → String} {l : List α} (h : (l.map key).Nodup) {k : String} {a : α} :
    (Keyed.ofList l : Keyed key).find? k = some a ↔ a ∈ l ∧ key a = k := by
  rw [Keyed.find?_ofList]
  constructor
  · intro hf
    exact ⟨List.mem_reverse.mp (List.mem_of_find?_eq_some hf), by simpa using List.find?_some hf⟩
  · rintro ⟨ha, rfl⟩
    have hsome : (l.reverse.find? (key · == key a)).isSome = true :=
      List.find?_isSome.mpr ⟨a, List.mem_reverse.mpr ha, by simp⟩
    obtain ⟨a', hf⟩ := Option.isSome_iff_exists.mp hsome
    have hkey : key a' = key a := by simpa using List.find?_some hf
    rw [hf, List.inj_on_of_nodup_map h (List.mem_reverse.mp (List.mem_of_find?_eq_some hf)) ha hkey]

theorem Graph.mem_starts {g : Graph} {m : Mrn} :
    m ∈ g.starts ↔ ∃ j ∈ g.jobs, j.type.isQuery = true ∧ ∃ id, j.origin = some (m, id) := by
  simp only [starts, List.mem_filterMap, List.mem_filter, Option.map_eq_some_iff, Prod.exists]
  constructor
  · rintro ⟨j, ⟨hj, ht⟩, m', id, ho, rfl⟩
    exact ⟨j, hj, ht, id, ho⟩
  · rintro ⟨j, hj, ht, id, ho⟩
    exact ⟨j, ⟨hj, ht⟩, m, id, ho, rfl⟩

namespace Bundle

variable {b : Bundle}

def boundCode (b : Bundle) (p : Property) : Option CodeId :=
  (b.queries.find? p.mrn).bind fun q => q.code.map (·.id)

theorem boundCode_eq_some {p : Property} {id : CodeId} :
    b.boundCode p = some id ↔ ∃ q c, b.queries.find? p.mrn = some q ∧ q.code = some c ∧ c.id = id := by
  simp [boundCode, Option.bind_eq_some_iff, Option.map_eq_some_iff]

theorem binding_eq_bound {p : Property} {name : String} {q : Query} {c : Code} :
    b.binding p = .bound name q c ↔ p.name = name ∧ b.queries.find? p.mrn = some q ∧ q.code = some c := by
  unfold binding
  split
  · simp_all
  · rename_i q' hq
    split
    · rename_i hc
      simp only [reduceCtorEq, hq, false_iff]
      rintro ⟨-, h, h'⟩
      obtain rfl := Option.some.inj h
      simp [hc] at h'
    · rename_i c' hc
      simp only [Binding.bound.injEq, hq, Option.some.injEq]
      constructor
      · rintro ⟨rfl, rfl, rfl⟩
        exact ⟨rfl, rfl, hc⟩
      · rintro ⟨rfl, rfl, h⟩
        exact ⟨rfl, rfl, Option.some.inj (hc.symm.trans h)⟩

theorem mem_readBy {q : Query} {n : Mrn} :
    n ∈ b.readBy q ↔ ∃ p ∈ q.properties, p.mrn = n ∧ ∃ id, b.boundCode p = some id := by
  simp only [readBy, bindings, List.filterMap_map, List.mem_filterMap, Function.comp_apply]
  constructor
  · rintro ⟨p, hp, h⟩
    split at h
    · rename_i name q' c hb
      obtain ⟨-, hq, hc⟩ := binding_eq_bound.mp hb
      refine ⟨p, hp, ?_, c.id, boundCode_eq_some.mpr ⟨q', c, hq, hc, rfl⟩⟩
      rw [← Keyed.key_of_find? hq]
      exact Option.some.inj h
    · cases h
  · rintro ⟨p, hp, rfl, id, hid⟩
    obtain ⟨q', c, hq, hc, -⟩ := boundCode_eq_some.mp hid
    refine ⟨p, hp, ?_⟩
    rw [binding_eq_bound.mpr ⟨rfl, hq, hc⟩]
    exact congrArg some (Keyed.key_of_find? hq)

theorem executionQuery_properties (q : Query) (c : Code) (name : String) :
    (b.executionQuery q c).properties.get? name =
      ((q.properties.filter (·.name == name)).filterMap b.boundCode).getLast? := by
  have hlist : (b.executionQuery q c).properties =
      Keyed.ofList (q.properties.filterMap fun p => (b.boundCode p).map (p.name, ·)) := by
    simp only [executionQuery, bindings, List.filterMap_map]
    congr 2
    funext p
    cases hq : b.queries.find? p.mrn with
    | none => simp [binding, boundCode, hq]
    | some q' =>
      cases hc : q'.code with
      | none => simp [binding, boundCode, hq, hc]
      | some c' => simp [binding, boundCode, hq, hc]
  rw [hlist, NameMap.get?_ofList]
  congr 1
  induction q.properties with
  | nil => rfl
  | cons p rest ih =>
    cases hp : b.boundCode p with
    | none =>
      by_cases hn : p.name = name
      · simpa [hp, hn] using ih
      · simpa [hp, hn] using ih
    | some id =>
      by_cases hn : p.name = name
      · simpa [hp, hn] using ih
      · simpa [hp, hn] using ih

variable {starts : List Mrn} {q : Query} {k : CodeId} {e : ExecutionQuery}

theorem find?_of_contributor (h : q ∈ b.contributors starts) : b.queries.find? q.mrn = some q := by
  obtain ⟨⟨n, x⟩, hx, rfl⟩ := List.mem_filterMap.mp h
  have hf := find?_of_mem_preorder hx
  obtain rfl := Keyed.key_of_find? hf
  exact hf

theorem executionFrom_get? : (b.executionFrom starts).queries.get? k = some e ↔
    ∃ q ∈ b.contributors starts, ∃ c, q.code = some c ∧ c.id = k ∧ b.executionQuery q c = e := by
  have hnodup : (((b.contributors starts).filterMap fun q =>
      q.code.map fun c => (c.id, b.executionQuery q c)).map Prod.fst).Nodup := by
    have hmarks : ((b.contributors starts).filterMap fun q => q.code.map fun c => (c.id, b.executionQuery q c)).map
        Prod.fst = (marked (fun q => q.code.map (·.id))
          (preorder b.queries (fun q => q.code.map (·.id)) b.readBy [] starts)).filterMap id := by
      rw [marked, List.filterMap_map, List.map_filterMap]
      congr 1
      funext q
      cases hc : q.code <;> simp [hc]
    rw [hmarks]
    refine List.Nodup.filterMap (fun x y k hx hy => ?_) marked_preorder_nodup.1
    exact (Option.mem_def.mp hx).trans (Option.mem_def.mp hy).symm
  rw [executionFrom, NameMap.get?_eq_some, Keyed.find?_ofList_iff hnodup]
  simp only [List.mem_filterMap, Option.map_eq_some_iff, Prod.mk.injEq, and_true]

theorem mem_executionFrom_keys :
    k ∈ (b.executionFrom starts).queries.keys ↔ ∃ q ∈ b.contributors starts, ∃ c, q.code = some c ∧ c.id = k := by
  rw [NameMap.mem_keys_iff]
  constructor
  · rintro ⟨e, he⟩
    obtain ⟨q, hq, c, hc, hk, -⟩ := executionFrom_get?.mp he
    exact ⟨q, hq, c, hc, hk⟩
  · rintro ⟨q, hq, c, hc, hk⟩
    exact ⟨_, executionFrom_get?.mpr ⟨q, hq, c, hc, hk, rfl⟩⟩

theorem mem_keys_of_marked {c : Code} (hc : q.code = some c) (h : q.code.map (·.id) ∈ marked (fun q => q.code.map (·.id))
    (preorder b.queries (fun q => q.code.map (·.id)) b.readBy [] starts) ∨ q.code.map (·.id) ∈ ([] : List (Option CodeId))) :
    c.id ∈ (b.executionFrom starts).queries.keys := by
  obtain ⟨q', hq', hm⟩ := List.mem_map.mp (h.resolve_right List.not_mem_nil)
  rw [hc, Option.map_some] at hm
  obtain ⟨c', hc', hid⟩ := Option.map_eq_some_iff.mp hm
  exact mem_executionFrom_keys.mpr ⟨q', hq', c', hc', hid⟩

theorem start_mem_keys {m : Mrn} {c : Code} (hm : m ∈ starts) (hq : b.queries.find? m = some q) (hc : q.code = some c) :
    c.id ∈ (b.executionFrom starts).queries.keys :=
  mem_keys_of_marked hc (mem_marked_preorder hm hq)

theorem executionFrom_entry (he : (b.executionFrom starts).queries.get? k = some e) : e.code.id = k ∧
    ∃ q, b.queries.find? e.query = some q ∧ q.code = some e.code ∧ ∀ name, e.properties.get? name =
      ((q.properties.filter (·.name == name)).filterMap b.boundCode).getLast? := by
  obtain ⟨q, hq, c, hc, hk, rfl⟩ := executionFrom_get?.mp he
  exact ⟨hk, q, find?_of_contributor hq, hc, executionQuery_properties q c⟩

theorem executionFrom_reads (he : (b.executionFrom starts).queries.get? k = some e)
    (hq : b.queries.find? e.query = some q) {p : Property} (hp : p ∈ q.properties) {id : CodeId}
    (hid : b.boundCode p = some id) : id ∈ (b.executionFrom starts).queries.keys := by
  obtain ⟨q', hq', c', -, -, rfl⟩ := executionFrom_get?.mp he
  obtain rfl := Option.some.inj (hq.symm.trans (find?_of_contributor hq'))
  obtain ⟨q'', c, hfind, hc, rfl⟩ := boundCode_eq_some.mp hid
  exact mem_keys_of_marked hc (next_mem_marked_preorder hq' (mem_readBy.mpr ⟨p, hp, rfl, _, hid⟩) hfind)

theorem executionFrom_bound (he : e ∈ (b.executionFrom starts).queries.values) {id : CodeId}
    (hid : id ∈ e.properties.values) : id ∈ (b.executionFrom starts).queries.keys := by
  obtain ⟨k, hk⟩ := NameMap.mem_values_iff.mp he
  obtain ⟨-, q, hq, -, hprops⟩ := executionFrom_entry hk
  obtain ⟨name, hname⟩ := NameMap.mem_values_iff.mp hid
  rw [hprops] at hname
  obtain ⟨p, hp, hpid⟩ := List.mem_filterMap.mp (List.mem_of_getLast? hname)
  exact executionFrom_reads hk hq (List.mem_of_mem_filter hp) hpid

theorem executionFrom_least {K : CodeId → Prop}
    (hs : ∀ m ∈ starts, ∃ q c, b.queries.find? m = some q ∧ q.code = some c ∧ K c.id)
    (hr : ∀ k e, (b.executionFrom starts).queries.get? k = some e → K k → ∀ q, b.queries.find? e.query = some q →
      ∀ p ∈ q.properties, ∀ id, b.boundCode p = some id → K id) :
    ∀ k ∈ (b.executionFrom starts).queries.keys, K k := by
  intro k hk
  -- every contributor has its code in the set: those started from, and those that they read
  have hreached : ∀ q ∈ b.contributors starts, ∃ c, q.code = some c ∧ K c.id := by
    refine forall_mem_preorder (fun m hm q hq => ?_) fun q hq ⟨c, hc, hKc⟩ n hn q' hq' => ?_
    · obtain ⟨q₀, c, hq₀, hc, hKc⟩ := hs m hm
      obtain rfl := Option.some.inj (hq.symm.trans hq₀)
      exact ⟨c, hc, hKc⟩
    · obtain ⟨p, hp, rfl, id, hid⟩ := mem_readBy.mp hn
      obtain ⟨q₀, c', hq₀, hc', rfl⟩ := boundCode_eq_some.mp hid
      obtain rfl := Option.some.inj (hq'.symm.trans hq₀)
      have he := executionFrom_get?.mpr ⟨q, hq, c, hc, rfl, rfl⟩
      exact ⟨c', hc', hr c.id _ he hKc q (find?_of_contributor hq) p hp _ hid⟩
  obtain ⟨q, hq, c, hc, rfl⟩ := mem_executionFrom_keys.mp hk
  obtain ⟨c', hc', hKc⟩ := hreached q hq
  obtain rfl := Option.some.inj (hc.symm.trans hc')
  exact hKc

end Bundle

/-- A set of code that has the code of the query jobs and, with the code of an entry, all that the
query of the entry reads. -/
structure Resolution.Covers (b : Bundle) (res : Resolution) (K : CodeId → Prop) : Prop where
  jobs : ∀ j ∈ res.graph.jobs, j.type.isQuery = true → ∀ m id, j.origin = some (m, id) → K id
  reads : ∀ k e, res.execution.queries.get? k = some e → K k → ∀ q, b.queries.find? e.query = some q →
    ∀ p ∈ q.properties, ∀ id, b.boundCode p = some id → K id

structure Resolution.Closed (b : Bundle) (res : Resolution) : Prop where
  covers : res.Covers b (· ∈ res.execution.queries.keys)
  least : ∀ K, res.Covers b K → ∀ k ∈ res.execution.queries.keys, K k
  entries : ∀ k e, res.execution.queries.get? k = some e → e.code.id = k ∧ ∃ q, b.queries.find? e.query = some q ∧
    q.code = some e.code ∧ ∀ name, e.properties.get? name =
      ((q.properties.filter (·.name == name)).filterMap b.boundCode).getLast?
  bound : ∀ e ∈ res.execution.queries.values, ∀ id ∈ e.properties.values, id ∈ res.execution.queries.keys
  propertyCodes : ∀ id ∈ res.execution.propertyCodes, id ∈ res.execution.queries.keys

theorem Bundle.resolve_closed {b : Bundle} {r : Request} {res : Resolution} (h : b.resolve r = .ok res) :
    res.Closed b := by
  obtain ⟨scope, root, d, -, hd, rfl⟩ := resolve_eq_ok.mp h
  have hstocked := draft_stocked hd
  refine ⟨⟨?_, ?_⟩, fun K hK => ?_, fun _ _ => executionFrom_entry, fun _ he _ => executionFrom_bound he, ?_⟩
  · refine (Graph.forall_shareMrns fun _ _ => Iff.rfl).mpr fun j hj ht m id ho => ?_
    obtain ⟨q, c, hs⟩ := (hstocked j hj).of_origin ho
    rw [← hs.codeId]
    exact start_mem_keys (Graph.mem_starts.mpr ⟨j, hj, ht, id, ho⟩) hs.query hs.code
  · exact fun k e he _ q hq p hp id hid => executionFrom_reads he hq hp hid
  · refine executionFrom_least (fun m hm => ?_) hK.reads
    obtain ⟨j, hj, ht, id, ho⟩ := Graph.mem_starts.mp hm
    obtain ⟨q, c, hs⟩ := (hstocked j hj).of_origin ho
    refine ⟨q, c, hs.query, hs.code, ?_⟩
    rw [hs.codeId]
    exact (Graph.forall_shareMrns fun _ _ => Iff.rfl).mp hK.jobs j hj ht m id ho
  · intro id hid
    obtain ⟨e, he, hv⟩ := List.mem_flatMap.mp (NameSet.mem_ofList.mp hid)
    exact executionFrom_bound he hv

def loopedBundle : Bundle where
  policies := .ofList [{ mrn := "p", groups := [{ checks := [{ mrn := "x" }, { mrn := "y" }] }] }]
  queries := .ofList [
    { mrn := "x", code := some { id := "c" }, properties := [⟨"limit", "u"⟩, ⟨"limit", "v"⟩, ⟨"limit", "none"⟩] },
    { mrn := "y", code := some { id := "c" }, properties := [⟨"other", "w"⟩] },
    { mrn := "u", code := some { id := "cu" }, properties := [⟨"peer", "v"⟩] },
    { mrn := "v", code := some { id := "cv" }, properties := [⟨"peer", "u"⟩] },
    { mrn := "w", code := some { id := "cw" } }]

theorem loopedBundle_closed : ∃ res, loopedBundle.resolve (assetRequest ["p"]) = .ok res ∧ res.Closed loopedBundle := by
  have hs : (loopedBundle.scope ["p"]).covers Keyed.empty = true := by decide +kernel
  obtain ⟨res, h⟩ := Bundle.exists_resolution (Bundle.checkScope_assetRequest hs)
  exact ⟨res, h, Bundle.resolve_closed h⟩

end Compliance
