import Compliance.Proofs.Controls
import Compliance.Proofs.Framing
import Compliance.Proofs.QueryJobs

namespace Compliance

def Job.joined (j : Job) (cs : List (Identity × Impact)) (ps : List Identity) : Job :=
  { j with children := j.children ++ cs, parents := j.parents ++ ps }

theorem Job.sharing_joined (siblings : CodeId → List Mrn) (j : Job) (cs : List (Identity × Impact)) (ps : List Identity) :
    (j.joined cs ps).sharing siblings = (j.sharing siblings).joined cs ps := by
  unfold sharing joined
  split <;> simp_all

namespace Graph

variable {g annex : Graph} {root i : Identity} {kids : List (Identity × Impact)} {tellers : Identity → List Identity}

def joined (g : Graph) (root : Identity) (kids : List (Identity × Impact)) (tellers : Identity → List Identity)
    (annex : Graph) : Graph :=
  ⟨g.jobs.map (fun j => j.joined (if j.identity = root then kids else []) (tellers j.identity)) ++ annex.jobs⟩

theorem joined_nil (g : Graph) (root : Identity) : g.joined root [] (fun _ => []) {} = g := by
  simp [joined, Job.joined]

theorem joined_has : (g.joined root kids tellers annex).Has i ↔ g.Has i ∨ annex.Has i := by
  simp [Has, Holds, joined, Job.joined, or_and_right, exists_or]

theorem ensure_joined (hi : ¬g.Has i) (type : JobType) (sc : ScoringSystem) :
    (g.joined root kids tellers annex).ensure i type sc = g.joined root kids tellers (annex.ensure i type sc) := by
  have hfind : (g.joined root kids tellers annex).find? i = annex.find? i := by
    rw [find?, joined, List.find?_append, List.find?_eq_none.mpr, Option.none_or, find?]
    intro x hx he
    obtain ⟨j, hj, rfl⟩ := List.mem_map.mp hx
    exact hi ⟨j, hj, by simpa [Job.joined] using he, trivial⟩
  rw [ensure, hfind, ensure]
  split
  · rfl
  · simp only [joined, List.append_assoc]

theorem modify_joined (hi : ¬g.Has i) (f : Job → Job) :
    (g.joined root kids tellers annex).modify i f = g.joined root kids tellers (annex.modify i f) := by
  simp only [modify, joined, List.map_append, List.map_map]
  congr 2
  apply List.map_congr_left
  intro j hj
  exact if_neg (apart_of_not_has hi j hj)

theorem adopt_joined (l : Identity × Impact) :
    (g.joined root kids tellers annex).modify root (fun j => { j with children := j.children ++ [l] }) =
      g.joined root (kids ++ [l]) tellers (annex.modify root fun j => { j with children := j.children ++ [l] }) := by
  simp only [modify, joined, List.map_append, List.map_map]
  congr 2
  apply List.map_congr_left
  intro j _
  by_cases hj : j.identity = root <;> simp [Job.joined, hj]

theorem tell_joined (c p : Identity) :
    (g.joined root kids tellers annex).modify c (fun j => { j with parents := j.parents ++ [p] }) =
      g.joined root kids (fun i => if i = c then tellers i ++ [p] else tellers i)
        (annex.modify c fun j => { j with parents := j.parents ++ [p] }) := by
  simp only [modify, joined, List.map_append, List.map_map]
  congr 2
  apply List.map_congr_left
  intro j _
  by_cases hj : j.identity = c <;> simp [Job.joined, hj]

theorem queryJobs_joined (h : ∀ k ∈ annex.jobs, k.type.isQuery = false) :
    (g.joined root kids tellers annex).queryJobs = g.queryJobs := by
  have hannex : annex.jobs.filter (·.type.isQuery) = [] :=
    List.filter_eq_nil_iff.mpr fun k hk => by rw [h k hk]; exact Bool.false_ne_true
  rw [queryJobs, joined, List.filter_append, hannex, List.append_nil, List.filter_map, List.map_map]
  rfl

theorem shareMrns_joined (h : ∀ k ∈ annex.jobs, k.type.isQuery = false) :
    (g.joined root kids tellers annex).shareMrns = g.shareMrns.joined root kids tellers annex := by
  have hannex : annex.jobs.map (Job.sharing g.siblingMrns) = annex.jobs.map id :=
    List.map_congr_left fun k hk => Job.sharing_of_not_isQuery (h k hk)
  rw [shareMrns_eq, siblingMrns_congr (queryJobs_joined h), joined, List.map_append, hannex, List.map_id, shareMrns_eq,
    joined, List.map_map, List.map_map]
  congr 2
  apply List.map_congr_left
  intro j _
  simp only [Function.comp_apply, Job.sharing_joined, Job.sharing_identity]

end Graph

structure Bundle.Annexes (b : Bundle) (g : Graph) (kids : List (Identity × Impact)) (tellers : Identity → List Identity)
    (annex : Graph) : Prop where
  named : ∀ k ∈ annex.jobs, ∃ t : Tier, ∃ m, (t.kind, m) ∈ b.names ∧ k.identity = .mrn m ∧ k.type = t.jobType
  kids : ∀ l ∈ kids, l.2 = .ignored ∧ ∃ m, (Kind.framework, m) ∈ b.names ∧ l.1 = .mrn m
  tellers : ∀ j ∈ g.jobs, ∀ i ∈ tellers j.identity, j.type.isQuery = true ∧ ∃ m, (Kind.control, m) ∈ b.names ∧ i = .mrn m

def Bundle.Annexed (b : Bundle) (root : Identity) (g g' : Graph) : Prop :=
  ∃ kids tellers annex, g' = g.joined root kids tellers annex ∧ b.Annexes g kids tellers annex

def Graph.Bears (g : Graph) (t : Tier) (i : Identity) : Prop :=
  ∀ j ∈ g.jobs, j.identity = i → j.type.isQuery = true ∧ t = .control

section

variable {b : Bundle} {root c : Identity} {g g' annex : Graph} {kids : List (Identity × Impact)}
  {tellers : Identity → List Identity} {t : Tier} {m : Mrn}

theorem Graph.bears_of_not_has {i : Identity} (hi : ¬g.Has i) : g.Bears t i :=
  fun j hj he => absurd ⟨j, hj, he, trivial⟩ hi

namespace Bundle.Annexes

theorem modify (h : b.Annexes g kids tellers annex) (i : Identity) {f : Job → Job}
    (hf : ∀ j, (f j).identity = j.identity ∧ (f j).type = j.type) : b.Annexes g kids tellers (annex.modify i f) where
  named := Graph.forall_modify (fun j _ hj => by rwa [(hf j).1, (hf j).2]) h.named
  kids := h.kids
  tellers := h.tellers

theorem tell (h : b.Annexes g kids tellers annex) (hm : (t.kind, m) ∈ b.names) (hc : g.Bears t c) :
    b.Annexes g kids (fun i => if i = c then tellers i ++ [.mrn m] else tellers i) annex where
  named := h.named
  kids := h.kids
  tellers := by
    intro j hj i hi
    split at hi
    · rename_i he
      rcases List.mem_append.mp hi with hi | hi
      · exact h.tellers j hj i hi
      · obtain ⟨hq, rfl⟩ := hc j hj he
        exact ⟨hq, m, hm, List.mem_singleton.mp hi⟩
    · exact h.tellers j hj i hi

theorem adopt (h : b.Annexes g kids tellers annex) (hm : (Kind.framework, m) ∈ b.names) :
    b.Annexes g (kids ++ [(.mrn m, .ignored)]) tellers annex where
  named := h.named
  kids := by
    intro l hl
    rcases List.mem_append.mp hl with hl | hl
    · exact h.kids l hl
    · rw [List.mem_singleton.mp hl]
      exact ⟨rfl, m, hm, rfl⟩
  tellers := h.tellers

end Bundle.Annexes

namespace Bundle.Annexed

theorem refl (b : Bundle) (root : Identity) (g : Graph) : b.Annexed root g g :=
  ⟨[], fun _ => [], {}, (g.joined_nil root).symm, by simp, by simp, by simp⟩

theorem modify (h : b.Annexed root g g') {i : Identity} (hi : ¬g.Has i) {f : Job → Job}
    (hf : ∀ j, (f j).identity = j.identity ∧ (f j).type = j.type) : b.Annexed root g (g'.modify i f) := by
  obtain ⟨kids, tellers, annex, rfl, ha⟩ := h
  exact ⟨kids, tellers, _, Graph.modify_joined hi f, ha.modify i hf⟩

theorem ensure (h : b.Annexed root g g') (hm : (t.kind, m) ∈ b.names) (hg : ¬g.Has (.mrn m)) (sc : ScoringSystem) :
    b.Annexed root g (g'.ensure (.mrn m) t.jobType sc) := by
  obtain ⟨kids, tellers, annex, rfl, ha⟩ := h
  refine ⟨kids, tellers, _, Graph.ensure_joined hg _ sc, ?_, ha.kids, ha.tellers⟩
  intro k hk
  unfold Graph.ensure at hk
  split at hk
  · exact ha.named k hk
  · rcases List.mem_append.mp hk with hk | hk
    · exact ha.named k hk
    · rw [List.mem_singleton.mp hk]
      exact ⟨t, m, hm, rfl, rfl⟩

theorem connect (h : b.Annexed root g g') (hm : (t.kind, m) ∈ b.names) (hg : ¬g.Has (.mrn m)) (hc : g.Bears t c)
    (w : Impact) : b.Annexed root g (g'.connect (.mrn m) c w) := by
  unfold Graph.connect
  split
  · exact h
  · obtain ⟨kids, tellers, annex, rfl, ha⟩ := h
    rw [Graph.modify_joined hg, Graph.tell_joined]
    refine ⟨_, _, _, rfl, ((ha.modify _ ?_).modify _ ?_).tell hm hc⟩
    · exact fun _ => ⟨rfl, rfl⟩
    · exact fun _ => ⟨rfl, rfl⟩

theorem connectAll (h : b.Annexed root g g') (hm : (t.kind, m) ∈ b.names) (hg : ¬g.Has (.mrn m))
    {ls : List (Identity × Impact)} (hl : ∀ l ∈ ls, g.Bears t l.1) : b.Annexed root g (g'.connectAll (.mrn m) ls) := by
  induction ls generalizing g' with
  | nil => exact h
  | cons l rest ih =>
    exact ih (h.connect hm hg (hl l List.mem_cons_self) l.2) fun x hx => hl x (List.mem_cons_of_mem _ hx)

theorem raise (h : b.Annexed root g g') (hm : (t.kind, m) ∈ b.names) (hg : ¬g.Has (.mrn m))
    {ls : List (Identity × Impact)} (hl : ∀ l ∈ ls, g.Bears t l.1) (sc : ScoringSystem) (ms : List Mrn) :
    b.Annexed root g (g'.raise (.mrn m) t.jobType sc ms ls) := by
  refine ((h.ensure hm hg sc).modify hg ?_).connectAll hm hg hl
  exact fun _ => ⟨rfl, rfl⟩

theorem hang (h : b.Annexed root g g') (hm : (Kind.framework, m) ∈ b.names) (hg : ¬g.Has (.mrn m)) :
    b.Annexed root g (g'.connect root (.mrn m) .ignored) := by
  unfold Graph.connect
  split
  · exact h
  · obtain ⟨kids, tellers, annex, rfl, ha⟩ := h
    rw [Graph.adopt_joined, Graph.modify_joined hg]
    refine ⟨_, _, _, rfl, ((ha.modify _ ?_).modify _ ?_).adopt hm⟩
    · exact fun _ => ⟨rfl, rfl⟩
    · exact fun _ => ⟨rfl, rfl⟩

end Bundle.Annexed

/-- A graph and what it is with frameworks. All that is new are frameworks and controls; the root has new
children that are frameworks and give no score, and queries have new parents that are controls. -/
structure Graph.Extends (root : Identity) (g g' : Graph) (kids : List (Identity × Impact))
    (tellers : Identity → List Identity) (annex : Graph) : Prop where
  eq : g' = g.joined root kids tellers annex
  old : ∀ j ∈ g.jobs, j.type ≠ .framework ∧ j.type ≠ .control
  new : ∀ k ∈ annex.jobs, k.type = .framework ∨ k.type = .control
  kids : ∀ l ∈ kids, l.2 = .ignored ∧ ∃ k ∈ annex.jobs, k.identity = l.1 ∧ k.type = .framework
  tellers : ∀ j ∈ g.jobs, ∀ i ∈ tellers j.identity, j.type.isQuery = true ∧
    ∃ k ∈ annex.jobs, k.identity = i ∧ k.type = .control

theorem Bundle.Annexes.exists_job (hb : b.Distinct) (h : b.Annexes g kids tellers annex) (hm : (t.kind, m) ∈ b.names)
    (hfree : ¬g.Has (.mrn m)) (hg : (g.joined root kids tellers annex).Has (.mrn m)) :
    ∃ k ∈ annex.jobs, k.identity = .mrn m ∧ k.type = t.jobType := by
  obtain ⟨k, hk, hi, -⟩ := (Graph.joined_has.mp hg).resolve_left hfree
  obtain ⟨u, n, hn, hi', ht⟩ := h.named k hk
  obtain rfl := Identity.mrn.inj (hi.symm.trans hi')
  rw [Tier.kind_inj (hb.kind_eq hm hn)]
  exact ⟨k, hk, hi, ht⟩

theorem Bundle.Annexes.extends (hb : b.Distinct) (h : b.Annexes g kids tellers annex)
    (hl : (g.joined root kids tellers annex).Linked root) (hroot : g.Has root)
    (hfree : ∀ (t : Tier) m, (t.kind, m) ∈ b.names → ¬g.Has (.mrn m))
    (hold : ∀ j ∈ g.jobs, j.type ≠ .framework ∧ j.type ≠ .control) :
    g.Extends root (g.joined root kids tellers annex) kids tellers annex where
  eq := rfl
  old := hold
  new := by
    intro k hk
    obtain ⟨t, m, -, -, ht⟩ := h.named k hk
    cases t with
    | control => exact .inr ht
    | framework => exact .inl ht
  kids := by
    intro l hmem
    obtain ⟨hw, m, hm, hi⟩ := h.kids l hmem
    obtain ⟨r, hr, hri, -⟩ := hroot
    have hedge : (g.joined root kids tellers annex).Edge root l.1 := by
      refine ⟨_, List.mem_append_left _ (List.mem_map_of_mem hr), hri, ?_⟩
      rw [if_pos hri]
      exact List.mem_map_of_mem (List.mem_append_right _ hmem)
    have hhas := (hl.forth _ _ hedge).has
    rw [hi] at hhas ⊢
    exact ⟨hw, h.exists_job hb (t := .framework) hm (hfree .framework m hm) hhas⟩
  tellers := by
    intro j hj i hi
    obtain ⟨hq, m, hm, rfl⟩ := h.tellers j hj i hi
    have hparent : (g.joined root kids tellers annex).Parent j.identity (.mrn m) :=
      ⟨_, List.mem_append_left _ (List.mem_map_of_mem hj), rfl, List.mem_append_right _ hi⟩
    exact ⟨hq, h.exists_job hb (t := .control) hm (hfree .control m hm) (hl.back _ _ hparent).has⟩

theorem Graph.Extends.not_isQuery (h : g.Extends root g' kids tellers annex) : ∀ k ∈ annex.jobs, k.type.isQuery = false := by
  intro k hk
  rcases h.new k hk with ht | ht <;> rw [ht] <;> rfl

theorem Graph.Extends.queryJobs (h : g.Extends root g' kids tellers annex) : g.queryJobs = g'.queryJobs := by
  rw [h.eq, queryJobs_joined h.not_isQuery]

theorem Graph.Extends.shareMrns (h : g.Extends root g' kids tellers annex) :
    g.shareMrns.Extends root g'.shareMrns kids tellers annex := by
  have hjob : ∀ x ∈ g.shareMrns.jobs, ∃ j ∈ g.jobs, x.type = j.type ∧ x.identity = j.identity := by
    intro x hx
    rw [shareMrns_eq] at hx
    obtain ⟨j, hj, rfl⟩ := List.mem_map.mp hx
    obtain ⟨ms, hms⟩ := j.sharing_mrns g.siblingMrns
    exact ⟨j, hj, by rw [hms], by rw [hms]⟩
  refine ⟨?_, ?_, h.new, h.kids, ?_⟩
  · rw [h.eq, shareMrns_joined h.not_isQuery]
  · intro x hx
    obtain ⟨j, hj, ht, -⟩ := hjob x hx
    rw [ht]
    exact h.old j hj
  · intro x hx
    obtain ⟨j, hj, ht, hi⟩ := hjob x hx
    rw [ht, hi]
    exact h.tellers j hj

end

end Compliance
