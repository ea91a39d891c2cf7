import Compliance.Proofs.Together

/-!
When the order of assignment does not matter to what the policies draw. Where every two assigned
policies agree on what they share, the graph that they give together is the union of what each gives
alone, and the code that it starts is the code that they start one after the other.
-/

namespace Compliance

namespace Setting

/-- Two assigned policies give the policies that both lead to the same children, and the jobs that both
make the same type. -/
structure Concord (s : Setting) (asset a b : Mrn) : Prop where
  children : ∀ p, s.Walked [a] p → s.Walked [b] p → ∀ c,
    (s.alone asset a).graph.Edge (.mrn p.mrn) c ↔ (s.alone asset b).graph.Edge (.mrn p.mrn) c
  types : ∀ i t sc, (s.alone asset a).graph.Typed i t sc → (s.alone asset b).graph.Has i →
    (s.alone asset b).graph.Typed i t sc

def search (s : Setting) (starts : List Mrn) : List (Mrn × Option Query) :=
  preorder s.bundle.queries (fun q => q.code.map (·.id)) s.bundle.readBy [] starts

theorem marked_search {s : Setting} {starts : List Mrn} {n : Mrn} {q : Query} (hn : n ∈ starts)
    (hq : s.bundle.queries.find? n = some q) :
    q.code.map (·.id) ∈ marked (fun q => q.code.map (·.id)) (s.search starts) :=
  (mem_marked_preorder hn hq).resolve_right List.not_mem_nil

structure United (s : Setting) (asset : Mrn) (ms : List Mrn) : Prop where
  edge : ∀ i c, (s.together asset ms).graph.Edge i c ↔ ∃ m ∈ ms, (s.alone asset m).graph.Edge i c
  typed : ∀ i t sc, (s.together asset ms).graph.Typed i t sc ↔
    (Draft.start assetRoot .unspecified asset).graph.Typed i t sc ∨ ∃ m ∈ ms, (s.alone asset m).graph.Typed i t sc
  search : s.search ((s.together asset ms).graph.backing.map Prod.snd) =
    s.search (ms.flatMap fun m => (s.alone asset m).graph.backing.map Prod.snd)

variable {s : Setting} {root : Identity} {roots path ms : List Mrn} {log : List Edit} {p : Policy} {d d₀ : Draft}
  {m n : Mrn} {i : Identity} {asset : Mrn}

theorem Told.backed (ht : s.Told root roots d₀ path log d) (hb : Blank root d₀) {id : CodeId}
    (h : d.graph.Backed i m id) : ∃ role, ∃ q ∈ s.bundle.queries.entries, ∃ c, q.isComposite = false ∧ q.code = some c ∧
      i = Draft.leafIdentity role q c ∧ m = q.mrn ∧ id = c.id := by
  rw [ht.graph] at h
  rcases Graph.backed_of_drawAll hb.linked.unique h with h | ⟨e, he, h⟩
  · exact absurd h (hb.bare i m id)
  · cases e with
    | leaf role q c k =>
      obtain ⟨rfl, rfl, rfl⟩ := h
      rcases ht.sound _ he with he | ⟨n, -, -, he⟩
      · cases he with
        | query hq hd =>
          cases hd with
          | leaf htrail hn hc => exact ⟨role, q, Trail.mem htrail hq.mem, c, hn, hc, rfl, rfl, rfl⟩
        | raising _ _ _ _ _ he => simp [raising] at he
      · cases he
    | _ => exact h.elim

theorem code_eq_of_leafIdentity {role role' : Role} {q q' : Query} {c c' : Code} (hq : q ∈ s.bundle.queries.entries)
    (hq' : q' ∈ s.bundle.queries.entries) (hc : q.code = some c) (hc' : q'.code = some c')
    (h : Draft.leafIdentity role q c = Draft.leafIdentity role' q' c') : c.id = c'.id := by
  cases role with
  | check =>
    cases role' with
    | check => exact Identity.code.inj h
    | data => cases h
  | data =>
    cases role' with
    | check => cases h
    | data =>
      obtain rfl := eq_of_mrn hq hq' (Identity.mrn.inj h)
      rw [Option.some.inj (hc.symm.trans hc')]

section

variable (h : s.Proper)
include h

theorem walked_of_has (hp : s.bundle.policies.find? p.mrn = some p) (hg : (s.alone asset m).graph.Has (.mrn p.mrn)) :
    s.Walked [m] p := by
  obtain ⟨log, ha⟩ := exists_assigned_together h asset [m]
  have hname := Bundle.mem_names_policy.mpr ⟨p, hp⟩
  by_contra hw
  refine ha.told.fresh (start_blank ..) h.distinct hname (by simp) (fun _ hm => hw ?_) (by simp)
    (h.distinct.ne_assetRoot hname) hg
  obtain ⟨q, hq, hw⟩ := ha.mem_ledger_iff.mp hm
  rwa [Option.some.inj (hp.symm.trans hq)]

theorem United.accord (hu : United s asset ms) (hm : ∀ a ∈ ms, s.Concord asset a m) :
    s.Accord (s.together asset ms).policies (s.alone asset m).policies := by
  obtain ⟨seen, ha⟩ := exists_assigned_together h asset ms
  obtain ⟨log, ha'⟩ := exists_assigned_together h asset [m]
  have hb := start_blank assetRoot .unspecified asset
  refine accord_of_edges h.distinct hb hb ha.told ha'.told fun p hp hmem hmem' c => ?_
  obtain ⟨q, hq, hw⟩ := ha.mem_ledger_iff.mp hmem
  obtain rfl := Option.some.inj (hp.symm.trans hq)
  obtain ⟨q, hq, hw'⟩ := ha'.mem_ledger_iff.mp hmem'
  obtain rfl := Option.some.inj (hp.symm.trans hq)
  obtain ⟨a, ham, hwa⟩ := hw.exists_root
  rw [hu.edge]
  constructor
  · rintro ⟨b, hbm, he⟩
    exact ((hm b hbm).children p (walked_of_has h hp (Graph.Holds.has he)) hw' c).mp he
  · intro he
    exact ⟨a, ham, ((hm a ham).children p hwa hw' c).mpr he⟩

theorem together_unique (asset : Mrn) (ms : List Mrn) : (s.together asset ms).graph.Unique := by
  obtain ⟨log, ha⟩ := exists_assigned_together h asset ms
  exact ha.grown.linked.unique

theorem together_typed_start {t : JobType} {sc : ScoringSystem}
    (ht : (Draft.start assetRoot .unspecified asset).graph.Typed i t sc) (ms : List Mrn) :
    (s.together asset ms).graph.Typed i t sc := by
  obtain ⟨log, ha⟩ := exists_assigned_together h asset ms
  rw [ha.told.graph]
  exact ht.drawAll (start_blank ..).linked.unique log

theorem United.typed_of_has (hu : United s asset ms) (hm : ∀ a ∈ ms, s.Concord asset a m)
    {t : JobType} {sc : ScoringSystem} (ht : (s.alone asset m).graph.Typed i t sc)
    (hg : (s.together asset ms).graph.Has i) : (s.together asset ms).graph.Typed i t sc := by
  have hunique := together_unique h asset [m]
  obtain ⟨t', sc', hg⟩ := hg.typed
  have halone : (s.alone asset m).graph.Typed i t' sc' := by
    rcases (hu.typed i t' sc').mp hg with hg | ⟨a, ham, hg⟩
    · exact together_typed_start h hg [m]
    · exact (hm a ham).types i t' sc' hg ht.has
  obtain ⟨rfl, rfl⟩ := hunique.typed_inj ht halone
  exact hg

theorem United.step (hu : United s asset ms) (hm : ∀ a ∈ ms, s.Concord asset a m) : United s asset (ms ++ [m]) := by
  have hlaid := laid_together h (hu.accord h hm)
  refine ⟨fun i c => ?_, fun i t sc => ?_, ?_⟩
  · rw [hlaid.edge, hu.edge]
    simp [or_and_right, exists_or]
  · rw [hlaid.typed]
    constructor
    · rintro (ht | ⟨-, ht⟩)
      · exact ((hu.typed i t sc).mp ht).imp id fun ⟨a, ham, ht⟩ => ⟨a, List.mem_append_left _ ham, ht⟩
      · exact .inr ⟨m, by simp, ht⟩
    · rintro (ht | ⟨a, ham, ht⟩)
      · exact .inl ((hu.typed i t sc).mpr (.inl ht))
      · rcases List.mem_append.mp ham with ham | ham
        · exact .inl ((hu.typed i t sc).mpr (.inr ⟨a, ham, ht⟩))
        · rw [List.mem_singleton.mp ham] at ht
          by_cases hg : (s.together asset ms).graph.Has i
          · exact .inl (hu.typed_of_has h hm ht hg)
          · exact .inr ⟨hg, ht⟩
  · obtain ⟨seen, ha⟩ := exists_assigned_together h asset ms
    obtain ⟨log, ha'⟩ := exists_assigned_together h asset [m]
    have hb := start_blank assetRoot .unspecified asset
    have hsearch := hu.search
    rw [hlaid.backing, List.map_append, List.flatMap_append, List.flatMap_cons, List.flatMap_nil, List.append_nil]
    unfold Setting.search at hsearch ⊢
    rw [preorder_append, preorder_append, ← hsearch, preorder_filter]
    intro x hx hkeep
    obtain ⟨id, hbacked⟩ := Graph.mem_backing.mp hx
    obtain ⟨role, q, hq, c, hn, hc, hi, hxq, -⟩ := ha'.told.backed hb hbacked
    have hmade : s.CodeMade x.1 := ⟨role, q, hq, c, hn, hc, hi⟩
    obtain ⟨y, hy, hyx⟩ := List.mem_map.mp (ha.reserves h x.1 hmade (by simpa using hkeep))
    obtain ⟨id', hbacked'⟩ := Graph.mem_backing.mp hy
    obtain ⟨role', q', hq', c', hn', hc', hi', hyq, -⟩ := ha.told.backed hb hbacked'
    have hcode : c.id = c'.id := code_eq_of_leafIdentity hq hq' hc hc' (hi.symm.trans (hyx.symm.trans hi'))
    refine ⟨q, hxq ▸ Keyed.find?_of_mem hq, List.mem_append_left _ ?_⟩
    have hmark := marked_search (List.mem_map_of_mem hy) (hyq ▸ Keyed.find?_of_mem hq')
    rwa [hc', Option.map_some, ← hcode, ← Option.map_some, ← hc] at hmark

theorem united (asset : Mrn) (hm : ∀ a ∈ ms, ∀ b ∈ ms, s.Concord asset a b) : United s asset ms := by
  induction ms using List.reverseRecOn with
  | nil =>
    have hb := start_blank assetRoot .unspecified asset
    refine ⟨fun i c => ?_, fun i t sc => ?_, ?_⟩
    · simpa [together] using hb.edgeless i c
    · simp [together]
    · simp [together, Graph.backing, start_jobs]
  | append_singleton ms m ih =>
    refine (ih fun a ha b hb => hm a (List.mem_append_left _ ha) b (List.mem_append_left _ hb)).step h fun a ha => ?_
    exact hm a (List.mem_append_left _ ha) m (by simp)

end

end Setting

end Compliance
