import Compliance.Proofs.Traversal

namespace Compliance

namespace Setting

variable {s : Setting} {root : Identity} {roots path : List Mrn} {log : List Edit} {p : Policy} {d d₀ : Draft}

theorem start_jobs (root : Identity) (sc : ScoringSystem) (m : Mrn) :
    (Draft.start root sc m).graph.jobs = [{ identity := root, type := .root, scoring := sc, mrns := [m] }] := by
  simp [Draft.start, Graph.ensure, Graph.find?, Graph.addMrns, Graph.modify, appendNew]

theorem start_holds {root i : Identity} {sc : ScoringSystem} {m : Mrn} {q : Job → Prop} :
    (Draft.start root sc m).graph.Holds i q ↔
      i = root ∧ q { identity := root, type := .root, scoring := sc, mrns := [m] } := by
  simp [Graph.Holds, start_jobs, eq_comm]

theorem start_blank (root : Identity) (sc : ScoringSystem) (m : Mrn) : Blank root (.start root sc m) where
  linked := {
    unique := by simp [Graph.Unique, start_jobs]
    hasRoot := start_holds.mpr ⟨rfl, rfl, rfl⟩
    oneRoot := fun i hi => (start_holds.mp hi).1
    forth := fun i c he => by simpa using (start_holds.mp he).2
    back := fun c i hp => by simpa using (start_holds.mp hp).2
    children := fun i hi => (start_holds.mp hi).2 List.nodup_nil
    parents := fun i hi => (start_holds.mp hi).2 List.nodup_nil }
  has i := by simp [Graph.Has, start_holds]
  bare i m id hi := by simpa using (start_holds.mp hi).2
  edgeless i c hi := by simpa using (start_holds.mp hi).2

theorem start_grown (root : Identity) (sc : ScoringSystem) (m : Mrn) :
    Grown root (Draft.start root sc m).graph where
  linked := (start_blank root sc m).linked
  supported i hi hr := absurd ((start_blank root sc m).has i |>.mp hi) hr
  covered i hi := ⟨i, by simpa using (start_blank root sc m).has i |>.mp hi, .refl⟩

theorem start_told (root : Identity) (sc : ScoringSystem) (m : Mrn) :
    s.Told root roots (.start root sc m) [] [] (.start root sc m) where
  eq := rfl
  sound := by simp
  once := List.nodup_nil
  apart := by simp
  settled m made tail ht := by simp [Draft.start] at ht
  followed m hm := by simp [Draft.start] at hm
  risks m made hm := by simp [Draft.start] at hm

structure Assigned (s : Setting) (roots : List Mrn) (d₀ : Draft) (ms : List Mrn) (log : List Edit) (d : Draft) : Prop where
  told : s.Told assetRoot roots d₀ [] log d
  grown : Grown assetRoot d.graph
  fitting : d₀.graph.Fitting assetRoot log
  met : ∀ m ∈ ms, ∀ p, s.bundle.policies.find? m = some p → m ∈ d.policies.map Prod.fst
  hung : ∀ m ∈ ms, (m, true) ∈ d.policies → .connect assetRoot (.mrn m) {} ∈ log

theorem hanging_told {links : List Link} (h : s.Told root roots d₀ path log d)
    (hl : ∀ l ∈ links, ∃ m ∈ roots, (m, true) ∈ d.policies ∧ l = (.mrn m, {})) :
    s.Told root roots d₀ path (log ++ hanging root links) (d.replay (hanging root links)) := by
  have edits : ∀ e ∈ hanging root links, ∃ m ∈ roots, (m, true) ∈ d.policies ∧ e = .connect root (.mrn m) {} := by
    intro e he
    obtain ⟨l, hl', rfl⟩ := List.mem_map.mp he
    obtain ⟨m, hm, hd, rfl⟩ := hl l hl'
    exact ⟨m, hm, hd, rfl⟩
  apply h.extend
  · intro e he
    obtain ⟨m, hm, hd, rfl⟩ := edits e he
    exact .inr ⟨m, hm, hd, rfl⟩
  · intro e he
    obtain ⟨m, -, -, rfl⟩ := edits e he
    rfl
  · intro e he
    obtain ⟨m, -, -, rfl⟩ := edits e he
    rfl

theorem hanging_policies (d : Draft) (root : Identity) (links : List Link) :
    (d.replay (hanging root links)).policies = d.policies := by
  apply Draft.replay_ledger_of_forall (t := .policy)
  intro e he
  obtain ⟨l, -, rfl⟩ := List.mem_map.mp he
  rfl

theorem replay_hanging (d : Draft) (root : Identity) (links : List Link) :
    d.replay (hanging root links) = { d with graph := d.graph.connectAll root links } := by
  induction links generalizing d with
  | nil => rfl
  | cons l rest ih => exact ih _

def hangingPolicy (m : Mrn) (made : Bool) : List Edit := hanging assetRoot (if made then [(.mrn m, {})] else [])

theorem mem_hangingPolicy {m : Mrn} {made : Bool} {e : Edit} :
    e ∈ hangingPolicy m made ↔ made = true ∧ e = .connect assetRoot (.mrn m) {} := by
  cases made <;> simp [hangingPolicy, hanging]

theorem assign_eq {asset m : Mrn} {made : Bool} {log' : List Edit}
    (h : s.policy [] asset m d = (made, d.replay log')) :
    s.assign asset d m = d.replay (log' ++ hangingPolicy m made) := by
  cases made <;> simp [assign, h, hangingPolicy, hanging, Draft.apply]

theorem hangingPolicy_told {m : Mrn} {made : Bool} (h : s.Told assetRoot roots d₀ path log d) (hm : m ∈ roots)
    (hk : made = true → (m, true) ∈ d.policies) :
    s.Told assetRoot roots d₀ path (log ++ hangingPolicy m made) (d.replay (hangingPolicy m made)) := by
  refine hanging_told h fun l hl => ?_
  cases made with
  | false => cases hl
  | true =>
    obtain rfl : l = (.mrn m, {}) := by simpa using hl
    exact ⟨m, hm, hk rfl, rfl⟩

theorem hangingPolicy_policies (d : Draft) (m : Mrn) (made : Bool) : (d.replay (hangingPolicy m made)).policies = d.policies :=
  hanging_policies d assetRoot _

theorem Assigned.step (h : s.Proper) (hb : Blank assetRoot d₀) {ms : List Mrn} {m : Mrn} (asset : Mrn)
    (ha : Assigned s roots d₀ ms log d) (hm : m ∈ roots) :
    ∃ log', Assigned s roots d₀ (ms ++ [m]) (log ++ log') (s.assign asset d m) := by
  obtain ⟨made, log', he⟩ := policy_entered h h.distinct.apart_root hb []
    (fun n hn hroot => absurd hroot (h.distinct.ne_assetRoot hn)) asset m (fun p hp => .root hm hp)
    log d ha.told
  have hs : Sketch assetRoot d.graph ((if made then [((.mrn m, {}) : Link)] else []).map Prod.fst) log' := by
    have hk := he.sketch
    cases made <;> exact hk
  have hgrows : d.policies <:+ (d.replay log').policies := d.ledger_suffix log' .policy
  have hps : (d.replay (log' ++ hangingPolicy m made)).policies = (d.replay log').policies := by
    rw [Draft.replay_append, hangingPolicy_policies]
  have ht := hangingPolicy_told he.told hm he.known.mp
  rw [List.append_assoc, ← Draft.replay_append] at ht
  rw [assign_eq he.eq]
  refine ⟨log' ++ hangingPolicy m made, ht, ?_, ?_, ?_, ?_⟩
  · rw [Draft.replay_graph]
    exact ha.grown.hang hs
  · apply Graph.fitting_append.mpr
    rw [← ha.told.graph]
    exact ⟨ha.fitting, ha.grown.fitting hs⟩
  · rw [hps]
    intro n hn p hp
    rcases List.mem_append.mp hn with hn | hn
    · exact List.map_subset _ hgrows.subset (ha.met n hn p hp)
    · rw [List.mem_singleton.mp hn] at hp ⊢
      exact (he.met p hp).resolve_right List.not_mem_nil
  · rw [hps]
    intro n hn hmade
    rcases List.mem_append.mp hn with hn | hn
    · obtain ⟨p, hp⟩ := he.told.settled_mem hmade
      obtain ⟨⟨_, made'⟩, hx, rfl⟩ := List.mem_map.mp (ha.met n hn p hp)
      obtain rfl := eq_of_mem_ledger he.told.once hmade (hgrows.subset hx)
      exact List.mem_append_left _ (ha.hung _ hn hx)
    · rw [List.mem_singleton.mp hn] at hmade ⊢
      exact List.mem_append_right _ (List.mem_append_right _ (mem_hangingPolicy.mpr ⟨he.known.mpr hmade, rfl⟩))

theorem Assigned.run (h : s.Proper) (hb : Blank assetRoot d₀) (asset : Mrn) {ms : List Mrn}
    (ha : Assigned s roots d₀ ms log d) {rest : List Mrn} (hm : ∀ m ∈ rest, m ∈ roots) :
    ∃ log', Assigned s roots d₀ (ms ++ rest) (log ++ log') (rest.foldl (s.assign asset) d) := by
  induction rest generalizing ms log d with
  | nil => exact ⟨[], by simpa using ha⟩
  | cons m rest ih =>
    obtain ⟨log', hstep⟩ := ha.step h hb asset (hm m List.mem_cons_self)
    obtain ⟨log'', hrest⟩ := ih hstep fun n hn => hm n (List.mem_cons_of_mem _ hn)
    exact ⟨log' ++ log'', by simpa using hrest⟩

theorem exists_assigned (h : s.Proper) (asset : Mrn) {ms : List Mrn} (hm : ∀ m ∈ ms, m ∈ roots) :
    ∃ log, Assigned s roots (.start assetRoot .unspecified asset) ms log
      (ms.foldl (s.assign asset) (.start assetRoot .unspecified asset)) := by
  have hstart : Assigned s roots (.start assetRoot .unspecified asset) [] [] (.start assetRoot .unspecified asset) :=
    ⟨start_told .., start_grown .., trivial, by simp, by simp⟩
  obtain ⟨log, hlog⟩ := hstart.run h (start_blank ..) asset hm
  exact ⟨log, hlog⟩

theorem exists_descent_pass (h : s.Proper) (hp : s.bundle.policies.find? p.mrn = some p) : ∃ links log,
    Pass s (.mrn p.mrn) [p.mrn] (.start (.mrn p.mrn) p.scoring p.mrn) [p.mrn] p (p.references s.asset s.now)
      (s.policyLinks (s.policy [p.mrn] p.mrn) p) [] (.start (.mrn p.mrn) p.scoring p.mrn) links log := by
  have hr := h.distinct.apart_policy hp
  have hb := start_blank (.mrn p.mrn) p.scoring p.mrn
  have hpath : ∀ n, (Kind.policy, n) ∈ s.bundle.names → Identity.mrn n = .mrn p.mrn → n ∈ [p.mrn] := by
    intro n _ hn
    rw [Identity.mrn.inj hn]
    exact List.mem_cons_self
  have ht : s.Told (.mrn p.mrn) [p.mrn] (.start (.mrn p.mrn) p.scoring p.mrn) [p.mrn] []
      (.start (.mrn p.mrn) p.scoring p.mrn) := (start_told ..).enter (by simp [Draft.start])
  exact policyLinks_pass h hr hb (.root List.mem_cons_self hp)
    (fun n hn log d ht => policy_entered h hr hb [p.mrn] hpath p.mrn n hn log d ht) ht

theorem exists_draftPolicy (h : s.Proper) (hp : s.bundle.policies.find? p.mrn = some p) :
    ∃ log d, s.Told (.mrn p.mrn) [p.mrn] (.start (.mrn p.mrn) p.scoring p.mrn) [p.mrn] log d ∧
      s.draftPolicy p = d.replay (hanging (.mrn p.mrn) (s.linksAt d.policies p)) ∧
        Grown (.mrn p.mrn) (s.draftPolicy p).graph ∧
          (Draft.start (.mrn p.mrn) p.scoring p.mrn).graph.Fitting (.mrn p.mrn)
            (log ++ hanging (.mrn p.mrn) (s.linksAt d.policies p)) ∧
            ∀ r ∈ p.references s.asset s.now, s.Followed [p.mrn] d.policies log p r := by
  obtain ⟨links, log, hpass⟩ := exists_descent_pass h hp
  obtain rfl : links = s.linksAt _ p := hpass.gives
  have hrep : s.draftPolicy p = ((Draft.start (.mrn p.mrn) p.scoring p.mrn).replay log).replay (hanging (.mrn p.mrn)
      (s.linksAt ((Draft.start (.mrn p.mrn) p.scoring p.mrn).replay log).policies p)) := by
    simp only [draftPolicy, hpass.eq, replay_hanging]
  have hg := (start_grown (.mrn p.mrn) p.scoring p.mrn).hang hpass.sketch
  rw [Graph.drawAll_append, ← Draft.replay_graph, ← Draft.replay_graph, ← hrep] at hg
  exact ⟨log, _, hpass.told, hrep, hg, (start_grown (.mrn p.mrn) p.scoring p.mrn).fitting hpass.sketch, hpass.followed⟩

end Setting

end Compliance
