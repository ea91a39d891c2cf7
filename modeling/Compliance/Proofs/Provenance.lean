import Compliance.Proofs.Edits
import Compliance.Proofs.Visits

namespace Compliance

def Edit.Sourced (b : Bundle) : Edit → Prop
  | .leaf _ q c _ => q ∈ b.queries.entries ∧ q.code = some c
  | _ => True

def Edit.OfControls : Edit → Prop
  | .note _ | .structural .. | .connect .. => True
  | .settle t _ _ => t = .framework ∨ t = .control
  | _ => False

def KeptByControls (P : Draft → Prop) : Prop := ∀ d e, e.OfControls → P d → P (d.apply e)

namespace KeptByControls

variable {s : Setting} {P : Draft → Prop} {d : Draft} {c : ControlScope}

theorem link {job : Mrn → Draft → Bool × Draft} {m : Mrn} (hjob : ∀ d, P d → P (job m d).2) (hd : P d) :
    P (c.link job m d).2 := by
  unfold ControlScope.link
  split
  · exact hd
  · exact hjob d hd

theorem control (h : KeptByControls P) (path : List Mrn) (m : Mrn) {d : Draft} (hd : P d) :
    P (c.control path m d).2 := by
  cases hl : d.controls.lookup m with
  | some made =>
    rw [ControlScope.control_settled hl]
    exact hd
  | none =>
    by_cases hm : m ∈ path
    · rw [ControlScope.control_cut hl hm]
      exact h d (.note _) trivial hd
    · rcases he : c.evidence.filter (·.mrn == m) with _ | ⟨e, rest⟩
      · rw [ControlScope.control_bare hl hm he]
        exact h d (.settle .control m false) (.inr rfl) hd
      · have hmem : e ∈ c.evidence ∧ e.mrn = m := by
          have hf : e ∈ c.evidence.filter (·.mrn == m) := he ▸ List.mem_cons_self
          simpa using hf
        obtain ⟨he', rfl⟩ := hmem
        rw [ControlScope.control_first hl hm he]
        have hlinks : P (gather (c.follow (c.control (e.mrn :: path))) ((e :: rest).flatMap ControlMap.links) d).2 := by
          refine gather_keeps (fun x _ d hd => ?_) hd
          cases x with
          | query role r => exact hd
          | control n => exact link (fun d hd => control h (e.mrn :: path) n hd) hd
        exact h _ (.settle .control e.mrn _) (.inr rfl) (h _ (.structural e.mrn .control .average _) trivial hlinks)
termination_by unvisited ControlMap.mrn c.evidence path
decreasing_by exact unvisited_cons_lt he' hm

theorem framework (h : KeptByControls P) (path : List Mrn) (m : Mrn) {d : Draft} (hd : P d) :
    P (s.framework c path m d).2 := by
  cases hl : d.frameworks.lookup m with
  | some made =>
    rw [Setting.framework_settled hl]
    exact hd
  | none =>
    by_cases hm : m ∈ path
    · rw [Setting.framework_cut hl hm]
      exact h d (.note _) trivial hd
    · obtain hf | ⟨f, hf⟩ := Option.eq_none_or_eq_some (s.bundle.frameworks.find? m)
      · rw [Setting.framework_undeclared hl hm hf]
        exact hd
      · obtain rfl := Keyed.key_of_find? hf
        have hcontrols : P (gather (c.link (c.control [])) ((f.contentGroups s.now).flatMap (·.controls)) d).2 :=
          gather_keeps (fun n _ d hd => link (fun d hd => h.control [] n hd) hd) hd
        have hstep : ∀ r ∈ f.dependencies, ∀ d, P d →
            P (Setting.dependencyStep (s.framework c (f.mrn :: path)) r d).2 := by
          intro r _ d hd
          unfold Setting.dependencyStep
          split
          · exact hd
          · exact framework h (f.mrn :: path) r.mrn hd
        have hbelow := gather_keeps hstep hcontrols
        rw [Setting.framework_first hl hm hf]
        exact h _ (.settle .framework f.mrn _) (.inl rfl) (h _ (.structural f.mrn .framework .average _) trivial hbelow)
termination_by unvisited Framework.mrn s.bundle.frameworks.entries path
decreasing_by exact unvisited_cons_lt (Keyed.mem_of_find? hf) hm

theorem events (h : KeptByControls P) (es : List Event) {d : Draft} (hd : P d) :
    P { d with events := d.events ++ es } := by
  induction es generalizing d with
  | nil => simpa using hd
  | cons e rest ih => simpa [Draft.apply, Draft.note] using ih (h d (.note e) trivial hd)

theorem adopt (h : KeptByControls P) (root : Identity) (m : Mrn) (hd : P d) : P (s.adopt root c d m) := by
  have hd' : P (s.framework c [] m d).2 := h.framework [] m hd
  simp only [Setting.adopt]
  split
  · exact h _ (.connect root (.mrn m) .ignored) trivial hd'
  · exact hd'

theorem addFrameworks (h : KeptByControls P) (root : Identity) (assigned : List Mrn) (hd : P d) :
    P (s.addFrameworks root assigned d) := by
  unfold Setting.addFrameworks
  refine List.foldlRecOn assigned _ ?_ fun d hd m _ => h.adopt root m hd
  simpa using h.events _ hd

end KeptByControls

def Bundle.Keeps (b : Bundle) (P : Draft → Prop) : Prop := ∀ d e, e.Sourced b → P d → P (d.apply e)

namespace Bundle.Keeps

variable {s : Setting} {P : Draft → Prop} {d : Draft}

theorem keptByQueries {b : Bundle} (h : b.Keeps P) : Setting.KeptByQueries b P where
  note d e := h d (.note e) trivial
  leaf d role q c composite hq hc := h d (.leaf role q c composite) ⟨hq, hc⟩
  above d role q variants := h d (.composite role q variants) trivial

theorem keptByControls {b : Bundle} (h : b.Keeps P) : KeptByControls P := fun d e he => h d e <| by
  cases e with
  | leaf => exact he.elim
  | _ => trivial

theorem riskFactorRef (h : s.bundle.Keeps P) (referrer m : Mrn) (hd : P d) : P (s.riskFactorRef referrer m d).2 := by
  cases hl : d.riskFactors.lookup m with
  | some made =>
    rw [Setting.riskFactorRef_settled hl]
    exact hd
  | none =>
    cases hk : s.bundle.riskFactors.find? m with
    | none =>
      rw [Setting.riskFactorRef_undeclared hl hk]
      exact h d (.note _) trivial hd
    | some k =>
      rw [Setting.riskFactorRef_first hl hk]
      refine h _ (.settle .riskFactor m _) trivial ?_
      cases hlive : s.isLive k with
      | false =>
        rw [Setting.riskFactorJob_idle hlive]
        exact hd
      | true =>
        have hlinks : P (gather (s.queryRef .check k.mrn) k.checks d).2 :=
          gather_keeps (fun r _ d => h.keptByQueries.queryRef .check k.mrn r) hd
        simp only [Setting.riskFactorJob, hlive, ↓reduceIte]
        split
        · exact h _ (.weigh k.mrn _) trivial (h _ (.structural k.mrn .riskFactor .unspecified _) trivial hlinks)
        · exact h _ (.structural k.mrn .riskFactor .unspecified _) trivial hlinks

theorem policyLinks (h : s.bundle.Keeps P) {below : Mrn → Draft → Bool × Draft} (hbelow : ∀ n d, P d → P (below n d).2)
    (p : Policy) (hd : P d) : P (s.policyLinks below p d).2 := by
  rw [Setting.policyLinks_eq]
  refine gather_keeps (fun r _ d hd => ?_) hd
  cases r with
  | query role r => exact h.keptByQueries.queryRef role p.mrn r hd
  | riskFactor m => exact h.riskFactorRef p.mrn m hd
  | policy r =>
    simp only [Setting.referenceStep]
    split
    · exact hd
    · exact hbelow r.mrn d hd

theorem policy (h : s.bundle.Keeps P) (path : List Mrn) (referrer m : Mrn) {d : Draft} (hd : P d) :
    P (s.policy path referrer m d).2 := by
  cases hl : d.policies.lookup m with
  | some made =>
    rw [Setting.policy_settled hl]
    exact hd
  | none =>
    by_cases hm : m ∈ path
    · rw [Setting.policy_cut hl hm]
      exact h d (.note _) trivial hd
    · cases hp : s.bundle.policies.find? m with
      | none =>
        rw [Setting.policy_undeclared hl hm hp]
        exact h d (.note _) trivial hd
      | some p =>
        obtain rfl := Keyed.key_of_find? hp
        rw [Setting.policy_first hl hm hp]
        have hlinks := h.policyLinks (fun n d hd => policy h (p.mrn :: path) p.mrn n hd) p hd
        exact h _ (.settle .policy p.mrn _) trivial (h _ (.structural p.mrn .policy _ _) trivial hlinks)
termination_by unvisited Policy.mrn s.bundle.policies.entries path
decreasing_by exact unvisited_cons_lt (Keyed.mem_of_find? hp) hm

theorem assign (h : s.bundle.Keeps P) (asset m : Mrn) (hd : P d) : P (s.assign asset d m) := by
  have hd' : P (s.policy [] asset m d).2 := h.policy [] asset m hd
  simp only [Setting.assign]
  split
  · exact h _ (.connect assetRoot (.mrn m) {}) trivial hd'
  · exact hd'

theorem connectAll {b : Bundle} (h : b.Keeps P) (parent : Identity) (links : List Link) {d : Draft} (hd : P d) :
    P { d with graph := d.graph.connectAll parent links } := by
  induction links generalizing d with
  | nil => exact hd
  | cons l rest ih => exact ih (h d (.connect parent l.1 l.2) trivial hd)

end Bundle.Keeps

theorem Bundle.Keeps.draft {b : Bundle} {P : Draft → Prop} (h : b.Keeps P) (hstart : ∀ root sc m, P (.start root sc m))
    {r : Request} {root : Identity} {d : Draft} (hd : b.draft r = .ok (root, d)) : P d := by
  unfold Bundle.draft at hd
  cases ht : r.target with
  | policy m =>
    rw [ht] at hd
    cases hp : b.policies.find? m with
    | none => simp [hp] at hd
    | some p =>
      simp only [hp, Except.ok.injEq, Prod.mk.injEq] at hd
      obtain ⟨-, rfl⟩ := hd
      refine h.connectAll _ _ ?_
      exact policyLinks (s := b.setting r) h (fun n d hd => h.policy [p.mrn] p.mrn n hd) p (hstart ..)
  | asset asset policies frameworks =>
    rw [ht] at hd
    obtain ⟨-, rfl⟩ := Prod.mk.inj (Except.ok.inj hd)
    refine h.keptByControls.addFrameworks assetRoot frameworks ?_
    exact List.foldlRecOn _ _ (hstart ..) fun d hd m _ => assign (s := b.setting r) h asset m hd

structure Bundle.Stamps (b : Bundle) (P : Job → Prop) : Prop where
  fresh : ∀ i t sc, P { identity := i, type := t, scoring := sc }
  marks : ∀ j ms cs ps, P j → P { j with mrns := ms, children := cs, parents := ps }
  code : ∀ j role q c, q ∈ b.queries.entries → q.code = some c → j.identity = Draft.leafIdentity role q c → P j →
    P { j with origin := j.origin.or (some (q.mrn, c.id)), datapoints := appendNew j.datapoints c.checksums }

namespace Bundle.Stamps

variable {b : Bundle} {P : Job → Prop} {g : Graph} {i c : Identity}

theorem mrns_iff (h : b.Stamps P) (j : Job) (ms : List Mrn) : P { j with mrns := ms } ↔ P j :=
  ⟨fun hj => h.marks { j with mrns := ms } j.mrns j.children j.parents hj,
    fun hj => h.marks j ms j.children j.parents hj⟩

theorem ensure (h : b.Stamps P) (t : JobType) (sc : ScoringSystem) (hg : ∀ j ∈ g.jobs, P j) :
    ∀ j ∈ (g.ensure i t sc).jobs, P j := by
  unfold Graph.ensure
  split
  · exact hg
  · intro j hj
    rcases List.mem_append.mp hj with hj | hj
    · exact hg j hj
    · rw [List.mem_singleton.mp hj]
      exact h.fresh i t sc

theorem addMrns (h : b.Stamps P) (ms : List Mrn) (hg : ∀ j ∈ g.jobs, P j) : ∀ j ∈ (g.addMrns i ms).jobs, P j :=
  Graph.forall_modify (fun j _ hj => h.marks j _ j.children j.parents hj) hg

theorem connect (h : b.Stamps P) (w : Impact) (hg : ∀ j ∈ g.jobs, P j) : ∀ j ∈ (g.connect i c w).jobs, P j := by
  unfold Graph.connect
  split
  · exact hg
  · refine Graph.forall_modify (fun j _ hj => h.marks j j.mrns j.children _ hj) ?_
    exact Graph.forall_modify (fun j _ hj => h.marks j j.mrns _ j.parents hj) hg

theorem connectAll (h : b.Stamps P) (ls : List Link) (hg : ∀ j ∈ g.jobs, P j) : ∀ j ∈ (g.connectAll i ls).jobs, P j := by
  induction ls generalizing g with
  | nil => exact hg
  | cons l rest ih => exact ih (h.connect l.2 hg)

theorem raise (h : b.Stamps P) (t : JobType) (sc : ScoringSystem) (ms : List Mrn) (ls : List Link)
    (hg : ∀ j ∈ g.jobs, P j) : ∀ j ∈ (g.raise i t sc ms ls).jobs, P j :=
  h.connectAll ls (h.addMrns ms (h.ensure t sc hg))

theorem plant (h : b.Stamps P) (role : Role) {q : Query} {c : Code} (ms : List Mrn) (hq : q ∈ b.queries.entries)
    (hc : q.code = some c) (hg : ∀ j ∈ g.jobs, P j) :
    ∀ j ∈ (g.plant (Draft.leafIdentity role q c) role.jobType ms q.mrn c.id c.checksums).jobs, P j := by
  -- origin and datapoints come one after the other, but only with both is the job one that carries code
  have hboth : ∀ g : Graph, (g.setOrigin (Draft.leafIdentity role q c) q.mrn c.id).addDatapoints
      (Draft.leafIdentity role q c) c.checksums = g.modify (Draft.leafIdentity role q c) fun j =>
        { j with origin := j.origin.or (some (q.mrn, c.id)), datapoints := appendNew j.datapoints c.checksums } := by
    intro g
    simp only [Graph.setOrigin, Graph.addDatapoints, Graph.modify, List.map_map]
    congr 1
    apply List.map_congr_left
    intro j _
    by_cases hj : j.identity = Draft.leafIdentity role q c <;> simp [hj]
  rw [Graph.plant, hboth]
  exact Graph.forall_modify (fun j hj => h.code j role q c hq hc hj) (h.addMrns ms (h.ensure _ _ hg))

theorem keeps (h : b.Stamps P) : b.Keeps fun d => ∀ j ∈ d.graph.jobs, P j := by
  intro d e he hd
  rw [Draft.apply_graph]
  cases e with
  | leaf role q c k => exact h.plant role _ he.1 he.2 hd
  | composite role q vs =>
    simp only [Edit.draw]
    split
    · exact hd
    · exact h.raise _ _ _ _ hd
  | structural m t sc ls =>
    simp only [Edit.draw]
    split
    · exact hd
    · exact h.raise _ _ _ _ hd
  | connect p c w => exact h.connect w hd
  | _ => exact hd

theorem draft (h : b.Stamps P) {r : Request} {root : Identity} {d : Draft} (hd : b.draft r = .ok (root, d)) :
    ∀ j ∈ d.graph.jobs, P j :=
  h.keeps.draft (fun root sc m => h.addMrns [m] (h.ensure .root sc (by simp))) hd

end Bundle.Stamps

theorem Bundle.draft_unique {b : Bundle} {r : Request} {root : Identity} {d : Draft} (hd : b.draft r = .ok (root, d)) :
    d.graph.Unique := by
  have hkeeps : b.Keeps fun d => d.graph.Unique := by
    intro d e _ hu
    rw [Draft.apply_graph]
    exact Graph.draw_unique hu e
  exact hkeeps.draft (fun _ _ _ => Graph.addMrns_unique (Graph.ensure_unique List.nodup_nil)) hd

/-- Queries with the same code id carry the same code. -/
def Bundle.CodeAgrees (b : Bundle) : Prop :=
  ∀ q ∈ b.queries.entries, ∀ q' ∈ b.queries.entries, ∀ c ∈ q.code, ∀ c' ∈ q'.code, c.id = c'.id → c = c'

instance (b : Bundle) : Decidable b.CodeAgrees :=
  inferInstanceAs (Decidable (∀ q ∈ b.queries.entries, ∀ q' ∈ b.queries.entries, ∀ c ∈ q.code, ∀ c' ∈ q'.code,
    c.id = c'.id → c = c'))

structure Job.StockedBy (b : Bundle) (j : Job) (m : Mrn) (id : CodeId) (q : Query) (c : Code) : Prop where
  query : b.queries.find? m = some q
  code : q.code = some c
  codeId : c.id = id
  identity : j.identity = .code id ∨ j.identity = .mrn m
  datapoints : b.CodeAgrees → j.datapoints = c.checksums

theorem Job.StockedBy.code_eq {b : Bundle} {j : Job} {m : Mrn} {id : CodeId} {role : Role} {q q₀ : Query} {c c₀ : Code}
    (h : j.StockedBy b m id q₀ c₀) (hb : b.CodeAgrees) (hq : q ∈ b.queries.entries) (hc : q.code = some c)
    (hi : j.identity = Draft.leafIdentity role q c) : c₀ = c := by
  rcases h.identity with hj | hj
  · have hid : Draft.leafIdentity role q c = .code id := hi.symm.trans hj
    cases role with
    | check => exact hb q₀ (Keyed.mem_of_find? h.query) q hq c₀ h.code c hc (h.codeId.trans (Identity.code.inj hid).symm)
    | data => cases hid
  · have hid : Draft.leafIdentity role q c = .mrn m := hi.symm.trans hj
    cases role with
    | check => cases hid
    | data =>
      obtain rfl := Identity.mrn.inj hid
      obtain rfl := Option.some.inj ((Keyed.find?_of_mem hq).symm.trans h.query)
      exact Option.some.inj (h.code.symm.trans hc)

def Job.Stocked (b : Bundle) (j : Job) : Prop :=
  match j.origin with
  | none => j.datapoints = []
  | some (m, id) => ∃ q c, j.StockedBy b m id q c

namespace Job.Stocked

variable {b : Bundle} {j : Job} {m : Mrn} {id : CodeId}

theorem of_origin (h : j.Stocked b) (ho : j.origin = some (m, id)) : ∃ q c, j.StockedBy b m id q c := by
  simpa only [Job.Stocked, ho] using h

theorem of_no_origin (h : j.Stocked b) (ho : j.origin = none) : j.datapoints = [] := by
  simpa only [Job.Stocked, ho] using h

end Job.Stocked

theorem Bundle.stamps_stocked (b : Bundle) : b.Stamps (Job.Stocked b) where
  fresh _ _ _ := rfl
  marks j _ _ _ hj := by
    cases ho : j.origin with
    | none => simpa only [Job.Stocked, ho] using hj.of_no_origin ho
    | some o =>
      obtain ⟨q, c, h⟩ := hj.of_origin ho
      simpa only [Job.Stocked, ho] using ⟨q, c, h.query, h.code, h.codeId, h.identity, h.datapoints⟩
  code j role q c hq hc hi hj := by
    cases ho : j.origin with
    | none =>
      simp only [Job.Stocked, Option.none_or]
      refine ⟨q, c, Keyed.find?_of_mem hq, hc, rfl, ?_, fun _ => ?_⟩
      · rw [hi]
        cases role with
        | check => exact .inl rfl
        | data => exact .inr rfl
      · rw [hj.of_no_origin ho]
        exact appendNew_of_nodup c.checksums_nodup
    | some o =>
      obtain ⟨q₀, c₀, h⟩ := hj.of_origin ho
      simp only [Job.Stocked, Option.some_or]
      refine ⟨q₀, c₀, h.query, h.code, h.codeId, h.identity, fun hb => ?_⟩
      rw [h.datapoints hb, h.code_eq hb hq hc hi]
      exact appendNew_of_subset fun _ hx => hx

theorem Bundle.draft_stocked {b : Bundle} {r : Request} {root : Identity} {d : Draft} (hd : b.draft r = .ok (root, d)) :
    ∀ j ∈ d.graph.jobs, j.Stocked b :=
  b.stamps_stocked.draft hd

end Compliance
