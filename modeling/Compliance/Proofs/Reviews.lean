import Compliance.Proofs.Audits

namespace Compliance

def Framework.heeded (f : Framework) : List Mrn := (f.dependencies.filter (·.action != .deactivate)).map (·.mrn)

/-- The frameworks that are assigned, and those that adopted ones bring along. -/
inductive Bundle.Adopts (b : Bundle) (assigned : List Mrn) : Framework → Prop
  | assigned {m : Mrn} {f : Framework} : m ∈ assigned → b.frameworks.find? m = some f → Adopts b assigned f
  | dependency {f g : Framework} {r : FrameworkRef} : Adopts b assigned f → r ∈ f.dependencies → r.action ≠ .deactivate →
    b.frameworks.find? r.mrn = some g → Adopts b assigned g

theorem Bundle.Adopts.declared {b : Bundle} {assigned : List Mrn} {f : Framework} (h : b.Adopts assigned f) :
    b.frameworks.find? f.mrn = some f := by
  cases h with
  | assigned _ hf => exact Keyed.key_of_find? hf ▸ hf
  | dependency _ _ _ hf => exact Keyed.key_of_find? hf ▸ hf

theorem Framework.mem_heeded {f : Framework} {m : Mrn} : m ∈ f.heeded ↔
    ∃ r ∈ f.dependencies, r.action ≠ .deactivate ∧ r.mrn = m := by
  simp [heeded, and_assoc]

namespace Setting

section

variable (s : Setting)

def adopting (met names : List Mrn) : List Framework :=
  (preorder s.bundle.frameworks Framework.mrn Framework.heeded met names).filterMap (·.2)

def listed (f : Framework) : List Mrn := (f.contentGroups s.now).flatMap (·.controls)

def summons (c : ControlScope) (f : Framework) : List Mrn := ((s.listed f).map .control).filterMap c.visited

variable {s} {met met' names names' : List Mrn} {n : Mrn} {f : Framework}

theorem mem_adopting : f ∈ s.adopting [] names ↔ s.bundle.Adopts names f := by
  refine mem_preorder_iff.trans ⟨fun h => ?_, fun h => ?_⟩
  · induction h with
    | named hm hf => exact .assigned hm hf
    | next _ hm hf ih =>
      obtain ⟨r, hr, ha, rfl⟩ := Framework.mem_heeded.mp hm
      exact .dependency ih hr ha hf
  · induction h with
    | assigned hm hf => exact .named hm hf
    | dependency _ hr ha hf ih => exact .next ih (Framework.mem_heeded.mpr ⟨_, hr, ha, rfl⟩) hf

theorem adopting_nil : s.adopting met [] = [] := by
  rw [adopting, preorder_nil]
  rfl

theorem adopting_none (h : s.bundle.frameworks.find? n = none) : s.adopting met (n :: names) = s.adopting met names := by
  rw [adopting, preorder_none h]
  rfl

theorem adopting_met (h : s.bundle.frameworks.find? n = some f) (hm : n ∈ met) :
    s.adopting met (n :: names) = s.adopting met names := by
  rw [adopting, preorder_met h (Keyed.key_of_find? h ▸ hm), adopting]

theorem adopting_new (h : s.bundle.frameworks.find? n = some f) (hm : n ∉ met) :
    s.adopting met (n :: names) = f :: s.adopting (n :: met) (f.heeded ++ names) := by
  obtain rfl := Keyed.key_of_find? h
  rw [adopting, preorder_new h hm]
  rfl

theorem adopting_append : s.adopting met (names ++ names') =
    s.adopting met names ++ s.adopting ((s.adopting met names).map (·.mrn) ++ met) names' := by
  rw [adopting, preorder_append, List.filterMap_append]
  rfl

theorem adopting_congr (h : ∀ k, k ∈ met ↔ k ∈ met') : s.adopting met names = s.adopting met' names := by
  rw [adopting, preorder_congr h, adopting]

end

section

variable (s : Setting) (c : ControlScope) (root : Identity) (d₀ : Draft)

structure Review (log : List Edit) (d : Draft) (log' : List Edit) (d' : Draft) (begun : List Framework) : Prop where
  audited : s.Audited c root d₀ (log ++ log') d'
  keys : d'.controls.map Prod.fst = c.settlingAll [] (begun.flatMap (s.summons c)) (d.controls.map Prod.fst)
  finished : Finished c.Leads [] (d'.controls.map Prod.fst)
  met : ∀ k, k ∈ d'.frameworks.map Prod.fst ↔ k ∈ begun.map (·.mrn) ∨ k ∈ d.frameworks.map Prod.fst

def Reviews (path : List Mrn) (m : Mrn) : Prop :=
  ∀ d log, s.Audited c root d₀ log d → Finished c.Leads [] (d.controls.map Prod.fst) → ∃ log',
    s.Review c root d₀ log d log' (s.framework c path m d).2 (s.adopting (d.frameworks.map Prod.fst ++ path) [m]) ∧
      ((s.framework c path m d).1 = true → ∃ f, s.bundle.frameworks.find? m = some f)

end

variable {s : Setting} {c : ControlScope} {root : Identity} {d₀ d d' d'' : Draft} {path : List Mrn}
  {log log' log'' : List Edit} {begun begun' : List Framework} {m : Mrn} {f : Framework}

namespace Review

theorem idle (h : s.Audited c root d₀ log d) (hf : Finished c.Leads [] (d.controls.map Prod.fst)) :
    s.Review c root d₀ log d [] d [] :=
  ⟨by rwa [List.append_nil], rfl, hf, by simp⟩

theorem trans (h : s.Review c root d₀ log d log' d' begun) (h' : s.Review c root d₀ (log ++ log') d' log'' d'' begun') :
    s.Review c root d₀ log d (log' ++ log'') d'' (begun ++ begun') where
  audited := by
    rw [← List.append_assoc]
    exact h'.audited
  keys := by
    rw [h'.keys, h.keys, List.flatMap_append, ControlScope.settlingAll, ControlScope.settlingAll,
      ControlScope.settlingAll, List.foldl_append]
  finished := h'.finished
  met k := by
    rw [h'.met, h.met, List.map_append, List.mem_append]
    tauto

end Review

theorem gather_link (l : List Mrn) (d : Draft) :
    gather (c.link (c.control [])) l d = gather (c.follow (c.control [])) (l.map .control) d := by
  induction l generalizing d with
  | nil => rfl
  | cons n rest ih =>
    rw [List.map_cons, gather_cons, gather_cons, ih]
    rfl

theorem controls_audit (f : Framework) (h : s.Audited c root d₀ log d)
    (hf : Finished c.Leads [] (d.controls.map Prod.fst)) : ∃ log',
      s.Audit c root d₀ [] log d log' (gather (c.link (c.control [])) (s.listed f) d).2
        (c.settlingAll [] (s.summons c f) (d.controls.map Prod.fst)) ∧
      ∀ l ∈ (gather (c.link (c.control [])) (s.listed f) d).1,
        s.Frames c (gather (c.link (c.control [])) (s.listed f) d).2.controls l := by
  rw [gather_link]
  obtain ⟨log', ha, hlinks⟩ := gather_audit (l := (s.listed f).map .control) (fun x hx n hn => by
    obtain ⟨k, -, rfl⟩ := List.mem_map.mp hx
    obtain ⟨hs, hk⟩ := Option.ite_none_left_eq_some.mp hn
    obtain rfl := Option.some.inj hk
    exact ⟨control_audit [] k hs nofun, nofun⟩) h hf
  refine ⟨log', ha, fun l hl => ?_⟩
  rw [hlinks] at hl
  obtain ⟨x, hx, hl⟩ := List.mem_filterMap.mp hl
  obtain ⟨n, -, rfl⟩ := List.mem_map.mp hx
  obtain ⟨hn, hmade, rfl⟩ := ControlScope.evidenceLink_control.mp hl
  exact .control hn hmade

theorem dependencies_review {l : List FrameworkRef}
    (hl : ∀ r ∈ l, r.action ≠ .deactivate → s.Reviews c root d₀ path r.mrn)
    (h : s.Audited c root d₀ log d) (hf : Finished c.Leads [] (d.controls.map Prod.fst)) : ∃ log',
      s.Review c root d₀ log d log' (gather (dependencyStep (s.framework c path)) l d).2
        (s.adopting (d.frameworks.map Prod.fst ++ path) ((l.filter (·.action != .deactivate)).map (·.mrn))) ∧
      ∀ x ∈ (gather (dependencyStep (s.framework c path)) l d).1, ∃ f w, s.bundle.frameworks.find? f.mrn = some f ∧
        x = (.mrn f.mrn, w) := by
  induction l generalizing d log with
  | nil =>
    rw [List.filter_nil, List.map_nil, adopting_nil]
    exact ⟨[], .idle h hf, by simp [gather]⟩
  | cons r rest ih =>
    have hrest := fun r hr => hl r (List.mem_cons_of_mem _ hr)
    rw [gather_cons]
    by_cases ha : r.action = .deactivate
    · have hstep : dependencyStep (s.framework c path) r d = (none, d) := if_pos (Action.activation_eq_absent.mpr ha)
      rw [hstep, List.filter_cons_of_neg (by simp [ha])]
      exact ih hrest h hf
    · have hstep : dependencyStep (s.framework c path) r d =
          (if (s.framework c path r.mrn d).1 then some (.mrn r.mrn, Impact.of r.action.activation .unspecified none)
            else none, (s.framework c path r.mrn d).2) := if_neg fun hn => ha (Action.activation_eq_absent.mp hn)
      obtain ⟨log₁, hfirst, hmade⟩ := hl r List.mem_cons_self ha d log h hf
      obtain ⟨log₂, hlast, hlinks⟩ := ih hrest hfirst.audited hfirst.finished
      have hnames : ((r :: rest).filter (·.action != .deactivate)).map (·.mrn) =
          [r.mrn] ++ (rest.filter (·.action != .deactivate)).map (·.mrn) := by
        rw [List.filter_cons_of_pos (by simp [ha]), List.map_cons, List.singleton_append]
      -- the search does not tell frameworks that are settled from those on the path
      have hmet : ∀ k, k ∈ (s.framework c path r.mrn d).2.frameworks.map Prod.fst ++ path ↔
          k ∈ (s.adopting (d.frameworks.map Prod.fst ++ path) [r.mrn]).map (·.mrn) ++
            (d.frameworks.map Prod.fst ++ path) := by
        intro k
        rw [List.mem_append, hfirst.met, List.mem_append, List.mem_append]
        tauto
      rw [hstep, hnames, adopting_append, ← adopting_congr hmet]
      refine ⟨log₁ ++ log₂, hfirst.trans hlast, fun x hx => ?_⟩
      rcases List.mem_append.mp hx with hx | hx
      · obtain ⟨hm, hx⟩ := Option.ite_none_right_eq_some.mp (Option.mem_toList.mp hx)
        obtain ⟨f, hfind⟩ := hmade hm
        obtain rfl := Option.some.inj hx
        have hk := Keyed.key_of_find? hfind
        exact ⟨f, _, hk ▸ hfind, by rw [hk]⟩
      · exact hlinks x hx

theorem Audit.review {links links' : List Link} (hfind : s.bundle.frameworks.find? f.mrn = some f)
    (h : s.Audit c root d₀ [] log d log' d' (c.settlingAll [] (s.summons c f) (d.controls.map Prod.fst)))
    (h' : s.Review c root d₀ (log ++ log') d' log'' d'' begun) (hl : ∀ l ∈ links, s.Frames c d'.controls l)
    (hl' : ∀ l ∈ links', ∃ f w, s.bundle.frameworks.find? f.mrn = some f ∧ l = (.mrn f.mrn, w)) : ∃ log₃,
      s.Review c root d₀ log d log₃ (d''.conclude .framework f.mrn .average (links ++ links')).2 (f :: begun) := by
  obtain ⟨hcontrols, hframeworks⟩ := d''.conclude_framework f.mrn (links ++ links')
  have hframes : ∀ l ∈ links ++ links', s.Frames c d''.controls l := by
    intro l hm
    rcases List.mem_append.mp hm with hm | hm
    · exact (hl l hm).mono (h.audited.suffix h'.audited)
    · obtain ⟨g, w, hg, rfl⟩ := hl' l hm
      exact .framework w hg
  refine ⟨log' ++ log'' ++ concluding .framework f.mrn .average (links ++ links'), ?_, ?_, ?_, fun k => ?_⟩
  · rw [← List.append_assoc, ← List.append_assoc]
    exact h'.audited.framework hfind hframes
  · rw [hcontrols, h'.keys, h.keys, List.flatMap_cons, ControlScope.settlingAll, ControlScope.settlingAll,
      ControlScope.settlingAll, List.foldl_append]
  · rw [hcontrols]
    exact h'.finished
  · rw [hframeworks, List.map_cons, List.mem_cons, h'.met, h.frameworks, List.map_cons, List.mem_cons, or_assoc]

theorem framework_review (path : List Mrn) (m : Mrn) : s.Reviews c root d₀ path m := by
  intro d log h hf
  cases hl : d.frameworks.lookup m with
  | some made =>
    have hm : m ∈ d.frameworks.map Prod.fst := List.mem_map_of_mem (mem_of_lookup hl)
    obtain ⟨f, hfind⟩ := h.declared m hm
    rw [framework_settled hl, adopting_met hfind (List.mem_append_left path hm), adopting_nil]
    exact ⟨[], .idle h hf, fun _ => ⟨f, hfind⟩⟩
  | none =>
    by_cases hm : m ∈ path
    · -- on the path, so the search has it already
      have hnone : s.adopting (d.frameworks.map Prod.fst ++ path) [m] = [] := by
        cases hfind : s.bundle.frameworks.find? m with
        | none => rw [adopting_none hfind, adopting_nil]
        | some f => rw [adopting_met hfind (List.mem_append_right _ hm), adopting_nil]
      rw [framework_cut hl hm, hnone]
      exact ⟨[.note (.frameworkCycle m)], ⟨h.note _, rfl, hf, by simp [Draft.note]⟩, nofun⟩
    · cases hfind : s.bundle.frameworks.find? m with
      | none =>
        rw [framework_undeclared hl hm hfind, adopting_none hfind, adopting_nil]
        exact ⟨[], .idle h hf, nofun⟩
      | some f =>
        obtain rfl := Keyed.key_of_find? hfind
        have hnew : f.mrn ∉ d.frameworks.map Prod.fst ++ path :=
          List.not_mem_append (not_mem_of_lookup hl) hm
        obtain ⟨log₁, hcontrols, hlisted⟩ := controls_audit f h hf
        obtain ⟨log₂, hdependencies, hheeded⟩ := dependencies_review (l := f.dependencies)
          (fun r _ _ => framework_review (f.mrn :: path) r.mrn) hcontrols.audited (hcontrols.keys ▸ hcontrols.finished)
        have hbegun : s.adopting (d.frameworks.map Prod.fst ++ path) [f.mrn] =
            f :: s.adopting ((gather (c.link (c.control [])) (s.listed f) d).2.frameworks.map Prod.fst ++ f.mrn :: path)
              f.heeded := by
          rw [adopting_new hfind hnew, List.append_nil, hcontrols.frameworks]
          congr 1
          apply adopting_congr
          intro k
          simp only [List.mem_cons, List.mem_append]
          tauto
        rw [framework_first hl hm hfind, hbegun]
        obtain ⟨log', hreview⟩ := hcontrols.review hfind hdependencies hlisted hheeded
        exact ⟨log', hreview, fun _ => ⟨f, rfl⟩⟩
termination_by unvisited Framework.mrn s.bundle.frameworks.entries path
decreasing_by exact unvisited_cons_lt (Keyed.mem_of_find? hfind) hm

theorem adopt_review (m : Mrn) (h : s.Audited c root d₀ log d) (hf : Finished c.Leads [] (d.controls.map Prod.fst)) :
    ∃ log', s.Review c root d₀ log d log' (s.adopt root c d m) (s.adopting (d.frameworks.map Prod.fst) [m]) := by
  obtain ⟨log', hreview, hmade⟩ := framework_review [] m d log h hf
  rw [List.append_nil] at hreview
  unfold adopt
  split
  rename_i made d' heq
  rw [heq] at hreview hmade
  split
  · rename_i hm
    obtain ⟨f, hfind⟩ := hmade hm
    obtain rfl := Keyed.key_of_find? hfind
    refine ⟨log' ++ [.connect root (.mrn f.mrn) .ignored], ?_, hreview.keys, hreview.finished, hreview.met⟩
    rw [← List.append_assoc]
    refine hreview.audited.extend [.connect root (.mrn f.mrn) .ignored] ?_ ?_
    · exact List.forall_mem_singleton.mpr (.hang hfind)
    · exact List.forall_mem_singleton.mpr fun t => by cases t <;> rfl
  · exact ⟨log', hreview⟩

theorem adopted_review (ms : List Mrn) (h : s.Audited c root d₀ log d)
    (hf : Finished c.Leads [] (d.controls.map Prod.fst)) :
    ∃ log', s.Review c root d₀ log d log' (ms.foldl (s.adopt root c) d) (s.adopting (d.frameworks.map Prod.fst) ms) := by
  induction ms generalizing d log with
  | nil =>
    rw [adopting_nil]
    exact ⟨[], .idle h hf⟩
  | cons m rest ih =>
    obtain ⟨log₁, hfirst⟩ := adopt_review m h hf
    obtain ⟨log₂, hrest⟩ := ih hfirst.audited hfirst.finished
    have hmet : ∀ k, k ∈ (s.adopt root c d m).frameworks.map Prod.fst ↔
        k ∈ (s.adopting (d.frameworks.map Prod.fst) [m]).map (·.mrn) ++ d.frameworks.map Prod.fst := by
      intro k
      rw [hfirst.met, List.mem_append]
    have hcons : m :: rest = [m] ++ rest := rfl
    rw [List.foldl_cons, hcons, adopting_append, ← adopting_congr hmet]
    exact ⟨log₁ ++ log₂, hfirst.trans hrest⟩

structure Reviewed (s : Setting) (c : ControlScope) (d₀ : Draft) (frameworks : List Mrn) (log : List Edit) (d : Draft) :
    Prop where
  audited : s.Audited c assetRoot d₀ log d
  keys : d.controls.map Prod.fst = c.settlingAll [] ((s.adopting [] frameworks).flatMap (s.summons c)) []
  finished : Finished c.Leads [] (d.controls.map Prod.fst)

theorem exists_reviewed (hd : ∀ t : Tier, d.ledger t.jobType = []) (frameworks : List Mrn) : ∃ events log,
    s.Reviewed (s.scopeOf frameworks d) { d with events := events } frameworks log
      (s.addFrameworks assetRoot frameworks d) := by
  rw [addFrameworks_eq]
  refine ⟨d.events ++ s.frameworkEvents frameworks d, ?_⟩
  generalize hd₀ : { d with events := d.events ++ s.frameworkEvents frameworks d } = d₀
  have hcontrols : d₀.controls = [] := hd₀ ▸ hd .control
  have hframeworks : d₀.frameworks = [] := hd₀ ▸ hd .framework
  have hstart : s.Audited (s.scopeOf frameworks d) assetRoot d₀ [] d₀ := by
    refine ⟨rfl, by simp, fun m made tail ht => ?_, by simp [hframeworks]⟩
    rw [hcontrols] at ht
    exact absurd (List.suffix_nil.mp ht) (by simp)
  have hnone : Finished (s.scopeOf frameworks d).Leads [] (d₀.controls.map Prod.fst) := by
    rw [hcontrols]
    exact .nil
  obtain ⟨log, hreview⟩ := adopted_review frameworks hstart hnone
  have hkeys := hreview.keys
  rw [hcontrols, hframeworks, List.map_nil] at hkeys
  exact ⟨log, hreview.audited, hkeys, hreview.finished⟩

end Setting

end Compliance
