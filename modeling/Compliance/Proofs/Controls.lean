import Compliance.Proofs.Drafts

/-!
Frameworks and controls over the jobs of queries. What they draw depends on a draft only through its
index of queries and its own memory, so two drafts that agree on these take the same edits.
-/

namespace Compliance

structure Draft.Alike (d d' : Draft) : Prop where
  frameworks : d.frameworks = d'.frameworks
  controls : d.controls = d'.controls
  index : ∀ role m, (d.index role).lookup m = (d'.index role).lookup m

inductive Tier
  | control
  | framework
  deriving DecidableEq

namespace Tier

def kind : Tier → Kind
  | control => .control
  | framework => .framework

def jobType : Tier → JobType
  | control => .control
  | framework => .framework

theorem kind_inj {t u : Tier} (h : t.kind = u.kind) : t = u := by
  cases t <;> cases u <;> simp_all [kind]

def enter (paths : Tier → List Mrn) (t : Tier) (m : Mrn) (u : Tier) : List Mrn :=
  if u = t then m :: paths u else paths u

theorem subset_enter (paths : Tier → List Mrn) (t : Tier) (m : Mrn) (u : Tier) : paths u ⊆ enter paths t m u := by
  unfold enter
  split
  · exact List.subset_cons_self m _
  · exact List.Subset.refl _

end Tier

inductive Bundle.Evidential (b : Bundle) (root : Identity) : Edit → Prop
  | note (x : Event) : Evidential b root (.note x)
  | settle (t : Tier) (m : Mrn) (made : Bool) : Evidential b root (.settle t.jobType m made)
  | structural {t : Tier} {m : Mrn} (sc : ScoringSystem) (ls : List Link) :
    (t.kind, m) ∈ b.names → Evidential b root (.structural m t.jobType sc ls)
  | hang (m : Mrn) : Evidential b root (.connect root (.mrn m) .ignored)

namespace Draft

theorem apply_index {b : Bundle} {root : Identity} (d : Draft) {e : Edit} (he : b.Evidential root e) (role : Role) :
    (d.apply e).index role = d.index role := by
  cases he with
  | note x => rfl
  | settle t m made => cases t <;> cases role <;> rfl
  | structural sc ls hm =>
    simp only [apply, structural]
    split <;> cases role <;> rfl
  | hang m => cases role <;> rfl

theorem replay_index {b : Bundle} {root : Identity} (d : Draft) {log : List Edit} (h : ∀ e ∈ log, b.Evidential root e)
    (role : Role) :
    (d.replay log).index role = d.index role := by
  induction log generalizing d with
  | nil => rfl
  | cons e rest ih =>
    rw [replay_cons, ih (d.apply e) fun x hx => h x (List.mem_cons_of_mem _ hx), apply_index d (h e List.mem_cons_self)]

theorem Alike.refl (d : Draft) : d.Alike d := ⟨rfl, rfl, fun _ _ => rfl⟩

theorem Alike.replay {b : Bundle} {root : Identity} {d d' : Draft} (h : d.Alike d') {log : List Edit}
    (hl : ∀ e ∈ log, b.Evidential root e) :
    (d.replay log).Alike (d'.replay log) where
  frameworks := by
    have hd := replay_ledger d log .framework
    have hd' := replay_ledger d' log .framework
    simp only [ledger, h.frameworks] at hd hd'
    rw [hd, hd']
  controls := by
    have hd := replay_ledger d log .control
    have hd' := replay_ledger d' log .control
    simp only [ledger, h.controls] at hd hd'
    rw [hd, hd']
  index role m := by
    rw [replay_index d hl, replay_index d' hl, h.index]

end Draft

structure Evident (b : Bundle) (root : Identity) (paths : Tier → List Mrn) (d : Draft) : Prop where
  unique : d.graph.Unique
  indexed : ∀ role m i, (d.index role).lookup m = some i → d.graph.Has i ∧ i ≠ root
  jobs : ∀ (t : Tier) m, (m, true) ∈ d.ledger t.jobType → d.graph.Has (.mrn m) ∧ .mrn m ≠ root
  new : ∀ (t : Tier) m, (t.kind, m) ∈ b.names → d.graph.Has (.mrn m) → m ∈ (d.ledger t.jobType).map Prod.fst
  apart : ∀ (t : Tier), ∀ m ∈ paths t, m ∉ (d.ledger t.jobType).map Prod.fst

structure Errand {β : Type} (b : Bundle) (root : Identity) (paths : Tier → List Mrn) (f : Draft → β × Draft)
    (links : β → List Identity) (d : Draft) (out : β) (log : List Edit) : Prop where
  eq : ∀ d', d.Alike d' → f d' = (out, d'.replay log)
  evidential : ∀ e ∈ log, b.Evidential root e
  keeps : Evident b root paths d → Evident b root paths (d.replay log) ∧ Sketch root d.graph (links out) log

section

variable {α β : Type} {b : Bundle} {root : Identity} {paths : Tier → List Mrn} {d : Draft} {t : Tier} {m : Mrn}

namespace Evident

theorem events (h : Evident b root paths d) (xs : List Event) : Evident b root paths { d with events := xs } := by
  refine ⟨h.unique, fun role => ?_, fun t => ?_, fun t => ?_, fun t => ?_⟩
  · cases role with
    | check => exact h.indexed .check
    | data => exact h.indexed .data
  · cases t with
    | control => exact h.jobs .control
    | framework => exact h.jobs .framework
  · cases t with
    | control => exact h.new .control
    | framework => exact h.new .framework
  · cases t with
    | control => exact h.apart .control
    | framework => exact h.apart .framework

theorem enter (h : Evident b root paths d) (hm : m ∉ (d.ledger t.jobType).map Prod.fst) :
    Evident b root (Tier.enter paths t m) d where
  unique := h.unique
  indexed := h.indexed
  jobs := h.jobs
  new := h.new
  apart := by
    intro u n hn
    unfold Tier.enter at hn
    split at hn
    · rename_i hu
      rcases List.mem_cons.mp hn with rfl | hn
      · rw [hu]
        exact hm
      · exact h.apart u n hn
    · exact h.apart u n hn

end Evident

namespace Errand

theorem gather {step : α → Draft → Option β × Draft} {ident : β → Identity} {l : List α}
    (h : ∀ a ∈ l, ∀ d, ∃ out log, Errand b root paths (step a) (fun o => o.toList.map ident) d out log) :
    ∃ out log, Errand b root paths (gather step l) (fun o => o.map ident) d out log := by
  induction l generalizing d with
  | nil =>
    refine ⟨[], [], fun _ _ => rfl, by simp, fun he => ⟨he, .nil⟩⟩
  | cons a rest ih =>
    obtain ⟨out, log, ha⟩ := h a List.mem_cons_self d
    obtain ⟨outs, log', hrest⟩ := ih (fun x hx => h x (List.mem_cons_of_mem _ hx)) (d := d.replay log)
    refine ⟨out.toList ++ outs, log ++ log', ?_, ?_, ?_⟩
    · intro d' hd
      simp only [Compliance.gather, ha.eq d' hd, hrest.eq _ (hd.replay ha.evidential), Draft.replay_append]
    · intro e he
      rcases List.mem_append.mp he with he | he
      · exact ha.evidential e he
      · exact hrest.evidential e he
    · intro he
      obtain ⟨he', hs⟩ := ha.keeps he
      obtain ⟨he'', hs'⟩ := hrest.keeps he'
      rw [Draft.replay_append, List.map_append]
      rw [Draft.replay_graph] at hs'
      exact ⟨he'', hs.append he.unique hs'⟩

theorem both {f f' : Draft → List Link × Draft} {out out' : List Link} {log log' : List Edit}
    (h : Errand b root paths f (fun ls => ls.map Prod.fst) d out log)
    (h' : Errand b root paths f' (fun ls => ls.map Prod.fst) (d.replay log) out' log') :
    Errand b root paths (fun d => ((f d).1 ++ (f' (f d).2).1, (f' (f d).2).2)) (fun ls => ls.map Prod.fst) d
      (out ++ out') (log ++ log') where
  eq d' hd := by
    simp only [h.eq d' hd, h'.eq _ (hd.replay h.evidential), Draft.replay_append]
  evidential e he := by
    rcases List.mem_append.mp he with he | he
    · exact h.evidential e he
    · exact h'.evidential e he
  keeps he := by
    obtain ⟨he', hs⟩ := h.keeps he
    obtain ⟨he'', hs'⟩ := h'.keeps he'
    rw [Draft.replay_append, List.map_append]
    rw [Draft.replay_graph] at hs'
    exact ⟨he'', hs.append he.unique hs'⟩

theorem nothing {f : Draft → β × Draft} {links : β → List Identity} {out : β} (hf : ∀ d', d.Alike d' → f d' = (out, d'))
    (hl : links out = []) : Errand b root paths f links d out [] where
  eq := hf
  evidential := by simp
  keeps h := by
    rw [hl]
    exact ⟨h, .nil⟩

theorem noted {f : Draft → β × Draft} {links : β → List Identity} {out : β} {x : Event}
    (hf : ∀ d', d.Alike d' → f d' = (out, d'.note x)) (hl : links out = []) :
    Errand b root paths f links d out [.note x] where
  eq := hf
  evidential := by
    intro e he
    rw [List.mem_singleton.mp he]
    exact .note x
  keeps h := by
    rw [hl]
    exact ⟨h.events _, Sketch.nil.idle (fun _ => rfl) fun _ => trivial⟩

theorem linked (role : Role) (r : QueryRef) : Errand b root paths (fun d => (d.linked role r, d))
    (fun o => o.toList.map Prod.fst) d (d.linked role r) [] where
  eq d' hd := by simp [Draft.linked, hd.index]
  evidential := by simp
  keeps h := by
    refine ⟨h, ?_⟩
    cases ho : d.linked role r with
    | none => exact .nil
    | some l =>
      unfold Draft.linked at ho
      split at ho
      · cases ho
      · obtain ⟨i, hi, rfl⟩ := Option.map_eq_some_iff.mp ho
        obtain ⟨hg, hr⟩ := h.indexed role r.mrn i hi
        exact .known hg hr

theorem activated {job : Draft → Bool × Draft} (a : Activation)
    (h : ∃ made log, Errand b root paths job (fun made => if made then [.mrn m] else []) d made log) :
    ∃ out log, Errand b root paths
      (fun d =>
        if a = .absent then (none, d)
        else
          let (made, d) := job d
          (if made then some (.mrn m, Impact.of a .unspecified none) else none, d))
      (fun o : Option Link => o.toList.map Prod.fst) d out log := by
  by_cases ha : a = .absent
  · exact ⟨none, [], .nothing (fun d' _ => by simp [ha]) rfl⟩
  · obtain ⟨made, log, h⟩ := h
    refine ⟨if made then some (.mrn m, Impact.of a .unspecified none) else none, log, ?_, h.evidential, ?_⟩
    · intro d' hd
      simp only [ha, ↓reduceIte, h.eq d' hd]
    · intro he
      obtain ⟨he', hs⟩ := h.keeps he
      refine ⟨he', ?_⟩
      cases made <;> exact hs

theorem remembered {f : Draft → Bool × Draft} {made : Bool} (hm : (m, made) ∈ d.ledger t.jobType)
    (hf : ∀ d', d.Alike d' → f d' = (made, d')) :
    Errand b root paths f (fun made => if made then [.mrn m] else []) d made [] where
  eq := hf
  evidential := by simp
  keeps h := by
    refine ⟨h, ?_⟩
    cases made with
    | false => exact .nil
    | true =>
      obtain ⟨hg, hr⟩ := h.jobs t m hm
      exact .known hg hr

end Errand

theorem concluding_evidential {links : List Link} (hm : links ≠ [] → (t.kind, m) ∈ b.names) :
    ∀ e ∈ concluding t.jobType m .average links, b.Evidential root e := by
  intro e he
  rcases mem_concluding.mp he with ⟨hl, rfl⟩ | rfl
  · exact .structural _ _ (hm hl)
  · exact .settle ..

theorem Tier.jobType_ne_root (t : Tier) : t.jobType ≠ .root := by
  cases t <;> simp [jobType]

theorem concluding_tier (d : Draft) (u : Tier) (links : List Link) :
    (d.replay (concluding t.jobType m .average links)).ledger u.jobType =
      if u = t then (m, !links.isEmpty) :: d.ledger u.jobType else d.ledger u.jobType := by
  rw [concluding_ledger]
  cases t <;> cases u <;> rfl

theorem mem_concluding_tier {d : Draft} {u : Tier} {links : List Link} {x : Mrn × Bool} :
    x ∈ (d.replay (concluding t.jobType m .average links)).ledger u.jobType ↔
      u = t ∧ x = (m, !links.isEmpty) ∨ x ∈ d.ledger u.jobType := by
  rw [concluding_tier]
  split <;> simp [*]

theorem concluding_has (hu : d.graph.Unique) {links : List Link} {i : Identity} :
    (d.replay (concluding t.jobType m .average links)).graph.Has i ↔ d.graph.Has i ∨ links ≠ [] ∧ i = .mrn m := by
  rw [Draft.replay_graph, Graph.drawAll_has hu]
  refine or_congr_right ⟨?_, ?_⟩
  · rintro ⟨e, he, ty, sc, hm⟩
    rcases mem_concluding.mp he with ⟨-, rfl⟩ | rfl
    · exact ⟨hm.1, hm.2.1⟩
    · exact hm.elim
  · rintro ⟨hl, rfl⟩
    exact ⟨_, mem_concluding.mpr (.inl ⟨hl, rfl⟩), _, _, hl, rfl, rfl, rfl⟩

theorem Evident.conclude (hd : b.Distinct) (h : Evident b root (Tier.enter paths t m) d) {links : List Link}
    (hm : links ≠ [] → (t.kind, m) ∈ b.names ∧ .mrn m ≠ root) (hp : m ∉ paths t) :
    Evident b root paths (d.replay (concluding t.jobType m .average links)) where
  unique := by
    rw [Draft.replay_graph]
    exact Graph.drawAll_unique h.unique _
  indexed := by
    intro role n i hl
    have hev : ∀ e ∈ concluding t.jobType m .average links, b.Evidential root e :=
      concluding_evidential fun hl => (hm hl).1
    rw [Draft.replay_index d hev] at hl
    obtain ⟨hg, hne⟩ := h.indexed role n i hl
    exact ⟨(concluding_has h.unique).mpr (.inl hg), hne⟩
  jobs := by
    intro u n hn
    rw [concluding_has h.unique]
    rcases mem_concluding_tier.mp hn with ⟨-, he⟩ | hn
    · obtain ⟨rfl, he⟩ := Prod.mk.inj he
      have hl : links ≠ [] := List.isEmpty_eq_false_iff.mp (by simpa using he.symm)
      exact ⟨.inr ⟨hl, rfl⟩, (hm hl).2⟩
    · obtain ⟨hg, hne⟩ := h.jobs u n hn
      exact ⟨.inl hg, hne⟩
  new := by
    intro u n hn hg
    rcases (concluding_has h.unique).mp hg with hg | ⟨hl, hg⟩
    · obtain ⟨x, hx, rfl⟩ := List.mem_map.mp (h.new u n hn hg)
      exact List.mem_map_of_mem (mem_concluding_tier.mpr (.inr hx))
    · obtain rfl := Identity.mrn.inj hg
      have hu : u = t := Tier.kind_inj (hd.kind_eq hn (hm hl).1)
      exact List.mem_map.mpr ⟨_, mem_concluding_tier.mpr (.inl ⟨hu, rfl⟩), rfl⟩
  apart := by
    intro u n hn hmem
    obtain ⟨x, hx, rfl⟩ := List.mem_map.mp hmem
    rcases mem_concluding_tier.mp hx with ⟨rfl, rfl⟩ | hx
    · exact hp hn
    · exact h.apart u x.1 (Tier.subset_enter _ _ _ _ hn) (List.mem_map_of_mem hx)

theorem Evident.hang (h : Evident b root paths d) (c : Identity) (w : Impact) :
    Evident b root paths { d with graph := d.graph.connect root c w } := by
  have hg : ∀ {i}, (d.graph.connect root c w).Has i ↔ d.graph.Has i := Graph.connect_has h.unique
  refine ⟨Graph.connect_unique h.unique, ?_, ?_, ?_, ?_⟩
  · intro role m i hi
    obtain ⟨hi, hr⟩ := h.indexed role m i (by cases role <;> exact hi)
    exact ⟨hg.mpr hi, hr⟩
  · intro t m hm
    obtain ⟨hm, hr⟩ := h.jobs t m (by cases t <;> exact hm)
    exact ⟨hg.mpr hm, hr⟩
  · intro t m hm hh
    have := h.new t m hm (hg.mp hh)
    cases t <;> exact this
  · intro t m hm
    have := h.apart t m hm
    cases t <;> exact this

theorem Errand.visit (hd : b.Distinct) {f : Draft → Bool × Draft} {g : Draft → List Link × Draft} {links : List Link}
    {log : List Edit} (hf : ∀ d', d.Alike d' → f d' = (g d').2.conclude t.jobType m .average (g d').1)
    (hg : Errand b root (Tier.enter paths t m) g (fun ls => ls.map Prod.fst) d links log)
    (hn : m ∉ (d.ledger t.jobType).map Prod.fst) (hm : links ≠ [] → (t.kind, m) ∈ b.names ∧ .mrn m ≠ root)
    (hp : m ∉ paths t) :
    Errand b root paths f (fun made => if made then [.mrn m] else []) d (!links.isEmpty)
      (log ++ concluding t.jobType m .average links) where
  eq d' hd := by
    rw [hf d' hd, hg.eq d' hd, conclude_eq, Draft.replay_append]
  evidential e he := by
    rcases List.mem_append.mp he with he | he
    · exact hg.evidential e he
    · exact concluding_evidential (fun hl => (hm hl).1) e he
  keeps h := by
    obtain ⟨he, hs⟩ := hg.keeps (h.enter hn)
    rw [Draft.replay_append]
    refine ⟨he.conclude hd hm hp, concluding_sketch h.unique t.jobType_ne_root hs fun hl => ?_⟩
    obtain ⟨hname, hr⟩ := hm hl
    refine ⟨hr, fun hg => ?_⟩
    rw [← Draft.replay_graph] at hg
    refine he.apart t m ?_ (he.new t m hname hg)
    simp [Tier.enter]

end

namespace ControlScope

variable {c : ControlScope} {b : Bundle} {root : Identity} {paths : Tier → List Mrn} {m : Mrn}

theorem control_errand (hd : b.Distinct) (hr : b.Apart root) (hc : ∀ e ∈ c.evidence, e ∈ b.evidence)
    (paths : Tier → List Mrn) (m : Mrn) (d : Draft) : ∃ made log,
      Errand b root paths (c.control (paths .control) m) (fun made => if made then [.mrn m] else []) d made log := by
  cases hl : d.controls.lookup m with
  | some made =>
    refine ⟨made, [], .remembered (t := .control) (mem_of_lookup hl) fun d' hd => control_settled ?_⟩
    rw [← hd.controls, hl]
  | none =>
    have hn : m ∉ (d.ledger Tier.control.jobType).map Prod.fst := not_mem_of_lookup hl
    have hl' : ∀ d', d.Alike d' → d'.controls.lookup m = none := by
      intro d' hd
      rw [← hd.controls]
      exact hl
    by_cases hm : m ∈ paths .control
    · exact ⟨false, _, .noted (x := .controlCycle m) (fun d' hd => control_cut (hl' d' hd) hm) rfl⟩
    · rcases he : c.evidence.filter (·.mrn == m) with _ | ⟨e, rest⟩
      · -- a control without evidence is settled without a job
        have hg : Errand b root (Tier.enter paths .control m) (fun d => ([], d)) (fun ls : List Link => ls.map Prod.fst)
            d [] [] := .nothing (fun _ _ => rfl) rfl
        refine ⟨_, _, hg.visit hd (fun d' hd => ?_) hn (fun hne => absurd rfl hne) hm⟩
        exact control_bare (hl' d' hd) hm he
      · have hmem : e ∈ c.evidence.filter (·.mrn == m) := by
          rw [he]
          exact List.mem_cons_self
        obtain ⟨hev, hem⟩ := List.mem_filter.mp hmem
        obtain rfl : e.mrn = m := by simpa using hem
        have hname : (Kind.control, e.mrn) ∈ b.names := Bundle.mem_names_control.mpr ⟨e, hc e hev, rfl⟩
        have below : ∀ n d, ∃ made log, Errand b root (Tier.enter paths .control e.mrn)
            (c.control (e.mrn :: paths .control) n) (fun made => if made then [.mrn n] else []) d made log :=
          fun n d => control_errand hd hr hc (Tier.enter paths .control e.mrn) n d
        have evidence : ∀ l ∈ (e :: rest).flatMap ControlMap.links, ∀ d, ∃ out log,
            Errand b root (Tier.enter paths .control e.mrn)
              (c.follow (fun n d => c.control (e.mrn :: paths .control) n d) l) (fun o => o.toList.map Prod.fst)
              d out log := by
          intro l _ d
          cases l with
          | query role r => exact ⟨_, _, .linked role r⟩
          | control n => exact Errand.activated (c.standing n) (below n d)
        obtain ⟨links, log, hg⟩ := Errand.gather (d := d) evidence
        refine ⟨_, _, hg.visit hd (fun d' hd => ?_) hn (fun _ => ⟨hname, hr.ne_mrn hname (by simp)⟩) hm⟩
        exact control_first (hl' d' hd) hm he
termination_by unvisited ControlMap.mrn c.evidence (paths .control)
decreasing_by
  exact unvisited_cons_lt hev hm

end ControlScope

namespace Setting

variable {s : Setting} {c : ControlScope} {root : Identity}

theorem framework_errand (h : s.Proper) (hr : s.bundle.Apart root) (hc : ∀ e ∈ c.evidence, e ∈ s.bundle.evidence)
    (paths : Tier → List Mrn) (hp : paths .control = []) (m : Mrn) (d : Draft) : ∃ made log,
      Errand s.bundle root paths (s.framework c (paths .framework) m) (fun made => if made then [.mrn m] else []) d
        made log := by
  cases hl : d.frameworks.lookup m with
  | some made =>
    refine ⟨made, [], .remembered (t := .framework) (mem_of_lookup hl) fun d' hd => framework_settled ?_⟩
    rw [← hd.frameworks, hl]
  | none =>
    have hn : m ∉ (d.ledger Tier.framework.jobType).map Prod.fst := not_mem_of_lookup hl
    have hl' : ∀ d', d.Alike d' → d'.frameworks.lookup m = none := by
      intro d' hd
      rw [← hd.frameworks]
      exact hl
    by_cases hm : m ∈ paths .framework
    · exact ⟨false, _, .noted (x := .frameworkCycle m) (fun d' hd => framework_cut (hl' d' hd) hm) rfl⟩
    · obtain hf | ⟨f, hf⟩ := Option.eq_none_or_eq_some (s.bundle.frameworks.find? m)
      · exact ⟨false, [], .nothing (fun d' hd => framework_undeclared (hl' d' hd) hm hf) rfl⟩
      · obtain rfl := Keyed.key_of_find? hf
        have hname : (Kind.framework, f.mrn) ∈ s.bundle.names := Bundle.mem_names_framework.mpr ⟨f, hf⟩
        -- a framework walks its controls from an empty path, so theirs has to be empty here
        have hp' : Tier.enter paths .framework f.mrn .control = [] := by simpa [Tier.enter] using hp
        have control : ∀ n d, ∃ made log, Errand s.bundle root (Tier.enter paths .framework f.mrn)
            (c.control [] n) (fun made => if made then [.mrn n] else []) d made log := by
          intro n d
          rw [← hp']
          exact ControlScope.control_errand h.distinct hr hc (Tier.enter paths .framework f.mrn) n d
        have below : ∀ n d, ∃ made log, Errand s.bundle root (Tier.enter paths .framework f.mrn)
            (s.framework c (f.mrn :: paths .framework) n) (fun made => if made then [.mrn n] else []) d made log :=
          fun n d => framework_errand h hr hc (Tier.enter paths .framework f.mrn) hp' n d
        have controls : ∀ n ∈ (f.contentGroups s.now).flatMap (·.controls), ∀ d, ∃ out log,
            Errand s.bundle root (Tier.enter paths .framework f.mrn) (c.link (c.control []) n)
              (fun o => o.toList.map Prod.fst) d out log :=
          fun n _ d => Errand.activated (c.standing n) (control n d)
        have dependencies : ∀ r ∈ f.dependencies, ∀ d, ∃ out log,
            Errand s.bundle root (Tier.enter paths .framework f.mrn)
              (dependencyStep (s.framework c (f.mrn :: paths .framework)) r)
              (fun o : Option Link => o.toList.map Prod.fst) d out log :=
          fun r _ d => Errand.activated r.action.activation (below r.mrn d)
        obtain ⟨links, log, hg⟩ := Errand.gather (d := d) controls
        obtain ⟨links', log', hg'⟩ := Errand.gather (d := d.replay log) dependencies
        refine ⟨_, _, (hg.both hg').visit h.distinct (fun d' hd => ?_) hn
          (fun _ => ⟨hname, hr.ne_mrn hname (by simp)⟩) hm⟩
        exact framework_first (hl' d' hd) hm hf
termination_by unvisited Framework.mrn s.bundle.frameworks.entries (paths .framework)
decreasing_by
  exact unvisited_cons_lt (Keyed.mem_of_find? hf) hm

theorem replay_hang (d : Draft) (root c : Identity) (w : Impact) :
    d.replay (hanging root [(c, w)]) = { d with graph := d.graph.connect root c w } := replay_hanging d root [(c, w)]

structure Adopts (b : Bundle) (root : Identity) (f : Draft → Draft) (d : Draft) (log : List Edit) : Prop where
  eq : ∀ d', d.Alike d' → f d' = d'.replay log
  evidential : ∀ e ∈ log, b.Evidential root e
  keeps : Evident b root (fun _ => []) d → Grown root d.graph →
    Evident b root (fun _ => []) (d.replay log) ∧ Grown root (d.replay log).graph ∧ d.graph.Fitting root log

theorem Adopts.trans {b : Bundle} {f g : Draft → Draft} {d : Draft} {log log' : List Edit} (h : Adopts b root f d log)
    (h' : Adopts b root g (d.replay log) log') : Adopts b root (fun d => g (f d)) d (log ++ log') where
  eq d' hd := by rw [h.eq d' hd, h'.eq _ (hd.replay h.evidential), Draft.replay_append]
  evidential e he := (List.mem_append.mp he).elim (h.evidential e) (h'.evidential e)
  keeps hd hg := by
    obtain ⟨hd, hg, hf⟩ := h.keeps hd hg
    -- the second log is fitted to the graph that the first has left
    obtain ⟨hd', hg', hf'⟩ := h'.keeps hd hg
    rw [Draft.replay_append]
    refine ⟨hd', hg', Graph.fitting_append.mpr ⟨hf, ?_⟩⟩
    rwa [Draft.replay_graph] at hf'

theorem exists_adopts (h : s.Proper) (hr : s.bundle.Apart root) (hc : ∀ e ∈ c.evidence, e ∈ s.bundle.evidence) (m : Mrn)
    (d : Draft) : ∃ log, Adopts s.bundle root (fun d => s.adopt root c d m) d log := by
  obtain ⟨made, log, he⟩ := framework_errand h hr hc (fun _ => []) rfl m d
  cases made with
  | false =>
    refine ⟨log, fun d' hd => ?_, he.evidential, fun hd hg => ?_⟩
    · simp [adopt, he.eq d' hd]
    · obtain ⟨hd', hs⟩ := he.keeps hd
      have hs' : Sketch root d.graph (([] : List Link).map Prod.fst) log := hs
      have hgrown := hg.hang hs'
      have hfit := hg.fitting hs'
      simp only [hanging, List.map_nil, List.append_nil] at hgrown hfit
      rw [← Draft.replay_graph] at hgrown
      exact ⟨hd', hgrown, hfit⟩
  | true =>
    refine ⟨log ++ hanging root [(.mrn m, .ignored)], fun d' hd => ?_, fun e hm => ?_, fun hd hg => ?_⟩
    · rw [Draft.replay_append, replay_hang]
      simp [adopt, he.eq d' hd]
    · rcases List.mem_append.mp hm with hm | hm
      · exact he.evidential e hm
      · obtain rfl : e = .connect root (.mrn m) .ignored := by simpa [hanging] using hm
        exact .hang m
    · obtain ⟨hd', hs⟩ := he.keeps hd
      have hs' : Sketch root d.graph ([((.mrn m, .ignored) : Link)].map Prod.fst) log := hs
      have hgrown := hg.hang hs'
      rw [← Draft.replay_graph] at hgrown
      refine ⟨?_, hgrown, hg.fitting hs'⟩
      rw [Draft.replay_append, replay_hang]
      exact hd'.hang (.mrn m) .ignored

theorem exists_adopted (h : s.Proper) (hr : s.bundle.Apart root) (hc : ∀ e ∈ c.evidence, e ∈ s.bundle.evidence)
    (ms : List Mrn) (d : Draft) : ∃ log, Adopts s.bundle root (fun d => ms.foldl (s.adopt root c) d) d log := by
  induction ms generalizing d with
  | nil => exact ⟨[], fun _ _ => rfl, by simp, fun hd hg => ⟨hd, hg, trivial⟩⟩
  | cons m rest ih =>
    obtain ⟨log, hm⟩ := exists_adopts h hr hc m d
    obtain ⟨log', hrest⟩ := ih (d.replay log)
    exact ⟨_, hm.trans hrest⟩

end Setting

end Compliance
