import Compliance.Proofs.Adoption
import Compliance.Proofs.Framing
import Compliance.Proofs.QueryJobs

namespace Compliance

namespace Thins

variable {long short : List Edit}

theorem drawAll_eq (h : Thins [] long short) (g : Graph) : g.drawAll short = g.drawAll long := by
  induction h generalizing g with
  | nil => rfl
  | keep e _ ih => exact ih (e.draw g)
  | skip he _ ih =>
    rw [Graph.drawAll_cons, Edit.draw_of_isSilent (he.resolve_left List.not_mem_nil), ih]

theorem magnitudes_eq (h : Thins [] long short) {d d' : Draft} (hd : d.magnitudes = d'.magnitudes) :
    (d.replay long).magnitudes = (d'.replay short).magnitudes := by
  have hkeep : ∀ e : Edit, ∀ {d d' : Draft}, d.magnitudes = d'.magnitudes → (d.apply e).magnitudes = (d'.apply e).magnitudes := by
    intro e d d' hd
    apply NameMap.ext_get?
    intro m
    rw [Draft.apply_magnitude, Draft.apply_magnitude, hd]
  induction h generalizing d d' with
  | nil => exact hd
  | keep e _ ih => exact ih (hkeep e hd)
  | @skip long short e he _ ih =>
    have hsilent : (d.apply e).magnitudes = d.magnitudes := by
      cases e with
      | note x => rfl
      | settle t m made => cases t <;> rfl
      | _ => cases he.resolve_left List.not_mem_nil
    exact ih (hsilent.trans hd)

end Thins

namespace Setting

variable {s : Setting} {p : Policy} {asset : Mrn} {links : List Link} {log short : List Edit}

theorem start_graph (root : Identity) (sc : ScoringSystem) (m : Mrn) : (Draft.start root sc m).graph =
    ({} : Graph).under { identity := root, type := .root, scoring := sc, mrns := [m] } :=
  congrArg Graph.mk (start_jobs root sc m)

structure Descent (s : Setting) (p : Policy) (asset : Mrn) (links : List Link) (log short : List Edit) : Prop where
  direct : s.policyLinks (s.policy [p.mrn] p.mrn) p (.start (.mrn p.mrn) p.scoring p.mrn) =
    (links, (Draft.start (.mrn p.mrn) p.scoring p.mrn).replay log)
  assigned : s.policyLinks (s.policy [p.mrn] p.mrn) p (.start assetRoot .unspecified asset) =
    (links, (Draft.start assetRoot .unspecified asset).replay short)
  thins : Thins [] log short
  avoids : ∀ e ∈ log, e.Avoids (.mrn p.mrn) ∧ e.Avoids assetRoot
  apart : ∀ l ∈ links, l.1 ≠ .mrn p.mrn ∧ l.1 ≠ assetRoot

theorem Told.lacks_assetRoot {root : Identity} {roots path : List Mrn} {d d₀ : Draft} (hd : s.bundle.Distinct)
    (h : s.Told root roots d₀ path log d) (hb : Blank root d₀) (hr : root ≠ assetRoot) : ¬d.graph.Has assetRoot := by
  rw [h.has_iff hb]
  rintro (hroot | ⟨e, he, t, sc, hm⟩)
  · exact hr hroot.symm
  · rcases h.makes he hm with ⟨role, q, hq, hi, -⟩ | ⟨n, hi, hn, -⟩ | ⟨n, hi, hn, -⟩
    · exact identity_ne_root hd.apart_root hq hi.symm
    · exact hd.ne_assetRoot hn hi.symm
    · exact hd.ne_assetRoot hn hi.symm

theorem Lawful.ne_connect {roots : List Mrn} {done risks : List (Mrn × Bool)} {e : Edit}
    (h : s.Lawful roots done risks e) (i c : Identity) (w : Impact) : e ≠ .connect i c w := by
  rintro rfl
  cases h with
  | query hq hd => cases hd
  | raising _ _ _ _ _ he => simp [Setting.raising] at he

theorem exists_descent (h : s.Proper) (hp : s.bundle.policies.find? p.mrn = some p) (asset : Mrn) :
    ∃ links log short, s.Descent p asset links log short := by
  have hb := start_blank (.mrn p.mrn) p.scoring p.mrn
  have hr := h.distinct.ne_assetRoot (Bundle.mem_names_policy.mpr ⟨p, hp⟩)
  obtain ⟨links, log, hpass⟩ := exists_descent_pass h hp
  -- neither walk starts from anything settled, so the second takes what the first takes, but for silent edits
  have hearlier : s.Earlier (.mrn p.mrn) [p.mrn] [] (.start (.mrn p.mrn) p.scoring p.mrn) :=
    ⟨⟨[p.mrn], _, start_told ..⟩, by simp [Draft.start]⟩
  have hbeside : Beside (.start (.mrn p.mrn) p.scoring p.mrn) (.start (.mrn p.mrn) p.scoring p.mrn)
      (.start assetRoot .unspecified asset) := fun ty m => by cases ty <;> rfl
  have haccord : s.Accord (Draft.start (.mrn p.mrn) p.scoring p.mrn).policies
      ((Draft.start (.mrn p.mrn) p.scoring p.mrn).replay log).policies := by
    intro m made tail made' tail' hs
    simp [Draft.start] at hs
  obtain ⟨short, hassigned, hthins, -⟩ := hpass.echo [] _ _ hearlier hbeside haccord
  have habsent := hpass.told.lacks_assetRoot h.distinct hb hr
  rw [Draft.replay_graph] at habsent
  have hfit := hpass.sketch.fitting
  refine ⟨links, log, short, hpass.eq, hassigned, hthins, fun e he => ?_, fun l hl => ?_⟩
  · exact ⟨Graph.fitting_avoids_root hfit (fun e he => (hpass.own e he).ne_connect) e he,
      Graph.fitting_avoids_absent hb.linked.unique hfit habsent e he⟩
  · obtain ⟨hhas, hne⟩ := hpass.sketch.has l.1 (List.mem_map_of_mem hl)
    exact ⟨hne, fun hroot => habsent (hroot ▸ hhas)⟩

end Setting

structure Graph.Regrafted (m : Mrn) (g g' : Graph) (top top' : Job) (jobs : List Job) (graft : Option Job) : Prop where
  direct : g.jobs = top :: jobs
  assigned : g'.jobs = top' :: (jobs ++ graft.toList)
  root : top.identity = .mrn m ∧ top.type = .root
  root' : top'.identity = assetRoot ∧ top'.type = .root
  hung : top'.children = graft.toList.map fun j => (j.identity, {})
  apart : ∀ j ∈ jobs, j.identity ≠ .mrn m ∧ j.identity ≠ assetRoot
  policy : ∀ j, graft = some j → j.identity = .mrn m ∧ j.type = .policy ∧ j.children = top.children
  absent : graft = none ↔ top.children = []

namespace Graph

variable {g g' : Graph} {m : Mrn} {top top' : Job} {jobs : List Job} {graft : Option Job}

theorem exists_regrafted {body : Graph} {links : List Link} (hm : .mrn m ≠ assetRoot) (hbody : ¬body.Has (.mrn m))
    (hroot : ¬body.Has assetRoot) (hl : ∀ l ∈ links, l.1 ≠ .mrn m ∧ l.1 ≠ assetRoot)
    (ht : top.identity = .mrn m ∧ top.type = .root) (hc : top.children = [])
    (ht' : top'.identity = assetRoot ∧ top'.type = .root) (hc' : top'.children = []) (sc : ScoringSystem) :
    ∃ x x' jobs graft, Regrafted m ((body.under top).connectAll (.mrn m) links)
      ((body.under top').drawAll (concluding .policy m sc links ++ Setting.hangingPolicy m !links.isEmpty))
        x x' jobs graft := by
  by_cases hn : links = []
  · subst hn
    exact ⟨top, top', body.jobs, none, rfl, congrArg (top' :: ·) (List.append_nil _).symm, ht, ht', hc',
      fun j hj => ⟨apart_of_not_has hbody j hj, apart_of_not_has hroot j hj⟩, by simp, by simp [hc]⟩
  · have hne : links.isEmpty = false := List.isEmpty_eq_false_iff.mpr hn
    have hacq : ∀ {i}, (body.acquaint (.mrn m) (newcomers [] links)).Has i ↔ body.Has i := acquaint_has
    have hdirect : (body.under top).connectAll (.mrn m) links =
        (body.acquaint (.mrn m) (newcomers [] links)).under (top.above (newcomers [] links)) := by
      rw [← ht.1]
      refine connectAll_top ?_ hc fun l hmem => ?_
      · rwa [ht.1]
      · rw [ht.1]
        exact (hl l hmem).1
    have hassigned : ((body.under top').raise (.mrn m) .policy sc [m] links).connect top'.identity (.mrn m) {} = _ :=
      raise_under (by rwa [ht'.1]) hbody (by rwa [ht'.1]) hc' (by rwa [ht'.1]) .policy sc [m] {}
    rw [ht'.1] at hassigned
    have hlog : (body.under top').drawAll (concluding .policy m sc links ++ Setting.hangingPolicy m !links.isEmpty) =
        ((body.under top').raise (.mrn m) .policy sc [m] links).connect assetRoot (.mrn m) {} := by
      simp [concluding, Setting.hangingPolicy, hanging, hne, Edit.draw]
    rw [hdirect, hlog, hassigned]
    refine ⟨_, _, _, some _, rfl, rfl, ht, ht', rfl, fun j hj => ⟨?_, ?_⟩, ?_, ?_⟩
    · exact apart_of_not_has (hacq.not.mpr hbody) j hj
    · exact apart_of_not_has (hacq.not.mpr hroot) j hj
    · rintro j ⟨rfl⟩
      exact ⟨rfl, rfl, rfl⟩
    · simp [Job.above, newcomers_nil_eq_nil, hn]

theorem Regrafted.queryJobs (h : Regrafted m g g' top top' jobs graft) : g.queryJobs = g'.queryJobs := by
  have hgraft : graft.toList.filter (·.type.isQuery) = [] := by
    rw [List.filter_eq_nil_iff]
    intro j hj
    rw [(h.policy j (Option.mem_toList.mp hj)).2.1]
    exact Bool.false_ne_true
  have htop : top.type.isQuery = false := by rw [h.root.2]; rfl
  have htop' : top'.type.isQuery = false := by rw [h.root'.2]; rfl
  rw [Graph.queryJobs, Graph.queryJobs, h.direct, h.assigned, List.filter_cons_of_neg (by simp [htop]),
    List.filter_cons_of_neg (by simp [htop']), List.filter_append, hgraft, List.append_nil]

theorem Regrafted.shareMrns (h : Regrafted m g g' top top' jobs graft) :
    Regrafted m g.shareMrns g'.shareMrns top top' (jobs.map (.sharing g.siblingMrns)) graft where
  direct := by
    rw [shareMrns_eq, h.direct, List.map_cons, Job.sharing_of_not_isQuery (by rw [h.root.2]; rfl)]
  assigned := by
    have hgraft : graft.toList.map (Job.sharing g.siblingMrns) = graft.toList.map id := by
      apply List.map_congr_left
      intro j hj
      exact Job.sharing_of_not_isQuery (by rw [(h.policy j (Option.mem_toList.mp hj)).2.1]; rfl)
    rw [shareMrns_eq, h.assigned, ← siblingMrns_congr h.queryJobs, List.map_cons, List.map_append, hgraft, List.map_id,
      Job.sharing_of_not_isQuery (by rw [h.root'.2]; rfl)]
  root := h.root
  root' := h.root'
  hung := h.hung
  apart := by
    intro x hx
    obtain ⟨j, hj, rfl⟩ := List.mem_map.mp hx
    obtain ⟨ms, hms⟩ := j.sharing_mrns g.siblingMrns
    rw [hms]
    exact h.apart j hj
  policy := h.policy
  absent := h.absent

end Graph

namespace Setting

variable {s : Setting} {p : Policy} {asset : Mrn} {links : List Link} {log short : List Edit}

def closing (s : Setting) (p : Policy) (links : List Link) : List Edit :=
  concluding .policy p.mrn (s.policyScoring p) links ++ hangingPolicy p.mrn !links.isEmpty

theorem closing_weighed (m : Mrn) : ∀ e ∈ s.closing p links, e.weighed m = none := by
  intro e he
  rcases List.mem_append.mp he with he | he
  · rcases mem_concluding.mp he with ⟨-, rfl⟩ | rfl <;> rfl
  · obtain ⟨-, rfl⟩ := mem_hangingPolicy.mp he
    rfl

namespace Descent

variable (h : s.Descent p asset links log short)
include h

theorem draftAsset_eq (hp : s.bundle.policies.find? p.mrn = some p) :
    ∃ events, s.draftAsset asset [p.mrn] [] =
      { (Draft.start assetRoot .unspecified asset).replay (short ++ s.closing p links) with events := events } := by
  obtain ⟨events, hnil⟩ := draftAsset_nil (s := s) asset [p.mrn]
  have hassign := assign_eq (policy_eq_conclude asset hp List.not_mem_nil rfl h.assigned)
  rw [List.append_assoc] at hassign
  exact ⟨events, by rw [hnil, together, List.foldl_cons, List.foldl_nil, hassign, closing]⟩

theorem regrafted (hp : s.bundle.policies.find? p.mrn = some p) (hr : .mrn p.mrn ≠ assetRoot) :
    ∃ top top' jobs graft,
      Graph.Regrafted p.mrn (s.draftPolicy p).graph (s.draftAsset asset [p.mrn] []).graph top top' jobs graft := by
  obtain ⟨events, hassigned⟩ := h.draftAsset_eq hp
  have hbody : ∀ {top : Job}, top.identity = .mrn p.mrn ∨ top.identity = assetRoot →
      (({} : Graph).under top).drawAll log = (({} : Graph).drawAll log).under top := by
    intro top ht
    apply Graph.drawAll_under
    rcases ht with ht | ht
    · exact fun e he => ht ▸ (h.avoids e he).1
    · exact fun e he => ht ▸ (h.avoids e he).2
  have hdirect : (s.draftPolicy p).graph = ((({} : Graph).drawAll log).under
      { identity := .mrn p.mrn, type := .root, scoring := p.scoring, mrns := [p.mrn] }).connectAll (.mrn p.mrn) links := by
    rw [← hbody (.inl rfl), ← start_graph, ← Draft.replay_graph, draftPolicy, h.direct]
  have hgraph : (s.draftAsset asset [p.mrn] []).graph = ((({} : Graph).drawAll log).under
      { identity := assetRoot, type := .root, scoring := .unspecified, mrns := [asset] }).drawAll (s.closing p links) := by
    rw [hassigned, ← hbody (.inr rfl), ← start_graph, ← h.thins.drawAll_eq, ← Graph.drawAll_append, ← Draft.replay_graph]
  rw [hdirect, hgraph]
  refine Graph.exists_regrafted hr ?_ ?_ h.apart ⟨rfl, rfl⟩ rfl ⟨rfl, rfl⟩ rfl (s.policyScoring p)
  · exact Graph.not_has_of_avoids List.nodup_nil Graph.not_has_empty fun e he => (h.avoids e he).1
  · exact Graph.not_has_of_avoids List.nodup_nil Graph.not_has_empty fun e he => (h.avoids e he).2

theorem magnitudes_eq (hp : s.bundle.policies.find? p.mrn = some p) :
    (s.draftPolicy p).magnitudes = (s.draftAsset asset [p.mrn] []).magnitudes := by
  obtain ⟨events, hassigned⟩ := h.draftAsset_eq hp
  have hdirect : (s.draftPolicy p).magnitudes = ((Draft.start (.mrn p.mrn) p.scoring p.mrn).replay log).magnitudes := by
    rw [draftPolicy, h.direct]
  rw [hdirect, hassigned, Draft.replay_append, Draft.replay_magnitudes_of_forall fun e he m => closing_weighed m e he]
  exact h.thins.magnitudes_eq rfl

end Descent

end Setting

/-- A policy resolved by itself, and as what is assigned to an asset: the same code, filters, magnitudes
and consumers, and jobs that differ at the roots and at the policy. -/
structure Resolution.Regrafted (m : Mrn) (res res' : Resolution) : Prop where
  roots : res.root = .mrn m ∧ res'.root = assetRoot
  execution : res.execution = res'.execution
  filters : res.filters = res'.filters
  magnitudes : res.magnitudes = res'.magnitudes
  consumers : res.consumers = res'.consumers
  jobs : ∃ top top' jobs graft, Graph.Regrafted m res.graph res'.graph top top' jobs graft

namespace Bundle

variable {b : Bundle} {m : Mrn}

theorem draft_assigned (hm : b.isDeclared m = true) (asset : Mrn) (filters : PredicateSet) (now : Timestamp) :
    b.draft ⟨.asset asset [m] [], filters, now⟩ =
      .ok (assetRoot, (b.setting ⟨.policy m, filters, now⟩).draftAsset asset [m] []) := by
  simp only [draft, List.filter_cons, hm, ↓reduceIte, List.filter_nil]
  rfl

theorem resolve_direct (hb : b.Distinct) (hm : b.isDeclared m = true) (asset : Mrn) (filters : PredicateSet)
    (now : Timestamp) :
    (∃ policy, b.resolve ⟨.policy m, filters, now⟩ = .error (.scopeMismatch policy filters.entries) ∧
      b.resolve ⟨.asset asset [m] [], filters, now⟩ = .error (.scopeMismatch policy filters.entries)) ∨
    ∃ res res', b.resolve ⟨.policy m, filters, now⟩ = .ok res ∧
      b.resolve ⟨.asset asset [m] [], filters, now⟩ = .ok res' ∧ res.Regrafted m res' := by
  obtain ⟨p, hp⟩ := Option.isSome_iff_exists.mp hm
  obtain rfl := Keyed.key_of_find? hp
  have hr := hb.ne_assetRoot (Bundle.mem_names_policy.mpr ⟨p, hp⟩)
  obtain ⟨links, log, short, hd⟩ := Setting.exists_descent (hb.proper ⟨.policy p.mrn, filters, now⟩) hp asset
  by_cases hc : (b.scope [p.mrn]).covers filters = true
  · refine .inr ⟨_, _, resolve_of_policy rfl hp hc, resolve_eq_ok.mpr ⟨_, _, _, if_pos hc, draft_assigned hm .., rfl⟩, ?_⟩
    obtain ⟨top, top', jobs, graft, hg⟩ := hd.regrafted hp hr
    exact {
      roots := ⟨rfl, rfl⟩
      execution := congrArg b.executionFrom (Graph.starts_congr hg.queryJobs)
      filters := rfl
      magnitudes := hd.magnitudes_eq hp
      consumers := Graph.consumers_congr hg.queryJobs
      jobs := ⟨_, _, _, _, hg.shareMrns⟩ }
  · refine .inl ⟨(b.scope [p.mrn]).declared.entries, resolve_of_error ?_, resolve_of_error (if_neg hc)⟩
    exact (if_pos hm).trans (if_neg hc)

end Bundle

theorem mutualBundle_direct : mutualBundle.Distinct ∧ mutualBundle.isDeclared "p" = true ∧ ∃ res res',
    mutualBundle.resolve (policyRequest "p") = .ok res ∧ mutualBundle.resolve (assetRequest ["p"]) = .ok res' ∧
      res.Regrafted "p" res' := by
  have hb : mutualBundle.Distinct := by decide +kernel
  have hm : mutualBundle.isDeclared "p" = true := by decide +kernel
  have hs : (mutualBundle.scope ["p"]).covers Keyed.empty = true := by decide +kernel
  rcases Bundle.resolve_direct hb hm "a" Keyed.empty 1700000000 with ⟨policy, -, h⟩ | ⟨res, res', h, h', hg⟩
  · obtain ⟨res, hres⟩ := Bundle.exists_resolution (Bundle.checkScope_assetRequest hs)
    cases h.symm.trans hres
  · exact ⟨hb, hm, res, res', h, h', hg⟩

end Compliance
