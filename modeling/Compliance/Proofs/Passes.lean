import Compliance.Proofs.Echoes

namespace Compliance

namespace Setting

section

variable (s : Setting) (root : Identity) (roots : List Mrn) (d₀ : Draft) (path : List Mrn) (p : Policy)

structure Taken (r : Reference) (f : Draft → Option Link × Draft) (log : List Edit) (d : Draft) (link : Option Link)
    (log' : List Edit) : Prop where
  eq : f d = (link, d.replay log')
  told : s.Told root roots d₀ path (log ++ log') (d.replay log')
  own : ∀ e ∈ log', s.Lawful [p.mrn] (d.replay log').policies (d.replay log').riskFactors e
  sketch : Sketch root d.graph (link.toList.map Prod.fst) log'
  gives : link = s.referenceLink (d.replay log').policies p r
  followed : s.Followed path (d.replay log').policies (log ++ log') p r
  echo : s.Echo root path f d link log'

structure Pass (refs : List Reference) (f : Draft → List Link × Draft) (log : List Edit) (d : Draft) (links : List Link)
    (log' : List Edit) : Prop where
  eq : f d = (links, d.replay log')
  told : s.Told root roots d₀ path (log ++ log') (d.replay log')
  own : ∀ e ∈ log', s.Lawful [p.mrn] (d.replay log').policies (d.replay log').riskFactors e
  sketch : Sketch root d.graph (links.map Prod.fst) log'
  gives : links = refs.filterMap (s.referenceLink (d.replay log').policies p)
  followed : ∀ r ∈ refs, s.Followed path (d.replay log').policies (log ++ log') p r
  echo : s.Echo root path f d links log'

end

variable {s : Setting} {root : Identity} {roots path : List Mrn} {log log' : List Edit} {p : Policy}
  {k : RiskFactor} {d d₀ : Draft} {m : Mrn}

theorem referenceLink_stable {d' : Draft} {r : Reference} (h : s.Told root roots d₀ path log' d')
    (hf : s.Followed path d.policies log p r) (hg : d.policies <:+ d'.policies) :
    s.referenceLink d'.policies p r = s.referenceLink d.policies p r := by
  cases r with
  | query role r => rfl
  | riskFactor m => rfl
  | policy r =>
    simp only [referenceLink]
    by_cases ha : s.overrides.effective p.mrn r.mrn r.action = .deactivate
    · simp [ha]
    · have hiff : (r.mrn, true) ∈ d'.policies ↔ (r.mrn, true) ∈ d.policies := by
        constructor
        · intro hm
          obtain ⟨q, hq⟩ := h.settled_mem hm
          rcases hf ha q hq with hk | hk
          · obtain ⟨⟨n, made⟩, hx, rfl⟩ := List.mem_map.mp hk
            obtain rfl := eq_of_mem_ledger h.once hm (hg.subset hx)
            exact hx
          · exact absurd (List.mem_map_of_mem hm) (h.apart _ hk)
        · exact fun hm => hg.subset hm
      simp only [hiff]

theorem Pass.nil {step : Reference → Draft → Option Link × Draft} (h : s.Told root roots d₀ path log d) :
    Pass s root roots d₀ path p [] (gather step []) log d [] [] where
  eq := rfl
  told := by simpa using h
  own := by simp
  sketch := .nil
  gives := rfl
  followed := by simp
  echo := .same (by simp) fun _ _ _ _ _ => rfl

theorem Taken.cons {step : Reference → Draft → Option Link × Draft} {r : Reference} {rest : List Reference}
    {link : Option Link} {links : List Link} {log'' : List Edit} (hu : d.graph.Unique)
    (h : Taken s root roots d₀ path p r (step r) log d link log')
    (h' : Pass s root roots d₀ path p rest (gather step rest) (log ++ log') (d.replay log') links log'') :
    Pass s root roots d₀ path p (r :: rest) (gather step (r :: rest)) log d (link.toList ++ links) (log' ++ log'') := by
  have hps := Draft.ledger_suffix (d.replay log') log'' .policy
  have hrs := Draft.ledger_suffix (d.replay log') log'' .riskFactor
  rw [← Draft.replay_append] at hps hrs
  have htold := h'.told
  rw [← Draft.replay_append, List.append_assoc] at htold
  refine ⟨?_, htold, ?_, ?_, ?_, ?_, h.echo.cons h'.echo⟩
  · simp only [gather, h.eq, h'.eq, Draft.replay_append]
  · intro e he
    rcases List.mem_append.mp he with he | he
    · exact (h.own e he).mono hps hrs.subset
    · rw [Draft.replay_append]
      exact h'.own e he
  · rw [List.map_append]
    have hs := h'.sketch
    rw [Draft.replay_graph] at hs
    exact h.sketch.append hu hs
  · -- its link was read from the ledger of its time, and later entries do not change it
    have hstable := referenceLink_stable htold h.followed hps
    have hrest := h'.gives
    rw [← Draft.replay_append] at hrest
    rw [h.gives, hrest, ← hstable, List.filterMap_cons]
    cases s.referenceLink (d.replay (log' ++ log'')).policies p r <;> rfl
  · intro x hx
    rw [← List.append_assoc]
    rcases List.mem_cons.mp hx with rfl | hx
    · exact h.followed.mono hps.subset (List.subset_append_left ..)
    · rw [Draft.replay_append]
      exact h'.followed x hx

theorem gather_pass (hb : Blank root d₀) {step : Reference → Draft → Option Link × Draft} {refs : List Reference}
    (hstep : ∀ r ∈ refs, ∀ log d, s.Told root roots d₀ path log d → ∃ link log',
      Taken s root roots d₀ path p r (step r) log d link log')
    (h : s.Told root roots d₀ path log d) : ∃ links log',
      Pass s root roots d₀ path p refs (gather step refs) log d links log' := by
  induction refs generalizing log d with
  | nil => exact ⟨[], [], .nil h⟩
  | cons r rest ih =>
    obtain ⟨link, log', hr⟩ := hstep r List.mem_cons_self log d h
    obtain ⟨links, log'', hrest⟩ := ih (fun x hx => hstep x (List.mem_cons_of_mem _ hx)) hr.told
    exact ⟨_, _, hr.cons (h.unique hb) hrest⟩

theorem entries_of_isNote {e : Edit} (h : e.isNote = true) (t : JobType) : e.entries t = [] := by
  cases e with
  | note x => cases t <;> rfl
  | _ => cases h

theorem Lawful.of_isNote {done risks : List (Mrn × Bool)} {e : Edit} (h : e.isNote = true) :
    s.Lawful roots done risks e := by
  cases e with
  | note x => exact .note x
  | _ => cases h

theorem Told.note (h : s.Told root roots d₀ path log d) (x : Event) :
    s.Told root roots d₀ path (log ++ [.note x]) (d.replay [.note x]) := by
  apply h.extend
  · intro e he
    rw [List.mem_singleton.mp he]
    exact .inl (.note x)
  · intro e he
    rw [List.mem_singleton.mp he]
    rfl
  · intro e he
    rw [List.mem_singleton.mp he]
    rfl

theorem note_sketch {g : Graph} (x : Event) : Sketch root g [] [.note x] :=
  Sketch.nil.idle (fun _ => rfl) fun _ => trivial

theorem note_echo {β : Type} {f : Draft → β × Draft} {out : β} (x : Event)
    (hf : ∀ seen t d', s.Earlier root path seen t → Beside t d d' → f d' = (out, d'.note x)) :
    s.Echo root path f d out [.note x] :=
  .same (fun _ he ty => entries_of_isNote (List.mem_singleton.mp he ▸ rfl) ty) hf

variable {r : Reference} {f : Draft → Option Link × Draft}

theorem note_taken (h : s.Told root roots d₀ path log d) (x : Event) (hf : f d = (none, d.note x))
    (hl : s.referenceLink d.policies p r = none) (hr : s.Followed path d.policies log p r)
    (he : ∀ seen t d', s.Earlier root path seen t → Beside t d d' → f d' = (none, d'.note x)) :
    Taken s root roots d₀ path p r f log d none [.note x] where
  eq := hf
  told := h.note x
  own := by
    intro e hm
    rw [List.mem_singleton.mp hm]
    exact .note x
  sketch := note_sketch x
  gives := hl.symm
  followed := hr.mono (List.Subset.refl _) (List.subset_append_left ..)
  echo := note_echo x he

theorem idle_taken {link : Option Link} (h : s.Told root roots d₀ path log d) (hf : f d = (link, d))
    (hs : Sketch root d.graph (link.toList.map Prod.fst) []) (hl : link = s.referenceLink d.policies p r)
    (hr : s.Followed path d.policies log p r)
    (he : ∀ seen t d', s.Earlier root path seen t → Beside t d d' → f d' = (link, d')) :
    Taken s root roots d₀ path p r f log d link [] where
  eq := hf
  told := by simpa using h
  own := by simp
  sketch := hs
  gives := hl
  followed := by simpa using hr
  echo := .same (by simp) he

theorem query_taken (h : s.Proper) (hr : s.bundle.Apart root) (hb : Blank root d₀) (hw : s.Walked roots p)
    {role : Role} {r : QueryRef} (hmem : .query role r ∈ p.references s.asset s.now)
    (ht : s.Told root roots d₀ path log d) : ∃ link log',
      Taken s root roots d₀ path p (.query role r) (s.queryRef role p.mrn r) log d link log' := by
  obtain ⟨log', hv⟩ := queryRef_visit h hr role p.mrn r
  obtain ⟨g, hg, hmem⟩ := Policy.mem_references_query.mp hmem
  have hentries : ∀ e ∈ log', ∀ t, e.entries t = [] := by
    intro e he t
    rcases hv.sound e he with hn | ⟨q, -, hd⟩
    · exact entries_of_isNote hn t
    · exact hd.entries t
  have hlawful : ∀ {roots done risks}, s.Walked roots p → ∀ e ∈ log', s.Lawful roots done risks e := by
    intro roots done risks hw e he
    rcases hv.sound e he with hn | ⟨q, ha, hd⟩
    · exact .of_isNote hn
    · exact .query (.policy hw hg hmem ha) hd
  refine ⟨_, log', hv.eq d, ?_, hlawful (.root List.mem_cons_self hw.declared), hv.sketch _ (ht.unique hb), rfl, ?_, ?_⟩
  · exact ht.extend (fun e he => .inl (hlawful hw e he)) (fun e he => hentries e he _) fun e he => hentries e he _
  · exact fun e he => List.mem_append_right _ (hv.complete e he)
  · exact .same hentries fun _ _ d' _ _ => hv.eq d'

theorem Told.settle_riskFactor (h : s.Told root roots d₀ path log d) {f : RiskFactorRef} {made : Bool}
    (hw : s.Walked roots p) (hf : f ∈ p.riskReferences s.asset s.now)
    (hk : s.bundle.riskFactors.find? f.mrn = some k) (hmade : made = true ↔ s.Raised k)
    (hl : ∀ e ∈ log', s.Lawful roots d.policies ((f.mrn, made) :: d.riskFactors) e)
    (hn : ∀ e ∈ log', ∀ t, e.entries t = []) (hx : s.Explored log' k) :
    s.Told root roots d₀ path (log ++ (log' ++ [.settle .riskFactor f.mrn made]))
      ((d.replay log').settle .riskFactor f.mrn made) := by
  have hps : ((d.replay log').settle .riskFactor f.mrn made).policies = d.policies :=
    Draft.replay_ledger_of_forall (t := .policy) fun e he => hn e he _
  have hrs : ((d.replay log').settle .riskFactor f.mrn made).riskFactors = (f.mrn, made) :: d.riskFactors :=
    congrArg _ (Draft.replay_ledger_of_forall (t := .riskFactor) fun e he => hn e he _)
  have hsub : log ⊆ log ++ (log' ++ [.settle .riskFactor f.mrn made]) := List.subset_append_left ..
  have hsub' : log' ⊆ log ++ (log' ++ [.settle .riskFactor f.mrn made]) :=
    fun e he => List.mem_append_right _ (List.mem_append_left _ he)
  refine ⟨?_, ?_, ?_, ?_, ?_, ?_, ?_⟩
  · simp only [Draft.replay_append, ← h.eq]
    rfl
  · rw [hps, hrs]
    intro e he
    rcases List.mem_append.mp he with he | he
    · exact (h.sound e he).imp (fun hl => hl.mono List.suffix_rfl (List.subset_cons_self ..)) id
    · rcases List.mem_append.mp he with he | he
      · exact .inl (hl e he)
      · rw [List.mem_singleton.mp he]
        exact .inl (.settleRiskFactor made hw hf hk)
  · rw [hps]
    exact h.once
  · rw [hps]
    exact h.apart
  · rw [hps]
    intro m made tail ht
    obtain ⟨p, hp, hw, hm, hs⟩ := h.settled m made tail ht
    exact ⟨p, hp, hw, hm, fun hmade => hsub (hs hmade)⟩
  · rw [hps]
    intro m hm p hp r hr
    exact (h.followed m hm p hp r hr).mono (List.Subset.refl _) hsub
  · rw [hrs]
    intro n made' hm
    rcases List.mem_cons.mp hm with he | hm
    · obtain ⟨rfl, rfl⟩ := Prod.mk.inj he
      exact ⟨k, hk, hmade, by simp, hx.mono hsub'⟩
    · obtain ⟨k, hk, hmade, hs, he⟩ := h.risks n made' hm
      exact ⟨k, hk, hmade, hsub hs, he.mono hsub⟩

theorem referenceLink_riskFactor {done : List (Mrn × Bool)} (hk : s.bundle.riskFactors.find? m = some k) {made : Bool}
    (hmade : made = true ↔ s.Raised k) :
    s.referenceLink done p (.riskFactor m) = if made then some (.mrn m, {}) else none := by
  have hiff : (∃ k, s.bundle.riskFactors.find? m = some k ∧ s.Raised k) ↔ made = true := by
    rw [hmade]
    constructor
    · rintro ⟨k', hk', hr⟩
      rwa [Option.some.inj (hk.symm.trans hk')]
    · exact fun hr => ⟨k, hk, hr⟩
  simp only [referenceLink, hiff]

theorem Probed.makes {e : Edit} {i : Identity} {t : JobType} {sc : ScoringSystem} (h : s.Probed k e)
    (hm : e.Makes i t sc) : ∃ role : Role, ∃ q ∈ s.bundle.queries.entries, i = role.identity q := by
  obtain ⟨r, -, q, ha, hd⟩ := h
  obtain ⟨q, hq, hi, -⟩ := hd.makes ha.mem hm
  exact ⟨_, q, hq, hi⟩

theorem Probed.entries {e : Edit} (h : s.Probed k e) (t : JobType) : e.entries t = [] := by
  obtain ⟨r, -, q, -, hd⟩ := h
  exact hd.entries t

theorem raising_entries {e : Edit} (h : e ∈ s.raising k) (t : JobType) : e.entries t = [] := by
  simp only [raising, List.mem_cons, List.not_mem_nil, or_false] at h
  rcases h with rfl | rfl <;> cases t <;> rfl

structure Probe (s : Setting) (root : Identity) (k : RiskFactor) (made : Bool) (log : List Edit) : Prop where
  eq : ∀ d, s.riskFactorJob k d = (made, d.replay log)
  raised : made = true ↔ s.Raised k
  sound : ∀ e ∈ log, e.isNote = true ∨ s.Active k ∧ s.Probed k e ∨ s.Raised k ∧ e ∈ s.raising k
  explored : s.Explored log k
  sketch : ∀ g : Graph, g.Unique → ¬g.Has (.mrn k.mrn) → Sketch root g (if made then [.mrn k.mrn] else []) log

theorem Probe.entries {made : Bool} (h : Probe s root k made log) : ∀ e ∈ log, ∀ t, e.entries t = [] := by
  intro e he t
  rcases h.sound e he with hn | ⟨-, hp⟩ | ⟨-, hp⟩
  · exact entries_of_isNote hn t
  · exact hp.entries t
  · exact raising_entries hp t

theorem Probe.lawful {made : Bool} {done risks : List (Mrn × Bool)} {f : RiskFactorRef} (h : Probe s root k made log)
    (hw : s.Walked roots p) (hf : f ∈ p.riskReferences s.asset s.now)
    (hk : s.bundle.riskFactors.find? f.mrn = some k) :
    ∀ e ∈ log, s.Lawful roots done ((f.mrn, made) :: risks) e := by
  intro e he
  rcases h.sound e he with hn | ⟨ha, r, hr, q, hq, hp⟩ | ⟨hraised, hp⟩
  · exact .of_isNote hn
  · exact .query (.riskFactor hw hf hk ha hr hq) hp
  · refine .raising hw hf hk hraised ?_ hp
    rw [Keyed.key_of_find? hk, h.raised.mpr hraised]
    exact List.mem_cons_self

theorem exists_probe (h : s.Proper) (hr : s.bundle.Apart root) (hk : s.bundle.riskFactors.find? k.mrn = some k) :
    ∃ made log, Probe s root k made log := by
  have hname : (Kind.riskFactor, k.mrn) ∈ s.bundle.names := Bundle.mem_names_riskFactor.mpr ⟨k, hk⟩
  obtain ⟨log, hv⟩ := riskChecks_visit h hr hname
  have heq := riskFactorJob_eq h hname hv
  by_cases ha : s.Active k
  · by_cases hl : s.riskLinks k = []
    · refine ⟨false, log, fun d => (heq d).2.1 ha hl, by simp [Raised, hl], ?_, ?_, ?_⟩
      · exact fun e he => (hv.sound e he).imp id fun hp => .inl ⟨ha, hp⟩
      · exact fun _ => ⟨hv.complete, fun hne => absurd hl hne⟩
      · intro g hu _
        simpa [hl] using hv.sketch g hu
    · refine ⟨true, log ++ s.raising k, fun d => (heq d).1 ⟨ha, hl⟩, by simp [Raised, ha, hl], ?_, ?_, ?_⟩
      · intro e he
        rcases List.mem_append.mp he with he | he
        · exact (hv.sound e he).imp id fun hp => .inl ⟨ha, hp⟩
        · exact .inr (.inr ⟨⟨ha, hl⟩, he⟩)
      · intro _
        exact ⟨fun e he => List.mem_append_left _ (hv.complete e he), fun _ e he => List.mem_append_right _ he⟩
      · intro g hu hfresh
        have hroot : .mrn k.mrn ≠ root := hr.ne_mrn hname (by simp)
        -- the checks draw queries, and no query goes by the name of a risk factor
        have hnew : ¬(g.drawAll log).Has (.mrn k.mrn) := by
          rw [Graph.drawAll_has hu]
          rintro (hg | ⟨e, he, t, sc, hm⟩)
          · exact hfresh hg
          · rcases hv.sound e he with hnote | hp
            · cases e <;> simp [Edit.isNote] at hnote
              exact hm
            · obtain ⟨role, q, hq, hi⟩ := hp.makes hm
              rw [← Role.mrn_of_identity hi.symm] at hname
              exact absurd (h.distinct.kind_eq hname (Bundle.query_named hq)) (by simp)
        have hs := (hv.sketch _ hu).structural .riskFactor .unspecified hu (by simp) hl hroot hnew
        have hs' := hs.idle (e := .weigh k.mrn ((s.overrides.magnitude k.mrn).getD k.magnitude)) (fun _ => rfl)
          fun _ => trivial
        simpa [raising] using hs'
  · exact ⟨false, [], fun d => (heq d).2.2 ha, by simp [Raised, ha], by simp, fun hact => absurd hact ha, fun _ _ _ => .nil⟩

theorem Earlier.risk {seen : List Edit} {t : Draft} {made : Bool} (h : s.Earlier root path seen t)
    (hm : t.riskFactors.lookup m = some made) :
    ∃ k, s.bundle.riskFactors.find? m = some k ∧ (made = true ↔ s.Raised k) ∧ s.Explored seen k := by
  obtain ⟨roots, d₀, htold⟩ := h.told
  obtain ⟨k, hk, hmade, -, hx⟩ := htold.risks m made (mem_of_lookup hm)
  exact ⟨k, hk, hmade, hx⟩

theorem Earlier.risk_eq {seen : List Edit} {t : Draft} {made made' : Bool} (h : s.Earlier root path seen t)
    (hk : s.bundle.riskFactors.find? m = some k) (hmade : made = true ↔ s.Raised k)
    (hm : t.riskFactors.lookup m = some made') : made' = made ∧ s.Explored seen k := by
  obtain ⟨k', hk', hmade', hx⟩ := h.risk hm
  obtain rfl := Option.some.inj (hk.symm.trans hk')
  exact ⟨Bool.eq_iff_iff.mpr (hmade'.trans hmade.symm), hx⟩

theorem Probe.mem_settle_entries {made : Bool} (h : Probe s root k made log) {e : Edit} {ty : JobType}
    (he : e ∈ log ++ [.settle .riskFactor m made]) {x : Mrn × Bool} (hx : x ∈ e.entries ty) :
    ty = .riskFactor ∧ x = (m, made) := by
  rcases List.mem_append.mp he with he | he
  · rw [h.entries e he] at hx
    cases hx
  · rw [List.mem_singleton.mp he] at hx
    cases ty <;> simp only [Edit.entries, List.not_mem_nil] at hx
    exact ⟨rfl, List.mem_singleton.mp hx⟩

theorem riskFactorRef_echo {made : Bool} (hk : s.bundle.riskFactors.find? m = some k)
    (hp : Probe s root k made log) (referrer : Mrn) (hn : d.riskFactors.lookup m = none) :
    s.Echo root path (s.riskFactorRef referrer m) d (if made then some (.mrn m, {}) else none)
      (log ++ [.settle .riskFactor m made]) := by
  intro seen t d' ht hb _
  cases hm : t.riskFactors.lookup m with
  | some made' =>
    obtain ⟨rfl, hx⟩ := ht.risk_eq hk hp.raised hm
    refine ⟨[], riskFactorRef_settled (hb.lookup_of_earlier .riskFactor hm), .none ?_, hb.alone ?_⟩
    · intro e he
      rcases List.mem_append.mp he with he | he
      · rcases hp.sound e he with hnote | ⟨ha, hpr⟩ | ⟨hr, hpr⟩
        · cases e <;> simp [Edit.isNote] at hnote
          exact .inr rfl
        · exact .inl ((hx ha).1 e hpr)
        · exact .inl ((hx hr.1).2 hr.2 e hpr)
      · rw [List.mem_singleton.mp he]
        exact .inr rfl
    · intro ty e he x hxe
      obtain ⟨rfl, rfl⟩ := hp.mem_settle_entries he hxe
      exact List.mem_map_of_mem (mem_of_lookup hm)
  | none =>
    refine ⟨_, ?_, .refl _, hb.same ?_⟩
    · rw [riskFactorRef_first ((hb.lookup_of_fresh .riskFactor hm).trans hn) hk, hp.eq d', Draft.replay_append]
      rfl
    · intro ty e he x hxe
      obtain ⟨rfl, rfl⟩ := hp.mem_settle_entries he hxe
      exact not_mem_of_lookup hm

section

variable (ht : s.Told root roots d₀ path log d)
include ht

theorem riskFactor_taken_of_settled {made : Bool} (hr : s.bundle.Apart root) (hb : Blank root d₀)
    (hl : d.riskFactors.lookup m = some made) :
    Taken s root roots d₀ path p (.riskFactor m) (s.riskFactorRef p.mrn m) log d
      (if made then some (.mrn m, {}) else none) [] := by
  obtain ⟨k, hk, hmade, hs, hx⟩ := ht.risks m made (mem_of_lookup hl)
  refine idle_taken ht (riskFactorRef_settled hl) ?_ (referenceLink_riskFactor hk hmade).symm ?_ ?_
  · cases made with
    | false => exact .nil
    | true =>
      exact .known (ht.has_riskFactor hb (mem_of_lookup hl))
        (hr.ne_mrn (Bundle.mem_names_riskFactor.mpr ⟨k, hk⟩) (by simp))
  · intro k' hk'
    obtain rfl := Option.some.inj (hk.symm.trans hk')
    exact ⟨⟨made, hs⟩, hx⟩
  · intro seen t d' hearlier hbeside
    cases hm : t.riskFactors.lookup m with
    | none => exact riskFactorRef_settled ((hbeside.lookup_of_fresh .riskFactor hm).trans hl)
    | some made' =>
      obtain ⟨rfl, -⟩ := hearlier.risk_eq hk hmade hm
      exact riskFactorRef_settled (hbeside.lookup_of_earlier .riskFactor hm)

theorem riskFactor_taken_of_undeclared (hl : d.riskFactors.lookup m = none)
    (hk : s.bundle.riskFactors.find? m = none) :
    Taken s root roots d₀ path p (.riskFactor m) (s.riskFactorRef p.mrn m) log d none
      [.note (.undeclaredRiskFactor p.mrn m)] := by
  refine note_taken ht _ (riskFactorRef_undeclared hl hk) (by simp [referenceLink, hk]) ?_ ?_
  · intro k hk'
    simp [hk] at hk'
  · intro seen t d' hearlier hbeside
    cases hm : t.riskFactors.lookup m with
    | none => exact riskFactorRef_undeclared ((hbeside.lookup_of_fresh .riskFactor hm).trans hl) hk
    | some made =>
      obtain ⟨k, hk', -⟩ := hearlier.risk hm
      simp [hk] at hk'

theorem riskFactor_taken_first (h : s.Proper) (hr : s.bundle.Apart root) (hb : Blank root d₀) (hw : s.Walked roots p)
    {f : RiskFactorRef} (hf : f ∈ p.riskReferences s.asset s.now) (hl : d.riskFactors.lookup f.mrn = none)
    (hk : s.bundle.riskFactors.find? f.mrn = some k) : ∃ link log',
      Taken s root roots d₀ path p (.riskFactor f.mrn) (s.riskFactorRef p.mrn f.mrn) log d link log' := by
  have hkey : k.mrn = f.mrn := Keyed.key_of_find? hk
  have hk' : s.bundle.riskFactors.find? k.mrn = some k := by rw [hkey, hk]
  have hname : (Kind.riskFactor, k.mrn) ∈ s.bundle.names := Bundle.mem_names_riskFactor.mpr ⟨k, hk'⟩
  obtain ⟨made, log', hp⟩ := exists_probe h hr hk'
  have hlawful : ∀ {roots : List Mrn} {done risks : List (Mrn × Bool)}, s.Walked roots p →
      ∀ e ∈ log', s.Lawful roots done ((f.mrn, made) :: risks) e := fun hw => hp.lawful hw hf hk
  have htold := ht.settle_riskFactor hw hf hk hp.raised (hlawful hw) hp.entries hp.explored
  have heq : d.replay (log' ++ [.settle .riskFactor f.mrn made]) = (d.replay log').settle .riskFactor f.mrn made := by
    rw [Draft.replay_append]
    rfl
  have hrs : ((d.replay log').settle .riskFactor f.mrn made).riskFactors = (f.mrn, made) :: d.riskFactors :=
    congrArg _ (Draft.replay_ledger_of_forall (t := .riskFactor) fun e he => hp.entries e he _)
  have hlinks : (if made = true then some (Identity.mrn f.mrn, ({} : Impact)) else none).toList.map Prod.fst =
      if made then [.mrn k.mrn] else [] := by
    rw [hkey]
    cases made <;> rfl
  have hfresh : ¬d.graph.Has (.mrn k.mrn) :=
    ht.fresh hb h.distinct hname (by simp) (by simp) (fun _ => hkey ▸ not_mem_of_lookup hl) (hr.ne_mrn hname (by simp))
  refine ⟨_, log' ++ [.settle .riskFactor f.mrn made], ?_, ?_, ?_, ?_, (referenceLink_riskFactor hk hp.raised).symm, ?_,
    riskFactorRef_echo hk hp p.mrn hl⟩
  · rw [heq, riskFactorRef_first hl hk, hp.eq d]
    rfl
  · rw [heq]
    exact htold
  · rw [heq, hrs]
    intro e he
    have hself : s.Walked [p.mrn] p := .root List.mem_cons_self hw.declared
    rcases List.mem_append.mp he with he | he
    · exact hlawful hself e he
    · rw [List.mem_singleton.mp he]
      exact .settleRiskFactor made hself hf hk
  · rw [hlinks]
    exact (hp.sketch _ (ht.unique hb) hfresh).idle (fun _ => rfl) fun _ => trivial
  · intro k' hk''
    obtain rfl := Option.some.inj (hk.symm.trans hk'')
    refine ⟨⟨made, by simp⟩, hp.explored.mono ?_⟩
    exact fun e he => List.mem_append_right _ (List.mem_append_left _ he)

end

theorem riskFactor_taken (h : s.Proper) (hr : s.bundle.Apart root) (hb : Blank root d₀) (hw : s.Walked roots p)
    (hmem : .riskFactor m ∈ p.references s.asset s.now) (ht : s.Told root roots d₀ path log d) : ∃ link log',
      Taken s root roots d₀ path p (.riskFactor m) (s.riskFactorRef p.mrn m) log d link log' := by
  obtain ⟨f, hf, rfl⟩ := Policy.mem_references_riskFactor.mp hmem
  cases hl : d.riskFactors.lookup f.mrn with
  | some made => exact ⟨_, _, riskFactor_taken_of_settled ht hr hb hl⟩
  | none =>
    cases hk : s.bundle.riskFactors.find? f.mrn with
    | none => exact ⟨_, _, riskFactor_taken_of_undeclared ht hl hk⟩
    | some k => exact riskFactor_taken_first ht h hr hb hw hf hl hk

end Setting

end Compliance
