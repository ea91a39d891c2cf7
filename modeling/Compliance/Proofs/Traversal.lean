import Compliance.Proofs.Passes

namespace Compliance

namespace Setting

variable {s : Setting} {root : Identity} {roots path : List Mrn} {log log' : List Edit} {p : Policy}
  {d d₀ : Draft} {m : Mrn}

structure Entered (s : Setting) (root : Identity) (roots : List Mrn) (d₀ : Draft) (path : List Mrn) (m : Mrn)
    (f : Draft → Bool × Draft) (log : List Edit) (d : Draft) (made : Bool) (log' : List Edit) : Prop where
  eq : f d = (made, d.replay log')
  told : s.Told root roots d₀ path (log ++ log') (d.replay log')
  own : ∀ e ∈ log', s.Lawful [m] (d.replay log').policies (d.replay log').riskFactors e
  sketch : Sketch root d.graph (if made then [.mrn m] else []) log'
  met : ∀ p, s.bundle.policies.find? m = some p → m ∈ (d.replay log').policies.map Prod.fst ∨ m ∈ path
  known : made = true ↔ (m, true) ∈ (d.replay log').policies
  echo : s.Echo root path f d made log'

def policyLink (s : Setting) (p : Policy) (r : PolicyRef) (made : Bool) : Option Link :=
  if made then
    some (.mrn r.mrn, Impact.of (s.overrides.effective p.mrn r.mrn r.action).activation (r.scoring.getD .unspecified) none)
  else none

theorem policy_taken {below : Mrn → Draft → Bool × Draft} {r : PolicyRef} (hw : s.Walked roots p)
    (hmem : .policy r ∈ p.references s.asset s.now)
    (hbelow : (∀ q, s.bundle.policies.find? r.mrn = some q → s.Walked roots q) → ∀ log d,
      s.Told root roots d₀ path log d → ∃ made log', Entered s root roots d₀ path r.mrn (below r.mrn) log d made log')
    (ht : s.Told root roots d₀ path log d) : ∃ link log',
      Taken s root roots d₀ path p (.policy r)
        (fun d =>
          let a := (s.overrides.effective p.mrn r.mrn r.action).activation
          if a = .absent then (none, d)
          else
            let (made, d) := below r.mrn d
            (if made then some (.mrn r.mrn, Impact.of a (r.scoring.getD .unspecified) none) else none, d))
        log d link log' := by
  simp only [Action.activation_eq_absent]
  obtain ⟨g, hg, hr⟩ := Policy.mem_references_policy.mp hmem
  by_cases ha : s.overrides.effective p.mrn r.mrn r.action = .deactivate
  · simp only [ha, ↓reduceIte]
    exact ⟨none, [], idle_taken ht rfl .nil (by simp [referenceLink, ha]) (fun hn => absurd ha hn) fun _ _ _ _ _ => rfl⟩
  · have includes : ∀ {ms : List Mrn}, s.Walked ms p → ∀ q, s.bundle.policies.find? r.mrn = some q → s.Walked ms q :=
      fun hw q hq => .included hw ⟨g, hg, r, hr, ha, hq⟩
    obtain ⟨made, log', he⟩ := hbelow (includes hw) log d ht
    simp only [ha, ↓reduceIte]
    refine ⟨s.policyLink p r made, log', ?_, he.told, ?_, ?_, ?_, fun _ q hq => he.met q hq,
      he.echo.map (s.policyLink p r)⟩
    · simp only [he.eq, policyLink]
    · intro e hem
      refine (he.own e hem).widen fun q hq => hq.widen fun n hn => ?_
      rw [List.mem_singleton.mp hn]
      exact includes (.root List.mem_cons_self hw.declared)
    · have hs := he.sketch
      cases made <;> exact hs
    · simp only [policyLink, referenceLink, ha, false_or, ite_not, he.known]

theorem Told.enter (h : s.Told root roots d₀ path log d) (hm : m ∉ d.policies.map Prod.fst) :
    s.Told root roots d₀ (m :: path) log d where
  eq := h.eq
  sound := h.sound
  once := h.once
  apart := by
    intro n hn
    rcases List.mem_cons.mp hn with rfl | hn
    · exact hm
    · exact h.apart n hn
  settled := h.settled
  followed := by
    intro n hn p hp r hr
    have hf := h.followed n hn p hp r hr
    cases r with
    | query role r => exact hf
    | riskFactor m => exact hf
    | policy r =>
      intro ha q hq
      exact (hf ha q hq).imp id (List.mem_cons_of_mem _)
  risks := h.risks

theorem Followed.settle {done : List (Mrn × Bool)} {q : Policy} {r : Reference} (h : s.Followed (m :: path) done log q r)
    (made : Bool) (log' : List Edit) : s.Followed path ((m, made) :: done) (log ++ log') q r := by
  have h' := h.mono (List.subset_cons_self (m, made) done) (List.subset_append_left log log')
  cases r with
  | query role r => exact h'
  | riskFactor m => exact h'
  | policy r =>
    intro ha q hq
    rcases h' ha q hq with hm | hm
    · exact .inl hm
    · rcases List.mem_cons.mp hm with hm | hm
      · rw [hm]
        exact .inl List.mem_cons_self
      · exact .inr hm

theorem lawful_concluding {done risks : List (Mrn × Bool)} (hw : s.Walked roots p) {e : Edit}
    (he : e ∈ concluding .policy p.mrn (s.policyScoring p) (s.linksAt done p)) :
    s.Lawful roots ((p.mrn, !(s.linksAt done p).isEmpty) :: done) risks e := by
  rcases mem_concluding.mp he with ⟨hl, rfl⟩ | rfl
  · rw [List.isEmpty_eq_false_iff.mpr hl]
    exact .policy hw List.suffix_rfl
  · exact .settlePolicy _ hw

theorem Told.settle_policy (h : s.Told root roots d₀ (p.mrn :: path) log d) (hm : p.mrn ∉ path) (hw : s.Walked roots p)
    (hf : ∀ r ∈ p.references s.asset s.now, s.Followed (p.mrn :: path) d.policies log p r) {links : List Link}
    (hlinks : links = s.linksAt d.policies p) :
    s.Told root roots d₀ path (log ++ concluding .policy p.mrn (s.policyScoring p) links)
      (d.replay (concluding .policy p.mrn (s.policyScoring p) links)) := by
  have hps : (d.replay (concluding .policy p.mrn (s.policyScoring p) links)).policies =
      (p.mrn, !links.isEmpty) :: d.policies := concluding_ledger d .policy
  have hrs : (d.replay (concluding .policy p.mrn (s.policyScoring p) links)).riskFactors = d.riskFactors :=
    concluding_ledger d .riskFactor
  have hsub : log ⊆ log ++ concluding .policy p.mrn (s.policyScoring p) links := List.subset_append_left ..
  refine ⟨?_, ?_, ?_, ?_, ?_, ?_, ?_⟩
  · rw [Draft.replay_append, ← h.eq]
  · rw [hps, hrs]
    intro e he
    rcases List.mem_append.mp he with he | he
    · exact (h.sound e he).imp (fun hl => hl.mono (List.suffix_cons ..) (List.Subset.refl _))
        fun hh => hh.mono (List.suffix_cons ..)
    · rw [hlinks] at he ⊢
      exact .inl (lawful_concluding hw he)
  · rw [hps]
    exact List.nodup_cons.mpr ⟨h.apart _ List.mem_cons_self, h.once⟩
  · rw [hps]
    intro n hn hmem
    rcases List.mem_cons.mp hmem with rfl | hmem
    · exact hm hn
    · exact h.apart n (List.mem_cons_of_mem _ hn) hmem
  · rw [hps]
    intro m made tail ht
    rcases List.suffix_cons_iff.mp ht with heq | ht
    · obtain ⟨he, rfl⟩ := List.cons.inj heq
      obtain ⟨rfl, rfl⟩ := Prod.mk.inj he
      refine ⟨p, hw.declared, hw, by simp [← hlinks], fun hmade => ?_⟩
      rw [← hlinks]
      exact List.mem_append_right _ (mem_concluding.mpr (.inl ⟨by simpa using hmade, rfl⟩))
    · obtain ⟨q, hq, hwq, hm, hs⟩ := h.settled m made tail ht
      exact ⟨q, hq, hwq, hm, fun hmade => hsub (hs hmade)⟩
  · rw [hps]
    intro m hm q hq r hr
    rcases List.mem_cons.mp hm with rfl | hm
    · obtain rfl := Option.some.inj (hw.declared.symm.trans hq)
      exact (hf r hr).settle _ _
    · exact (h.followed m hm q hq r hr).settle _ _
  · rw [hrs]
    intro m made hm
    obtain ⟨k, hk, hmade, hs, he⟩ := h.risks m made hm
    exact ⟨k, hk, hmade, hsub hs, he.mono hsub⟩

theorem policyLinks_pass (h : s.Proper) (hr : s.bundle.Apart root) (hb : Blank root d₀) (hw : s.Walked roots p)
    {below : Mrn → Draft → Bool × Draft}
    (hbelow : ∀ n, (∀ q, s.bundle.policies.find? n = some q → s.Walked roots q) → ∀ log d,
      s.Told root roots d₀ path log d → ∃ made log', Entered s root roots d₀ path n (below n) log d made log')
    (ht : s.Told root roots d₀ path log d) : ∃ links log',
      Pass s root roots d₀ path p (p.references s.asset s.now) (s.policyLinks below p) log d links log' := by
  apply gather_pass hb _ ht
  intro r hmem log d ht
  cases r with
  | query role r => exact query_taken h hr hb hw hmem ht
  | riskFactor m => exact riskFactor_taken h hr hb hw hmem ht
  | policy r => exact policy_taken hw hmem (hbelow r.mrn) ht

theorem policy_echo {made : Bool} (referrer : Mrn) (ht : s.Told root roots d₀ path (log ++ log') (d.replay log'))
    (hown : ∀ e ∈ log', s.Lawful [m] (d.replay log').policies (d.replay log').riskFactors e)
    (hmet : ∀ p, s.bundle.policies.find? m = some p → m ∈ (d.replay log').policies.map Prod.fst ∨ m ∈ path)
    (hknown : made = true ↔ (m, true) ∈ (d.replay log').policies)
    (hfresh : ∀ seen t d', s.Earlier root path seen t → Beside t d d' → s.Accord t.policies (d.replay log').policies →
      t.policies.lookup m = none → ∃ short, s.policy path referrer m d' = (made, d'.replay short) ∧
        Thins seen log' short ∧ Beside t (d.replay log') (d'.replay short)) :
    s.Echo root path (s.policy path referrer m) d made log' := by
  intro seen t d' hearlier hb ha
  cases hl : t.policies.lookup m with
  | none => exact hfresh seen t d' hearlier hb ha hl
  | some made' =>
    have hm := mem_of_lookup hl
    have hmem : m ∈ t.policies.map Prod.fst := List.mem_map_of_mem hm
    -- both walks have settled it, and they accord on what it stood above then
    obtain rfl : made = made' := by
      obtain ⟨roots', d₁, htold⟩ := hearlier.told
      obtain ⟨p, hp⟩ := htold.settled_mem hm
      obtain ⟨tail, htail⟩ := exists_suffix_of_mem hm
      obtain ⟨⟨_, made''⟩, hx, rfl⟩ := List.mem_map.mp ((hmet p hp).resolve_right fun hpath => hearlier.apart _ hpath hmem)
      obtain ⟨tail', htail'⟩ := exists_suffix_of_mem hx
      obtain ⟨rfl, -⟩ := ha _ _ _ _ _ htail htail' p hp
      refine Bool.eq_iff_iff.mpr (hknown.trans ⟨fun hmade => ?_, fun hmade => hmade ▸ hx⟩)
      exact (eq_of_mem_ledger ht.once hmade hx).symm
    refine ⟨[], ?_, .none fun e he => hearlier.seen_or_silent hmem ha (hown e he),
      hb.alone fun ty e he => hearlier.settled hmem (hown e he) ty⟩
    exact policy_settled (hb.lookup_of_earlier .policy hl)

theorem policy_eq_conclude (referrer : Mrn) (hp : s.bundle.policies.find? p.mrn = some p) (hm : p.mrn ∉ path)
    (hl : d.policies.lookup p.mrn = none) {links : List Link}
    (hlinks : s.policyLinks (s.policy (p.mrn :: path) p.mrn) p d = (links, d.replay log)) :
    s.policy path referrer p.mrn d =
      (!links.isEmpty, d.replay (log ++ concluding .policy p.mrn (s.policyScoring p) links)) := by
  rw [Draft.replay_append, ← conclude_eq, policy_first hl hm hp, hlinks]
  rfl

theorem Pass.echo_concluding {links : List Link} (referrer : Mrn) (hm : p.mrn ∉ path)
    (hp : s.bundle.policies.find? p.mrn = some p) (hl : d.policies.lookup p.mrn = none)
    (hpass : Pass s root roots d₀ (p.mrn :: path) p (p.references s.asset s.now)
      (s.policyLinks (s.policy (p.mrn :: path) p.mrn) p) log d links log')
    {seen : List Edit} {t d' : Draft} (hearlier : s.Earlier root path seen t) (hbeside : Beside t d d')
    (ha : s.Accord t.policies (d.replay log').policies) (hfresh : t.policies.lookup p.mrn = none) :
    ∃ short, s.policy path referrer p.mrn d' = (!links.isEmpty, d'.replay short) ∧
      Thins seen (log' ++ concluding .policy p.mrn (s.policyScoring p) links) short ∧
      Beside t (d.replay (log' ++ concluding .policy p.mrn (s.policyScoring p) links)) (d'.replay short) := by
  -- not settled by the earlier walk, it may join the path that walk keeps clear of
  have hpath : s.Earlier root (p.mrn :: path) seen t := by
    refine ⟨hearlier.told, fun n hn => ?_⟩
    rcases List.mem_cons.mp hn with rfl | hn
    · exact not_mem_of_lookup hfresh
    · exact hearlier.apart n hn
  obtain ⟨short, heq, hthin, hbeside'⟩ := hpass.echo seen t d' hpath hbeside ha
  have hl' : d'.policies.lookup p.mrn = none := (hbeside.lookup_of_fresh .policy hfresh).trans hl
  refine ⟨_, policy_eq_conclude referrer hp hm hl' heq, hthin.append (.refl _), ?_⟩
  rw [Draft.replay_append, Draft.replay_append]
  refine hbeside'.same fun ty e he x hx => ?_
  rcases mem_concluding.mp he with ⟨-, rfl⟩ | rfl
  · cases ty <;> cases hx
  · cases ty <;> simp only [Edit.entries, List.not_mem_nil] at hx
    rw [List.mem_singleton.mp hx]
    exact not_mem_of_lookup hfresh

theorem Pass.entered {links : List Link} (h : s.Proper) (hb : Blank root d₀) (referrer : Mrn) (hm : p.mrn ∉ path)
    (hw : s.Walked roots p) (hr : .mrn p.mrn ≠ root) (hl : d.policies.lookup p.mrn = none)
    (ht : s.Told root roots d₀ path log d)
    (hpass : Pass s root roots d₀ (p.mrn :: path) p (p.references s.asset s.now)
      (s.policyLinks (s.policy (p.mrn :: path) p.mrn) p) log d links log') :
    Entered s root roots d₀ path p.mrn (s.policy path referrer p.mrn) log d (!links.isEmpty)
      (log' ++ concluding .policy p.mrn (s.policyScoring p) links) := by
  have hn := hpass.told.apart p.mrn List.mem_cons_self
  have hps : (d.replay (log' ++ concluding .policy p.mrn (s.policyScoring p) links)).policies =
      (p.mrn, !links.isEmpty) :: (d.replay log').policies := by
    rw [Draft.replay_append]
    exact concluding_ledger _ .policy
  have hrs : (d.replay (log' ++ concluding .policy p.mrn (s.policyScoring p) links)).riskFactors =
      (d.replay log').riskFactors := by
    rw [Draft.replay_append]
    exact concluding_ledger _ .riskFactor
  have htold : s.Told root roots d₀ path (log ++ (log' ++ concluding .policy p.mrn (s.policyScoring p) links))
      (d.replay (log' ++ concluding .policy p.mrn (s.policyScoring p) links)) := by
    rw [← List.append_assoc, Draft.replay_append]
    exact hpass.told.settle_policy hm hw hpass.followed hpass.gives
  have hown : ∀ e ∈ log' ++ concluding .policy p.mrn (s.policyScoring p) links,
      s.Lawful [p.mrn] ((p.mrn, !links.isEmpty) :: (d.replay log').policies) (d.replay log').riskFactors e := by
    have hlinks : links = s.linksAt (d.replay log').policies p := hpass.gives
    intro e he
    rcases List.mem_append.mp he with he | he
    · exact (hpass.own e he).mono (List.suffix_cons ..) (List.Subset.refl _)
    · rw [hlinks] at he ⊢
      exact lawful_concluding (.root List.mem_cons_self hw.declared) he
  have hmet : p.mrn ∈ (d.replay (log' ++ concluding .policy p.mrn (s.policyScoring p) links)).policies.map Prod.fst := by
    rw [hps]
    exact List.mem_cons_self
  have hknown : (!links.isEmpty) = true ↔
      (p.mrn, true) ∈ (d.replay (log' ++ concluding .policy p.mrn (s.policyScoring p) links)).policies := by
    rw [hps]
    constructor
    · intro hmade
      rw [hmade]
      exact List.mem_cons_self
    · intro hmem
      rcases List.mem_cons.mp hmem with he | hmem
      · exact (Prod.mk.inj he).2.symm
      · exact absurd (List.mem_map_of_mem hmem) hn
  rw [← hps, ← hrs] at hown
  refine ⟨policy_eq_conclude referrer hw.declared hm hl hpass.eq, htold, hown, ?_, fun _ _ => .inl hmet, hknown,
    policy_echo referrer htold hown (fun _ _ => .inl hmet) hknown fun seen t d' hearlier hbeside ha hfresh => ?_⟩
  · refine concluding_sketch (ht.unique hb) (by simp) hpass.sketch fun _ => ⟨hr, ?_⟩
    rw [← Draft.replay_graph]
    have hname := Bundle.mem_names_policy.mpr ⟨p, hw.declared⟩
    exact hpass.told.fresh hb h.distinct hname (by simp) (fun _ => hn) (by simp) hr
  · rw [hps] at ha
    exact hpass.echo_concluding referrer hm hw.declared hl hearlier hbeside (ha.mono (List.suffix_cons ..)) hfresh

theorem policy_entered_of_settled {made : Bool} (hb : Blank root d₀)
    (hpath : ∀ n, (Kind.policy, n) ∈ s.bundle.names → .mrn n = root → n ∈ path) (referrer : Mrn)
    (ht : s.Told root roots d₀ path log d) (hl : d.policies.lookup m = some made) :
    Entered s root roots d₀ path m (s.policy path referrer m) log d made [] := by
  have hm := mem_of_lookup hl
  have hknown : made = true ↔ (m, true) ∈ d.policies := by
    constructor
    · rintro rfl
      exact hm
    · exact fun hm' => eq_of_mem_ledger ht.once hm hm'
  have hmet : ∀ p, s.bundle.policies.find? m = some p → m ∈ d.policies.map Prod.fst ∨ m ∈ path :=
    fun p _ => .inl (List.mem_map_of_mem hm)
  have ht' : s.Told root roots d₀ path (log ++ []) d := by simpa using ht
  refine ⟨policy_settled hl, ht', by simp, ?_, hmet, hknown,
    policy_echo referrer ht' (by simp) hmet hknown fun seen t d' _ hbeside _ hfresh => ?_⟩
  · cases made with
    | false => exact .nil
    | true =>
      obtain ⟨p, hp⟩ := ht.settled_mem hm
      refine .known (ht.has_policy hb hm) ?_
      intro hroot
      exact ht.apart m (hpath m (Bundle.mem_names_policy.mpr ⟨p, hp⟩) hroot) (List.mem_map_of_mem hm)
  · exact ⟨[], policy_settled ((hbeside.lookup_of_fresh .policy hfresh).trans hl), .nil, hbeside⟩

theorem policy_entered_of_note {referrer : Mrn} {x : Event} (ht : s.Told root roots d₀ path log d)
    (hf : ∀ d' : Draft, d'.policies.lookup m = none → s.policy path referrer m d' = (false, d'.note x))
    (hx : m ∈ path ∨ s.bundle.policies.find? m = none) (hl : d.policies.lookup m = none) :
    Entered s root roots d₀ path m (s.policy path referrer m) log d false [.note x] := by
  have hown : ∀ e ∈ [Edit.note x], s.Lawful [m] d.policies d.riskFactors e := by
    intro e he
    rw [List.mem_singleton.mp he]
    exact .note x
  have hmet : ∀ p, s.bundle.policies.find? m = some p → m ∈ d.policies.map Prod.fst ∨ m ∈ path := by
    intro p hp
    rcases hx with hx | hx
    · exact .inr hx
    · simp [hx] at hp
  have hknown : false = true ↔ (m, true) ∈ d.policies := by
    simp only [Bool.false_eq_true, false_iff]
    exact fun hm => not_mem_of_lookup hl (List.mem_map_of_mem hm)
  refine ⟨hf d hl, ht.note x, hown, note_sketch x, hmet, hknown,
    policy_echo referrer (ht.note x) hown hmet hknown fun seen t d' _ hbeside _ hfresh => ?_⟩
  refine ⟨[.note x], hf d' ((hbeside.lookup_of_fresh .policy hfresh).trans hl), .refl _,
    hbeside.same fun ty e he y hy => ?_⟩
  rw [entries_of_isNote (List.mem_singleton.mp he ▸ rfl)] at hy
  cases hy

theorem policy_entered (h : s.Proper) (hr : s.bundle.Apart root) (hb : Blank root d₀) (path : List Mrn)
    (hpath : ∀ n, (Kind.policy, n) ∈ s.bundle.names → .mrn n = root → n ∈ path) (referrer m : Mrn)
    (hw : ∀ p, s.bundle.policies.find? m = some p → s.Walked roots p) (log : List Edit) (d : Draft)
    (ht : s.Told root roots d₀ path log d) : ∃ made log',
      Entered s root roots d₀ path m (s.policy path referrer m) log d made log' := by
  cases hl : d.policies.lookup m with
  | some made => exact ⟨made, [], policy_entered_of_settled hb hpath referrer ht hl⟩
  | none =>
    by_cases hm : m ∈ path
    · exact ⟨_, _, policy_entered_of_note ht (fun _ hl' => policy_cut hl' hm) (.inl hm) hl⟩
    · cases hp : s.bundle.policies.find? m with
      | none => exact ⟨_, _, policy_entered_of_note ht (fun _ hl' => policy_undeclared hl' hm hp) (.inr hp) hl⟩
      | some p =>
        obtain rfl := Keyed.key_of_find? hp
        have hwp := hw p hp
        have hpath' : ∀ n, (Kind.policy, n) ∈ s.bundle.names → .mrn n = root → n ∈ p.mrn :: path :=
          fun n hn hroot => List.mem_cons_of_mem _ (hpath n hn hroot)
        have hroot : .mrn p.mrn ≠ root := fun he => hm (hpath p.mrn (Bundle.mem_names_policy.mpr ⟨p, hp⟩) he)
        -- it joins the path, which leaves fewer policies to be entered below it
        obtain ⟨links, log', hpass⟩ := policyLinks_pass h hr hb hwp
          (fun n hn log d ht => policy_entered h hr hb (p.mrn :: path) hpath' p.mrn n hn log d ht)
          (ht.enter (not_mem_of_lookup hl))
        exact ⟨_, _, hpass.entered h hb referrer hm hwp hroot hl ht⟩
termination_by unvisited Policy.mrn s.bundle.policies.entries path
decreasing_by
  exact unvisited_cons_lt (Keyed.mem_of_find? hp) hm

end Setting

end Compliance
