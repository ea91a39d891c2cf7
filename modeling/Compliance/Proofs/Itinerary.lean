import Compliance.Proofs.Depths
import Compliance.Proofs.Ledger
import Compliance.Proofs.Provenance

/-!
The policies that a resolution walks, in the order in which it begins with their content. Cut at the
policies on the path and at those that are settled, the walk still comes to every policy of the
hierarchy, and to each of them once.
-/

namespace Compliance

def along {σ α γ : Type} (next : α → σ → σ) (out : α → σ → List γ) : List α → σ → List γ
  | [], _ => []
  | a :: rest, s => out a s ++ along next out rest (next a s)

namespace Setting

variable (s : Setting)

def walksBelow (below : Mrn → Draft → Bool × Draft) (walks : Mrn → Draft → List Mrn) (p : Policy) : Draft → List Mrn :=
  along (fun r d => (s.referenceStep below p r d).2)
    (fun r d =>
      match r with
      | .policy r =>
        if (s.overrides.effective p.mrn r.mrn r.action).activation = .absent then [] else walks r.mrn d
      | _ => [])
    (p.references s.asset s.now)

/-- The policies whose content a visit of `m` walks. -/
def walks (path : List Mrn) (m : Mrn) (d : Draft) : List Mrn :=
  if (d.policies.lookup m).isSome then []
  else if _hm : m ∈ path then []
  else
    match _h : s.bundle.policies.find? m with
    | none => []
    | some p => p.mrn :: s.walksBelow (s.policy (m :: path) p.mrn) (fun n d => walks (m :: path) n d) p d
termination_by unvisited Policy.mrn s.bundle.policies.entries path
decreasing_by
  obtain rfl := Keyed.key_of_find? _h
  exact unvisited_cons_lt (Keyed.mem_of_find? _h) _hm

end Setting

/-- The content of a policy target is the root's, and the policy itself is never settled. -/
def Target.unsettled : Target → List Mrn
  | policy m => [m]
  | asset .. => []

namespace Bundle

def walks (b : Bundle) (r : Request) : List Mrn :=
  let s := b.setting r
  match r.target with
  | .policy m =>
    match b.policies.find? m with
    | none => []
    | some p =>
      p.mrn :: s.walksBelow (s.policy [p.mrn] p.mrn) (s.walks [p.mrn]) p (.start (.mrn p.mrn) p.scoring p.mrn)
  | .asset asset policies _ =>
    along (fun m d => s.assign asset d m) (s.walks []) (policies.filter b.isDeclared)
      (.start assetRoot .unspecified asset)

end Bundle

namespace Setting

variable {s : Setting} {roots path : List Mrn} {d d' d'' : Draft} {m referrer : Mrn} {p : Policy} {w w' : List Mrn}

def settled (d : Draft) : List Mrn := d.policies.map Prod.fst

def Fresh (path : List Mrn) (d : Draft) : Prop := (settled d).Nodup ∧ ∀ m ∈ path, m ∉ settled d

def Closed (s : Setting) (path : List Mrn) (d : Draft) : Prop :=
  ∀ p q, p.mrn ∈ settled d → s.bundle.policies.find? p.mrn = some p → s.Includes p q → q.mrn ∈ settled d ∨ q.mrn ∈ path

structure Tour (s : Setting) (roots path : List Mrn) (d d' : Draft) (w : List Mrn) : Prop where
  settles : (settled d').Perm (w ++ settled d)
  walked : ∀ m ∈ w, ∃ p, p.mrn = m ∧ s.Walked roots p
  fresh : Fresh path d → Fresh path d'
  closed : s.Closed path d → s.Closed path d'

namespace Tour

theorem of_eq (h : d'.policies = d.policies) : Tour s roots path d d' [] := by
  have hs : settled d' = settled d := congrArg (List.map Prod.fst) h
  refine ⟨by rw [hs]; rfl, by simp, ?_, ?_⟩
  · rw [Fresh, Fresh, hs]
    exact id
  · rw [Closed, Closed, hs]
    exact id

theorem trans (h : Tour s roots path d d' w) (h' : Tour s roots path d' d'' w') : Tour s roots path d d'' (w ++ w') where
  settles := by
    have hp := h'.settles.trans (h.settles.append_left w')
    rw [← List.append_assoc] at hp
    exact hp.trans (List.perm_append_comm.append_right _)
  walked m hm := by
    rcases List.mem_append.mp hm with hm | hm
    · exact h.walked m hm
    · exact h'.walked m hm
  fresh hf := h'.fresh (h.fresh hf)
  closed hc := h'.closed (h.closed hc)

theorem keeps (h : Tour s roots path d d' w) (hm : m ∈ settled d) : m ∈ settled d' :=
  h.settles.mem_iff.mpr (List.mem_append_right w hm)

theorem along {α : Type} {next : α → Draft → Draft} {out : α → Draft → List Mrn} {l : List α} (met : α → List Mrn → Prop)
    (hmono : ∀ a k k', (∀ m ∈ k, m ∈ k') → met a k → met a k')
    (h : ∀ a ∈ l, ∀ d, Tour s roots path d (next a d) (out a d) ∧ met a (settled (next a d))) (d : Draft) :
    Tour s roots path d (l.foldl (fun d a => next a d) d) (along next out l d) ∧
      ∀ a ∈ l, met a (settled (l.foldl (fun d a => next a d) d)) := by
  induction l generalizing d with
  | nil => exact ⟨.of_eq rfl, by simp⟩
  | cons a rest ih =>
    obtain ⟨hstep, hmet⟩ := h a List.mem_cons_self d
    obtain ⟨hrest, hmets⟩ := ih (fun b hb => h b (List.mem_cons_of_mem a hb)) (next a d)
    refine ⟨hstep.trans hrest, fun b hb => ?_⟩
    rcases List.mem_cons.mp hb with rfl | hb
    · exact hmono b _ _ (fun m hm => hrest.keeps hm) hmet
    · exact hmets b hb

end Tour

theorem gather_state {α β : Type} (step : α → Draft → Option β × Draft) (l : List α) (d : Draft) :
    (gather step l d).2 = l.foldl (fun d a => (step a d).2) d := by
  induction l generalizing d with
  | nil => rfl
  | cons a rest ih => exact ih _

theorem structural_policies (d : Draft) (m : Mrn) (t : JobType) (sc : ScoringSystem) (links : List Link) :
    (d.structural m t sc links).2.policies = d.policies := by
  unfold Draft.structural
  split <;> rfl

theorem keptByQueries_policies (b : Bundle) (l : List (Mrn × Bool)) : KeptByQueries b fun d => d.policies = l where
  note _ _ h := h
  leaf d role q c composite _ _ h := by
    rw [← h]
    unfold Draft.leaf Draft.enter
    dsimp only
    split
    · rfl
    · cases role <;> rfl
  above d role q variants h := by
    rw [← h]
    unfold Draft.above
    split
    · rfl
    · dsimp only
      unfold Draft.enter
      split
      · rfl
      · cases role <;> rfl

theorem riskFactorJob_policies (k : RiskFactor) (d : Draft) : (s.riskFactorJob k d).2.policies = d.policies := by
  unfold riskFactorJob
  split
  · have hg : (gather (s.queryRef .check k.mrn) k.checks d).2.policies = d.policies :=
      gather_keeps (P := fun d' : Draft => d'.policies = d.policies)
        (fun r _ d' => (keptByQueries_policies s.bundle d.policies).queryRef .check k.mrn r) rfl
    dsimp only
    split <;> exact (structural_policies ..).trans hg
  · rfl

theorem riskFactorRef_policies (referrer m : Mrn) (d : Draft) : (s.riskFactorRef referrer m d).2.policies = d.policies := by
  cases hl : d.riskFactors.lookup m with
  | some made => rw [riskFactorRef_settled hl]
  | none =>
    cases hk : s.bundle.riskFactors.find? m with
    | none =>
      rw [riskFactorRef_undeclared hl hk]
      rfl
    | some k =>
      rw [riskFactorRef_first hl hk]
      exact riskFactorJob_policies k d

def Leads (s : Setting) (path : List Mrn) (p : Policy) (r : Reference) (k : List Mrn) : Prop :=
  ∀ q, (∃ r' : PolicyRef, r = .policy r' ∧ s.overrides.effective p.mrn r'.mrn r'.action ≠ .deactivate ∧
    s.bundle.policies.find? r'.mrn = some q) → q.mrn ∈ k ∨ q.mrn ∈ path

theorem walksBelow_tour (hp : s.Walked roots p) {below : Mrn → Draft → Bool × Draft} {walks : Mrn → Draft → List Mrn}
    (h : ∀ n, (∀ q, s.bundle.policies.find? n = some q → s.Walked roots q) → ∀ d,
      Tour s roots path d (below n d).2 (walks n d) ∧
        ∀ q, s.bundle.policies.find? n = some q → n ∈ settled (below n d).2 ∨ n ∈ path) (d : Draft) :
    Tour s roots path d (s.policyLinks below p d).2 (s.walksBelow below walks p d) ∧
      ∀ q, s.Includes p q → q.mrn ∈ settled (s.policyLinks below p d).2 ∨ q.mrn ∈ path := by
  have hstep : ∀ r ∈ p.references s.asset s.now, ∀ d,
      Tour s roots path d (s.referenceStep below p r d).2
        (match r with
          | .policy r =>
            if (s.overrides.effective p.mrn r.mrn r.action).activation = .absent then [] else walks r.mrn d
          | _ => []) ∧ s.Leads path p r (settled (s.referenceStep below p r d).2) := by
    intro r hr d
    cases r with
    | query role r =>
      refine ⟨.of_eq ((keptByQueries_policies s.bundle d.policies).queryRef role p.mrn r rfl), ?_⟩
      rintro q ⟨r', he, -⟩
      cases he
    | riskFactor m =>
      refine ⟨.of_eq (riskFactorRef_policies p.mrn m d), ?_⟩
      rintro q ⟨r', he, -⟩
      cases he
    | policy r =>
      obtain ⟨g, hg, hr⟩ := Policy.mem_references_policy.mp hr
      simp only [referenceStep, Action.activation_eq_absent]
      by_cases ha : s.overrides.effective p.mrn r.mrn r.action = .deactivate
      · simp only [ha, ↓reduceIte]
        refine ⟨.of_eq rfl, ?_⟩
        rintro q ⟨r', he, hn, -⟩
        cases he
        exact absurd ha hn
      · simp only [ha, ↓reduceIte]
        obtain ⟨htour, hmet⟩ := h r.mrn (fun q hq => .included hp ⟨g, hg, r, hr, ha, hq⟩) d
        refine ⟨htour, ?_⟩
        rintro q ⟨r', he, -, hq⟩
        cases he
        rw [Keyed.key_of_find? hq]
        exact hmet q hq
  obtain ⟨htour, hmet⟩ := Tour.along (s.Leads path p) (fun r k k' hk hl q hq => (hl q hq).imp (hk _) id) hstep d
  rw [policyLinks_eq, gather_state]
  refine ⟨htour, ?_⟩
  rintro q ⟨g, hg, r, hr, ha, hq⟩
  exact hmet (.policy r) (Policy.mem_references_policy.mpr ⟨g, hg, hr⟩) q ⟨r, rfl, ha, hq⟩

theorem Tour.settle (hm : p.mrn ∉ path) (hp : s.Walked roots p) (hl : d.policies.lookup p.mrn = none)
    (h : Tour s roots (p.mrn :: path) d d' w) (hi : ∀ q, s.Includes p q → q.mrn ∈ settled d' ∨ q.mrn ∈ p.mrn :: path)
    {made : Bool} (hd : d''.policies = (p.mrn, made) :: d'.policies) : Tour s roots path d d'' (p.mrn :: w) := by
  have hs : settled d'' = p.mrn :: settled d' := congrArg (List.map Prod.fst) hd
  refine ⟨?_, ?_, ?_, ?_⟩
  · rw [hs]
    exact h.settles.cons p.mrn
  · intro m hm
    rcases List.mem_cons.mp hm with rfl | hm
    · exact ⟨p, rfl, hp⟩
    · exact h.walked m hm
  · rintro ⟨hn, hpath⟩
    have hf : Fresh (p.mrn :: path) d := ⟨hn, List.forall_mem_cons.mpr ⟨not_mem_of_lookup hl, hpath⟩⟩
    obtain ⟨hn', hpath'⟩ := h.fresh hf
    obtain ⟨hfirst, hrest⟩ := List.forall_mem_cons.mp hpath'
    rw [Fresh, hs]
    refine ⟨List.nodup_cons.mpr ⟨hfirst, hn'⟩, fun m hpm hmem => ?_⟩
    rcases List.mem_cons.mp hmem with rfl | hmem
    · exact hm hpm
    · exact hrest m hpm hmem
  · intro hc
    have hc' : s.Closed (p.mrn :: path) d' :=
      h.closed fun q q' hq hd hi => (hc q q' hq hd hi).imp id (List.mem_cons_of_mem _)
    -- the policy leaves the path as it is settled
    have hput : ∀ {q : Policy}, q.mrn ∈ settled d' ∨ q.mrn ∈ p.mrn :: path → q.mrn ∈ settled d'' ∨ q.mrn ∈ path := by
      intro q hq
      rw [hs]
      rcases hq with hq | hq
      · exact .inl (List.mem_cons_of_mem _ hq)
      · rcases List.mem_cons.mp hq with hq | hq
        · exact .inl (hq ▸ List.mem_cons_self)
        · exact .inr hq
    intro q q' hq hd hqi
    rw [hs] at hq
    rcases List.mem_cons.mp hq with he | hq
    · rw [he, hp.declared] at hd
      obtain rfl := Option.some.inj hd
      exact hput (hi q' hqi)
    · exact hput (hc' q q' hq hd hqi)

theorem policy_tour (path : List Mrn) (referrer m : Mrn) (hw : ∀ q, s.bundle.policies.find? m = some q → s.Walked roots q)
    (d : Draft) : Tour s roots path d (s.policy path referrer m d).2 (s.walks path m d) ∧
      ∀ q, s.bundle.policies.find? m = some q → m ∈ settled (s.policy path referrer m d).2 ∨ m ∈ path := by
  cases hl : d.policies.lookup m with
  | some made =>
    rw [policy_settled hl, walks, hl]
    exact ⟨.of_eq rfl, fun _ _ => .inl (List.mem_map_of_mem (mem_of_lookup hl))⟩
  | none =>
    by_cases hm : m ∈ path
    · rw [policy_cut hl hm, walks, hl]
      simp only [hm, Option.isSome_none, Bool.false_eq_true, ↓reduceIte, ↓reduceDIte]
      exact ⟨.of_eq rfl, fun _ _ => .inr trivial⟩
    · cases hp : s.bundle.policies.find? m with
      | none =>
        have hwalks : s.walks path m d = [] := by
          rw [walks, hl]
          simp only [hm, Option.isSome_none, Bool.false_eq_true, ↓reduceIte, ↓reduceDIte]
          split
          · rfl
          · simp_all
        rw [policy_undeclared hl hm hp, hwalks]
        exact ⟨.of_eq rfl, by simp⟩
      | some p =>
        obtain rfl := Keyed.key_of_find? hp
        have hwalks : s.walks path p.mrn d =
            p.mrn :: s.walksBelow (s.policy (p.mrn :: path) p.mrn) (s.walks (p.mrn :: path)) p d := by
          rw [walks, hl]
          simp only [hm, Option.isSome_none, Bool.false_eq_true, ↓reduceIte, ↓reduceDIte]
          split
          · simp_all
          · rename_i q hq
            obtain rfl := Option.some.inj (hp.symm.trans hq)
            rfl
        rw [policy_first hl hm hp, hwalks]
        -- settled or on the path: what it includes is in hand once its references are followed
        obtain ⟨htour, hi⟩ := walksBelow_tour (hw p hp)
          (fun n hn d => policy_tour (p.mrn :: path) p.mrn n hn d) d
        have hd := structural_policies (s.policyLinks (s.policy (p.mrn :: path) p.mrn) p d).2 p.mrn .policy
          (s.policyScoring p) (s.policyLinks (s.policy (p.mrn :: path) p.mrn) p d).1
        refine ⟨htour.settle hm (hw p hp) hl hi (congrArg _ hd), fun q _ => .inl ?_⟩
        exact List.mem_cons_self
termination_by unvisited Policy.mrn s.bundle.policies.entries path
decreasing_by
  exact unvisited_cons_lt (Keyed.mem_of_find? hp) hm

theorem mem_of_walked {k : List Mrn} (hr : ∀ m ∈ roots, ∀ p, s.bundle.policies.find? m = some p → p.mrn ∈ k)
    (hi : ∀ p q, s.Walked roots p → p.mrn ∈ k → s.Includes p q → q.mrn ∈ k) (h : s.Walked roots p) : p.mrn ∈ k := by
  induction h with
  | root hm hp => exact hr _ hm _ hp
  | included hp hq ih => exact hi _ _ hp ih hq

theorem assign_policies (asset m : Mrn) (d : Draft) :
    (s.assign asset d m).policies = (s.policy [] asset m d).2.policies := by
  unfold assign
  dsimp only
  split <;> rfl

theorem start_closed (root : Identity) (sc : ScoringSystem) (m : Mrn) : s.Closed path (.start root sc m) := by
  intro p q hp
  simp [settled, Draft.start] at hp

theorem addFrameworks_policies (root : Identity) (assigned : List Mrn) (d : Draft) :
    (s.addFrameworks root assigned d).policies = d.policies := by
  have hkept : KeptByControls fun d' => d'.policies = d.policies := by
    intro d' e he hd
    cases e with
    | structural m t sc links => exact (structural_policies d' m t sc links).trans hd
    | settle t m made => rcases he with rfl | rfl <;> exact hd
    | note | connect => exact hd
    | _ => exact he.elim
  exact hkept.addFrameworks root assigned rfl

theorem settled_start (root : Identity) (sc : ScoringSystem) (m : Mrn) : settled (.start root sc m) = [] := rfl

theorem draftPolicy_tour (hp : s.bundle.policies.find? p.mrn = some p) {w : List Mrn}
    (hw : w = s.walksBelow (s.policy [p.mrn] p.mrn) (s.walks [p.mrn]) p (.start (.mrn p.mrn) p.scoring p.mrn)) :
    (settled (s.draftPolicy p)).Perm w ∧ (p.mrn :: w).Nodup ∧
      ∀ m, m ∈ p.mrn :: w ↔ ∃ q, q.mrn = m ∧ s.Walked [p.mrn] q := by
  have hroot : s.Walked [p.mrn] p := .root List.mem_cons_self hp
  obtain ⟨htour, hi⟩ := walksBelow_tour hroot
    (fun n hn d => policy_tour [p.mrn] p.mrn n hn d) (.start (.mrn p.mrn) p.scoring p.mrn)
  rw [← hw] at htour
  have hk := htour.settles
  rw [settled_start, List.append_nil] at hk
  obtain ⟨hn, hpath⟩ := htour.fresh ⟨List.nodup_nil, fun _ _ => List.not_mem_nil⟩
  have hc := htour.closed (start_closed _ _ _)
  refine ⟨hk, ?_⟩
  generalize s.policyLinks (s.policy [p.mrn] p.mrn) p (.start (.mrn p.mrn) p.scoring p.mrn) = out at *
  have hmem : ∀ m, m ∈ settled out.2 ↔ m ∈ w := fun m => hk.mem_iff
  refine ⟨List.nodup_cons.mpr ⟨?_, ?_⟩, fun m => ⟨?_, ?_⟩⟩
  · rw [← hmem]
    exact hpath p.mrn List.mem_cons_self
  · exact hk.nodup_iff.mp hn
  · intro hm
    rcases List.mem_cons.mp hm with rfl | hm
    · exact ⟨p, rfl, hroot⟩
    · exact htour.walked m hm
  · rintro ⟨q, rfl, hq⟩
    have hput : ∀ {q : Policy}, q.mrn ∈ settled out.2 ∨ q.mrn ∈ [p.mrn] → q.mrn ∈ p.mrn :: w := by
      intro q hq
      rw [hmem] at hq
      exact hq.elim (List.mem_cons_of_mem _) fun hq => List.mem_singleton.mp hq ▸ List.mem_cons_self
    refine mem_of_walked ?_ ?_ hq
    · intro m hm q hq
      rw [Keyed.key_of_find? hq, List.mem_singleton.mp hm]
      exact List.mem_cons_self
    · intro q q' hq hm hi'
      rcases List.mem_cons.mp hm with he | hm
      · have hd := hq.declared
        rw [he, hp] at hd
        obtain rfl := Option.some.inj hd
        exact hput (hi q' hi')
      · exact hput (hc q q' ((hmem _).mpr hm) hq.declared hi')

theorem assign_tour (asset : Mrn) (ms : List Mrn) {w : List Mrn}
    (hw : w = along (fun m d => s.assign asset d m) (s.walks []) ms (.start assetRoot .unspecified asset)) :
    (settled (ms.foldl (s.assign asset) (.start assetRoot .unspecified asset))).Perm w ∧ w.Nodup ∧
      ∀ m, m ∈ w ↔ ∃ q, q.mrn = m ∧ s.Walked ms q := by
  have hstep : ∀ m ∈ ms, ∀ d, Tour s ms [] d (s.assign asset d m) (s.walks [] m d) ∧
      ∀ q, s.bundle.policies.find? m = some q → m ∈ settled (s.assign asset d m) := by
    intro m hm d
    obtain ⟨htour, hmet⟩ := policy_tour [] asset m (fun q hq => .root hm hq) d
    have hs : settled (s.assign asset d m) = settled (s.policy [] asset m d).2 :=
      congrArg (List.map Prod.fst) (assign_policies asset m d)
    refine ⟨?_, fun q hq => hs ▸ (hmet q hq).resolve_right List.not_mem_nil⟩
    have htour' := htour.trans (.of_eq (assign_policies asset m d))
    rwa [List.append_nil] at htour'
  obtain ⟨htour, hmet⟩ := Tour.along (fun m k => ∀ q, s.bundle.policies.find? m = some q → m ∈ k)
    (fun m k k' hk hm q hq => hk _ (hm q hq)) hstep (.start assetRoot .unspecified asset)
  rw [← hw] at htour
  obtain ⟨hn, -⟩ := htour.fresh ⟨List.nodup_nil, fun _ _ => List.not_mem_nil⟩
  have hc := htour.closed (start_closed _ _ _)
  have hk := htour.settles
  rw [settled_start, List.append_nil] at hk
  have hmem : ∀ m, m ∈ settled (ms.foldl (s.assign asset) (.start assetRoot .unspecified asset)) ↔ m ∈ w :=
    fun m => hk.mem_iff
  refine ⟨hk, hk.nodup_iff.mp hn, fun m => ⟨htour.walked m, ?_⟩⟩
  · rintro ⟨q, rfl, hq⟩
    refine mem_of_walked ?_ ?_ hq
    · intro m hm q hq
      rw [Keyed.key_of_find? hq, ← hmem]
      exact hmet m hm q hq
    · intro q q' hq hm hi
      rw [← hmem]
      exact (hc q q' ((hmem _).mpr hm) hq.declared hi).resolve_right List.not_mem_nil

end Setting

namespace Bundle

variable {b : Bundle} {r : Request}

theorem walks_perm {root : Identity} {d : Draft} (h : b.draft r = .ok (root, d)) :
    (b.walks r).Perm (r.target.unsettled ++ d.policies.map Prod.fst) := by
  unfold draft at h
  cases ht : r.target with
  | policy m =>
    rw [ht] at h
    cases hp : b.policies.find? m with
    | none => simp [hp] at h
    | some p =>
      simp only [hp, Except.ok.injEq, Prod.mk.injEq] at h
      obtain ⟨-, rfl⟩ := h
      obtain rfl := Keyed.key_of_find? hp
      simp only [walks, ht, hp]
      exact ((Setting.draftPolicy_tour (s := b.setting r) hp rfl).1.symm.cons p.mrn)
  | asset asset policies frameworks =>
    simp only [ht, Except.ok.injEq, Prod.mk.injEq] at h
    obtain ⟨-, rfl⟩ := h
    simp only [walks, ht, Setting.draftAsset, Setting.addFrameworks_policies]
    exact (Setting.assign_tour (s := b.setting r) asset (policies.filter b.isDeclared) rfl).1.symm

theorem walks_spec (b : Bundle) (r : Request) : (b.walks r).Nodup ∧
    ∀ m, m ∈ b.walks r ↔ ∃ p, p.mrn = m ∧ (b.setting r).Walked r.target.assigned p := by
  cases ht : r.target with
  | policy m =>
    simp only [walks, ht, Target.assigned]
    cases hp : b.policies.find? m with
    | none =>
      refine ⟨List.nodup_nil, fun n => ⟨fun hn => absurd hn List.not_mem_nil, ?_⟩⟩
      rintro ⟨q, rfl, hq⟩
      exfalso
      induction hq with
      | root hm hq =>
        rw [List.mem_singleton.mp hm] at hq
        cases hp.symm.trans hq
      | included _ _ ih => exact ih
    | some p =>
      obtain rfl := Keyed.key_of_find? hp
      exact (Setting.draftPolicy_tour (s := b.setting r) hp rfl).2
  | asset asset policies frameworks =>
    simp only [walks, ht, Target.assigned]
    obtain ⟨-, hn, hmem⟩ := Setting.assign_tour (s := b.setting r) asset (policies.filter b.isDeclared) rfl
    refine ⟨hn, fun m => (hmem m).trans ?_⟩
    apply exists_congr
    intro p
    apply and_congr_right
    intro _
    constructor
    · intro h
      exact h.widen fun m hm q hq => .root (List.mem_of_mem_filter hm) hq
    · intro h
      refine h.widen fun m hm q hq => .root (List.mem_filter.mpr ⟨hm, ?_⟩) hq
      have hd : b.policies.find? m = some q := hq
      simp [isDeclared, Keyed.has, hd]

/-- The layers of a request tell of the policies that are walked for it: each has one layer, at the
length of the shortest chain of references to it, and what a policy reads at its level is final. -/
structure Hierarchic (b : Bundle) (r : Request) : Prop where
  walkedOnce : (b.walks r).Nodup
  /-- What the draft remembers of visits to policies are these walks. -/
  visited : ∀ root d, b.draft r = .ok (root, d) → (b.walks r).Perm (r.target.unsettled ++ d.policies.map Prod.fst)
  layeredOnce : ((b.setting r).overrides.layers.map (·.owner)).Nodup
  walked : ∀ m, m ∈ b.walks r ↔ m ∈ (b.setting r).overrides.layers.map (·.owner)
  layers : ∀ l, l ∈ (b.setting r).overrides.layers ↔
    ∃ n p, (b.setting r).AtDepth r.target.assigned n p ∧ p.layer r.asset r.now n = l
  depth : ∀ m n, (b.setting r).overrides.depth? m = some n ↔
    ∃ p, p.mrn = m ∧ (b.setting r).AtDepth r.target.assigned n p
  action : ∀ pool level depth o, Overrides.Stage b r.asset r.now r.target.assigned pool level depth o →
    ∀ p ∈ level, ∀ m, (o.addLevel r.asset r.now level depth).action p.mrn m = (b.setting r).overrides.action p.mrn m

theorem hierarchic (b : Bundle) (r : Request) : b.Hierarchic r where
  walkedOnce := (b.walks_spec r).1
  visited _ _ h := walks_perm h
  layeredOnce := Setting.owners_nodup (b.setting_collected r)
  walked m := ((b.walks_spec r).2 m).trans (Setting.mem_owners_iff (b.setting_collected r) m).symm
  layers := Setting.mem_layers_iff (b.setting_collected r)
  depth m _ := Setting.depth?_eq_some_iff (b.setting_collected r) m
  action _ _ _ _ h _ hp m := h.action_eq hp m

end Bundle

end Compliance
