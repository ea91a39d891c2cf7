import Compliance.Proofs.Precedence

namespace Compliance

inductive Mention
  | query (role : Role) (r : QueryRef)
  | policy (r : PolicyRef)
  | riskFactor (r : RiskFactorRef)

namespace Mention

def reference : Mention → Reference
  | query role r => .query role r
  | policy r => .policy r
  | riskFactor r => .riskFactor r.mrn

def mrn : Mention → Mrn
  | query _ r => r.mrn
  | policy r => r.mrn
  | riskFactor r => r.mrn

def action : Mention → Action
  | query _ r => r.action
  | policy r => r.action
  | riskFactor r => r.action

def scoring : Mention → Option ScoringSystem
  | policy r => r.scoring
  | _ => none

def magnitude : Mention → Option Float32
  | riskFactor r => r.magnitude
  | _ => none

def weight : Mention → Option UInt32
  | query _ r => r.impact
  | _ => none

def change (x : Mention) : Change where
  action := x.action
  magnitude := x.magnitude
  scoring := x.scoring

end Mention

def PolicyGroup.mentions (g : PolicyGroup) : List Mention :=
  g.checks.map (.query .check) ++ g.queries.map (.query .data) ++ g.policies.map .policy ++
    g.riskFactors.map .riskFactor

namespace Policy

variable (p : Policy) (asset : PredicateSet) (now : Timestamp)

def mentions : List Mention := (p.contentGroups asset now).flatMap (·.mentions) ++ p.riskFactors.map .riskFactor

def lastSaid {α : Type} (said : Mention → Option α) (m : Mrn) : Option α :=
  (((p.mentions asset now).filter (·.mrn == m)).filterMap said).getLast?

variable {p asset now}

theorem references_eq_mentions : p.references asset now = (p.mentions asset now).map Mention.reference := by
  have hgroup : ∀ g : PolicyGroup, g.references = g.mentions.map Mention.reference := by
    intro g
    simp [PolicyGroup.references, PolicyGroup.mentions, Function.comp_def, Mention.reference]
  simp [references, mentions, hgroup, List.map_flatMap, Function.comp_def, Mention.reference]

theorem mem_mentions_riskFactor {f : RiskFactorRef} :
    .riskFactor f ∈ p.mentions asset now ↔ f ∈ p.riskReferences asset now := by
  simp [mentions, PolicyGroup.mentions, riskReferences]

theorem contentChanges_eq_mentions (g : PolicyGroup) : g.contentChanges = g.mentions.map fun x => (x.mrn, x.change) := by
  simp only [PolicyGroup.contentChanges, PolicyGroup.mentions, List.map_append, List.map_map]
  rfl

theorem layer_changes (depth : Nat) : (p.layer asset now depth).changes =
    (p.mentions asset now).map (fun x => (x.mrn, x.change)) ++
      (p.modifierGroups asset now).flatMap (·.modifierChanges) := by
  simp only [layer, mentions, contentChanges_eq_mentions, List.map_append, List.map_flatMap, List.map_map]
  rfl

end Policy

structure Change.Replaced {α : Type} (said : Change → Option α) : Prop where
  silent : ∀ a, said { action := a } = none
  later : ∀ old new, said (old.then new) = (said new).or (said old)

theorem Change.replaced_magnitude : Change.Replaced (·.magnitude) := ⟨fun _ => rfl, fun _ _ => rfl⟩

theorem Change.replaced_scoring : Change.Replaced (·.scoring) := ⟨fun _ => rfl, fun _ _ => rfl⟩

theorem Change.Replaced.foldl {α : Type} {said : Change → Option α} (h : Change.Replaced said) (changes : List Change)
    (first : Change) : said (changes.foldl Change.then first) = (changes.filterMap said).getLast?.or (said first) := by
  induction changes generalizing first with
  | nil => simp
  | cons c rest ih =>
    rw [List.foldl_cons, ih, h.later]
    cases hc : said c with
    | none => simp [hc]
    | some x => cases hl : (rest.filterMap said).getLast? <;> simp [hc, hl, List.getLast?_cons]

namespace Policy

variable {p : Policy} {asset : PredicateSet} {now : Timestamp} {α : Type}

theorem layer_said {said : Change → Option α} (h : Change.Replaced said) (depth : Nat) (m : Mrn) :
    said ((p.layer asset now depth).change m) = p.lastSaid asset now (fun x => said x.change) m := by
  -- modifiers change nothing but actions
  have hmodifiers : ((p.modifierGroups asset now).flatMap (·.modifierChanges)).filterMap
      (fun x => (if x.1 = m then some x.2 else none).bind said) = [] := by
    rw [List.filterMap_eq_nil_iff]
    intro x hx
    obtain ⟨g, -, hx⟩ := List.mem_flatMap.mp hx
    obtain ⟨n, -, rfl⟩ := List.mem_map.mp hx
    by_cases hn : n = m <;> simp [hn, h.silent]
  have hmentions : (p.mentions asset now).filterMap (fun x => (if x.mrn = m then some x.change else none).bind said) =
      ((p.mentions asset now).filter (·.mrn == m)).filterMap fun x => said x.change := by
    rw [List.filterMap_filter]
    refine List.filterMap_congr fun x _ => ?_
    by_cases hx : x.mrn = m <;> simp [hx]
  rw [Layer.change, h.foldl, List.filterMap_filterMap, layer_changes, List.filterMap_append, hmodifiers, List.append_nil,
    List.filterMap_map, h.silent, Option.or_none]
  exact congrArg List.getLast? hmentions

theorem layer_magnitude (depth : Nat) (m : Mrn) :
    ((p.layer asset now depth).change m).magnitude = p.lastSaid asset now Mention.magnitude m :=
  layer_said Change.replaced_magnitude depth m

theorem layer_scoring (depth : Nat) (m : Mrn) :
    ((p.layer asset now depth).change m).scoring = p.lastSaid asset now Mention.scoring m :=
  layer_said Change.replaced_scoring depth m

end Policy

theorem Change.foldl_action {changes : List Change} {first : Change}
    (h : first.action ≠ .unspecified ∨ ∃ c ∈ changes, c.action ≠ .unspecified) :
    (changes.foldl Change.then first).action ≠ .unspecified := by
  have hthen : ∀ {old new : Change}, old.action ≠ .unspecified ∨ new.action ≠ .unspecified →
      (old.then new).action ≠ .unspecified := by
    intro old new h
    show new.action.orElse old.action ≠ .unspecified
    cases hn : new.action with
    | unspecified => exact h.resolve_right fun hne => hne hn
    | _ => simp [Action.orElse]
  induction changes generalizing first with
  | nil => simpa using h
  | cons c rest ih =>
    refine ih ?_
    rcases h with h | ⟨c', hc, h⟩
    · exact .inl (hthen (.inl h))
    · rcases List.mem_cons.mp hc with rfl | hc
      · exact .inl (hthen (.inr h))
      · exact .inr ⟨c', hc, h⟩

theorem Policy.layer_action_of_mention {p : Policy} {asset : PredicateSet} {now : Timestamp} {x : Mention} (depth : Nat)
    (hx : x ∈ p.mentions asset now) (ha : x.action ≠ .unspecified) :
    ((p.layer asset now depth).change x.mrn).action ≠ .unspecified := by
  refine Change.foldl_action (.inr ⟨x.change, ?_, ha⟩)
  rw [layer_changes]
  exact List.mem_filterMap.mpr ⟨(x.mrn, x.change), List.mem_append_left _ (List.mem_map_of_mem hx), if_pos rfl⟩

theorem Overrides.Decides.le_of_visible {o : Overrides} {referrer referrer' m : Mrn} {a a' : Action}
    (h : o.Decides referrer m a) (h' : o.Decides referrer' m a')
    (hsub : ∀ l, o.Visible referrer l → o.Visible referrer' l)
    (hdeep : ∀ l l', o.Visible referrer l → o.Visible referrer' l' → l'.depth < l.depth → o.Visible referrer l') :
    a = .unspecified ∨ a' ≠ .unspecified ∧ a.restrictiveness ≤ a'.restrictiveness := by
  rcases h with ⟨l, hl, rfl, hspec, hleast⟩ | ⟨rfl, -⟩
  · right
    rcases h' with ⟨l', hl', rfl, hspec', hleast'⟩ | ⟨-, hsilent⟩
    · obtain ⟨hle, hmost⟩ := hleast' l (hsub l hl) hspec
      have hge : l.depth ≤ l'.depth := by
        by_contra hlt
        exact hlt (hleast l' (hdeep l l' hl hl' (Nat.lt_of_not_le hlt)) hspec').1
      exact ⟨hspec', hmost (Nat.le_antisymm hge hle)⟩
    · exact absurd (hsilent l (hsub l hl)) hspec
  · exact .inl rfl

theorem Action.eq_activate {a : Action} (h : a ≠ .unspecified) (hle : a.restrictiveness ≤ Action.activate.restrictiveness) :
    a = .activate := by
  cases a with
  | unspecified => exact absurd rfl h
  | activate => rfl
  | ignore => simp [Action.restrictiveness] at hle
  | deactivate => simp [Action.restrictiveness] at hle

namespace Setting

section

variable (s : Setting) (roots : List Mrn)

/-- The value is that of the shallowest policy that has one, of several at one depth of the least mrn. -/
def Foremost {α : Type} (f : Policy → Option α) (v : Option α) : Prop :=
  (∃ n p, s.AtDepth roots n p ∧ f p = v ∧ v ≠ none ∧
    ∀ k q, s.AtDepth roots k q → f q ≠ none → q = p ∨ n < k ∨ n = k ∧ p.mrn < q.mrn) ∨
  v = none ∧ ∀ p, s.Walked roots p → f p = none

end

variable {s : Setting} {roots : List Mrn} {p : Policy} {k : RiskFactor} {x : Mention}

theorem foremost_of_first {α : Type} {f : Policy → Option α} {g : Layer → Option α} {v : Option α} (hs : s.Collected roots)
    (h : s.overrides.First g v) (hg : ∀ n p, g (p.layer s.asset s.now n) = f p) : s.Foremost roots f v := by
  rcases h with ⟨l, hl, hv, hsome, hleast⟩ | ⟨hv, hnone⟩
  · obtain ⟨n, p, hp, rfl⟩ := (mem_layers_iff hs l).mp hl
    refine .inl ⟨n, p, hp, (hg n p).symm.trans hv, hsome, fun k q hq hsaid => ?_⟩
    rcases hleast _ ((mem_layers_iff hs _).mpr ⟨k, q, hq, rfl⟩) (by rwa [hg]) with he | hbefore
    · have hm : q.mrn = p.mrn := congrArg Layer.owner he
      have hq' := Keyed.find?_of_mem hq.1.mem
      rw [hm, Keyed.find?_of_mem hp.1.mem] at hq'
      exact .inl (Option.some.inj hq').symm
    · exact .inr hbefore
  · refine .inr ⟨hv, fun p hp => ?_⟩
    obtain ⟨n, hc⟩ := walked_iff_exists_chain.mp hp
    obtain ⟨k, -, hk⟩ := hc.exists_atDepth
    rw [← hg k p]
    exact hnone _ ((mem_layers_iff hs _).mpr ⟨k, p, hk, rfl⟩)

theorem magnitude_foremost (hs : s.Collected roots) (m : Mrn) :
    s.Foremost roots (fun p => p.lastSaid s.asset s.now Mention.magnitude m) (s.overrides.magnitude m) := by
  refine foremost_of_first hs ((Overrides.findSome?_eq_iff ?_).mp rfl) fun n p => p.layer_magnitude n m
  rw [hs]
  exact (Overrides.collect_ordered ..).1

theorem scoring_foremost (hs : s.Collected roots) (m : Mrn) :
    s.Foremost roots (fun p => p.lastSaid s.asset s.now Mention.scoring m) (s.overrides.scoring m) := by
  refine foremost_of_first hs ((Overrides.findSome?_eq_iff ?_).mp rfl) fun n p => p.layer_scoring n m
  rw [hs]
  exact (Overrides.collect_ordered ..).1

theorem visible_of_riskFactor (h : s.Proper) (hs : s.Collected roots) (hk : (Kind.riskFactor, k.mrn) ∈ s.bundle.names)
    {l : Layer} : s.overrides.Visible k.mrn l ↔ l ∈ s.overrides.layers := by
  refine ⟨And.left, fun hl => ⟨hl, fun own hown he => ?_⟩⟩
  obtain ⟨p, hm, hp⟩ := (mem_owners_iff hs own.owner).mp (List.mem_map_of_mem hown)
  have hname : (Kind.policy, p.mrn) ∈ s.bundle.names := Bundle.mem_names_policy.mpr ⟨p, hp.declared⟩
  rw [hm, he] at hname
  exact absurd (h.distinct.kind_eq hk hname) (by simp)

theorem exists_visible_iff (hs : s.Collected roots) (hp : s.Walked roots p) :
    ∃ depth, p.layer s.asset s.now depth ∈ s.overrides.layers ∧ ∀ l, s.overrides.Visible p.mrn l ↔
      l ∈ s.overrides.layers ∧ (l = p.layer s.asset s.now depth ∨ l.depth < depth) := by
  obtain ⟨n, hc⟩ := walked_iff_exists_chain.mp hp
  obtain ⟨depth, -, hdepth⟩ := hc.exists_atDepth
  have hown := (mem_layers_iff hs _).mpr ⟨depth, p, hdepth, rfl⟩
  refine ⟨depth, hown, fun l => ⟨fun hl => ⟨hl.1, hl.2 _ hown rfl⟩, fun hl => ⟨hl.1, fun own hmem ho => ?_⟩⟩⟩
  obtain rfl := List.inj_on_of_nodup_map (owners_nodup hs) hmem hown ho
  exact hl.2

theorem overall_eq_activate (ha : s.Active k) (h : s.overrides.overall k.mrn ≠ .unspecified) :
    s.overrides.overall k.mrn = .activate := by
  have hact := ha.1
  cases ho : s.overrides.overall k.mrn with
  | unspecified => exact absurd ho h
  | activate => rfl
  | deactivate => simp [ho, Action.orElse] at hact
  | ignore => simp [ho, Action.orElse] at hact

/-- What is active by all layers together is not ignored by any policy that mentions it: a layer that a policy does
not see is no shallower than its own, which has the action of the mention. -/
theorem effective_of_active (h : s.Proper) (hs : s.Collected roots) (hk : (Kind.riskFactor, k.mrn) ∈ s.bundle.names)
    (ha : s.Active k) (hp : s.Walked roots p) (hx : x ∈ p.mentions s.asset s.now) (hm : x.mrn = k.mrn) :
    s.overrides.effective p.mrn x.mrn x.action = .unspecified ∨ s.overrides.effective p.mrn x.mrn x.action = .activate := by
  obtain ⟨hordered, honce⟩ : s.overrides.layers.Pairwise Layer.Before ∧ (s.overrides.layers.map (·.owner)).Nodup := by
    rw [hs]
    exact Overrides.collect_ordered ..
  have hall : s.overrides.Decides k.mrn k.mrn (s.overrides.overall k.mrn) :=
    (Overrides.action_eq_iff hordered honce).mp (h.sees .riskFactor _ hk (by simp) _)
  have hread : s.overrides.Decides p.mrn k.mrn (s.overrides.action p.mrn k.mrn) :=
    (Overrides.action_eq_iff hordered honce).mp rfl
  obtain ⟨depth, hown, hvisible⟩ := exists_visible_iff hs hp
  have hdeep : ∀ l l', s.overrides.Visible p.mrn l → s.overrides.Visible k.mrn l' → l'.depth < l.depth →
      s.overrides.Visible p.mrn l' := by
    refine fun l l' hl hl' hlt => (hvisible l').mpr ⟨hl'.1, .inr ?_⟩
    rcases ((hvisible l).mp hl).2 with rfl | hless
    · exact hlt
    · exact Nat.lt_trans hlt hless
  rw [hm, Overrides.effective]
  by_cases hspec : s.overrides.action p.mrn k.mrn = .unspecified
  · left
    rcases hread with ⟨-, -, -, hne, -⟩ | ⟨-, hsilent⟩
    · exact absurd hspec hne
    · have hx' : x.action = .unspecified := by
        by_contra hne
        exact Policy.layer_action_of_mention depth hx hne (hm ▸ hsilent _ ((hvisible _).mpr ⟨hown, .inl rfl⟩))
      rw [hspec, hx']
      rfl
  · right
    obtain ⟨hne, hle⟩ := (hread.le_of_visible hall (fun l hl => (visible_of_riskFactor h hs hk).mpr hl.1) hdeep).resolve_left
      hspec
    rw [overall_eq_activate ha hne] at hle
    rw [Action.eq_activate hspec hle]
    rfl

end Setting

end Compliance
